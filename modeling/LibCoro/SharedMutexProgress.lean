import LibCoro.ConditionVariableProgress
import LibCoro.LockGuard
import LibCoro.SharedMutexGuard
import LibCoro.SharedMutexLeftBehind

namespace LibCoro.SharedMutex

open Machine
open Sections (Mode Place Live)
open ConditionVariable (suspendLeft notifyLeft parked)

variable {C : Type} {L : Lock C} [Fintype C] [DecidableEq C]

def Wait.left : Wait → Nat
  | .writeEntered => 3
  | .readers | .maxReaders => 0

def Op.left (n : Nat) : Op → Nat
  | .coLock => 15
  | .coLockShared => 12
  | .unlock => 13 + n
  | .unlockShared => 15 + n

/-- The steps that a coroutine has at most before it is out of its call or sleeps. Whoever is
going to notify has ten more for everybody whom it may wake, and hands on eight of them. -/
def rank (s : State L) (k : C) : Nat :=
  match s.pc k with
  | .idle | .assertFailed | .overlap => 0
  | .returning => 1
  | .release => 2
  | .lockDone | .trySet | .sharedIncrement => 3
  | .tryTest | .trySharedTest => 4
  | .waiting w => w.left + if (s.gate w.gate).pc k = .parked then 4 else 12
  | .waitUnlock w => w.left + 5
  | .waitSuspend w => w.left + 5 + suspendLeft (s.gate w.gate) ((s.gate w.gate).pc k)
  | .waitTest w => w.left + 10
  | .waitLock w => w.left + 11
  | .lockTestReaders | .sharedTest => 11
  | .lockSetFlag => 12
  | .lockTest => 14
  | .notifying g => 3 + notifyLeft (s.gate g) ((s.gate g).pc k) + 10 * parked (s.gate g)
  | .notifyAll _ | .notifyOne _ => 10 + 10 * Fintype.card C
  | .unlockClear | .unsharedTestReaders => 11 + 10 * Fintype.card C
  | .unlockAssert | .unsharedTest _ => 12 + 10 * Fintype.card C
  | .unsharedDecrement => 13 + 10 * Fintype.card C
  | .unsharedAssert => 14 + 10 * Fintype.card C
  | .acquire o => o.left (10 * Fintype.card C)

def total (s : State L) : Nat := ∑ k, rank s k

variable {s t : State L} {k b : C} {g : Gate} {n : Nat}

/-- One coroutine goes on, and may hand on `n` of its steps to another one. -/
theorem total_lt (hk : rank t k + n < rank s k)
    (h : ∀ j, j ≠ k → rank t j ≤ rank s j + if j = b then n else 0) : total t < total s := by
  have hpoint : ∀ j ∈ Finset.univ, (rank t j + if j = k then n + 1 else 0) ≤
      rank s j + if j = b then n else 0 := by
    intro j _
    by_cases hj : j = k
    · subst hj
      simp only [if_true]
      omega
    · rw [if_neg hj, Nat.add_zero]
      exact h j hj
  have hsum := Finset.sum_le_sum hpoint
  simp only [Finset.sum_add_distrib, Finset.sum_ite_eq', Finset.mem_univ, if_true] at hsum
  unfold total
  omega

theorem total_lt_of_frame (hk : rank t k < rank s k) (h : ∀ j, j ≠ k → rank t j = rank s j) :
    total t < total s :=
  total_lt (b := k) (n := 0) hk fun j hj => by simp [h j hj]

theorem rank_frame (hi : Inv s) {j : C} (hst : L.status s.mut_ j ≠ .holding) (hpc : t.pc j = s.pc j)
    (hg : ∀ g, (t.gate g).pc j = (s.gate g).pc j) : rank t j = rank s j := by
  have hat := hi.status j
  cases hp : s.pc j with
  | idle | acquire o | waitLock w | returning => simp [rank, hpc, hp]
  | waiting w => simp [rank, hpc, hp, hg]
  | assertFailed | overlap =>
    rw [hp] at hat
    exact hat.elim
  | _ =>
    rw [hp] at hat
    exact absurd hat hst

omit [DecidableEq C] in
theorem not_holding (hi : Inv s) (hk : L.status s.mut_ k = .holding) {j : C} (hj : j ≠ k) :
    L.status s.mut_ j ≠ .holding := by
  obtain h | h := status_ne hi hk hj <;> simp [h]

theorem total_goto (hi : Inv s) (hk : ∀ j, j ≠ k → L.status s.mut_ j ≠ .holding) {u : State L} {p : Pc}
    (hpc : u.pc = s.pc) (hg : ∀ j, j ≠ k → ∀ g, (u.gate g).pc j = (s.gate g).pc j)
    (hlt : rank (u.goto k p) k < rank s k) : total (u.goto k p) < total s := by
  refine total_lt_of_frame hlt fun j hj => rank_frame hi (hk j hj) ?_ (hg j hj)
  rw [State.goto, hpc]
  exact Function.update_of_ne hj _ _

theorem rank_wake (hi : Inv s) (hst : L.status s.mut_ b ≠ .holding) (hpk : (s.gate g).pc b = .parked)
    (hpc : t.pc b = s.pc b) (hidle : (t.gate g).pc b = .idle) : rank t b = rank s b + 8 := by
  obtain ⟨w, rfl, hw | hw⟩ := waiter_of_parked hi hpk
  · have hat := hi.status b
    rw [hw] at hat
    exact absurd hat hst
  · simp [rank, hpc, hw, hpk, hidle]

section owner

variable {u : State L} {p : Pc}

theorem steps_goto (hi : Inv s) (hk : L.status s.mut_ k = .holding)
    (ha : advance s k false = some (u.goto k p)) (hpc : u.pc = s.pc)
    (hg : ∀ j, j ≠ k → ∀ g, (u.gate g).pc j = (s.gate g).pc j)
    (hlt : rank (u.goto k p) k < rank s k) :
    ∃ t, step s (.advance k false) = some t ∧ total t < total s :=
  ⟨_, ha, total_goto hi (fun _ hj => not_holding hi hk hj) hpc hg hlt⟩

theorem steps_unlock (hi : Inv s) (hk : L.status s.mut_ k = .holding)
    (hunlock : ∃ m, L.unlock s.mut_ k = some m) (ha : advance s k false = lockStep s k L.unlock fun _ => p)
    (hlt : ∀ u : State L, u.gate = s.gate → rank (u.goto k p) k < rank s k) :
    ∃ t, step s (.advance k false) = some t ∧ total t < total s := by
  obtain ⟨m, hm⟩ := hunlock
  refine steps_goto (u := { s with mut_ := m }) hi hk ?_ rfl (fun _ _ _ => rfl) (hlt _ rfl)
  rw [ha, lockStep, hm]
  rfl

theorem steps_gate (hi : Inv s) (hk : L.status s.mut_ k = .holding) {a : ConditionVariable.Act C}
    {v : ConditionVariable.State C} {p : ConditionVariable.State C → Pc}
    (ha : advance s k false = gateStep s g k a p) (hv : ConditionVariable.step (s.gate g) a = some v)
    (hpc : ∀ j, j ≠ k → v.pc j = (s.gate g).pc j)
    (hlt : ∀ u : State L, u.gate g = v → rank (u.goto k (p v)) k < rank s k) :
    ∃ t, step s (.advance k false) = some t ∧ total t < total s := by
  refine steps_goto (u := { s with gate := Function.update s.gate g v }) (p := p v) hi hk ?_ rfl
    (fun j hj h => ?_) (hlt _ (Function.update_self ..))
  · rw [ha, gateStep, hv]
    rfl
  · by_cases hg : h = g
    · subst hg
      simp [hpc j hj]
    · simp [hg]

theorem steps_waitSuspend (hi : Inv s) (hk : L.status s.mut_ k = .holding) {w : Wait}
    (hpc : s.pc k = .waitSuspend w) : ∃ t, step s (.advance k false) = some t ∧ total t < total s := by
  have hgt := hi.gateAt k w.gate
  rw [hpc, GateAt, if_pos rfl] at hgt
  obtain ⟨v, hv, hother, hnext⟩ := ConditionVariable.suspend_advances hgt
  have hpos := ConditionVariable.suspendLeft_pos (s.gate w.gate) hgt
  refine steps_gate (p := fun v => if v.pc k = .parked then .waitUnlock w else .waitSuspend w) hi hk
    (by simp [advance, hpc]) hv hother fun u hu => ?_
  obtain hpk | ⟨hpush, hlt⟩ := hnext
  · simp only [hpk, if_true, rank, goto_pc, hpc]
    omega
  · have hnp : v.pc k ≠ .parked := by
      intro hpk
      rw [hpk] at hpush
      exact hpush
    have hgu : ((u.goto k (.waitSuspend w)).gate w.gate) = v := hu
    simp only [hnp, if_false, rank, goto_pc, hpc, hgu]
    omega

theorem steps_waitTest (hi : Inv s) (hk : L.status s.mut_ k = .holding) {w : Wait}
    (hpc : s.pc k = .waitTest w) : ∃ t, step s (.advance k false) = some t ∧ total t < total s := by
  have hgt := hi.gateAt k w.gate
  rw [hpc] at hgt
  by_cases hpred : w.pred s.state_ = true
  · refine steps_goto (u := s) (p := w.next) hi hk (by simp [advance, hpc, hpred]) rfl
      (fun _ _ _ => rfl) ?_
    cases w <;> simp [rank, goto_pc, hpc, Wait.next, Wait.left]
  · refine steps_gate (a := .suspend k) (p := fun _ => .waitSuspend w) hi hk (by simp [advance, hpc, hpred])
      (if_pos hgt) (fun j hj => ConditionVariable.pc_goto_ne _ _ hj) fun u hu => ?_
    simp only [rank, goto_pc, hpc]
    rw [show (u.goto k (.waitSuspend w)).gate w.gate = _ from hu, ConditionVariable.pc_goto]
    simp only [suspendLeft]
    omega

theorem steps_notify (hi : Inv s) (hk : L.status s.mut_ k = .holding)
    (hpc : s.pc k = .notifyAll g ∨ s.pc k = .notifyOne g) :
    ∃ t, step s (.advance k false) = some t ∧ total t < total s := by
  have hgt := hi.gateAt k g
  have hcall : ∀ (a : ConditionVariable.Act C) (q : ConditionVariable.Pc C), q ≠ .parked →
      rank s k = 10 + 10 * Fintype.card C → advance s k false = gateStep s g k a (fun _ => .notifying g) →
      ConditionVariable.step (s.gate g) a = some ((s.gate g).goto k q) → notifyLeft (s.gate g) q ≤ 6 →
      (s.gate g).pc k = .idle → ∃ t, step s (.advance k false) = some t ∧ total t < total s := by
    intro a q hq hrank ha hv hleft hidle
    refine steps_gate (p := fun _ => .notifying g) hi hk ha hv
      (fun j hj => ConditionVariable.pc_goto_ne _ _ hj) fun u hu => ?_
    have hparked : parked ((s.gate g).goto k q) = parked (s.gate g) :=
      ConditionVariable.parked_frame (by simp [hidle]) (by rwa [ConditionVariable.pc_goto])
        fun j hj => ConditionVariable.pc_goto_ne _ _ hj
    have hle := ConditionVariable.parked_le (s.gate g)
    have hleft' : notifyLeft ((s.gate g).goto k q) q ≤ 6 := hleft
    rw [hrank]
    simp only [rank, goto_pc]
    rw [show (u.goto k (.notifying g)).gate g = _ from hu, ConditionVariable.pc_goto, hparked]
    omega
  obtain hpc | hpc := hpc
  · rw [hpc] at hgt
    exact hcall (.notifyAll k) .allLoad (by simp) (by simp [rank, hpc]) (by simp [advance, hpc])
      (if_pos hgt) (by simp [notifyLeft]) hgt
  · rw [hpc] at hgt
    exact hcall (.notifyOne k) .oneLoad (by simp) (by simp [rank, hpc]) (by simp [advance, hpc])
      (if_pos hgt) (by simp [notifyLeft]) hgt

theorem steps_wake (hi : Inv s) (hk : L.status s.mut_ k = .holding) {v : ConditionVariable.State C}
    (ha : advance s k false = gateStep s g k (.advance k false) fun _ => .notifying g)
    (hv : ConditionVariable.step (s.gate g) (.advance k false) = some v)
    (hb : (s.gate g).pc b = .parked) (hb' : v.pc b = .idle)
    (hpc : ∀ j, j ≠ k → j ≠ b → v.pc j = (s.gate g).pc j)
    (hlt : ∀ u : State L, u.gate g = v → rank (u.goto k (.notifying g)) k + 8 < rank s k) :
    ∃ t, step s (.advance k false) = some t ∧ total t < total s := by
  let u : State L := { s with gate := Function.update s.gate g v }
  have hgate : u.gate g = v := Function.update_self ..
  have hother : ∀ j, j ≠ k → (u.goto k (.notifying g)).pc j = s.pc j :=
    fun j hj => Function.update_of_ne hj _ _
  refine ⟨u.goto k (.notifying g), ?_, total_lt (b := b) (hlt u hgate) fun j hj => ?_⟩
  · rw [step, ha, gateStep, hv]
    rfl
  have hst := not_holding hi hk hj
  by_cases hjb : j = b
  · subst hjb
    rw [if_pos rfl]
    refine Nat.le_of_eq (rank_wake hi hst hb (hother j hj) ?_)
    rw [← hb', ← hgate]
    rfl
  · rw [if_neg hjb, Nat.add_zero]
    refine Nat.le_of_eq (rank_frame hi hst (hother j hj) fun h => ?_)
    by_cases hg : h = g
    · subst hg
      exact (congrFun (congrArg ConditionVariable.State.pc hgate) j).trans (hpc j hj hjb)
    · exact congrFun (congrArg ConditionVariable.State.pc (Function.update_of_ne hg _ _)) j

theorem steps_notifying (hi : Inv s) (hk : L.status s.mut_ k = .holding) (hpc : s.pc k = .notifying g) :
    ∃ t, step s (.advance k false) = some t ∧ total t < total s := by
  by_cases hidle : (s.gate g).pc k = .idle
  · refine steps_goto (u := s) (p := .release) hi hk (by simp [advance, hpc, hidle]) rfl
      (fun _ _ _ => rfl) ?_
    simp only [rank, goto_pc, hpc]
    omega
  have hgt := hi.gateAt k g
  rw [hpc, GateAt, if_pos rfl] at hgt
  have hnot := hgt.resolve_right hidle
  obtain ⟨l, d, hg⟩ := hi.gates g
  obtain ⟨v, hv, hadv⟩ := ConditionVariable.notify_advances hg (hi.fresh g) hnot
  obtain ⟨hpk, hpk'⟩ := ConditionVariable.awake_of_step hg (hi.fresh g) hnot hv
  have ha : advance s k false = gateStep s g k (.advance k false) fun _ => .notifying g := by
    simp [advance, hpc, hidle]
  have hrank : ∀ u : State L, u.gate g = v →
      rank (u.goto k (.notifying g)) k = 3 + notifyLeft v (v.pc k) + 10 * parked v := by
    rintro u rfl
    simp only [rank, goto_pc]
    rfl
  have hrank' : rank s k = 3 + notifyLeft (s.gate g) ((s.gate g).pc k) + 10 * parked (s.gate g) := by
    simp only [rank, hpc]
  cases hadv with
  | still pc left =>
    refine steps_gate (p := fun _ => .notifying g) hi hk ha hv pc fun u hu => ?_
    have hparked := ConditionVariable.parked_frame hpk hpk' pc
    rw [hrank u hu, hrank']
    omega
  | wakes b hb hb' pc left =>
    refine steps_wake hi hk ha hv hb hb' pc fun u hu => ?_
    have hparked := ConditionVariable.parked_wake hpk hpk' hb hb' pc
    rw [hrank u hu, hrank']
    omega

theorem owner_steps (hi : Inv s) (hk : L.status s.mut_ k = .holding)
    (hunlock : ∃ m, L.unlock s.mut_ k = some m) :
    ∃ t, step s (.advance k false) = some t ∧ total t < total s := by
  have hst := hi.status k
  rw [hk] at hst
  cases hpc : s.pc k with
  | idle | assertFailed | overlap | waiting w | returning => simp [hpc, StatusAt] at hst
  | acquire o =>
    refine steps_goto (u := s) (p := o.entry) hi hk (by simp [advance, hpc, when, hk]) rfl
      (fun _ _ _ => rfl) ?_
    cases o <;> simp [rank, goto_pc, hpc, Op.entry, Op.left]
  | waitLock w =>
    refine steps_goto (u := s) (p := .waitTest w) hi hk (by simp [advance, hpc, when, hk]) rfl
      (fun _ _ _ => rfl) ?_
    simp [rank, goto_pc, hpc]
  | waitTest w => exact steps_waitTest hi hk hpc
  | waitSuspend w => exact steps_waitSuspend hi hk hpc
  | waitUnlock w =>
    have hgt := hi.gateAt k w.gate
    rw [hpc, GateAt, if_pos rfl] at hgt
    refine steps_unlock (p := .waiting w) hi hk hunlock (by simp [advance, hpc, hgt]) fun u hu => ?_
    have hg : (u.goto k (.waiting w)).gate = s.gate := hu
    simp [rank, goto_pc, hpc, hg, hgt]
  | release =>
    refine steps_unlock (p := .returning) hi hk hunlock (by simp [advance, hpc]) fun u hu => ?_
    simp [rank, goto_pc, hpc]
  | notifyAll g => exact steps_notify hi hk (.inl hpc)
  | notifyOne g => exact steps_notify hi hk (.inr hpc)
  | notifying g => exact steps_notifying hi hk hpc
  | lockTest | lockTestReaders | tryTest | unlockAssert | sharedTest | trySharedTest | unsharedAssert
  | unsharedTest prev | unsharedTestReaders =>
    refine steps_goto (u := s) hi hk (by simp only [advance, hpc]; rfl) rfl (fun _ _ _ => rfl) ?_
    rw [rank, goto_pc, rank, hpc]
    split_ifs <;> simp [Wait.left] <;> omega
  | lockSetFlag | lockDone | trySet | unlockClear | sharedIncrement | unsharedDecrement =>
    refine ⟨_, by simp only [step, advance, hpc]; rfl, ?_⟩
    refine total_goto hi (fun _ hj => not_holding hi hk hj) rfl (fun _ _ _ => rfl) ?_
    simp [rank, goto_pc, hpc]

end owner

end LibCoro.SharedMutex
