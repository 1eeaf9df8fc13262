import LibCoro.ExclusiveNotify
import LibCoro.SharedMutexWord

namespace LibCoro.SharedMutex

open Machine

variable {C : Type} {L : Lock C}

def StatusAt : Pc → Status → Prop
  | .idle, st => st = .idle
  | .acquire _, st | .waitLock _, st => st = .acquiring ∨ st = .holding
  | .waiting _, st | .returning, st => st = .releasing ∨ st = .idle
  | .assertFailed, _ | .overlap, _ => False
  | _, st => st = .holding

def GateAt : Pc → Gate → ConditionVariable.Pc C → Prop
  | .waitSuspend w, g, q => if g = w.gate then q.Pushing else q = .idle
  | .waitUnlock w, g, q => if g = w.gate then q = .parked else q = .idle
  | .waiting w, g, q => if g = w.gate then q.Calm else q = .idle
  | .notifying h, g, q => if g = h then q.Notifying ∨ q = .idle else q = .idle
  | _, _, q => q = .idle

/-- What the code has tested before it comes to a place. -/
def Fact [Fintype C] (s : State L) (k : C) : Pc → Prop
  | .lockSetFlag => ∀ j, ¬ Writer s j
  | .lockDone => s.holders = 0
  | .trySet => s.state_ = 0
  | .acquire .unlock | .unlockAssert | .unlockClear => s.exclusive k = true
  | .acquire .unlockShared | .unsharedAssert | .unsharedDecrement => 0 < s.shared k
  | .sharedIncrement => s.state_ < maxReaders
  | _ => True

theorem calm_of_not_holding {p : Pc} {st : Status} {g : Gate} {q : ConditionVariable.Pc C}
    (hs : StatusAt p st) (hg : GateAt p g q) (hst : st ≠ .holding) : q.Calm := by
  cases p with
  | waitSuspend w | waitUnlock w | notifying h => exact absurd hs hst
  | waiting w =>
    simp only [GateAt] at hg
    split_ifs at hg
    · exact hg
    · exact .inl hg
  | _ => exact .inl hg

variable [Fintype C]

/-- The facts of a coroutine that does not own `mut_` are about its own locks. -/
theorem fact_frame {s t : State L} {j : C} {p : Pc} {st : Status} (hf : Fact s j p)
    (hs : StatusAt p st) (hst : st ≠ .holding) (he : t.exclusive j = s.exclusive j)
    (hsh : t.shared j = s.shared j) : Fact t j p := by
  cases p with
  | acquire op =>
    cases op with
    | unlock => exact he.trans hf
    | unlockShared => exact Nat.lt_of_lt_of_eq hf hsh.symm
    | coLock | coLockShared => trivial
  | lockSetFlag | lockDone | trySet | unlockAssert | unlockClear | unsharedAssert
  | unsharedDecrement | sharedIncrement => exact absurd hs hst
  | _ => trivial

theorem fact_congr {s t : State L} {j : C} {p : Pc} (hf : Fact s j p) (hst : t.state_ = s.state_)
    (he : t.exclusive = s.exclusive) (hsh : t.shared = s.shared)
    (hw : ∀ i, Writer t i ↔ Writer s i) : Fact t j p := by
  cases p with
  | acquire op =>
    cases op with
    | unlock => exact (congrFun he j).trans hf
    | unlockShared => exact Nat.lt_of_lt_of_eq hf (congrFun hsh j).symm
    | coLock | coLockShared => trivial
  | lockSetFlag => exact fun i hi => hf i ((hw i).mp hi)
  | lockDone =>
    rw [Fact, State.holders, hsh]
    exact hf
  | trySet => exact hst.trans hf
  | unlockAssert | unlockClear => exact (congrFun he j).trans hf
  | unsharedAssert | unsharedDecrement => exact Nat.lt_of_lt_of_eq hf (congrFun hsh j).symm
  | sharedIncrement => exact lt_of_eq_of_lt hst hf
  | _ => trivial

structure Inv (s : State L) : Prop where
  lock : L.Inv s.mut_
  gates : ∀ g, ∃ l d, ConditionVariable.Inv (s.gate g) l d
  fresh : ∀ g, ConditionVariable.Fresh (s.gate g)
  status : ∀ k, StatusAt (s.pc k) (L.status s.mut_ k)
  gateAt : ∀ k g, GateAt (s.pc k) g ((s.gate g).pc k)
  awake : ∀ k w, s.pc k = .waiting w → (s.gate w.gate).pc k = .idle → L.status s.mut_ k = .idle
  word : Word s
  fact : ∀ k, Fact s k (s.pc k)

theorem inv_init : Inv (init : State L) where
  lock := L.inv_init
  gates _ := ⟨_, _, ConditionVariable.inv_init⟩
  fresh _ _ := trivial
  status k := L.status_init k
  gateAt _ _ := rfl
  awake _ _ h := by cases h
  word := word_init
  fact _ := trivial

theorem status_ne {s : State L} (hi : Inv s) {j k : C} (hk : L.status s.mut_ k = .holding)
    (hj : j ≠ k) : L.status s.mut_ j = .idle ∨ L.status s.mut_ j = .acquiring := by
  have hne : ¬ (L.status s.mut_ j).Owns := fun ho => hj (L.exclusive s.mut_ j k hi.lock ho (.inl hk))
  cases hst : L.status s.mut_ j with
  | idle => exact .inl rfl
  | acquiring => exact .inr rfl
  | holding => exact absurd (.inl hst) hne
  | releasing => exact absurd (.inr hst) hne

theorem waiter_of_parked {s : State L} {g : Gate} {c : C} (hi : Inv s)
    (hpk : (s.gate g).pc c = .parked) :
    ∃ w : Wait, g = w.gate ∧ (s.pc c = .waitUnlock w ∨ s.pc c = .waiting w) := by
  have hgt := hi.gateAt c g
  rw [hpk] at hgt
  cases hpc : s.pc c with
  | waitUnlock w | waiting w =>
    rw [hpc] at hgt
    simp only [GateAt] at hgt
    split_ifs at hgt with hg
    exact ⟨w, hg, by simp⟩
  | waitSuspend w | notifying h =>
    rw [hpc] at hgt
    simp only [GateAt] at hgt
    split_ifs at hgt
    simp [ConditionVariable.Pc.Pushing, ConditionVariable.Pc.Notifying] at hgt
  | _ =>
    rw [hpc] at hgt
    cases hgt

variable [DecidableEq C]

omit [Fintype C] in
theorem writer_goto {s : State L} {k : C} {p : Pc} (hp : p.PastFlag ↔ (s.pc k).PastFlag) (u : State L)
    (hpc : u.pc = s.pc) (he : u.exclusive = s.exclusive) (j : C) :
    Writer (u.goto k p) j ↔ Writer s j := by
  unfold Writer
  by_cases hj : j = k
  · subst hj
    simp [State.goto, he, hp]
  · simp [State.goto, he, hpc, hj]

theorem inv_lockStep {s : State L} {k : C} {m : L.State} {p : Pc} (hi : Inv s) (hm : L.Inv m)
    (hother : ∀ j, j ≠ k → L.status m j = L.status s.mut_ j) (hstatus : StatusAt p (L.status m k))
    (hgate : ∀ g, GateAt p g ((s.gate g).pc k))
    (hawake : ∀ w, p = .waiting w → (s.gate w.gate).pc k = .idle → L.status m k = .idle)
    (hp : p.PastFlag ↔ (s.pc k).PastFlag) (hf : Fact s k p) :
    Inv ({ s with mut_ := m }.goto k p) := by
  have hw := writer_goto hp { s with mut_ := m } rfl rfl
  have hfact : ∀ j q, Fact s j q → Fact ({ s with mut_ := m }.goto k p) j q :=
    fun j q h => fact_congr h rfl rfl rfl hw
  refine ⟨hm, hi.gates, hi.fresh, ?_, ?_, ?_, ?_, ?_⟩
  · refine (Function.forall_update_iff s.pc fun j q => StatusAt q (L.status m j)).mpr
      ⟨hstatus, fun j hj => ?_⟩
    rw [hother j hj]
    exact hi.status j
  · exact (Function.forall_update_iff s.pc fun j q => ∀ g, GateAt q g ((s.gate g).pc j)).mpr
      ⟨hgate, fun j _ => hi.gateAt j⟩
  · refine (Function.forall_update_iff s.pc fun j q => ∀ w, q = .waiting w →
      (s.gate w.gate).pc j = .idle → L.status m j = .idle).mpr ⟨hawake, fun j hj w hpc hq => ?_⟩
    rw [hother j hj]
    exact hi.awake j w hpc hq
  · exact word_congr hi.word rfl rfl hw hi.word.alone
  · exact (Function.forall_update_iff s.pc fun j q => Fact ({ s with mut_ := m }.goto k p) j q).mpr
      ⟨hfact k p hf, fun j _ => hfact j _ (hi.fact j)⟩

theorem inv_goto {s : State L} {k : C} {p : Pc} (hi : Inv s) (hstatus : StatusAt p (L.status s.mut_ k))
    (hgate : ∀ g, GateAt p g ((s.gate g).pc k)) (hwait : ∀ w, p ≠ .waiting w)
    (hp : p.PastFlag ↔ (s.pc k).PastFlag) (hf : Fact s k p) : Inv (s.goto k p) :=
  inv_lockStep hi hi.lock (fun _ _ => rfl) hstatus hgate (fun w h => absurd h (hwait w)) hp hf

theorem inv_gateStep {s : State L} {k : C} {g : Gate} {a : ConditionVariable.Act C}
    {v : ConditionVariable.State C} {p : Pc} (hi : Inv s) (hk : L.status s.mut_ k = .holding)
    (ha : a.actor = k) (hv : ConditionVariable.step (s.gate g) a = some v)
    (hstatus : StatusAt p .holding) (hgate : GateAt p g (v.pc k))
    (hgates : ∀ h, h ≠ g → GateAt p h ((s.gate h).pc k)) (hwait : ∀ w, p ≠ .waiting w)
    (hp : p.PastFlag ↔ (s.pc k).PastFlag) (hf : Fact s k p) :
    Inv ({ s with gate := Function.update s.gate g v }.goto k p) := by
  have hw := writer_goto hp { s with gate := Function.update s.gate g v } rfl rfl
  have hfact : ∀ j q, Fact s j q →
      Fact ({ s with gate := Function.update s.gate g v }.goto k p) j q :=
    fun j q h => fact_congr h rfl rfl rfl hw
  have hcalm : ∀ j, j ≠ k → ∀ h, ((s.gate h).pc j).Calm := by
    intro j hj h
    have hst := status_ne hi hk hj
    apply calm_of_not_holding (hi.status j) (hi.gateAt j h)
    obtain hst | hst := hst <;> simp [hst]
  -- another coroutine is only touched by its resumption, and then it waits
  have hsame : ∀ j, j ≠ k → v.pc j = (s.gate g).pc j ∨
      ((s.gate g).pc j = .parked ∧ v.pc j = .idle) := by
    intro j hj
    have hpc := ConditionVariable.pc_of_step hv (j := j) (ha ▸ hj)
    exact hpc.imp_right fun h => ⟨h.1, h.2.1⟩
  have hresumed : ∀ j, j ≠ k → (s.gate g).pc j = .parked → ∃ w, s.pc j = .waiting w ∧ g = w.gate := by
    intro j hj hpk
    obtain ⟨w, hg, hpc | hpc⟩ := waiter_of_parked hi hpk
    · have hsj := hi.status j
      rw [hpc] at hsj
      have hsj' : L.status s.mut_ j = .holding := hsj
      have hst := status_ne hi hk hj
      obtain hst | hst := hst <;> (rw [hst] at hsj'; cases hsj')
    · exact ⟨w, hpc, hg⟩
  refine ⟨hi.lock, fun h => ?_, fun h => ?_, ?_, ?_, ?_, ?_, ?_⟩
  · by_cases hg : h = g
    · subst hg
      have hvi := ConditionVariable.inv_step (hi.gates h)
        (ConditionVariable.oneSafe_of_fresh (hi.fresh h) a) hv
      simpa [State.goto] using hvi
    · simpa [State.goto, hg] using hi.gates h
  · by_cases hg : h = g
    · subst hg
      have hvf := ConditionVariable.fresh_step (hi.fresh h) (fun j hj => hcalm j (ha ▸ hj) h) hv
      simpa [State.goto] using hvf
    · simpa [State.goto, hg] using hi.fresh h
  · refine (Function.forall_update_iff s.pc fun j q => StatusAt q (L.status s.mut_ j)).mpr
      ⟨hk ▸ hstatus, fun j _ => hi.status j⟩
  · refine (Function.forall_update_iff s.pc fun j q =>
      ∀ h, GateAt q h ((Function.update s.gate g v h).pc j)).mpr ⟨fun h => ?_, fun j hj h => ?_⟩
    · by_cases hg : h = g
      · subst hg
        rwa [Function.update_self]
      · rw [Function.update_of_ne hg]
        exact hgates h hg
    · by_cases hg : h = g
      · subst hg
        rw [Function.update_self]
        obtain hpc | ⟨hpk, hidle⟩ := hsame j hj
        · rw [hpc]
          exact hi.gateAt j h
        · obtain ⟨w, hwaits, rfl⟩ := hresumed j hj hpk
          rw [hwaits, hidle]
          simp [GateAt, ConditionVariable.Pc.Calm]
      · rw [Function.update_of_ne hg]
        exact hi.gateAt j h
  · refine (Function.forall_update_iff s.pc fun j q => ∀ w, q = .waiting w →
      (Function.update s.gate g v w.gate).pc j = .idle → L.status s.mut_ j = .idle).mpr
      ⟨fun w hw' => absurd hw' (hwait w), fun j hj w hpc hq => ?_⟩
    have hst := hi.status j
    rw [hpc] at hst
    obtain h | h := status_ne hi hk hj
    · exact h
    · rw [h] at hst
      obtain hst | hst := hst <;> cases hst
  · exact word_congr hi.word rfl rfl hw hi.word.alone
  · exact (Function.forall_update_iff s.pc fun j q =>
      Fact ({ s with gate := Function.update s.gate g v }.goto k p) j q).mpr
      ⟨hfact k p hf, fun j _ => hfact j _ (hi.fact j)⟩

theorem inv_wordStep {s t : State L} {k : C} {p : Pc} (hi : Inv s)
    (hk : L.status s.mut_ k = .holding) (hmut : t.mut_ = s.mut_) (hgate : t.gate = s.gate)
    (hpc : t.pc = Function.update s.pc k p) (hex : ∀ j, j ≠ k → t.exclusive j = s.exclusive j)
    (hsh : ∀ j, j ≠ k → t.shared j = s.shared j) (hword : Word t) (hstatus : StatusAt p .holding)
    (hg : ∀ g, GateAt p g ((s.gate g).pc k)) (hwait : ∀ w, p ≠ .waiting w) (hf : Fact t k p) :
    Inv t := by
  refine ⟨?_, ?_, ?_, ?_, ?_, ?_, hword, ?_⟩
  · rw [hmut]
    exact hi.lock
  · rw [hgate]
    exact hi.gates
  · rw [hgate]
    exact hi.fresh
  · rw [hpc, hmut]
    exact (Function.forall_update_iff s.pc fun j q => StatusAt q (L.status s.mut_ j)).mpr
      ⟨hk ▸ hstatus, fun j _ => hi.status j⟩
  · rw [hpc, hgate]
    exact (Function.forall_update_iff s.pc fun j q => ∀ g, GateAt q g ((s.gate g).pc j)).mpr
      ⟨hg, fun j _ => hi.gateAt j⟩
  · rw [hpc, hgate, hmut]
    exact (Function.forall_update_iff s.pc fun j q => ∀ w, q = .waiting w →
      (s.gate w.gate).pc j = .idle → L.status s.mut_ j = .idle).mpr
      ⟨fun w h => absurd h (hwait w), fun j _ => hi.awake j⟩
  · rw [hpc]
    refine (Function.forall_update_iff s.pc fun j q => Fact t j q).mpr ⟨hf, fun j hj => ?_⟩
    apply fact_frame (hi.fact j) (hi.status j) _ (hex j hj) (hsh j hj)
    obtain h | h := status_ne hi hk hj <;> simp [h]

end LibCoro.SharedMutex
