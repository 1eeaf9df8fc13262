import LibCoro.Registered
import LibCoro.SharedMutexExclusion
import Mathlib.Data.Finset.Card

namespace LibCoro.SharedMutex

open Machine
open ConditionVariable (Registered parked_of_registered registered_step sweeping_step picking_step)

variable {C : Type} {L : Lock C}

def Parked (s : State L) (w : Wait) (c : C) : Prop :=
  s.pc c = .waiting w ∧ (s.gate w.gate).pc c = .parked

/-- The coroutine has registered in the call `w` of `wait`, and no notification has taken it. -/
def Standing (s : State L) (w : Wait) (c : C) : Prop :=
  (s.pc c = .waitUnlock w ∨ s.pc c = .waiting w) ∧ Registered (s.gate w.gate) c

def Woken (s : State L) (c : C) : Prop :=
  (s.pc c = .waiting .maxReaders ∧ (s.gate .gate1).pc c = .idle) ∨ s.pc c = .waitLock .maxReaders

def Arrives (s : State L) (c : C) : Prop :=
  ((s.pc c = .waitUnlock .maxReaders ∨ s.pc c = .waiting .maxReaders) ∧
      ¬ Registered (s.gate .gate1) c) ∨
    s.pc c = .waitLock .maxReaders ∨ s.pc c = .waitTest .maxReaders ∨ s.pc c = .sharedIncrement

def Picks (s : State L) (g : Gate) (k : C) : Prop :=
  s.pc k = .notifyOne g ∨ (s.pc k = .notifying g ∧ ((s.gate g).pc k).Picking)

def Sweeps (s : State L) (g : Gate) (k : C) : Prop :=
  s.pc k = .notifyAll g ∨ (s.pc k = .notifying g ∧ ((s.gate g).pc k).Sweeping)

/-- The coroutine takes a free slot, or wakes a reader for it. -/
def Serves (s : State L) (c : C) : Prop :=
  Arrives s c ∨ s.pc c = .unsharedTest maxReaders ∨ Picks s .gate1 c

def Signals (s : State L) (k : C) : Prop :=
  (∃ prev, s.pc k = .unsharedTest prev) ∨ s.pc k = .unsharedTestReaders ∨ Picks s .gate2 k

def Act.actor : Act L → Option C
  | .coLock k | .tryLock k | .unlock k | .coLockShared k | .tryLockShared k | .unlockShared k
  | .advance k _ => some k
  | .move _ => none

def wordAfter (state_ : Nat) : Pc → Nat
  | .lockSetFlag => state_ ||| writeEnteredFlag
  | .trySet => writeEnteredFlag
  | .unlockClear => 0
  | .sharedIncrement => increment state_
  | .unsharedDecrement => decrement state_
  | _ => state_

def Flows (state_ : Nat) : Pc → Pc → Prop
  | p, .waitSuspend w => p = .waitSuspend w ∨ (p = .waitTest w ∧ w.pred state_ = false)
  | p, .waitUnlock w => p = .waitSuspend w
  | p, .waiting w => p = .waitUnlock w
  | .unlockClear, q => q = .notifyAll .gate1
  | .unsharedDecrement, q => q = .unsharedTest state_
  | _, _ => True

structure Moves (s t : State L) (k : C) : Prop where
  other : ∀ j, j ≠ k → t.pc j = s.pc j
  word : t.state_ = wordAfter s.state_ (s.pc k)
  flow : Flows s.state_ (s.pc k) (t.pc k)

instance [DecidableEq C] (s : State L) (w : Wait) (c : C) : Decidable (Parked s w c) := by
  unfold Parked
  infer_instance

instance [DecidableEq C] (s : State L) (c : C) : Decidable (Woken s c) := by
  unfold Woken
  infer_instance

variable [DecidableEq C] {s t : State L} {a : Act L} {j k c : C} {w : Wait} {g : Gate}

theorem moves_goto {u : State L} {p : Pc} (hu : u.pc = s.pc)
    (hw : u.state_ = wordAfter s.state_ (s.pc k)) (hf : Flows s.state_ (s.pc k) p) :
    Moves s (u.goto k p) k where
  other j hj := by
    rw [State.goto, hu]
    exact Function.update_of_ne hj _ _
  word := hw
  flow := by simpa [State.goto] using hf

theorem moves_of_step (h : step s a = some t) (hk : a.actor = some k) : Moves s t k := by
  have hlock : ∀ {f : L.State → C → Option L.State} {p : L.State → Pc},
      lockStep s k f p = some t → s.state_ = wordAfter s.state_ (s.pc k) →
      (∀ m, Flows s.state_ (s.pc k) (p m)) → Moves s t k := by
    intro f p hs hw hf
    obtain ⟨m, -, rfl⟩ := Option.map_eq_some_iff.mp hs
    exact moves_goto rfl hw (hf m)
  have hgate : ∀ {g : Gate} {b : ConditionVariable.Act C} {p : ConditionVariable.State C → Pc},
      gateStep s g k b p = some t → s.state_ = wordAfter s.state_ (s.pc k) →
      (∀ v, Flows s.state_ (s.pc k) (p v)) → Moves s t k := by
    intro g b p hs hw hf
    obtain ⟨v, -, rfl⟩ := Option.map_eq_some_iff.mp hs
    exact moves_goto rfl hw (hf v)
  cases a with
  | coLock k | coLockShared k =>
    cases hk
    simp only [step] at h
    split_ifs at h with hpc
    exact hlock h (by simp [hpc, wordAfter]) (by simp [hpc, Flows])
  | unlock k | unlockShared k =>
    cases hk
    simp only [step] at h
    split_ifs at h with hpc
    exact hlock h (by simp [hpc.1, wordAfter]) (by simp [hpc.1, Flows])
  | tryLock k | tryLockShared k =>
    cases hk
    simp only [step] at h
    split_ifs at h with hpc
    refine hlock h (by simp [hpc, wordAfter]) fun m => ?_
    unfold tried
    split_ifs <;> simp [hpc, Flows]
  | move m => cases hk
  | advance k spurious =>
    cases hk
    simp only [step] at h
    cases hpc : s.pc k with
    | idle | assertFailed | overlap => simp [advance, hpc] at h
    | waitSuspend v =>
      simp only [advance, hpc] at h
      refine hgate h (by simp [hpc, wordAfter]) fun u => ?_
      split_ifs <;> simp [hpc, Flows]
    | notifyAll g | notifyOne g =>
      simp only [advance, hpc] at h
      exact hgate h (by simp [hpc, wordAfter]) (by simp [hpc, Flows])
    | waitTest v =>
      simp only [advance, hpc] at h
      split_ifs at h with hv
      · cases h
        refine moves_goto rfl (by simp [hpc, wordAfter]) ?_
        cases v <;> simp [hpc, Flows, Wait.next]
      · exact hgate h (by simp [hpc, wordAfter]) (by simp [hpc, Flows, hv])
    | notifying g =>
      simp only [advance, hpc] at h
      split_ifs at h
      · cases h
        exact moves_goto rfl (by simp [hpc, wordAfter]) (by simp [hpc, Flows])
      · exact hgate h (by simp [hpc, wordAfter]) (by simp [hpc, Flows])
    | waitUnlock v | waiting v =>
      simp only [advance, hpc] at h
      split_ifs at h
      all_goals first
        | exact hlock h (by simp [hpc, wordAfter]) (by simp [hpc, Flows])
        | cases h; exact moves_goto rfl (by simp [hpc, wordAfter]) (by simp [hpc, Flows])
    | release =>
      simp only [advance, hpc] at h
      exact hlock h (by simp [hpc, wordAfter]) (by simp [hpc, Flows])
    | acquire op =>
      simp only [advance, hpc, when_eq_some] at h
      obtain ⟨-, rfl⟩ := h
      refine moves_goto rfl (by simp [hpc, wordAfter]) ?_
      cases op <;> simp [hpc, Flows, Op.entry]
    | waitLock v | returning =>
      simp only [advance, hpc, when_eq_some] at h
      obtain ⟨-, rfl⟩ := h
      exact moves_goto rfl (by simp [hpc, wordAfter]) (by simp [hpc, Flows])
    | _ =>
      simp only [advance, hpc, Option.some.injEq] at h
      subst h
      refine moves_goto rfl (by simp [hpc, wordAfter]) ?_
      try split_ifs
      all_goals simp [hpc, Flows]

theorem still_of_move {m : L.Move} (h : step s (.move m) = some t) :
    t.pc = s.pc ∧ t.gate = s.gate ∧ t.state_ = s.state_ := by
  obtain ⟨v, -, rfl⟩ := Option.map_eq_some_iff.mp h
  exact ⟨rfl, rfl, rfl⟩

theorem pc_of_step (h : step s a = some t) (hj : a.actor ≠ some j) : t.pc j = s.pc j := by
  cases hk : a.actor with
  | some k =>
    have hjk : j ≠ k := by
      rintro rfl
      exact hj hk
    exact (moves_of_step h hk).other j hjk
  | none =>
    cases a with
    | move m => rw [(still_of_move h).1]
    | _ => cases hk

theorem actor_of_gateAct {b : ConditionVariable.Act C} (h : gateAct s a = some (g, b)) :
    a.actor = some b.actor := by
  cases a with
  | advance k spurious =>
    simp only [gateAct] at h
    cases hpc : s.pc k <;> simp only [hpc] at h <;> try split_ifs at h
    all_goals cases h
    all_goals rfl
  | _ => cases h

theorem gate_frame [Fintype C] (hi : Inv s) (h : step s a = some t) (hj : a.actor ≠ some j) (g : Gate) :
    (Registered (t.gate g) j → Registered (s.gate g) j) ∧
      ((s.gate g).pc j ≠ .parked → (t.gate g).pc j = (s.gate g).pc j) := by
  obtain ⟨b, hact, hb⟩ | ⟨hsame, -⟩ := gate_of_step h g
  · have hne : b.actor ≠ j := fun hbj => hj (hbj ▸ actor_of_gateAct hact)
    constructor
    · intro hr
      have hsafe := ConditionVariable.oneSafe_of_fresh (hi.fresh g) b
      obtain hs | ⟨hbj, -⟩ := registered_step (hi.gates g) hsafe hb hr
      · exact hs
      · exact absurd hbj hne
    · intro hp
      obtain hpc | ⟨hpk, -⟩ := ConditionVariable.pc_of_step hb (Ne.symm hne)
      · exact hpc
      · exact absurd hpk hp
  · rw [hsame]
    exact ⟨id, fun _ => rfl⟩

theorem standing_step [Fintype C] (hi : Inv s) (h : step s a = some t) (hc : Standing t w c) :
    Standing s w c ∨ (a.actor = some c ∧ s.pc c = .waitSuspend w) := by
  obtain ⟨hpc, hr⟩ := hc
  by_cases hact : a.actor = some c
  · have hflow := (moves_of_step h hact).flow
    obtain hpc | hpc := hpc
    · rw [hpc] at hflow
      exact .inr ⟨hact, hflow⟩
    · rw [hpc] at hflow
      have hfrom : s.pc c = .waitUnlock w := hflow
      have hpk := hi.gateAt c w.gate
      rw [hfrom, GateAt, if_pos rfl] at hpk
      refine .inl ⟨.inl hfrom, ?_⟩
      obtain ⟨b, -, hb⟩ | ⟨hsame, -⟩ := gate_of_step h w.gate
      · have hsafe := ConditionVariable.oneSafe_of_fresh (hi.fresh w.gate) b
        obtain hs | ⟨-, hpush, -⟩ := registered_step (hi.gates w.gate) hsafe hb hr
        · exact hs
        · rw [hpk] at hpush
          exact hpush.elim
      · rwa [hsame] at hr
  · rw [pc_of_step h hact] at hpc
    exact .inl ⟨hpc, (gate_frame hi h hact w.gate).1 hr⟩

theorem advance_of_step (h : step s a = some t) (hk : a.actor = some k) (hpc : s.pc k ≠ .idle) :
    ∃ spurious, a = .advance k spurious := by
  cases a with
  | advance j spurious =>
    cases hk
    exact ⟨spurious, rfl⟩
  | move m => cases hk
  | _ =>
    cases hk
    simp [step, hpc] at h

theorem notify_step (h : step s a = some t) (hk : a.actor = some k) :
    (s.pc k = .notifyOne g → t.pc k = .notifying g ∧ (t.gate g).pc k = .oneLoad) ∧
      (s.pc k = .notifyAll g → t.pc k = .notifying g ∧ (t.gate g).pc k = .allLoad) := by
  constructor <;> intro hpc
  all_goals
    obtain ⟨spurious, rfl⟩ := advance_of_step h hk (by simp [hpc])
    simp only [step, advance, hpc] at h
    obtain ⟨v, hv, rfl⟩ := Option.map_eq_some_iff.mp h
    obtain ⟨-, rfl⟩ := (when_eq_some _ _ _).mp hv
    simp [State.goto, ConditionVariable.State.goto]

theorem notifying_step (h : step s a = some t) (hk : a.actor = some k) (hpc : s.pc k = .notifying g)
    (hn : (s.gate g).pc k ≠ .idle) :
    t.pc k = .notifying g ∧
      ∃ spurious, ConditionVariable.step (s.gate g) (.advance k spurious) = some (t.gate g) := by
  obtain ⟨spurious, rfl⟩ := advance_of_step h hk (by simp [hpc])
  simp only [step, advance, hpc, if_neg hn] at h
  obtain ⟨v, hv, rfl⟩ := Option.map_eq_some_iff.mp h
  exact ⟨by simp [State.goto], spurious, by simpa [State.goto] using hv⟩

variable [Fintype C]

theorem sweeps_step (hi : Inv s) (h : step s a = some t) (hk : Sweeps s g k) :
    Sweeps t g k ∨ ∀ c, ¬ Registered (t.gate g) c := by
  by_cases hact : a.actor = some k
  · obtain hpc | ⟨hpc, hsweep⟩ := hk
    · obtain ⟨hnext, hload⟩ := (notify_step h hact).2 hpc
      exact .inl (.inr ⟨hnext, by rw [hload]; trivial⟩)
    · obtain ⟨hnext, spurious, hv⟩ := notifying_step h hact hpc hsweep.awake.1
      exact (sweeping_step hsweep hv).imp_left fun hs => .inr ⟨hnext, hs⟩
  · left
    obtain hpc | ⟨hpc, hsweep⟩ := hk
    · exact .inl ((pc_of_step h hact).trans hpc)
    · refine .inr ⟨(pc_of_step h hact).trans hpc, ?_⟩
      rwa [(gate_frame hi h hact g).2 hsweep.awake.2]

theorem picks_frame (hi : Inv s) (h : step s a = some t) (hact : a.actor ≠ some k)
    (hk : Picks s g k) : Picks t g k := by
  obtain hpc | ⟨hpc, hpick⟩ := hk
  · exact .inl ((pc_of_step h hact).trans hpc)
  · refine .inr ⟨(pc_of_step h hact).trans hpc, ?_⟩
    rwa [(gate_frame hi h hact g).2 hpick.awake.2]

theorem picks_step (hi : Inv s) (h : step s a = some t) (hk : Picks s g k) :
    Picks t g k ∨ (∀ c, ¬ Registered (t.gate g) c) ∨
      ∃ b, Registered (s.gate g) b ∧ ¬ Registered (t.gate g) b := by
  by_cases hact : a.actor = some k
  · obtain hpc | ⟨hpc, hpick⟩ := hk
    · obtain ⟨hnext, hload⟩ := (notify_step h hact).1 hpc
      exact .inl (.inr ⟨hnext, by rw [hload]; trivial⟩)
    · obtain ⟨hnext, spurious, hv⟩ := notifying_step h hact hpc hpick.awake.1
      have hsafe := ConditionVariable.oneSafe_of_fresh (hi.fresh g) (.advance k spurious)
      exact (picking_step (hi.gates g) hsafe hpick hv).imp_left fun hs => .inr ⟨hnext, hs⟩
  · exact .inl (picks_frame hi h hact hk)

end LibCoro.SharedMutex
