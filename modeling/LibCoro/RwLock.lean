import LibCoro.Machine
import Mathlib.Algebra.BigOperators.Group.Finset.Piecewise
import Mathlib.Algebra.Order.BigOperators.Group.Finset

namespace LibCoro.RwLock

open Machine

variable {C : Type}

/-- Nobody writes, somebody waits for the readers to leave, or somebody writes. -/
inductive Phase (C : Type) where
  | free
  | queued (k : C)
  | entered (k : C)
  deriving DecidableEq, Repr

/-- A lock for readers and writers; a reader may hold it several times. -/
structure State (C : Type) where
  phase : Phase C
  readers : C → Nat

def init : State C := ⟨.free, fun _ => 0⟩

/-- `take` is an `announce` that need not wait. -/
inductive Event (C : Type) where
  | announce (k : C)
  | enter (k : C)
  | take (k : C)
  | leave (k : C)
  | share (k : C)
  | unshare (k : C)
  deriving DecidableEq, Repr

def Event.unshares : Event C → Bool
  | .unshare _ => true
  | _ => false

variable [Fintype C] [DecidableEq C]

def State.count (s : State C) : Nat := ∑ k, s.readers k

/-- No reader comes in beside a writer, not even beside one that waits. -/
def step (bound : Nat) (s : State C) : Event C → Option (State C)
  | .announce k => when (s.phase = .free) { s with phase := .queued k }
  | .enter k => when (s.phase = .queued k ∧ s.count = 0) { s with phase := .entered k }
  | .take k => when (s.phase = .free ∧ s.count = 0) { s with phase := .entered k }
  | .leave k => when (s.phase = .entered k) { s with phase := .free }
  | .share k =>
    when (s.phase = .free ∧ s.count < bound)
      { s with readers := Function.update s.readers k (s.readers k + 1) }
  | .unshare k =>
    when (0 < s.readers k) { s with readers := Function.update s.readers k (s.readers k - 1) }

variable {bound : Nat} {s t : State C} {e : Event C} {es : List (Event C)} {k : C}

theorem count_update (s : State C) (k : C) (n : Nat) :
    (∑ j, Function.update s.readers k n j) + s.readers k = s.count + n := by
  rw [Finset.sum_update_of_mem (Finset.mem_univ k), Finset.sdiff_singleton_eq_erase, State.count,
    ← Finset.add_sum_erase Finset.univ s.readers (Finset.mem_univ k)]
  omega

theorem alone_of_run (h : run (step bound) init es = some s) (hk : s.phase = .entered k) :
    s.count = 0 := by
  refine run_invariant (fun s => ∀ k, s.phase = .entered k → s.count = 0) ?_ h ?_ k hk
  · intro s e t hi ht j hj
    cases e with
    | announce k | leave k =>
      obtain ⟨-, rfl⟩ := (when_eq_some _ _ _).mp ht
      cases hj
    | enter k | take k =>
      obtain ⟨⟨-, hc⟩, rfl⟩ := (when_eq_some _ _ _).mp ht
      exact hc
    | share k =>
      obtain ⟨⟨hf, -⟩, rfl⟩ := (when_eq_some _ _ _).mp ht
      rw [show s.phase = .entered j from hj] at hf
      cases hf
    | unshare k =>
      obtain ⟨hpos, rfl⟩ := (when_eq_some _ _ _).mp ht
      have hc := count_update s k (s.readers k - 1)
      have hz := hi j hj
      simp only [State.count] at hc hz ⊢
      omega
  · intro k hk
    cases hk

def Phase.Taken (p : Phase C) (k : C) : Prop := p = .queued k ∨ p = .entered k

omit [Fintype C] [DecidableEq C] in
theorem Phase.Taken.ne_free {p : Phase C} (h : p.Taken k) : p ≠ .free := by
  obtain rfl | rfl := h <;> simp

omit [Fintype C] [DecidableEq C] in
theorem Phase.Taken.eq {p : Phase C} {j : C} (h : p.Taken k) (hj : p = .queued j ∨ p = .entered j) :
    j = k := by
  obtain rfl | rfl := h <;> obtain hj | hj := hj <;> cases hj <;> rfl

theorem taken_step (hk : s.phase.Taken k) (hl : e ≠ .leave k) (h : step bound s e = some t) :
    t.phase.Taken k ∧ (e = .enter k ∨ ∃ j, e = .unshare j) ∧
      s.count = t.count + e.unshares.toNat := by
  cases e with
  | announce j =>
    obtain ⟨hf, -⟩ := (when_eq_some _ _ _).mp h
    exact absurd hf hk.ne_free
  | enter j =>
    obtain ⟨⟨hq, -⟩, rfl⟩ := (when_eq_some _ _ _).mp h
    obtain rfl := hk.eq (.inl hq)
    exact ⟨.inr rfl, .inl rfl, rfl⟩
  | take j | share j =>
    obtain ⟨⟨hf, -⟩, -⟩ := (when_eq_some _ _ _).mp h
    exact absurd hf hk.ne_free
  | leave j =>
    obtain ⟨he, -⟩ := (when_eq_some _ _ _).mp h
    exact absurd (congrArg Event.leave (hk.eq (.inr he))) hl
  | unshare j =>
    obtain ⟨hpos, rfl⟩ := (when_eq_some _ _ _).mp h
    refine ⟨hk, .inr ⟨j, rfl⟩, ?_⟩
    have hc := count_update s j (s.readers j - 1)
    simp only [State.count, Event.unshares, Bool.toNat_true] at hc ⊢
    omega

theorem taken_run (hk : s.phase.Taken k) (hl : .leave k ∉ es) (h : run (step bound) s es = some t) :
    t.phase.Taken k ∧ (∀ e ∈ es, e = .enter k ∨ ∃ j, e = .unshare j) ∧
      s.count = t.count + es.countP Event.unshares := by
  induction es generalizing s with
  | nil =>
    rw [(run_nil s t).mp h]
    exact ⟨hk, by simp, rfl⟩
  | cons e es ih =>
    obtain ⟨u, hu, hr⟩ := (run_cons s t e es).mp h
    obtain ⟨hne, hnot⟩ := not_or.mp (mt List.mem_cons.mpr hl)
    obtain ⟨hku, he, hcu⟩ := taken_step hk (Ne.symm hne) hu
    obtain ⟨hkt, hes, hct⟩ := ih hku hnot hr
    refine ⟨hkt, List.forall_mem_cons.mpr ⟨he, hes⟩, ?_⟩
    rw [List.countP_cons, hcu, hct]
    cases e.unshares <;> simp [Nat.add_assoc]

/-- The writer that announces itself comes next, after the readers that are there. -/
theorem writer_first {es fs : List (Event C)} (h : run (step bound) s (es ++ .announce k :: fs) = some t)
    (hl : .leave k ∉ fs) :
    t.phase.Taken k ∧ (∀ e ∈ fs, e = .enter k ∨ ∃ j, e = .unshare j) ∧
      ∃ u, run (step bound) s es = some u ∧ u.count = t.count + fs.countP Event.unshares := by
  obtain ⟨u, hu, hrest⟩ := (run_append s t es _).mp h
  obtain ⟨v, hv, hr⟩ := (run_cons u t _ fs).mp hrest
  obtain ⟨-, rfl⟩ := (when_eq_some _ _ _).mp hv
  obtain ⟨hk, hfs, hc⟩ := taken_run (.inl rfl) hl hr
  exact ⟨hk, hfs, u, hu, hc⟩

end LibCoro.RwLock
