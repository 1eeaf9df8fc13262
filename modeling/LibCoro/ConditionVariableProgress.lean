import LibCoro.ExclusiveNotify
import Mathlib.Algebra.Order.BigOperators.Group.Finset

namespace LibCoro.ConditionVariable

open Machine

variable {C : Type} [DecidableEq C] {s t : State C} {l : List C} {d : C → List C} {k : C}

def suspendLeft (s : State C) : Pc C → Nat
  | .suspendLoad => 3
  | .suspendNext w => if w = s.awaiters then 2 else 4
  | .suspendCas w => if w = s.awaiters then 1 else 3
  | _ => 0

def notifyLeft (s : State C) : Pc C → Nat
  | .oneLoad => 6
  | .oneNext _ => 5
  | .oneCas _ _ | .allLoad => 4
  | .allCas w => if w = s.awaiters then 3 else 4
  | .oneClear _ => 3
  | .resumeWaiters _ => 2
  | .resume _ _ => 1
  | _ => 0

def parked [Fintype C] (s : State C) : Nat := (Finset.univ.filter fun c => s.pc c = .parked).card

theorem parked_frame [Fintype C] (hs : s.pc k ≠ .parked) (ht : t.pc k ≠ .parked)
    (h : ∀ j, j ≠ k → t.pc j = s.pc j) : parked t = parked s := by
  have hpc : ∀ c, t.pc c = .parked ↔ s.pc c = .parked := by
    intro c
    by_cases hc : c = k
    · subst hc
      simp [hs, ht]
    · rw [h c hc]
  simp only [parked, hpc]

theorem parked_wake [Fintype C] {b : C} (hs : s.pc k ≠ .parked) (ht : t.pc k ≠ .parked)
    (hb : s.pc b = .parked) (hb' : t.pc b = .idle) (h : ∀ j, j ≠ k → j ≠ b → t.pc j = s.pc j) :
    parked t + 1 = parked s := by
  have herase : (Finset.univ.filter fun c => t.pc c = .parked) =
      (Finset.univ.filter fun c => s.pc c = .parked).erase b := by
    ext c
    by_cases hc : c = b
    · simp [hc, hb']
    · by_cases hck : c = k
      · subst hck
        simp [hs, ht]
      · simp [hc, h c hck hc]
  rw [parked, herase, Finset.card_erase_add_one (by simp [hb])]
  rfl

theorem parked_le [Fintype C] (s : State C) : parked s ≤ Fintype.card C := Finset.card_le_univ _

theorem suspendLeft_pos (s : State C) {p : Pc C} (hp : p.Pushing) : 0 < suspendLeft s p := by
  cases p with
  | suspendLoad => exact Nat.succ_pos 2
  | suspendNext w | suspendCas w =>
    simp only [suspendLeft]
    split_ifs <;> exact Nat.succ_pos _
  | _ => exact hp.elim

theorem suspend_advances (hk : (s.pc k).Pushing) :
    ∃ t, step s (.advance k false) = some t ∧ (∀ j, j ≠ k → t.pc j = s.pc j) ∧
      (t.pc k = .parked ∨
        (t.pc k).Pushing ∧ suspendLeft t (t.pc k) < suspendLeft s (s.pc k)) := by
  cases hpc : s.pc k with
  | suspendLoad =>
    refine ⟨s.goto k (.suspendNext s.awaiters), by simp [step, advance, hpc],
      fun j hj => pc_goto_ne s _ hj, .inr ?_⟩
    rw [pc_goto]
    exact ⟨trivial, by simp [suspendLeft, State.goto]⟩
  | suspendNext w =>
    refine ⟨(s.setNext k w).goto k (.suspendCas w), by simp [step, advance, hpc],
      fun j hj => pc_goto_ne _ _ hj, .inr ?_⟩
    rw [pc_goto]
    refine ⟨trivial, ?_⟩
    by_cases hw : w = s.awaiters <;> simp [suspendLeft, State.goto, State.setNext, hw]
  | suspendCas w =>
    by_cases hw : s.awaiters = w
    · exact ⟨{ s with awaiters := some k }.goto k .parked, by simp [step, advance, hpc, hw],
        fun j hj => pc_goto_ne _ _ hj, .inl (pc_goto ..)⟩
    · refine ⟨s.goto k (.suspendNext s.awaiters), by simp [step, advance, hpc, hw],
        fun j hj => pc_goto_ne s _ hj, .inr ?_⟩
      rw [pc_goto]
      exact ⟨trivial, by simp [suspendLeft, State.goto, Ne.symm hw]⟩
  | _ => simp [hpc, Pc.Pushing] at hk

inductive Notifies (s t : State C) (k : C) : Prop where
  | still (pc : ∀ j, j ≠ k → t.pc j = s.pc j) (left : notifyLeft t (t.pc k) < notifyLeft s (s.pc k))
  | wakes (b : C) (parked : s.pc b = .parked) (idle : t.pc b = .idle)
      (pc : ∀ j, j ≠ k → j ≠ b → t.pc j = s.pc j)
      (left : notifyLeft t (t.pc k) ≤ notifyLeft s (s.pc k) + 1)

theorem notify_advances (hi : Inv s l d) (hf : Fresh s) (hk : (s.pc k).Notifying) :
    ∃ t, step s (.advance k false) = some t ∧ Notifies s t k := by
  have hfresh := hf k
  have hgoto : ∀ (u : State C) (p : Pc C), u.pc = s.pc → advance s k false = some (u.goto k p) →
      notifyLeft (u.goto k p) p < notifyLeft s (s.pc k) →
      ∃ t, step s (.advance k false) = some t ∧ Notifies s t k := by
    intro u p hu ha hl
    refine ⟨u.goto k p, ha, .still (fun j hj => ?_) ?_⟩
    · rw [pc_goto_ne _ _ hj, hu]
    · rwa [pc_goto]
  cases hpc : s.pc k with
  | allLoad =>
    exact hgoto s (.allCas s.awaiters) rfl (by simp [advance, hpc])
      (by simp [hpc, notifyLeft, State.goto])
  | allCas w =>
    by_cases hw : s.awaiters = w
    · exact hgoto { s with awaiters := none } (.resumeWaiters w) rfl (by simp [advance, hpc, hw])
        (by simp [hpc, notifyLeft, hw])
    · exact hgoto s (.allCas s.awaiters) rfl (by simp [advance, hpc, hw])
        (by simp [hpc, notifyLeft, State.goto, Ne.symm hw])
  | oneLoad =>
    by_cases hn : s.awaiters = none
    · exact hgoto s .idle rfl (by simp [advance, hpc, hn]) (by simp [hpc, notifyLeft])
    · exact hgoto s (.oneNext s.awaiters) rfl (by simp [advance, hpc, hn]) (by simp [hpc, notifyLeft])
  | oneNext w =>
    cases w with
    | none =>
      have hsound := hi.sound k
      rw [hpc] at hsound
      exact hsound.elim
    | some a =>
      exact hgoto s (.oneCas a (s.next a)) rfl (by simp [advance, hpc]) (by simp [hpc, notifyLeft])
  | oneCas a n =>
    rw [hpc] at hfresh
    exact hgoto { s with awaiters := n } (.oneClear a) rfl (by simp [advance, hpc, hfresh.1])
      (by simp [hpc, notifyLeft])
  | oneClear a =>
    exact hgoto (s.setNext a none) (.resumeWaiters (some a)) rfl (by simp [advance, hpc])
      (by simp [hpc, notifyLeft])
  | resumeWaiters w =>
    cases w with
    | none => exact hgoto s .idle rfl (by simp [advance, hpc]) (by simp [hpc, notifyLeft])
    | some a =>
      exact hgoto s (.resume a (s.next a)) rfl (by simp [advance, hpc]) (by simp [hpc, notifyLeft])
  | resume b w =>
    have hb := hi.parked_of_resume hpc
    have hbk : b ≠ k := by
      rintro rfl
      rw [hpc] at hb
      cases hb
    refine ⟨(s.goto b .idle).goto k (.resumeWaiters w), by simp [step, advance, hpc, hb],
      .wakes b hb ?_ (fun j hj hjb => ?_) ?_⟩
    · rw [pc_goto_ne _ _ hbk, pc_goto]
    · rw [pc_goto_ne _ _ hj, pc_goto_ne _ _ hjb]
    · rw [pc_goto, hpc]
      exact Nat.le_refl _
  | _ => simp [hpc, Pc.Notifying] at hk

theorem awake_of_step (hi : Inv s l d) (hf : Fresh s) (hk : (s.pc k).Notifying)
    (h : step s (.advance k false) = some t) : s.pc k ≠ .parked ∧ t.pc k ≠ .parked := by
  have hnot : ∀ {p : Pc C}, p.Notifying → p ≠ .parked := by
    rintro p hp rfl
    exact hp
  obtain ⟨l', d', hi'⟩ := inv_step ⟨l, d, hi⟩ (oneSafe_of_fresh hf _) h
  refine ⟨hnot hk, ?_⟩
  obtain hnext | hnext := notifying_step hk (hi'.sound k) h
  · exact hnot hnext
  · simp [hnext]

end LibCoro.ConditionVariable
