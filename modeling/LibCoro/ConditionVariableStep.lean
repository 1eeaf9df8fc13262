import LibCoro.ConditionVariable

namespace LibCoro.ConditionVariable

open Machine

variable {C : Type} [DecidableEq C] {s t : State C} {k : C} {spurious : Bool}

theorem pc_goto (s : State C) (k : C) (p : Pc C) : (s.goto k p).pc k = p :=
  Function.update_self _ _ _

theorem pc_goto_ne (s : State C) {j k : C} (p : Pc C) (hj : j ≠ k) : (s.goto k p).pc j = s.pc j :=
  Function.update_of_ne hj _ _

inductive Advances (s : State C) (k : C) (spurious : Bool) : State C → Prop where
  | suspendLoad (hpc : s.pc k = .suspendLoad) :
      Advances s k spurious (s.goto k (.suspendNext s.awaiters))
  | suspendNext (w : Option C) (hpc : s.pc k = .suspendNext w) :
      Advances s k spurious ((s.setNext k w).goto k (.suspendCas w))
  | push (w : Option C) (hpc : s.pc k = .suspendCas w) (hc : s.awaiters = w ∧ spurious = false) :
      Advances s k spurious ({ s with awaiters := some k }.goto k .parked)
  | pushAgain (w : Option C) (hpc : s.pc k = .suspendCas w)
      (hc : ¬ (s.awaiters = w ∧ spurious = false)) :
      Advances s k spurious (s.goto k (.suspendNext s.awaiters))
  | allLoad (hpc : s.pc k = .allLoad) : Advances s k spurious (s.goto k (.allCas s.awaiters))
  | takeAll (w : Option C) (hpc : s.pc k = .allCas w) (hc : s.awaiters = w ∧ spurious = false) :
      Advances s k spurious ({ s with awaiters := none }.goto k (.resumeWaiters w))
  | allAgain (w : Option C) (hpc : s.pc k = .allCas w)
      (hc : ¬ (s.awaiters = w ∧ spurious = false)) :
      Advances s k spurious (s.goto k (.allCas s.awaiters))
  | nobody (hpc : s.pc k = .oneLoad) (hn : s.awaiters = none) :
      Advances s k spurious (s.goto k .idle)
  | oneLoad (hpc : s.pc k = .oneLoad) (hn : s.awaiters ≠ none) :
      Advances s k spurious (s.goto k (.oneNext s.awaiters))
  | oneNext (a : C) (hpc : s.pc k = .oneNext (some a)) :
      Advances s k spurious (s.goto k (.oneCas a (s.next a)))
  | nullDeref (hpc : s.pc k = .oneNext none) : Advances s k spurious (s.goto k .nullDeref)
  | takeOne (a : C) (n : Option C) (hpc : s.pc k = .oneCas a n)
      (hc : s.awaiters = some a ∧ spurious = false) :
      Advances s k spurious ({ s with awaiters := n }.goto k (.oneClear a))
  | oneAgain (a : C) (n : Option C) (hpc : s.pc k = .oneCas a n)
      (hc : ¬ (s.awaiters = some a ∧ spurious = false)) :
      Advances s k spurious (s.goto k (.oneNext s.awaiters))
  | oneClear (a : C) (hpc : s.pc k = .oneClear a) :
      Advances s k spurious ((s.setNext a none).goto k (.resumeWaiters (some a)))
  | loop (a : C) (hpc : s.pc k = .resumeWaiters (some a)) :
      Advances s k spurious (s.goto k (.resume a (s.next a)))
  | finish (hpc : s.pc k = .resumeWaiters none) : Advances s k spurious (s.goto k .idle)
  | resume (a : C) (w : Option C) (hpc : s.pc k = .resume a w) (ha : s.pc a = .parked) :
      Advances s k spurious ((s.goto a .idle).goto k (.resumeWaiters w))
  | strayResume (a : C) (w : Option C) (hpc : s.pc k = .resume a w) (ha : s.pc a ≠ .parked) :
      Advances s k spurious (s.goto k .strayResume)

inductive Moves (s : State C) : Act C → State C → Prop where
  | suspend (k : C) (hk : s.pc k = .idle) :
      Moves s (.suspend k) ((s.setNext k none).goto k .suspendLoad)
  | notifyAll (k : C) (hk : s.pc k = .idle) : Moves s (.notifyAll k) (s.goto k .allLoad)
  | notifyOne (k : C) (hk : s.pc k = .idle) : Moves s (.notifyOne k) (s.goto k .oneLoad)
  | advance (k : C) (spurious : Bool) {t : State C} (h : Advances s k spurious t) :
      Moves s (.advance k spurious) t

theorem advances_of_step (h : step s (.advance k spurious) = some t) : Advances s k spurious t := by
  simp only [step] at h
  cases hpc : s.pc k with
  | idle | parked | nullDeref | strayResume => simp [advance, hpc] at h
  | suspendLoad =>
    simp only [advance, hpc] at h
    cases h
    exact .suspendLoad hpc
  | suspendNext w =>
    simp only [advance, hpc] at h
    cases h
    exact .suspendNext w hpc
  | suspendCas w =>
    simp only [advance, hpc] at h
    split_ifs at h with hc <;> cases h
    · exact .push w hpc hc
    · exact .pushAgain w hpc hc
  | allLoad =>
    simp only [advance, hpc] at h
    cases h
    exact .allLoad hpc
  | allCas w =>
    simp only [advance, hpc] at h
    split_ifs at h with hc <;> cases h
    · exact .takeAll w hpc hc
    · exact .allAgain w hpc hc
  | oneLoad =>
    simp only [advance, hpc] at h
    split_ifs at h with hn <;> cases h
    · exact .nobody hpc hn
    · exact .oneLoad hpc hn
  | oneNext w =>
    cases w <;> simp only [advance, hpc] at h <;> cases h
    · exact .nullDeref hpc
    · exact .oneNext _ hpc
  | oneCas a n =>
    simp only [advance, hpc] at h
    split_ifs at h with hc <;> cases h
    · exact .takeOne a n hpc hc
    · exact .oneAgain a n hpc hc
  | oneClear a =>
    simp only [advance, hpc] at h
    cases h
    exact .oneClear a hpc
  | resumeWaiters w =>
    cases w <;> simp only [advance, hpc] at h <;> cases h
    · exact .finish hpc
    · exact .loop _ hpc
  | resume a w =>
    simp only [advance, hpc] at h
    split_ifs at h with ha <;> cases h
    · exact .resume a w hpc ha
    · exact .strayResume a w hpc ha

theorem moves_of_step {a : Act C} (h : step s a = some t) : Moves s a t := by
  cases a with
  | suspend k =>
    obtain ⟨hk, rfl⟩ := (when_eq_some _ _ _).mp h
    exact .suspend k hk
  | notifyAll k =>
    obtain ⟨hk, rfl⟩ := (when_eq_some _ _ _).mp h
    exact .notifyAll k hk
  | notifyOne k =>
    obtain ⟨hk, rfl⟩ := (when_eq_some _ _ _).mp h
    exact .notifyOne k hk
  | advance k spurious => exact .advance k spurious (advances_of_step h)

theorem pc_of_step {a : Act C} (h : step s a = some t) {j : C} (hj : j ≠ a.actor) :
    t.pc j = s.pc j ∨
      s.pc j = .parked ∧ t.pc j = .idle ∧ ∃ w, s.pc a.actor = .resume j w := by
  cases moves_of_step h with
  | suspend k _ | notifyAll k _ | notifyOne k _ => exact .inl (pc_goto_ne _ _ hj)
  | advance k spurious h =>
    have hjk : j ≠ k := hj
    cases h with
    | resume b w hpc hb =>
      by_cases hjb : j = b
      · subst hjb
        exact .inr ⟨hb, (pc_goto_ne _ _ hjk).trans (pc_goto s j _), w, hpc⟩
      · exact .inl ((pc_goto_ne _ _ hjk).trans (pc_goto_ne s _ hjb))
    | _ => exact .inl (pc_goto_ne _ _ hjk)

end LibCoro.ConditionVariable
