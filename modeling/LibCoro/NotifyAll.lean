import LibCoro.ExclusiveNotify
import LibCoro.ResumeWaiters

namespace LibCoro.ConditionVariable

open Machine Chain

variable {C : Type}

/-- An awaiter registers and `notifyAll` takes the registered ones at their compare-exchanges. -/
inductive Signal (C : Type) where
  | registered (a : C)
  | taken (k : C)
  | resumed (k a : C)
  deriving DecidableEq, Repr

def pending (es : List (Signal C)) : List C :=
  es.foldl (fun l e =>
    match e with
    | .registered a => a :: l
    | .taken _ => []
    | .resumed _ _ => l) []

theorem pending_append (es : List (Signal C)) (e : Signal C) :
    pending (es ++ [e]) =
      match e with
      | .registered a => a :: pending es
      | .taken _ => []
      | .resumed _ _ => pending es := by
  rw [pending, List.foldl_append]
  rfl

def Pc.One : Pc C → Prop
  | .oneLoad | .oneNext _ | .oneCas _ _ | .oneClear _ => True
  | _ => False

variable [DecidableEq C]

def signal (s : State C) : Act C → Option (Signal C)
  | .advance k spurious =>
    match s.pc k with
    | .suspendCas w => if s.awaiters = w ∧ spurious = false then some (.registered k) else none
    | .allCas w => if s.awaiters = w ∧ spurious = false then some (.taken k) else none
    | .resume prev _ => some (.resumed k prev)
    | _ => none
  | _ => none

def resumedBy (k : C) (s : State C) (a : Act C) : Option C :=
  match signal s a with
  | some (.resumed j b) => if j = k then some b else none
  | _ => none

theorem of_registered {s : State C} {a : Act C} {k : C} (h : signal s a = some (.registered k)) :
    a = .advance k false ∧ ∃ w, s.pc k = .suspendCas w ∧ s.awaiters = w := by
  cases a with
  | advance j spurious =>
    simp only [signal] at h
    cases hpc : s.pc j <;> simp only [hpc] at h <;> try split_ifs at h with hc
    all_goals cases h
    exact ⟨hc.2 ▸ rfl, _, hpc, hc.1⟩
  | _ => cases h

theorem of_taken {s : State C} {a : Act C} {k : C} (h : signal s a = some (.taken k)) :
    a = .advance k false ∧ ∃ w, s.pc k = .allCas w ∧ s.awaiters = w := by
  cases a with
  | advance j spurious =>
    simp only [signal] at h
    cases hpc : s.pc j <;> simp only [hpc] at h <;> try split_ifs at h with hc
    all_goals cases h
    exact ⟨hc.2 ▸ rfl, _, hpc, hc.1⟩
  | _ => cases h

structure Stacked (es : List (Signal C)) (s : State C) (d : C → List C) : Prop where
  inv : Inv s (pending es) d
  all : ∀ k, ¬ (s.pc k).One

variable {es : List (Signal C)} {s t : State C} {a : Act C} {d : C → List C} {k : C}

omit [DecidableEq C] in
theorem stacked_init : Stacked [] (init : State C) (fun _ => []) := ⟨inv_init, fun _ h => h⟩

theorem oneSafe_of_all (h : ∀ k, ¬ (s.pc k).One) (a : Act C) : OneSafe s a := by
  cases a with
  | advance k spurious =>
    have hk := h k
    change SafeCas s spurious (s.pc k)
    cases hpc : s.pc k with
    | oneCas b n =>
      rw [hpc] at hk
      exact absurd trivial hk
    | _ => trivial
  | _ => trivial

theorem all_step (hs : ∀ k, ¬ (s.pc k).One) (ha : ∀ k, a ≠ .notifyOne k) (h : step s a = some t)
    (j : C) : ¬ (t.pc j).One := by
  by_cases hj : j = a.actor
  · subst hj
    cases moves_of_step h with
    | notifyOne k _ => exact absurd rfl (ha k)
    | suspend k _ | notifyAll k _ => simp [Act.actor, State.goto, Pc.One]
    | advance k spurious h =>
      have hk : ¬ (s.pc k).One := hs k
      cases h with
      | nobody hpc _ | oneLoad hpc _ | oneNext b hpc | nullDeref hpc | takeOne b n hpc _
      | oneAgain b n hpc _ | oneClear b hpc =>
        rw [hpc] at hk
        exact absurd trivial hk
      | _ => simp [Act.actor, State.goto, Pc.One]
  · obtain hpc | ⟨-, hpc, -⟩ := pc_of_step h hj
    · rw [hpc]
      exact hs j
    · rw [hpc]
      exact id

/-- A `notifyAll` takes the whole stack, and from then on only what it resumes leaves its list. -/
theorem stacked_step (hs : Stacked es s d) (ha : ∀ k, a ≠ .notifyOne k) (h : step s a = some t) :
    ∃ d', Stacked (es ++ (signal s a).toList) t d' ∧
      (∀ k, signal s a = some (.taken k) → d' k = pending es) ∧
      ∀ j, signal s a ≠ some (.taken j) → d j = (resumedBy j s a).toList ++ d' j := by
  have hall := all_step hs.all ha h
  have hquiet : (∀ k spurious, a ≠ .advance k spurious) → ∃ d',
      Stacked (es ++ (signal s a).toList) t d' ∧
      (∀ k, signal s a = some (.taken k) → d' k = pending es) ∧
      ∀ j, signal s a ≠ some (.taken j) → d j = (resumedBy j s a).toList ++ d' j := by
    intro hadv
    have hsig : signal s a = none := by
      cases a with
      | advance k spurious => exact absurd rfl (hadv k spurious)
      | _ => rfl
    refine ⟨d, ⟨?_, hall⟩, by simp [hsig], fun j _ => by simp [resumedBy, hsig]⟩
    simpa [hsig] using inv_call hs.inv hadv h
  cases a with
  | suspend k | notifyAll k | notifyOne k => exact hquiet (by simp)
  | advance k spurious =>
    obtain ⟨l, d', hi, hother, hself⟩ :=
      inv_advance hs.inv (oneSafe_of_all hs.all _) (advances_of_step h)
    have hnot : ∀ j, j ≠ k → resumedBy j s (.advance k spurious) = none := by
      intro j hj
      simp only [resumedBy, signal]
      cases s.pc k with
      | suspendCas w | allCas w =>
        simp only
        split_ifs <;> rfl
      | resume b p => exact if_neg (Ne.symm hj)
      | _ => rfl
    have hlist : (resumedBy k s (.advance k spurious)).toList ++ d' k = d k →
        ∀ j, d j = (resumedBy j s (.advance k spurious)).toList ++ d' j := by
      intro hk j
      by_cases hj : j = k
      · exact hj ▸ hk.symm
      · rw [hnot j hj, hother j hj]
        rfl
    refine ⟨d', ?_⟩
    cases hpc : s.pc k with
    | suspendCas w =>
      rw [hpc] at hself
      by_cases hc : s.awaiters = w ∧ spurious = false
      · have hsig : signal s (.advance k spurious) = some (.registered k) := by simp [signal, hpc, hc]
        refine ⟨⟨?_, hall⟩, by simp [hsig], fun j _ => hlist (by simp [resumedBy, hsig, hself.2]) j⟩
        rw [hsig, Option.toList_some, pending_append]
        simpa [hself.1, hc] using hi
      · have hsig : signal s (.advance k spurious) = none := by simp only [signal, hpc, if_neg hc]
        refine ⟨⟨?_, hall⟩, by simp [hsig], fun j _ => hlist (by simp [resumedBy, hsig, hself.2]) j⟩
        rw [hsig, Option.toList_none, List.append_nil]
        rwa [hself.1, if_neg hc] at hi
    | allCas w =>
      rw [hpc] at hself
      by_cases hc : s.awaiters = w ∧ spurious = false
      · have hsig : signal s (.advance k spurious) = some (.taken k) := by simp [signal, hpc, hc]
        simp only [if_pos hc] at hself
        refine ⟨⟨?_, hall⟩, fun j hj => ?_, fun j hj => ?_⟩
        · rw [hsig, Option.toList_some, pending_append]
          exact hself.1 ▸ hi
        · rw [hsig] at hj
          cases hj
          exact hself.2
        · have hjk : j ≠ k := by
            rintro rfl
            exact hj hsig
          rw [hnot j hjk, hother j hjk]
          rfl
      · have hsig : signal s (.advance k spurious) = none := by simp only [signal, hpc, if_neg hc]
        simp only [if_neg hc] at hself
        refine ⟨⟨?_, hall⟩, by simp [hsig], fun j _ => hlist (by simp [resumedBy, hsig, hself.2]) j⟩
        rw [hsig, Option.toList_none, List.append_nil]
        exact hself.1 ▸ hi
    | resume b p =>
      rw [hpc] at hself
      have hsig : signal s (.advance k spurious) = some (.resumed k b) := by simp [signal, hpc]
      refine ⟨⟨?_, hall⟩, by simp [hsig], fun j _ => hlist (by simp [resumedBy, hsig, hself.2]) j⟩
      rw [hsig, Option.toList_some, pending_append]
      exact hself.1 ▸ hi
    | oneLoad | oneNext w | oneCas b n | oneClear b =>
      have hk := hs.all k
      rw [hpc] at hk
      exact absurd trivial hk
    | _ =>
      rw [hpc] at hself
      have hsig : signal s (.advance k spurious) = none := by simp [signal, hpc]
      refine ⟨⟨?_, hall⟩, by simp [hsig], fun j _ => hlist (by simp [resumedBy, hsig, hself.2]) j⟩
      rw [hsig, Option.toList_none, List.append_nil]
      exact hself.1 ▸ hi

end LibCoro.ConditionVariable
