import LibCoro.WaiterStack

namespace LibCoro.ConditionVariable

open Machine

variable {C : Type}

def Pc.Calm (p : Pc C) : Prop := p = .idle ∨ p = .parked

def Pc.Pushing : Pc C → Prop
  | .suspendLoad | .suspendNext _ | .suspendCas _ => True
  | _ => False

def Pc.Notifying : Pc C → Prop
  | .allLoad | .allCas _ | .oneLoad | .oneNext _ | .oneCas _ _ | .oneClear _ | .resumeWaiters _
  | .resume _ _ => True
  | _ => False

def Current (s : State C) : Pc C → Prop
  | .oneNext w => s.awaiters = w
  | .oneCas a n => s.awaiters = some a ∧ n = s.next a
  | _ => True

def Fresh (s : State C) : Prop := ∀ k, Current s (s.pc k)

variable [DecidableEq C]

theorem oneSafe_of_fresh {s : State C} (hf : Fresh s) (a : Act C) : OneSafe s a := by
  have hsafe : ∀ p spurious, Current s p → SafeCas s spurious p := by
    intro p spurious hp
    cases p with
    | oneCas b n =>
      obtain ⟨hb, rfl⟩ := hp
      change if _ then _ else _
      split_ifs
      · rfl
      · simp [hb]
    | _ => trivial
  cases a with
  | advance k spurious => exact hsafe _ spurious (hf k)
  | _ => trivial

omit [DecidableEq C] in
theorem current_of_calm (s : State C) {p : Pc C} (hp : p.Calm) : Current s p := by
  obtain rfl | rfl := hp <;> trivial

theorem calm_of_step {s t : State C} {a : Act C} (h : step s a = some t) {j : C} (hj : j ≠ a.actor)
    (hc : (s.pc j).Calm) : (t.pc j).Calm := by
  obtain hpc | ⟨-, hpc, -⟩ := pc_of_step h hj
  · rwa [hpc]
  · exact .inl hpc

/-- While everybody else is calm, what the one notifier reads stays valid. -/
theorem fresh_step {s t : State C} {a : Act C} (hf : Fresh s)
    (hcalm : ∀ j, j ≠ a.actor → (s.pc j).Calm) (h : step s a = some t) : Fresh t := by
  intro j
  by_cases hj : j = a.actor
  · subst hj
    cases moves_of_step h with
    | suspend k _ | notifyAll k _ | notifyOne k _ => simp [Act.actor, State.goto, Current]
    | advance k spurious h =>
      have hself : Current s (s.pc k) := hf k
      change Current t (t.pc k)
      cases h with
      | oneNext b hpc =>
        rw [hpc] at hself
        rw [pc_goto]
        exact ⟨hself, rfl⟩
      | _ => simp [State.goto, Current]
  · exact current_of_calm t (calm_of_step h hj (hcalm j hj))

theorem pushing_step {s t : State C} {k : C} {spurious : Bool} (hp : (s.pc k).Pushing)
    (h : step s (.advance k spurious) = some t) : (t.pc k).Pushing ∨ t.pc k = .parked := by
  cases advances_of_step h with
  | suspendLoad _ | suspendNext w _ | pushAgain w _ _ => exact .inl (by simp [State.goto, Pc.Pushing])
  | push w _ _ => exact .inr (pc_goto _ k _)
  | allLoad hpc | takeAll w hpc _ | allAgain w hpc _ | nobody hpc _ | oneLoad hpc _ | oneNext b hpc
  | nullDeref hpc | takeOne b n hpc _ | oneAgain b n hpc _ | oneClear b hpc | loop b hpc | finish hpc
  | resume b w hpc _ | strayResume b w hpc _ => simp [hpc, Pc.Pushing] at hp

theorem notifying_step {s t : State C} {k : C} {spurious : Bool} (hp : (s.pc k).Notifying)
    (hs : (t.pc k).Sound) (h : step s (.advance k spurious) = some t) :
    (t.pc k).Notifying ∨ t.pc k = .idle := by
  cases advances_of_step h with
  | suspendLoad hpc | suspendNext w hpc | push w hpc _ | pushAgain w hpc _ =>
    simp [hpc, Pc.Notifying] at hp
  | nobody _ _ | finish _ => exact .inr (pc_goto s k _)
  | nullDeref _ | strayResume b w _ _ =>
    rw [pc_goto] at hs
    exact hs.elim
  | _ => exact .inl (by simp [State.goto, Pc.Notifying])

end LibCoro.ConditionVariable
