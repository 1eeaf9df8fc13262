import LibCoro.Machine
import Mathlib.Data.Finset.Basic

namespace LibCoro.Grace

open Machine

variable {C A : Type} [DecidableEq C] [DecidableEq A]

/-- Whose section is open, and for whom each grace period in progress still has to wait. -/
structure State (C : Type) where
  inside : Finset C
  waiting : C → Option (Finset C)

inductive Event (C : Type) where
  | enter (r : C)
  | leave (r : C)
  | begin (k : C)
  | finish (k : C)
  deriving DecidableEq, Repr

def init : State C := ⟨∅, fun _ => none⟩

/-- A grace period ends no sooner than every section that was open when it began. -/
def step (g : State C) : Event C → Option (State C)
  | .enter r => when (r ∉ g.inside) { g with inside := insert r g.inside }
  | .leave r =>
    when (r ∈ g.inside)
      { inside := g.inside.erase r, waiting := fun k => (g.waiting k).map fun w => w.erase r }
  | .begin k =>
    when (g.waiting k = none) { g with waiting := Function.update g.waiting k (some g.inside) }
  | .finish k =>
    when (g.waiting k = some ∅) { g with waiting := Function.update g.waiting k none }

omit [DecidableEq A] in
theorem inside_of_step {g g' : State C} {e : Event C} {r : C} (h : step g e = some g')
    (hr : r ∈ g.inside) (he : e ≠ .leave r) : r ∈ g'.inside := by
  cases e with
  | enter j =>
    obtain ⟨-, rfl⟩ := (when_eq_some _ _ _).mp h
    exact Finset.mem_insert_of_mem hr
  | leave j =>
    obtain ⟨-, rfl⟩ := (when_eq_some _ _ _).mp h
    exact Finset.mem_erase.mpr ⟨fun hj => he (hj ▸ rfl), hr⟩
  | begin j | finish j =>
    obtain ⟨-, rfl⟩ := (when_eq_some _ _ _).mp h
    exact hr

/-- How far an object is on its way out of a structure and back to free memory. -/
inductive Phase (C : Type) where
  | free
  | used
  | removed (k : C)
  | covered (k : C)
  | passed (k : C)
  deriving DecidableEq, Repr

def Phase.hear : Phase C → Event C → Phase C
  | .removed k, .begin j => if j = k then .covered k else .removed k
  | .covered k, .finish j => if j = k then .passed k else .covered k
  | p, _ => p

/-- The phases of the objects, and what was removed since the section of each reader began. -/
structure Custody (C A : Type) where
  phase : A → Phase C
  gone : C → Finset A

def Custody.hear (u : Custody C A) (e : Event C) : Custody C A where
  phase a := (u.phase a).hear e
  gone r := if e = .enter r ∨ e = .leave r then ∅ else u.gone r

def Custody.take (u : Custody C A) (a : A) : Option (Custody C A) :=
  when (u.phase a = .free) { u with phase := Function.update u.phase a .used }

def Custody.retire (inside : C → Bool) (u : Custody C A) (k : C) (a : A) : Custody C A where
  phase := Function.update u.phase a (.removed k)
  gone r := if inside r then insert a (u.gone r) else u.gone r

def Custody.reclaim (u : Custody C A) (k : C) (a : A) : Option (Custody C A) :=
  when (u.phase a = .passed k) { u with phase := Function.update u.phase a .free }

/-- What was removed under an open section has a grace period ahead of it that waits for
that section. -/
structure Custody.Inv (g : State C) (u : Custody C A) : Prop where
  inside : ∀ r a, a ∈ u.gone r → r ∈ g.inside
  ahead : ∀ r a, a ∈ u.gone r → ∃ k, u.phase a = .removed k ∨
    u.phase a = .covered k ∧ ∃ w, g.waiting k = some w ∧ r ∈ w

section Custody

variable {g : State C} {u v : Custody C A}

omit [DecidableEq C] [DecidableEq A] in
theorem Custody.inv_init (phase : A → Phase C) : Custody.Inv g ⟨phase, fun _ => ∅⟩ :=
  ⟨fun r a h => by simp at h, fun r a h => by simp at h⟩

omit [DecidableEq C] [DecidableEq A] in
/-- No open section began before the removal of an object that is free again. -/
theorem Custody.Inv.not_gone (h : Custody.Inv g u) {a : A} (ha : u.phase a = .free) (r : C) :
    a ∉ u.gone r := by
  intro hr
  obtain ⟨k, hk | ⟨hk, -⟩⟩ := h.ahead r a hr <;> rw [ha] at hk <;> cases hk

omit [DecidableEq A] in
theorem Custody.inv_hear {g' : State C} {e : Event C} (h : Custody.Inv g u)
    (hg : step g e = some g') : Custody.Inv g' (u.hear e) := by
  have hgone : ∀ r a, a ∈ (u.hear e).gone r → (e ≠ .enter r ∧ e ≠ .leave r) ∧ a ∈ u.gone r := by
    intro r a ha
    simp only [Custody.hear] at ha
    split_ifs at ha with he
    · simp at ha
    · exact ⟨not_or.mp he, ha⟩
  cases e with
  | enter j =>
    obtain ⟨-, rfl⟩ := (when_eq_some _ _ _).mp hg
    refine ⟨fun r a ha => ?_, fun r a ha => ?_⟩
    · exact Finset.mem_insert_of_mem (h.inside r a (hgone r a ha).2)
    · obtain ⟨k, hk | ⟨hk, hw⟩⟩ := h.ahead r a (hgone r a ha).2
      · exact ⟨k, .inl (by simp [Custody.hear, Phase.hear, hk])⟩
      · exact ⟨k, .inr ⟨by simp [Custody.hear, Phase.hear, hk], hw⟩⟩
  | leave j =>
    obtain ⟨-, rfl⟩ := (when_eq_some _ _ _).mp hg
    refine ⟨fun r a ha => ?_, fun r a ha => ?_⟩ <;> obtain ⟨⟨-, hj⟩, ha⟩ := hgone r a ha
    · exact Finset.mem_erase.mpr ⟨fun e => hj (e ▸ rfl), h.inside r a ha⟩
    · obtain ⟨k, hk | ⟨hk, w, hw, hr⟩⟩ := h.ahead r a ha
      · exact ⟨k, .inl (by simp [Custody.hear, Phase.hear, hk])⟩
      · refine ⟨k, .inr ⟨by simp [Custody.hear, Phase.hear, hk], w.erase j, by simp [hw], ?_⟩⟩
        exact Finset.mem_erase.mpr ⟨fun e => hj (e ▸ rfl), hr⟩
  | begin j =>
    obtain ⟨hj, rfl⟩ := (when_eq_some _ _ _).mp hg
    refine ⟨fun r a ha => h.inside r a (hgone r a ha).2, fun r a ha => ?_⟩
    replace ha := (hgone r a ha).2
    obtain ⟨k, hk | ⟨hk, w, hw, hr⟩⟩ := h.ahead r a ha
    · by_cases hjk : j = k
      · refine ⟨k, .inr ⟨by simp [Custody.hear, Phase.hear, hk, hjk], g.inside, ?_, h.inside r a ha⟩⟩
        rw [hjk]
        exact Function.update_self _ _ _
      · exact ⟨k, .inl (by simp [Custody.hear, Phase.hear, hk, hjk])⟩
    · have hkj : k ≠ j := by
        rintro rfl
        rw [hj] at hw
        cases hw
      refine ⟨k, .inr ⟨by simp [Custody.hear, Phase.hear, hk], w, ?_, hr⟩⟩
      exact (Function.update_of_ne hkj _ _).trans hw
  | finish j =>
    obtain ⟨hj, rfl⟩ := (when_eq_some _ _ _).mp hg
    refine ⟨fun r a ha => h.inside r a (hgone r a ha).2, fun r a ha => ?_⟩
    obtain ⟨k, hk | ⟨hk, w, hw, hr⟩⟩ := h.ahead r a (hgone r a ha).2
    · exact ⟨k, .inl (by simp [Custody.hear, Phase.hear, hk])⟩
    · have hkj : k ≠ j := by
        rintro rfl
        cases hj.symm.trans hw
        simp at hr
      refine ⟨k, .inr ⟨by simp [Custody.hear, Phase.hear, hk, Ne.symm hkj], w, ?_, hr⟩⟩
      exact (Function.update_of_ne hkj _ _).trans hw

omit [DecidableEq C] in
theorem Custody.Inv.update (h : Custody.Inv g u) {a : A} (p : Phase C)
    (ha : ∀ k, u.phase a ≠ .removed k ∧ u.phase a ≠ .covered k) :
    Custody.Inv g { u with phase := Function.update u.phase a p } := by
  refine ⟨h.inside, fun r b hb => ?_⟩
  obtain ⟨k, hk⟩ := h.ahead r b hb
  have hba : b ≠ a := by
    rintro rfl
    exact hk.elim (ha k).1 fun hk => (ha k).2 hk.1
  exact ⟨k, by simpa only [Function.update_of_ne hba] using hk⟩

theorem Custody.inv_take {a : A} (h : Custody.Inv g u) (hv : u.take a = some v) :
    Custody.Inv g v := by
  obtain ⟨ha, rfl⟩ := (when_eq_some _ _ _).mp hv
  exact h.update .used fun k => by simp [ha]

theorem Custody.inv_reclaim {k : C} {a : A} (h : Custody.Inv g u) (hv : u.reclaim k a = some v) :
    Custody.Inv g v := by
  obtain ⟨ha, rfl⟩ := (when_eq_some _ _ _).mp hv
  exact h.update .free fun k => by simp [ha]

theorem Custody.inv_retire {k : C} {a : A} (h : Custody.Inv g u) (ha : u.phase a = .used) :
    Custody.Inv g (u.retire (fun r => decide (r ∈ g.inside)) k a) := by
  have hu := h.update (a := a) (.removed k) fun k => by simp [ha]
  refine ⟨fun r b hb => ?_, fun r b hb => ?_⟩
  · by_cases hr : r ∈ g.inside
    · exact hr
    · simp only [Custody.retire, hr, decide_false, Bool.false_eq_true, if_false] at hb
      exact h.inside r b hb
  · by_cases hba : b = a
    · exact ⟨k, .inl (by rw [hba]; exact Function.update_self _ _ _)⟩
    · refine hu.ahead r b ?_
      by_cases hr : r ∈ g.inside
      · simp only [Custody.retire, hr, decide_true, if_true, Finset.mem_insert, hba, false_or] at hb
        exact hb
      · simpa only [Custody.retire, hr, decide_false, Bool.false_eq_true, if_false] using hb

end Custody

/-- A structure whose readers run inside sections and whose writers wait for grace periods. -/
structure Client (C L X : Type) where
  actor : X → Option C
  act : (C → Bool) → L → X → Option L
  hear : L → Event C → L

variable {L X : Type}

def Client.step (m : Client C L X) (g : State C × L) : Event C ⊕ X → Option (State C × L)
  | .inl e => (Grace.step g.1 e).map fun g' => (g', m.hear g.2 e)
  | .inr x => (m.act (fun r => decide (r ∈ g.1.inside)) g.2 x).map fun l => (g.1, l)

end LibCoro.Grace
