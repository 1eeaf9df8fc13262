import Mathlib.Data.List.Basic

namespace LibCoro


/-- What a computation makes of the answers it is given: the events it performs, then its
result and the answers left over, or `none` where it still waits for an answer. -/
def Outcome (E V α : Type) : Type := List V → List E × Option (α × List V)

namespace Outcome

variable {E V α β γ : Type}

def pure (a : α) : Outcome E V α := fun vs => ([], some (a, vs))

def bind (m : Outcome E V α) (f : α → Outcome E V β) : Outcome E V β := fun vs =>
  match m vs with
  | (es, none) => (es, none)
  | (es, some (a, ws)) => (es ++ (f a ws).1, (f a ws).2)

def ask (event : V → E) : Outcome E V V
  | [] => ([], none)
  | v :: vs => ([event v], some (v, vs))

theorem pure_bind (a : α) (f : α → Outcome E V β) : bind (pure a) f = f a := by
  funext vs
  simp [bind, pure]

theorem bind_pure (m : Outcome E V α) : bind m pure = m := by
  funext vs
  rw [bind]
  cases h : m vs with
  | mk es r =>
    cases r with
    | none => rfl
    | some p => simp [pure]

theorem bind_assoc (m : Outcome E V α) (f : α → Outcome E V β) (g : β → Outcome E V γ) :
    bind (bind m f) g = bind m (fun a => bind (f a) g) := by
  funext vs
  simp only [bind]
  cases m vs with
  | mk es r =>
    cases r with
    | none => rfl
    | some p =>
      cases hf : f p.1 p.2 with
      | mk es' r' => cases r' <;> simp [hf]

theorem ask_bind_cons (event : V → E) (f : V → Outcome E V β) (v : V) (vs : List V) :
    bind (ask event) f (v :: vs) = (event v :: (f v vs).1, (f v vs).2) := by
  simp [bind, ask]

/-- The computation has performed `es` with the answers `answer e` so far and goes on as `m`. -/
def Performed (answer : E → V) (whole : Outcome E V α) (es : List E) (m : Outcome E V α) : Prop :=
  ∀ vs, whole (es.map answer ++ vs) = (es ++ (m vs).1, (m vs).2)

variable {answer : E → V} {whole m : Outcome E V α} {es : List E}

theorem performed_nil (whole : Outcome E V α) : Performed answer whole [] whole := fun vs => by
  simp

theorem Performed.congr {m' : Outcome E V α} (h : Performed answer whole es m) (hm : m = m') :
    Performed answer whole es m' := hm ▸ h

theorem Performed.silent {m' : Outcome E V α} (h : Performed answer whole es m) (hm : m = m') :
    Performed answer whole (es ++ []) m' := (List.append_nil es).symm ▸ h.congr hm

theorem Performed.ask {event : V → E} {f : V → Outcome E V α} (v : V)
    (h : Performed answer whole es (bind (Outcome.ask event) f)) (hv : answer (event v) = v) :
    Performed answer whole (es ++ [event v]) (f v) := by
  intro vs
  have := h (v :: vs)
  rw [ask_bind_cons] at this
  simp only [List.map_append, List.map_cons, List.map_nil, hv, List.append_assoc,
    List.cons_append, List.nil_append, this]

def Prompted (m : Outcome E V α) : Prop :=
  ∀ vs, (m vs).1.length + ((m vs).2.elim 0 fun p => p.2.length) ≤ vs.length

theorem prompted_pure (a : α) : Prompted (pure a : Outcome E V α) := fun vs => by
  simp [pure]

theorem prompted_ask (event : V → E) : Prompted (ask event)
  | [] => by simp [ask]
  | v :: vs => by simp [ask, Nat.add_comm]

theorem prompted_bind {m : Outcome E V α} {f : α → Outcome E V β} (hm : Prompted m)
    (hf : ∀ a, Prompted (f a)) : Prompted (bind m f) := by
  intro vs
  have h := hm vs
  rw [bind]
  cases hr : m vs with
  | mk es r =>
    rw [hr] at h
    cases r with
    | none => exact h
    | some p =>
      have h' := hf p.1 p.2
      simp only [Option.elim_some, List.length_append] at h h' ⊢
      omega

theorem Performed.events (h : Performed answer whole es m) (hm : Prompted m) :
    (whole (es.map answer)).1 = es := by
  have hw := h []
  have hz := hm []
  rw [List.append_nil] at hw
  rw [List.length_nil] at hz
  rw [hw, List.length_eq_zero_iff.mp (by omega : (m []).1.length = 0), List.append_nil]

theorem Performed.result {a : α} (h : Performed answer whole es (pure a)) :
    whole (es.map answer) = (es, some (a, [])) := by
  simpa [pure] using h []

end Outcome

end LibCoro
