import Mathlib.Data.List.Count

namespace LibCoro.Mailbox

variable {T F : Type}

structure Envelope (T F : Type) where
  sender : T
  dest : T
  fn : F
  deriving DecidableEq, Repr

section Count

variable [DecidableEq F]

def inFlight (l : List (Envelope T F)) (f : F) : Nat := (l.map Envelope.fn).count f

@[simp] theorem inFlight_nil (f : F) : inFlight ([] : List (Envelope T F)) f = 0 := rfl

@[simp] theorem inFlight_append (l l' : List (Envelope T F)) (f : F) :
    inFlight (l ++ l') f = inFlight l f + inFlight l' f := by
  simp [inFlight]

@[simp] theorem inFlight_cons (m : Envelope T F) (l : List (Envelope T F)) (f : F) :
    inFlight (m :: l) f = inFlight l f + if m.fn = f then 1 else 0 := by
  simp [inFlight, List.count_cons]

theorem inFlight_eq_zero {l : List (Envelope T F)} {f : F} (h : ∀ m ∈ l, m.fn ≠ f) :
    inFlight l f = 0 := by
  refine List.count_eq_zero.mpr fun hm => ?_
  obtain ⟨m, hm, hf⟩ := List.mem_map.mp hm
  exact h m hm hf

end Count

variable [DecidableEq T]

/-- Messages are in flight in the order they were sent; a thread can receive the oldest one
of any sender, so delivery is in order for each sender and destination only. -/
def oldest (l : List (Envelope T F)) (sender dest : T) : Option (Envelope T F) :=
  l.find? fun m => m.sender = sender ∧ m.dest = dest

def receive (l : List (Envelope T F)) (sender dest : T) : List (Envelope T F) :=
  l.eraseP fun m => m.sender = sender ∧ m.dest = dest

theorem oldest_ends {l : List (Envelope T F)} {sender dest : T} {m : Envelope T F}
    (h : oldest l sender dest = some m) : m.sender = sender ∧ m.dest = dest := by
  have hends := List.find?_some h
  rwa [decide_eq_true_eq] at hends

/-- Receiving takes the message out between those that stay in flight. -/
theorem split_of_oldest {l : List (Envelope T F)} {sender dest : T} {m : Envelope T F}
    (h : oldest l sender dest = some m) :
    ∃ l₁ l₂, l = l₁ ++ m :: l₂ ∧ receive l sender dest = l₁ ++ l₂ ∧
      ∀ a ∈ l₁, ¬ (a.sender = sender ∧ a.dest = dest) := by
  obtain ⟨hm, l₁, l₂, rfl, hbefore⟩ := List.find?_eq_some_iff_append.mp h
  have hno : ∀ a ∈ l₁, ¬ (a.sender = sender ∧ a.dest = dest) := by
    intro a ha
    simpa only [Bool.not_eq_true', decide_eq_false_iff_not] using hbefore a ha
  refine ⟨l₁, l₂, rfl, ?_, hno⟩
  rw [receive, List.eraseP_append_right _ (by simpa using hno), List.eraseP_cons, hm, cond_true]

theorem perm_receive {l : List (Envelope T F)} {sender dest : T} {m : Envelope T F}
    (h : oldest l sender dest = some m) : l.Perm (m :: receive l sender dest) := by
  obtain ⟨l₁, l₂, rfl, hr, -⟩ := split_of_oldest h
  rw [hr]
  exact List.perm_middle

theorem mem_of_receive {l : List (Envelope T F)} {sender dest : T} {m : Envelope T F}
    (h : m ∈ receive l sender dest) : m ∈ l := List.eraseP_subset h

theorem inFlight_receive [DecidableEq F] {l : List (Envelope T F)} {sender dest : T} {m : Envelope T F}
    (h : oldest l sender dest = some m) (f : F) :
    inFlight l f = inFlight (receive l sender dest) f + if m.fn = f then 1 else 0 := by
  rw [← inFlight_cons]
  exact (((perm_receive h).map Envelope.fn).count_eq f)

def queue (l : List (Envelope T F)) (sender dest : T) : List (Envelope T F) :=
  l.filter fun m => m.sender = sender ∧ m.dest = dest

theorem queue_append (l l' : List (Envelope T F)) (sender dest : T) :
    queue (l ++ l') sender dest = queue l sender dest ++ queue l' sender dest :=
  List.filter_append l l'

theorem queue_singleton (m : Envelope T F) (sender dest : T) :
    queue [m] sender dest = if m.sender = sender ∧ m.dest = dest then [m] else [] := by
  simp [queue, List.filter_cons]

theorem queue_oldest {l : List (Envelope T F)} {sender dest : T} {m : Envelope T F}
    (h : oldest l sender dest = some m) :
    queue l sender dest = m :: queue (receive l sender dest) sender dest := by
  obtain ⟨l₁, l₂, rfl, hr, hno⟩ := split_of_oldest h
  have hnone : queue l₁ sender dest = [] := by
    simpa [queue] using hno
  have hself : queue [m] sender dest = [m] := by
    rw [queue_singleton, if_pos (oldest_ends h)]
  rw [hr, List.append_cons, queue_append, queue_append, queue_append, hnone, hself]
  rfl

theorem queue_receive_ne {l : List (Envelope T F)} {sender dest sender' dest' : T}
    (h : ¬ (sender = sender' ∧ dest = dest')) :
    queue (receive l sender dest) sender' dest' = queue l sender' dest' := by
  induction l with
  | nil => rfl
  | cons a l ih =>
    by_cases ha : a.sender = sender ∧ a.dest = dest
    · have ha' : ¬ (a.sender = sender' ∧ a.dest = dest') := by
        rintro ⟨hs, hd⟩
        exact h ⟨ha.1.symm.trans hs, ha.2.symm.trans hd⟩
      have hr : receive (a :: l) sender dest = l := by simp [receive, ha]
      rw [hr, queue, queue, List.filter_cons, if_neg (by simpa using ha')]
    · have hr : receive (a :: l) sender dest = a :: receive l sender dest := by
        simp [receive, ha]
      rw [hr]
      simp only [queue, List.filter_cons] at ih ⊢
      rw [ih]

end LibCoro.Mailbox
