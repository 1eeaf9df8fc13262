import Mathlib.Logic.Function.Basic

namespace LibCoro

inductive Status where
  | idle
  | acquiring
  | holding
  | releasing
  deriving DecidableEq, Repr

def Status.Owns (s : Status) : Prop := s = .holding ∨ s = .releasing

instance (s : Status) : Decidable s.Owns := by
  unfold Status.Owns
  infer_instance

/-- A lock as its clients see it: three calls, steps of its own, and the place of every
client, of which at most one owns the lock. -/
structure Lock (C : Type) where
  State : Type
  Move : Type
  init : State
  tryLock : State → C → Option State
  coLock : State → C → Option State
  unlock : State → C → Option State
  move : State → Move → Option State
  status : State → C → Status
  Inv : State → Prop
  inv_init : Inv init
  status_init : ∀ k, status init k = .idle
  inv_tryLock : ∀ s k t, Inv s → tryLock s k = some t → Inv t
  inv_coLock : ∀ s k t, Inv s → coLock s k = some t → Inv t
  inv_unlock : ∀ s k t, Inv s → unlock s k = some t → Inv t
  inv_move : ∀ s m t, Inv s → move s m = some t → Inv t
  exclusive : ∀ s j k, Inv s → (status s j).Owns → (status s k).Owns → j = k
  tryLock_status : ∀ s k t, tryLock s k = some t → status s k = .idle ∧
    (status t k = .idle ∨ status t k = .holding) ∧ ∀ j, j ≠ k → status t j = status s j
  coLock_status : ∀ s k t, coLock s k = some t → status s k = .idle ∧
    (status t k = .acquiring ∨ status t k = .holding) ∧ ∀ j, j ≠ k → status t j = status s j
  unlock_status : ∀ s k t, unlock s k = some t → status s k = .holding ∧
    (status t k = .releasing ∨ status t k = .idle) ∧ ∀ j, j ≠ k → status t j = status s j
  move_status : ∀ s m t, Inv s → move s m = some t → ∀ j, status t j = status s j ∨
    (status s j = .acquiring ∧ status t j = .holding) ∨
    (status s j = .releasing ∧ status t j = .idle)

end LibCoro
