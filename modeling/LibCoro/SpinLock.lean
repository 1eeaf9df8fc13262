import LibCoro.Lock
import LibCoro.Machine

namespace LibCoro.SpinLock

open Machine

variable {C : Type}

/-- Where a coroutine stands in the code of the spin lock; `yielded` is suspended until
its message comes back. -/
inductive Pc where
  | idle
  | tryLoop (counter : Int)
  | spin (counter : Int)
  | yielded
  | holding
  deriving DecidableEq, Repr

structure State (C : Type) where
  locked : Bool
  pc : C → Pc

def init : State C := ⟨false, fun _ => .idle⟩

variable [DecidableEq C]

def State.goto (s : State C) (k : C) (p : Pc) : State C := { s with pc := Function.update s.pc k p }

/-- `!_locked.exchange(true)`. -/
def exchange (s : State C) (k : C) (fail : Pc) : State C :=
  { s with locked := true }.goto k (if s.locked then fail else .holding)

def tryLock (s : State C) (k : C) : Option (State C) := when (s.pc k = .idle) (exchange s k .idle)

def coLock (spinCount : Int) (s : State C) (k : C) : Option (State C) :=
  when (s.pc k = .idle) (s.goto k (.tryLoop spinCount))

def unlock (s : State C) (k : C) : Option (State C) :=
  when (s.pc k = .holding) ({ s with locked := false }.goto k .idle)

def advance (spinCount : Int) (s : State C) (k : C) : Option (State C) :=
  match s.pc k with
  | .tryLoop counter => some (exchange s k (.spin counter))
  | .spin counter =>
    if s.locked then
      if counter ≤ 0 then some (s.goto k .yielded) else some (s.goto k (.spin (counter - 1)))
    else some (s.goto k (.tryLoop counter))
  | .yielded => some (s.goto k (.spin spinCount))
  | _ => none

def status (s : State C) (k : C) : Status :=
  match s.pc k with
  | .idle => .idle
  | .tryLoop _ | .spin _ | .yielded => .acquiring
  | .holding => .holding

/-- The flag is set exactly while one coroutine holds the lock. -/
structure Inv (s : State C) : Prop where
  locked : ∀ k, s.pc k = .holding → s.locked = true
  unique : ∀ j k, s.pc j = .holding → s.pc k = .holding → j = k

theorem inv_goto {s : State C} {k : C} {p : Pc} (hi : Inv s) (hp : p ≠ .holding) :
    Inv (s.goto k p) := by
  have hold : ∀ j, (s.goto k p).pc j = .holding → s.pc j = .holding := by
    intro j hj
    by_cases hjk : j = k
    · subst hjk
      exact absurd (by simpa [State.goto] using hj) hp
    · simpa [State.goto, hjk] using hj
  exact ⟨fun j hj => hi.locked j (hold j hj), fun i j h h' => hi.unique i j (hold i h) (hold j h')⟩

theorem inv_exchange {s : State C} {k : C} {fail : Pc} (hi : Inv s) (hf : fail ≠ .holding) :
    Inv (exchange s k fail) := by
  cases hl : s.locked with
  | true =>
    have he : exchange s k fail = s.goto k fail := by simp [exchange, State.goto, hl]
    rw [he]
    exact inv_goto hi hf
  | false =>
    have hfree : ∀ j, s.pc j ≠ .holding := by
      intro j hj
      rw [hi.locked j hj] at hl
      cases hl
    have hold : ∀ j, (exchange s k fail).pc j = .holding → j = k := by
      intro j hj
      by_contra hjk
      exact hfree j (by simpa [exchange, State.goto, hjk] using hj)
    exact ⟨fun _ _ => rfl, fun i j h h' => (hold i h).trans (hold j h').symm⟩

theorem inv_unlock {s : State C} {k : C} (hi : Inv s) (hk : s.pc k = .holding) :
    Inv ({ s with locked := false }.goto k .idle) := by
  have hnone : ∀ j, (({ s with locked := false } : State C).goto k .idle).pc j ≠ .holding := by
    intro j hj
    by_cases hjk : j = k
    · subst hjk
      simp [State.goto] at hj
    · exact hjk (hi.unique j k (by simpa [State.goto, hjk] using hj) hk)
  exact ⟨fun j hj => absurd hj (hnone j), fun i j h _ => absurd h (hnone i)⟩

theorem status_goto (s : State C) (k : C) (p : Pc) (j : C) (hj : j ≠ k) :
    status (s.goto k p) j = status s j := by
  simp [status, State.goto, hj]

theorem status_exchange (s : State C) (k : C) (fail : Pc) (j : C) (hj : j ≠ k) :
    status (exchange s k fail) j = status s j := by
  simp [exchange, status, State.goto, hj]

omit [DecidableEq C] in
theorem holding_of_owns {s : State C} {k : C} (h : (status s k).Owns) : s.pc k = .holding := by
  unfold Status.Owns status at h
  cases hpc : s.pc k <;> simp [hpc] at h
  rfl

end LibCoro.SpinLock

namespace LibCoro

open Machine

variable {C : Type} [DecidableEq C]

def spinLock (spinCount : Int) : Lock C where
  State := SpinLock.State C
  Move := C
  init := SpinLock.init
  tryLock := SpinLock.tryLock
  coLock := SpinLock.coLock spinCount
  unlock := SpinLock.unlock
  move := SpinLock.advance spinCount
  status := SpinLock.status
  Inv := SpinLock.Inv
  inv_init := ⟨fun _ h => (by cases h), fun _ _ h => (by cases h)⟩
  status_init _ := rfl
  inv_tryLock s k t hi h := by
    obtain ⟨-, rfl⟩ := (when_eq_some _ _ _).mp h
    exact SpinLock.inv_exchange hi (by simp)
  inv_coLock s k t hi h := by
    obtain ⟨-, rfl⟩ := (when_eq_some _ _ _).mp h
    exact SpinLock.inv_goto hi (by simp)
  inv_unlock s k t hi h := by
    obtain ⟨hk, rfl⟩ := (when_eq_some _ _ _).mp h
    exact SpinLock.inv_unlock hi hk
  inv_move s k t hi h := by
    unfold SpinLock.advance at h
    split at h
    · exact Option.some.inj h ▸ SpinLock.inv_exchange hi (by simp)
    · split_ifs at h <;> cases h <;> exact SpinLock.inv_goto hi (by simp)
    · exact Option.some.inj h ▸ SpinLock.inv_goto hi (by simp)
    · cases h
  exclusive s j k hi hj hk :=
    hi.unique j k (SpinLock.holding_of_owns hj) (SpinLock.holding_of_owns hk)
  tryLock_status s k t h := by
    obtain ⟨hk, rfl⟩ := (when_eq_some _ _ _).mp h
    refine ⟨by simp [SpinLock.status, hk], ?_, SpinLock.status_exchange s k .idle⟩
    cases hl : s.locked <;> simp [SpinLock.status, SpinLock.exchange, SpinLock.State.goto, hl]
  coLock_status s k t h := by
    obtain ⟨hk, rfl⟩ := (when_eq_some _ _ _).mp h
    refine ⟨by simp [SpinLock.status, hk], ?_, SpinLock.status_goto s k _⟩
    simp [SpinLock.status, SpinLock.State.goto]
  unlock_status s k t h := by
    obtain ⟨hk, rfl⟩ := (when_eq_some _ _ _).mp h
    refine ⟨by simp [SpinLock.status, hk], ?_, fun j hj => ?_⟩
    · simp [SpinLock.status, SpinLock.State.goto]
    · simp [SpinLock.status, SpinLock.State.goto, hj]
  move_status s k t _ h j := by
    by_cases hj : j = k
    · subst hj
      unfold SpinLock.advance at h
      split at h
      · rename_i hpc
        cases hl : s.locked <;> cases Option.some.inj h <;>
          simp [SpinLock.status, SpinLock.exchange, SpinLock.State.goto, hl, hpc]
      · rename_i hpc
        split_ifs at h <;> cases h <;> simp [SpinLock.status, SpinLock.State.goto, hpc]
      · rename_i hpc
        cases h
        simp [SpinLock.status, SpinLock.State.goto, hpc]
      · cases h
    · left
      unfold SpinLock.advance at h
      split at h
      · exact Option.some.inj h ▸ SpinLock.status_exchange s k _ j hj
      · split_ifs at h <;> cases h <;> exact SpinLock.status_goto s k _ j hj
      · exact Option.some.inj h ▸ SpinLock.status_goto s k _ j hj
      · cases h

end LibCoro
