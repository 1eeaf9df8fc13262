import LibCoro.Lock
import LibCoro.MutexRefinement
import LibCoro.SpinLock

namespace LibCoro.Mutex

open Machine

variable {C : Type}

def Pc.status : Pc C → Status
  | .idle => .idle
  | .lockAsyncImpl | .lockLoop _ | .lockEnqueue _ | .parked => .acquiring
  | .holding => .holding
  | .unlockLoad | .unlockCas | .unlockExchange | .unlockReverse _ _ | .unlockPop _ | .unlockResume _
  | .assertFailed => .releasing

def status (s : State C) (k : C) : Status := (s.pc k).status

theorem holds_of_owns {s : State C} {a : FifoLock.State C} (h : Represents s a) {k : C}
    (hk : (status s k).Owns) : (s.pc k).Holds := by
  have hne := h.noAssert k
  unfold Status.Owns status at hk
  cases hpc : s.pc k <;> simp [hpc, Pc.status, Pc.Holds] at hk hne ⊢

variable [DecidableEq C]

theorem status_goto_ne (s : State C) {j k : C} (p : Pc C) (hj : j ≠ k) :
    status (s.goto k p) j = status s j :=
  congrArg Pc.status (Function.update_of_ne hj _ _)

theorem status_goto_self (s : State C) (k : C) (p : Pc C) : status (s.goto k p) k = p.status :=
  congrArg Pc.status (Function.update_self _ _ _)

theorem status_of_goto {s u : State C} {k : C} {p : Pc C} (hu : u.pc = s.pc)
    (hp : p.status = (s.pc k).status ∨ ((s.pc k).status = .acquiring ∧ p.status = .holding) ∨
      ((s.pc k).status = .releasing ∧ p.status = .idle)) (j : C) :
    status (u.goto k p) j = status s j ∨
      (status s j = .acquiring ∧ status (u.goto k p) j = .holding) ∨
      (status s j = .releasing ∧ status (u.goto k p) j = .idle) := by
  by_cases hj : j = k
  · subst hj
    rw [status_goto_self]
    exact hp
  · left
    rw [status_goto_ne u p hj]
    exact congrArg Pc.status (congrFun hu j)

theorem status_advance {s t : State C} {a : FifoLock.State C} (h : Represents s a) {k : C}
    {spurious : Bool} (hs : advance s k spurious = some t) (j : C) :
    status t j = status s j ∨ (status s j = .acquiring ∧ status t j = .holding) ∨
      (status s j = .releasing ∧ status t j = .idle) := by
  unfold advance at hs
  cases hk : s.pc k with
  | idle | parked | holding | assertFailed => simp [hk] at hs
  | unlockResume b =>
    obtain ⟨-, -, hb, -⟩ := represents_resume h hk
    simp only [hk, Option.some.injEq] at hs
    subst hs
    by_cases hj : j = b
    · subst hj
      exact .inr (.inl ⟨congrArg Pc.status hb, status_goto_self _ j .holding⟩)
    · rw [status_goto_ne _ _ hj]
      exact status_of_goto rfl (.inr (.inr ⟨congrArg Pc.status hk, rfl⟩)) j
  | unlockExchange =>
    simp only [hk] at hs
    split at hs <;> cases hs <;> apply status_of_goto rfl <;> simp [hk, Pc.status]
  | unlockReverse w head =>
    simp only [hk] at hs
    cases hs
    apply status_of_goto rfl
    cases s.next w <;> simp [hk, Pc.status]
  | unlockPop head =>
    cases head <;> simp only [hk] at hs <;> cases hs <;> apply status_of_goto rfl <;>
      simp [hk, Pc.status]
  | _ =>
    simp only [hk] at hs
    try split_ifs at hs
    all_goals cases hs
    all_goals apply status_of_goto rfl
    all_goals simp [hk, Pc.status]

theorem status_tryLock {s : State C} {k : C} (p : Pc C) :
    ((status (tryLock s k p) k = p.status ∨ status (tryLock s k p) k = .holding) ∧
      ∀ j, j ≠ k → status (tryLock s k p) j = status s j) := by
  unfold tryLock
  split_ifs
  · exact ⟨.inr (status_goto_self _ k .holding), fun j hj => status_goto_ne _ _ hj⟩
  · exact ⟨.inl (status_goto_self s k p), fun j hj => status_goto_ne _ _ hj⟩

theorem status_unlock {s : State C} {k : C} :
    status (unlock s k) k = .releasing ∧ ∀ j, j ≠ k → status (unlock s k) j = status s j := by
  unfold unlock
  split_ifs <;> exact ⟨status_goto_self s k _, fun j hj => status_goto_ne _ _ hj⟩

end LibCoro.Mutex

namespace LibCoro

open Machine Mutex

variable {C : Type} [DecidableEq C]

theorem Mutex.represents_of_step {s t : Mutex.State C} {e : Mutex.Act C}
    (hi : ∃ a, Represents s a) (h : Mutex.step s e = some t) : ∃ a, Represents t a := by
  obtain ⟨a, ha⟩ := hi
  obtain ⟨b, -, hb⟩ := represents_step s a e t ha h
  exact ⟨b, hb⟩

def mutex : Lock C where
  State := Mutex.State C
  Move := C × Bool
  init := Mutex.init
  tryLock s k := Mutex.step s (.tryLock k)
  coLock s k := Mutex.step s (.coLock k)
  unlock s k := Mutex.step s (.unlock k)
  move s m := Mutex.step s (.advance m.1 m.2)
  status := Mutex.status
  Inv s := ∃ a, Represents s a
  inv_init := ⟨_, represents_init⟩
  status_init _ := rfl
  inv_tryLock _ _ _ hi h := represents_of_step hi h
  inv_coLock _ _ _ hi h := represents_of_step hi h
  inv_unlock _ _ _ hi h := represents_of_step hi h
  inv_move _ _ _ hi h := represents_of_step hi h
  exclusive s j k hi hj hk := by
    obtain ⟨a, ha⟩ := hi
    exact owner_unique ha (holds_of_owns ha hj) (holds_of_owns ha hk)
  tryLock_status s k t h := by
    obtain ⟨hk, rfl⟩ := (when_eq_some _ _ _).mp h
    exact ⟨congrArg Pc.status hk, status_tryLock .idle⟩
  coLock_status s k t h := by
    obtain ⟨hk, rfl⟩ := (when_eq_some _ _ _).mp h
    exact ⟨congrArg Pc.status hk, status_tryLock .lockAsyncImpl⟩
  unlock_status s k t h := by
    obtain ⟨hk, rfl⟩ := (when_eq_some _ _ _).mp h
    exact ⟨congrArg Pc.status hk, .inl status_unlock.1, status_unlock.2⟩
  move_status s m t hi h j := by
    obtain ⟨a, ha⟩ := hi
    exact status_advance ha h j

inductive LockKind where
  | spinLock (spinCount : Int)
  | mutex

def LockKind.lock : LockKind → Lock C
  | .spinLock spinCount => LibCoro.spinLock spinCount
  | .mutex => LibCoro.mutex

end LibCoro
