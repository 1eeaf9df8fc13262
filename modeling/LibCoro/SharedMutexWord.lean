import LibCoro.SharedMutex
import Mathlib.Algebra.BigOperators.Group.Finset.Piecewise
import Mathlib.Algebra.Order.BigOperators.Group.Finset
import Mathlib.Data.Nat.Bitwise

namespace LibCoro.SharedMutex

open Machine

variable {C : Type}

theorem writeEntered_iff {n : Nat} (h : n < 2 ^ 32) : writeEntered n = true ↔ 2 ^ 31 ≤ n := by
  have hb : n.testBit 31 = true ↔ 2 ^ 31 ≤ n := by
    rw [Nat.testBit_eq_decide_div_mod_eq, decide_eq_true_iff]
    omega
  rw [writeEntered, writeEnteredFlag, Nat.and_two_pow, ← hb]
  cases n.testBit 31 <;> simp

theorem readers_eq (n : Nat) : readers n = n % 2 ^ 31 :=
  Nat.and_two_pow_sub_one_eq_mod n 31

theorem or_flag {n : Nat} (h : n < 2 ^ 31) : n ||| writeEnteredFlag = n + 2 ^ 31 := by
  have ho := Nat.two_pow_add_eq_or_of_lt h 1
  rw [Nat.mul_one] at ho
  rw [Nat.or_comm, writeEnteredFlag, ← ho, Nat.add_comm]

theorem increment_eq {n : Nat} (h : n < 2 ^ 32 - 1) : increment n = n + 1 := by
  unfold increment
  omega

theorem decrement_eq {n : Nat} (h : 0 < n) (hb : n < 2 ^ 32) : decrement n = n - 1 := by
  unfold decrement
  omega

/-- The caller of `coLock` has set the flag and does not hold the lock yet. -/
def Pc.PastFlag : Pc → Prop
  | .lockTestReaders | .lockDone | .waitTest .readers | .waitSuspend .readers | .waitUnlock .readers
  | .waiting .readers | .waitLock .readers => True
  | _ => False

def Writer {L : Lock C} (s : State L) (k : C) : Prop :=
  s.exclusive k = true ∨ (s.pc k).PastFlag

variable [Fintype C] {L : Lock C}

def State.holders (s : State L) : Nat := ∑ k, s.shared k

structure Word (s : State L) : Prop where
  bound : s.state_ < 2 ^ 32
  count : s.state_ % 2 ^ 31 = s.holders
  flag : 2 ^ 31 ≤ s.state_ ↔ ∃ k, Writer s k
  unique : ∀ j k, Writer s j → Writer s k → j = k
  alone : ∀ k, s.exclusive k = true → s.holders = 0

theorem word_init : Word (init : State L) := by
  constructor <;> simp [init, State.holders, Writer, Pc.PastFlag]

theorem holders_update [DecidableEq C] (f : C → Nat) (k : C) (n : Nat) :
    (∑ j, Function.update f k n j) + f k = (∑ j, f j) + n := by
  rw [Finset.sum_update_of_mem (Finset.mem_univ k), Finset.sdiff_singleton_eq_erase,
    ← Finset.add_sum_erase Finset.univ f (Finset.mem_univ k)]
  omega

theorem word_congr {s t : State L} (hw : Word s) (hst : t.state_ = s.state_)
    (hsh : t.shared = s.shared) (hwr : ∀ j, Writer t j ↔ Writer s j)
    (hex : ∀ j, t.exclusive j = true → s.holders = 0) : Word t := by
  have hh : t.holders = s.holders := by rw [State.holders, hsh, State.holders]
  refine ⟨?_, ?_, ?_, fun j k hj hk => hw.unique j k ((hwr j).mp hj) ((hwr k).mp hk), fun j hj => ?_⟩
  · rw [hst]
    exact hw.bound
  · rw [hst, hh]
    exact hw.count
  · rw [hst]
    simp only [hwr]
    exact hw.flag
  · rw [hh]
    exact hex j hj

theorem word_setFlag {s t : State L} {k : C} (hw : Word s) (hno : ∀ j, ¬ Writer s j)
    (hst : t.state_ = s.state_ ||| writeEnteredFlag) (hsh : t.shared = s.shared)
    (hwr : ∀ j, Writer t j ↔ j = k) (hex : ∀ j, t.exclusive j = true → s.holders = 0) : Word t := by
  have hh : t.holders = s.holders := by rw [State.holders, hsh, State.holders]
  have hlt : s.state_ < 2 ^ 31 := by
    by_contra hge
    obtain ⟨j, hj⟩ := hw.flag.mp (Nat.not_lt.mp hge)
    exact hno j hj
  have hc := hw.count
  rw [or_flag hlt] at hst
  refine ⟨by omega, ?_, ?_, fun i j hi hj => ?_, fun j hj => ?_⟩
  · rw [hst, hh, ← hc]
    omega
  · simp only [hwr, hst]
    simp
  · exact ((hwr i).mp hi).trans ((hwr j).mp hj).symm
  · rw [hh]
    exact hex j hj

theorem word_clear {s t : State L} {k : C} (hw : Word s) (hk : s.exclusive k = true)
    (hst : t.state_ = 0) (hsh : t.shared = s.shared)
    (hwr : ∀ j, Writer t j → j ≠ k ∧ Writer s j) : Word t := by
  have hh : t.holders = 0 := by
    rw [State.holders, hsh]
    exact hw.alone k hk
  have hno : ∀ j, ¬ Writer t j := fun j hj =>
    (hwr j hj).1 (hw.unique j k (hwr j hj).2 (.inl hk))
  refine ⟨by omega, by simp [hst, hh], ?_, fun i j hi => absurd hi (hno i), fun j hj => ?_⟩
  · simp [hst, hno]
  · exact absurd (.inl hj) (hno j)

theorem word_count [DecidableEq C] {s t : State L} {k : C} {n : Nat} (hw : Word s)
    (hlt : t.state_ % 2 ^ 31 + s.shared k = s.state_ % 2 ^ 31 + n) (hb : t.state_ < 2 ^ 32)
    (hsh : t.shared = Function.update s.shared k n) (hwr : ∀ j, Writer t j ↔ Writer s j)
    (hfl : 2 ^ 31 ≤ t.state_ ↔ 2 ^ 31 ≤ s.state_)
    (hex : ∀ j, t.exclusive j = true → t.holders = 0) : Word t := by
  have hh : t.holders + s.shared k = s.holders + n := by
    rw [State.holders, hsh]
    exact holders_update s.shared k n
  have hc := hw.count
  refine ⟨hb, by omega, ?_, fun i j hi hj => hw.unique i j ((hwr i).mp hi) ((hwr j).mp hj), hex⟩
  simp only [hwr]
  exact hfl.trans hw.flag

end LibCoro.SharedMutex
