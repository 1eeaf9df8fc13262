import LibCoro.ReclaimOrder
import LibCoro.Drain

namespace LibCoro.Rcu

open Machine Chain

variable {C : Type} [DecidableEq C] {n c v : Nat} {s t : State C} {a : Act C} {q : Nat → List Addr}
  {x : Addr}

structure Sorted (s : State C) (q : Nat → List Addr) : Prop where
  increasing : ∀ c, Increasing s (q c)
  taken : ∀ c, ∀ x ∈ q c, (s.heads x).version ≤ s.sequencer
  length : ∀ c, (q c).length ≤ s.sequencer

def Pc.DrainsTo (v : Nat) (p : Pc) : Prop :=
  ∃ m, v ≤ m ∧ ((∃ i, p = .drainScan m i) ∨ ∃ node, p = .drainLoop m node)

theorem Pc.DrainsTo.busy {p : Pc} (h : p.DrainsTo v) : p ≠ .idle ∧ ¬ p.Yielded := by
  obtain ⟨m, -, ⟨i, rfl⟩ | ⟨node, rfl⟩⟩ := h <;> exact ⟨by simp, by simp [Pc.Yielded]⟩

structure Kept (s : State C) (q : Nat → List Addr) : Prop where
  located : Located s
  queues : Queues s q
  sorted : Sorted s q

end LibCoro.Rcu
