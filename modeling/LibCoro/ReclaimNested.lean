import LibCoro.ReclaimLinks

namespace LibCoro.Reclaim

open Machine Chain Rcu

def State.pending (s : State) : Option Addr :=
  match s.frames.getLast? with
  | some (.callback _ _ node) => node
  | _ => s.data.head

def Act.enters : Act → Bool
  | .callRcu _ _ => true
  | .freeRcu _ => true
  | .threadCallRcu => true
  | _ => false

def Frame.work (n : Nat) : Frame → Nat
  | .scan _ i => n - i + 2
  | .loop _ _ => 1
  | .callback _ _ _ => 2

def work (n : Nat) : List Frame → Nat
  | [] => 0
  | frame :: frames => frame.work n + work n frames

section Inv

variable {n c : Nat} {es : List Event} {s t : State} {a : Act} {q : List (Addr × Addr)}

theorem Inv.pending (h : Inv es s q) : Linked s.links s.pending (q.map Prod.fst) := by
  rw [← h.registered]
  have hst := h.stage
  unfold State.pending
  generalize s.frames = frames at hst
  cases hst with
  | out hw => exact hw.linked
  | scan m i hw => exact hw.linked
  | loop m hw => exact hw.linked
  | callback m head node hb => exact hb.linked
  | nestedScan m' i m head node hb => exact hb.linked
  | nestedLoop m' m head node hb => exact hb.linked

/-- The callback of the last node registered something; the drain will not look at it. -/
structure Doomed (s : State) (q : List (Addr × Addr)) (head : Addr) : Prop where
  some_due : q ≠ []
  registered : s.registered = q.map Prod.fst
  gone : head ∉ q.map Prod.fst
  first : s.data.head = some head
  tail : s.data.tail ≠ none
  frames : (∃ m, s.frames = [.callback m head none]) ∨
    (∃ m' i m, s.frames = [.scan m' i, .callback m head none]) ∨
    ∃ m' m, s.frames = [.loop m' (some head), .callback m head none]

theorem Doomed.running {head : Addr} (h : Doomed s q head) : head ∈ s.running := by
  obtain ⟨m, hf⟩ | ⟨m', i, m, hf⟩ | ⟨m', m, hf⟩ := h.frames
  · exact mem_running m none (by simp [hf])
  · exact mem_running m none (by simp [hf])
  · exact mem_running m none (by simp [hf])

theorem Doomed.busy {head : Addr} (h : Doomed s q head) : s.frames ≠ [] := by
  obtain ⟨m, hf⟩ | ⟨m', i, m, hf⟩ | ⟨m', m, hf⟩ := h.frames <;> simp [hf]

end Inv

end LibCoro.Reclaim
