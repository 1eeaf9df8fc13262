import Mathlib.Data.List.Nodup
import LibCoro.Machine

namespace LibCoro.FifoLock

open Machine

variable {C : Type}

/-- A lock with its waiters in the order of their arrival. -/
structure State (C : Type) where
  owner : Option C
  queue : List C

def init : State C := ⟨none, []⟩

inductive Event (C : Type) where
  | acquire (k : C)
  | enqueue (k : C)
  | release (k : C)
  | handoff (k j : C)

variable [DecidableEq C]

/-- A free lock has no waiters, so an acquisition never overtakes anybody, and a
release with somebody waiting hands the lock to the first waiter. -/
def step (s : State C) : Event C → Option (State C)
  | .acquire k => when (s.owner = none ∧ s.queue = []) ⟨some k, []⟩
  | .enqueue k => when (s.owner ≠ none ∧ s.owner ≠ some k ∧ k ∉ s.queue) ⟨s.owner, s.queue ++ [k]⟩
  | .release k => when (s.owner = some k ∧ s.queue = []) ⟨none, []⟩
  | .handoff k j => when (s.owner = some k ∧ s.queue.head? = some j) ⟨some j, s.queue.tail⟩

def enqueued : Event C → Option C
  | .enqueue k => some k
  | _ => none

def handed : Event C → Option C
  | .handoff _ j => some j
  | _ => none

structure Fifo (es : List (Event C)) (s : State C) : Prop where
  order : es.filterMap enqueued = es.filterMap handed ++ s.queue
  nodup : s.queue.Nodup
  free : s.owner = none → s.queue = []
  owner : ∀ k, s.owner = some k → k ∉ s.queue

omit [DecidableEq C] in
theorem fifo_init : Fifo [] (init : State C) :=
  ⟨rfl, List.nodup_nil, fun _ => rfl, fun _ h => by cases h⟩

theorem fifo_step (es : List (Event C)) (s t : State C) (e : Event C)
    (hf : Fifo es s) (h : step s e = some t) : Fifo (es ++ [e]) t := by
  obtain ⟨horder, hnodup, hfree, howner⟩ := hf
  cases e with
  | acquire k =>
    simp only [step, when_eq_some] at h
    obtain ⟨⟨ho, hq⟩, rfl⟩ := h
    refine ⟨?_, List.nodup_nil, fun _ => rfl, fun _ _ => List.not_mem_nil⟩
    simpa [List.filterMap_cons, enqueued, handed, hq] using horder
  | enqueue k =>
    simp only [step, when_eq_some] at h
    obtain ⟨⟨ho, hne, hk⟩, rfl⟩ := h
    refine ⟨?_, ?_, fun hn => absurd hn ho, ?_⟩
    · simp [enqueued, handed, horder]
    · exact List.nodup_append.mpr ⟨hnodup, List.pairwise_singleton _ k, by grind⟩
    · intro j hj
      have hjk : j ≠ k := fun hjk => hne (hjk ▸ hj)
      simpa [hjk] using howner j hj
  | release k =>
    simp only [step, when_eq_some] at h
    obtain ⟨⟨ho, hq⟩, rfl⟩ := h
    refine ⟨?_, List.nodup_nil, fun _ => rfl, fun _ _ => List.not_mem_nil⟩
    simpa [List.filterMap_cons, enqueued, handed, hq] using horder
  | handoff k j =>
    simp only [step, when_eq_some] at h
    obtain ⟨⟨ho, hq⟩, rfl⟩ := h
    obtain ⟨q, hcons⟩ : ∃ q, s.queue = j :: q := List.head?_eq_some_iff.mp hq
    rw [hcons] at horder hnodup
    refine ⟨?_, ?_, ?_, ?_⟩
    · simpa [List.filterMap_cons, enqueued, handed, hcons] using horder
    · simpa [hcons] using (List.nodup_cons.mp hnodup).2
    · intro hn
      cases hn
    · rintro i hi
      obtain rfl : j = i := Option.some.inj hi
      simpa [hcons] using (List.nodup_cons.mp hnodup).1

theorem fifo_run {es : List (Event C)} {t : State C} (h : run step init es = some t) :
    Fifo es t := by
  have htrace := trace_invariant (fun _ e => some e) Fifo
    (fun es s e t hf hs => fifo_step es s t e hf hs) h fifo_init
  rw [trace_self h] at htrace
  exact htrace

end LibCoro.FifoLock
