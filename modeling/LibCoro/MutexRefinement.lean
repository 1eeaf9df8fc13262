import LibCoro.Mutex

namespace LibCoro.Mutex

open Machine Chain

variable {C : Type}

/-- The part of the queue in front of the list hanging off `_state`: the list of
`_waiters`, the two pieces of the list under reversal, or the list whose first
awaiter is about to be resumed, depending on where the owner stands. -/
def Front (s : State C) (front : List C) : Pc C → Prop
  | .holding => Linked s.next s.waiters front
  | .unlockLoad | .unlockCas => s.waiters = none ∧ front = []
  | .unlockExchange => s.waiters = none ∧ front = [] ∧ s.state ≠ .nullptr
  | .unlockReverse waiter waitersHead => s.waiters = none ∧ ∃ rest done,
      Linked s.next (some waiter) rest ∧ Linked s.next waitersHead done ∧
        front = rest.reverse ++ done
  | .unlockPop waitersHead => Linked s.next waitersHead front ∧ front ≠ []
  | .unlockResume a => ∃ rest, front = a :: rest ∧ Linked s.next s.waiters rest
  | _ => True

structure Represents (s : State C) (a : FifoLock.State C) : Prop where
  holds : ∀ k, (s.pc k).Holds ↔ a.owner = some k
  parked : ∀ k, s.pc k = .parked ↔ k ∈ a.queue
  free : s.state = .unlockedState ↔ a.owner = none
  empty : a.owner = none → s.waiters = none ∧ a.queue = []
  linked : ∀ k w, s.pc k = .lockEnqueue w → w ≠ .unlockedState ∧ s.next k = w.toAwaiter
  noAssert : ∀ k, s.pc k ≠ .assertFailed
  nodup : a.queue.Nodup
  lists : ∃ front stack, a.queue = front ++ stack.reverse ∧
    Linked s.next s.state.toAwaiter stack ∧ ∀ k, a.owner = some k → Front s front (s.pc k)

theorem represents_init : Represents (init : State C) FifoLock.init where
  holds k := by simp [init, FifoLock.init, Pc.Holds]
  parked k := by simp [init, FifoLock.init]
  free := by simp [init, FifoLock.init]
  empty _ := ⟨rfl, rfl⟩
  linked k w h := by simp [init] at h
  noAssert k := by simp [init]
  nodup := List.nodup_nil
  lists := ⟨[], [], rfl, rfl, fun k h => by cases h⟩

theorem owner_unique {s : State C} {a : FifoLock.State C} (h : Represents s a) {j k : C}
    (hj : (s.pc j).Holds) (hk : (s.pc k).Holds) : j = k :=
  Option.some.inj (((h.holds j).mp hj).symm.trans ((h.holds k).mp hk))

theorem stack_of_holds {s : State C} {a : FifoLock.State C} (h : Represents s a) {k : C}
    (hk : (s.pc k).Holds) : a.owner = some k ∧ s.state ≠ .unlockedState := by
  have ho := (h.holds k).mp hk
  refine ⟨ho, fun hs => ?_⟩
  rw [h.free.mp hs] at ho
  cases ho

variable [DecidableEq C]

@[simp] theorem goto_state (s : State C) (k : C) (p : Pc C) : (s.goto k p).state = s.state := rfl
@[simp] theorem goto_waiters (s : State C) (k : C) (p : Pc C) :
    (s.goto k p).waiters = s.waiters := rfl
@[simp] theorem goto_next (s : State C) (k : C) (p : Pc C) : (s.goto k p).next = s.next := rfl
@[simp] theorem goto_pc_self (s : State C) (k : C) (p : Pc C) : (s.goto k p).pc k = p := by
  simp [State.goto]

theorem forall_goto {s : State C} {k : C} {p : Pc C} (P : C → Pc C → Prop) :
    (∀ j, P j ((s.goto k p).pc j)) ↔ P k p ∧ ∀ j, j ≠ k → P j (s.pc j) :=
  Function.forall_update_iff s.pc P

@[simp] theorem front_goto (s : State C) (k : C) (p q : Pc C) (front : List C) :
    Front (s.goto k p) front q ↔ Front s front q := by
  cases q <;> rfl

theorem holds_goto {s : State C} {a : FifoLock.State C} (h : Represents s a) {k : C} {p : Pc C}
    (hp : p.Holds ↔ a.owner = some k) : ∀ j, ((s.goto k p).pc j).Holds ↔ a.owner = some j :=
  (forall_goto fun j q => q.Holds ↔ a.owner = some j).mpr ⟨hp, fun j _ => h.holds j⟩

theorem parked_goto {s : State C} {a : FifoLock.State C} (h : Represents s a) {k : C} {p : Pc C}
    (hp : p = .parked ↔ k ∈ a.queue) : ∀ j, (s.goto k p).pc j = .parked ↔ j ∈ a.queue :=
  (forall_goto fun j q => q = .parked ↔ j ∈ a.queue).mpr ⟨hp, fun j _ => h.parked j⟩

theorem linked_goto {s : State C} {a : FifoLock.State C} (h : Represents s a) {k : C} {p : Pc C}
    (hp : ∀ w, p = .lockEnqueue w → w ≠ .unlockedState ∧ s.next k = w.toAwaiter) :
    ∀ j w, (s.goto k p).pc j = .lockEnqueue w → w ≠ .unlockedState ∧ s.next j = w.toAwaiter :=
  (forall_goto fun j q => ∀ w, q = .lockEnqueue w → w ≠ .unlockedState ∧
    s.next j = w.toAwaiter).mpr ⟨hp, fun j _ => h.linked j⟩

theorem noAssert_goto {s : State C} {a : FifoLock.State C} (h : Represents s a) {k : C} {p : Pc C}
    (hp : p ≠ .assertFailed) : ∀ j, (s.goto k p).pc j ≠ .assertFailed :=
  (forall_goto fun _ q => q ≠ .assertFailed).mpr ⟨hp, fun j _ => h.noAssert j⟩

theorem front_goto_owner {s : State C} {a : FifoLock.State C} {k : C} {p : Pc C}
    {F : Pc C → Prop} (ho : a.owner = some k) (hp : F p) :
    ∀ j, a.owner = some j → F ((s.goto k p).pc j) :=
  (forall_goto fun j q => a.owner = some j → F q).mpr
    ⟨fun _ => hp, fun _ hj hjo => absurd (Option.some.inj (hjo.symm.trans ho)) hj⟩

theorem represents_goto {s : State C} {a : FifoLock.State C} (h : Represents s a) {k : C}
    {p : Pc C} (hh : p.Holds ↔ (s.pc k).Holds) (hp : p = .parked ↔ s.pc k = .parked)
    (hl : ∀ w, p = .lockEnqueue w → w ≠ .unlockedState ∧ s.next k = w.toAwaiter)
    (ha : p ≠ .assertFailed)
    (hf : ∀ front, p.Holds → Front s front (s.pc k) → Front s front p) :
    Represents (s.goto k p) a := by
  obtain ⟨front, stack, hq, hs, hfront⟩ := h.lists
  refine ⟨?_, ?_, h.free, h.empty, ?_, ?_, h.nodup, front, stack, hq, hs, ?_⟩
  · exact holds_goto h (hh.trans (h.holds k))
  · exact parked_goto h (hp.trans (h.parked k))
  · exact linked_goto h hl
  · exact noAssert_goto h ha
  · refine (forall_goto fun j q => a.owner = some j → Front s front q).mpr ⟨fun hk => ?_, ?_⟩
    · exact hf front (hh.mpr ((h.holds k).mpr hk)) (hfront k hk)
    · exact fun j _ => hfront j

theorem represents_acquire {s : State C} {a : FifoLock.State C} (h : Represents s a) {k : C}
    (hs : s.state = .unlockedState) :
    Represents ({ s with state := .nullptr }.goto k .holding) ⟨some k, []⟩ := by
  have ho := h.free.mp hs
  obtain ⟨hw, hq⟩ := h.empty ho
  refine ⟨?_, ?_, by simp, by simp, ?_, ?_, List.nodup_nil, [], [], rfl, rfl, ?_⟩
  · refine (forall_goto fun j q => q.Holds ↔ some k = some j).mpr ⟨by simp [Pc.Holds], ?_⟩
    intro j hj
    have hn : ¬ (s.pc j).Holds := by simp [h.holds j, ho]
    simpa [hn] using hj.symm
  · refine (forall_goto fun j q => q = .parked ↔ j ∈ []).mpr ⟨by simp, fun j _ => ?_⟩
    simpa [hq] using h.parked j
  · exact linked_goto h (by simp)
  · exact noAssert_goto h (by simp)
  · refine (forall_goto fun j q => some k = some j → Front _ [] q).mpr ⟨fun _ => ?_, ?_⟩
    · exact hw
    · exact fun j hj hk => absurd (Option.some.inj hk).symm hj

theorem front_update {s : State C} {k : C} (q : Option C) {front : List C} {p : Pc C}
    (hk : k ∉ front) (hf : Front s front p) :
    Front { s with next := Function.update s.next k q } front p := by
  cases p with
  | holding => exact (linked_update q hk).mpr hf
  | unlockReverse waiter waitersHead =>
    obtain ⟨hw, rest, done, hrest, hdone, rfl⟩ := hf
    rw [List.mem_append, List.mem_reverse, not_or] at hk
    exact ⟨hw, rest, done, (linked_update q hk.1).mpr hrest, (linked_update q hk.2).mpr hdone, rfl⟩
  | unlockPop waitersHead => exact ⟨(linked_update q hk).mpr hf.1, hf.2⟩
  | unlockResume b =>
    obtain ⟨rest, rfl, hrest⟩ := hf
    have hk' : k ∉ rest := fun hm => hk (List.mem_cons_of_mem b hm)
    exact ⟨rest, rfl, (linked_update q hk').mpr hrest⟩
  | _ => exact hf

theorem represents_link {s : State C} {a : FifoLock.State C} (h : Represents s a) {k : C}
    {w : Word C} (hk : s.pc k = .lockLoop w) (hw : w ≠ .unlockedState) :
    Represents ({ s with next := Function.update s.next k w.toAwaiter }.goto k (.lockEnqueue w)) a := by
  obtain ⟨front, stack, hq, hs, hfront⟩ := h.lists
  have hkq : k ∉ a.queue := by simp [← h.parked k, hk]
  rw [hq, List.mem_append, List.mem_reverse, not_or] at hkq
  have hbase : Represents { s with next := Function.update s.next k w.toAwaiter } a := by
    refine ⟨h.holds, h.parked, h.free, h.empty, fun j v hj => ?_, h.noAssert, h.nodup, front, stack,
      hq, (linked_update _ hkq.2).mpr hs, fun j hj => front_update _ hkq.1 (hfront j hj)⟩
    have hjk : j ≠ k := by
      rintro rfl
      simp [hk] at hj
    simpa only [Function.update_of_ne hjk] using h.linked j v hj
  refine represents_goto hbase ?_ ?_ ?_ ?_ ?_
  · simp [hk, Pc.Holds]
  · simp [hk]
  · simp [hw]
  · simp
  · simp [Pc.Holds]

theorem represents_enqueue {s : State C} {a : FifoLock.State C} (h : Represents s a) {k : C}
    (hk : s.pc k = .lockEnqueue s.state) :
    a.owner ≠ none ∧ a.owner ≠ some k ∧ k ∉ a.queue ∧
      Represents ({ s with state := .awaiter k }.goto k .parked) ⟨a.owner, a.queue ++ [k]⟩ := by
  obtain ⟨front, stack, hq, hs, hfront⟩ := h.lists
  obtain ⟨hw, hn⟩ := h.linked k s.state hk
  have ho : a.owner ≠ none := fun ho => hw (h.free.mpr ho)
  have hok : a.owner ≠ some k := by simp [← h.holds k, hk, Pc.Holds]
  have hkq : k ∉ a.queue := by simp [← h.parked k, hk]
  refine ⟨ho, hok, hkq, ?_, ?_, by simpa using ho, fun h => absurd h ho, ?_, ?_, ?_,
    front, k :: stack, by simp [hq], ⟨rfl, by rw [← hn] at hs; exact hs⟩, ?_⟩
  · exact holds_goto h (by simpa [Pc.Holds] using hok)
  · refine (forall_goto fun j q => q = .parked ↔ j ∈ a.queue ++ [k]).mpr ⟨by simp, fun j hj => ?_⟩
    simpa [hj] using h.parked j
  · exact linked_goto h (by simp)
  · exact noAssert_goto h (by simp)
  · exact List.nodup_append.mpr ⟨h.nodup, List.pairwise_singleton _ k, by grind⟩
  · refine (forall_goto fun j q => a.owner = some j → Front _ front q).mpr
      ⟨fun hk => absurd hk hok, fun j _ hj => ?_⟩
    have hf := hfront j hj
    cases hp : s.pc j <;> rw [hp] at hf <;> first | exact hf | exact ⟨hf.1, hf.2.1, by simp⟩

/-- The releasing compare-exchange: null in the word means that nobody is queued. -/
theorem represents_release {s : State C} {a : FifoLock.State C} (h : Represents s a) {k : C}
    (hk : s.pc k = .unlockCas) (hs : s.state = .nullptr) :
    a.owner = some k ∧ a.queue = [] ∧
      Represents ({ s with state := .unlockedState }.goto k .idle) ⟨none, []⟩ := by
  obtain ⟨front, stack, hq, hstack, hfront⟩ := h.lists
  have ho : a.owner = some k := (h.holds k).mp (by simp [hk, Pc.Holds])
  have hf := hfront k ho
  rw [hk] at hf
  rw [hs] at hstack
  have hqe : a.queue = [] := by
    rw [hq, hf.2, (linked_none stack).mp hstack]
    rfl
  refine ⟨ho, hqe, ?_, ?_, by simp, fun _ => ⟨hf.1, rfl⟩, ?_, ?_, List.nodup_nil, [], [], rfl, rfl,
    fun j hj => by cases hj⟩
  · refine (forall_goto fun j q => q.Holds ↔ none = some j).mpr ⟨by simp [Pc.Holds], fun j hj => ?_⟩
    have hn : ¬ (s.pc j).Holds := by
      rw [h.holds j, ho]
      exact fun e => hj (Option.some.inj e).symm
    simpa using hn
  · refine (forall_goto fun j q => q = .parked ↔ j ∈ []).mpr ⟨by simp, fun j _ => ?_⟩
    simpa [hqe] using h.parked j
  · exact linked_goto h (by simp)
  · exact noAssert_goto h (by simp)

theorem represents_exchange {s : State C} {a : FifoLock.State C} (h : Represents s a) {k : C}
    (hk : s.pc k = .unlockExchange) :
    ∃ b, s.state = .awaiter b ∧
      Represents ({ s with state := .nullptr }.goto k (.unlockReverse b none)) a := by
  obtain ⟨front, stack, hq, hstack, hfront⟩ := h.lists
  obtain ⟨ho, hs⟩ := stack_of_holds h (k := k) (by simp [hk, Pc.Holds])
  have hf := hfront k ho
  rw [hk] at hf
  obtain ⟨hw, rfl, hn⟩ := hf
  cases hst : s.state with
  | unlockedState => exact absurd hst hs
  | nullptr => exact absurd hst hn
  | awaiter b =>
    rw [hst] at hstack
    refine ⟨b, rfl, ?_, ?_, by simp [ho], by simp [ho], ?_, ?_, h.nodup, stack.reverse, [],
      by simpa using hq, rfl, ?_⟩
    · exact holds_goto h (by simp [Pc.Holds, ho])
    · exact parked_goto h (by simp [← h.parked k, hk])
    · exact linked_goto h (by simp)
    · exact noAssert_goto h (by simp)
    · exact front_goto_owner ho ⟨hw, stack, [], hstack, rfl, by simp⟩

/-- One turn of the loop that reverses the list: an awaiter leaves the rest and
comes first in the part that is already in order. -/
theorem represents_reverse {s : State C} {a : FifoLock.State C} (h : Represents s a) {k w : C}
    {head : Option C} (hk : s.pc k = .unlockReverse w head) :
    Represents ({ s with next := Function.update s.next w head }.goto k
      (match s.next w with
        | some temp => .unlockReverse temp (some w)
        | none => .unlockPop (some w))) a := by
  obtain ⟨front, stack, hq, hstack, hfront⟩ := h.lists
  have ho : a.owner = some k := (h.holds k).mp (by simp [hk, Pc.Holds])
  have hf := hfront k ho
  rw [hk] at hf
  obtain ⟨hw, rest, done, hrest, hdone, rfl⟩ := hf
  obtain ⟨rest', rfl, -⟩ := (linked_some w rest).mp hrest
  have hnd := h.nodup
  rw [hq] at hnd
  have hwd : w ∉ done := by grind
  have hws : w ∉ stack := by grind
  have hwq : s.pc w = .parked := (h.parked w).mpr (by simp [hq])
  obtain ⟨hrest', hdone'⟩ := linked_reverse_step hrest hdone hwd
  have hkw : k ≠ w := by
    rintro rfl
    simp [hk] at hwq
  refine ⟨?_, ?_, h.free, h.empty, ?_, ?_, h.nodup, (w :: rest').reverse ++ done, stack, hq,
    (linked_update _ hws).mpr hstack, ?_⟩
  · exact holds_goto h (by cases s.next w <;> simp [Pc.Holds, ho])
  · refine parked_goto h ?_
    rw [← h.parked k, hk]
    cases s.next w <;> simp
  · refine (forall_goto fun j q => ∀ v, q = .lockEnqueue v → v ≠ .unlockedState ∧
      Function.update s.next w head j = v.toAwaiter).mpr ⟨?_, fun j _ v hj => ?_⟩
    · cases s.next w <;> simp
    · have hjw : j ≠ w := by
        rintro rfl
        simp [hwq] at hj
      rw [Function.update_of_ne hjw]
      exact h.linked j v hj
  · exact noAssert_goto h (by cases s.next w <;> simp)
  · refine front_goto_owner ho ?_
    cases hn : s.next w with
    | some temp =>
      rw [hn] at hrest'
      exact ⟨hw, rest', w :: done, hrest', hdone', by simp⟩
    | none =>
      rw [hn, linked_none] at hrest'
      subst hrest'
      exact ⟨hdone', by simp⟩

theorem represents_pop {s : State C} {a : FifoLock.State C} (h : Represents s a) {k : C}
    {head : Option C} (hk : s.pc k = .unlockPop head) :
    ∃ b, head = some b ∧ Represents ({ s with waiters := s.next b }.goto k (.unlockResume b)) a := by
  obtain ⟨front, stack, hq, hstack, hfront⟩ := h.lists
  have ho : a.owner = some k := (h.holds k).mp (by simp [hk, Pc.Holds])
  have hf := hfront k ho
  rw [hk] at hf
  obtain ⟨hl, hne⟩ := hf
  cases head with
  | none => exact absurd ((linked_none front).mp hl) hne
  | some b =>
    obtain ⟨rest, rfl, hrest⟩ := (linked_some b front).mp hl
    refine ⟨b, rfl, ?_, ?_, h.free, by simp [ho], ?_, ?_, h.nodup, b :: rest, stack, hq, hstack, ?_⟩
    · exact holds_goto h (by simp [Pc.Holds, ho])
    · exact parked_goto h (by simp [← h.parked k, hk])
    · exact linked_goto h (by simp)
    · exact noAssert_goto h (by simp)
    · exact front_goto_owner ho ⟨rest, rfl, hrest⟩

/-- The resumed coroutine owns the mutex from the call of `resume` on. -/
theorem represents_resume {s : State C} {a : FifoLock.State C} (h : Represents s a) {k b : C}
    (hk : s.pc k = .unlockResume b) :
    a.owner = some k ∧ a.queue.head? = some b ∧ s.pc b = .parked ∧
      Represents ((s.goto k .idle).goto b .holding) ⟨some b, a.queue.tail⟩ := by
  obtain ⟨front, stack, hq, hstack, hfront⟩ := h.lists
  have ho : a.owner = some k := (h.holds k).mp (by simp [hk, Pc.Holds])
  have hf := hfront k ho
  rw [hk] at hf
  obtain ⟨rest, rfl, hrest⟩ := hf
  have hb : s.pc b = .parked := (h.parked b).mpr (by simp [hq])
  have hqc : a.queue = b :: (rest ++ stack.reverse) := by simpa using hq
  have hnd := h.nodup
  rw [hqc, List.nodup_cons] at hnd
  have hbk : b ≠ k := by
    rintro rfl
    simp [hk] at hb
  have hns : s.state ≠ .unlockedState := (stack_of_holds h (k := k) (by simp [hk, Pc.Holds])).2
  rw [hqc]
  refine ⟨ho, rfl, hb, ?_, ?_, by simpa using hns, by simp, ?_, ?_, hnd.2, rest, stack, rfl,
    hstack, ?_⟩
  · refine (forall_goto fun j q => q.Holds ↔ some b = some j).mpr ⟨by simp [Pc.Holds], ?_⟩
    refine (forall_goto fun j q => j ≠ b → (q.Holds ↔ some b = some j)).mpr ⟨?_, ?_⟩
    · simp [Pc.Holds, hbk]
    · intro j hj hjb
      have hn : ¬ (s.pc j).Holds := by
        rw [h.holds j, ho]
        exact fun e => hj (Option.some.inj e).symm
      simpa [hn] using hjb.symm
  · refine (forall_goto fun j q => q = .parked ↔ j ∈ rest ++ stack.reverse).mpr
      ⟨by simpa using hnd.1, ?_⟩
    refine (forall_goto fun j q => j ≠ b → (q = .parked ↔ j ∈ rest ++ stack.reverse)).mpr ⟨?_, ?_⟩
    · have hkq : k ∉ a.queue := by simp [← h.parked k, hk]
      rw [hqc, List.mem_cons, not_or] at hkq
      exact fun _ => ⟨fun e => by simp at e, fun e => absurd e hkq.2⟩
    · intro j _ hjb
      rw [h.parked j, hqc, List.mem_cons, or_iff_right hjb]
  · refine (forall_goto fun j q => ∀ w, q = .lockEnqueue w → w ≠ .unlockedState ∧
      s.next j = w.toAwaiter).mpr ⟨by simp, ?_⟩
    exact (forall_goto fun j q => j ≠ b → ∀ w, q = .lockEnqueue w → w ≠ .unlockedState ∧
      s.next j = w.toAwaiter).mpr ⟨by simp, fun j _ _ => h.linked j⟩
  · refine (forall_goto fun _ q => q ≠ .assertFailed).mpr ⟨by simp, ?_⟩
    exact (forall_goto fun j q => j ≠ b → q ≠ .assertFailed).mpr
      ⟨by simp, fun j _ _ => h.noAssert j⟩
  · refine (forall_goto fun j q => some b = some j → Front _ rest q).mpr ⟨fun _ => hrest, ?_⟩
    exact fun j hj hjo => absurd (Option.some.inj hjo).symm hj

theorem represents_tryLock {s : State C} {a : FifoLock.State C} (h : Represents s a) {k : C}
    {fail : Pc C} (hk : s.pc k = .idle) (hfail : fail = .idle ∨ fail = .lockAsyncImpl) :
    ∃ a', run FifoLock.step a (if s.state = .unlockedState then some (.acquire k) else none).toList =
        some a' ∧ Represents (tryLock s k fail) a' := by
  by_cases hs : s.state = .unlockedState
  · have ho := h.free.mp hs
    refine ⟨⟨some k, []⟩, ?_, by simpa [tryLock, hs] using represents_acquire h (k := k) hs⟩
    simp [hs, run, FifoLock.step, when, ho, (h.empty ho).2]
  · refine ⟨a, by simp [hs, run], ?_⟩
    have hg : Represents (s.goto k fail) a := by
      obtain rfl | rfl := hfail <;> refine represents_goto h ?_ ?_ ?_ ?_ ?_ <;> simp [hk, Pc.Holds]
    simpa [tryLock, hs] using hg

theorem represents_unlock {s : State C} {a : FifoLock.State C} (h : Represents s a) {k : C}
    (hk : s.pc k = .holding) : Represents (unlock s k) a := by
  obtain ⟨ho, hs⟩ := stack_of_holds h (k := k) (by simp [hk, Pc.Holds])
  cases hw : s.waiters with
  | none =>
    simp only [unlock, hs, hw, if_false, if_true]
    refine represents_goto h ?_ ?_ ?_ ?_ fun front _ hf => ?_ <;> try simp [hk, Pc.Holds]
    rw [hk] at hf
    refine ⟨hw, ?_⟩
    have hl : Linked s.next s.waiters front := hf
    rwa [hw, linked_none] at hl
  | some b =>
    simp only [unlock, hs, hw, if_false, reduceCtorEq]
    refine represents_goto h ?_ ?_ ?_ ?_ fun front _ hf => ?_ <;> try simp [hk, Pc.Holds]
    rw [hk] at hf
    have hl : Linked s.next s.waiters front := hf
    rw [hw] at hl
    refine ⟨hl, ?_⟩
    rintro rfl
    cases hl

/-- One atomic step of any coroutine is the step of the lock that it emits, or none. -/
theorem represents_step (s : State C) (a : FifoLock.State C) (e : Act C) (t : State C)
    (h : Represents s a) (hs : step s e = some t) :
    ∃ a', run FifoLock.step a (emit s e).toList = some a' ∧ Represents t a' := by
  cases e with
  | tryLock k =>
    obtain ⟨hk, rfl⟩ := (when_eq_some _ _ _).mp hs
    exact represents_tryLock h hk (.inl rfl)
  | coLock k =>
    obtain ⟨hk, rfl⟩ := (when_eq_some _ _ _).mp hs
    exact represents_tryLock h hk (.inr rfl)
  | unlock k =>
    obtain ⟨hk, rfl⟩ := (when_eq_some _ _ _).mp hs
    exact ⟨a, rfl, represents_unlock h hk⟩
  | advance k spurious =>
    simp only [step, advance] at hs
    cases hk : s.pc k with
    | idle | parked | holding | assertFailed => simp [hk] at hs
    | lockAsyncImpl =>
      simp only [hk, Option.some.injEq] at hs
      subst hs
      refine ⟨a, by simp [emit, hk, run], represents_goto h ?_ ?_ ?_ ?_ ?_⟩ <;> simp [hk, Pc.Holds]
    | lockLoop w =>
      have hretry : Represents (s.goto k (.lockLoop s.state)) a := by
        refine represents_goto h ?_ ?_ ?_ ?_ ?_ <;> simp [hk, Pc.Holds]
      simp only [hk] at hs
      split_ifs at hs with hw hc <;> cases hs
      · rw [hw] at hc
        have ho := h.free.mp hc.1
        refine ⟨⟨some k, []⟩, ?_, represents_acquire h hc.1⟩
        simp [emit, hk, hw, hc, run, FifoLock.step, when, ho, (h.empty ho).2]
      · rw [hw] at hc
        exact ⟨a, by simp [emit, hk, hw, hc, run], hretry⟩
      · refine ⟨a, ?_, represents_link h hk hw⟩
        cases w with
        | unlockedState => exact absurd rfl hw
        | nullptr | awaiter b => simp [emit, hk, run]
    | lockEnqueue w =>
      simp only [hk] at hs
      split_ifs at hs with hc <;> cases hs
      · obtain ⟨hw, hsp⟩ := hc
        obtain ⟨ho, hok, hkq, hr⟩ := represents_enqueue h (by rw [hk, hw])
        refine ⟨_, ?_, hr⟩
        simp [emit, hk, hw, hsp, run, FifoLock.step, when, ho, hok, hkq]
      · refine ⟨a, by simp [emit, hk, hc, run], represents_goto h ?_ ?_ ?_ ?_ ?_⟩ <;>
          simp [hk, Pc.Holds]
    | unlockLoad =>
      simp only [hk] at hs
      split_ifs at hs with hn <;> cases hs <;>
        refine ⟨a, by simp [emit, hk, run], represents_goto h ?_ ?_ ?_ ?_ ?_⟩ <;>
        simp +contextual [hk, Pc.Holds, Front, hn]
    | unlockCas =>
      simp only [hk] at hs
      split_ifs at hs with hn <;> cases hs
      · obtain ⟨ho, hq, hr⟩ := represents_release h hk hn
        refine ⟨_, ?_, hr⟩
        simp [emit, hk, hn, run, FifoLock.step, when, ho, hq]
      · refine ⟨a, by simp [emit, hk, hn, run], represents_goto h ?_ ?_ ?_ ?_ ?_⟩ <;>
          simp +contextual [hk, Pc.Holds, Front, hn]
    | unlockExchange =>
      obtain ⟨b, hb, hr⟩ := represents_exchange h hk
      simp only [hk, hb, Option.some.injEq] at hs
      subst hs
      exact ⟨a, by simp [emit, hk, run], hr⟩
    | unlockReverse w head =>
      simp only [hk, Option.some.injEq] at hs
      subst hs
      exact ⟨a, by simp [emit, hk, run], represents_reverse h hk⟩
    | unlockPop head =>
      obtain ⟨b, rfl, hr⟩ := represents_pop h hk
      simp only [hk, Option.some.injEq] at hs
      subst hs
      exact ⟨a, by simp [emit, hk, run], hr⟩
    | unlockResume b =>
      obtain ⟨ho, hq, -, hr⟩ := represents_resume h hk
      simp only [hk, Option.some.injEq] at hs
      subst hs
      refine ⟨_, ?_, hr⟩
      simp [emit, hk, run, FifoLock.step, when, ho, hq]

theorem represents_run {as : List (Act C)} {t : State C} (h : run step init as = some t) :
    ∃ a, run FifoLock.step FifoLock.init (trace step emit init as) = some a ∧ Represents t a :=
  run_simulation Represents represents_step h represents_init

def UsesWaiters (s : State C) : Act C → Prop
  | .unlock _ => True
  | .advance k _ => ∃ head, s.pc k = .unlockPop head
  | _ => False

theorem waiters_frame {s t : State C} {e : Act C} (h : step s e = some t) (hu : ¬ UsesWaiters s e) :
    t.waiters = s.waiters := by
  cases e with
  | tryLock k | coLock k =>
    obtain ⟨-, rfl⟩ := (when_eq_some _ _ _).mp h
    unfold tryLock
    split_ifs <;> rfl
  | unlock k => exact absurd trivial hu
  | advance k spurious =>
    simp only [step, advance] at h
    cases hk : s.pc k with
    | unlockPop head => exact absurd ⟨head, hk⟩ hu
    | unlockExchange =>
      cases hs : s.state <;> simp only [hk, hs] at h <;> cases h <;> rfl
    | idle | parked | holding | assertFailed => simp [hk] at h
    | lockLoop w | lockEnqueue w | unlockLoad | unlockCas =>
      simp only [hk] at h
      split_ifs at h <;> cases h <;> rfl
    | lockAsyncImpl | unlockReverse w head | unlockResume b =>
      simp only [hk] at h
      cases h
      rfl

/-- Mutual exclusion and the meaning of the mutex's two words in every reachable state. -/
theorem mutex_exclusion (as : List (Act C)) (t : State C) (h : run step init as = some t) :
    (∀ j k, (t.pc j).Holds → (t.pc k).Holds → j = k) ∧
    (t.state = .unlockedState ↔ ∀ k, ¬ (t.pc k).Holds) ∧
    (t.state = .unlockedState → t.waiters = none ∧ ∀ k, t.pc k ≠ .parked) ∧
    (∀ e u, step t e = some u → UsesWaiters t e ∨ u.waiters ≠ t.waiters →
      (t.pc e.actor).Holds) ∧
    (∀ k, t.pc k = .unlockExchange → ∃ b, t.state = .awaiter b) ∧
    (∀ k, t.pc k ≠ .assertFailed) := by
  obtain ⟨a, -, hr⟩ := represents_run h
  refine ⟨fun j k => owner_unique hr, ?_, fun hs => ?_, fun e u he hu => ?_, fun k hk => ?_,
    hr.noAssert⟩
  · constructor
    · intro hs k
      rw [hr.holds k, hr.free.mp hs]
      simp
    · intro hn
      cases ho : a.owner with
      | none => exact hr.free.mpr ho
      | some k => exact absurd ((hr.holds k).mpr ho) (hn k)
  · obtain ⟨hw, hq⟩ := hr.empty (hr.free.mp hs)
    refine ⟨hw, fun k => ?_⟩
    rw [Ne, hr.parked k, hq]
    exact List.not_mem_nil
  · have huse : UsesWaiters t e := hu.elim id fun hne => by
      by_contra hn
      exact hne (waiters_frame he hn)
    cases e with
    | tryLock k | coLock k => exact absurd huse id
    | unlock k =>
      obtain ⟨hk, -⟩ := (when_eq_some _ _ _).mp he
      simp [Act.actor, hk, Pc.Holds]
    | advance k spurious =>
      obtain ⟨head, hk⟩ := huse
      simp [Act.actor, hk, Pc.Holds]
  · obtain ⟨b, hb, -⟩ := represents_exchange hr hk
    exact ⟨b, hb⟩

def contended : List (Act (Fin 3)) :=
  [.coLock 0, .coLock 1, .coLock 2, .advance 1 false, .advance 1 false, .advance 1 true,
    .advance 1 false, .advance 1 false, .advance 2 false, .advance 2 false, .advance 2 false,
    .unlock 0, .advance 0 false, .advance 0 false, .advance 0 false, .advance 0 false,
    .advance 0 false, .advance 0 false]

theorem mutex_exclusion_contended : ∃ t, run step init contended = some t ∧
    t.pc 1 = .holding ∧ (∀ j k, (t.pc j).Holds → (t.pc k).Holds → j = k) :=
  ⟨_, rfl, rfl, (mutex_exclusion contended _ rfl).1⟩

/-- The mutex performs exactly the steps of a first-in first-out lock, whose queue is
spread over `_waiters`, the list being reversed and the list hanging off `_state`. -/
theorem mutex_refines_fifoLock (as : List (Act C)) (t : State C) (h : run step init as = some t) :
    ∃ a, run FifoLock.step FifoLock.init (trace step emit init as) = some a ∧ Represents t a ∧
      (trace step emit init as).filterMap FifoLock.enqueued =
        (trace step emit init as).filterMap FifoLock.handed ++ a.queue ∧
      a.queue.Nodup ∧ (∀ k, t.pc k = .parked ↔ k ∈ a.queue) ∧
      (∀ k b, t.pc k = .unlockResume b → t.pc b = .parked ∧ a.queue.head? = some b) ∧
      (a.queue ≠ [] → (∃ k, (t.pc k).Holds) ∧
        ∀ k u, step t (.tryLock k) = some u → u.pc k = .idle) := by
  obtain ⟨a, ha, hr⟩ := represents_run h
  have hf := FifoLock.fifo_run ha
  refine ⟨a, ha, hr, hf.order, hf.nodup, hr.parked, fun k b hk => ?_, fun hq => ?_⟩
  · obtain ⟨-, hhead, hb, -⟩ := represents_resume hr hk
    exact ⟨hb, hhead⟩
  · cases ho : a.owner with
    | none => exact absurd (hf.free ho) hq
    | some k =>
      have hk := (hr.holds k).mpr ho
      refine ⟨⟨k, hk⟩, fun j u hj => ?_⟩
      obtain ⟨-, rfl⟩ := (when_eq_some _ _ _).mp hj
      simp [tryLock, (stack_of_holds hr hk).2]

theorem mutex_refines_fifoLock_contended : ∃ t a, run step init contended = some t ∧
    run FifoLock.step FifoLock.init (trace step emit init contended) = some a ∧
    Represents t a ∧ a.queue = [2] := by
  obtain ⟨a, ha, hr, -⟩ := mutex_refines_fifoLock contended _ rfl
  refine ⟨_, a, rfl, ha, hr, ?_⟩
  have hq : a = ⟨some 1, [2]⟩ := Option.some.inj (ha.symm.trans rfl)
  rw [hq]

end LibCoro.Mutex
