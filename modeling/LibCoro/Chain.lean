import Mathlib.Data.List.Basic
import Mathlib.Data.List.Nodup
import Mathlib.Logic.Function.Basic

namespace LibCoro.Chain

variable {A : Type}

/-- Following `next` from the pointer `p` visits the nodes of `l` in order and ends in null. -/
def Linked (next : A → Option A) : Option A → List A → Prop
  | p, [] => p = none
  | p, a :: l => p = some a ∧ Linked next (next a) l

variable {next : A → Option A}

@[simp] theorem linked_nil (p : Option A) : Linked next p [] ↔ p = none := Iff.rfl

@[simp] theorem linked_cons (p : Option A) (a : A) (l : List A) :
    Linked next p (a :: l) ↔ p = some a ∧ Linked next (next a) l := Iff.rfl

@[simp] theorem linked_none (l : List A) : Linked next none l ↔ l = [] := by
  cases l <;> simp

theorem linked_some (a : A) (l : List A) :
    Linked next (some a) l ↔ ∃ l', l = a :: l' ∧ Linked next (next a) l' := by
  cases l with
  | nil => simp
  | cons b l =>
    simp only [linked_cons, Option.some.injEq, List.cons.injEq]
    constructor
    · rintro ⟨rfl, h⟩
      exact ⟨l, ⟨rfl, rfl⟩, h⟩
    · rintro ⟨l', ⟨rfl, rfl⟩, h⟩
      exact ⟨rfl, h⟩

theorem linked_unique {p : Option A} {l l' : List A} (h : Linked next p l) (h' : Linked next p l') :
    l = l' := by
  induction l generalizing p l' with
  | nil =>
    rw [(linked_nil p).mp h, linked_none] at h'
    exact h'.symm
  | cons a l ih =>
    rw [h.1, linked_some] at h'
    obtain ⟨l'', rfl, hl⟩ := h'
    rw [ih h.2 hl]

theorem linked_suffix {p : Option A} {l₁ l₂ : List A} {a : A} (h : Linked next p (l₁ ++ a :: l₂)) :
    Linked next (next a) l₂ := by
  induction l₁ generalizing p with
  | nil => exact h.2
  | cons b l₁ ih => exact ih h.2

theorem linked_nodup {p : Option A} {l : List A} (h : Linked next p l) : l.Nodup := by
  induction l generalizing p with
  | nil => exact List.nodup_nil
  | cons a l ih =>
    refine List.nodup_cons.mpr ⟨fun ha => ?_, ih h.2⟩
    obtain ⟨l₁, l₂, rfl⟩ := List.append_of_mem ha
    have hl := linked_unique h.2 (linked_suffix h.2)
    have hlen := congrArg List.length hl
    simp only [List.length_append, List.length_cons] at hlen
    omega

variable [DecidableEq A]

theorem linked_update {p : Option A} {l : List A} {a : A} (q : Option A) (ha : a ∉ l) :
    Linked (Function.update next a q) p l ↔ Linked next p l := by
  induction l generalizing p with
  | nil => rfl
  | cons b l ih =>
    have hb : b ≠ a := fun hb => ha (hb ▸ List.mem_cons_self)
    have hl : a ∉ l := fun hl => ha (List.mem_cons_of_mem b hl)
    rw [linked_cons, linked_cons, Function.update_of_ne hb, ih hl]

theorem linked_push {p : Option A} {l : List A} {a : A} (h : Linked next p l) (ha : a ∉ l) :
    Linked (Function.update next a p) (some a) (a :: l) := by
  refine ⟨rfl, ?_⟩
  rw [Function.update_self, linked_update p ha]
  exact h

theorem linked_snoc {p : Option A} {l : List A} {t a : A} (h : Linked next p (l ++ [t]))
    (hn : next a = none) (ha : a ∉ l ++ [t]) :
    Linked (Function.update next t (some a)) p (l ++ [t] ++ [a]) := by
  induction l generalizing p with
  | nil =>
    have hat : a ≠ t := by simpa using ha
    exact ⟨h.1, by simp, by simpa [hat] using hn⟩
  | cons b l ih =>
    have hbt : b ≠ t := by
      rintro rfl
      exact (List.nodup_cons.mp (linked_nodup h)).1 (by simp)
    refine ⟨h.1, ?_⟩
    rw [Function.update_of_ne hbt]
    exact ih h.2 fun hm => ha (List.mem_cons_of_mem b hm)

/-- One turn of an in-place reversal: the first node of `l` moves in front of `r`. -/
theorem linked_reverse_step {q : Option A} {a : A} {l r : List A}
    (hl : Linked next (some a) (a :: l)) (hr : Linked next q r) (ha : a ∉ r) :
    Linked (Function.update next a q) (next a) l ∧
      Linked (Function.update next a q) (some a) (a :: r) := by
  have hn : a ∉ l := (List.nodup_cons.mp (linked_nodup hl)).1
  exact ⟨(linked_update q hn).mpr hl.2, linked_push hr ha⟩

structure TailQueue (next : A → Option A) (head tail : Option A) (l : List A) : Prop where
  linked : Linked next head l
  last : tail = l.getLast?

omit [DecidableEq A] in
theorem tailQueue_nil (next : A → Option A) : TailQueue next none none [] := ⟨rfl, rfl⟩

omit [DecidableEq A] in
theorem TailQueue.tail_none {head tail : Option A} {l : List A} (h : TailQueue next head tail l) :
    tail = none ↔ l = [] := by
  rw [h.last, List.getLast?_eq_none_iff]

omit [DecidableEq A] in
theorem TailQueue.head_none {head tail : Option A} {l : List A} (h : TailQueue next head tail l) :
    head = none ↔ l = [] := by
  constructor
  · rintro rfl
    exact (linked_none l).mp h.linked
  · rintro rfl
    exact h.linked

omit [DecidableEq A] in
theorem TailQueue.link_last {head : Option A} {a : A} {l : List A} (h : TailQueue next head (some a) l) :
    next a = none := by
  obtain ⟨l', rfl⟩ := List.getLast?_eq_some_iff.mp h.last.symm
  exact linked_suffix h.linked

def enqueueLink (next : A → Option A) (tail : Option A) (a : A) : A → Option A :=
  match tail with
  | none => next
  | some t => Function.update next t (some a)

theorem linked_enqueue {head tail : Option A} {l : List A} {a : A} (hl : Linked next head l)
    (ht : tail = l.getLast?) (hne : l ≠ []) (hn : next a = none) (ha : a ∉ l) :
    Linked (enqueueLink next tail a) head (l ++ [a]) := by
  obtain ⟨l', t, rfl⟩ := (List.eq_nil_or_concat' l).resolve_left hne
  have htail : tail = some t := ht.trans (by simp)
  rw [htail]
  exact linked_snoc hl hn ha

theorem TailQueue.linked_other {head tail p : Option A} {l l' : List A}
    (h : TailQueue next head tail l) (a : A) (hp : Linked next p l') (hd : ∀ b ∈ l, b ∉ l') :
    Linked (enqueueLink next tail a) p l' := by
  cases ht : tail with
  | none => exact hp
  | some t =>
    have hmem : t ∈ l := List.mem_of_getLast? (h.last.symm.trans ht)
    exact (linked_update (some a) (hd t hmem)).mpr hp

theorem TailQueue.enqueue {head tail : Option A} {l : List A} {a : A}
    (h : TailQueue next head tail l) (hn : next a = none) (ha : a ∉ l) :
    TailQueue (enqueueLink next tail a) (if tail = none then some a else head) (some a)
      (l ++ [a]) := by
  by_cases hl : l = []
  · subst hl
    have ht : tail = none := h.last
    refine ⟨?_, rfl⟩
    simp [ht, enqueueLink, hn]
  · have ht : tail ≠ none := fun ht => hl (h.tail_none.mp ht)
    refine ⟨?_, by simp⟩
    rw [if_neg ht]
    exact linked_enqueue h.linked h.last hl hn ha

omit [DecidableEq A] in
theorem tailQueue_rest {p tail : Option A} {l : List A} {a : A} (h : Linked next p l)
    (ht : tail = (a :: l).getLast?) : TailQueue next p (if p = none then none else tail) l := by
  refine ⟨h, ?_⟩
  cases l with
  | nil =>
    have hp : p = none := h
    simp [hp]
  | cons b l =>
    have hp : p = some b := h.1
    simpa [hp] using ht

omit [DecidableEq A] in
theorem TailQueue.dequeue {head tail : Option A} {l : List A} {a : A}
    (h : TailQueue next head tail (a :: l)) :
    head = some a ∧ TailQueue next (next a) (if next a = none then none else tail) l :=
  ⟨h.linked.1, tailQueue_rest h.linked.2 h.last⟩

end LibCoro.Chain
