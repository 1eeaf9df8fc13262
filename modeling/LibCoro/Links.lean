import Mathlib.Data.List.Nodup
import Mathlib.Logic.Function.Basic

namespace LibCoro.Links

variable {A : Type}

def last : A → List A → A
  | a, [] => a
  | _, x :: l => last x l

def first : List A → A → A
  | [], b => b
  | x :: _, _ => x

@[simp] theorem last_nil (a : A) : last a [] = a := rfl

@[simp] theorem last_cons (a x : A) (l : List A) : last a (x :: l) = last x l := rfl

@[simp] theorem first_nil (b : A) : first [] b = b := rfl

@[simp] theorem first_cons (x b : A) (l : List A) : first (x :: l) b = x := rfl

@[simp] theorem last_append (a : A) (l₁ l₂ : List A) :
    last a (l₁ ++ l₂) = last (last a l₁) l₂ := by
  induction l₁ generalizing a with
  | nil => rfl
  | cons x l₁ ih => exact ih x

@[simp] theorem first_append (b : A) (l₁ l₂ : List A) :
    first (l₁ ++ l₂) b = first l₁ (first l₂ b) := by
  cases l₁ <;> rfl

@[simp] theorem last_reverse (a : A) (l : List A) : last a l.reverse = first l a := by
  cases l <;> simp

@[simp] theorem first_reverse (b : A) (l : List A) : first l.reverse b = last b l := by
  induction l generalizing b with
  | nil => rfl
  | cons x l ih => simp [ih]

theorem last_mem (a : A) (l : List A) : last a l ∈ a :: l := by
  induction l generalizing a with
  | nil => exact List.mem_cons_self
  | cons x l ih => exact List.mem_cons_of_mem a (ih x)

theorem first_mem (b : A) (l : List A) : first l b ∈ b :: l := by
  cases l with
  | nil => exact List.mem_cons_self
  | cons x l => exact List.mem_cons_of_mem b List.mem_cons_self

theorem last_mem_of_subset (a : A) {l l' : List A} (h : ∀ x ∈ l, x ∈ l') : last a l ∈ a :: l' :=
  List.mem_cons.mpr ((List.mem_cons.mp (last_mem a l)).imp_right (h _))

theorem first_mem_of_subset (b : A) {l l' : List A} (h : ∀ x ∈ l, x ∈ l') : first l b ∈ b :: l' :=
  List.mem_cons.mpr ((List.mem_cons.mp (first_mem b l)).imp_right (h _))

theorem last_mem_self (a : A) {l : List A} (hl : l ≠ []) : last a l ∈ l := by
  cases l with
  | nil => exact absurd rfl hl
  | cons x l => exact last_mem x l

theorem first_mem_self (b : A) {l : List A} (hl : l ≠ []) : first l b ∈ l := by
  cases l with
  | nil => exact absurd rfl hl
  | cons x l => exact List.mem_cons_self

theorem last_of_ne_nil (a b : A) {l : List A} (hl : l ≠ []) : last a l = last b l := by
  cases l with
  | nil => exact absurd rfl hl
  | cons x l => rfl

theorem first_of_ne_nil (a b : A) {l : List A} (hl : l ≠ []) : first l a = first l b := by
  cases l with
  | nil => exact absurd rfl hl
  | cons x l => rfl

/-- Following `f` from `a` passes through the nodes of `l` and comes to `b`. -/
def Path (f : A → A) : A → List A → A → Prop
  | a, [], b => f a = b
  | a, x :: l, b => f a = x ∧ Path f x l b

variable {f g : A → A} {a b c : A} {l l₁ l₂ m m' : List A}

@[simp] theorem path_nil : Path f a [] b ↔ f a = b := Iff.rfl

@[simp] theorem path_cons (x : A) : Path f a (x :: l) b ↔ f a = x ∧ Path f x l b := Iff.rfl

theorem Path.first (h : Path f a l b) : f a = first l b := by
  cases l with
  | nil => exact h
  | cons x l => exact h.1

theorem Path.last (h : Path f a l b) : f (last a l) = b := by
  induction l generalizing a with
  | nil => exact h
  | cons x l ih => exact ih h.2

theorem path_append :
    Path f a (l₁ ++ l₂) b ↔ Path f a l₁ (Links.first l₂ b) ∧ Path f (Links.last a l₁) l₂ b := by
  induction l₁ generalizing a with
  | nil =>
    simp only [List.nil_append, path_nil, last_nil]
    exact ⟨fun h => ⟨h.first, h⟩, fun h => h.2⟩
  | cons x l₁ ih => simp only [List.cons_append, path_cons, last_cons, ih, and_assoc]

theorem Path.behind {x : A} (h : Path f a (l₁ ++ x :: l₂) b) : f x = Links.first l₂ b :=
  (path_append.mp h).2.2.first

theorem Path.behind_back {x : A} (h : Path f a (l₁ ++ x :: l₂).reverse b) :
    f x = Links.last b l₁ := by
  have hl : (l₁ ++ x :: l₂).reverse = l₂.reverse ++ x :: l₁.reverse := by simp
  rw [hl] at h
  rw [h.behind, first_reverse]

/-- A path ends at the first visit of its target, so there is only one. -/
theorem path_unique (h : Path f a l b) (h' : Path f a m b) (hb : b ∉ l) (hb' : b ∉ m) : l = m := by
  induction l generalizing a m with
  | nil =>
    cases m with
    | nil => rfl
    | cons y m =>
      have hy : b = y := h.symm.trans h'.1
      exact absurd (hy ▸ List.mem_cons_self) hb'
  | cons x l ih =>
    cases m with
    | nil =>
      have hx : b = x := h'.symm.trans h.1
      exact absurd (hx ▸ List.mem_cons_self) hb
    | cons y m =>
      obtain rfl : x = y := h.1.symm.trans h'.1
      rw [ih h.2 h'.2 (fun hm => hb (List.mem_cons_of_mem x hm))
        fun hm => hb' (List.mem_cons_of_mem x hm)]

theorem Path.congr (h : Path f a l b) (hg : ∀ x ∈ a :: l, g x = f x) : Path g a l b := by
  induction l generalizing a with
  | nil => exact (hg a List.mem_cons_self).trans h
  | cons x l ih =>
    exact ⟨(hg a List.mem_cons_self).trans h.1, ih h.2 fun y hy => hg y (List.mem_cons_of_mem a hy)⟩

theorem Path.from (h : Path f a l b) (hc : g c = Links.first l b) (hg : ∀ x ∈ l, g x = f x) :
    Path g c l b := by
  cases l with
  | nil => exact hc
  | cons x l => exact ⟨hc, h.2.congr hg⟩

theorem Path.redirect (h : Path f a l b) (hnd : (a :: l).Nodup)
    (hg : ∀ x ∈ a :: l, x ≠ Links.last a l → g x = f x) (hc : g (Links.last a l) = c) :
    Path g a l c := by
  induction l generalizing a with
  | nil => exact hc
  | cons x l ih =>
    obtain ⟨ha, hnd'⟩ := List.nodup_cons.mp hnd
    have hne : a ≠ Links.last x l := fun e => ha (e ▸ last_mem x l)
    exact ⟨(hg a List.mem_cons_self hne).trans h.1,
      ih h.2 hnd' (fun y hy => hg y (List.mem_cons_of_mem a hy)) hc⟩

/-- A part of a path gives way to another one: the link before it is the only old one to change. -/
theorem Path.splice (h : Path f a (l₁ ++ (m ++ l₂)) b) (hnd : (a :: l₁).Nodup)
    (hg : ∀ x ∈ a :: (l₁ ++ l₂), x ≠ Links.last a l₁ → g x = f x) (hl : Links.last a l₁ ∉ l₂)
    (hm : Path g (Links.last a l₁) m' (Links.first l₂ b)) : Path g a (l₁ ++ (m' ++ l₂)) b := by
  obtain ⟨h₁, h₂⟩ := path_append.mp h
  obtain ⟨-, h₂⟩ := path_append.mp h₂
  refine path_append.mpr ⟨?_, path_append.mpr ⟨hm, ?_⟩⟩
  · refine h₁.redirect hnd (fun x hx hne => hg x ?_ hne) ?_
    · rcases List.mem_cons.mp hx with rfl | hx
      · exact List.mem_cons_self
      · exact List.mem_cons_of_mem a (List.mem_append_left l₂ hx)
    · rw [first_append]
      exact hm.first
  · refine h₂.from hm.last fun x hx => hg x ?_ fun e => hl (e ▸ hx)
    exact List.mem_cons_of_mem a (List.mem_append_right l₁ hx)

theorem Path.graft (h : Path f a l b) (hl : l ≠ []) (hnd : l.Nodup)
    (hg : ∀ x ∈ l, x ≠ Links.last a l → g x = f x) {d : A} (hc : g c = Links.first l d)
    (hd : g (Links.last a l) = d) : Path g c l d := by
  cases l with
  | nil => exact absurd rfl hl
  | cons x l => exact ⟨hc, h.2.redirect hnd hg hd⟩

theorem nodup_exchange (hnd : (a :: (l₁ ++ l₂)).Nodup) (hm : m'.Nodup)
    (hfresh : ∀ x ∈ m', x ∉ a :: (l₁ ++ l₂)) : (a :: (l₁ ++ (m' ++ l₂))).Nodup := by
  have hperm : (l₁ ++ (m' ++ l₂)).Perm (m' ++ (l₁ ++ l₂)) := by
    rw [← List.append_assoc, ← List.append_assoc]
    exact List.perm_append_comm.append_right l₂
  rw [List.nodup_cons] at hnd ⊢
  rw [hperm.mem_iff, hperm.nodup_iff, List.nodup_append, List.mem_append]
  refine ⟨?_, hm, hnd.2, fun x hx y hy => ?_⟩
  · rintro (hx | hx)
    · exact hfresh a hx List.mem_cons_self
    · exact hnd.1 hx
  · rintro rfl
    exact hfresh x hx (List.mem_cons_of_mem a hy)

theorem Path.exchange (h : Path f a (l₁ ++ (m ++ l₂)) a) (hnd : (a :: (l₁ ++ l₂)).Nodup)
    (hg : ∀ x ∈ a :: (l₁ ++ l₂), x ≠ Links.last a l₁ → g x = f x)
    (hm : Path g (Links.last a l₁) m' (Links.first l₂ a)) : Path g a (l₁ ++ (m' ++ l₂)) a := by
  obtain ⟨ha, hnd'⟩ := List.nodup_cons.mp hnd
  refine h.splice (hnd.sublist (.cons_cons a (List.sublist_append_left l₁ l₂))) hg ?_ hm
  intro hl
  rcases List.mem_cons.mp (last_mem a l₁) with e | hl'
  · exact ha (List.mem_append_right l₁ (e ▸ hl))
  · exact (List.nodup_append.mp hnd').2.2 _ hl' _ hl rfl

theorem Path.exchange_back (l₁ m m' l₂ : List A) (h : Path f a (l₁ ++ (m ++ l₂)).reverse a)
    (hnd : (a :: (l₁ ++ l₂)).Nodup)
    (hg : ∀ x ∈ a :: (l₁ ++ l₂), x ≠ Links.first l₂ a → g x = f x)
    (hm : Path g (Links.first l₂ a) m'.reverse (Links.last a l₁)) :
    Path g a (l₁ ++ (m' ++ l₂)).reverse a := by
  have hperm : (a :: (l₂.reverse ++ l₁.reverse)).Perm (a :: (l₁ ++ l₂)) := by
    rw [← List.reverse_append]
    exact (List.reverse_perm _).cons a
  simp only [List.reverse_append, List.append_assoc] at h ⊢
  refine h.exchange (hperm.nodup_iff.mpr hnd) (fun x hx hne => ?_) ?_
  · rw [last_reverse] at hne
    exact hg x (hperm.mem_iff.mp hx) hne
  · rw [last_reverse, first_reverse]
    exact hm

/-- A circular list with links in both directions: `h` is its head and `l` the other nodes. -/
structure Ring (next prev : A → A) (h : A) (l : List A) : Prop where
  forward : Path next h l h
  backward : Path prev h l.reverse h

variable {next prev next' prev' : A → A} {h : A}

theorem ring_nil : Ring next prev h [] ↔ next h = h ∧ prev h = h :=
  ⟨fun hr => ⟨hr.forward, hr.backward⟩, fun hr => ⟨hr.1, hr.2⟩⟩

theorem Ring.congr (hr : Ring next prev h l) (hn : ∀ x ∈ h :: l, next' x = next x)
    (hp : ∀ x ∈ h :: l, prev' x = prev x) : Ring next' prev' h l :=
  ⟨hr.forward.congr hn, hr.backward.congr fun x hx => hp x (by simpa using hx)⟩

theorem Ring.around (l₁ m l₂ : List A) (hr : Ring next prev h (l₁ ++ (m ++ l₂))) :
    next (last h l₁) = first m (first l₂ h) ∧ prev (first l₂ h) = last (last h l₁) m := by
  constructor
  · rw [(path_append.mp hr.forward).2.first, first_append]
  · have hb := hr.backward
    rw [List.reverse_append, List.reverse_append, List.append_assoc] at hb
    rw [← last_reverse h l₂, (path_append.mp hb).2.first, first_append, first_reverse, first_reverse]

/-- The part `m` of a ring gives way to `m'`, whose own links are set: the link to it and the
link back to it are the only old ones to change. -/
theorem Ring.splice (hr : Ring next prev h (l₁ ++ (m ++ l₂))) (hnd : (h :: (l₁ ++ l₂)).Nodup)
    (hn : ∀ x ∈ h :: (l₁ ++ l₂), x ≠ last h l₁ → next' x = next x)
    (hp : ∀ x ∈ h :: (l₁ ++ l₂), x ≠ first l₂ h → prev' x = prev x)
    (hm : Path next' (last h l₁) m' (first l₂ h))
    (hm' : Path prev' (first l₂ h) m'.reverse (last h l₁)) : Ring next' prev' h (l₁ ++ (m' ++ l₂)) :=
  ⟨hr.forward.exchange hnd hn hm, hr.backward.exchange_back l₁ m m' l₂ hnd hp hm'⟩

end LibCoro.Links
