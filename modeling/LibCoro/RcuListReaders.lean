import LibCoro.CdsListRefinement
import LibCoro.RcuList

namespace LibCoro.RcuList

open Machine Links CdsList Grace

variable {A : Type} [DecidableEq A]

/-- `v` has, each once and in their order, the nodes that the list did not lose since the loop
began, and besides only nodes that were in the list at some time since then. -/
structure Covers (contents : List A) (t : Traversal A) (v : List A) : Prop where
  nodup : v.Nodup
  within : ∀ x ∈ v, x ∈ contents ∨ x ∈ t.lost
  steady : v.filter (fun x => x ∈ t.snapshot ∧ x ∉ t.lost) = t.snapshot.filter (fun x => x ∉ t.lost)

structure Sound (next : A → A) (head : A) (contents : List A) (t : Traversal A) : Prop where
  kept : ∀ x ∈ t.snapshot, x ∈ contents ∨ x ∈ t.lost
  known : ∀ x, x ∈ contents ∨ x ∈ t.lost → x ∈ t.snapshot ∨ x ∈ t.came
  outside : head ∉ t.lost
  finished : t.finished = true → t.pos = head ∧ Covers contents t t.visited
  running : t.finished = false → t.pos = last head t.visited ∧
    ∃ rest, Path next t.pos rest head ∧ Covers contents t (t.visited ++ rest)

/-- A call exchanges the nodes `m` behind `l₁` for `m'`. -/
structure Edit (op : Op A) (contents l₁ m m' l₂ : List A) : Prop where
  before : contents = l₁ ++ (m ++ l₂)
  after : op.apply contents = l₁ ++ (m' ++ l₂)
  removed : op.removed.toList = m
  added : op.added.toList = m'

theorem edit_add (n : A) (l : List A) : Edit (.add n) l [] [] [n] l := ⟨rfl, rfl, rfl, rfl⟩

theorem edit_addTail (n : A) (l : List A) : Edit (.addTail n) l l [] [n] [] :=
  ⟨by simp, rfl, rfl, rfl⟩

theorem edit_del {e : A} {l₁ l₂ : List A} (he : e ∉ l₁) :
    Edit (.del e) (l₁ ++ e :: l₂) l₁ [e] [] l₂ := by
  refine ⟨rfl, ?_, rfl, rfl⟩
  show (l₁ ++ e :: l₂).erase e = l₁ ++ l₂
  rw [List.erase_append_right _ he, List.erase_cons_head]

theorem edit_replace {old new : A} {l₁ l₂ : List A} (h₁ : old ∉ l₁) (h₂ : old ∉ l₂) :
    Edit (.replace old new) (l₁ ++ old :: l₂) l₁ [old] [new] l₂ :=
  ⟨rfl, map_replace h₁ h₂, rfl, rfl⟩

section publish

variable {next next' : A → A} {head : A} {op : Op A} {contents l₁ m m' l₂ v v' : List A}
  {t : Traversal A}

/-- What was ahead with `m` exchanged for `m'`, or as it was, covers the list after the call. -/
theorem Covers.publish (hv : Covers contents t v) (he : Edit op contents l₁ m m' l₂)
    (hkept : ∀ x ∈ t.snapshot, x ∈ contents ∨ x ∈ t.lost)
    (hfresh : ∀ x ∈ m', x ∉ contents ∧ x ∉ t.lost) (hnd : v'.Nodup)
    (hw : ∀ x ∈ v', x ∈ v ∨ x ∈ m')
    (hf : v'.filter (fun x => x ∉ m ∧ x ∉ m') = v.filter (fun x => x ∉ m ∧ x ∉ m')) :
    Covers (op.apply contents) (t.publish op) v' := by
  have hlost : (t.publish op).lost = t.lost ++ m := congrArg (t.lost ++ ·) he.removed
  have hsnap : (t.publish op).snapshot = t.snapshot := rfl
  refine ⟨hnd, fun x hx => ?_, ?_⟩
  · rw [he.after, hlost]
    have hx' := (hw x hx).imp_left (hv.within x)
    rw [he.before] at hx'
    simp only [List.mem_append] at hx' ⊢
    tauto
  · -- neither a node that goes nor one that comes is kept by either filter
    have hrel : ∀ x, decide (x ∈ t.snapshot ∧ x ∉ t.lost ++ m) =
        (decide (x ∈ t.snapshot ∧ x ∉ t.lost ++ m) && decide (x ∉ m ∧ x ∉ m')) := by
      intro x
      rw [Bool.eq_iff_iff]
      simp only [List.mem_append, Bool.and_eq_true, decide_eq_true_eq]
      refine ⟨fun h => ⟨h, fun hm => h.2 (.inr hm), fun hm => ?_⟩, fun h => h.1⟩
      exact (hkept x h.1).elim (hfresh x hm).1 (hfresh x hm).2
    have hsplit : ∀ x, decide (x ∈ t.snapshot ∧ x ∉ t.lost ++ m) =
        (decide (x ∉ m) && decide (x ∈ t.snapshot ∧ x ∉ t.lost)) := by
      intro x
      rw [Bool.eq_iff_iff]
      simp only [List.mem_append, Bool.and_eq_true, decide_eq_true_eq]
      tauto
    rw [hlost, hsnap]
    calc v'.filter (fun x => x ∈ t.snapshot ∧ x ∉ t.lost ++ m)
        = (v'.filter (fun x => x ∉ m ∧ x ∉ m')).filter
            (fun x => x ∈ t.snapshot ∧ x ∉ t.lost ++ m) := by
          rw [List.filter_filter]
          exact List.filter_congr fun x _ => hrel x
      _ = v.filter (fun x => x ∈ t.snapshot ∧ x ∉ t.lost ++ m) := by
          rw [hf, List.filter_filter]
          exact (List.filter_congr fun x _ => hrel x).symm
      _ = (v.filter (fun x => x ∈ t.snapshot ∧ x ∉ t.lost)).filter (fun x => x ∉ m) := by
          rw [List.filter_filter]
          exact List.filter_congr fun x _ => hsplit x
      _ = t.snapshot.filter (fun x => x ∉ t.lost ++ m) := by
          rw [hv.steady, List.filter_filter]
          refine List.filter_congr fun x _ => ?_
          rw [Bool.eq_iff_iff]
          simp only [List.mem_append, Bool.and_eq_true, decide_eq_true_eq]
          tauto

theorem Covers.publish_same (hv : Covers contents t v) (he : Edit op contents l₁ m m' l₂)
    (hkept : ∀ x ∈ t.snapshot, x ∈ contents ∨ x ∈ t.lost)
    (hfresh : ∀ x ∈ m', x ∉ contents ∧ x ∉ t.lost) : Covers (op.apply contents) (t.publish op) v :=
  hv.publish he hkept hfresh hv.nodup (fun _ hx => .inl hx) rfl

theorem Covers.publish_splice {p q : List A} (hv : Covers contents t (p ++ (m ++ q)))
    (he : Edit op contents l₁ m m' l₂) (hkept : ∀ x ∈ t.snapshot, x ∈ contents ∨ x ∈ t.lost)
    (hfresh : ∀ x ∈ m', x ∉ contents ∧ x ∉ t.lost) (hm : m'.Nodup) :
    Covers (op.apply contents) (t.publish op) (p ++ (m' ++ q)) := by
  have hnew : ∀ x ∈ m', x ∉ p ++ (m ++ q) := fun x hx hv' =>
    (hv.within x hv').elim (hfresh x hx).1 (hfresh x hx).2
  have hpq : (p ++ q).Nodup :=
    hv.nodup.sublist ((List.Sublist.refl p).append (List.sublist_append_right m q))
  have hperm : (p ++ (m' ++ q)).Perm (m' ++ (p ++ q)) := by
    rw [← List.append_assoc, ← List.append_assoc]
    exact List.perm_append_comm.append_right q
  refine hv.publish he hkept hfresh ?_ (fun x hx => ?_) ?_
  · rw [hperm.nodup_iff, List.nodup_append]
    refine ⟨hm, hpq, fun x hx y hy => ?_⟩
    rintro rfl
    refine hnew x hx ?_
    simp only [List.mem_append] at hy ⊢
    tauto
  · simp only [List.mem_append] at hx ⊢
    tauto
  · have hnil : ∀ l : List A, (∀ x ∈ l, x ∈ m ∨ x ∈ m') →
        l.filter (fun x => x ∉ m ∧ x ∉ m') = [] := by
      intro l hl
      rw [List.filter_eq_nil_iff]
      intro x hx
      have := hl x hx
      simp only [decide_eq_true_eq]
      tauto
    simp only [List.filter_append, hnil m fun _ hx => .inl hx, hnil m' fun _ hx => .inr hx,
      List.nil_append]

omit [DecidableEq A] in
theorem exists_behind {a x : A} {l : List A} (h : x ∈ a :: l) :
    ∃ r₁ r₂, l = r₁ ++ r₂ ∧ last a r₁ = x := by
  induction l generalizing a with
  | nil => exact ⟨[], [], rfl, (List.mem_singleton.mp h).symm⟩
  | cons y l ih =>
    rcases List.mem_cons.mp h with rfl | hx
    · exact ⟨[], y :: l, rfl, rfl⟩
    · obtain ⟨r₁, r₂, rfl, hlast⟩ := ih hx
      exact ⟨y :: r₁, r₂, rfl, hlast⟩

/-- The call takes effect: the loops that are still before the place of the change see it. -/
theorem Sound.publish (h : Sound next head contents t) (he : Edit op contents l₁ m m' l₂)
    (hnd : (head :: contents).Nodup) (hpath : Path next head contents head)
    (hfresh : ∀ x ∈ m', x ∉ contents ∧ x ∉ t.lost) (hm : m'.Nodup)
    (hg : ∀ x, x ≠ last head l₁ → next' x = next x)
    (hlink : Path next' (last head l₁) m' (first l₂ head)) :
    Sound next' head (op.apply contents) (t.publish op) := by
  have hlost : (t.publish op).lost = t.lost ++ m := congrArg (t.lost ++ ·) he.removed
  have hcame : (t.publish op).came = t.came ++ m' := congrArg (t.came ++ ·) he.added
  have hhead : head ∉ contents := (List.nodup_cons.mp hnd).1
  have hsplit := he.before
  refine ⟨fun x hx => ?_, fun x hx => ?_, ?_, fun hf => ?_, fun hf => ?_⟩
  · have := h.kept x hx
    rw [hsplit] at this
    rw [he.after, hlost]
    simp only [List.mem_append] at this ⊢
    tauto
  · have := h.known x
    rw [hsplit] at this
    rw [he.after, hlost] at hx
    rw [hcame]
    simp only [List.mem_append] at this hx ⊢
    tauto
  · rw [hlost]
    intro hm'
    rcases List.mem_append.mp hm' with hl | hl
    · exact h.outside hl
    · exact hhead (hsplit ▸ by simp [hl])
  · obtain ⟨hpos, hc⟩ := h.finished hf
    exact ⟨hpos, hc.publish_same he h.kept hfresh⟩
  · obtain ⟨hpos, rest, hrest, hc⟩ := h.running hf
    refine ⟨hpos, ?_⟩
    have hout : head ∉ t.visited ++ rest := fun hm =>
      (hc.within head hm).elim hhead h.outside
    have hposnd : (t.pos :: rest).Nodup := by
      refine List.nodup_cons.mpr ⟨fun hm => ?_, (List.nodup_append.mp hc.nodup).2.1⟩
      rw [hpos] at hm
      rcases List.mem_cons.mp (last_mem head t.visited) with e | hv
      · exact hout (List.mem_append_right _ (e ▸ hm))
      · exact (List.nodup_append.mp hc.nodup).2.2 _ hv _ hm rfl
    by_cases ha : last head l₁ ∈ t.pos :: rest
    · -- behind that node the loop has the same ahead of it as the list
      obtain ⟨r₁, r₂, rfl, hlast⟩ := exists_behind ha
      obtain ⟨-, hr₂⟩ := path_append.mp hrest
      rw [hsplit] at hpath hhead
      obtain ⟨-, hl₂⟩ := path_append.mp hpath
      rw [hlast] at hr₂
      obtain rfl : r₂ = m ++ l₂ := by
        refine path_unique hr₂ hl₂ (fun hx => hout (by simp [hx])) fun hx => hhead (by simp [hx])
      rw [← List.append_assoc] at hc
      refine ⟨r₁ ++ (m' ++ l₂), ?_, ?_⟩
      · refine hrest.splice (hposnd.sublist ?_) (fun x _ hx => hg x (hlast ▸ hx)) ?_ (hlast ▸ hlink)
        · exact .cons_cons _ (List.sublist_append_left r₁ (m ++ l₂))
        · rw [hlast]
          have hnd' := hnd
          rw [hsplit] at hnd'
          rcases List.mem_cons.mp (last_mem head l₁) with e | hl
          · rw [e]
            exact fun hx => hhead (by simp [hx])
          · exact fun hx => (List.nodup_append.mp (List.nodup_cons.mp hnd').2).2.2 _ hl _
              (List.mem_append_right m hx) rfl
      · rw [← List.append_assoc]
        exact hc.publish_splice he h.kept hfresh hm
    · refine ⟨rest, hrest.congr fun x hx => hg x fun e => ha (e ▸ hx), ?_⟩
      exact hc.publish_same he h.kept hfresh

theorem Sound.congr (h : Sound next head contents t)
    (hg : ∀ x, x = head ∨ x ∈ contents ∨ x ∈ t.lost → next' x = next x) :
    Sound next' head contents t := by
  refine ⟨h.kept, h.known, h.outside, h.finished, fun hf => ?_⟩
  obtain ⟨hpos, rest, hrest, hc⟩ := h.running hf
  refine ⟨hpos, rest, hrest.congr fun x hx => hg x ?_, hc⟩
  rcases List.mem_cons.mp hx with rfl | hx
  · rw [hpos]
    rcases List.mem_cons.mp (last_mem head t.visited) with e | hv
    · exact .inl e
    · exact .inr (hc.within _ (List.mem_append_left rest hv))
  · exact .inr (hc.within x (List.mem_append_right t.visited hx))

theorem Sound.advance (h : Sound next head contents t) (hhead : head ∉ contents)
    (hf : t.finished = false) : Sound next head contents (t.next head (next t.pos)) := by
  obtain ⟨hpos, rest, hrest, hc⟩ := h.running hf
  unfold Traversal.next
  cases rest with
  | nil =>
    rw [if_pos (path_nil.mp hrest)]
    rw [List.append_nil] at hc
    exact ⟨h.kept, h.known, h.outside, fun _ => ⟨hrest, hc.nodup, hc.within, hc.steady⟩, nofun⟩
  | cons x rest =>
    have hx : x ≠ head := by
      rintro rfl
      exact (hc.within x (by simp)).elim hhead h.outside
    rw [hrest.1, if_neg hx]
    refine ⟨h.kept, h.known, h.outside, fun e => ?_, fun _ => ⟨by simp, rest, hrest.2, ?_⟩⟩
    · rw [hf] at e
      cases e
    · have hv : t.visited ++ [x] ++ rest = t.visited ++ x :: rest := by simp
      rw [hv]
      exact ⟨hc.nodup, hc.within, hc.steady⟩

theorem sound_start (hnd : (head :: contents).Nodup) (hpath : Path next head contents head) :
    Sound next head contents ⟨head, false, [], contents, [], []⟩ := by
  refine ⟨fun x hx => .inl hx, fun x hx => .inl (by simpa using hx), by simp, nofun,
    fun _ => ⟨rfl, contents, hpath, (List.nodup_cons.mp hnd).2, fun x hx => .inl hx, ?_⟩⟩
  refine List.filter_congr fun x hx => ?_
  simp only [List.nil_append] at hx
  simp [hx]

end publish

end LibCoro.RcuList
