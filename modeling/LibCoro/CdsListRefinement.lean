import LibCoro.CdsList

namespace LibCoro.CdsList

open Machine Links

variable {A : Type} [DecidableEq A]

section Lists

variable {w : Lists A} {h : A} {l : List A}

omit [DecidableEq A] in
theorem Lists.Valid.home_of_mem (hv : w.Valid) {x : A} (hh : w.home h = some h)
    (hx : x ∈ w.contents h) : w.home x = some h :=
  (hv.mem h x hh).mpr (List.mem_cons_of_mem h hx)

omit [DecidableEq A] in
theorem Lists.Valid.not_mem (hv : w.Valid) (hh : w.home h = some h) : h ∉ w.contents h :=
  (List.nodup_cons.mp (hv.nodup h hh)).1

structure Lists.Fits (w : Lists A) (h : A) (l : List A) : Prop where
  home : w.home h = some h
  nodup : (h :: l).Nodup
  own : ∀ x ∈ l, x ∈ w.contents h ∨ w.home x = none

omit [DecidableEq A] in
theorem Lists.Fits.home_of_mem (hf : w.Fits h l) (hv : w.Valid) {x : A} (hx : x ∈ l) :
    w.home x = some h ∨ w.home x = none :=
  (hf.own x hx).imp_left (hv.home_of_mem hf.home)

theorem Lists.Fits.set_head (hf : w.Fits h l) (hv : w.Valid) (g : A) :
    (w.set h l).home g = some g ↔ w.home g = some g := by
  have hl : ∀ x ∈ l, x ≠ h := fun x hx e => (List.nodup_cons.mp hf.nodup).1 (e ▸ hx)
  have hc : ∀ x ∈ w.contents h, x ≠ h := fun x hx e => hv.not_mem hf.home (e ▸ hx)
  simp only [Lists.set]
  split_ifs with hgl hgc
  · have hne := hl g hgl
    refine ⟨fun e => absurd (Option.some.inj e).symm hne, fun e => ?_⟩
    obtain e' | e' := hf.home_of_mem hv hgl <;> rw [e] at e'
    · exact absurd (Option.some.inj e') hne
    · cases e'
  · have e' := hv.home_of_mem hf.home hgc
    refine ⟨nofun, fun e => absurd (Option.some.inj (e.symm.trans e')) (hc g hgc)⟩
  · rfl

theorem Lists.Fits.set_home (hf : w.Fits h l) (hv : w.Valid) {x g : A} (hg : g ≠ h) :
    (w.set h l).home x = some g ↔ w.home x = some g := by
  simp only [Lists.set]
  split_ifs with hxl hxc
  · refine ⟨fun e => absurd (Option.some.inj e).symm hg, fun e => ?_⟩
    obtain e' | e' := hf.home_of_mem hv hxl <;> rw [e] at e'
    · exact absurd (Option.some.inj e') hg
    · cases e'
  · have e' := hv.home_of_mem hf.home hxc
    exact ⟨nofun, fun e => absurd (Option.some.inj (e.symm.trans e')) hg⟩
  · rfl

theorem Lists.Fits.set_self (hf : w.Fits h l) (hv : w.Valid) (x : A) :
    (w.set h l).home x = some h ↔ x ∈ h :: l := by
  have hh := (hf.set_head hv h).mpr hf.home
  simp only [List.mem_cons]
  refine ⟨fun e => ?_, fun e => ?_⟩
  · simp only [Lists.set] at e
    split_ifs at e with hxl hxc
    · exact .inr hxl
    · exact .inl ((List.mem_cons.mp ((hv.mem h x hf.home).mp e)).resolve_right hxc)
  · obtain rfl | hx := e
    · exact hh
    · simp [Lists.set, hx]

theorem Lists.Fits.valid (hf : w.Fits h l) (hv : w.Valid) : (w.set h l).Valid := by
  have hself : (w.set h l).contents h = l := Function.update_self _ _ _
  have hother : ∀ g, g ≠ h → (w.set h l).contents g = w.contents g :=
    fun g hg => Function.update_of_ne hg _ _
  refine ⟨fun x g hx => ?_, fun g x hg => ?_, fun g hg => ?_⟩
  · by_cases hgh : g = h
    · rw [hgh]
      exact (hf.set_head hv h).mpr hf.home
    · exact (hf.set_head hv g).mpr (hv.head x g ((hf.set_home hv hgh).mp hx))
  · by_cases hgh : g = h
    · rw [hgh, hself]
      exact hf.set_self hv x
    · rw [hother g hgh, hf.set_home hv hgh]
      exact hv.mem g x ((hf.set_head hv g).mp hg)
  · by_cases hgh : g = h
    · rw [hgh, hself]
      exact hf.nodup
    · rw [hother g hgh]
      exact hv.nodup g ((hf.set_head hv g).mp hg)

end Lists

section represents

variable {s t : Nodes A} {w : Lists A} {h : A} {l : List A}

theorem Represents.set (hr : Represents s w) (hf : w.Fits h l) (hring : Ring t.next t.prev h l)
    (hsame : ∀ x, w.home x ≠ some h → x ∉ l → t.next x = s.next x ∧ t.prev x = s.prev x) :
    Represents t (w.set h l) := by
  have hv := hr.toValid
  refine ⟨hf.valid hv, fun g hg => ?_⟩
  by_cases hgh : g = h
  · rw [hgh, show (w.set h l).contents h = l from Function.update_self _ _ _]
    exact hring
  · have hg' := (hf.set_head hv g).mp hg
    rw [show (w.set h l).contents g = w.contents g from Function.update_of_ne hgh _ _]
    have hout : ∀ x ∈ g :: w.contents g, t.next x = s.next x ∧ t.prev x = s.prev x := by
      intro x hx
      have hx' := (hv.mem g x hg').mpr hx
      refine hsame x (fun e => hgh (Option.some.inj (hx'.symm.trans e))) fun hxl => ?_
      obtain e | e := hf.home_of_mem hv hxl <;> rw [hx'] at e
      · exact hgh (Option.some.inj e)
      · cases e
    exact (hr.ring g hg').congr (fun x hx => (hout x hx).1) fun x hx => (hout x hx).2

omit [DecidableEq A] in
theorem home_around (l₁ l₂ : List A) (hr : Represents s w) (hh : w.home h = some h)
    (hl : ∀ x ∈ l₁ ++ l₂, x ∈ w.contents h) :
    w.home (last h l₁) = some h ∧ w.home (first l₂ h) = some h := by
  have hv := hr.toValid
  exact ⟨(hv.mem h _ hh).mpr (last_mem_of_subset h fun x hx => hl x (List.mem_append_left l₂ hx)),
    (hv.mem h _ hh).mpr (first_mem_of_subset h fun x hx => hl x (List.mem_append_right l₁ hx))⟩

/-- The part `m` of a list gives way to `m'`; the links around it and those of `m'` are written. -/
theorem Represents.splice (l₁ m m' l₂ : List A) (hr : Represents s w) (hh : w.home h = some h)
    (hc : w.contents h = l₁ ++ (m ++ l₂)) (hm : m'.Nodup) (hfree : ∀ x ∈ m', w.home x = none)
    (hn : ∀ x, x ∉ m' → x ≠ last h l₁ → t.next x = s.next x)
    (hp : ∀ x, x ∉ m' → x ≠ first l₂ h → t.prev x = s.prev x)
    (hpath : Path t.next (last h l₁) m' (first l₂ h))
    (hpath' : Path t.prev (first l₂ h) m'.reverse (last h l₁)) :
    Represents t (w.set h (l₁ ++ (m' ++ l₂))) := by
  have hv := hr.toValid
  have hin : ∀ x ∈ l₁ ++ l₂, x ∈ w.contents h := by
    intro x hx
    rw [hc]
    simp only [List.mem_append] at hx ⊢
    tauto
  have hnd : (h :: (l₁ ++ l₂)).Nodup := by
    have := hv.nodup h hh
    rw [hc] at this
    have hsub := (List.Sublist.refl l₁).append (List.sublist_append_right m l₂)
    exact this.sublist (.cons_cons h hsub)
  have hnot : ∀ x ∈ h :: (l₁ ++ l₂), x ∉ m' := by
    intro x hx hxm
    have hx' : w.home x = some h := (hv.mem h x hh).mpr <| by
      rcases List.mem_cons.mp hx with rfl | hx
      · exact List.mem_cons_self
      · exact List.mem_cons_of_mem h (hin x hx)
    rw [hfree x hxm] at hx'
    cases hx'
  obtain ⟨hlast, hfirst⟩ := home_around l₁ l₂ hr hh hin
  refine hr.set ⟨hh, ?_, fun x hx => ?_⟩ ?_ fun x hx hxl => ?_
  · exact nodup_exchange hnd hm fun x hx hx' => hnot x hx' hx
  · by_cases hxm : x ∈ m'
    · exact .inr (hfree x hxm)
    · refine .inl (hin x ?_)
      simp only [List.mem_append] at hx ⊢
      tauto
  · have hring := hr.ring h hh
    rw [hc] at hring
    exact hring.splice hnd (fun x hx hne => hn x (hnot x hx) hne)
      (fun x hx hne => hp x (hnot x hx) hne) hpath hpath'
  · have hxm : x ∉ m' := fun hxm => hxl (by simp [hxm])
    exact ⟨hn x hxm fun e => hx (e ▸ hlast), hp x hxm fun e => hx (e ▸ hfirst)⟩

omit [DecidableEq A] in
theorem Represents.place (hr : Represents s w) {e : A} (he : w.home e = some h) (hne : e ≠ h) :
    w.home h = some h ∧ ∃ l₁ l₂, w.contents h = l₁ ++ e :: l₂ ∧ e ∉ l₁ ∧ e ∉ l₂ := by
  have hh := hr.head e h he
  have hmem : e ∈ w.contents h :=
    (List.mem_cons.mp ((hr.mem h e hh).mp he)).resolve_left hne
  obtain ⟨l₁, l₂, hc⟩ := List.append_of_mem hmem
  have hnd := (List.nodup_cons.mp (hr.nodup h hh)).2
  rw [hc] at hnd
  have hnd₂ := List.nodup_cons.mp (List.nodup_append.mp hnd).2.1
  refine ⟨hh, l₁, l₂, hc, fun hm => ?_, hnd₂.1⟩
  exact (List.nodup_append.mp hnd).2.2 e hm e List.mem_cons_self rfl

omit [DecidableEq A] in
theorem home_ne {x y : A} (hx : w.home x = none) (hy : w.home y = some h) : x ≠ y := by
  rintro rfl
  rw [hx] at hy
  cases hy

omit [DecidableEq A] in
theorem Represents.sides (hr : Represents s w) (hh : w.home h = some h) {e : A} {l₁ l₂ : List A}
    (hc : w.contents h = l₁ ++ e :: l₂) : s.prev e = last h l₁ ∧ s.next e = first l₂ h := by
  have hring := hr.ring h hh
  rw [hc] at hring
  have hb := hring.around l₁ [] (e :: l₂)
  have ha := Ring.around (l₁ ++ [e]) [] l₂ (by simpa using hring)
  simpa using And.intro hb.2 ha.1

theorem represents_add (l₁ l₂ : List A) (hr : Represents s w) (hh : w.home h = some h) {n : A}
    (hc : w.contents h = l₁ ++ l₂) (hn : w.home n = none) :
    Represents (listAdd s n (last h l₁)) (w.set h (l₁ ++ n :: l₂)) := by
  have hring := hr.ring h hh
  rw [hc] at hring
  have ha := Ring.around l₁ [] l₂ hring
  obtain ⟨hlast, hfirst⟩ := home_around l₁ l₂ hr hh fun x hx => hc ▸ hx
  have hnl := home_ne hn hlast
  have hnf := home_ne hn hfirst
  refine hr.splice l₁ [] [n] l₂ hh hc (List.nodup_singleton n) (by simpa using hn) ?_ ?_ ?_ ?_
  · intro x hx hxl
    have hxn : x ≠ n := by simpa using hx
    simp [listAdd, Nodes.setNext, Nodes.setPrev, hxl, hxn]
  · intro x hx hxf
    have hxn : x ≠ n := by simpa using hx
    simp only [listAdd, Nodes.setNext, Nodes.setPrev, ha.1, first_nil]
    rw [Function.update_of_ne hxn, Function.update_of_ne hxf]
  · simp [listAdd, Nodes.setNext, Nodes.setPrev, ha.1, hnl]
  · simp [listAdd, Nodes.setNext, Nodes.setPrev, ha.1, Ne.symm hnf]

theorem represents_addTail (l₁ l₂ : List A) (hr : Represents s w) (hh : w.home h = some h) {n : A}
    (hc : w.contents h = l₁ ++ l₂) (hn : w.home n = none) :
    Represents (listAddTail s n (first l₂ h)) (w.set h (l₁ ++ n :: l₂)) := by
  have hring := hr.ring h hh
  rw [hc] at hring
  have ha := Ring.around l₁ [] l₂ hring
  obtain ⟨hlast, hfirst⟩ := home_around l₁ l₂ hr hh fun x hx => hc ▸ hx
  have hnl := home_ne hn hlast
  have hnf := home_ne hn hfirst
  refine hr.splice l₁ [] [n] l₂ hh hc (List.nodup_singleton n) (by simpa using hn) ?_ ?_ ?_ ?_
  · intro x hx hxl
    have hxn : x ≠ n := by simpa using hx
    simp only [listAddTail, Nodes.setNext, Nodes.setPrev, ha.2, last_nil]
    rw [Function.update_of_ne hxn, Function.update_of_ne hxl]
  · intro x hx hxf
    have hxn : x ≠ n := by simpa using hx
    simp [listAddTail, Nodes.setNext, Nodes.setPrev, hxf, hxn]
  · simp [listAddTail, Nodes.setNext, Nodes.setPrev, ha.2, Ne.symm hnl]
  · simp [listAddTail, Nodes.setNext, Nodes.setPrev, ha.2, hnf]

theorem represents_del (hr : Represents s w) (hh : w.home h = some h) {e : A} {l₁ l₂ : List A}
    (hc : w.contents h = l₁ ++ e :: l₂) : Represents (cdsListDel s e) (w.set h (l₁ ++ l₂)) := by
  obtain ⟨hprev, hnext⟩ := hr.sides hh hc
  refine hr.splice l₁ [e] [] l₂ hh hc List.nodup_nil (by simp) ?_ ?_ ?_ ?_
  · intro x _ hx
    simp [cdsListDel, listDel, Nodes.setNext, Nodes.setPrev, hprev, hx]
  · intro x _ hx
    simp [cdsListDel, listDel, Nodes.setNext, Nodes.setPrev, hnext, hx]
  · simp [cdsListDel, listDel, Nodes.setNext, Nodes.setPrev, hprev, hnext]
  · simp [cdsListDel, listDel, Nodes.setNext, Nodes.setPrev, hprev, hnext]

theorem cdsListReplace_eq (s : Nodes A) {old new : A} (hp : s.prev old ≠ new) :
    cdsListReplace s old new =
      ⟨Function.update (Function.update s.next new (s.next old)) (s.prev old) new,
        Function.update (Function.update s.prev new (s.prev old)) (s.next old) new⟩ := by
  simp [cdsListReplace, Nodes.setNext, Nodes.setPrev, Ne.symm hp]

theorem represents_replace (hr : Represents s w) (hh : w.home h = some h) {old new : A}
    {l₁ l₂ : List A} (hc : w.contents h = l₁ ++ old :: l₂) (hn : w.home new = none) :
    Represents (cdsListReplace s old new) (w.set h (l₁ ++ new :: l₂)) := by
  obtain ⟨hprev, hnext⟩ := hr.sides hh hc
  obtain ⟨hlast, hfirst⟩ := home_around l₁ l₂ hr hh fun x hx => by
    rw [hc]
    simp only [List.mem_append, List.mem_cons] at hx ⊢
    tauto
  have hnl := home_ne hn hlast
  have hnf := home_ne hn hfirst
  rw [cdsListReplace_eq s (hprev ▸ Ne.symm hnl), hprev, hnext]
  refine hr.splice l₁ [old] [new] l₂ hh hc (List.nodup_singleton new) (by simpa using hn)
    (fun x hx hxl => ?_) (fun x hx hxf => ?_) ?_ ?_
  · have hxn : x ≠ new := by simpa using hx
    simp [hxl, hxn]
  · have hxn : x ≠ new := by simpa using hx
    simp [hxf, hxn]
  · simp [hnl]
  · simp [hnf]

theorem represents_open (hr : Represents s w) (hn : w.home h = none) :
    Represents (cdsInitListHead s h) (w.open h) := by
  have hne : ∀ {x g : A}, w.home x = some g → x ≠ h := fun hx => (home_ne hn hx).symm
  have hhome : ∀ x, x ≠ h → (w.open h).home x = w.home x := fun x hx => Function.update_of_ne hx _ _
  have hcont : ∀ g, g ≠ h → (w.open h).contents g = w.contents g :=
    fun g hg => Function.update_of_ne hg _ _
  have hself : (w.open h).home h = some h := Function.update_self _ _ _
  have hnil : (w.open h).contents h = [] := Function.update_self _ _ _
  have hout : ∀ {x g : A}, x ≠ h → (w.open h).home x = some g → w.home x = some g ∧ g ≠ h := by
    intro x g hx hg
    rw [hhome x hx] at hg
    exact ⟨hg, hne (hr.head x g hg)⟩
  refine ⟨⟨fun x g hx => ?_, fun g x hg => ?_, fun g hg => ?_⟩, fun g hg => ?_⟩
  · by_cases hgh : g = h
    · rw [hgh]
      exact hself
    · rw [hhome g hgh]
      by_cases hxh : x = h
      · rw [hxh, hself] at hx
        exact absurd (Option.some.inj hx).symm hgh
      · exact hr.head x g (hout hxh hx).1
  · by_cases hgh : g = h
    · rw [hgh, hnil, List.mem_singleton]
      refine ⟨fun hx => ?_, fun hx => hx ▸ hself⟩
      by_contra hxh
      exact (hout hxh hx).2 rfl
    · rw [hcont g hgh]
      by_cases hxh : x = h
      · rw [hxh, hself]
        refine ⟨fun e => absurd (Option.some.inj e).symm hgh, fun hx => ?_⟩
        exact absurd rfl (hne ((hr.mem g h (hout hgh hg).1).mpr hx))
      · rw [hhome x hxh]
        exact hr.mem g x (hout hgh hg).1
  · by_cases hgh : g = h
    · rw [hgh, hnil]
      exact List.nodup_singleton h
    · rw [hcont g hgh]
      exact hr.nodup g (hout hgh hg).1
  · by_cases hgh : g = h
    · rw [hgh, hnil]
      simp [ring_nil, cdsInitListHead, Nodes.setNext, Nodes.setPrev]
    · rw [hcont g hgh]
      have hx : ∀ x ∈ g :: w.contents g, x ≠ h := fun x hx =>
        hne ((hr.mem g x (hout hgh hg).1).mpr hx)
      exact (hr.ring g (hout hgh hg).1).congr
        (fun x hm => by simp [cdsInitListHead, Nodes.setNext, Nodes.setPrev, hx x hm])
        fun x hm => by simp [cdsInitListHead, Nodes.setNext, Nodes.setPrev, hx x hm]

theorem Represents.lose (hr : Represents s w)
    (hsame : ∀ x, w.home x ≠ some h → t.next x = s.next x ∧ t.prev x = s.prev x) :
    Represents t (w.close h) := by
  have hhome : ∀ x g, (w.close h).home x = some g ↔ w.home x = some g ∧ g ≠ h := by
    intro x g
    simp only [Lists.close]
    split_ifs with hx
    · rw [hx]
      exact ⟨nofun, fun ⟨e, hg⟩ => absurd (Option.some.inj e).symm hg⟩
    · refine ⟨fun e => ⟨e, fun hg => hx (hg ▸ e)⟩, fun e => e.1⟩
  refine ⟨⟨fun x g hx => ?_, fun g x hg => ?_, fun g hg => ?_⟩, fun g hg => ?_⟩
  · obtain ⟨hx, hgh⟩ := (hhome x g).mp hx
    exact (hhome g g).mpr ⟨hr.head x g hx, hgh⟩
  · obtain ⟨hg, hgh⟩ := (hhome g g).mp hg
    rw [hhome x g, and_iff_left hgh]
    exact hr.mem g x hg
  · exact hr.nodup g ((hhome g g).mp hg).1
  · obtain ⟨hg, hgh⟩ := (hhome g g).mp hg
    have hout : ∀ x ∈ g :: w.contents g, t.next x = s.next x ∧ t.prev x = s.prev x := by
      intro x hx
      have hx' := (hr.mem g x hg).mpr hx
      exact hsame x fun e => hgh (Option.some.inj (hx'.symm.trans e))
    exact (hr.ring g hg).congr (fun x hx => (hout x hx).1) fun x hx => (hout x hx).2

theorem represents_close (hr : Represents s w) : Represents s (w.close h) :=
  hr.lose fun _ _ => ⟨rfl, rfl⟩

theorem Lists.Loose.close_home {x : A} (hx : w.Loose x) : (w.close x).home x = none := by
  obtain hx | hx := hx <;> simp [Lists.close, hx]

theorem Lists.close_home_of_ne {x : A} (hh : w.home h = some h) (hne : x ≠ h) :
    (w.close x).home h = some h := by
  simp [Lists.close, hh, Ne.symm hne]

theorem cdsListSplice_eq (s : Nodes A) {add h : A} (hn : s.next add ≠ add) (hp : s.prev add ≠ add)
    (hh : s.prev add ≠ h) : cdsListSplice s add h =
      ⟨Function.update (Function.update s.next (s.prev add) (s.next h)) h (s.next add),
        Function.update (Function.update s.prev (s.next add) h) (s.next h) (s.prev add)⟩ := by
  simp only [cdsListSplice, if_pos (Ne.symm hn), Nodes.setNext, Nodes.setPrev]
  rw [Function.update_of_ne (Ne.symm hn), Function.update_of_ne (Ne.symm hh),
    Function.update_of_ne (Ne.symm hp)]

theorem represents_splice (hr : Represents s w) {add : A} (ha : w.home add = some add)
    (hh : w.home h = some h) (hne : add ≠ h) (hl : w.contents add ≠ []) :
    Represents (cdsListSplice s add h) ((w.close add).set h (w.contents add ++ w.contents h)) := by
  have hring := hr.ring add ha
  obtain ⟨hhn, -⟩ := Ring.around [] [] _ (hr.ring h hh)
  obtain ⟨hn, hp⟩ := Ring.around [] (w.contents add) [] (by simpa using hring)
  simp only [last_nil, first_nil] at hn hp hhn
  obtain ⟨hadd, hndl⟩ := List.nodup_cons.mp (hr.nodup add ha)
  have hlast := last_mem_self add hl
  have hfirst := first_mem_self add hl
  have hapart : ∀ x ∈ h :: w.contents h, x ∉ w.contents add ∧ x ≠ add := by
    intro x hx
    have hx' := (hr.mem h x hh).mpr hx
    refine ⟨fun hxa => ?_, fun e => ?_⟩
    · exact hne (Option.some.inj ((hr.home_of_mem ha hxa).symm.trans hx'))
    · rw [e, ha] at hx'
      exact hne (Option.some.inj hx')
  have hhl : last add (w.contents add) ≠ h := fun e => (hapart h List.mem_cons_self).1 (e ▸ hlast)
  have hff : first (w.contents h) h ≠ first (w.contents add) add := fun e =>
    (hapart _ (first_mem h _)).1 (e ▸ hfirst)
  have hna : s.next add ≠ add := by
    intro e
    rw [hn.symm.trans e] at hfirst
    exact hadd hfirst
  have hpa : s.prev add ≠ add := by
    intro e
    rw [hp.symm.trans e] at hlast
    exact hadd hlast
  rw [cdsListSplice_eq s hna hpa (hp ▸ hhl), hn, hp, hhn]
  have hclose := Lists.close_home_of_ne hh hne
  refine (represents_close hr).splice [] [] _ (w.contents h) hclose rfl hndl
    (fun x hx => ?_) (fun x hx hxh => ?_) (fun x hx hxf => ?_) ?_ ?_
  · simp [Lists.close, hr.home_of_mem ha hx]
  · have hxl : x ≠ last add (w.contents add) := fun e => hx (e ▸ hlast)
    exact (Function.update_of_ne hxh _ _).trans (Function.update_of_ne hxl _ _)
  · have hxl : x ≠ first (w.contents add) add := fun e => hx (e ▸ hfirst)
    exact (Function.update_of_ne hxf _ _).trans (Function.update_of_ne hxl _ _)
  · refine hring.forward.graft hl hndl (fun x hx hxl => ?_) ?_ ?_
    · have hxh : x ≠ h := fun e => (hapart h List.mem_cons_self).1 (e ▸ hx)
      exact (Function.update_of_ne hxh _ _).trans (Function.update_of_ne hxl _ _)
    · exact (Function.update_self _ _ _).trans (first_of_ne_nil _ _ hl)
    · exact (Function.update_of_ne hhl _ _).trans (Function.update_self _ _ _)
  · refine hring.backward.graft (by simpa using hl) (List.nodup_reverse.mpr hndl)
      (fun x hx hxl => ?_) ?_ ?_
    · rw [last_reverse] at hxl
      have hxf : x ≠ first (w.contents h) h := fun e =>
        (hapart _ (first_mem h _)).1 (e ▸ List.mem_reverse.mp hx)
      exact (Function.update_of_ne hxf _ _).trans (Function.update_of_ne hxl _ _)
    · rw [first_reverse]
      exact (Function.update_self _ _ _).trans (last_of_ne_nil _ _ hl)
    · rw [last_reverse]
      exact (Function.update_of_ne (Ne.symm hff) _ _).trans (Function.update_self _ _ _)

theorem map_replace {e n : A} {l₁ l₂ : List A} (h₁ : e ∉ l₁) (h₂ : e ∉ l₂) :
    (l₁ ++ e :: l₂).map (fun x => if x = e then n else x) = l₁ ++ n :: l₂ := by
  have hsame : ∀ {l : List A}, e ∉ l → l.map (fun x => if x = e then n else x) = l := by
    intro l hl
    refine (List.map_congr_left fun x hx => ?_).trans (List.map_id l)
    have hxe : x ≠ e := fun e' => hl (e' ▸ hx)
    simp [hxe]
  simp [hsame h₁, hsame h₂]

omit [DecidableEq A] in
theorem Represents.ends (hr : Represents s w) (hh : w.home h = some h) :
    s.next h = first (w.contents h) h ∧ s.prev h = last h (w.contents h) := by
  obtain ⟨hn, hp⟩ := Ring.around [] (w.contents h) [] (by simpa using hr.ring h hh)
  exact ⟨hn, hp⟩

omit [DecidableEq A] in
theorem Represents.home_links (hr : Represents s w) {e : A} (he : w.home e = some h) :
    w.home (s.prev e) = some h ∧ w.home (s.next e) = some h := by
  by_cases hne : e = h
  · subst hne
    rw [(hr.ends he).1, (hr.ends he).2, hr.mem e _ he, hr.mem e _ he]
    exact ⟨last_mem e _, first_mem e _⟩
  · obtain ⟨hh, l₁, l₂, hc, -, -⟩ := hr.place he hne
    rw [(hr.sides hh hc).1, (hr.sides hh hc).2]
    refine home_around l₁ l₂ hr hh fun x hx => ?_
    rw [hc]
    simp only [List.mem_append, List.mem_cons] at hx ⊢
    tauto

theorem represents_init {u : Lists A} (hr : Represents s w) (hu : w.init h = some u) :
    Represents (cdsInitListHead s h) u := by
  obtain ⟨hl, rfl⟩ := (when_eq_some _ _ _).mp hu
  exact represents_open (represents_close hr) hl.close_home

theorem cdsListDel_self {e : A} (hn : s.next e = e) (hp : s.prev e = e) : cdsListDel s e = s := by
  have hnext : Function.update s.next e e = s.next := by
    conv_rhs => rw [← Function.update_eq_self e s.next, hn]
  have hprev : Function.update s.prev e e = s.prev := by
    conv_rhs => rw [← Function.update_eq_self e s.prev, hp]
  simp only [cdsListDel, listDel, Nodes.setNext, Nodes.setPrev, hn, hp, hnext, hprev]

theorem represents_remove {e : A} {u : Lists A} (hr : Represents s w) (hu : w.remove e = some u) :
    Represents (cdsListDel s e) u := by
  obtain ⟨h, he, rfl⟩ := Option.map_eq_some_iff.mp hu
  split_ifs with hne hnil
  · obtain ⟨hh, l₁, l₂, hc, he₁, -⟩ := hr.place he hne
    rw [hc, List.erase_append_right _ he₁, List.erase_cons_head]
    exact represents_del hr hh hc
  · obtain rfl := not_not.mp hne
    obtain ⟨hn, hp⟩ := hr.ends he
    rw [hnil] at hn hp
    rwa [cdsListDel_self hn hp]
  · obtain rfl := not_not.mp hne
    obtain ⟨hp, hn⟩ := hr.home_links he
    refine hr.lose fun x hx => ?_
    have hxn : x ≠ s.next e := fun e' => hx (e' ▸ hn)
    have hxp : x ≠ s.prev e := fun e' => hx (e' ▸ hp)
    simp [cdsListDel, listDel, Nodes.setNext, Nodes.setPrev, hxn, hxp]

theorem cdsListReplace_self {old new : A} (hn : s.next old = old) (hp : s.prev old = old)
    (hne : new ≠ old) : cdsListReplace s old new = listAdd s new old := by
  have hpn : s.prev old ≠ new := hp.symm ▸ Ne.symm hne
  rw [cdsListReplace_eq s hpn, hn, hp]
  simp only [listAdd, Nodes.setNext, Nodes.setPrev, hn, Nodes.mk.injEq, true_and]
  exact Function.update_comm hne old new s.prev

theorem represents_rehead {old new : A} (hr : Represents s w) (ho : w.home old = some old)
    (hl : w.contents old ≠ []) (hn : w.home new = none) :
    Represents (cdsListReplace s old new)
      (((w.close old).open new).set new (w.contents old)) := by
  have hring := hr.ring old ho
  obtain ⟨hnext, hprev⟩ := hr.ends ho
  have hndl := (List.nodup_cons.mp (hr.nodup old ho)).2
  have hlast := last_mem_self old hl
  have hfirst := first_mem_self old hl
  have hnew : ∀ x ∈ w.contents old, x ≠ new := fun x hx =>
    (home_ne hn (hr.home_of_mem ho hx)).symm
  have hnone : (w.close old).home new = none := by simp [Lists.close, hn]
  have hopen := represents_open (represents_close (h := old) hr) hnone
  rw [cdsListReplace_eq s (hprev ▸ hnew _ hlast), hnext, hprev]
  refine hopen.set ⟨Function.update_self _ _ _, ?_, fun x hx => .inr ?_⟩ ⟨?_, ?_⟩ fun x hx hxl => ?_
  · exact List.nodup_cons.mpr ⟨fun hm => hnew new hm rfl, hndl⟩
  · refine (Function.update_of_ne (hnew x hx) _ _).trans ?_
    simp [Lists.close, hr.home_of_mem ho hx]
  · refine hring.forward.graft hl hndl (fun x hx hxl => ?_) ?_ (Function.update_self _ _ _)
    · exact (Function.update_of_ne hxl _ _).trans (Function.update_of_ne (hnew x hx) _ _)
    · refine (Function.update_of_ne (Ne.symm (hnew _ hlast)) _ _).trans ?_
      exact (Function.update_self _ _ _).trans (first_of_ne_nil _ _ hl)
  · refine hring.backward.graft (by simpa using hl) (List.nodup_reverse.mpr hndl)
      (fun x hx hxl => ?_) ?_ ?_
    · rw [last_reverse] at hxl
      have hx' := hnew x (List.mem_reverse.mp hx)
      exact (Function.update_of_ne hxl _ _).trans (Function.update_of_ne hx' _ _)
    · rw [first_reverse]
      refine (Function.update_of_ne (Ne.symm (hnew _ hfirst)) _ _).trans ?_
      exact (Function.update_self _ _ _).trans (last_of_ne_nil _ _ hl)
    · rw [last_reverse]
      exact Function.update_self _ _ _
  · have hxn : x ≠ new := fun e => hx (e ▸ Function.update_self _ _ _)
    have hx₁ : x ≠ last old (w.contents old) := fun e => hxl (e ▸ hlast)
    have hx₂ : x ≠ first (w.contents old) old := fun e => hxl (e ▸ hfirst)
    simp [cdsInitListHead, Nodes.setNext, Nodes.setPrev, hxn, hx₁, hx₂]

theorem represents_put {n : A} (l₁ l₂ : List A) {u : Lists A} {f : Nodes A}
    (hr : Represents s w) (hu : w.put n h (l₁ ++ n :: l₂) = some u)
    (hf : ∀ v : Lists A, Represents s v → v.home h = some h → v.contents = w.contents →
      v.home n = none → Represents f (v.set h (l₁ ++ n :: l₂))) : Represents f u := by
  obtain ⟨⟨hn, hh, hne⟩, rfl⟩ := (when_eq_some _ _ _).mp hu
  exact hf _ (represents_close hr) (Lists.close_home_of_ne hh hne) rfl hn.close_home

theorem replace_apart {old new : A} {u : Lists A} (hu : w.replace old new = some u) :
    ∃ g, w.home old = some g ∧ w.Loose new ∧ new ≠ g := by
  obtain ⟨g, hg, hu⟩ := Option.bind_eq_some_iff.mp hu
  refine ⟨g, hg, ?_⟩
  split_ifs at hu with hne hnil
  · obtain ⟨⟨hn, -, hng⟩, -⟩ := (when_eq_some _ _ _).mp hu
    exact ⟨hn, hng⟩
  · obtain ⟨⟨hn, -, hno⟩, -⟩ := (when_eq_some _ _ _).mp hu
    exact ⟨hn, not_not.mp hne ▸ hno⟩
  · obtain ⟨⟨hn, hno⟩, -⟩ := (when_eq_some _ _ _).mp hu
    exact ⟨hn, not_not.mp hne ▸ hno⟩

theorem represents_replaced {old new : A} {u : Lists A} (hr : Represents s w)
    (hu : w.replace old new = some u) : Represents (cdsListReplace s old new) u := by
  obtain ⟨h, ho, hu⟩ := Option.bind_eq_some_iff.mp hu
  split_ifs at hu with hne hnil
  · obtain ⟨hh, l₁, l₂, hc, he₁, he₂⟩ := hr.place ho hne
    rw [hc, map_replace he₁ he₂] at hu
    exact represents_put _ _ hr hu fun v hv hvh hvc hn =>
      represents_replace hv hvh (congrFun hvc h ▸ hc) hn
  · obtain rfl := not_not.mp hne
    obtain ⟨hn, hp⟩ := hr.ends ho
    rw [hnil] at hn hp
    obtain ⟨⟨-, -, hno⟩, -⟩ := (when_eq_some _ _ _).mp hu
    rw [cdsListReplace_self hn hp hno]
    exact represents_put [] [] hr hu fun v hv hvh hvc hn =>
      represents_add [] [] hv hvh ((congrFun hvc old).trans hnil) hn
  · obtain rfl := not_not.mp hne
    obtain ⟨⟨hn, hno⟩, rfl⟩ := (when_eq_some _ _ _).mp hu
    exact represents_rehead (represents_close hr) (Lists.close_home_of_ne ho hno) hnil
      hn.close_home

/-- With the old node left linked to itself, `cds_list_replace_init` does what
`cds_list_replace` does: what it writes on the way there is written again. -/
theorem cdsListReplaceInit_eq {names : Undeclared A} (hnames : names.Usual) {old new : A}
    (hp : new ≠ s.prev old) (hn : new ≠ s.next old) :
    cdsListReplaceInit names s old new = cdsInitListHead (cdsListReplace s old new) old := by
  rw [cdsListReplaceInit, hnames.initListHead_eq, hnames.addTail_eq,
    cdsListReplace_eq s (Ne.symm hp)]
  congr 1
  simp only [cdsListDel, listDel, listAddTail, Nodes.setNext, Nodes.setPrev, Function.update_self,
    Function.update_idem, Nodes.mk.injEq]
  refine ⟨?_, ?_⟩
  · exact Function.update_comm hp.symm _ _ _
  · rw [Function.update_comm hn, Function.update_idem]
    exact Function.update_comm hn.symm _ _ _

/-- Each function does to the lists what it is for. -/
theorem represents_step {names : Undeclared A} (hnames : names.Usual) {w' : Lists A} {op : Op A}
    (hr : Represents s w) (hw : step w op = some w') : Represents (exec names s op) w' := by
  cases op with
  | initHead h =>
    rw [exec, hnames.initListHead_eq]
    exact represents_init hr hw
  | add n h =>
    exact represents_put [] _ hr hw fun v hv hvh hvc hn =>
      represents_add [] _ hv hvh (congrFun hvc h) hn
  | addTail n h =>
    refine represents_put _ _ hr hw fun v hv hvh hvc hn => ?_
    exact represents_addTail _ [] hv hvh ((congrFun hvc h).trans (List.append_nil _).symm) hn
  | del e => exact represents_remove hr hw
  | delInit e =>
    obtain ⟨u, hu, hw⟩ := Option.bind_eq_some_iff.mp hw
    rw [exec, cdsListDelInit, hnames.initListHead_eq]
    exact represents_init (represents_remove hr hu) hw
  | move e h =>
    obtain ⟨u, hu, hw⟩ := Option.bind_eq_some_iff.mp hw
    exact represents_put [] _ (represents_remove hr hu) hw fun v hv hvh hvc hn =>
      represents_add [] _ hv hvh (congrFun hvc h) hn
  | replace old new => exact represents_replaced hr hw
  | splice add h =>
    obtain ⟨⟨ha, hh, hne⟩, rfl⟩ := (when_eq_some _ _ _).mp hw
    split_ifs with hl
    · have hskip : exec names s (.splice add h) = s := by
        refine if_neg (not_not.mpr ?_)
        rw [(hr.ends ha).1, hl, first_nil]
      rwa [hskip]
    · exact represents_splice hr ha hh hne hl
  | replaceInit old new =>
    obtain ⟨u, hu, hw⟩ := Option.bind_eq_some_iff.mp hw
    obtain ⟨g, hg, hn, hng⟩ := replace_apart hu
    have hapart : ∀ x, w.home x = some g → new ≠ x := by
      rintro x hx rfl
      obtain hn | hn := hn <;> rw [hx] at hn
      · cases hn
      · exact hng (Option.some.inj hn).symm
    obtain ⟨hp, hs⟩ := hr.home_links hg
    rw [exec, cdsListReplaceInit_eq hnames (hapart _ hp) (hapart _ hs)]
    exact represents_init (represents_replaced hr hu) hw

theorem represents_run {names : Undeclared A} (hnames : names.Usual) {ops : List (Op A)}
    {w' : Lists A} (hr : Represents s w) (h : run step w ops = some w') :
    Represents (ops.foldl (exec names) s) w' := by
  induction ops generalizing s w with
  | nil =>
    obtain rfl := (run_nil w w').mp h
    exact hr
  | cons op ops ih =>
    obtain ⟨u, hu, hrun⟩ := (run_cons w w' op ops).mp h
    exact ih (represents_step hnames hr hu) hrun

end represents

end LibCoro.CdsList
