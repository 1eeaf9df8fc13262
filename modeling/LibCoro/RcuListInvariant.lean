import LibCoro.RcuListReaders

namespace LibCoro.RcuList

open Machine Links CdsList Grace

variable {C A : Type} [DecidableEq C] [DecidableEq A]

/-- The links back and those of the new node where `i` stores of the call are done. -/
def Stage (s : Nodes A) (head : A) (contents : List A) : Op A → Nat → Prop
  | .add n, i =>
    n ∉ head :: contents ∧ (0 < i → s.next n = first contents head) ∧ (1 < i → s.prev n = head) ∧
      Path s.prev head (if i < 3 then contents else n :: contents).reverse head
  | .addTail n, i =>
    if i < 3 then
      n ∉ head :: contents ∧ (0 < i → s.next n = head) ∧
        (1 < i → s.prev n = last head contents) ∧ Path s.prev head contents.reverse head
    else ∃ l, contents = l ++ [n] ∧ s.prev n = last head l ∧ Path s.prev head l.reverse head
  | .replace old new, i =>
    ∃ l₁ l₂, if i < 3 then
      contents = l₁ ++ old :: l₂ ∧ new ∉ head :: contents ∧ (0 < i → s.next new = first l₂ head) ∧
        (1 < i → s.prev new = last head l₁) ∧ Path s.prev head contents.reverse head
    else contents = l₁ ++ new :: l₂ ∧
      Path (Function.update s.prev (first l₂ head) new) head contents.reverse head
  | .del e, i =>
    ∃ l₁ l₂, contents = l₁ ++ e :: l₂ ∧ s.prev e = last head l₁ ∧
      Path s.prev head (if i = 0 then contents else l₁ ++ l₂).reverse head

def Updating (head : A) (s : State C A) : Prop :=
  match s.updating with
  | none => Path s.nodes.prev head s.contents.reverse head
  | some (_, op, i) =>
    Stage s.nodes head s.contents op i ∧ ∀ n ∈ op.added, s.custody.phase n = .used

structure Inv (head : A) (g : Grace.State C) (s : State C A) : Prop where
  custody : Custody.Inv g s.custody
  used : ∀ x ∈ head :: s.contents, s.custody.phase x = .used
  nodup : (head :: s.contents).Nodup
  forward : Path s.nodes.next head s.contents head
  updating : Updating head s
  inside : ∀ r t, s.reading r = some t → r ∈ g.inside
  sound : ∀ r t, s.reading r = some t → Sound s.nodes.next head s.contents t
  gone : ∀ r t, s.reading r = some t → ∀ x ∈ t.lost, x ∈ s.custody.gone r

section Inv

variable {head : A} {g : Grace.State C} {s : State C A}

omit [DecidableEq C] in
theorem inv_init (nodes : Nodes A) : Inv head g (init head nodes : State C A) where
  custody := Custody.inv_init _
  used x hx := by
    obtain rfl := List.mem_singleton.mp hx
    exact if_pos rfl
  nodup := List.nodup_singleton head
  forward := Function.update_self _ _ _
  updating := Function.update_self _ _ _
  inside r t h := nomatch h
  sound r t h := nomatch h
  gone r t h := nomatch h

omit [DecidableEq C] in
theorem Inv.lost_not_used (h : Inv head g s) {r : C} {t : Traversal A} (hr : s.reading r = some t)
    {x : A} (hx : x ∈ t.lost) : s.custody.phase x ≠ .used := by
  intro hu
  obtain ⟨k, hk | ⟨hk, -⟩⟩ := h.custody.ahead r x (h.gone r t hr x hx) <;> rw [hu] at hk <;> cases hk

omit [DecidableEq C] in
theorem Inv.pos_not_free (h : Inv head g s) {r : C} {t : Traversal A} (hr : s.reading r = some t) :
    s.custody.phase t.pos ≠ .free := by
  have hhead : s.custody.phase head ≠ .free := by
    rw [h.used head List.mem_cons_self]
    nofun
  cases hf : t.finished with
  | true =>
    rw [((h.sound r t hr).finished hf).1]
    exact hhead
  | false =>
    obtain ⟨hpos, rest, -, hc⟩ := (h.sound r t hr).running hf
    rw [hpos]
    rcases List.mem_cons.mp (last_mem head t.visited) with e | hv
    · rw [e]
      exact hhead
    · obtain hx | hx := hc.within _ (List.mem_append_left rest hv)
      · rw [h.used _ (List.mem_cons_of_mem head hx)]
        nofun
      · exact fun hfree => h.custody.not_gone hfree r (h.gone r t hr _ hx)

omit [DecidableEq C] in
theorem Inv.quiet (h : Inv head g s) {nodes : Nodes A} {u : Option (C × Op A × Nat)}
    (hn : ∀ x, x ∈ head :: s.contents ∨ s.custody.phase x ≠ .used → nodes.next x = s.nodes.next x)
    (hu : Updating head { s with nodes := nodes, updating := u }) :
    Inv head g { s with nodes := nodes, updating := u } := by
  refine ⟨h.custody, h.used, h.nodup, h.forward.congr fun x hx => hn x (.inl hx), hu, h.inside,
    fun r t hr => (h.sound r t hr).congr fun x hx => hn x ?_, h.gone⟩
  rcases hx with rfl | hx | hx
  · exact .inl List.mem_cons_self
  · exact .inl (List.mem_cons_of_mem head hx)
  · exact .inr (h.lost_not_used hr hx)

section edit

variable {op : Op A} {l₁ m m' l₂ : List A}

omit [DecidableEq C] in
theorem Inv.used_edit (h : Inv head g s) (he : Edit op s.contents l₁ m m' l₂)
    (hfresh : ∀ n ∈ m', n ∉ head :: s.contents ∧ s.custody.phase n = .used) :
    ∀ x ∈ head :: (l₁ ++ (m' ++ l₂)), x ∉ m ∧ s.custody.phase x = .used := by
  have hsplit := he.before
  have hnd := List.nodup_cons.mp h.nodup
  have hnd' := hnd.2
  rw [hsplit] at hnd'
  intro x hx
  have hcases : x = head ∨ x ∈ l₁ ∨ x ∈ m' ∨ x ∈ l₂ := by simpa using hx
  rcases hcases with rfl | hx | hx | hx
  · exact ⟨fun hm => hnd.1 (hsplit ▸ by simp [hm]), h.used x List.mem_cons_self⟩
  · refine ⟨fun hm => ?_, h.used x (by simp [hsplit, hx])⟩
    exact (List.nodup_append.mp hnd').2.2 x hx x (List.mem_append_left l₂ hm) rfl
  · exact ⟨fun hm => (hfresh x hx).1 (by simp [hsplit, hm]), (hfresh x hx).2⟩
  · refine ⟨fun hm => ?_, h.used x (by simp [hsplit, hx])⟩
    exact (List.nodup_append.mp (List.nodup_append.mp hnd').2.1).2.2 x hm x hx rfl

omit [DecidableEq C] in
theorem Inv.nodup_edit (h : Inv head g s) (he : Edit op s.contents l₁ m m' l₂)
    (hfresh : ∀ n ∈ m', n ∉ head :: s.contents ∧ s.custody.phase n = .used) (hm' : m'.Nodup) :
    (head :: (l₁ ++ (m' ++ l₂))).Nodup := by
  have hl : (head :: (l₁ ++ l₂)).Sublist (head :: s.contents) := by
    rw [he.before]
    exact .cons_cons head ((List.Sublist.refl l₁).append (List.sublist_append_right m l₂))
  exact nodup_exchange (h.nodup.sublist hl) hm' fun x hx hx' => (hfresh x hx).1 (hl.subset hx')

/-- What an edit takes out is retired, and every loop under way may still stand on it. -/
theorem Inv.custody_edit (h : Inv head g s) (he : Edit op s.contents l₁ m m' l₂) (k : C) :
    let custody := op.removed.elim s.custody (s.custody.retire (fun r => decide (r ∈ g.inside)) k)
    Custody.Inv g custody ∧ (∀ x, x ∉ m → custody.phase x = s.custody.phase x) ∧
      ∀ r x, x ∈ s.custody.gone r ∨ r ∈ g.inside ∧ x ∈ m → x ∈ custody.gone r := by
  have hrem := he.removed
  cases hop : op.removed with
  | none =>
    rw [hop] at hrem
    subst hrem
    exact ⟨h.custody, fun x _ => rfl, fun r x hx => hx.resolve_right (by simp)⟩
  | some e =>
    rw [hop] at hrem
    subst hrem
    have hused := h.used e (by simp [he.before])
    refine ⟨Custody.inv_retire h.custody hused, fun x hx => ?_, fun r x hx => ?_⟩
    · exact Function.update_of_ne (by simpa using hx) _ _
    · simp only [Option.elim_some, Custody.retire]
      split_ifs with hr
      · rcases hx with hx | ⟨-, hx⟩
        · exact Finset.mem_insert_of_mem hx
        · rw [show x = e by simpa using hx]
          exact Finset.mem_insert_self e _
      · exact hx.resolve_right fun hx => hr (decide_eq_true hx.1)

/-- The store that the loops see. -/
theorem Inv.publish (h : Inv head g s) {nodes : Nodes A} {u : Option (C × Op A × Nat)} {k : C}
    (he : Edit op s.contents l₁ m m' l₂)
    (hfresh : ∀ n ∈ m', n ∉ head :: s.contents ∧ s.custody.phase n = .used)
    (hn : ∀ x, x ≠ last head l₁ → nodes.next x = s.nodes.next x)
    (hlink : Path nodes.next (last head l₁) m' (first l₂ head))
    (hu : Updating head ({ s with nodes := nodes, updating := u }.publish
      (fun r => decide (r ∈ g.inside)) k op)) :
    Inv head g ({ s with nodes := nodes, updating := u }.publish
      (fun r => decide (r ∈ g.inside)) k op) := by
  have hkeep := h.used_edit he hfresh
  have hm' : m'.Nodup := by
    rw [← he.added]
    cases op.added <;> simp
  have hnodup := h.nodup_edit he hfresh hm'
  obtain ⟨hc, hphase, hgone⟩ := h.custody_edit he k
  have hreading : ∀ r t, ({ s with nodes := nodes, updating := u }.publish
      (fun r => decide (r ∈ g.inside)) k op).reading r = some t →
      ∃ t', s.reading r = some t' ∧ t = t'.publish op := by
    intro r t ht
    obtain ⟨t', ht', rfl⟩ := Option.map_eq_some_iff.mp ht
    exact ⟨t', ht', rfl⟩
  have hpath := h.forward
  rw [he.before] at hpath
  refine ⟨hc, fun x hx => ?_, ?_, ?_, hu, fun r t ht => ?_, fun r t ht => ?_, fun r t ht x hx => ?_⟩
  · have hx' : x ∈ head :: (l₁ ++ (m' ++ l₂)) := he.after ▸ hx
    exact (hphase x (hkeep x hx').1).trans (hkeep x hx').2
  · show (head :: op.apply s.contents).Nodup
    rw [he.after]
    exact hnodup
  · show Path nodes.next head (op.apply s.contents) head
    rw [he.after]
    refine hpath.exchange (hnodup.sublist (.cons_cons head ?_)) (fun x _ hx => hn x hx) hlink
    exact (List.Sublist.refl l₁).append (List.sublist_append_right m' l₂)
  · obtain ⟨t', ht', -⟩ := hreading r t ht
    exact h.inside r t' ht'
  · obtain ⟨t', ht', rfl⟩ := hreading r t ht
    refine (h.sound r t' ht').publish he h.nodup h.forward (fun x hx => ?_) hm' hn hlink
    refine ⟨fun hx' => (hfresh x hx).1 (List.mem_cons_of_mem head hx'), fun hx' => ?_⟩
    exact h.lost_not_used ht' hx' (hfresh x hx).2
  · obtain ⟨t', ht', rfl⟩ := hreading r t ht
    refine hgone r x ?_
    rcases List.mem_append.mp hx with hx | hx
    · exact .inl (h.gone r t' ht' x hx)
    · exact .inr ⟨h.inside r t' ht', he.removed ▸ hx⟩

end edit

omit [DecidableEq C] [DecidableEq A] in
theorem ne_new {n x : A} (hn : n ∉ head :: s.contents) (hused : s.custody.phase n = .used)
    (hx : x ∈ head :: s.contents ∨ s.custody.phase x ≠ .used) : x ≠ n := by
  rintro rfl
  exact hx.elim hn fun hx => hx hused

section store

variable {inside : C → Bool} {k : C} {op : Op A} {t : State C A} {i : Nat}

omit [DecidableEq C] in
theorem store_quiet (hs : s.store Nodes.setNext head inside k op i = some t)
    (hi : i ≠ op.publishes) :
    ∃ f, (op.stores Nodes.setNext head)[i]? = some f ∧ t = { s with
      nodes := f s.nodes
      updating :=
        if i + 1 < (op.stores Nodes.setNext head).length then some (k, op, i + 1) else none } := by
  obtain ⟨f, hf, ht⟩ := Option.map_eq_some_iff.mp hs
  refine ⟨f, hf, ?_⟩
  rw [← ht, if_neg hi]

omit [DecidableEq C] in
theorem store_publish (hs : s.store Nodes.setNext head inside k op op.publishes = some t) :
    ∃ f, (op.stores Nodes.setNext head)[op.publishes]? = some f ∧ t = State.publish inside { s with
      nodes := f s.nodes
      updating := if op.publishes + 1 < (op.stores Nodes.setNext head).length then
        some (k, op, op.publishes + 1) else none } k op := by
  obtain ⟨f, hf, ht⟩ := Option.map_eq_some_iff.mp hs
  refine ⟨f, hf, ?_⟩
  rw [← ht, if_pos rfl]

omit [DecidableEq C] in
theorem store_lt (hs : s.store Nodes.setNext head inside k op i = some t) :
    i < (op.stores Nodes.setNext head).length := by
  obtain ⟨f, hf, -⟩ := Option.map_eq_some_iff.mp hs
  exact (List.getElem?_eq_some_iff.mp hf).1

end store

section steps

variable {k : C} {t : State C A} {i : Nat}

theorem Inv.store_add {n : A} (h : Inv head g s) (hu : s.updating = some (k, .add n, i))
    (hs : s.store Nodes.setNext head (fun r => decide (r ∈ g.inside)) k (.add n) i = some t) :
    Inv head g t := by
  have hup := h.updating
  simp only [Updating, hu] at hup
  obtain ⟨⟨hn, hnext, hprev, hback⟩, hused⟩ := hup
  have hused' : s.custody.phase n = .used := hused n rfl
  have hne : ∀ x ∈ head :: s.contents, x ≠ n := fun x hx => ne_new hn hused' (.inl hx)
  match i with
  | 0 =>
    obtain ⟨f, hf, rfl⟩ := store_quiet hs (by simp [Op.publishes])
    cases hf
    refine h.quiet (fun x hx => Function.update_of_ne (ne_new hn hused' hx) _ _)
      ⟨⟨hn, fun _ => ?_, nofun, hback⟩, hused⟩
    exact (Function.update_self _ _ _).trans h.forward.first
  | 1 =>
    obtain ⟨f, hf, rfl⟩ := store_quiet hs (by simp [Op.publishes])
    cases hf
    refine h.quiet (fun x hx => rfl) ⟨⟨hn, fun _ => hnext Nat.one_pos, fun _ => ?_, ?_⟩, hused⟩
    · exact Function.update_self _ _ _
    · exact hback.congr fun x hx => Function.update_of_ne (hne x (by simpa using hx)) _ _
  | 2 =>
    obtain ⟨f, hf, rfl⟩ := store_quiet hs (by simp [Op.publishes])
    cases hf
    have hfirst : s.nodes.next head = first s.contents head := h.forward.first
    have hnf : n ≠ first s.contents head := (hne _ (first_mem head _)).symm
    have hprev' : (s.nodes.setPrev (s.nodes.next head) n).prev n = head :=
      (Function.update_of_ne (hfirst ▸ hnf) _ _).trans (hprev (by omega))
    refine h.quiet (fun x hx => rfl) ⟨⟨hn, fun _ => hnext (by omega), fun _ => hprev', ?_⟩, hused⟩
    refine Path.exchange_back [] [] [n] s.contents hback h.nodup
      (fun x _ hx => ?_) ⟨?_, hprev'⟩
    · exact Function.update_of_ne (hfirst ▸ hx) _ _
    · rw [← hfirst]
      exact Function.update_self _ _ _
  | 3 =>
    obtain ⟨f, hf, rfl⟩ := store_publish hs
    cases hf
    refine h.publish (edit_add n s.contents) (List.forall_mem_singleton.mpr ⟨hn, hused'⟩)
      (fun x hx => Function.update_of_ne hx _ _) ⟨Function.update_self _ _ _, ?_⟩ hback
    exact (Function.update_of_ne (hne head List.mem_cons_self).symm _ _).trans (hnext (by omega))
  | i + 4 => exact absurd (store_lt hs) (by simp [Op.stores, cdsListAddRcu])

theorem Inv.store_addTail {n : A} (h : Inv head g s) (hu : s.updating = some (k, .addTail n, i))
    (hs : s.store Nodes.setNext head (fun r => decide (r ∈ g.inside)) k (.addTail n) i = some t) :
    Inv head g t := by
  have hup := h.updating
  simp only [Updating, hu] at hup
  obtain ⟨hstage, hused⟩ := hup
  have hused' : s.custody.phase n = .used := hused n rfl
  match i with
  | 0 =>
    obtain ⟨f, hf, rfl⟩ := store_quiet hs (by simp [Op.publishes])
    cases hf
    obtain ⟨hn, -, -, hback⟩ := hstage
    exact h.quiet (fun x hx => Function.update_of_ne (ne_new hn hused' hx) _ _)
      ⟨⟨hn, fun _ => Function.update_self _ _ _, nofun, hback⟩, hused⟩
  | 1 =>
    obtain ⟨f, hf, rfl⟩ := store_quiet hs (by simp [Op.publishes])
    cases hf
    obtain ⟨hn, hnext, -, hback⟩ := hstage
    refine h.quiet (fun x hx => rfl) ⟨⟨hn, fun _ => hnext Nat.one_pos, fun _ => ?_, ?_⟩, hused⟩
    · exact (Function.update_self _ _ _).trans (hback.first.trans (first_reverse head s.contents))
    · refine hback.congr fun x hx => Function.update_of_ne (ne_new hn hused' (.inl ?_)) _ _
      simpa using hx
  | 2 =>
    obtain ⟨f, hf, rfl⟩ := store_publish hs
    cases hf
    obtain ⟨hn, hnext, hprev, hback⟩ := hstage
    have hlast : s.nodes.prev head = last head s.contents :=
      hback.first.trans (first_reverse head s.contents)
    have hnl : n ≠ last head s.contents := fun e => hn (e ▸ last_mem head s.contents)
    refine h.publish (edit_addTail n s.contents) (List.forall_mem_singleton.mpr ⟨hn, hused'⟩)
      (fun x hx => Function.update_of_ne (hlast ▸ hx) _ _) ⟨?_, ?_⟩
      ⟨⟨s.contents, rfl, hprev (by omega), hback⟩, hused⟩
    · rw [← hlast]
      exact Function.update_self _ _ _
    · exact (Function.update_of_ne (hlast ▸ hnl) _ _).trans (hnext (by omega))
  | 3 =>
    obtain ⟨f, hf, rfl⟩ := store_quiet hs (by simp [Op.publishes])
    cases hf
    obtain ⟨l, hl, hprev, hback⟩ := hstage
    have hnd := h.nodup
    rw [hl] at hnd
    have hnh : n ≠ head := by
      rintro rfl
      exact (List.nodup_cons.mp hnd).1 (by simp)
    refine h.quiet (fun x hx => rfl) ?_
    show Path _ head s.contents.reverse head
    rw [hl]
    have hlr : l.reverse = (l ++ ([] ++ [])).reverse := by simp
    rw [hlr] at hback
    refine Path.exchange_back l [] [n] [] hback (hnd.sublist ?_) (fun x _ hx => ?_)
      ⟨Function.update_self _ _ _, ?_⟩
    · exact .cons_cons head (by simp)
    · exact Function.update_of_ne hx _ _
    · exact (Function.update_of_ne hnh _ _).trans hprev
  | i + 4 => exact absurd (store_lt hs) (by simp [Op.stores, cdsListAddTailRcu])

theorem Inv.store_replace {old new : A} (h : Inv head g s)
    (hu : s.updating = some (k, .replace old new, i))
    (hs : s.store Nodes.setNext head (fun r => decide (r ∈ g.inside)) k (.replace old new) i =
      some t) :
    Inv head g t := by
  have hup := h.updating
  simp only [Updating, hu] at hup
  obtain ⟨⟨l₁, l₂, hstage⟩, hused⟩ := hup
  have hused' : s.custody.phase new = .used := hused new rfl
  match i with
  | 0 =>
    obtain ⟨f, hf, rfl⟩ := store_quiet hs (by simp [Op.publishes])
    cases hf
    obtain ⟨hl, hn, -, -, hback⟩ := hstage
    refine h.quiet (fun x hx => Function.update_of_ne (ne_new hn hused' hx) _ _)
      ⟨⟨l₁, l₂, hl, hn, fun _ => ?_, nofun, hback⟩, hused⟩
    have hf := h.forward
    rw [hl] at hf
    exact (Function.update_self _ _ _).trans hf.behind
  | 1 =>
    obtain ⟨f, hf, rfl⟩ := store_quiet hs (by simp [Op.publishes])
    cases hf
    obtain ⟨hl, hn, hnext, -, hback⟩ := hstage
    refine h.quiet (fun x hx => rfl)
      ⟨⟨l₁, l₂, hl, hn, fun _ => hnext Nat.one_pos, fun _ => ?_, ?_⟩, hused⟩
    · have hb := hback
      rw [hl] at hb
      exact (Function.update_self _ _ _).trans hb.behind_back
    · refine hback.congr fun x hx => Function.update_of_ne (ne_new hn hused' (.inl ?_)) _ _
      simpa using hx
  | 2 =>
    obtain ⟨f, hf, rfl⟩ := store_publish hs
    cases hf
    obtain ⟨hl, hn, hnext, hprev, hback⟩ := hstage
    have hprev' := hprev (by omega)
    have hnd := (List.nodup_cons.mp h.nodup).2
    rw [hl] at hnd hback
    have h₂ := (List.nodup_cons.mp (List.nodup_append.mp hnd).2.1).1
    have h₁ : old ∉ l₁ := fun hm =>
      (List.nodup_append.mp hnd).2.2 old hm old List.mem_cons_self rfl
    have he : Edit (.replace old new) s.contents l₁ [old] [new] l₂ := hl ▸ edit_replace h₁ h₂
    have hin : ∀ x ∈ l₁ ++ l₂, x ∈ s.contents := by
      intro x hx
      rw [hl]
      simp only [List.mem_append, List.mem_cons] at hx ⊢
      tauto
    have hnl : new ≠ last head l₁ := fun e =>
      hn (e ▸ last_mem_of_subset head fun x hx => hin x (List.mem_append_left l₂ hx))
    have hnf : new ≠ first l₂ head := fun e =>
      hn (e ▸ first_mem_of_subset head fun x hx => hin x (List.mem_append_right l₁ hx))
    have hnd' : (head :: (l₁ ++ l₂)).Nodup := by
      refine h.nodup.sublist (.cons_cons head ?_)
      rw [hl]
      exact (List.Sublist.refl l₁).append (List.sublist_cons_self old l₂)
    have hback' : Path (Function.update s.nodes.prev (first l₂ head) new) head
        (l₁ ++ new :: l₂).reverse head :=
      Path.exchange_back l₁ [old] [new] l₂ hback hnd'
        (fun x _ hx => Function.update_of_ne hx _ _)
        ⟨Function.update_self _ _ _, (Function.update_of_ne hnf _ _).trans hprev'⟩
    refine h.publish he (List.forall_mem_singleton.mpr ⟨hn, hused'⟩)
      (fun x hx => Function.update_of_ne (hprev' ▸ hx) _ _) ⟨?_, ?_⟩
      ⟨⟨l₁, l₂, he.after, ?_⟩, fun x hx => ?_⟩
    · rw [← hprev']
      exact Function.update_self _ _ _
    · exact (Function.update_of_ne (hprev' ▸ hnl) _ _).trans (hnext (by omega))
    · show Path _ head (Op.apply (.replace old new) s.contents).reverse head
      rw [he.after]
      exact hback'
    · obtain rfl : new = x := Option.some.inj hx
      refine (Function.update_of_ne ?_ _ _).trans hused'
      rintro rfl
      exact hn (by simp [hl])
  | 3 =>
    obtain ⟨f, hf, rfl⟩ := store_quiet hs (by simp [Op.publishes])
    cases hf
    obtain ⟨hl, hback⟩ := hstage
    have hf := h.forward
    rw [hl] at hf
    have hnext : s.nodes.next new = first l₂ head := hf.behind
    rw [← hnext] at hback
    exact h.quiet (fun x hx => rfl) hback
  | i + 4 => exact absurd (store_lt hs) (by simp [Op.stores, cdsListReplaceRcu])

theorem Inv.store_del {e : A} (h : Inv head g s) (hu : s.updating = some (k, .del e, i))
    (hs : s.store Nodes.setNext head (fun r => decide (r ∈ g.inside)) k (.del e) i = some t) :
    Inv head g t := by
  have hup := h.updating
  simp only [Updating, hu] at hup
  obtain ⟨⟨l₁, l₂, hl, hprev, hback⟩, hused⟩ := hup
  have hnd := h.nodup
  have hf := h.forward
  rw [hl] at hnd hf
  have hnext : s.nodes.next e = first l₂ head := hf.behind
  obtain ⟨hh, hnd'⟩ := List.nodup_cons.mp hnd
  match i with
  | 0 =>
    obtain ⟨f, hf, rfl⟩ := store_quiet hs (by simp [Op.publishes])
    cases hf
    have hef : e ≠ first l₂ head := by
      intro e'
      rcases List.mem_cons.mp (first_mem head l₂) with e'' | hm
      · exact hh (by rw [← e'', ← e']; simp)
      · exact (List.nodup_cons.mp (List.nodup_append.mp hnd').2.1).1 (e' ▸ hm)
    refine h.quiet (fun x hx => rfl) ⟨⟨l₁, l₂, hl, ?_, ?_⟩, hused⟩
    · exact (Function.update_of_ne (hnext ▸ hef) _ _).trans hprev
    · simp only [if_true] at hback
      rw [hl] at hback
      refine Path.exchange_back l₁ [e] [] l₂ hback (hnd.sublist ?_) (fun x _ hx => ?_) ?_
      · exact .cons_cons head ((List.Sublist.refl l₁).append (List.sublist_cons_self e l₂))
      · exact Function.update_of_ne (hnext ▸ hx) _ _
      · rw [List.reverse_nil, path_nil, ← hnext]
        exact (Function.update_self _ _ _).trans hprev
  | 1 =>
    obtain ⟨f, hf, rfl⟩ := store_publish hs
    cases hf
    have he₁ : e ∉ l₁ := fun hm =>
      (List.nodup_append.mp hnd').2.2 e hm e List.mem_cons_self rfl
    have he : Edit (.del e) s.contents l₁ [e] [] l₂ := hl ▸ edit_del he₁
    refine h.publish he (by simp) (fun x hx => Function.update_of_ne (hprev ▸ hx) _ _) ?_ ?_
    · rw [path_nil, ← hprev, ← hnext]
      exact Function.update_self _ _ _
    · show Path _ head (Op.apply (.del e) s.contents).reverse head
      rw [he.after]
      exact hback
  | i + 2 => exact absurd (store_lt hs) (by simp [Op.stores, cdsListDelRcu])

end steps

theorem Stage.congr {ns ns' : Nodes A} {contents : List A} {op : Op A} {i : Nat}
    (h : Stage ns head contents op i)
    (hn : ∀ x, x ∈ head :: contents ∨ op.added = some x → ns'.next x = ns.next x)
    (hp : ∀ x, x ∈ head :: contents ∨ op.added = some x → ns'.prev x = ns.prev x) :
    Stage ns' head contents op i := by
  have hpath : ∀ l, (∀ x ∈ l, x ∈ contents ∨ op.added = some x) → Path ns.prev head l head →
      Path ns'.prev head l head := fun l hl hb => hb.congr fun x hx => hp x <| by
    rcases List.mem_cons.mp hx with rfl | hx
    · exact .inl List.mem_cons_self
    · exact (hl x hx).imp_left (List.mem_cons_of_mem head)
  have hback : Path ns.prev head contents.reverse head → Path ns'.prev head contents.reverse head :=
    hpath _ fun x hx => .inl (List.mem_reverse.mp hx)
  cases op with
  | add n =>
    obtain ⟨hn', h0, h1, hb⟩ := h
    refine ⟨hn', fun hi => ?_, fun hi => ?_, hpath _ (fun x hx => ?_) hb⟩
    · exact (hn n (.inr rfl)).trans (h0 hi)
    · exact (hp n (.inr rfl)).trans (h1 hi)
    · split_ifs at hx
      · exact .inl (List.mem_reverse.mp hx)
      · rcases List.mem_cons.mp (List.mem_reverse.mp hx) with rfl | hx
        · exact .inr rfl
        · exact .inl hx
  | addTail n =>
    simp only [Stage] at h ⊢
    split_ifs at h ⊢ with hi
    · obtain ⟨hn', h0, h1, hb⟩ := h
      refine ⟨hn', fun hi => ?_, fun hi => ?_, hback hb⟩
      · exact (hn n (.inr rfl)).trans (h0 hi)
      · exact (hp n (.inr rfl)).trans (h1 hi)
    · obtain ⟨l, rfl, h1, hb⟩ := h
      refine ⟨l, rfl, (hp n (.inr rfl)).trans h1, hpath _ (fun x hx => .inl ?_) hb⟩
      exact List.mem_append_left [n] (List.mem_reverse.mp hx)
  | replace old new =>
    obtain ⟨l₁, l₂, h⟩ := h
    refine ⟨l₁, l₂, ?_⟩
    split_ifs at h ⊢ with hi
    · obtain ⟨hl, hn', h0, h1, hb⟩ := h
      refine ⟨hl, hn', fun hi => ?_, fun hi => ?_, hback hb⟩
      · exact (hn new (.inr rfl)).trans (h0 hi)
      · exact (hp new (.inr rfl)).trans (h1 hi)
    · refine ⟨h.1, h.2.congr fun x hx => ?_⟩
      simp only [Function.update_apply]
      split_ifs
      · rfl
      · exact hp x (.inl (by simpa using hx))
  | del e =>
    obtain ⟨l₁, l₂, rfl, h1, hb⟩ := h
    refine ⟨l₁, l₂, rfl, (hp e (.inl (by simp))).trans h1, hpath _ (fun x hx => .inl ?_) hb⟩
    split_ifs at hx
    · exact List.mem_reverse.mp hx
    · simp only [List.mem_reverse, List.mem_append, List.mem_cons] at hx ⊢
      tauto

omit [DecidableEq C] in
theorem Inv.write (h : Inv head g s) {a n p : A} (ha : s.custody.phase a = .free) :
    Inv head g { s with nodes := (s.nodes.setNext a n).setPrev a p } := by
  have hne : ∀ x, s.custody.phase x = .used → x ≠ a := by
    rintro x hx rfl
    rw [ha] at hx
    cases hx
  have hin : ∀ x ∈ head :: s.contents, x ≠ a := fun x hx => hne x (h.used x hx)
  have hnext : ∀ x, x ≠ a → ((s.nodes.setNext a n).setPrev a p).next x = s.nodes.next x :=
    fun x hx => Function.update_of_ne hx _ _
  have hprev : ∀ x, x ≠ a → ((s.nodes.setNext a n).setPrev a p).prev x = s.nodes.prev x :=
    fun x hx => Function.update_of_ne hx _ _
  refine ⟨h.custody, h.used, h.nodup, h.forward.congr fun x hx => hnext x (hin x hx), ?_, h.inside,
    fun r t hr => (h.sound r t hr).congr fun x hx => hnext x ?_, h.gone⟩
  · have hup := h.updating
    unfold Updating at hup ⊢
    cases hc : s.updating with
    | none =>
      simp only [hc] at hup ⊢
      exact hup.congr fun x hx => hprev x (hin x (by simpa using hx))
    | some c =>
      obtain ⟨k, op, i⟩ := c
      simp only [hc] at hup ⊢
      have hx : ∀ x, x ∈ head :: s.contents ∨ op.added = some x → x ≠ a := fun x hx =>
        hx.elim (hin x) fun hx => hne x (hup.2 x hx)
      exact ⟨hup.1.congr (fun x h => hnext x (hx x h)) fun x h => hprev x (hx x h), hup.2⟩
  · rcases hx with rfl | hx | hx
    · exact hin x List.mem_cons_self
    · exact hin x (List.mem_cons_of_mem head hx)
    · rintro rfl
      exact h.custody.not_gone ha r (h.gone r t hr x hx)

omit [DecidableEq C] in
theorem Updating.custody {s : State C A} (h : Updating head s) {u : Custody C A}
    (hused : ∀ x, s.custody.phase x = .used → u.phase x = .used) :
    Updating head { s with custody := u } := by
  unfold Updating at h ⊢
  cases hc : s.updating with
  | none => simpa only [hc] using h
  | some c =>
    obtain ⟨k, op, i⟩ := c
    simp only [hc] at h ⊢
    exact ⟨h.1, fun n hn => hused n (h.2 n hn)⟩

omit [DecidableEq C] in
theorem Inv.custodyChange (h : Inv head g s) {u : Custody C A} (hu : Custody.Inv g u)
    (hused : ∀ x, s.custody.phase x = .used → u.phase x = .used)
    (hgone : u.gone = s.custody.gone) : Inv head g { s with custody := u } :=
  ⟨hu, fun x hx => hused x (h.used x hx), h.nodup, h.forward, h.updating.custody hused, h.inside,
    h.sound, fun r t hr x hx => hgone ▸ h.gone r t hr x hx⟩

theorem Inv.update (h : Inv head g s) {k : C} {op : Op A} {u : Custody C A}
    (hnone : s.updating = none) (hu : claim s.custody s.contents op = some u) :
    Inv head g { s with updating := some (k, op, 0), custody := u } := by
  have hback : Path s.nodes.prev head s.contents.reverse head := by
    have hup := h.updating
    simpa only [Updating, hnone] using hup
  obtain ⟨hrem, hadd⟩ : (∀ e ∈ op.removed, e ∈ s.contents) ∧
      (op.added.elim (some s.custody) s.custody.take) = some u := by
    unfold claim at hu
    split_ifs at hu with hr
    exact ⟨hr, by cases ha : op.added <;> simpa [ha] using hu⟩
  have hclaimed : Inv head g { s with custody := u } ∧
      ∀ n ∈ op.added, n ∉ head :: s.contents ∧ u.phase n = .used := by
    cases ha : op.added with
    | none =>
      rw [ha] at hadd
      cases hadd
      exact ⟨h, fun n hn => nomatch hn⟩
    | some n =>
      rw [ha] at hadd
      have hinv := Custody.inv_take h.custody hadd
      obtain ⟨hfree, rfl⟩ := (when_eq_some _ _ _).mp hadd
      have hne : ∀ x, s.custody.phase x = .used → x ≠ n := by
        rintro x hx rfl
        rw [hfree] at hx
        cases hx
      refine ⟨h.custodyChange hinv (fun x hx => ?_) rfl, fun m hm => ?_⟩
      · exact (Function.update_of_ne (hne x hx) _ _).trans hx
      · obtain rfl : n = m := Option.some.inj hm
        exact ⟨fun hm => hne n (h.used n hm) rfl, Function.update_self _ _ _⟩
  obtain ⟨hinv, hnew⟩ := hclaimed
  refine hinv.quiet (fun x _ => rfl) ⟨?_, fun n hn => (hnew n hn).2⟩
  cases op with
  | add n => exact ⟨(hnew n rfl).1, nofun, nofun, hback⟩
  | addTail n => exact ⟨(hnew n rfl).1, nofun, nofun, hback⟩
  | replace old new =>
    obtain ⟨l₁, l₂, hl⟩ := List.append_of_mem (hrem old rfl)
    exact ⟨l₁, l₂, hl, (hnew new rfl).1, nofun, nofun, hback⟩
  | del e =>
    obtain ⟨l₁, l₂, hl⟩ := List.append_of_mem (hrem e rfl)
    have hb := hback
    rw [hl] at hb
    exact ⟨l₁, l₂, hl, hb.behind_back, hback⟩

theorem Inv.start (h : Inv head g s) {r : C} (hr : r ∈ g.inside) :
    Inv head g { s with
      reading := Function.update s.reading r (some ⟨head, false, [], s.contents, [], []⟩) } := by
  refine ⟨h.custody, h.used, h.nodup, h.forward, h.updating, fun j t hj => ?_, fun j t hj => ?_,
    fun j t hj => ?_⟩ <;> by_cases hjr : j = r
  · exact hjr ▸ hr
  · exact h.inside j t (by simpa [hjr] using hj)
  · simp only [hjr, Function.update_self, Option.some.injEq] at hj
    exact hj ▸ sound_start h.nodup h.forward
  · exact h.sound j t (by simpa [hjr] using hj)
  · simp only [hjr, Function.update_self, Option.some.injEq] at hj
    exact hj ▸ fun x hx => nomatch hx
  · exact h.gone j t (by simpa [hjr] using hj)

omit [DecidableEq C] in
theorem Traversal.next_lost (p : A) (t : Traversal A) : (t.next head p).lost = t.lost := by
  unfold Traversal.next
  split_ifs <;> rfl

theorem Inv.next (h : Inv head g s) {r : C} {t : Traversal A} (hr : s.reading r = some t)
    (hf : t.finished = false) :
    Inv head g { s with
      reading := Function.update s.reading r (some (t.next head (s.nodes.next t.pos))) } := by
  refine ⟨h.custody, h.used, h.nodup, h.forward, h.updating, fun j t' hj => ?_, fun j t' hj => ?_,
    fun j t' hj => ?_⟩ <;> by_cases hjr : j = r
  · exact hjr ▸ h.inside r t hr
  · exact h.inside j t' (by simpa [hjr] using hj)
  · simp only [hjr, Function.update_self, Option.some.injEq] at hj
    exact hj ▸ (h.sound r t hr).advance (List.nodup_cons.mp h.nodup).1 hf
  · exact h.sound j t' (by simpa [hjr] using hj)
  · simp only [hjr, Function.update_self, Option.some.injEq] at hj
    subst hj
    rw [Traversal.next_lost, hjr]
    exact h.gone r t hr
  · exact h.gone j t' (by simpa [hjr] using hj)

theorem Inv.hear (h : Inv head g s) {g' : Grace.State C} {e : Event C}
    (he : Grace.step g e = some g') : Inv head g' (hear s e) := by
  have hu : ∀ x, s.custody.phase x = .used → (s.custody.hear e).phase x = .used := by
    intro x hx
    simp [Custody.hear, Phase.hear, hx]
  have hr : ∀ r t, (RcuList.hear s e).reading r = some t →
      (e ≠ .enter r ∧ e ≠ .leave r) ∧ s.reading r = some t := by
    intro r t ht
    simp only [RcuList.hear] at ht
    split_ifs at ht with hcur
    exact ⟨not_or.mp hcur, ht⟩
  refine ⟨Custody.inv_hear h.custody he, fun x hx => hu x (h.used x hx), h.nodup, h.forward, ?_,
    fun r t ht => ?_, fun r t ht => h.sound r t (hr r t ht).2, fun r t ht x hx => ?_⟩
  · exact Updating.custody (s := { s with reading := (RcuList.hear s e).reading }) h.updating hu
  · obtain ⟨⟨-, hl⟩, ht⟩ := hr r t ht
    exact inside_of_step he (h.inside r t ht) hl
  · obtain ⟨⟨hne, hnl⟩, ht⟩ := hr r t ht
    have hcur : ¬ (e = .enter r ∨ e = .leave r) := not_or.mpr ⟨hne, hnl⟩
    simp only [RcuList.hear, Custody.hear, if_neg hcur]
    exact h.gone r t ht x hx

theorem Inv.act (h : Inv head g s) {a : Act C A} {t : State C A}
    (ha : act Nodes.setNext head (fun r => decide (r ∈ g.inside)) s a = some t) : Inv head g t := by
  cases a with
  | update k op =>
    unfold RcuList.act at ha
    split_ifs at ha with hnone
    obtain ⟨u, hu, rfl⟩ := Option.map_eq_some_iff.mp ha
    exact h.update hnone hu
  | store k =>
    obtain ⟨⟨j, op, i⟩, hu, hs⟩ := Option.bind_eq_some_iff.mp ha
    by_cases hj : j = k
    · subst hj
      simp only [if_true] at hs
      cases op with
      | add n => exact h.store_add hu hs
      | addTail n => exact h.store_addTail hu hs
      | replace old new => exact h.store_replace hu hs
      | del e => exact h.store_del hu hs
    · simp [hj] at hs
  | start r =>
    obtain ⟨hr, rfl⟩ := (when_eq_some _ _ _).mp ha
    exact h.start (of_decide_eq_true hr)
  | next r =>
    obtain ⟨t', ht', hs⟩ := Option.bind_eq_some_iff.mp ha
    obtain ⟨hf, rfl⟩ := (when_eq_some _ _ _).mp hs
    exact h.next ht' hf
  | write a n p =>
    obtain ⟨hf, rfl⟩ := (when_eq_some _ _ _).mp ha
    exact h.write hf
  | reclaim k a =>
    obtain ⟨u, hu, rfl⟩ := Option.map_eq_some_iff.mp ha
    refine h.custodyChange (Custody.inv_reclaim h.custody hu) (fun x hx => ?_) ?_ <;>
      obtain ⟨hp, rfl⟩ := (when_eq_some _ _ _).mp hu
    · refine (Function.update_of_ne ?_ _ _).trans hx
      rintro rfl
      rw [hp] at hx
      cases hx
    · rfl

theorem inv_step (p : Grace.State C × State C A) (x : Event C ⊕ Act C A)
    (q : Grace.State C × State C A) (h : Inv head p.1 p.2)
    (hq : (client Nodes.setNext head).step p x = some q) :
    Inv head q.1 q.2 := by
  cases x with
  | inl e =>
    obtain ⟨g', hg, rfl⟩ := Option.map_eq_some_iff.mp hq
    exact h.hear hg
  | inr a =>
    obtain ⟨l, hl, rfl⟩ := Option.map_eq_some_iff.mp hq
    exact h.act hl

end Inv

end LibCoro.RcuList
