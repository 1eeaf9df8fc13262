import LibCoro.RcuGrace
import LibCoro.MutexLock
import LibCoro.RcuPressure

namespace LibCoro.RcuPressure

open Machine Grace

variable {C A : Type} {M : Lock C}

def Pc.fresh : Pc A → Option A
  | .filling p _ | .locking p | .loaded p _ => some p
  | _ => none

def Pc.unwritten : Pc A → List Field
  | .filling _ rest => rest
  | _ => []

def Pc.Critical : Pc A → Prop
  | .idle | .filling _ _ | .locking _ => False
  | _ => True

def Pc.old (k : C) : Pc A → Option (A × Phase C)
  | .assigned q => some (q, .removed k)
  | .synchronizing q => some (q, .covered k)
  | .synchronized q => some (q, .passed k)
  | _ => none

def Complete (idx : C → Nat) (v₀ : Nat) (s : State M A) (p : A) (v : Nat) : Prop :=
  (v = v₀ ∨ ∃ k, v = idx k) ∧ ∀ f, s.foo p f = v

structure Inv (idx : C → Nat) (v₀ : Nat) (g : Grace.State C) (s : State M A) : Prop where
  custody : Custody.Inv g s.custody
  lock : M.Inv s.lock
  used : s.custody.phase s.gp = .used
  complete : ∃ v, Complete idx v₀ s s.gp v
  fresh : ∀ k p, (s.pc k).fresh = some p → s.custody.phase p = .used ∧ p ≠ s.gp
  distinct : ∀ j k p, (s.pc j).fresh = some p → (s.pc k).fresh = some p → j = k
  filled : ∀ k p, (s.pc k).fresh = some p → ∀ f ∉ (s.pc k).unwritten, s.foo p f = idx k
  critical : ∀ k, (s.pc k).Critical → M.status s.lock k = .holding
  loaded : ∀ k p q, s.pc k = .loaded p q → q = s.gp
  old : ∀ k q φ, (s.pc k).old k = some (q, φ) → s.custody.phase q = φ
  inside : ∀ r p vs, s.reading r = some (p, vs) → r ∈ g.inside
  reading : ∀ r p vs, s.reading r = some (p, vs) → (p = s.gp ∨ p ∈ s.custody.gone r) ∧
    ∃ v, Complete idx v₀ s p v ∧ ∀ x ∈ vs, x = v

variable [DecidableEq C] [DecidableEq A] {idx : C → Nat} {v₀ : Nat} {g : Grace.State C}
  {s t : State M A}

inductive Moves (idx : C → Nat) (inside : C → Bool) (s : State M A) : Act M A → State M A → Prop
  | new (k p u) : s.pc k = .idle → s.custody.take p = some u →
    Moves idx inside s (.new k p) { s.goto k (.filling p [.a, .b, .c]) with custody := u }
  | fill (k p f rest) : s.pc k = .filling p (f :: rest) →
    Moves idx inside s (.fill k) ((s.write p f (idx k)).goto k (.filling p rest))
  | coLock (k p l) : s.pc k = .filling p [] → M.coLock s.lock k = some l →
    Moves idx inside s (.coLock k) { s.goto k (.locking p) with lock := l }
  | move (m l) : M.move s.lock m = some l → Moves idx inside s (.move m) { s with lock := l }
  | load (k p) : s.pc k = .locking p → M.status s.lock k = .holding →
    Moves idx inside s (.load k) (s.goto k (.loaded p s.gp))
  | assign (k p q) : s.pc k = .loaded p q →
    Moves idx inside s (.assign k) ((s.assign inside k p q).goto k (.assigned q))
  | delete (k q) : s.pc k = .synchronized q →
    Moves idx inside s (.delete k) ((s.free q).goto k .deleted)
  | unlock (k l) : s.pc k = .deleted → M.unlock s.lock k = some l →
    Moves idx inside s (.unlock k) { s.goto k .idle with lock := l }
  | dereference (r) : inside r = true → Moves idx inside s (.dereference r)
    { s with reading := Function.update s.reading r (some (s.gp, [])) }
  | read (r p f vs) : s.reading r = some (p, vs) → Moves idx inside s (.read r f)
    { s with reading := Function.update s.reading r (some (p, vs ++ [s.foo p f])) }
  | reuse (p f v) : s.custody.phase p = .free → Moves idx inside s (.reuse p f v) (s.write p f v)

theorem moves_of_act {inside : C → Bool} {a : Act M A} (h : act idx inside s a = some t) :
    Moves idx inside s a t := by
  cases a with
  | new k p =>
    simp only [act] at h
    split_ifs at h with hk
    obtain ⟨u, hu, rfl⟩ := Option.map_eq_some_iff.mp h
    exact .new k p u hk hu
  | fill k =>
    simp only [act] at h
    split at h
    · rename_i p f rest hk
      exact Option.some.inj h ▸ .fill k p f rest hk
    · cases h
  | coLock k =>
    simp only [act] at h
    split at h
    · rename_i p hk
      obtain ⟨l, hl, rfl⟩ := Option.map_eq_some_iff.mp h
      exact .coLock k p l hk hl
    · cases h
  | move m =>
    obtain ⟨l, hl, rfl⟩ := Option.map_eq_some_iff.mp h
    exact .move m l hl
  | load k =>
    simp only [act] at h
    split at h
    · rename_i p hk
      obtain ⟨hs, rfl⟩ := (when_eq_some _ _ _).mp h
      exact .load k p hk hs
    · cases h
  | assign k =>
    simp only [act] at h
    split at h
    · rename_i p q hk
      exact Option.some.inj h ▸ .assign k p q hk
    · cases h
  | delete k =>
    simp only [act] at h
    split at h
    · rename_i q hk
      exact Option.some.inj h ▸ .delete k q hk
    · cases h
  | unlock k =>
    simp only [act] at h
    split_ifs at h with hk
    obtain ⟨l, hl, rfl⟩ := Option.map_eq_some_iff.mp h
    exact .unlock k l hk hl
  | dereference r =>
    obtain ⟨hr, rfl⟩ := (when_eq_some _ _ _).mp h
    exact .dereference r hr
  | read r f =>
    obtain ⟨⟨p, vs⟩, hr, rfl⟩ := Option.map_eq_some_iff.mp h
    exact .read r p f vs hr
  | reuse p f v =>
    obtain ⟨hp, rfl⟩ := (when_eq_some _ _ _).mp h
    exact .reuse p f v hp

omit [DecidableEq C] in
theorem inv_init (gp : A) (foo : A → Field → Nat) : Inv idx v₀ g (init M gp v₀ foo) where
  custody := Custody.inv_init _
  lock := M.inv_init
  used := if_pos rfl
  complete := ⟨v₀, .inl rfl, fun f => congrFun (Function.update_self gp _ foo) f⟩
  fresh _ _ h := nomatch h
  distinct _ _ _ h := nomatch h
  filled _ _ h := nomatch h
  critical _ h := h.elim
  loaded _ _ _ h := nomatch h
  old _ _ _ h := nomatch h
  inside _ _ _ h := nomatch h
  reading _ _ _ h := nomatch h

omit [DecidableEq C] [DecidableEq A] in
theorem Inv.gone_not_used (h : Inv idx v₀ g s) {r : C} {p : A} (hp : p ∈ s.custody.gone r) :
    s.custody.phase p ≠ .used := by
  intro hu
  obtain ⟨k, hk | ⟨hk, -⟩⟩ := h.custody.ahead r p hp <;> rw [hu] at hk <;> cases hk

omit [DecidableEq C] [DecidableEq A] in
theorem Inv.reading_ne (h : Inv idx v₀ g s) {r : C} {p x : A} {vs : List Nat}
    (hr : s.reading r = some (p, vs))
    (hx : (∃ k, (s.pc k).fresh = some x) ∨ s.custody.phase x = .free) : p ≠ x := by
  rintro rfl
  rcases (h.reading r p vs hr).1 with hp | hp
  · rcases hx with ⟨k, hk⟩ | hx
    · exact (h.fresh k p hk).2 hp
    · rw [hp, h.used] at hx
      cases hx
  · rcases hx with ⟨k, hk⟩ | hx
    · exact h.gone_not_used hp (h.fresh k p hk).1
    · exact h.custody.not_gone hx r hp

omit [DecidableEq C] in
theorem Inv.write (h : Inv idx v₀ g s) {p : A} {f : Field} {v : Nat}
    (hp : (∃ k, (s.pc k).fresh = some p ∧ f ∈ (s.pc k).unwritten) ∨ s.custody.phase p = .free) :
    Inv idx v₀ g (s.write p f v) := by
  have hne : ∀ x, x ≠ p → ∀ f', (s.write p f v).foo x f' = s.foo x f' := fun x hx f' =>
    congrFun (Function.update_of_ne hx _ _) f'
  have hgp : s.gp ≠ p := by
    rintro rfl
    rcases hp with ⟨k, hk, -⟩ | hp
    · exact (h.fresh k _ hk).2 rfl
    · rw [h.used] at hp
      cases hp
  have hcomplete : ∀ x v', x ≠ p → Complete idx v₀ s x v' → Complete idx v₀ (s.write p f v) x v' :=
    fun x v' hx hc => ⟨hc.1, fun f' => (hne x hx f').trans (hc.2 f')⟩
  refine ⟨h.custody, h.lock, h.used, ?_, h.fresh, h.distinct, fun k x hk f' hf' => ?_, h.critical,
    h.loaded, h.old, h.inside, fun r x vs hr => ?_⟩
  · obtain ⟨v', hv'⟩ := h.complete
    exact ⟨v', hcomplete s.gp v' hgp hv'⟩
  · have hfilled := h.filled k x hk f' hf'
    by_cases hx : x = p
    · subst hx
      rcases hp with ⟨j, hj, hf⟩ | hp
      · obtain rfl := h.distinct j k x hj hk
        have hff : f' ≠ f := fun e => hf' (e ▸ hf)
        simpa [State.write, hff] using hfilled
      · have hu := (h.fresh k x hk).1
        rw [hp] at hu
        cases hu
    · exact (hne x hx f').trans hfilled
  · obtain ⟨hx, v', hv', hvs⟩ := h.reading r x vs hr
    have hxp : x ≠ p := h.reading_ne hr (hp.imp_left fun ⟨k, hk, _⟩ => ⟨k, hk⟩)
    exact ⟨hx, v', hcomplete x v' hxp hv', hvs⟩

omit [DecidableEq A] in
theorem Inv.goto (h : Inv idx v₀ g s) {k : C} {c : Pc A} {l : M.State} (hl : M.Inv l)
    (hcritical : ∀ j, ((s.goto k c).pc j).Critical → M.status l j = .holding)
    (hfresh : ∀ p, c.fresh = some p → s.custody.phase p = .used ∧ p ≠ s.gp ∧
      (∀ j, j ≠ k → (s.pc j).fresh ≠ some p) ∧ ∀ f ∉ c.unwritten, s.foo p f = idx k)
    (hloaded : ∀ p q, c = .loaded p q → q = s.gp)
    (hold : ∀ q φ, c.old k = some (q, φ) → s.custody.phase q = φ) :
    Inv idx v₀ g { s.goto k c with lock := l } := by
  have hself : (s.goto k c).pc k = c := pc_goto s k c
  have hne : ∀ j, j ≠ k → (s.goto k c).pc j = s.pc j := fun j hj => pc_goto_ne s c hj
  refine ⟨h.custody, hl, h.used, h.complete, fun j p hj => ?_, fun i j p hi hj => ?_,
    fun j p hj => ?_, hcritical, fun j p q hj => ?_, fun j q φ hj => ?_, h.inside, h.reading⟩
  · by_cases hjk : j = k
    · rw [hjk, hself] at hj
      exact ⟨(hfresh p hj).1, (hfresh p hj).2.1⟩
    · rw [hne j hjk] at hj
      exact h.fresh j p hj
  · by_cases hik : i = k
    · by_cases hjk : j = k
      · rw [hik, hjk]
      · rw [hik, hself] at hi
        rw [hne j hjk] at hj
        exact absurd hj ((hfresh p hi).2.2.1 j hjk)
    · rw [hne i hik] at hi
      by_cases hjk : j = k
      · rw [hjk, hself] at hj
        exact absurd hi ((hfresh p hj).2.2.1 i hik)
      · rw [hne j hjk] at hj
        exact h.distinct i j p hi hj
  · by_cases hjk : j = k
    · rw [hjk, hself] at hj
      rw [hjk, hself]
      exact (hfresh p hj).2.2.2
    · rw [hne j hjk] at hj
      rw [hne j hjk]
      exact h.filled j p hj
  · by_cases hjk : j = k
    · rw [hjk, hself] at hj
      exact hloaded p q hj
    · rw [hne j hjk] at hj
      exact h.loaded j p q hj
  · by_cases hjk : j = k
    · rw [hjk, hself] at hj
      exact hold q φ hj
    · rw [hne j hjk] at hj
      exact h.old j q φ hj

omit [DecidableEq C] [DecidableEq A] in
theorem Inv.custodyChange (h : Inv idx v₀ g s) {u : Custody C A} (hu : Custody.Inv g u)
    (hused : ∀ x, s.custody.phase x = .used → u.phase x = .used)
    (hold : ∀ k q φ, (s.pc k).old k = some (q, φ) → u.phase q = φ)
    (hgone : u.gone = s.custody.gone) : Inv idx v₀ g { s with custody := u } :=
  ⟨hu, h.lock, hused _ h.used, h.complete, fun k p hk => ⟨hused p (h.fresh k p hk).1, (h.fresh k p hk).2⟩,
    h.distinct, h.filled, h.critical, h.loaded, hold, h.inside,
    fun r p vs hr => ⟨hgone ▸ (h.reading r p vs hr).1, (h.reading r p vs hr).2⟩⟩

omit [DecidableEq C] [DecidableEq A] in
theorem Inv.mine (h : Inv idx v₀ g s) {k : C} {p : A} (hp : (s.pc k).fresh = some p) :
    s.custody.phase p = .used ∧ p ≠ s.gp ∧ ∀ j, j ≠ k → (s.pc j).fresh ≠ some p :=
  ⟨(h.fresh k p hp).1, (h.fresh k p hp).2, fun j hj hjp => hj (h.distinct j k p hjp hp)⟩

omit [DecidableEq A] in
theorem Inv.critical_goto (h : Inv idx v₀ g s) {k : C} {c : Pc A} {l : M.State}
    (hc : c.Critical → M.status l k = .holding)
    (hl : ∀ j, j ≠ k → M.status s.lock j = .holding → M.status l j = .holding) (j : C)
    (hj : ((s.goto k c).pc j).Critical) : M.status l j = .holding := by
  by_cases hjk : j = k
  · subst hjk
    rw [pc_goto] at hj
    exact hc hj
  · rw [pc_goto_ne s c hjk] at hj
    exact hl j hjk (h.critical j hj)

theorem Inv.new (h : Inv idx v₀ g s) {k : C} {p : A} {u : Custody C A}
    (hu : s.custody.take p = some u) :
    Inv idx v₀ g { s.goto k (.filling p [.a, .b, .c]) with custody := u } := by
  have hinv := Custody.inv_take h.custody hu
  obtain ⟨hfree, rfl⟩ := (when_eq_some _ _ _).mp hu
  have hkeep : ∀ x φ, s.custody.phase x = φ → φ ≠ .free →
      Function.update s.custody.phase p .used x = φ := by
    intro x φ hx hφ
    refine (Function.update_of_ne ?_ _ _).trans hx
    rintro rfl
    exact hφ (hx.symm.trans hfree)
  have hold : ∀ j q φ, (s.pc j).old j = some (q, φ) → φ ≠ .free := by
    rintro j q φ hj rfl
    cases hpc : s.pc j <;> simp [hpc, Pc.old] at hj
  have hu' := h.custodyChange hinv (fun x hx => hkeep x _ hx (by simp))
    (fun j q φ hj => hkeep q φ (h.old j q φ hj) (hold j q φ hj)) rfl
  refine hu'.goto h.lock (h.critical_goto False.elim fun _ _ hj => hj) ?_ nofun nofun
  intro x hx
  obtain rfl := Option.some.inj hx
  refine ⟨Function.update_self _ _ _, ?_, fun j _ hjp => ?_, fun f hf => ?_⟩
  · intro e
    have hfree' : s.custody.phase s.gp = .free := e ▸ hfree
    rw [h.used] at hfree'
    cases hfree'
  · rw [(h.fresh j p hjp).1] at hfree
    cases hfree
  · cases f <;> simp [Pc.unwritten] at hf

theorem Inv.assign (h : Inv idx v₀ g s) {k : C} {p q : A} (hk : s.pc k = .loaded p q) :
    Inv idx v₀ g ((s.assign (fun r => decide (r ∈ g.inside)) k p q).goto k (.assigned q)) := by
  have hcrit : M.status s.lock k = .holding := h.critical k (by rw [hk]; trivial)
  -- nobody else is between its load and its unlock
  have halone : ∀ j, j ≠ k → ¬ (s.pc j).Critical := fun j hj hc =>
    hj (M.exclusive s.lock j k h.lock (.inl (h.critical j hc)) (.inl hcrit))
  obtain rfl := h.loaded k p q hk
  have hfresh : (s.pc k).fresh = some p := by rw [hk]; rfl
  obtain ⟨hu, hgp, hj⟩ := h.mine hfresh
  have hphase : ∀ x, x ≠ s.gp →
      Function.update s.custody.phase s.gp (.removed k) x = s.custody.phase x :=
    fun x hx => Function.update_of_ne hx _ _
  let u := s.assign (fun r => decide (r ∈ g.inside)) k p s.gp
  have hpc : ∀ j, j ≠ k → (u.goto k (.assigned s.gp)).pc j = s.pc j := fun j hj =>
    pc_goto_ne u _ hj
  have hothers : ∀ j x, ((u.goto k (.assigned s.gp)).pc j).fresh = some x →
      j ≠ k ∧ (s.pc j).fresh = some x := by
    intro j x hx
    have hjk : j ≠ k := by
      rintro rfl
      rw [pc_goto] at hx
      cases hx
    exact ⟨hjk, hpc j hjk ▸ hx⟩
  refine ⟨Custody.inv_retire h.custody h.used, h.lock, (hphase p hgp).trans hu, ?_,
    fun j x hx => ?_, fun i j x hi hj => ?_, fun j x hx f hf => ?_, fun j hc => ?_,
    fun j x y hx => ?_, fun j x φ hx => ?_, h.inside, fun r x vs hr => ?_⟩
  · refine ⟨idx k, .inr ⟨k, rfl⟩, fun f => h.filled k p hfresh f ?_⟩
    rw [hk]
    exact List.not_mem_nil
  · obtain ⟨hjk, hx'⟩ := hothers j x hx
    refine ⟨(hphase x (h.fresh j x hx').2).trans (h.fresh j x hx').1, fun e => ?_⟩
    exact hj j hjk (hx'.trans (congrArg some e))
  · exact h.distinct i j x (hothers i x hi).2 (hothers j x hj).2
  · obtain ⟨hjk, hx⟩ := hothers j x hx
    rw [hpc j hjk] at hf
    exact h.filled j x hx f hf
  · by_cases hjk : j = k
    · exact hjk ▸ hcrit
    · rw [hpc j hjk] at hc
      exact h.critical j hc
  · by_cases hjk : j = k
    · rw [hjk, pc_goto] at hx
      cases hx
    · rw [hpc j hjk] at hx
      exact (halone j hjk (by rw [hx]; trivial)).elim
  · by_cases hjk : j = k
    · rw [hjk, pc_goto] at hx
      cases hx
      exact Function.update_self _ _ _
    · rw [hpc j hjk] at hx
      refine (halone j hjk ?_).elim
      cases hpj : s.pc j <;> simp [hpj, Pc.old, Pc.Critical] at hx ⊢
  · obtain ⟨hx, hv⟩ := h.reading r x vs hr
    have hin := h.inside r x vs hr
    refine ⟨.inr ?_, hv⟩
    show x ∈ if decide (r ∈ g.inside) then insert s.gp (s.custody.gone r) else s.custody.gone r
    rw [if_pos (decide_eq_true hin)]
    exact hx.elim (fun hx => hx ▸ Finset.mem_insert_self _ _) Finset.mem_insert_of_mem

section hear

variable (k : C) (c : Pc A) (e : Event C)

omit [DecidableEq A]

@[simp] theorem fresh_hear : (c.hear k e).fresh = c.fresh := by
  unfold Pc.hear
  split <;> try split_ifs
  all_goals rfl

@[simp] theorem unwritten_hear : (c.hear k e).unwritten = c.unwritten := by
  unfold Pc.hear
  split <;> try split_ifs
  all_goals rfl

theorem critical_hear : (c.hear k e).Critical ↔ c.Critical := by
  unfold Pc.hear
  split <;> try split_ifs
  all_goals rfl

theorem loaded_hear (p q : A) : c.hear k e = .loaded p q ↔ c = .loaded p q := by
  unfold Pc.hear
  split <;> try split_ifs
  all_goals simp

theorem old_hear : (c.hear k e).old k = (c.old k).map fun (q, φ) => (q, φ.hear e) := by
  cases c <;> cases e <;> simp only [Pc.hear] <;> try split_ifs
  all_goals simp_all [Pc.old, Phase.hear]

end hear

omit [DecidableEq A] in
theorem Inv.hear (h : Inv idx v₀ g s) {g' : Grace.State C} {e : Event C}
    (he : Grace.step g e = some g') : Inv idx v₀ g' (hear s e) := by
  have hr : ∀ r x, (RcuPressure.hear s e).reading r = some x →
      (e ≠ .enter r ∧ e ≠ .leave r) ∧ s.reading r = some x := by
    intro r x hx
    simp only [RcuPressure.hear] at hx
    split_ifs at hx with hcur
    exact ⟨not_or.mp hcur, hx⟩
  have hused : ∀ x, s.custody.phase x = .used → (s.custody.hear e).phase x = .used := by
    intro x hx
    simp [Custody.hear, Phase.hear, hx]
  refine ⟨Custody.inv_hear h.custody he, h.lock, hused _ h.used, h.complete, fun k p hk => ?_,
    fun j k p hj hk => ?_, fun k p hk f hf => ?_, fun k hk => ?_, fun k p q hk => ?_,
    fun k q φ hk => ?_, fun r p vs hx => ?_, fun r p vs hx => ?_⟩
  · obtain ⟨hu, hgp⟩ := h.fresh k p ((fresh_hear k _ e).symm.trans hk)
    exact ⟨hused p hu, hgp⟩
  · exact h.distinct j k p ((fresh_hear j _ e).symm.trans hj) ((fresh_hear k _ e).symm.trans hk)
  · exact h.filled k p ((fresh_hear k _ e).symm.trans hk) f (by rwa [← unwritten_hear k _ e])
  · exact h.critical k ((critical_hear k _ e).mp hk)
  · exact h.loaded k p q ((loaded_hear k _ e p q).mp hk)
  · obtain ⟨⟨x, ψ⟩, hx, hxe⟩ := Option.map_eq_some_iff.mp ((old_hear k _ e).symm.trans hk)
    cases hxe
    exact congrArg (·.hear e) (h.old k q ψ hx)
  · obtain ⟨⟨-, hl⟩, hx⟩ := hr r _ hx
    exact inside_of_step he (h.inside r p vs hx) hl
  · obtain ⟨⟨hne, hnl⟩, hx⟩ := hr r _ hx
    have hcur : ¬ (e = .enter r ∨ e = .leave r) := not_or.mpr ⟨hne, hnl⟩
    obtain ⟨hp, hv⟩ := h.reading r p vs hx
    refine ⟨hp.imp_right fun hp => ?_, hv⟩
    simp only [RcuPressure.hear, Custody.hear, if_neg hcur]
    exact hp

theorem Inv.moves (h : Inv idx v₀ g s) {a : Act M A}
    (hm : Moves idx (fun r => decide (r ∈ g.inside)) s a t) : Inv idx v₀ g t := by
  cases hm with
  | new k p u hk hu => exact h.new hu
  | fill k p f rest hk =>
    have hfresh : (s.pc k).fresh = some p := by rw [hk]; rfl
    have hw := h.write (p := p) (f := f) (v := idx k) (.inl ⟨k, hfresh, by simp [hk, Pc.unwritten]⟩)
    refine hw.goto h.lock (hw.critical_goto False.elim fun _ _ hj => hj) (fun x hx => ?_) nofun nofun
    obtain rfl := Option.some.inj hx
    obtain ⟨hu, hgp, hj⟩ := h.mine hfresh
    refine ⟨hu, hgp, hj, fun f' hf' => ?_⟩
    by_cases hff : f' = f
    · simp [State.write, hff]
    · refine hw.filled k p hfresh f' ?_
      rw [show (s.write p f (idx k)).pc k = .filling p (f :: rest) from hk]
      exact fun hm => (List.mem_cons.mp hm).elim hff hf'
  | coLock k p l hk hl =>
    have hfresh : (s.pc k).fresh = some p := by rw [hk]; rfl
    obtain ⟨hu, hgp, hj⟩ := h.mine hfresh
    refine h.goto (M.inv_coLock _ _ _ h.lock hl) (h.critical_goto False.elim fun j hj hs => ?_)
      (fun x hx => ?_) nofun nofun
    · exact ((M.coLock_status _ _ _ hl).2.2 j hj).trans hs
    · obtain rfl := Option.some.inj hx
      refine ⟨hu, hgp, hj, fun f hf => h.filled k p hfresh f ?_⟩
      rw [hk]
      exact List.not_mem_nil
  | move m l hl =>
    refine ⟨h.custody, M.inv_move _ _ _ h.lock hl, h.used, h.complete, h.fresh, h.distinct, h.filled,
      fun k hk => ?_, h.loaded, h.old, h.inside, h.reading⟩
    have hs := h.critical k hk
    rcases M.move_status _ _ _ h.lock hl k with he | ⟨he, -⟩ | ⟨he, -⟩
    · exact he.trans hs
    · rw [hs] at he
      cases he
    · rw [hs] at he
      cases he
  | load k p hk hs =>
    have hfresh : (s.pc k).fresh = some p := by rw [hk]; rfl
    obtain ⟨hu, hgp, hj⟩ := h.mine hfresh
    refine h.goto h.lock (h.critical_goto (fun _ => hs) fun _ _ hj => hj) (fun x hx => ?_)
      (fun x q hx => ?_) nofun
    · obtain rfl := Option.some.inj hx
      refine ⟨hu, hgp, hj, fun f hf => h.filled k p hfresh f ?_⟩
      rw [hk]
      exact List.not_mem_nil
    · cases hx
      rfl
  | assign k p q hk => exact h.assign hk
  | delete k q hk =>
    have hs : M.status s.lock k = .holding := h.critical k (by rw [hk]; trivial)
    have hq : s.custody.phase q = .passed k := h.old k q _ (by rw [hk]; rfl)
    have hg := h.goto (k := k) (c := .deleted) h.lock
      (h.critical_goto (fun _ => hs) fun _ _ hj => hj) nofun nofun nofun
    have hrec : s.custody.reclaim k q =
        some { s.custody with phase := Function.update s.custody.phase q .free } :=
      (when_eq_some _ _ _).mpr ⟨hq, rfl⟩
    refine hg.custodyChange (Custody.inv_reclaim h.custody hrec) (fun x hx => ?_)
      (fun j x φ hj => ?_) rfl
    · refine (Function.update_of_ne ?_ _ _).trans hx
      rintro rfl
      cases hq.symm.trans hx
    · by_cases hjk : j = k
      · rw [hjk, pc_goto] at hj
        cases hj
      · have hx := hg.old j x φ hj
        refine (Function.update_of_ne ?_ _ _).trans hx
        rintro rfl
        obtain rfl : φ = .passed k := hx.symm.trans hq
        rw [pc_goto_ne s _ hjk] at hj
        cases hpc : s.pc j <;> simp [hpc, Pc.old] at hj
        exact hjk hj.2
  | unlock k l hk hl =>
    refine h.goto (M.inv_unlock _ _ _ h.lock hl) (h.critical_goto False.elim fun j hj hs => ?_)
      nofun nofun nofun
    exact ((M.unlock_status _ _ _ hl).2.2 j hj).trans hs
  | dereference r hr =>
    refine ⟨h.custody, h.lock, h.used, h.complete, h.fresh, h.distinct, h.filled, h.critical, h.loaded,
      h.old, fun j p vs hj => ?_, fun j p vs hj => ?_⟩ <;> by_cases hjr : j = r
    · exact hjr ▸ of_decide_eq_true hr
    · exact h.inside j p vs (by simpa [hjr] using hj)
    · simp only [hjr, Function.update_self, Option.some.injEq, Prod.mk.injEq] at hj
      obtain ⟨rfl, rfl⟩ := hj
      obtain ⟨v, hv⟩ := h.complete
      exact ⟨.inl rfl, v, hv, fun x hx => nomatch hx⟩
    · exact h.reading j p vs (by simpa [hjr] using hj)
  | read r p f vs hr =>
    refine ⟨h.custody, h.lock, h.used, h.complete, h.fresh, h.distinct, h.filled, h.critical, h.loaded,
      h.old, fun j p' vs' hj => ?_, fun j p' vs' hj => ?_⟩ <;> by_cases hjr : j = r
    · exact hjr ▸ h.inside r p vs hr
    · exact h.inside j p' vs' (by simpa [hjr] using hj)
    · simp only [hjr, Function.update_self, Option.some.injEq, Prod.mk.injEq] at hj
      obtain ⟨rfl, rfl⟩ := hj
      obtain ⟨hp, v, hv, hvs⟩ := h.reading r p vs hr
      refine ⟨hjr ▸ hp, v, hv, fun x hx => ?_⟩
      rcases List.mem_append.mp hx with hx | hx
      · exact hvs x hx
      · rw [List.mem_singleton.mp hx]
        exact hv.2 f
    · exact h.reading j p' vs' (by simpa [hjr] using hj)
  | reuse p f v hp => exact h.write (.inr hp)

def Pc.holds : Pc A → Option A
  | .filling p _ | .locking p | .loaded p _ => some p
  | .assigned q | .synchronizing q | .synchronized q => some q
  | .idle | .deleted => none

/-- No object is lost: what is not free is `gp` or in the hands of a writer. -/
def Owned (s : State M A) : Prop :=
  ∀ x, s.custody.phase x ≠ .free → x = s.gp ∨ ∃ k, (s.pc k).holds = some x

omit [DecidableEq A] in
theorem Owned.goto (h : Owned s) {k : C} {c : Pc A} (hc : ∀ x, (s.pc k).holds = some x → c.holds = some x) :
    Owned (s.goto k c) := by
  intro x hx
  refine (h x hx).imp_right fun ⟨j, hj⟩ => ⟨j, ?_⟩
  by_cases hjk : j = k
  · subst hjk
    rw [pc_goto]
    exact hc x hj
  · rw [pc_goto_ne s c hjk]
    exact hj

theorem Inv.owned_moves {inside : C → Bool} (h : Inv idx v₀ g s) (ho : Owned s) {a : Act M A}
    (hm : Moves idx inside s a t) : Owned t := by
  cases hm with
  | new k p u hk hu =>
    obtain ⟨-, rfl⟩ := (when_eq_some _ _ _).mp hu
    intro x hx
    by_cases hxp : x = p
    · exact .inr ⟨k, by rw [hxp]; exact congrArg Pc.holds (pc_goto s k _)⟩
    · have hx' : s.custody.phase x ≠ .free := by
        rwa [← Function.update_of_ne hxp Phase.used s.custody.phase]
      exact ho.goto (k := k) (c := .filling p [.a, .b, .c]) (by simp [hk, Pc.holds]) x hx'
  | fill k p f rest hk =>
    have hw : Owned (s.write p f (idx k)) := ho
    exact hw.goto fun x hx => by
      rw [show (s.write p f (idx k)).pc k = .filling p (f :: rest) from hk] at hx
      exact hx
  | coLock k p l hk hl => exact ho.goto (c := .locking p) fun x hx => by rwa [hk] at hx
  | load k p hk hs => exact ho.goto fun x hx => by rwa [hk] at hx
  | unlock k l hk hl => exact ho.goto (c := .idle) fun x hx => by rwa [hk] at hx
  | assign k p q hk =>
    obtain rfl := h.loaded k p q hk
    intro x hx
    by_cases hxq : x = s.gp
    · exact .inr ⟨k, by rw [hxq]; exact congrArg Pc.holds (pc_goto _ k _)⟩
    · have hx' : s.custody.phase x ≠ .free := by
        rwa [← Function.update_of_ne hxq (Phase.removed k) s.custody.phase]
      obtain ⟨j, hj⟩ := (ho x hx').resolve_left hxq
      by_cases hjk : j = k
      · rw [hjk, hk] at hj
        exact .inl (Option.some.inj hj).symm
      · exact .inr ⟨j, (congrArg Pc.holds (pc_goto_ne _ _ hjk)).trans hj⟩
  | delete k q hk =>
    intro x hx
    have hxq : x ≠ q := by
      rintro rfl
      exact hx (Function.update_self _ _ _)
    have hx' : s.custody.phase x ≠ .free := by
      rwa [← Function.update_of_ne hxq Phase.free s.custody.phase]
    refine (ho x hx').imp_right fun ⟨j, hj⟩ => ⟨j, ?_⟩
    have hjk : j ≠ k := by
      rintro rfl
      rw [hk] at hj
      exact hxq (Option.some.inj hj).symm
    exact (congrArg Pc.holds (pc_goto_ne _ _ hjk)).trans hj
  | move | dereference | read | reuse => exact ho

omit [DecidableEq A] in
theorem holds_hear (k : C) (c : Pc A) (e : Event C) : (c.hear k e).holds = c.holds := by
  unfold Pc.hear
  split <;> try split_ifs
  all_goals rfl

omit [DecidableEq A] in
theorem owned_hear (ho : Owned s) (e : Event C) : Owned (hear s e) := by
  intro x hx
  have hx' : s.custody.phase x ≠ .free := by
    intro hf
    exact hx (congrArg (·.hear e) hf)
  exact (ho x hx').imp_right fun ⟨k, hk⟩ => ⟨k, (holds_hear k (s.pc k) e).trans hk⟩

theorem inv_step (p q : Grace.State C × State M A) (x : Event C ⊕ Act M A)
    (h : Inv idx v₀ p.1 p.2 ∧ Owned p.2) (hq : (client M idx).step p x = some q) :
    Inv idx v₀ q.1 q.2 ∧ Owned q.2 := by
  cases x with
  | inl e =>
    obtain ⟨g', hg, rfl⟩ := Option.map_eq_some_iff.mp hq
    exact ⟨h.1.hear hg, owned_hear h.2 e⟩
  | inr a =>
    obtain ⟨t, ht, rfl⟩ := Option.map_eq_some_iff.mp hq
    exact ⟨h.1.moves (moves_of_act ht), h.1.owned_moves h.2 (moves_of_act ht)⟩

theorem inv_run {n : Nat} {heads : Rcu.Addr → Rcu.RcuHead} {pointers : Rcu.Addr → Rcu.Addr}
    {gp : A} {foo : A → Field → Nat} {xs : List (Rcu.Act C ⊕ Act M A)}
    {p : Rcu.State C × State M A}
    (h : run (Rcu.withClient n (client M idx)) (Rcu.init heads pointers, init M gp v₀ foo) xs = some p)
    (hd : Meets (Rcu.step n) Rcu.Disciplined (Rcu.init heads pointers) (Rcu.rcuActs xs))
    (ht : Rcu.tickets (Rcu.rcuActs xs) < 2 ^ 64) : ∃ g, Inv idx v₀ g p.2 ∧ Owned p.2 := by
  obtain ⟨g, hg, -⟩ := Rcu.client_run h hd ht
  refine ⟨g, run_invariant (fun p => Inv idx v₀ p.1 p.2 ∧ Owned p.2)
    (fun p x q hp hq => inv_step p q x hp hq) hg ⟨inv_init gp foo, fun x hx => .inl ?_⟩⟩
  by_contra hne
  exact hx (if_neg hne)

/-- Readers never come to an object that was deleted, and all that they read of one, before and
after it is replaced, is the value of one writer. -/
theorem readers_read_one_value (n : Nat) (M : Lock C) (idx : C → Nat) (v₀ : Nat)
    (heads : Rcu.Addr → Rcu.RcuHead) (pointers : Rcu.Addr → Rcu.Addr) (gp : A)
    (foo : A → Field → Nat) (xs : List (Rcu.Act C ⊕ Act M A)) (p : Rcu.State C × State M A) (r : C)
    (x : A) (vs : List Nat)
    (h : run (Rcu.withClient n (client M idx)) (Rcu.init heads pointers, init M gp v₀ foo) xs = some p)
    (hd : Meets (Rcu.step n) Rcu.Disciplined (Rcu.init heads pointers) (Rcu.rcuActs xs))
    (ht : Rcu.tickets (Rcu.rcuActs xs) < 2 ^ 64) (hr : p.2.reading r = some (x, vs)) :
    p.2.custody.phase x ≠ .free ∧
      ∃ v, (v = v₀ ∨ ∃ k, v = idx k) ∧ (∀ f, p.2.foo x f = v) ∧ ∀ y ∈ vs, y = v := by
  obtain ⟨g, hi, -⟩ := inv_run h hd ht
  obtain ⟨-, v, hv, hvs⟩ := hi.reading r x vs hr
  exact ⟨fun hf => hi.reading_ne hr (.inr hf) rfl, v, hv.1, hv.2, hvs⟩

theorem readers_read_one_value_assign :
    ∃ p : Rcu.State (Fin 2) × State (mutex : Lock (Fin 2)) (Fin 8),
    run (Rcu.withClient 2 (client mutex fun k => k.val + 7))
      (Rcu.init (fun _ => ⟨none, 0, 0⟩) id, init mutex 3 99 fun _ _ => 0)
      [.inl (.resume 0 0), .inl (.readLock 0), .inl (.advance 0), .inl (.advance 0),
        .inr (.dereference 0), .inr (.read 0 .a), .inl (.resume 1 1), .inr (.new 1 5), .inr (.fill 1),
        .inr (.fill 1), .inr (.fill 1), .inr (.coLock 1), .inr (.load 1), .inr (.assign 1),
        .inl (.synchronize 1), .inr (.read 0 .b)] = some p ∧
      p.2.gp = 5 ∧ p.2.reading 0 = some (3, [99, 99]) ∧ p.2.custody.phase 3 ≠ .free :=
  ⟨_, rfl, rfl, rfl, (readers_read_one_value 2 mutex (fun k => k.val + 7) 99
    (fun _ => ⟨none, 0, 0⟩) id 3 (fun _ _ => 0)
    [.inl (.resume 0 0), .inl (.readLock 0), .inl (.advance 0), .inl (.advance 0),
      .inr (.dereference 0), .inr (.read 0 .a), .inl (.resume 1 1), .inr (.new 1 5), .inr (.fill 1),
      .inr (.fill 1), .inr (.fill 1), .inr (.coLock 1), .inr (.load 1), .inr (.assign 1),
      .inl (.synchronize 1), .inr (.read 0 .b)]
    _ 0 3 [99, 99] rfl (by decide) (by decide) rfl).1⟩

/-- `gp` is always a whole object; what a writer deletes is allocated, is not `gp`, and neither a
reader nor another writer has it; and nothing else is allocated when no writer is at work. -/
theorem writers_delete_once (n : Nat) (M : Lock C) (idx : C → Nat) (v₀ : Nat)
    (heads : Rcu.Addr → Rcu.RcuHead) (pointers : Rcu.Addr → Rcu.Addr) (gp : A)
    (foo : A → Field → Nat) (xs : List (Rcu.Act C ⊕ Act M A)) (p : Rcu.State C × State M A)
    (h : run (Rcu.withClient n (client M idx)) (Rcu.init heads pointers, init M gp v₀ foo) xs = some p)
    (hd : Meets (Rcu.step n) Rcu.Disciplined (Rcu.init heads pointers) (Rcu.rcuActs xs))
    (ht : Rcu.tickets (Rcu.rcuActs xs) < 2 ^ 64) :
    (p.2.custody.phase p.2.gp ≠ .free ∧
        ∃ v, (v = v₀ ∨ ∃ k, v = idx k) ∧ ∀ f, p.2.foo p.2.gp f = v) ∧
      (∀ k q, p.2.pc k = .synchronized q → p.2.custody.phase q ≠ .free ∧ q ≠ p.2.gp ∧
        (∀ r vs, p.2.reading r ≠ some (q, vs)) ∧ ∀ j, j ≠ k → (p.2.pc j).holds ≠ some q) ∧
      ((∀ k, (p.2.pc k).holds = none) → ∀ x, p.2.custody.phase x ≠ .free ↔ x = p.2.gp) := by
  obtain ⟨g, hi, ho⟩ := inv_run h hd ht
  have hgp : p.2.custody.phase p.2.gp ≠ .free := by
    rw [hi.used]
    nofun
  refine ⟨⟨hgp, hi.complete⟩, fun k q hk => ?_, fun hnone x => ⟨fun hx => ?_, fun hx => hx ▸ hgp⟩⟩
  · have hq : p.2.custody.phase q = .passed k := hi.old k q _ (by rw [hk]; rfl)
    have hu : p.2.custody.phase q ≠ .used := by
      rw [hq]
      nofun
    refine ⟨by rw [hq]; nofun, fun e => hu (e ▸ hi.used), fun r vs hr => ?_, fun j hjk hj => ?_⟩
    · rcases (hi.reading r q vs hr).1 with e | hg
      · exact hu (e ▸ hi.used)
      · obtain ⟨i, hi' | ⟨hi', -⟩⟩ := hi.custody.ahead r q hg <;> rw [hq] at hi' <;> cases hi'
    · have hcrit : (p.2.pc j).Critical ∨ (p.2.pc j).fresh = some q := by
        cases hpc : p.2.pc j <;> simp [hpc, Pc.holds, Pc.Critical, Pc.fresh] at hj ⊢ <;> exact hj
      rcases hcrit with hc | hf
      · refine hjk (M.exclusive _ j k hi.lock (.inl (hi.critical j hc)) (.inl (hi.critical k ?_)))
        rw [hk]
        trivial
      · exact hu (hi.fresh j q hf).1
  · exact (ho x hx).resolve_right fun ⟨k, hk⟩ => by rw [hnone k] at hk; cases hk

theorem writers_delete_once_offline :
    ∃ p : Rcu.State (Fin 2) × State (mutex : Lock (Fin 2)) (Fin 8),
    run (Rcu.withClient 2 (client mutex fun k => k.val + 7))
      (Rcu.init (fun _ => ⟨none, 0, 0⟩) id, init mutex 3 99 fun _ _ => 0)
      [.inl (.resume 0 0), .inl (.readLock 0), .inl (.advance 0), .inl (.advance 0),
        .inr (.dereference 0), .inl (.resume 1 1), .inr (.new 1 5), .inr (.fill 1), .inr (.fill 1),
        .inr (.fill 1), .inr (.coLock 1), .inr (.load 1), .inr (.assign 1), .inl (.synchronize 1),
        .inl (.readUnlock 0), .inl (.suspend 0), .inl (.offline 0), .inl (.advance 1),
        .inl (.advance 1), .inl (.advance 1)] = some p ∧
      p.2.pc 1 = .synchronized 3 ∧ p.2.custody.phase 3 ≠ .free :=
  ⟨_, rfl, rfl, ((writers_delete_once 2 mutex (fun k => k.val + 7) 99
    (fun _ => ⟨none, 0, 0⟩) id 3 (fun _ _ => 0)
    [.inl (.resume 0 0), .inl (.readLock 0), .inl (.advance 0), .inl (.advance 0),
      .inr (.dereference 0), .inl (.resume 1 1), .inr (.new 1 5), .inr (.fill 1), .inr (.fill 1),
      .inr (.fill 1), .inr (.coLock 1), .inr (.load 1), .inr (.assign 1), .inl (.synchronize 1),
      .inl (.readUnlock 0), .inl (.suspend 0), .inl (.offline 0), .inl (.advance 1),
      .inl (.advance 1), .inl (.advance 1)]
    _ rfl (by decide) (by decide)).2.1 1 3 rfl).1⟩

end LibCoro.RcuPressure
