import LibCoro.GracePeriod
import LibCoro.Grace

namespace LibCoro.Rcu

open Machine

variable {C : Type} [DecidableEq C]

/-- What a step means for the grace periods: a section opens where `rcu_read_lock` returns, and a
grace period lasts from the ticket to the return of `synchronize_rcu`. -/
def grace (n : Nat) (s : State C) : Act C → Option (Grace.Event C)
  | .readLock k => (s.core k).bind fun c => if s.rcuCount c + 1 = 1024 then none else some (.enter k)
  | .readUnlock k => if s.depth k = 1 then some (.leave k) else none
  | .synchronize k => some (.begin k)
  | .advance k =>
    match s.pc k with
    | .lockCompare global_version =>
      (s.core k).bind fun c => if global_version = s.versions c then some (.enter k) else none
    | .lockStore _ => some (.enter k)
    | .sync _ _ i => if i < n then none else some (.finish k)
    | _ => none
  | _ => none

def Pc.Syncing : Pc → Prop
  | .sync _ _ _ | .syncYield _ _ _ | .syncYielded _ _ _ _ => True
  | _ => False

/-- `k` cannot return from `synchronize_rcu` before the section of `r` has ended. -/
def Awaits (s : State C) (k r : C) : Prop :=
  0 < s.depth r ∧ ∃ c v, s.top r = some c ∧ s.versions c < v ∧ Polls k c v s

structure Refines (n : Nat) (s : State C) (g : Grace.State C) : Prop where
  inv : Inv s
  placed : Placed n s
  shallow : ∀ k, s.depth k ≤ 1
  inside : ∀ r, r ∈ g.inside ↔ 0 < s.depth r
  waiting : ∀ k, g.waiting k ≠ none ↔ (s.pc k).Syncing
  awaits : ∀ k w r, g.waiting k = some w → r ∈ w → Awaits s k r

theorem refines_init (n : Nat) (heads : Addr → RcuHead) (pointers : Addr → Addr) :
    Refines n (init heads pointers : State C) Grace.init where
  inv := inv_init heads pointers
  placed := ⟨fun k c h => by simp [init] at h, fun k w m i c h => by simp [init] at h⟩
  shallow k := Nat.zero_le 1
  inside r := by simp [init, Grace.init]
  waiting k := by simp [init, Grace.init, Pc.Syncing]
  awaits k w r h := by simp [Grace.init] at h

section step

variable {n : Nat} {s t : State C} {g : Grace.State C} {a : Act C}

theorem Refines.awaits_step (hr : Refines n s g) (hf : Fair s a) (h : step n s a = some t) {k r : C}
    (ha : a ≠ .readUnlock r) (hw : Awaits s k r) : Awaits t k r := by
  obtain ⟨hd, c, v, hc, hv, hp⟩ := hw
  obtain ⟨hc', hv', hd'⟩ := section_step hr.inv hf hd hc ha h
  have hcn : c < n := hr.placed.core r c ((top_eq_some s r c).mp hc).1
  exact ⟨hd' ▸ hd, c, v, hc', hv' ▸ hv, polls_step hcn hp hv h⟩

theorem Refines.quiet (hr : Refines n s g) (hf : Fair s a) (h : step n s a = some t)
    (ha : ∀ r, a ≠ .readUnlock r) (hd : t.depth = s.depth)
    (hs : ∀ j, (t.pc j).Syncing ↔ (s.pc j).Syncing) : Refines n t g where
  inv := inv_step s a t hr.inv hf h
  placed := placed_step s a t hr.placed h
  shallow := hd ▸ hr.shallow
  inside := hd ▸ hr.inside
  waiting k := (hr.waiting k).trans (hs k).symm
  awaits k w r hk hw := hr.awaits_step hf h (ha r) (hr.awaits k w r hk hw)

theorem Refines.enters (hr : Refines n s g) (hf : Fair s a) (h : step n s a = some t)
    (ha : ∀ r, a ≠ .readUnlock r) {k : C} (hk : s.depth k = 0)
    (hd : t.depth = Function.update s.depth k (s.depth k + 1))
    (hs : ∀ j, (t.pc j).Syncing ↔ (s.pc j).Syncing) :
    ∃ g', Grace.step g (.enter k) = some g' ∧ Refines n t g' := by
  have hout : k ∉ g.inside := fun hin => by
    have := (hr.inside k).mp hin
    omega
  refine ⟨_, (when_eq_some _ _ _).mpr ⟨hout, rfl⟩, inv_step s a t hr.inv hf h,
    placed_step s a t hr.placed h, fun j => ?_, fun j => ?_,
    fun j => (hr.waiting j).trans (hs j).symm, fun j w r hj hw => ?_⟩
  · rw [hd]
    by_cases hjk : j = k
    · simp [hjk, hk]
    · simpa [hjk] using hr.shallow j
  · rw [hd, Finset.mem_insert]
    by_cases hjk : j = k
    · simp [hjk]
    · simpa [hjk] using hr.inside j
  · exact hr.awaits_step hf h (ha r) (hr.awaits j w r hj hw)

theorem Refines.leaves (hr : Refines n s g) {k : C} (hf : Fair s (.readUnlock k))
    (h : step n s (.readUnlock k) = some t) (hk : s.depth k = 1)
    (hd : t.depth = Function.update s.depth k 0) (hpc : t.pc = s.pc) :
    ∃ g', Grace.step g (.leave k) = some g' ∧ Refines n t g' := by
  have hin : k ∈ g.inside := (hr.inside k).mpr (by omega)
  refine ⟨_, (when_eq_some _ _ _).mpr ⟨hin, rfl⟩, inv_step s _ t hr.inv hf h,
    placed_step s _ t hr.placed h, fun j => ?_, fun j => ?_, fun j => ?_, fun j w r hj hw => ?_⟩
  · rw [hd]
    by_cases hjk : j = k
    · simp [hjk]
    · simpa [hjk] using hr.shallow j
  · rw [hd, Finset.mem_erase]
    by_cases hjk : j = k
    · simp [hjk]
    · simpa [hjk] using hr.inside j
  · rw [hpc, ← hr.waiting j]
    simp
  · obtain ⟨w', hw', rfl⟩ := Option.map_eq_some_iff.mp hj
    obtain ⟨hrk, hw⟩ := Finset.mem_erase.mp hw
    exact hr.awaits_step hf h (by simpa using Ne.symm hrk) (hr.awaits j w' r hw' hw)

theorem Refines.begins (hr : Refines n s g) {c : Nat} {k : C} (hf : Fair s (.synchronize k))
    (h : step n s (.synchronize k) = some (synchronizeRcu s c k)) (hk : s.top k = some c)
    (hpc : s.pc k = .idle) :
    ∃ g', Grace.step g (.begin k) = some g' ∧ Refines n (synchronizeRcu s c k) g' := by
  have hnone : g.waiting k = none := by
    by_contra hn
    have := (hr.waiting k).mp hn
    simp [hpc, Pc.Syncing] at this
  have hpk : (synchronizeRcu s c k).pc k = .sync (ticket s) c 0 := pc_goto _ k _
  refine ⟨_, (when_eq_some _ _ _).mpr ⟨hnone, rfl⟩, inv_step s _ _ hr.inv hf h,
    placed_step s _ _ hr.placed h, hr.shallow, hr.inside, fun j => ?_, fun j w r hj hw => ?_⟩
  · by_cases hjk : j = k
    · rw [hjk, hpk]
      simp [Pc.Syncing]
    · have hpj : (synchronizeRcu s c k).pc j = s.pc j := pc_goto_ne _ _ hjk
      rw [hpj, ← hr.waiting j]
      simp [hjk]
  · by_cases hjk : j = k
    · -- the new ticket is above the version of every core with an open section
      subst hjk
      simp only [Function.update_self, Option.some.injEq] at hj
      subst hj
      have hd := (hr.inside r).mp hw
      obtain ⟨-, e, he, hv⟩ := hr.inv.opened r hd
      have hce : c ≠ e := by
        rintro rfl
        rw [top_unique he hk] at hd
        have hz : s.depth j = 0 := hf.1
        omega
      refine ⟨hd, e, ticket s, he, ?_, c, 0, hce, Nat.zero_le e, .inl hpk⟩
      have ht := ticket_eq (hf.2 rfl)
      show s.versions e < ticket s
      omega
    · simp only [Function.update_of_ne hjk] at hj
      exact hr.awaits_step hf h (by simp) (hr.awaits j w r hj hw)

theorem Refines.finishes (hr : Refines n s g) {w m i : Nat} {k : C} (hf : Fair s (.advance k))
    (h : step n s (.advance k) = some (s.goto k .idle)) (hpc : s.pc k = .sync w m i)
    (hi : n ≤ i) : ∃ g', Grace.step g (.finish k) = some g' ∧ Refines n (s.goto k .idle) g' := by
  have hk : g.waiting k = some ∅ := by
    obtain ⟨v, hv⟩ := Option.ne_none_iff_exists'.mp ((hr.waiting k).mpr (by simp [hpc, Pc.Syncing]))
    rw [hv, Option.some.injEq, Finset.eq_empty_iff_forall_notMem]
    intro r hw
    -- the loop is past the core of every section it has to wait for
    obtain ⟨-, c, x, hc, -, m', i', -, hic, hp⟩ := hr.awaits k v r hv hw
    have hcn := hr.placed.core r c ((top_eq_some s r c).mp hc).1
    obtain hp | hp | ⟨d, hp⟩ := hp <;> rw [hpc] at hp <;> cases hp
    omega
  refine ⟨_, (when_eq_some _ _ _).mpr ⟨hk, rfl⟩, inv_step s _ _ hr.inv hf h,
    placed_step s _ _ hr.placed h, hr.shallow, hr.inside, fun j => ?_, fun j v r hj hw => ?_⟩
  · by_cases hjk : j = k
    · simp [hjk, Pc.Syncing]
    · rw [pc_goto_ne s _ hjk, ← hr.waiting j]
      simp [hjk]
  · have hjk : j ≠ k := by
      rintro rfl
      simp at hj
    simp only [Function.update_of_ne hjk] at hj
    exact hr.awaits_step hf h (by simp) (hr.awaits j v r hj hw)

theorem syncing_goto {s u : State C} {k : C} {p : Pc} (hu : u.pc = s.pc)
    (hp : p.Syncing ↔ (s.pc k).Syncing) (j : C) : ((u.goto k p).pc j).Syncing ↔ (s.pc j).Syncing := by
  by_cases hjk : j = k
  · rw [hjk, pc_goto]
    exact hp
  · rw [pc_goto_ne _ _ hjk, hu]

theorem refines_advances (hr : Refines n s g) {c : Nat} {k : C} (hf : Fair s (.advance k))
    (h : step n s (.advance k) = some t) (hk : s.top k = some c) (hm : Advances n s c k t) :
    ∃ g', run Grace.step g (grace n s (.advance k)).toList = some g' ∧ Refines n t g' := by
  have hcore := ((top_eq_some s k c).mp hk).1
  have hquiet : ∀ (u : State C) (p : Pc), t = u.goto k p → u.depth = s.depth → u.pc = s.pc →
      (p.Syncing ↔ (s.pc k).Syncing) → grace n s (.advance k) = none →
      ∃ g', run Grace.step g (grace n s (.advance k)).toList = some g' ∧ Refines n t g' := by
    rintro u p rfl hd hpc hp he
    rw [he]
    exact ⟨g, rfl, hr.quiet hf h (by simp) hd (syncing_goto hpc hp)⟩
  have henter : ∀ (u : State C) (v : Nat), t = (u.goto k .idle).setDepth k (s.depth k + 1) →
      u.depth = s.depth → u.pc = s.pc → (s.pc k).InLock v →
      grace n s (.advance k) = some (.enter k) →
      ∃ g', run Grace.step g (grace n s (.advance k)).toList = some g' ∧ Refines n t g' := by
    rintro u v rfl hd hpc hlock he
    have hz := (hr.inv.locking k v hlock).2
    have hs : ¬ (s.pc k).Syncing := by
      obtain hp | hp := hlock <;> rw [hp] <;> exact id
    obtain ⟨g', hg, hr'⟩ := hr.enters hf h (by simp) hz (by simp [State.setDepth, State.goto, hd])
      (syncing_goto (u := u) hpc (iff_of_false id hs))
    rw [he]
    exact ⟨g', (run_cons _ _ _ _).mpr ⟨g', hg, rfl⟩, hr'⟩
  cases hm with
  | same v hpc hg => exact henter s v rfl rfl rfl (.inl hpc) (by simp [grace, hpc, hcore, hg])
  | store v hpc => exact henter _ v rfl rfl rfl (.inr hpc) (by simp [grace, hpc])
  | other v hpc hg =>
    exact hquiet s _ rfl rfl rfl (by simp [hpc, Pc.Syncing]) (by simp [grace, hpc, hcore, hg])
  | pass w m i hpc hi hv =>
    exact hquiet s _ rfl rfl rfl (by simp [hpc, Pc.Syncing]) (by simp [grace, hpc, hi])
  | wait w m i hpc hi him hv =>
    exact hquiet s _ rfl rfl rfl (by simp [hpc, Pc.Syncing]) (by simp [grace, hpc, hi])
  | synced w m i hpc hi =>
    obtain ⟨g', hg, hr'⟩ := hr.finishes hf h hpc hi
    have he : grace n s (.advance k) = some (.finish k) := by simp [grace, hpc, Nat.not_lt.mpr hi]
    rw [he]
    exact ⟨g', (run_cons _ _ _ _).mpr ⟨g', hg, rfl⟩, hr'⟩
  | yield w m i hpc => exact hquiet _ _ rfl rfl rfl (by simp [hpc, Pc.Syncing]) (by simp [grace, hpc])
  | look m m' i hpc => exact hquiet s _ rfl rfl rfl (by simp [hpc, Pc.Syncing]) (by simp [grace, hpc])
  | looked m i hpc => exact hquiet s _ rfl rfl rfl (by simp [hpc, Pc.Syncing]) (by simp [grace, hpc])
  | leave m node hpc => exact hquiet s _ rfl rfl rfl (by simp [hpc, Pc.Syncing]) (by simp [grace, hpc])
  | callback m x hpc => exact hquiet _ _ rfl rfl rfl (by simp [hpc, Pc.Syncing]) (by simp [grace, hpc])

theorem refines_calls (hr : Refines n s g) {c : Nat} {k : C} (hf : Fair s a)
    (h : step n s a = some t) (hk : s.top k = some c) (hpc : s.pc k = .idle) (hm : Calls s c k a t) :
    ∃ g', run Grace.step g (grace n s a).toList = some g' ∧ Refines n t g' := by
  have hcore := ((top_eq_some s k c).mp hk).1
  have hsame : t.depth = s.depth → (∀ j, (t.pc j).Syncing ↔ (s.pc j).Syncing) →
      (∀ r, a ≠ .readUnlock r) → grace n s a = none →
      ∃ g', run Grace.step g (grace n s a).toList = some g' ∧ Refines n t g' := by
    intro hd hs ha he
    rw [he]
    exact ⟨g, rfl, hr.quiet hf h ha hd hs⟩
  cases hm with
  | suspend | dereference p | assign p v => exact hsame rfl (fun _ => Iff.rfl) (by simp) rfl
  | threadCallRcu =>
    exact hsame rfl (syncing_goto rfl (by simp [hpc, Pc.Syncing])) (by simp) rfl
  | callRcu head func =>
    refine hsame (by simp) (fun j => ?_) (by simp) rfl
    rw [pc_callRcu]
    split_ifs
    · exact syncing_goto (u := s) rfl (by simp [hpc, Pc.Syncing]) j
    · rfl
  | load hc =>
    exact hsame rfl (syncing_goto rfl (by simp [hpc, Pc.Syncing])) (by simp)
      (by simpa [grace, hcore] using hc)
  | count hc =>
    have he : grace n s (.readLock k) = some (.enter k) := by simpa [grace, hcore] using hc
    obtain ⟨g', hg, hr'⟩ := hr.enters hf h (by simp) hf.1 rfl fun _ => Iff.rfl
    rw [he]
    exact ⟨g', (run_cons _ _ _ _).mpr ⟨g', hg, rfl⟩, hr'⟩
  | readUnlock hd =>
    have hone : s.depth k = 1 := by
      have := hr.shallow k
      omega
    have he : grace n s (.readUnlock k) = some (.leave k) := by simp [grace, hone]
    obtain ⟨g', hg, hr'⟩ := hr.leaves hf h hone (by simp [State.setDepth, hone]) rfl
    rw [he]
    exact ⟨g', (run_cons _ _ _ _).mpr ⟨g', hg, rfl⟩, hr'⟩
  | synchronize =>
    obtain ⟨g', hg, hr'⟩ := hr.begins hf h hk hpc
    exact ⟨g', (run_cons _ _ _ _).mpr ⟨g', hg, rfl⟩, hr'⟩

/-- Each step of the machine is the step of the grace periods that it shows. -/
theorem refines_step (hr : Refines n s g) (hf : Fair s a) (h : step n s a = some t) :
    ∃ g', run Grace.step g (grace n s a).toList = some g' ∧ Refines n t g' := by
  cases moves_of_step h with
  | resume c k _ _ _ _ => exact ⟨g, rfl, hr.quiet hf h (by simp) rfl fun _ => Iff.rfl⟩
  | offline c _ _ => exact ⟨g, rfl, hr.quiet hf h (by simp) rfl fun _ => Iff.rfl⟩
  | deliver k w m i c hpc _ =>
    refine ⟨g, rfl, hr.quiet hf h (by simp) rfl (syncing_goto rfl ?_)⟩
    simp [hpc, Pc.Syncing]
  | call c k hk hpc hm => exact refines_calls hr hf h hk hpc hm
  | advance c k hk hm => exact refines_advances hr hf h hk hm

end step

section client

variable {L X : Type} {n : Nat} {m : Grace.Client C L X} {p q : State C × L}

/-- The machine and a structure over it, on which a coroutine works where it runs outside the
rcu functions. -/
def withClient (n : Nat) (m : Grace.Client C L X) (p : State C × L) :
    Act C ⊕ X → Option (State C × L)
  | .inl a => (step n p.1 a).map fun t => (t, (grace n p.1 a).elim p.2 (m.hear p.2))
  | .inr x =>
    if ∀ k ∈ m.actor x, (p.1.top k).isSome ∧ p.1.pc k = .idle then
      (m.act (fun r => decide (0 < p.1.depth r)) p.2 x).map fun l => (p.1, l)
    else none

def shown (n : Nat) (p : State C × L) : Act C ⊕ X → Option (Grace.Event C ⊕ X)
  | .inl a => (grace n p.1 a).map .inl
  | .inr x => some (.inr x)

def rcuActs (xs : List (Act C ⊕ X)) : List (Act C) := xs.filterMap Sum.getLeft?

theorem withClient_inr {x : X} (h : withClient n m p (.inr x) = some q) :
    (∀ k ∈ m.actor x, (p.1.top k).isSome ∧ p.1.pc k = .idle) ∧
      ∃ l, m.act (fun r => decide (0 < p.1.depth r)) p.2 x = some l ∧ q = (p.1, l) := by
  simp only [withClient] at h
  split_ifs at h with hk
  obtain ⟨l, hl, rfl⟩ := Option.map_eq_some_iff.mp h
  exact ⟨hk, l, hl, rfl⟩

theorem meets_client (ok : State C → Act C → Prop) {xs : List (Act C ⊕ X)}
    (h : Meets (step n) ok p.1 (rcuActs xs)) :
    Meets (withClient n m) (fun p x => ∀ a, x = .inl a → ok p.1 a) p xs := by
  induction xs generalizing p with
  | nil => trivial
  | cons x xs ih =>
    cases x with
    | inl a =>
      obtain ⟨ha, has⟩ := (meets_cons ok p.1 a (rcuActs xs)).mp h
      refine (meets_cons _ p _ xs).mpr ⟨fun b hb => Sum.inl.inj hb ▸ ha, fun q hq => ih ?_⟩
      obtain ⟨t, ht, rfl⟩ := Option.map_eq_some_iff.mp hq
      exact has t ht
    | inr x =>
      refine (meets_cons _ p _ xs).mpr ⟨nofun, fun q hq => ih ?_⟩
      obtain ⟨-, l, -, rfl⟩ := withClient_inr hq
      exact h

def Carried (n : Nat) (p : State C × L) (g : Grace.State C × L) : Prop :=
  Refines n p.1 g.1 ∧ g.2 = p.2

theorem carried_step {x : Act C ⊕ X} {g : Grace.State C × L} (hr : Carried n p g)
    (hf : ∀ a, x = .inl a → Fair p.1 a) (h : withClient n m p x = some q) :
    ∃ g', run m.step g (shown n p x).toList = some g' ∧ Carried n q g' := by
  obtain ⟨g, l⟩ := g
  obtain ⟨hr, rfl⟩ := hr
  cases x with
  | inl a =>
    obtain ⟨t, ht, rfl⟩ := Option.map_eq_some_iff.mp h
    obtain ⟨g', hg, hr'⟩ := refines_step hr (hf a rfl) ht
    cases he : grace n p.1 a with
    | none =>
      rw [he] at hg
      obtain rfl := (run_nil _ _).mp hg
      exact ⟨(g', p.2), by simp [shown, he, run], hr', rfl⟩
    | some e =>
      rw [he] at hg
      obtain ⟨u, hu, hrun⟩ := (run_cons _ _ _ _).mp hg
      obtain rfl := (run_nil _ _).mp hrun
      exact ⟨(g', m.hear p.2 e), by simp [shown, he, run, Grace.Client.step, hu], hr', rfl⟩
  | inr x =>
    obtain ⟨-, l, hl, rfl⟩ := withClient_inr h
    have hin : (fun r => decide (0 < p.1.depth r)) = fun r => decide (r ∈ g.inside) := by
      funext r
      exact decide_eq_decide.mpr (hr.inside r).symm
    rw [hin] at hl
    exact ⟨(g, l), by simp [shown, run, Grace.Client.step, hl], hr, rfl⟩

/-- What a structure and the machine do together the structure does over the grace periods. -/
theorem client_run {heads : Addr → RcuHead} {pointers : Addr → Addr} {l : L}
    {xs : List (Act C ⊕ X)} (h : run (withClient n m) (init heads pointers, l) xs = some q)
    (hd : Meets (step n) Disciplined (init heads pointers) (rcuActs xs))
    (ht : tickets (rcuActs xs) < 2 ^ 64) :
    ∃ g, run m.step (Grace.init, l) (trace (withClient n m) (shown n) (init heads pointers, l) xs) =
      some (g, q.2) ∧ Refines n q.1 g := by
  have hf := meets_fair hd (by simp only [init]; omega)
  have hr : Carried n ((init heads pointers : State C), l) (Grace.init, l) :=
    ⟨refines_init n heads pointers, rfl⟩
  obtain ⟨⟨g, l'⟩, hg, hr, rfl⟩ := run_simulation_of_meets _ (Carried n)
    (fun p g x q hr hf h => carried_step hr hf h) h (meets_client Fair hf) hr
  exact ⟨g, hg, hr⟩

end client

/-- A structure whose readers run inside sections and whose writers call `synchronize_rcu` does over
the cores only what it does over grace periods: a section is open where its coroutine is inside,
and a grace period lasts as long as the call. -/
theorem sections_and_grace_periods {L X : Type} (n : Nat) (m : Grace.Client C L X)
    (heads : Addr → RcuHead) (pointers : Addr → Addr) (l : L) (xs : List (Act C ⊕ X))
    (p : State C × L) (h : run (withClient n m) (init heads pointers, l) xs = some p)
    (hd : Meets (step n) Disciplined (init heads pointers) (rcuActs xs))
    (ht : tickets (rcuActs xs) < 2 ^ 64) :
    ∃ g, run m.step (Grace.init, l) (trace (withClient n m) (shown n) (init heads pointers, l) xs) =
        some (g, p.2) ∧
      (∀ r, r ∈ g.inside ↔ 0 < p.1.depth r) ∧ ∀ k, g.waiting k ≠ none ↔ (p.1.pc k).Syncing := by
  obtain ⟨g, hg, hr⟩ := client_run h hd ht
  exact ⟨g, hg, hr.inside, hr.waiting⟩

theorem sections_and_grace_periods_log :
    ∃ (p : State (Fin 2) × List (Grace.Event (Fin 2))) (g : Grace.State (Fin 2)),
    run (withClient 2 ⟨fun _ => none, fun _ _ (x : Empty) => x.elim, fun l e => l ++ [e]⟩)
      (init (fun _ => ⟨none, 0, 0⟩) id, [])
      [.inl (.resume 0 0), .inl (.readLock 0), .inl (.advance 0), .inl (.advance 0),
        .inl (.resume 1 1), .inl (.synchronize 1), .inl (.advance 1), .inl (.advance 1),
        .inl (.readUnlock 0), .inl (.suspend 0), .inl (.offline 0), .inl (.deliver 1),
        .inl (.advance 1), .inl (.advance 1), .inl (.advance 1)] = some p ∧
      p.2 = [.enter 0, .begin 1, .leave 0, .finish 1] ∧
      ∀ r : Fin 2, r ∈ g.inside ↔ 0 < p.1.depth r := by
  obtain ⟨g, -, hg, -⟩ := sections_and_grace_periods 2
    ⟨fun _ => none, fun _ _ (x : Empty) => x.elim, fun l (e : Grace.Event (Fin 2)) => l ++ [e]⟩
    (fun _ => ⟨none, 0, 0⟩) id []
    [.inl (.resume 0 0), .inl (.readLock 0), .inl (.advance 0), .inl (.advance 0),
      .inl (.resume 1 1), .inl (.synchronize 1), .inl (.advance 1), .inl (.advance 1),
      .inl (.readUnlock 0), .inl (.suspend 0), .inl (.offline 0), .inl (.deliver 1),
      .inl (.advance 1), .inl (.advance 1), .inl (.advance 1)] _ rfl (by decide) (by decide)
  exact ⟨_, g, rfl, rfl, hg⟩

end LibCoro.Rcu
