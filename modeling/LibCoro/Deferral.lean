import LibCoro.CallRcu

namespace LibCoro.Rcu

open Machine

variable {C : Type} [DecidableEq C]

/-- A drain begins with an empty scan in a coroutine outside every section; after that
each turn of the scan takes the version of one more core into account. -/
theorem drainScan_of_step {n : Nat} {s t : State C} {a : Act C} {j : C} {m i : Nat}
    (hd : DrainsOutside s a) (h : step n s a = some t) (hact : a.actor = some j)
    (hpc : t.pc j = .drainScan m i) :
    s.top j = t.top j ∧ (i = 0 ∧ s.depth j = 0 ∨
      ∃ m' i' c, s.pc j = .drainScan m' i' ∧ s.top j = some c ∧
        i = i' + 1 ∧ m = if i' = c then m' else min m' (s.versions i')) := by
  cases moves_of_step h with
  | offline c _ _ => cases hact
  | resume c k _ _ hk _ =>
    cases hact
    cases hk.symm.trans hpc
  | deliver k w m' i' c _ _ =>
    cases hact
    rw [pc_goto] at hpc
    cases hpc
  | call c k hc hk h =>
    cases h.actor.symm.trans hact
    obtain hp | hp | hp | ⟨hstart, hp⟩ := h.place hc hk <;> rw [hp] at hpc <;> cases hpc
    have hne : a ≠ .suspend j := by
      rintro rfl
      exact hstart
    exact ⟨(congrFun (h.top hne) j).symm, .inl ⟨rfl, hd.2.2 hstart j h.actor⟩⟩
  | advance c k hc h =>
    cases hact
    cases h with
    | look m' m'' i' hk _ hm =>
      rw [pc_goto] at hpc
      cases hpc
      exact ⟨rfl, .inr ⟨m', i', c, hk, hc, rfl, hm⟩⟩
    | _ => simp [State.goto, State.setDepth] at hpc

/-- While a section is open on core `c`, the head `x` waits in the queue of core `d`: it has
a version that no drain of that queue reaches. -/
structure Guarded (s : State C) (q : Nat → List Addr) (c d : Nat) (x : Addr) : Prop where
  version : s.versions c < (s.heads x).version
  queued : x ∈ q d
  scan : ∀ j m i, s.pc j = .drainScan m i → s.top j = some d →
    c ≠ d ∧ (c < i → m < (s.heads x).version)
  loop : ∀ j m node, s.pc j = .drainLoop m node → s.top j = some d →
    c ≠ d ∧ m < (s.heads x).version

theorem not_runsCallback {s : State C} {q : Nat → List Addr} {c d : Nat} {x : Addr}
    (hq : Queues s q) (hg : Guarded s q c d x) (j : C) : ¬ RunsCallback s j x := by
  rintro ⟨e, m, he, hpc, hle⟩
  have hhead := hq.node j m _ hpc e he
  obtain ⟨l, hl, -⟩ := (Chain.linked_some x (q e)).mp (hhead ▸ hq.linked e)
  have hed : e = d := by
    by_contra hed
    exact hq.disjoint e d hed x (by simp [hl]) hg.queued
  subst hed
  have hlt := (hg.loop j m _ hpc he).2
  omega

theorem guarded_step {n : Nat} {s t : State C} {a : Act C} {q : Nat → List Addr} {r : C} {c d : Nat}
    {x : Addr} (hi : Inv s) (hf : Fair s a) (hd : DrainsOutside s a) (hq : Queues s q)
    (hr : 0 < s.depth r) (hc : s.top r = some c) (hcn : c < n) (ha : a ≠ .readUnlock r)
    (hg : Guarded s q c d x) (h : step n s a = some t) :
    ∃ q', Queues t q' ∧ Guarded t q' c d x := by
  obtain ⟨htop, hver, hdep⟩ := section_step hi hf hr hc ha h
  obtain ⟨q', hq', hkeep⟩ := queues_step hi hd hq h
  obtain ⟨hx, hqueued⟩ := hkeep d x hg.queued
  refine ⟨q', hq', ?_, hqueued fun k _ => not_runsCallback hq hg k, fun j m i hpc hj => ?_,
    fun j m node hpc hj => ?_⟩
  · rw [hver, hx]
    exact hg.version
  · rw [hx]
    by_cases hact : a.actor = some j
    · obtain ⟨hsame, ⟨rfl, hz⟩ | ⟨m', i', e, hpc', he, rfl, rfl⟩⟩ := drainScan_of_step hd h hact hpc
      · refine ⟨?_, fun hc0 => absurd hc0 (Nat.not_lt_zero c)⟩
        rintro rfl
        rw [top_unique (hsame.trans hj) hc] at hz
        omega
      · obtain rfl : e = d := Option.some.inj (he.symm.trans (hsame.trans hj))
        obtain ⟨hce, hscan⟩ := hg.scan j m' i' hpc' he
        refine ⟨hce, fun hci => ?_⟩
        have hv := hg.version
        by_cases hie : i' = e
        · rw [if_pos hie]
          exact hscan (by omega)
        · rw [if_neg hie]
          by_cases hci' : c = i'
          · subst hci'
            omega
          · have := hscan (by omega)
            omega
    · obtain ⟨hpc', htop'⟩ := busy_frame hi h hact (by simp [hpc]) (by simp [hpc, Pc.Yielded])
      exact hg.scan j m i (hpc'.trans hpc) (htop'.trans hj)
  · rw [hx]
    by_cases hact : a.actor = some j
    · obtain ⟨-, e, he, het, ⟨i, hni, hpc', -⟩ | ⟨y, hpc', -, -⟩⟩ := drainLoop_of_step h hact hpc
      · obtain rfl : e = d := Option.some.inj (het.symm.trans hj)
        obtain ⟨hce, hscan⟩ := hg.scan j m i hpc' he
        exact ⟨hce, hscan (by omega)⟩
      · obtain rfl : e = d := Option.some.inj (het.symm.trans hj)
        exact hg.loop j m _ hpc' he
    · obtain ⟨hpc', htop'⟩ := busy_frame hi h hact (by simp [hpc]) (by simp [hpc, Pc.Yielded])
      exact hg.loop j m node (hpc'.trans hpc) (htop'.trans hj)

theorem guarded_run {n : Nat} {s t : State C} {as : List (Act C)} {q : Nat → List Addr} {r : C}
    {c d : Nat} {x : Addr} (hi : Inv s) (hf : Meets (step n) Fair s as)
    (hd : Meets (step n) DrainsOutside s as) (hq : Queues s q) (hr : 0 < s.depth r)
    (hc : s.top r = some c) (hcn : c < n) (ha : .readUnlock r ∉ as) (hg : Guarded s q c d x)
    (h : run (step n) s as = some t) : ∃ q', Queues t q' ∧ Guarded t q' c d x := by
  induction as generalizing s q with
  | nil =>
    rw [(run_nil s t).mp h]
    exact ⟨q, hq, hg⟩
  | cons a as ih =>
    obtain ⟨u, hu, hrun⟩ := (run_cons s t a as).mp h
    rw [List.mem_cons, not_or] at ha
    obtain ⟨hfa, hfs⟩ := (meets_cons Fair s a as).mp hf
    obtain ⟨hda, hds⟩ := (meets_cons DrainsOutside s a as).mp hd
    obtain ⟨q', hq', hg'⟩ := guarded_step hi hfa hda hq hr hc hcn (Ne.symm ha.1) hg hu
    obtain ⟨htop, -, hdep⟩ := section_step hi hfa hr hc (Ne.symm ha.1) hu
    exact ih (inv_step s a u hi hfa hu) (hfs u hu) (hds u hu) hq' (hdep ▸ hr) htop ha.2 hg' hrun

/-- The ticket of a new callback is above the version of every open section's core. -/
theorem guarded_callRcu {s : State C} {q : Nat → List Addr} {r k : C} {c d : Nat}
    {head func : Addr} (hi : Inv s) (hf : Fair s (.callRcu k head func))
    (hd : DrainsOutside s (.callRcu k head func)) (hr : 0 < s.depth r) (hc : s.top r = some c)
    (hk : s.top k = some d) (hpc : s.pc k = .idle) :
    Guarded (callRcu s d k head func) (Function.update q d (q d ++ [head])) c d head := by
  have hver : s.versions c ≤ s.sequencer := by
    obtain ⟨-, e, he, hv⟩ := hi.opened r hr
    rwa [Option.some.inj (he.symm.trans hc)] at hv
  have hself : ∀ j, (callRcu s d k head func).top j = some d → j = k := by
    intro j hj
    rw [top_callRcu] at hj
    exact top_unique hj hk
  refine ⟨?_, by simp, fun j m i hj htop => ?_, fun j m node hj htop => ?_⟩
  · rw [version_callRcu, if_pos rfl, versions_callRcu, ticket_eq (hf.2 rfl)]
    omega
  · obtain rfl := hself j htop
    rw [pc_callRcu_self, hpc] at hj
    split_ifs at hj with hcount
    cases hj
    refine ⟨?_, fun hc0 => absurd hc0 (Nat.not_lt_zero c)⟩
    rintro rfl
    have hz := hd.2.2 ⟨c, hk, hcount⟩ j rfl
    rw [top_unique hk hc] at hz
    omega
  · obtain rfl := hself j htop
    rw [pc_callRcu_self, hpc] at hj
    split_ifs at hj

theorem queues_run {n : Nat} {s t : State C} {as : List (Act C)} {q : Nat → List Addr} (hi : Inv s)
    (hf : Meets (step n) Fair s as) (hd : Meets (step n) DrainsOutside s as) (hq : Queues s q)
    (h : run (step n) s as = some t) : ∃ q', Queues t q' := by
  induction as generalizing s q with
  | nil =>
    rw [(run_nil s t).mp h]
    exact ⟨q, hq⟩
  | cons a as ih =>
    obtain ⟨u, hu, hrun⟩ := (run_cons s t a as).mp h
    obtain ⟨hfa, hfs⟩ := (meets_cons Fair s a as).mp hf
    obtain ⟨hda, hds⟩ := (meets_cons DrainsOutside s a as).mp hd
    obtain ⟨q', hq', -⟩ := queues_step hi hda hq hu
    exact ih (inv_step s a u hi hfa hu) (hfs u hu) (hds u hu) hq' hrun

/-- A callback that `k` registers while `r` is in a section does not run before `r` has left
that section, as long as no drain starts inside a section of its own core. -/
theorem call_rcu_defers (n : Nat) (heads : Addr → RcuHead) (pointers : Addr → Addr)
    (a₁ a₂ : List (Act C)) (r k j : C) (head func : Addr) (s₁ s₂ : State C)
    (h₁ : run (step n) (init heads pointers) a₁ = some s₁) (hr : 0 < s₁.depth r)
    (h₂ : run (step n) s₁ (.callRcu k head func :: a₂) = some s₂)
    (hd : Meets (step n) DrainsOutside (init heads pointers) (a₁ ++ .callRcu k head func :: a₂))
    (ht : tickets (a₁ ++ .callRcu k head func :: a₂) < 2 ^ 32) (hj : RunsCallback s₂ j head) :
    .readUnlock r ∈ a₂ := by
  by_contra hn
  have hf := meets_fair (meets_mono (fun _ _ h => h.1) hd) (by simp only [init]; omega)
  obtain ⟨hf₁, hf⟩ := meets_append Fair hf h₁
  obtain ⟨hd₁, hd⟩ := meets_append DrainsOutside hd h₁
  have hi₁ := inv_run h₁ hf₁ (inv_init heads pointers)
  have hq₀ : Queues (init heads pointers : State C) (fun _ => []) :=
    ⟨fun _ => rfl, fun _ => rfl, fun _ _ _ _ h => absurd h List.not_mem_nil, fun _ _ _ h => by cases h⟩
  obtain ⟨q₁, hq₁⟩ := queues_run (inv_init heads pointers) hf₁ hd₁ hq₀ h₁
  obtain ⟨-, c, hc, -⟩ := hi₁.opened r hr
  have hcn : c < n := by
    have hp : Placed n s₁ := run_invariant (Placed n) placed_step h₁
      ⟨fun j d hj => by simp [init] at hj, fun j w m i d hj => by simp [init] at hj⟩
    exact hp.core r c ((top_eq_some s₁ r c).mp hc).1
  obtain ⟨u, hu, hrun⟩ := (run_cons s₁ s₂ _ a₂).mp h₂
  obtain ⟨hfa, hfs⟩ := (meets_cons Fair s₁ _ a₂).mp hf
  obtain ⟨hda, hds⟩ := (meets_cons DrainsOutside s₁ _ a₂).mp hd
  obtain ⟨htop, -, hdep⟩ := section_step hi₁ hfa hr hc (by simp) hu
  have hiu := inv_step s₁ _ u hi₁ hfa hu
  have hfu := hfs u hu
  have hdu := hds u hu
  obtain ⟨d, hk, hpc, rfl⟩ := (call_eq_some s₁ u k _).mp hu
  obtain ⟨hunq, hnull⟩ := hda.2.1 k head func rfl
  have hqu := queues_callRcu func hq₁ hk hpc hunq hnull
  have hgu := guarded_callRcu (q := q₁) hi₁ hfa hda hr hc hk hpc
  obtain ⟨q₂, hq₂, hg₂⟩ := guarded_run hiu hfu hdu hqu (hdep ▸ hr) htop hcn hn hgu hrun
  exact not_runsCallback hq₂ hg₂ j hj

def Act.plain : Act C → Bool
  | .callRcu _ _ _ | .threadCallRcu _ => false
  | _ => true

theorem drainsOutside_of_plain {s : State C} {a : Act C} (hd : Disciplined s a)
    (hp : a.plain = true) : DrainsOutside s a := by
  refine ⟨hd, fun k head func h => ?_, fun hs k _ => ?_⟩
  · simp [h, Act.plain] at hp
  · cases a with
    | callRcu j head func | threadCallRcu j => cases hp
    | _ => exact hs.elim

theorem meets_plain (as : List (Act C)) {bs : List (Act C)} {n : Nat} {s t : State C}
    (hp : as.all Act.plain = true) (hd : Meets (step n) Disciplined s as)
    (hr : run (step n) s as = some t) (ht : Meets (step n) DrainsOutside t bs) :
    Meets (step n) DrainsOutside s (as ++ bs) := by
  induction as generalizing s with
  | nil =>
    rw [(run_nil s t).mp hr] at ht
    exact ht
  | cons a as ih =>
    obtain ⟨u, hu, hrun⟩ := (run_cons s t a as).mp hr
    obtain ⟨hda, hds⟩ := (meets_cons Disciplined s a as).mp hd
    rw [List.all_cons, Bool.and_eq_true] at hp
    refine (meets_cons DrainsOutside s a (as ++ bs)).mpr
      ⟨drainsOutside_of_plain hda hp.1, fun v hv => ?_⟩
    obtain rfl : u = v := Option.some.inj (hu.symm.trans hv)
    exact ih hp.2 (hds u hu) hrun

theorem call_rcu_defers_remote : ∃ s₁ s₂ : State (Fin 2),
    run (step 2) (init (fun _ => ⟨none, 0, 0⟩) id)
      [.resume 0 0, .readLock 0, .advance 0, .advance 0, .resume 1 1] = some s₁ ∧
    run (step 2) s₁ [.callRcu 1 7 0, .threadCallRcu 1, .advance 1, .advance 1, .advance 1, .advance 1,
      .readUnlock 0, .offline 0, .threadCallRcu 1, .advance 1, .advance 1, .advance 1] = some s₂ ∧
    .readUnlock 0 ∈ [Act.threadCallRcu 1, .advance 1, .advance 1, .advance 1, .advance 1,
      .readUnlock 0, .offline 0, .threadCallRcu 1, .advance 1, .advance 1, .advance (1 : Fin 2)] := by
  have hdrain : ∀ (s : State (Fin 2)), s.depth 1 = 0 → DrainsOutside s (.threadCallRcu 1) := by
    intro s hs
    refine ⟨trivial, by simp, fun _ k hk => ?_⟩
    cases hk
    exact hs
  have hcall : ∀ (s : State (Fin 2)), s.depth 1 = 0 → (∀ c, (s.data c).head = none) →
      s.links 7 = none → DrainsOutside s (.callRcu 1 7 0) := by
    intro s hs he hn
    refine ⟨trivial, fun k head func h => ?_, fun _ k hk => ?_⟩
    · cases h
      refine ⟨fun c l hl => ?_, hn⟩
      rw [he c, Chain.linked_none] at hl
      simp [hl]
    · cases hk
      exact hs
  refine ⟨_, _, rfl, rfl, call_rcu_defers 2 (fun _ => ⟨none, 0, 0⟩) id
    [.resume 0 0, .readLock 0, .advance 0, .advance 0, .resume 1 1] _ 0 1 1 7 0 _ _ rfl (by decide) rfl
    ?_ (by decide) ⟨1, uintMax, rfl, rfl, by decide⟩⟩
  refine meets_plain [.resume 0 0, .readLock 0, .advance 0, .advance 0, .resume 1 1]
    (by decide) (by decide) rfl ?_
  refine And.intro (hcall _ rfl (fun _ => rfl) rfl) (And.intro (hdrain _ rfl) ?_)
  refine meets_plain [.advance 1, .advance 1, .advance 1, .advance 1, .readUnlock 0, .offline 0]
    (by decide) (by decide) rfl (And.intro (hdrain _ rfl) ?_)
  exact meets_plain [.advance 1, .advance 1, .advance 1] (by decide) (by decide) rfl trivial

/-- A reader on the only core registers 1024 distinct callbacks inside one section: the drain
that the last registration starts runs the first of them there. -/
theorem call_rcu_inside_section : ∃ (a₂ : List (Act (Fin 1))) (s₁ s₂ : State (Fin 1)),
    a₂ = (List.range 1023).map (fun i => .callRcu 0 (i + 1) 0) ++ [.advance 0, .advance 0] ∧
    run (step 1) (init (fun _ => ⟨none, 0, 0⟩) id)
      [.resume 0 0, .readLock 0, .advance 0, .advance 0] = some s₁ ∧
    0 < s₁.depth 0 ∧ run (step 1) s₁ (.callRcu 0 0 0 :: a₂) = some s₂ ∧
    Meets (step 1) Disciplined (init (fun _ => ⟨none, 0, 0⟩) id)
      ([.resume 0 0, .readLock 0, .advance 0, .advance 0] ++ .callRcu 0 0 0 :: a₂) ∧
    tickets ([.resume 0 0, .readLock 0, .advance 0, .advance 0] ++ .callRcu 0 0 0 :: a₂) < 2 ^ 32 ∧
    RunsCallback s₂ 0 0 ∧ .readUnlock 0 ∉ a₂ := by
  let a₁ : List (Act (Fin 1)) := [.resume 0 0, .readLock 0, .advance 0, .advance 0]
  let a₂ : List (Act (Fin 1)) :=
    (List.range 1023).map (fun i => .callRcu 0 (i + 1) 0) ++ [.advance 0, .advance 0]
  let s₀ : State (Fin 1) := init (fun _ => ⟨none, 0, 0⟩) id
  have hend : ((run (step 1) s₀ (a₁ ++ .callRcu 0 0 0 :: a₂)).map fun s =>
      (s.top 0, s.pc 0, (s.heads 0).version)) = some (some 0, .drainLoop uintMax (some 0), 1) := by
    decide +kernel
  obtain ⟨s₂, hs₂, hobs⟩ := Option.map_eq_some_iff.mp hend
  simp only [Prod.mk.injEq] at hobs
  obtain ⟨htop, hpc, hver⟩ := hobs
  obtain ⟨s₁, hs₁, hrun⟩ := (run_append s₀ s₂ a₁ _).mp hs₂
  have hdepth : (run (step 1) s₀ a₁).map (fun s => s.depth 0) = some 1 := rfl
  rw [hs₁] at hdepth
  have hd : s₁.depth 0 = 1 := Option.some.inj hdepth
  refine ⟨a₂, s₁, s₂, rfl, hs₁, by omega, hrun, by decide +kernel, by decide +kernel,
    ⟨0, uintMax, htop, hpc, by rw [hver]; decide⟩, by decide +kernel⟩

end LibCoro.Rcu
