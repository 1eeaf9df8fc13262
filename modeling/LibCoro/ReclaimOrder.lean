import LibCoro.ReclaimProjection

namespace LibCoro.Reclaim

open Machine Rcu

variable {n c : Nat}

def register (l : List Addr) : Event → List Addr
  | .registered head _ => l ++ [head]
  | .ran head _ => l.erase head

theorem registered_step {r r' : State} {b : Act} (h : step n c r b = some r') :
    r'.registered = (emit r b).toList.foldl register r.registered := by
  have hhead : ∀ head, b.head = some head →
      r'.registered = (emit r b).toList.foldl register r.registered := by
    intro head hb
    obtain ⟨-, func, ht, he⟩ := step_head h hb
    rw [he, ht.registered]
    rfl
  cases b with
  | callRcu head func => exact hhead head rfl
  | freeRcu head => exact hhead head rfl
  | publish _ _ | fetchAdd | write _ _ =>
    cases h
    rfl
  | threadCallRcu =>
    obtain ⟨-, rfl⟩ := (when_eq_some _ _ _).mp h
    rfl
  | ret =>
    obtain ⟨m, head, node, rest, -, rfl⟩ := returns_of_step h
    rfl
  | advance =>
    cases advances_of_step h with
    | look m m' i rest hf _ _ =>
      rw [emit, calls_scan hf]
      rfl
    | looked m i rest hf _ =>
      rw [emit, calls_scan hf]
      rfl
    | leave m node rest hf hm =>
      rw [emit, calls_leave hf hm]
      rfl
    | call m x rest hf hm =>
      rw [emit, calls_call hf hm]
      rfl

theorem registered_run {r r' : State} {bs : List Act} (h : run (step n c) r bs = some r') :
    r'.registered = (trace (step n c) emit r bs).foldl register r.registered := by
  have hstart : r.registered = ([] : List Event).foldl register r.registered := rfl
  have hrun := trace_invariant emit (fun es u => u.registered = es.foldl register r.registered)
    (fun es u b v hu hv => by rw [registered_step hv, hu, List.foldl_append]) h hstart
  simpa using hrun

inductive Plain : List Act → Prop
  | none : Plain []
  | one (b : Act) (hb : b.head = .none) (hw : ∀ x v, b ≠ .write x v) : Plain [b]
  | callback : Plain [.advance, .ret]

theorem orderly_plain {r : State} {b : Act} (hb : b.head = none) (hw : ∀ x v, b ≠ .write x v)
    (hlen : b = .advance → r.frames.length ≤ 1) :
    Disciplined r b ∧ Orderly r b := by
  have hno : ∀ x ∈ b.head, False := by simp [hb]
  refine ⟨?_, fun x hx => (hno x hx).elim, fun hne => absurd hb hne, ?_⟩
  · cases b with
    | write x v => exact absurd rfl (hw x v)
    | _ => exact fun x hx => (hno x hx).elim
  · cases b with
    | advance =>
      intro htwo
      have := hlen rfl
      omega
    | _ => trivial

theorem orderly_writes (f : Addr → RcuHead) {xs : List Addr} {r : State}
    (hx : ∀ x ∈ xs, x ∉ r.registered) :
    Meets (step n c) (fun r b => Disciplined r b ∧ Orderly r b) r (xs.map fun x => .write x (f x)) := by
  induction xs generalizing r with
  | nil => trivial
  | cons x xs ih =>
    have hok : Disciplined r (.write x (f x)) ∧ Orderly r (.write x (f x)) :=
      ⟨hx x List.mem_cons_self, nofun, fun hne => absurd rfl hne, trivial⟩
    refine (meets_cons _ r _ _).mpr ⟨hok, fun u hu => ih ?_⟩
    obtain rfl := Option.some.inj hu
    exact fun y hy => hx y (List.mem_cons_of_mem x hy)

end LibCoro.Reclaim

namespace LibCoro.Rcu

open Machine Chain

variable {C : Type} [DecidableEq C]

/-- `call_rcu` gets a head that no core's queue holds and whose link is null. -/
def FreshHead (s : State C) (a : Act C) : Prop :=
  ∀ k head func, a = .callRcu k head func → Unqueued s head ∧ s.links head = none

def queuesAfter (s : State C) (a : Act C) (q : Nat → List Addr) (c : Nat) : List Addr :=
  (emitAt c s a).toList.foldl Reclaim.register (q c)

section queues

variable {n c : Nat} {s t : State C} {a : Act C} {q : Nat → List Addr}

omit [DecidableEq C] in
theorem freshHead_of_ne (ha : ∀ k head func, a ≠ .callRcu k head func) : FreshHead s a :=
  fun k head func e => absurd e (ha k head func)

theorem meets_freshHead {as : List (Act C)} (h : ∀ a ∈ as, ∀ k head func, a ≠ .callRcu k head func) :
    Meets (step n) FreshHead s as := by
  induction as generalizing s with
  | nil => trivial
  | cons a as ih =>
    obtain ⟨ha, has⟩ := List.forall_mem_cons.mp h
    exact (meets_cons _ s a as).mpr ⟨freshHead_of_ne ha, fun _ _ => ih has⟩

omit [DecidableEq C] in
theorem freshHead_callRcu {k : C} {head : Addr} (func : Addr) (hu : Unqueued s head)
    (hn : s.links head = none) : FreshHead s (.callRcu k head func) := by
  intro k' head' func' e
  cases e
  exact ⟨hu, hn⟩

theorem Queues.unqueued (hq : Queues s q) {x : Addr} (hx : ∀ c, x ∉ q c) : Unqueued s x :=
  fun c _ hl => linked_unique (hq.linked c) hl ▸ hx c

theorem queues_init (heads : Addr → RcuHead) (pointers : Addr → Addr) :
    Queues (init heads pointers : State C) fun _ => [] :=
  ⟨fun _ => rfl, fun _ => rfl, fun _ _ _ _ ha => absurd ha List.not_mem_nil, nofun⟩

theorem node_step (hl : Located s) (hq : Queues s q) (h : step n s a = some t) (hdata : t.data = s.data)
    (hrun : ∀ k x, a = .advance k → ¬ RunsCallback s k x) {k : C} {m : Nat} {node : Option Addr}
    (hpc : t.pc k = .drainLoop m node) {d : Nat} (hd : t.top k = some d) :
    node = (t.data d).head := by
  rw [hdata]
  by_cases hact : a.actor = some k
  · obtain ⟨hadv, e, he, het, ⟨i, -, -, rfl⟩ | ⟨x, hpc', hle, -⟩⟩ := drainLoop_of_step h hact hpc
    · rw [Option.some.inj (het.symm.trans hd)]
    · exact absurd ⟨e, m, he, hpc', hle⟩ (hrun k x hadv)
  · obtain ⟨e, he⟩ := site_of_step h
    have hframe := frame_step h he
    have hsame : t.pc k = s.pc k := hframe.pc k (Ne.symm hact)
    rw [hsame] at hpc
    have hidle : s.pc k ≠ .idle := by simp [hpc]
    obtain ⟨f, hf⟩ := hl k hidle (by simp [hpc, Pc.Yielded])
    have hfe : f ≠ e := by
      rintro rfl
      exact hact (congrArg Act.actor (advance_of_busy h hf hidle he))
    have hfd : f = d := Option.some.inj ((hframe.top k f hf hfe (Ne.symm hact)).symm.trans hd)
    exact hq.node k m node hpc d (hfd ▸ hf)

theorem queues_emit (hl : Located s) (hf : FreshHead s a) (hq : Queues s q)
    (h : step n s a = some t) : Queues t (queuesAfter s a q) := by
  by_cases hcall : ∃ k head func, a = .callRcu k head func
  · obtain ⟨k, head, func, rfl⟩ := hcall
    obtain ⟨d, hk, hpc, rfl⟩ := (call_eq_some s t k _).mp h
    obtain ⟨hu, hn⟩ := hf k head func rfl
    have hqt := queues_callRcu func hq hk hpc hu hn
    have hsame : queuesAfter s (.callRcu k head func) q = Function.update q d (q d ++ [head]) := by
      funext c
      by_cases hcd : c = d
      · subst hcd
        simp [queuesAfter, emitAt, hk, Reclaim.register]
      · simp [queuesAfter, emitAt, hk, hcd, Ne.symm hcd]
    rw [hsame]
    exact hqt
  by_cases hrun : ∃ k x, a = .advance k ∧ RunsCallback s k x
  · obtain ⟨k, x, rfl, hx⟩ := hrun
    obtain ⟨d, m, hk, hpc, hm⟩ := id hx
    obtain ⟨l, hl', hqt, -⟩ := queues_runCallback hq hk hx h
    have hsame : queuesAfter s (.advance k) q = Function.update q d l := by
      funext c
      by_cases hcd : c = d
      · subst hcd
        simp [queuesAfter, emitAt, hk, hpc, Nat.not_lt.mpr hm, Reclaim.register, hl']
      · simp [queuesAfter, emitAt, hk, hcd, Ne.symm hcd]
    rw [hsame]
    exact hqt
  · have hcall' : ∀ k head func, a ≠ .callRcu k head func :=
      fun k head func e => hcall ⟨k, head, func, e⟩
    have hrun' : ∀ k x, a = .advance k → ¬ RunsCallback s k x := fun k x e hx => hrun ⟨k, x, e, hx⟩
    obtain ⟨hdata, hheads⟩ := heads_step h hcall' hrun'
    have hlinks : t.links = s.links := by
      funext x
      exact congrArg RcuHead.next (congrFun hheads x)
    have hnone : ∀ c, emitAt c s a = none := by
      intro c
      cases a with
      | callRcu k head func => exact absurd rfl (hcall' k head func)
      | advance k =>
        by_cases hk : s.top k = some c
        · cases hpc : s.pc k with
          | drainLoop m node =>
            cases node with
            | none => simp [emitAt, hpc]
            | some x =>
              have hm : m < (s.heads x).version := by
                by_contra hle
                exact hrun' k x rfl ⟨c, m, hk, hpc, Nat.le_of_not_lt hle⟩
              simp [emitAt, hpc, hm]
          | _ => simp [emitAt, hpc]
        · simp [emitAt, hk]
      | _ => rfl
    have hsame : queuesAfter s a q = q := by
      funext c
      simp [queuesAfter, hnone]
    rw [hsame]
    refine ⟨fun c => ?_, fun c => ?_, hq.disjoint, fun k m node hpc d hd => ?_⟩
    · rw [hlinks, hdata]
      exact hq.linked c
    · rw [hdata]
      exact hq.tail c
    · exact node_step hl hq h hdata hrun' hpc hd

theorem Shows.short {frames : List Reclaim.Frame} (hs : Shows s c frames) :
    frames.length ≤ 1 ∧ ∀ m x node, .callback m x node ∉ frames := by
  by_cases hk : ∃ k, s.top k = some c
  · obtain ⟨k, hk⟩ := hk
    rw [hs.busy k hk]
    cases s.pc k <;> simp [Pc.frames]
  · rw [hs.calm fun k hk' => hk ⟨k, hk'⟩]
    simp

theorem acts_plain (hcall : ∀ k head func, a ≠ .callRcu k head func) : Reclaim.Plain (acts c s a) := by
  have hadvance : Reclaim.Plain [.advance] := .one .advance rfl (by simp)
  cases a with
  | callRcu k head func => exact absurd rfl (hcall k head func)
  | offline d => exact .one (.publish d DONE) rfl (by simp)
  | synchronize k => exact .one .fetchAdd rfl (by simp)
  | threadCallRcu k =>
    simp only [acts]
    split_ifs
    · exact .one .threadCallRcu rfl (by simp)
    · exact .none
  | advance k =>
    simp only [acts]
    cases s.top k with
    | none => exact .none
    | some d =>
      cases s.pc k with
      | lockStore g => exact .one (.publish d g) rfl (by simp)
      | syncYield w m i => exact .one (.publish d DONE) rfl (by simp)
      | drainScan m i =>
        simp only
        split_ifs
        · exact hadvance
        · exact .none
      | drainLoop m node =>
        cases node <;> simp only <;> split_ifs
        · exact hadvance
        · exact .none
        · exact hadvance
        · exact .callback
        · exact .none
      | _ => exact .none
  | _ => exact .none

/-- The thread of a core keeps the discipline of its queue. -/
theorem orderly_acts {r : Reclaim.State} (hp : Projects c s r) (hf : FreshHead s a) (hq : Queues s q)
    (hreg : r.registered = q c) (h : step n s a = some t) :
    Meets (Reclaim.step n c) (fun r b => Reclaim.Disciplined r b ∧ Reclaim.Orderly r b) r
      (acts c s a) := by
  obtain ⟨hlen, hcb⟩ := hp.shows.short
  by_cases hcall : ∃ k head func, a = .callRcu k head func
  · obtain ⟨k, head, func, rfl⟩ := hcall
    obtain ⟨d, hk, hpc, -⟩ := (call_eq_some s t k _).mp h
    obtain ⟨hu, hn⟩ := hf k head func rfl
    have hnew : ∀ e, head ∉ q e := fun e => hu e (q e) (hq.linked e)
    by_cases hdc : d = c
    · have hframes : r.frames = [] := by
        rw [hp.shows.busy k (hdc ▸ hk), hpc]
        rfl
      simp only [acts, hk, hdc, if_true]
      refine (meets_cons _ r _ _).mpr ⟨⟨?_, ?_, ?_, trivial⟩, fun _ _ => trivial⟩
      · intro x hx
        cases hx
        exact ⟨hreg ▸ hnew c, by simp [Reclaim.State.running, hframes]⟩
      · intro x hx
        cases hx
        rw [Reclaim.State.links, hp.heads]
        exact hn
      · intro _
        rw [Reclaim.State.inLast, hframes]
    · simp only [acts, hk, if_neg hdc]
      refine (meets_cons _ r _ _).mpr ⟨Reclaim.orderly_plain rfl (by simp) (by simp), fun u hu' => ?_⟩
      obtain rfl := Option.some.inj hu'
      refine Reclaim.orderly_writes _ fun x hx => ?_
      show x ∉ r.registered
      rw [hreg]
      rcases List.mem_cons.mp hx with rfl | hx
      · exact hnew c
      · rw [Option.mem_toList, hq.tail d] at hx
        exact hq.disjoint d c hdc x (List.mem_of_getLast? hx)
  · have hcall' : ∀ k head func, a ≠ .callRcu k head func :=
      fun k head func e => hcall ⟨k, head, func, e⟩
    have hplain : Reclaim.Plain (acts c s a) := acts_plain hcall'
    generalize acts c s a = bs at hplain
    cases hplain with
    | none => trivial
    | one b hb hw =>
      exact (meets_cons _ r _ _).mpr ⟨Reclaim.orderly_plain hb hw fun _ => hlen, fun _ _ => trivial⟩
    | callback =>
      refine (meets_cons _ r _ _).mpr ⟨Reclaim.orderly_plain rfl (by simp) fun _ => hlen, fun u _ => ?_⟩
      exact (meets_cons _ u _ _).mpr ⟨Reclaim.orderly_plain rfl (by simp) (by simp), fun _ _ => trivial⟩

end queues

section run

variable (n : Nat) (heads : Addr → RcuHead) (pointers : Addr → Addr) (as : List (Act C)) (t : State C)

/-- On every core the functions are called on the heads in the order in which that core registered
them, on each once, and what its queue holds, and no other core's, is what is left to do. -/
theorem callbacks_in_order (h : run (step n) (init heads pointers) as = some t)
    (hf : Meets (step n) FreshHead (init heads pointers) as) (c : Nat) :
    ∃ q, Reclaim.due (trace (step n) (emitAt c) (init heads pointers) as) = some q ∧
      TailQueue t.links (t.data c).head (t.data c).tail (q.map Prod.fst) ∧
      ∀ p ∈ q, (t.heads p.1).func = p.2 ∧
        ∀ d l, d ≠ c → Linked t.links (t.data d).head l → p.1 ∉ l := by
  have hstart : Projects c (init heads pointers : State C) (Reclaim.init heads) ∧
      Located (init heads pointers : State C) ∧ ∃ q,
        Queues (init heads pointers : State C) q ∧ (Reclaim.init heads).registered = q c :=
    ⟨projects_init c heads pointers, located_init heads pointers, fun _ => [],
      queues_init heads pointers, rfl⟩
  obtain ⟨bs, r, hrun, hok, htrace, hp, -, q', hq', hreg⟩ := run_mirror Reclaim.emit FreshHead
    (fun r b => Reclaim.Disciplined r b ∧ Reclaim.Orderly r b)
    (fun s r => Projects c s r ∧ Located s ∧ ∃ q, Queues s q ∧ r.registered = q c)
    (by
      rintro s r a t ⟨hp, hl, q, hq, hreg⟩ hf hstep
      obtain ⟨r', hrun, htrace, hp'⟩ := projects_step hp hl hstep
      refine ⟨acts c s a, r', hrun, orderly_acts hp hf hq hreg hstep, htrace, hp',
        located_step hl hstep, _, queues_emit hl hf hq hstep, ?_⟩
      rw [Reclaim.registered_run hrun, htrace, hreg]
      rfl)
    h hf hstart
  obtain ⟨q, hi⟩ := Reclaim.inv_run hrun hok
  rw [htrace] at hi
  have hrunning : r.running = [] := List.filterMap_eq_nil_iff.mpr fun frame hframe => by
    cases frame with
    | callback m x node => exact absurd hframe (hp.shows.short.2 m x node)
    | _ => rfl
  have hw := hi.stage.waiting hrunning
  have hlinks : r.links = t.links := by
    funext x
    exact congrArg RcuHead.next (congrFun hp.heads x)
  refine ⟨q, hi.due, ?_, fun p hpq => ⟨?_, fun d l hdc hl => ?_⟩⟩
  · rw [← hi.registered, ← hlinks, ← hp.data]
    exact hw
  · rw [← hp.heads]
    exact hi.func p hpq
  · have hmem : p.1 ∈ q' c := by
      rw [← hreg, hi.registered]
      exact List.mem_map_of_mem hpq
    rw [← linked_unique (hq'.linked d) hl]
    exact hq'.disjoint c d (Ne.symm hdc) p.1 hmem

theorem callbacks_in_order_drain : ∃ t : State (Fin 2),
    run (step 2) (init (fun _ => ⟨none, 0, 0⟩) id) [.resume 0 0, .resume 1 1, .callRcu 0 1 7,
      .callRcu 1 2 8, .threadCallRcu 0, .advance 0, .advance 0, .advance 0, .advance 0] = some t ∧
    ∃ q, Reclaim.due [.registered 2 8] = some q ∧
      TailQueue t.links (t.data 1).head (t.data 1).tail (q.map Prod.fst) ∧
      ∀ p ∈ q, (t.heads p.1).func = p.2 ∧
        ∀ d l, d ≠ 1 → Linked t.links (t.data d).head l → p.1 ∉ l := by
  refine ⟨_, rfl, ?_⟩
  have hmain := callbacks_in_order 2 (fun _ => ⟨none, 0, 0⟩) id
    [.resume 0 0, .resume 1 1, .callRcu 0 1 7, .callRcu 1 2 8, .threadCallRcu 0, .advance 0,
      .advance 0, .advance 0, .advance 0] (_ : State (Fin 2)) rfl ?_ 1
  · exact hmain
  · let s : State (Fin 2) := ((init (fun _ => ⟨none, 0, 0⟩) id).enter 0 0).enter 1 1
    have hq : Queues s fun _ => [] :=
      ⟨fun _ => rfl, fun _ => rfl, fun _ _ _ _ ha => absurd ha List.not_mem_nil, nofun⟩
    have hu : Unqueued s 1 := hq.unqueued fun c => List.not_mem_nil
    have hq' : Queues (callRcu s 0 0 1 7) (Function.update (fun _ => []) 0 [1]) :=
      queues_callRcu 7 hq rfl rfl hu rfl
    have hu' : Unqueued (callRcu s 0 0 1 7) 2 :=
      hq'.unqueued fun c => by by_cases hc : c = 0 <;> simp [hc]
    refine And.intro (freshHead_of_ne nofun) (And.intro (freshHead_of_ne nofun) ?_)
    refine And.intro (freshHead_callRcu 7 hu rfl) (And.intro (freshHead_callRcu 8 hu' rfl) ?_)
    exact meets_freshHead (by simp)

end run

end LibCoro.Rcu
