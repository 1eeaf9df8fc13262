import LibCoro.Chain
import LibCoro.GracePeriod

namespace LibCoro.Rcu

open Machine Chain

variable {C : Type} [DecidableEq C]

def State.links (s : State C) (a : Addr) : Option Addr := (s.heads a).next

def Unqueued (s : State C) (a : Addr) : Prop :=
  ∀ c l, Linked s.links (s.data c).head l → a ∉ l

/-- The step calls `thread_call_rcu`, either itself or from a `call_rcu` that finds
1024 callbacks registered. -/
def StartsDrain (s : State C) : Act C → Prop
  | .threadCallRcu _ => True
  | .callRcu k _ _ => ∃ c, s.top k = some c ∧ 1024 ≤ ((s.data c).count + 1) % 2 ^ 64
  | _ => False

/-- No drain starts inside a read-side section of its own core, and `call_rcu` gets
heads that are not queued and have a null link. -/
def DrainsOutside (s : State C) (a : Act C) : Prop :=
  Disciplined s a ∧
    (∀ k head func, a = .callRcu k head func → Unqueued s head ∧ s.links head = none) ∧
    (StartsDrain s a → ∀ k, a.actor = some k → s.depth k = 0)

structure Queues (s : State C) (q : Nat → List Addr) : Prop where
  linked : ∀ c, Linked s.links (s.data c).head (q c)
  tail : ∀ c, (s.data c).tail = (q c).getLast?
  disjoint : ∀ c d, c ≠ d → ∀ a ∈ q c, a ∉ q d
  node : ∀ k m node, s.pc k = .drainLoop m node → ∀ c, s.top k = some c → node = (s.data c).head

omit [DecidableEq C] in
theorem links_enqueue (s : State C) (c : Nat) (head : Addr) :
    (rcuDataEnqueue s c head).links = enqueueLink s.links (s.data c).tail head := by
  funext a
  unfold rcuDataEnqueue
  cases (s.data c).tail with
  | none => rfl
  | some t => by_cases ha : a = t <;> simp [enqueueLink, State.links, ha]

omit [DecidableEq C] in
theorem enqueue_version (s : State C) (c : Nat) (head a : Addr) :
    ((rcuDataEnqueue s c head).heads a).version = (s.heads a).version := by
  unfold rcuDataEnqueue
  split
  · rfl
  · rename_i t _
    by_cases ha : a = t <;> simp [ha]

theorem Queues.queue {s : State C} {q : Nat → List Addr} (hq : Queues s q) (c : Nat) :
    TailQueue s.links (s.data c).head (s.data c).tail (q c) := ⟨hq.linked c, hq.tail c⟩

theorem advance_of_busy {n : Nat} {s t : State C} {a : Act C} {k : C} {c : Nat}
    (h : step n s a = some t) (hk : s.top k = some c) (hpc : s.pc k ≠ .idle)
    (hc : s.site a = some c) : a = .advance k := by
  have hhead := ((top_eq_some s k c).mp hk).2
  have hcalm : s.calm c = false := by simp [State.calm, hhead, hpc]
  have hself : ∀ j, s.top j = some c → j = k := fun j hj => top_unique hj hk
  cases moves_of_step h with
  | resume d j _ _ _ hd | offline d _ hd =>
    cases hc
    rw [hcalm] at hd
    cases hd
  | deliver j w m i d hj hst =>
    simp only [State.site, hj, Option.some.injEq] at hc
    rw [← hc, hst] at hhead
    cases hhead
  | call d j _ hj h => exact absurd (hself j (h.site.symm.trans hc) ▸ hj) hpc
  | advance d j _ _ => exact congrArg Act.advance (hself j hc)

theorem Calls.place {s t : State C} {c : Nat} {k : C} {a : Act C} (h : Calls s c k a t)
    (hk : s.top k = some c) (hpc : s.pc k = .idle) :
    t.pc k = .idle ∨ t.pc k = .lockCompare s.sequencer ∨ t.pc k = .sync (ticket s) c 0 ∨
      StartsDrain s a ∧ t.pc k = .drainScan uintMax 0 := by
  cases h with
  | suspend | count _ | readUnlock _ | dereference _ | assign _ _ => exact .inl hpc
  | load _ => exact .inr (.inl (pc_goto _ k _))
  | synchronize => exact .inr (.inr (.inl (pc_goto _ k _)))
  | threadCallRcu => exact .inr (.inr (.inr ⟨trivial, pc_goto s k _⟩))
  | callRcu head func =>
    rw [pc_callRcu_self]
    split_ifs with hcount
    · exact .inr (.inr (.inr ⟨⟨c, hk, hcount⟩, rfl⟩))
    · exact .inl hpc

def RunsCallback (s : State C) (k : C) (a : Addr) : Prop :=
  ∃ c m, s.top k = some c ∧ s.pc k = .drainLoop m (some a) ∧ (s.heads a).version ≤ m

theorem busy_frame {n : Nat} {s t : State C} {a : Act C} {k : C} (hi : Inv s)
    (h : step n s a = some t) (hact : a.actor ≠ some k) (hpc : t.pc k ≠ .idle)
    (hy : ¬ (t.pc k).Yielded) : s.pc k = t.pc k ∧ s.top k = t.top k := by
  obtain ⟨d, hd⟩ := site_of_step h
  have hframe := frame_step h hd
  have hsame : t.pc k = s.pc k := hframe.pc k (Ne.symm hact)
  rw [hsame] at hpc hy
  obtain ⟨e, he⟩ := hi.running k hpc hy
  have hed : e ≠ d := by
    rintro rfl
    exact hact (congrArg Act.actor (advance_of_busy h he hpc hd))
  exact ⟨hsame.symm, he.trans (hframe.top k e he hed (Ne.symm hact)).symm⟩

theorem heads_step {n : Nat} {s t : State C} {a : Act C} (h : step n s a = some t)
    (hcall : ∀ k head func, a ≠ .callRcu k head func)
    (hrun : ∀ k x, a = .advance k → ¬ RunsCallback s k x) : t.data = s.data ∧ t.heads = s.heads := by
  cases moves_of_step h with
  | resume | deliver | offline => exact ⟨rfl, rfl⟩
  | call c k _ _ h =>
    cases h with
    | callRcu head func => exact absurd rfl (hcall k head func)
    | _ => exact ⟨rfl, rfl⟩
  | advance c k hk h =>
    cases h with
    | callback m x hpc hm => exact absurd ⟨c, m, hk, hpc, hm⟩ (hrun k x rfl)
    | _ => exact ⟨rfl, rfl⟩

theorem drainLoop_of_step {n : Nat} {s t : State C} {a : Act C} {k : C} {m : Nat}
    {node : Option Addr} (h : step n s a = some t) (hact : a.actor = some k)
    (hpc : t.pc k = .drainLoop m node) : a = .advance k ∧
      ∃ c, s.top k = some c ∧ t.top k = some c ∧
        ((∃ i, n ≤ i ∧ s.pc k = .drainScan m i ∧ node = (s.data c).head) ∨
          ∃ x, s.pc k = .drainLoop m (some x) ∧ (s.heads x).version ≤ m ∧
            node = (s.heads x).next) := by
  cases moves_of_step h with
  | offline c _ _ => cases hact
  | resume c j _ _ hj _ =>
    cases hact
    cases hj.symm.trans hpc
  | deliver j w m' i c _ _ =>
    cases hact
    rw [pc_goto] at hpc
    cases hpc
  | call c j hc hj h =>
    cases h.actor.symm.trans hact
    obtain hp | hp | hp | ⟨-, hp⟩ := h.place hc hj <;> rw [hp] at hpc <;> cases hpc
  | advance c j hc h =>
    cases hact
    refine ⟨rfl, c, hc, ?_⟩
    cases h with
    | looked m' i hj hin =>
      rw [pc_goto] at hpc
      cases hpc
      exact ⟨hc, .inl ⟨i, hin, hj, rfl⟩⟩
    | callback m' x hj hm =>
      rw [pc_goto] at hpc
      cases hpc
      exact ⟨hc, .inr ⟨x, hj, hm, rfl⟩⟩
    | _ => simp [State.goto, State.setDepth] at hpc

theorem queues_same {n : Nat} {s t : State C} {a : Act C} {q : Nat → List Addr} (hi : Inv s)
    (hq : Queues s q) (h : step n s a = some t) (hdata : t.data = s.data)
    (hheads : t.heads = s.heads) (hrun : ∀ k x, a = .advance k → ¬ RunsCallback s k x) :
    Queues t q := by
  have hlinks : t.links = s.links := by
    funext x
    exact congrArg RcuHead.next (congrFun hheads x)
  refine ⟨fun c => ?_, fun c => ?_, hq.disjoint, fun k m node hpc c hc => ?_⟩
  · rw [hlinks, hdata]
    exact hq.linked c
  · rw [hdata]
    exact hq.tail c
  · rw [hdata]
    by_cases hact : a.actor = some k
    · obtain ⟨hadv, d, hd, hdt, hpc' | ⟨x, hpc', hle, -⟩⟩ := drainLoop_of_step h hact hpc
      · obtain ⟨i, -, -, rfl⟩ := hpc'
        rw [Option.some.inj (hdt.symm.trans hc)]
      · exact absurd ⟨d, m, hd, hpc', hle⟩ (hrun k x hadv)
    · obtain ⟨hpc', htop⟩ := busy_frame hi h hact (by simp [hpc]) (by simp [hpc, Pc.Yielded])
      exact hq.node k m node (hpc'.trans hpc) c (htop.trans hc)

theorem links_callRcu (s : State C) (c : Nat) (k : C) (head func : Addr) :
    (callRcu s c k head func).links = enqueueLink s.links (s.data c).tail head := by
  let u : State C := { s with
    sequencer := ticket s
    heads := Function.update s.heads head { s.heads head with version := ticket s, func := func } }
  have hlinks : u.links = s.links := by
    funext a
    by_cases ha : a = head <;> simp [u, State.links, ha]
  have hcall : (callRcu s c k head func).links = (rcuDataEnqueue u c head).links := by
    dsimp only [callRcu]
    split_ifs <;> rfl
  rw [hcall, links_enqueue, hlinks]

theorem queues_callRcu {s : State C} {q : Nat → List Addr} {c : Nat} {k : C} {head : Addr}
    (func : Addr) (hq : Queues s q) (hk : s.top k = some c) (hpc : s.pc k = .idle) (hu : Unqueued s head)
    (hn : s.links head = none) :
    Queues (callRcu s c k head func) (Function.update q c (q c ++ [head])) := by
  have hmem : ∀ d, head ∉ q d := fun d => hu d (q d) (hq.linked d)
  have hown := (hq.queue c).enqueue hn (hmem c)
  have hin : ∀ d a, a ∈ Function.update q c (q c ++ [head]) d → a ∈ q d ∨ d = c ∧ a = head := by
    intro d a ha
    by_cases hdc : d = c
    · subst hdc
      simpa using ha
    · exact .inl (by simpa [hdc] using ha)
  refine ⟨fun d => ?_, fun d => ?_, fun d e hde a hd he => ?_, fun j m node hj d hd => ?_⟩
  · rw [links_callRcu, data_callRcu]
    by_cases hdc : d = c
    · subst hdc
      simpa using hown.linked
    · have hother := (hq.queue c).linked_other head (hq.linked d) (hq.disjoint c d (Ne.symm hdc))
      simpa [hdc] using hother
  · rw [data_callRcu]
    by_cases hdc : d = c
    · subst hdc
      simp
    · simpa [hdc] using hq.tail d
  · obtain had | ⟨rfl, rfl⟩ := hin d a hd <;> obtain hae | ⟨rfl, hah⟩ := hin e a he
    · exact hq.disjoint d e hde a had hae
    · exact hmem d (hah ▸ had)
    · exact hmem e hae
    · exact hde rfl
  · by_cases hjk : j = k
    · rw [hjk, pc_callRcu_self, hpc] at hj
      split_ifs at hj
    · rw [top_callRcu] at hd
      have hframe := frame_callRcu s c k head func
      have hdc : d ≠ c := by
        rintro rfl
        exact hjk (top_unique hd hk)
      rw [hframe.pc j fun e => hjk (Option.some.inj e)] at hj
      rw [hframe.data d hdc]
      exact hq.node j m node hj d hd

theorem queues_runCallback {n : Nat} {s t : State C} {q : Nat → List Addr} {c : Nat} {k : C} {x : Addr}
    (hq : Queues s q) (hk : s.top k = some c) (hx : RunsCallback s k x)
    (h : step n s (.advance k) = some t) :
    ∃ l, q c = x :: l ∧ Queues t (Function.update q c l) ∧ t.heads = s.heads := by
  obtain ⟨d, m, hd, hpc, hle⟩ := hx
  obtain rfl : d = c := Option.some.inj (hd.symm.trans hk)
  have hhead := hq.node k m _ hpc d hk
  obtain ⟨l, hl, -⟩ := (linked_some x (q d)).mp (hhead ▸ hq.linked d)
  have hrest : TailQueue s.links (s.heads x).next
      (if (s.heads x).next = none then none else (s.data d).tail) l := (hl ▸ hq.queue d).dequeue.2
  simp only [step, hk, Option.bind_some, advance, hpc, Nat.not_lt.mpr hle, if_false] at h
  cases h
  refine ⟨l, hl, ⟨fun e => ?_, fun e => ?_, fun e f hef y hy => ?_, fun j m' node hj e he => ?_⟩, rfl⟩
  · change Linked s.links _ _
    by_cases hed : e = d
    · subst hed
      simpa [runCallback, State.goto] using hrest.linked
    · simpa [runCallback, State.goto, hed] using hq.linked e
  · by_cases hed : e = d
    · subst hed
      simpa [runCallback, State.goto] using hrest.last
    · simpa [runCallback, State.goto, hed] using hq.tail e
  · have hsub : ∀ i z, z ∈ Function.update q d l i → z ∈ q i := by
      intro i z hz
      by_cases hid : i = d
      · subst hid
        rw [Function.update_self] at hz
        rw [hl]
        exact List.mem_cons_of_mem x hz
      · rwa [Function.update_of_ne hid] at hz
    exact fun hyf => hq.disjoint e f hef y (hsub e y hy) (hsub f y hyf)
  · by_cases hjk : j = k
    · subst hjk
      obtain rfl : e = d := Option.some.inj (he.symm.trans hk)
      simp [State.goto] at hj
      simp [State.goto, runCallback, hj.2]
    · have hed : e ≠ d := by
        rintro rfl
        exact hjk (top_unique he hk)
      have hj' : s.pc j = .drainLoop m' node := by simpa [State.goto, runCallback, hjk] using hj
      simpa [State.goto, runCallback, hed] using hq.node j m' node hj' e he

theorem version_callRcu (s : State C) (c : Nat) (k : C) (head func x : Addr) :
    ((callRcu s c k head func).heads x).version =
      if x = head then ticket s else (s.heads x).version := by
  have hheads : (callRcu s c k head func).heads = (rcuDataEnqueue { s with
      sequencer := ticket s
      heads := Function.update s.heads head { s.heads head with version := ticket s, func := func } }
      c head).heads := by
    dsimp only [callRcu]
    split_ifs <;> rfl
  rw [hheads, enqueue_version]
  by_cases hx : x = head <;> simp [hx]

/-- A queued head stays queued, with its version, until its callback runs. -/
theorem queues_step {n : Nat} {s t : State C} {a : Act C} {q : Nat → List Addr} (hi : Inv s)
    (hd : DrainsOutside s a) (hq : Queues s q) (h : step n s a = some t) :
    ∃ q', Queues t q' ∧ ∀ c, ∀ x ∈ q c, (t.heads x).version = (s.heads x).version ∧
      ((∀ k, a = .advance k → ¬ RunsCallback s k x) → x ∈ q' c) := by
  by_cases hcall : ∃ k head func, a = .callRcu k head func
  · obtain ⟨k, head, func, rfl⟩ := hcall
    obtain ⟨c, hk, hpc, rfl⟩ := (call_eq_some s t k _).mp h
    obtain ⟨hu, hn⟩ := hd.2.1 k head func rfl
    refine ⟨_, queues_callRcu func hq hk hpc hu hn, fun d x hx => ⟨?_, fun _ => ?_⟩⟩
    · have hxh : x ≠ head := by
        rintro rfl
        exact hu d (q d) (hq.linked d) hx
      rw [version_callRcu, if_neg hxh]
    · by_cases hdc : d = c
      · subst hdc
        simp [hx]
      · rwa [Function.update_of_ne hdc]
  · have hcall' : ∀ k head func, a ≠ .callRcu k head func :=
      fun k head func e => hcall ⟨k, head, func, e⟩
    by_cases hrun : ∃ k x, a = .advance k ∧ RunsCallback s k x
    · obtain ⟨k, x, rfl, hx⟩ := hrun
      obtain ⟨c, m, hk, -⟩ := id hx
      obtain ⟨l, hl, hqt, hheads⟩ := queues_runCallback hq hk hx h
      refine ⟨_, hqt, fun d y hy => ⟨by rw [hheads], fun hne => ?_⟩⟩
      by_cases hdc : d = c
      · subst hdc
        rw [hl, List.mem_cons] at hy
        rw [Function.update_self]
        refine hy.resolve_left ?_
        rintro rfl
        exact hne k rfl hx
      · rwa [Function.update_of_ne hdc]
    · have hrun' : ∀ k x, a = .advance k → ¬ RunsCallback s k x :=
        fun k x e hx => hrun ⟨k, x, e, hx⟩
      obtain ⟨hdata, hheads⟩ := heads_step h hcall' hrun'
      exact ⟨q, queues_same hi hq h hdata hheads hrun', fun c x hx => ⟨by rw [hheads], fun _ => hx⟩⟩

end LibCoro.Rcu
