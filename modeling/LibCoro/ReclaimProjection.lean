import LibCoro.RcuProgress
import LibCoro.ReclaimLinks

namespace LibCoro.Reclaim

open Machine Rcu

variable {n c : Nat}

def enqueuedHeads (heads : Addr → RcuHead) (tail : Option Addr) (version head func : Addr) :
    Addr → RcuHead :=
  let heads' := Function.update heads head { heads head with version := version, func := func }
  match tail with
  | none => heads'
  | some a => Function.update heads' a { heads' a with next := some head }

theorem heads_callRcu (r : State) (head func : Addr) :
    (callRcu r head func).heads = enqueuedHeads r.heads r.data.tail (ticket r) head func := by
  have hcall : (callRcu r head func).heads = (rcuDataEnqueue { r with
      sequencer := ticket r
      heads := Function.update r.heads head { r.heads head with version := ticket r, func := func }
      registered := r.registered ++ [head] } head).heads := by
    dsimp only [callRcu]
    split_ifs <;> rfl
  rw [hcall]
  unfold rcuDataEnqueue enqueuedHeads
  cases r.data.tail <;> rfl

theorem versions_callRcu (r : State) (head func : Addr) :
    (callRcu r head func).versions = r.versions := by
  dsimp only [callRcu]
  split_ifs <;> exact (enqueue_rest _ head).1

theorem run_write (f : Addr → RcuHead) (xs : List Addr) (r : State) :
    run (step n c) r (xs.map fun x => .write x (f x)) =
        some { r with heads := fun x => if x ∈ xs then f x else r.heads x } ∧
      trace (step n c) emit r (xs.map fun x => .write x (f x)) = [] := by
  induction xs generalizing r with
  | nil => simp [run, trace]
  | cons x xs ih =>
    obtain ⟨hrun, htrace⟩ := ih { r with heads := Function.update r.heads x (f x) }
    have hstep : step n c r (.write x (f x)) =
        some { r with heads := Function.update r.heads x (f x) } := rfl
    constructor
    · rw [List.map_cons, run_cons]
      refine ⟨_, hstep, hrun.trans (congrArg some ?_)⟩
      have hheads : (fun y => if y ∈ xs then f y else Function.update r.heads x (f x) y) =
          fun y => if y ∈ x :: xs then f y else r.heads y := by
        funext y
        by_cases hy : y = x
        · subst hy
          simp
        · simp [hy]
      simp only [hheads]
    · rw [List.map_cons, trace_cons hstep, htrace]
      rfl

end LibCoro.Reclaim

namespace LibCoro.Rcu

open Machine Chain

variable {C : Type} [DecidableEq C]

def Pc.frames : Pc → List Reclaim.Frame
  | .drainScan min_version i => [.scan min_version i]
  | .drainLoop min_version node => [.loop min_version node]
  | _ => []

/-- What a step does to the queue of core `c`. -/
def emitAt (c : Nat) (s : State C) : Act C → Option Reclaim.Event
  | .callRcu k head func => if s.top k = some c then some (.registered head func) else none
  | .advance k =>
    if s.top k = some c then
      match s.pc k with
      | .drainLoop min_version (some head) =>
        if min_version < (s.heads head).version then none else some (.ran head (s.heads head).func)
      | _ => none
    else none
  | _ => none

def written (s : State C) (d : Nat) (head : Addr) : List Addr := head :: (s.data d).tail.toList

/-- A step as the thread of core `c` sees it. -/
def acts (c : Nat) (s : State C) : Act C → List Reclaim.Act
  | .offline d => [.publish d DONE]
  | .synchronize _ => [.fetchAdd]
  | .callRcu k head func =>
    match s.top k with
    | some d =>
      if d = c then [.callRcu head func]
      else .fetchAdd :: (written s d head).map fun x => .write x ((callRcu s d k head func).heads x)
    | none => []
  | .threadCallRcu k => if s.top k = some c then [.threadCallRcu] else []
  | .advance k =>
    match s.top k, s.pc k with
    | some d, .lockStore global_version => [.publish d global_version]
    | some d, .syncYield _ _ _ => [.publish d DONE]
    | some d, .drainScan _ _ => if d = c then [.advance] else []
    | some d, .drainLoop _ none => if d = c then [.advance] else []
    | some d, .drainLoop min_version (some head) =>
      if d = c then if min_version < (s.heads head).version then [.advance] else [.advance, .ret]
      else []
    | _, _ => []
  | _ => []

structure Shows (s : State C) (c : Nat) (frames : List Reclaim.Frame) : Prop where
  busy : ∀ k, s.top k = some c → frames = (s.pc k).frames
  calm : (∀ k, s.top k ≠ some c) → frames = []

/-- The thread of core `c` as a machine of its own. -/
structure Projects (c : Nat) (s : State C) (r : Reclaim.State) : Prop where
  versions : r.versions = s.versions
  sequencer : r.sequencer = s.sequencer
  data : r.data = s.data c
  heads : r.heads = s.heads
  shows : Shows s c r.frames

theorem projects_init (c : Nat) (heads : Addr → RcuHead) (pointers : Addr → Addr) :
    Projects c (init heads pointers : State C) (Reclaim.init heads) :=
  ⟨rfl, rfl, rfl, rfl, ⟨fun _ _ => rfl, fun _ => rfl⟩⟩

section shows

variable {n c : Nat} {s t : State C} {a : Act C} {frames : List Reclaim.Frame}

theorem Pc.frames_busy {p : Pc} (h : p.frames ≠ []) : p ≠ .idle ∧ ¬ p.Yielded := by
  constructor
  · rintro rfl
    exact h rfl
  · intro hy
    cases p <;> first | exact hy | exact h rfl

theorem shows_self {k : C} (hk : t.top k = some c) : Shows t c (t.pc k).frames :=
  ⟨fun _ hj => top_unique hk hj ▸ rfl, fun h => absurd hk (h k)⟩

theorem Shows.other (hs : Shows s c frames) (hl : Located s) (h : step n s a = some t)
    (hbefore : ∀ k, a.actor = some k → s.top k = some c → (s.pc k).frames = [])
    (hafter : ∀ k, a.actor = some k → t.top k = some c → (t.pc k).frames = []) :
    Shows t c frames := by
  obtain ⟨d, hd⟩ := site_of_step h
  have hframe := frame_step h hd
  by_cases hf : frames = []
  · refine ⟨fun k hk => ?_, fun _ => hf⟩
    rw [hf]
    by_contra hne
    have hact : some k ≠ a.actor := fun e => hne (hafter k e.symm hk).symm
    rw [hframe.pc k hact] at hne
    obtain ⟨hidle, hy⟩ := Pc.frames_busy (Ne.symm hne)
    obtain ⟨e, he⟩ := hl k hidle hy
    have hed : e ≠ d := by
      rintro rfl
      exact hact (congrArg Act.actor (advance_of_busy h he hidle hd)).symm
    have hec : e = c := Option.some.inj ((hframe.top k e he hed hact).symm.trans hk)
    exact hne (hf.symm.trans (hs.busy k (hec ▸ he)))
  · obtain ⟨k, hk⟩ : ∃ k, s.top k = some c := by
      by_contra hno
      exact hf (hs.calm fun k hk => hno ⟨k, hk⟩)
    have hfk := hs.busy k hk
    have hact : some k ≠ a.actor := fun e => hf (hfk.trans (hbefore k e.symm hk))
    have hidle := (Pc.frames_busy (hfk ▸ hf)).1
    have hcd : c ≠ d := by
      rintro rfl
      exact hact (congrArg Act.actor (advance_of_busy h hk hidle hd)).symm
    have hkt := hframe.top k c hk hcd hact
    rw [hfk, ← hframe.pc k hact]
    exact shows_self hkt

end shows

section projects

variable {n c d : Nat} {s t : State C} {a : Act C} {k : C} {r : Reclaim.State}

def Mirrors (n c : Nat) (s : State C) (a : Act C) (t : State C) (r : Reclaim.State) : Prop :=
  ∃ r', run (Reclaim.step n c) r (acts c s a) = some r' ∧
    trace (Reclaim.step n c) Reclaim.emit r (acts c s a) = (emitAt c s a).toList ∧ Projects c t r'

theorem mirrors_silent (ha : acts c s a = []) (he : emitAt c s a = none) (hp : Projects c t r) :
    Mirrors n c s a t r := by
  refine ⟨r, ?_, ?_, hp⟩
  · rw [ha]
    rfl
  · rw [ha, he]
    rfl

theorem mirrors_one {b : Reclaim.Act} {r' : Reclaim.State} (ha : acts c s a = [b])
    (hb : Reclaim.step n c r b = some r') (he : Reclaim.emit r b = emitAt c s a)
    (hp : Projects c t r') : Mirrors n c s a t r := by
  refine ⟨r', ?_, ?_, hp⟩
  · rw [ha]
    exact (run_cons r r' b []).mpr ⟨r', hb, rfl⟩
  · rw [ha, trace_cons hb, he]
    exact List.append_nil _

theorem Projects.same (hp : Projects c s r) (hv : t.versions = s.versions)
    (hq : t.sequencer = s.sequencer) (hd : t.data c = s.data c) (hh : t.heads = s.heads)
    (hs : Shows t c r.frames) : Projects c t r :=
  ⟨hp.versions.trans hv.symm, hp.sequencer.trans hq.symm, hp.data.trans hd.symm,
    hp.heads.trans hh.symm, hs⟩

theorem Projects.publish (hp : Projects c s r) (v : Nat)
    (hv : t.versions = Function.update s.versions d v) (hq : t.sequencer = s.sequencer)
    (hd : t.data c = s.data c) (hh : t.heads = s.heads) (hs : Shows t c r.frames) :
    Projects c t { r with versions := Function.update r.versions d v } := by
  refine ⟨?_, hp.sequencer.trans hq.symm, hp.data.trans hd.symm, hp.heads.trans hh.symm, hs⟩
  rw [hv, ← hp.versions]

theorem heads_callRcu (s : State C) (d : Nat) (k : C) (head func : Addr) :
    (callRcu s d k head func).heads =
      Reclaim.enqueuedHeads s.heads (s.data d).tail (ticket s) head func := by
  have hcall : (callRcu s d k head func).heads = (rcuDataEnqueue { s with
      sequencer := ticket s
      heads := Function.update s.heads head { s.heads head with version := ticket s, func := func } }
      d head).heads := by
    dsimp only [callRcu]
    split_ifs <;> rfl
  rw [hcall]
  unfold rcuDataEnqueue Reclaim.enqueuedHeads
  cases (s.data d).tail <;> rfl

theorem heads_callRcu_other (s : State C) (d : Nat) (k : C) {head x : Addr} (func : Addr)
    (hx : x ∉ written s d head) : (callRcu s d k head func).heads x = s.heads x := by
  rw [heads_callRcu]
  unfold Reclaim.enqueuedHeads
  simp only [written, List.mem_cons, Option.mem_toList, not_or] at hx
  cases ht : (s.data d).tail with
  | none => exact Function.update_of_ne hx.1 _ _
  | some a =>
    have hxa : x ≠ a := by
      rintro rfl
      exact hx.2 ht
    exact (Function.update_of_ne hxa _ _).trans (Function.update_of_ne hx.1 _ _)

theorem mirrors_callRcu (hp : Projects c s r) (hl : Located s) (hk : s.top k = some d)
    (hpc : s.pc k = .idle) (head func : Addr)
    (h : step n s (.callRcu k head func) = some (callRcu s d k head func)) :
    Mirrors n c s (.callRcu k head func) (callRcu s d k head func) r := by
  have hticket : Reclaim.ticket r = ticket s := by rw [Reclaim.ticket, hp.sequencer, ticket]
  have hkt : (callRcu s d k head func).top k = some d := by rwa [top_callRcu]
  by_cases hdc : d = c
  · subst hdc
    have hframes : r.frames = [] := by
      rw [hp.shows.busy k hk, hpc]
      rfl
    have hready : r.ready = true := by rw [Reclaim.State.ready, hframes]
    have ht := Reclaim.callRcu_registers r head func
    have hstep : Reclaim.step n d r (.callRcu head func) = some (Reclaim.callRcu r head func) :=
      (when_eq_some _ _ _).mpr ⟨hready, rfl⟩
    refine mirrors_one (by simp [acts, hk]) hstep ?_ ⟨?_, ?_, ?_, ?_, ?_⟩
    · simp [Reclaim.emit, emitAt, hk]
    · rw [versions_callRcu, ← hp.versions]
      exact Reclaim.versions_callRcu r head func
    · rw [ht.sequencer, hticket, sequencer_callRcu]
    · rw [ht.data, data_callRcu, hp.data]
      simp
    · rw [Reclaim.heads_callRcu, heads_callRcu, hp.heads, hp.data, hticket]
    · rw [ht.frames, hp.data, hframes]
      have hshow := shows_self hkt
      rw [pc_callRcu_self, hpc] at hshow
      split_ifs at hshow ⊢ with hfull
      · exact hshow
      · exact hshow
  · obtain ⟨hrun, htrace⟩ := Reclaim.run_write (n := n) (c := c) (callRcu s d k head func).heads
      (written s d head) { r with sequencer := Reclaim.ticket r }
    have hfetch : Reclaim.step n c r .fetchAdd = some { r with sequencer := Reclaim.ticket r } := rfl
    have hacts : acts c s (.callRcu k head func) = .fetchAdd ::
        (written s d head).map fun x => .write x ((callRcu s d k head func).heads x) := by
      simp [acts, hk, hdc]
    refine ⟨_, hacts ▸ (run_cons r _ _ _).mpr ⟨_, hfetch, hrun⟩, ?_, ?_⟩
    · rw [hacts, trace_cons hfetch, htrace]
      simp [Reclaim.emit, emitAt, hk, hdc]
    · have hshow : Shows (callRcu s d k head func) c r.frames := by
        refine hp.shows.other hl h ?_ ?_
        · intro j hj hjc
          cases hj
          exact absurd (Option.some.inj (hk.symm.trans hjc)) hdc
        · intro j hj hjc
          cases hj
          exact absurd (Option.some.inj (hkt.symm.trans hjc)) hdc
      refine ⟨?_, ?_, ?_, ?_, hshow⟩
      · exact hp.versions.trans (versions_callRcu s d k head func).symm
      · exact hticket.trans (sequencer_callRcu s d k head func).symm
      · exact hp.data.trans ((frame_callRcu s d k head func).data c (Ne.symm hdc)).symm
      · funext x
        by_cases hx : x ∈ written s d head
        · exact if_pos hx
        · refine (if_neg hx).trans ?_
          rw [heads_callRcu_other s d k func hx, hp.heads]

theorem Shows.calls {frames : List Reclaim.Frame} (hs : Shows s c frames) (hl : Located s)
    (h : step n s a = some t) (hact : a.actor = some k) (hpc : s.pc k = .idle)
    (hpc' : (t.pc k).frames = []) : Shows t c frames := by
  refine hs.other hl h ?_ ?_ <;> intro j hj _ <;> cases hj.symm.trans hact
  · rw [hpc]
    rfl
  · exact hpc'

theorem mirrors_calls (hp : Projects c s r) (hl : Located s) (hk : s.top k = some d)
    (hpc : s.pc k = .idle) (hc : Calls s d k a t) (h : step n s a = some t) : Mirrors n c s a t r := by
  have hshow : (t.pc k).frames = [] → Shows t c r.frames :=
    hp.shows.calls hl h hc.actor hpc
  have hidle : (s.pc k).frames = [] := by
    rw [hpc]
    rfl
  cases hc with
  | suspend | count _ | readUnlock _ | dereference _ | assign _ _ =>
    exact mirrors_silent rfl rfl (hp.same rfl rfl rfl rfl (hshow hidle))
  | load _ =>
    refine mirrors_silent rfl rfl (hp.same rfl rfl rfl rfl (hshow ?_))
    rw [pc_goto]
    rfl
  | synchronize =>
    have hfetch : Reclaim.step n c r .fetchAdd = some { r with sequencer := Reclaim.ticket r } := rfl
    refine mirrors_one (b := .fetchAdd) rfl hfetch rfl
      ⟨hp.versions, ?_, hp.data, hp.heads, hshow ?_⟩
    · show Reclaim.ticket r = ticket s
      rw [Reclaim.ticket, hp.sequencer, ticket]
    · rw [synchronizeRcu, pc_goto]
      rfl
  | callRcu head func => exact mirrors_callRcu hp hl hk hpc head func h
  | threadCallRcu =>
    by_cases hdc : d = c
    · subst hdc
      have hframes : r.frames = [] := (hp.shows.busy k hk).trans hidle
      have hstep : Reclaim.step n d r .threadCallRcu = some (Reclaim.threadCallRcu r) :=
        (when_eq_some _ _ _).mpr ⟨by rw [Reclaim.State.ready, hframes], rfl⟩
      refine mirrors_one (b := .threadCallRcu) (by simp [acts, hk]) hstep rfl
        ⟨hp.versions, hp.sequencer, hp.data, hp.heads, ?_⟩
      have hkt : (s.goto k (.drainScan uintMax 0)).top k = some d := hk
      have hshow := shows_self hkt
      rw [pc_goto] at hshow
      rw [Reclaim.threadCallRcu, hframes]
      exact hshow
    · refine mirrors_silent (by simp [acts, hk, hdc]) rfl (hp.same rfl rfl rfl rfl ?_)
      refine hp.shows.other hl h ?_ ?_ <;> intro j hj hjc <;> cases hj
      · exact absurd (Option.some.inj (hk.symm.trans hjc)) hdc
      · exact absurd (Option.some.inj (hk.symm.trans hjc)) hdc

theorem mirrors_elsewhere (hp : Projects c s r) (hl : Located s) (hk : s.top k = some d)
    (hkt : t.top k = some d) (hdc : d ≠ c) (h : step n s (.advance k) = some t)
    (ha : acts c s (.advance k) = []) (hv : t.versions = s.versions)
    (hq : t.sequencer = s.sequencer) (hd : t.data c = s.data c) (hh : t.heads = s.heads) :
    Mirrors n c s (.advance k) t r := by
  have hne : some d ≠ some c := fun e => hdc (Option.some.inj e)
  refine mirrors_silent ha (by simp [emitAt, hk, hdc]) (hp.same hv hq hd hh ?_)
  refine hp.shows.other hl h ?_ ?_ <;> intro j hj hjc <;> cases hj
  · exact absurd (hk.symm.trans hjc) hne
  · exact absurd (hkt.symm.trans hjc) hne

theorem mirrors_own (hp : Projects c s r) (hkt : t.top k = some c)
    (ha : acts c s (.advance k) = [.advance]) (he : emitAt c s (.advance k) = none)
    (hb : Reclaim.step n c r .advance = some { r with frames := (t.pc k).frames })
    (hc : Reclaim.calls r = none) (hv : t.versions = s.versions) (hq : t.sequencer = s.sequencer)
    (hd : t.data = s.data) (hh : t.heads = s.heads) : Mirrors n c s (.advance k) t r := by
  refine mirrors_one ha hb ?_ ?_
  · rw [he, Reclaim.emit, hc]
    rfl
  · exact ⟨hp.versions.trans hv.symm, hp.sequencer.trans hq.symm,
      hp.data.trans (congrFun hd c).symm, hp.heads.trans hh.symm, shows_self hkt⟩

theorem mirrors_callback (hp : Projects c s r) (hk : s.top k = some c) {m : Nat} {x : Addr}
    (hpc : s.pc k = .drainLoop m (some x)) (hm : (s.heads x).version ≤ m) :
    Mirrors n c s (.advance k)
      ((runCallback s c x).goto k (.drainLoop m (s.heads x).next)) r := by
  have hframes : r.frames = [.loop m (some x)] := by
    rw [hp.shows.busy k hk, hpc]
    rfl
  have hm' : ¬ m < (r.heads x).version := by
    rw [hp.heads]
    omega
  have hcall : Reclaim.step n c r .advance = some { r with
      frames := [.callback m x (r.heads x).next]
      registered := r.registered.erase x } := by
    simp [Reclaim.step, Reclaim.advance, hframes, hm']
  have hran : Reclaim.emit r .advance = some (.ran x (r.heads x).func) := by
    simp [Reclaim.emit, Reclaim.calls, hframes, hm']
  have hacts : acts c s (.advance k) = [.advance, .ret] := by
    simp [acts, hk, hpc, Nat.not_lt.mpr hm]
  have hemit : emitAt c s (.advance k) = some (.ran x (s.heads x).func) := by
    simp [emitAt, hk, hpc, Nat.not_lt.mpr hm]
  refine ⟨_, hacts ▸ (run_cons r _ _ _).mpr ⟨_, hcall, (run_cons _ _ _ _).mpr ⟨_, rfl, rfl⟩⟩,
    ?_, ?_⟩
  · rw [hacts, trace_cons hcall, hran, hemit, hp.heads]
    rfl
  · have hkt : ((runCallback s c x).goto k (.drainLoop m (s.heads x).next)).top k = some c := hk
    have hshow := shows_self hkt
    rw [pc_goto] at hshow
    refine ⟨hp.versions, hp.sequencer, ?_, hp.heads, ?_⟩
    · simp [State.goto, runCallback, hp.heads, hp.data]
    · rw [hp.heads]
      exact hshow

theorem mirrors_advances (hp : Projects c s r) (hl : Located s) (hk : s.top k = some d)
    (hc : Advances n s d k t) (h : step n s (.advance k) = some t) :
    Mirrors n c s (.advance k) t r := by
  have hquiet : (s.pc k).frames = [] → (t.pc k).frames = [] → Shows t c r.frames := by
    intro hbefore hafter
    refine hp.shows.other hl h ?_ ?_ <;> intro j hj _ <;> cases hj
    · exact hbefore
    · exact hafter
  have hf : ∀ m i, s.pc k = .drainScan m i → d = c → r.frames = [.scan m i] := by
    intro m i hpc hdc
    rw [hp.shows.busy k (hdc ▸ hk), hpc]
    rfl
  cases hc with
  | same g hpc _ | other g hpc _ | pass w m i hpc _ _ | wait w m i hpc _ _ _ | synced w m i hpc _ =>
    refine mirrors_silent (by simp [acts, hk, hpc]) (by simp [emitAt, hpc])
      (hp.same rfl rfl rfl rfl (hquiet (by rw [hpc]; rfl) ?_))
    simp [State.goto, State.setDepth, Pc.frames]
  | store g hpc =>
    refine mirrors_one (b := .publish d g) (by simp [acts, hk, hpc]) rfl (by simp [emitAt, hpc, Reclaim.emit])
      (hp.publish g rfl rfl rfl rfl (hquiet (by rw [hpc]; rfl) ?_))
    simp [State.goto, State.setDepth, Pc.frames]
  | yield w m i hpc =>
    refine mirrors_one (b := .publish d DONE) (by simp [acts, hk, hpc]) rfl
      (by simp [emitAt, hpc, Reclaim.emit])
      (hp.publish DONE rfl rfl rfl rfl (hquiet (by rw [hpc]; rfl) ?_))
    rw [pc_goto]
    rfl
  | look m m' i hpc hi hm =>
    by_cases hdc : d = c
    · subst hdc
      refine mirrors_own hp hk (by simp [acts, hk, hpc]) (by simp [emitAt, hpc]) ?_
        (Reclaim.calls_scan (hf m i hpc rfl)) rfl rfl rfl rfl
      rw [pc_goto, hm, ← hp.versions]
      split_ifs with hid <;> simp [Reclaim.step, Reclaim.advance, hf m i hpc rfl, hi, hid, Pc.frames]
      exact hid ▸ hi
    · exact mirrors_elsewhere hp hl hk hk hdc h (by simp [acts, hk, hpc, hdc]) rfl rfl rfl rfl
  | looked m i hpc hi =>
    by_cases hdc : d = c
    · subst hdc
      refine mirrors_own hp hk (by simp [acts, hk, hpc]) (by simp [emitAt, hpc]) ?_
        (Reclaim.calls_scan (hf m i hpc rfl)) rfl rfl rfl rfl
      rw [pc_goto, ← hp.data]
      simp [Reclaim.step, Reclaim.advance, hf m i hpc rfl, Nat.not_lt.mpr hi, Pc.frames]
    · exact mirrors_elsewhere hp hl hk hk hdc h (by simp [acts, hk, hpc, hdc]) rfl rfl rfl rfl
  | leave m node hpc hm =>
    by_cases hdc : d = c
    · subst hdc
      have hloop : r.frames = [.loop m node] := by
        rw [hp.shows.busy k hk, hpc]
        rfl
      rw [← hp.heads] at hm
      have hstep : Reclaim.step n d r .advance = some { r with frames := [] } := by
        cases node with
        | none => simp [Reclaim.step, Reclaim.advance, hloop]
        | some x =>
          have hx := hm x rfl
          simp [Reclaim.step, Reclaim.advance, hloop, hx]
      rw [hp.heads] at hm
      refine mirrors_own hp hk ?_ ?_ ?_ (Reclaim.calls_leave hloop (hp.heads ▸ hm)) rfl rfl rfl rfl
      · cases node with
        | none => simp [acts, hk, hpc]
        | some x => simp [acts, hk, hpc, hm x rfl]
      · cases node with
        | none => simp [emitAt, hpc]
        | some x => simp [emitAt, hpc, hm x rfl]
      · rw [pc_goto]
        exact hstep
    · refine mirrors_elsewhere hp hl hk hk hdc h ?_ rfl rfl rfl rfl
      cases node <;> simp [acts, hk, hpc, hdc]
  | callback m x hpc hm =>
    by_cases hdc : d = c
    · subst hdc
      exact mirrors_callback hp hk hpc hm
    · exact mirrors_elsewhere hp hl hk hk hdc h (by simp [acts, hk, hpc, hdc]) rfl rfl
        (Function.update_of_ne (Ne.symm hdc) _ _) rfl

theorem projects_step (hp : Projects c s r) (hl : Located s) (h : step n s a = some t) : Mirrors n c s a t r := by
  cases moves_of_step h with
  | resume d j _ hcore hpc _ =>
    refine mirrors_silent rfl rfl (hp.same rfl rfl rfl rfl (hp.shows.other hl h ?_ ?_)) <;>
      intro k hk _ <;> cases hk
    · rw [hpc]
      rfl
    · show (s.pc j).frames = []
      rw [hpc]
      rfl
  | deliver j w m i d hpc _ =>
    refine mirrors_silent rfl rfl (hp.same rfl rfl rfl rfl (hp.shows.other hl h ?_ ?_)) <;>
      intro k hk _ <;> cases hk
    · rw [hpc]
      rfl
    · rw [pc_goto]
      rfl
  | offline d _ _ =>
    refine mirrors_one (b := .publish d DONE) rfl rfl rfl (hp.publish DONE rfl rfl rfl rfl ?_)
    exact hp.shows.other hl h nofun nofun
  | call d k hk hpc hc => exact mirrors_calls hp hl hk hpc hc h
  | advance d k hk hc => exact mirrors_advances hp hl hk hc h

end projects

section run

variable (n : Nat) (heads : Addr → RcuHead) (pointers : Addr → Addr) (as : List (Act C)) (t : State C)

/-- What many cores do to the queue of one is a run of that core's thread alone. -/
theorem reclamation_projects (h : run (step n) (init heads pointers) as = some t) (c : Nat) :
    ∃ bs r, run (Reclaim.step n c) (Reclaim.init heads) bs = some r ∧
      trace (Reclaim.step n c) Reclaim.emit (Reclaim.init heads) bs =
        trace (step n) (emitAt c) (init heads pointers) as ∧ Projects c t r := by
  obtain ⟨bs, r, hrun, -, htrace, hp, -⟩ := run_mirror Reclaim.emit (fun _ _ => True)
    (fun _ _ => True) (fun s r => Projects c s r ∧ Located s)
    (by
      rintro s r a t ⟨hp, hl⟩ - hstep
      obtain ⟨r', hrun, htrace, hp'⟩ := projects_step hp hl hstep
      exact ⟨acts c s a, r', hrun, meets_of_forall (fun _ _ => trivial) r _, htrace, hp',
        located_step hl hstep⟩)
    h (meets_of_forall (fun _ _ => trivial) _ _)
    ⟨projects_init c heads pointers, located_init heads pointers⟩
  exact ⟨bs, r, hrun, htrace, hp⟩

theorem reclamation_projects_drain : ∃ (t : State (Fin 2)) (bs : List Reclaim.Act) (r : Reclaim.State),
    run (step 2) (init (fun _ => ⟨none, 0, 0⟩) id) [.resume 0 0, .resume 1 1, .callRcu 0 1 7,
      .callRcu 1 2 8, .threadCallRcu 0, .advance 0, .advance 0, .advance 0, .advance 0] = some t ∧
    run (Reclaim.step 2 0) (Reclaim.init fun _ => ⟨none, 0, 0⟩) bs = some r ∧
    trace (Reclaim.step 2 0) Reclaim.emit (Reclaim.init fun _ => ⟨none, 0, 0⟩) bs =
      [.registered 1 7, .ran 1 7] ∧ Projects 0 t r := by
  obtain ⟨bs, r, hrun, htrace, hp⟩ := reclamation_projects 2 (fun _ => ⟨none, 0, 0⟩) id
    [.resume 0 0, .resume 1 1, .callRcu 0 1 7, .callRcu 1 2 8, .threadCallRcu 0, .advance 0,
      .advance 0, .advance 0, .advance 0] (_ : State (Fin 2)) rfl 0
  refine ⟨_, bs, r, rfl, hrun, htrace.trans ?_, hp⟩
  decide

end run

end LibCoro.Rcu
