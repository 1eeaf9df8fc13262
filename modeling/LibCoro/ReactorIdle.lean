import LibCoro.RcuSection
import LibCoro.Reactor

namespace LibCoro.Reactor

open Machine

variable {C : Type}

/-- The frame has a call of `rcu_offline` before it: every body leaves in the end. -/
def Frame.Owes : Frame C → Prop
  | .body _ => True
  | .leaving _ _ rest => .rcuOffline ∈ rest

instance (f : Frame C) : Decidable f.Owes := by
  cases f <;> unfold Frame.Owes <;> infer_instance

def Settled (s : State C) (c : Nat) : Prop :=
  s.rcu.versions c = Rcu.DONE ∨ ∃ f ∈ s.frames c, f.Owes

variable [DecidableEq C] {n : Nat} {s t : State C} {a : Act C} {k : C} {c d : Nat}

/-- A coroutine that awaits its `read` or `write` leaves behind a core that is offline, or on
which something below it is still going to call `rcu_offline`. -/
def Settles (s : State C) : Act C → Prop
  | .leave k (.service _) =>
    match s.top k with
    | some c => s.rcu.versions c = Rcu.DONE ∨ ∃ f ∈ (s.frames c).tail, f.Owes
    | none => True
  | _ => True

instance (s : State C) (a : Act C) : Decidable (Settles s a) := by
  unfold Settles
  split
  · split <;> infer_instance
  · infer_instance

theorem top_eq_some : s.top k = some c ↔
    s.rcu.core k = some c ∧ (s.frames c).head? = some (.body k) := by
  unfold State.top
  cases hc : s.rcu.core k with
  | none => simp
  | some d =>
    simp only [Option.bind_some, Option.ite_none_right_eq_some, Option.some.injEq]
    constructor
    · rintro ⟨h, rfl⟩
      exact ⟨rfl, h⟩
    · rintro ⟨rfl, h⟩
      exact ⟨h, rfl⟩

theorem frames_of_top (h : s.top k = some c) : ∃ fs, s.frames c = .body k :: fs := by
  have hhead := (top_eq_some.mp h).2
  cases hfs : s.frames c with
  | nil => simp [hfs] at hhead
  | cons f fs =>
    rw [hfs, List.head?_cons, Option.some.injEq] at hhead
    exact ⟨fs, by rw [hhead]⟩

theorem stack_of_call {r u : Rcu.State C} {a : Rcu.Act C} (ha : caller a = some k)
    (hk : r.core k = some c) (h : Rcu.step n r a = some u) :
    (u.stack = r.stack ∧ u.core = r.core) ∨
      (u.versions c = Rcu.DONE ∧ u.stack = Function.update r.stack c (r.stack c).tail ∧
        u.core = Function.update r.core k none) := by
  cases Rcu.moves_of_step h with
  | resume | deliver | offline => cases ha
  | call d j hd _ h =>
    refine .inl ?_
    cases h with
    | suspend => cases ha
    | callRcu head func => exact ⟨Rcu.stack_callRcu r d j head func, Rcu.core_callRcu r d j head func⟩
    | _ => exact ⟨rfl, rfl⟩
  | advance d j hd h =>
    cases ha
    obtain rfl : d = c :=
      Option.some.inj (((Rcu.top_eq_some r k d).mp hd).1.symm.trans hk)
    cases h with
    | yield w m i _ => exact .inr ⟨by simp [Rcu.rcuOffline, Rcu.State.goto], rfl, rfl⟩
    | _ => exact .inl ⟨rfl, rfl⟩

theorem versions_of_call {r u : Rcu.State C} {a : Rcu.Act C} (ha : caller a = some k)
    (hk : r.core k = some c) (h : Rcu.step n r a = some u) (hd : d ≠ c) :
    u.versions d = r.versions d := by
  obtain ⟨e, he⟩ := Rcu.site_of_step h
  have htop : r.site a = r.top k := by
    cases a <;> cases ha <;> rfl
  rw [htop] at he
  obtain rfl : c = e := Option.some.inj (hk.symm.trans ((Rcu.top_eq_some r k e).mp he).1)
  exact (Rcu.frame_step h (htop.trans he)).versions d hd

theorem enter_eq_some : enter n s c k = some t ↔
    ∃ r, Rcu.step n s.rcu (.resume c k) = some r ∧
      { s with rcu := r, waits := Function.update s.waits k .nobody }.setFrames c
        (.body k :: s.frames c) = t := by
  simp [enter]

theorem settled_enter (hs : ∀ d, d ≠ c → Settled s d) (h : enter n s c k = some t) (d : Nat) :
    Settled t d := by
  obtain ⟨r, hr, rfl⟩ := enter_eq_some.mp h
  obtain ⟨-, rfl⟩ := (when_eq_some _ _ _).mp hr
  by_cases hdc : d = c
  · subst hdc
    exact .inr ⟨.body k, by simp [State.setFrames], trivial⟩
  · simpa [Settled, State.setFrames, Rcu.State.enter, hdc] using hs d hdc

theorem offline_mem_code {how : Leave} (h : ∀ e, how ≠ .service e) : .rcuOffline ∈ how.code := by
  cases how <;> simp [Leave.code] at h ⊢

theorem settled_call {b : Rcu.Act C} (hs : ∀ d, Settled s d) (h : step n s (.call b) = some t)
    (d : Nat) : Settled t d := by
  simp only [step, Option.bind_eq_some_iff, Option.map_eq_some_iff] at h
  obtain ⟨k, hk, c, hc, r, hr, rfl⟩ := h
  obtain ⟨hcore, -⟩ := top_eq_some.mp hc
  obtain ⟨fs, hfs⟩ := frames_of_top hc
  have hver := fun (hd : d ≠ c) => versions_of_call hk hcore hr hd
  obtain ⟨-, hsame⟩ | ⟨hdone, -, hgone⟩ := stack_of_call hk hcore hr
  · rw [if_neg (by simp [hsame, hcore])]
    by_cases hdc : d = c
    · subst hdc
      exact .inr ⟨.body k, by simp [hfs], trivial⟩
    · simpa [Settled, hver hdc] using hs d
  · rw [if_pos (by simp [hgone])]
    by_cases hdc : d = c
    · subst hdc
      exact .inl hdone
    · simpa [Settled, State.setFrames, hver hdc, hdc] using hs d

theorem settled_leave {how : Leave} (hs : ∀ d, Settled s d) (ha : Settles s (.leave k how))
    (h : step n s (.leave k how) = some t) (d : Nat) : Settled t d := by
  simp only [step, Option.bind_eq_some_iff, Option.map_eq_some_iff] at h
  obtain ⟨c, hc, r, hr, rfl⟩ := h
  obtain ⟨e, -, -, rfl⟩ := (Rcu.call_eq_some s.rcu r k _).mp hr
  by_cases hdc : d = c
  · subst hdc
    by_cases hhow : ∃ e, how = .service e
    · obtain ⟨e, rfl⟩ := hhow
      simp only [Settles, hc] at ha
      obtain hdone | ⟨f, hf, howes⟩ := ha
      · exact .inl hdone
      · refine .inr ⟨f, ?_, howes⟩
        simp only [State.setFrames, Function.update_self]
        exact List.mem_cons_of_mem _ hf
    · refine .inr ⟨.leaving k how how.code, ?_, offline_mem_code (not_exists.mp hhow)⟩
      simp [State.setFrames]
  · simpa [Settled, State.setFrames, Rcu.State.leave, hdc] using hs d

theorem settled_advance {resumed : Option C} (hs : ∀ d, Settled s d)
    (h : step n s (.advance c resumed) = some t) (d : Nat) : Settled t d := by
  simp only [step] at h
  split at h
  · rename_i k how op ops fs hfs
    -- what is left of the frame owes a call if it did and this was another step
    have hrest : op ≠ .rcuOffline → ∀ e, Settled (s.setFrames c (.leaving k how ops :: fs)) e := by
      intro hop e
      obtain hdone | ⟨f, hf, howes⟩ := hs e
      · exact .inl hdone
      · by_cases hec : e = c
        · subst hec
          rw [hfs, List.mem_cons] at hf
          obtain rfl | hf := hf
          · refine .inr ⟨.leaving k how ops, by simp [State.setFrames], ?_⟩
            exact (List.mem_cons.mp howes).resolve_left (Ne.symm hop)
          · exact .inr ⟨f, by simp [State.setFrames, hf], howes⟩
        · exact .inr ⟨f, by simpa [State.setFrames, hec] using hf, howes⟩
    cases op with
    | rcuOffline =>
      obtain ⟨r, hr, rfl⟩ := Option.map_eq_some_iff.mp h
      obtain ⟨-, rfl⟩ := (when_eq_some _ _ _).mp hr
      by_cases hdc : d = c
      · subst hdc
        exact .inl (by simp [Rcu.rcuOffline])
      · simpa [Settled, State.setFrames, Rcu.rcuOffline, hdc] using hs d
    | publish =>
      cases h
      exact hrest (by simp) d
    | unlock =>
      cases resumed with
      | none =>
        cases h
        exact hrest (by simp) d
      | some j =>
        simp only [perform] at h
        split_ifs at h
        exact settled_enter (fun e _ => hrest (by simp) e) h d
  · rename_i k how fs hfs
    cases h
    obtain hdone | ⟨f, hf, howes⟩ := hs d
    · exact .inl hdone
    · by_cases hdc : d = c
      · subst hdc
        rw [hfs, List.mem_cons] at hf
        obtain rfl | hf := hf
        · cases howes
        · exact .inr ⟨f, by simpa [State.setFrames] using hf, howes⟩
      · exact .inr ⟨f, by simpa [State.setFrames, hdc] using hf, howes⟩
  · cases h

theorem settled_step (hs : ∀ d, Settled s d) (ha : Settles s a) (h : step n s a = some t) :
    ∀ d, Settled t d := by
  cases a with
  | receive c k =>
    simp only [step] at h
    split_ifs at h
    exact settled_enter (fun d _ => hs d) h
  | resume c k =>
    simp only [step] at h
    split at h
    · split_ifs at h
      exact settled_enter (fun d _ => hs d) h
    · cases h
  | deliver k =>
    simp only [step, Option.bind_eq_some_iff] at h
    obtain ⟨c, hc, h⟩ := h
    split_ifs at h
    obtain ⟨r, hr, rfl⟩ := Option.map_eq_some_iff.mp h
    intro d
    by_cases hdc : d = c
    · subst hdc
      exact .inr ⟨.body k, by simp [State.setFrames], trivial⟩
    · simpa [Settled, State.setFrames, hdc, (Rcu.frame_step hr hc).versions d hdc] using hs d
  | leave k how => exact settled_leave hs ha h
  | advance c resumed => exact settled_advance hs h
  | call b => exact settled_call hs h

theorem settled_run {heads : Rcu.Addr → Rcu.RcuHead} {pointers : Rcu.Addr → Rcu.Addr} {home : C → Nat}
    {as : List (Act C)} (h : run (step n) (init heads pointers home) as = some s)
    (hm : Meets (step n) Settles (init heads pointers home) as) : ∀ c, Settled s c :=
  run_invariant_of_meets Settles (fun s => ∀ c, Settled s c)
    (fun _ _ _ hs ha ht => settled_step hs ha ht) h hm fun _ => .inl rfl

/-- Where nothing on the core owes a call, everything there returns without one. -/
theorem unwinds (n : Nat) (c : Nat) (fs : List (Frame C)) (s : State C) (hfs : s.frames c = fs)
    (hno : ∀ f ∈ fs, ¬ f.Owes) :
    ∃ bs u, run (step n) s bs = some u ∧ u.frames c = [] ∧ u.rcu = s.rcu := by
  induction fs generalizing s with
  | nil => exact ⟨[], s, rfl, hfs, rfl⟩
  | cons f fs ih =>
    cases f with
    | body k => exact absurd trivial (hno (.body k) List.mem_cons_self)
    | leaving k how rest =>
      induction rest generalizing s with
      | nil =>
        obtain ⟨bs, u, hu, hidle, hrcu⟩ := ih (s.setFrames c fs) (by simp [State.setFrames])
          fun f hf => hno f (List.mem_cons_of_mem _ hf)
        refine ⟨.advance c none :: bs, u, (run_cons _ _ _ _).mpr ⟨_, ?_, hu⟩, hidle, hrcu⟩
        simp [step, hfs]
      | cons op ops ih' =>
        have hops : .rcuOffline ∉ op :: ops := hno (.leaving k how (op :: ops)) List.mem_cons_self
        rw [List.mem_cons, not_or] at hops
        have hno' : ∀ f ∈ Frame.leaving k how ops :: fs, ¬ f.Owes := by
          intro f hf
          obtain rfl | hf := List.mem_cons.mp hf
          · exact hops.2
          · exact hno f (List.mem_cons_of_mem _ hf)
        let s' := s.setFrames c (.leaving k how ops :: fs)
        have hs' : s'.frames c = .leaving k how ops :: fs := Function.update_self _ _ _
        have hgo : ∀ v, perform n s' c k how none op = some v → step n s (.advance c none) = some v := by
          intro v hv
          simpa only [step, hfs] using hv
        cases op with
        | rcuOffline => exact absurd rfl hops.1
        | publish =>
          obtain ⟨bs, u, hu, hidle, hrcu⟩ :=
            ih' { s' with waits := Function.update s'.waits k (how.waits c) } hs' hno'
          exact ⟨.advance c none :: bs, u, (run_cons _ _ _ _).mpr ⟨_, hgo _ rfl, hu⟩, hidle, hrcu⟩
        | unlock =>
          obtain ⟨bs, u, hu, hidle, hrcu⟩ := ih' s' hs' hno'
          exact ⟨.advance c none :: bs, u, (run_cons _ _ _ _).mpr ⟨_, hgo _ rfl, hu⟩, hidle, hrcu⟩

/-- The step of the rcu functions that a step of the reactor makes. -/
def emit (s : State C) : Act C → Option (Rcu.Act C)
  | .receive c k | .resume c k => some (.resume c k)
  | .deliver k => some (.deliver k)
  | .leave k _ => some (.suspend k)
  | .advance c resumed =>
    match s.frames c with
    | .leaving _ _ (.rcuOffline :: _) :: _ => some (.offline c)
    | .leaving _ _ (.unlock :: _) :: _ => resumed.map fun j => .resume c j
    | _ => none
  | .call a => some a

def bodies (fs : List (Frame C)) : List C :=
  fs.filterMap fun f =>
    match f with
    | .body k => some k
    | .leaving _ _ _ => none

def Aligned (s : State C) : Prop := ∀ c, s.rcu.stack c = bodies (s.frames c)

omit [DecidableEq C] in
theorem aligned_setFrames {fs : List (Frame C)} (hs : Aligned s) (hfs : bodies fs = bodies (s.frames c)) :
    Aligned (s.setFrames c fs) := by
  intro d
  by_cases hdc : d = c
  · subst hdc
    simpa [State.setFrames, hfs] using hs d
  · simpa [State.setFrames, hdc] using hs d

theorem aligned_enter (hs : Aligned s) (h : enter n s c k = some t) :
    Rcu.step n s.rcu (.resume c k) = some t.rcu ∧ Aligned t := by
  obtain ⟨r, hr, rfl⟩ := enter_eq_some.mp h
  refine ⟨hr, fun d => ?_⟩
  obtain ⟨-, rfl⟩ := (when_eq_some _ _ _).mp hr
  by_cases hdc : d = c
  · subst hdc
    simp [State.setFrames, Rcu.State.enter, bodies, hs d]
  · simpa [State.setFrames, Rcu.State.enter, hdc] using hs d

theorem aligned_call {b : Rcu.Act C} (hs : Aligned s) (h : step n s (.call b) = some t) :
    Rcu.step n s.rcu b = some t.rcu ∧ Aligned t := by
  simp only [step, Option.bind_eq_some_iff, Option.map_eq_some_iff] at h
  obtain ⟨k, hk, c, hc, r, hr, rfl⟩ := h
  obtain ⟨hcore, -⟩ := top_eq_some.mp hc
  obtain ⟨fs, hfs⟩ := frames_of_top hc
  obtain ⟨hstack, hsame⟩ | ⟨-, hstack, hgone⟩ := stack_of_call hk hcore hr
  · rw [if_neg (by simp [hsame, hcore])]
    exact ⟨hr, fun d => (congrFun hstack d).trans (hs d)⟩
  · rw [if_pos (by simp [hgone])]
    refine ⟨hr, fun d => ?_⟩
    by_cases hdc : d = c
    · subst hdc
      simp [State.setFrames, hstack, hs d, hfs, bodies]
    · simpa [State.setFrames, hstack, hdc] using hs d

theorem aligned_advance {resumed : Option C} (hs : Aligned s)
    (h : step n s (.advance c resumed) = some t) :
    run (Rcu.step n) s.rcu (emit s (.advance c resumed)).toList = some t.rcu ∧ Aligned t := by
  simp only [step] at h
  split at h
  · rename_i k how op ops fs hfs
    have hs' : Aligned (s.setFrames c (.leaving k how ops :: fs)) :=
      aligned_setFrames hs (by simp [hfs, bodies])
    simp only [emit, hfs]
    cases op with
    | rcuOffline =>
      obtain ⟨r, hr, rfl⟩ := Option.map_eq_some_iff.mp h
      refine ⟨(run_cons _ _ _ _).mpr ⟨r, hr, rfl⟩, ?_⟩
      obtain ⟨-, rfl⟩ := (when_eq_some _ _ _).mp hr
      exact hs'
    | publish =>
      cases h
      exact ⟨rfl, hs'⟩
    | unlock =>
      cases resumed with
      | none =>
        cases h
        exact ⟨rfl, hs'⟩
      | some j =>
        simp only [perform] at h
        split_ifs at h
        obtain ⟨hr, ht⟩ := aligned_enter hs' h
        exact ⟨(run_cons _ _ _ _).mpr ⟨_, hr, rfl⟩, ht⟩
  · rename_i k how fs hfs
    cases h
    simp only [emit, hfs]
    exact ⟨rfl, aligned_setFrames hs (by simp [hfs, bodies])⟩
  · cases h

theorem aligned_step (hs : Aligned s) (h : step n s a = some t) :
    run (Rcu.step n) s.rcu (emit s a).toList = some t.rcu ∧ Aligned t := by
  have hone : ∀ b, Rcu.step n s.rcu b = some t.rcu → run (Rcu.step n) s.rcu [b] = some t.rcu :=
    fun b hb => (run_cons _ _ _ _).mpr ⟨_, hb, rfl⟩
  cases a with
  | receive c k =>
    simp only [step] at h
    split_ifs at h
    exact (aligned_enter hs h).imp_left (hone _)
  | resume c k =>
    simp only [step] at h
    split at h
    · split_ifs at h
      exact (aligned_enter hs h).imp_left (hone _)
    · cases h
  | deliver k =>
    simp only [step, Option.bind_eq_some_iff] at h
    obtain ⟨c, hc, h⟩ := h
    split_ifs at h with hidle
    obtain ⟨r, hr, rfl⟩ := Option.map_eq_some_iff.mp h
    refine ⟨hone _ hr, fun d => ?_⟩
    cases hpc : s.rcu.pc k with
    | syncYielded w m i e =>
      simp only [Rcu.State.site, hpc, Option.some.injEq] at hc
      subst hc
      simp only [Rcu.step, hpc] at hr
      obtain ⟨hstack, rfl⟩ := (when_eq_some _ _ _).mp hr
      by_cases hde : d = e
      · subst hde
        simp [State.setFrames, Rcu.State.goto, Rcu.State.enter, bodies, hstack]
      · simpa [State.setFrames, Rcu.State.goto, Rcu.State.enter, hde] using hs d
    | _ => simp [Rcu.State.site, hpc] at hc
  | leave k how =>
    simp only [step, Option.bind_eq_some_iff, Option.map_eq_some_iff] at h
    obtain ⟨c, hc, r, hr, rfl⟩ := h
    obtain ⟨fs, hfs⟩ := frames_of_top hc
    refine ⟨hone _ hr, fun d => ?_⟩
    obtain ⟨e, he, -, rfl⟩ := (Rcu.call_eq_some s.rcu r k _).mp hr
    obtain rfl : c = e := by
      have hcore := (top_eq_some.mp hc).1
      exact Option.some.inj (hcore.symm.trans ((Rcu.top_eq_some s.rcu k e).mp he).1)
    by_cases hdc : d = c
    · subst hdc
      simp [State.setFrames, Rcu.State.leave, bodies, hs d, hfs]
    · simpa [State.setFrames, Rcu.State.leave, hdc] using hs d
  | advance c resumed => exact aligned_advance hs h
  | call b => exact (aligned_call hs h).imp_left (hone _)

/-- Every run of the reactor is one of the rcu functions, on the same cores. -/
theorem aligned_run {heads : Rcu.Addr → Rcu.RcuHead} {pointers : Rcu.Addr → Rcu.Addr} {home : C → Nat}
    {as : List (Act C)} (h : run (step n) (init heads pointers home) as = some s) :
    run (Rcu.step n) (Rcu.init heads pointers)
      (trace (step n) emit (init heads pointers home) as) = some s.rcu ∧ Aligned s := by
  have hsim : ∀ (s : State C) (r : Rcu.State C) (a : Act C) (t : State C),
      Aligned s ∧ s.rcu = r → step n s a = some t →
      ∃ u, run (Rcu.step n) r (emit s a).toList = some u ∧ Aligned t ∧ t.rcu = u := by
    rintro s r a t ⟨hs, rfl⟩ ht
    obtain ⟨hr, ht⟩ := aligned_step hs ht
    exact ⟨t.rcu, hr, ht, rfl⟩
  have hinit : Aligned (init heads pointers home : State C) ∧
      (init heads pointers home : State C).rcu = Rcu.init heads pointers := ⟨fun _ => rfl, rfl⟩
  obtain ⟨r, hr, hs, rfl⟩ := run_simulation _ hsim h hinit
  exact ⟨hr, hs⟩

def Capped (r : Rcu.State C) : Prop := ∀ k m i, r.pc k = .drainScan m i → m ≤ Rcu.uintMax

theorem capped_step (r : Rcu.State C) (b : Rcu.Act C) (u : Rcu.State C) (hr : Capped r)
    (h : Rcu.step n r b = some u) : Capped u := by
  obtain ⟨c, hc⟩ := Rcu.site_of_step h
  intro k m i hk
  by_cases hact : b.actor = some k
  · cases Rcu.moves_of_step h with
    | offline d _ _ => cases hact
    | resume d j _ _ hpc _ =>
      cases hact
      cases hpc.symm.trans hk
    | deliver j w m' i' d _ _ =>
      cases hact
      rw [Rcu.pc_goto] at hk
      cases hk
    | call d j hd hpc h =>
      cases h.actor.symm.trans hact
      obtain hp | hp | hp | ⟨-, hp⟩ := h.place hd hpc <;> rw [hp] at hk <;> cases hk
      exact Nat.le_refl _
    | advance d j hd h =>
      cases hact
      cases h with
      | look m' m'' i' hpc _ hm =>
        rw [Rcu.pc_goto] at hk
        cases hk
        have hm' := hr k m' i' hpc
        split_ifs at hm <;> omega
      | _ => simp [Rcu.State.setDepth, Rcu.State.goto] at hk
  · rw [(Rcu.frame_step h hc).pc k (Ne.symm hact)] at hk
    exact hr k m i hk

/-- Nobody runs on the core, and no grace period waits for it: `synchronize_rcu`, whose ticket
is at most `LONG_LONG_MAX`, goes on to the next core, and `thread_call_rcu` keeps its minimum. -/
structure Passed (n : Nat) (s : State C) (c : Nat) : Prop where
  done : s.rcu.versions c = Rcu.DONE
  nobody : s.rcu.stack c = []
  synchronize : ∀ k w m t, c < n → w ≤ Rcu.DONE → s.rcu.pc k = .sync w m c →
    step n s (.call (.advance k)) = some t → t.rcu.pc k = .sync w m (c + 1)
  threadCallRcu : ∀ k m t, c < n → s.rcu.pc k = .drainScan m c →
    step n s (.call (.advance k)) = some t → t.rcu.pc k = .drainScan m (c + 1)

theorem advance_of_call (hs : Aligned s) (h : step n s (.call (.advance k)) = some t) :
    ∃ d, Rcu.advance n s.rcu d k = some t.rcu := by
  obtain ⟨hr, -⟩ := aligned_call hs h
  simp only [Rcu.step, Option.bind_eq_some_iff] at hr
  obtain ⟨d, -, hr⟩ := hr
  exact ⟨d, hr⟩

theorem passed_of_done (hs : Aligned s) (hcap : Capped s.rcu) (hidle : s.frames c = [])
    (hdone : s.rcu.versions c = Rcu.DONE) : Passed n s c where
  done := hdone
  nobody := by
    rw [hs c, hidle]
    rfl
  synchronize k w m t hcn hw hpc h := by
    obtain ⟨d, hr⟩ := advance_of_call hs h
    simp only [Rcu.advance, hpc, hcn, if_true, hdone, if_neg (Nat.not_lt.mpr hw)] at hr
    split_ifs at hr
    all_goals
      rw [← Option.some.inj hr]
      simp
  threadCallRcu k m t hcn hpc h := by
    have hm : m ≤ Rcu.DONE := Nat.le_trans (hcap k m c hpc) (by decide)
    obtain ⟨d, hr⟩ := advance_of_call hs h
    simp only [Rcu.advance, hpc, hcn, if_true, hdone, Nat.min_eq_left hm] at hr
    split_ifs at hr
    all_goals
      rw [← Option.some.inj hr]
      simp

/-- A `read` or `write` that leaves its core online, with nothing there to call `rcu_offline`,
can be the last thing that happens before the core is idle. -/
theorem online_of_service (h : step n s (.leave k (.service d)) = some t)
    (hno : ¬ Settles s (.leave k (.service d))) :
    ∃ c bs u, run (step n) t bs = some u ∧ u.frames c = [] ∧ u.rcu.versions c ≠ Rcu.DONE := by
  simp only [step, Option.bind_eq_some_iff, Option.map_eq_some_iff] at h
  obtain ⟨c, hc, r, hr, rfl⟩ := h
  obtain ⟨e, -, -, rfl⟩ := (Rcu.call_eq_some s.rcu r k _).mp hr
  simp only [Settles, hc, not_or] at hno
  let fs := Frame.leaving k (.service d) (Leave.service d).code :: (s.frames c).tail
  have hfs : ∀ f ∈ fs, ¬ f.Owes := by
    intro f hf
    obtain rfl | hf := List.mem_cons.mp hf
    · simp [Frame.Owes, Leave.code]
    · exact fun howes => hno.2 ⟨f, hf, howes⟩
  obtain ⟨bs, u, hu, hidle, hsame⟩ := unwinds n c fs
    ({ s with rcu := s.rcu.leave e k }.setFrames c fs) (Function.update_self _ _ _) hfs
  refine ⟨c, bs, u, hu, hidle, ?_⟩
  rw [hsame]
  exact hno.1

/-- An idle core never holds up a grace period in a run in which no `read` or `write` leaves
behind a core that stays online. -/
theorem idle_core_passed (n : Nat) (heads : Rcu.Addr → Rcu.RcuHead) (pointers : Rcu.Addr → Rcu.Addr)
    (home : C → Nat) (as : List (Act C)) (s : State C)
    (h : run (step n) (init heads pointers home) as = some s) :
    (Meets (step n) Settles (init heads pointers home) as →
      ∀ c, s.frames c = [] → Passed n s c) ∧
    ∀ k d t, step n s (.leave k (.service d)) = some t → ¬ Settles s (.leave k (.service d)) →
      ∃ c bs u, run (step n) t bs = some u ∧ u.frames c = [] ∧ u.rcu.versions c ≠ Rcu.DONE := by
  obtain ⟨hrcu, hs⟩ := aligned_run h
  have hcap : Capped s.rcu := by
    refine run_invariant Capped capped_step hrcu fun k m i hk => ?_
    cases hk
  refine ⟨fun hm c hidle => ?_, fun k d t ht hno => online_of_service ht hno⟩
  obtain hdone | ⟨f, hf, -⟩ := settled_run h hm c
  · exact passed_of_done hs hcap hidle hdone
  · rw [hidle] at hf
    cases hf

theorem idle_core_passed_handover :
    let as : List (Act (Fin 2)) :=
      [.receive 0 0, .call (.readLock 0), .call (.advance 0), .call (.advance 0),
        .call (.readUnlock 0), .leave 0 .mutex, .advance 0 none, .advance 0 none, .advance 0 none,
        .receive 1 1, .resume 1 0, .call (.readLock 0), .call (.advance 0), .call (.advance 0),
        .call (.readUnlock 0), .leave 0 (.service 1), .advance 1 none, .advance 1 none,
        .leave 1 .taskRun, .advance 1 none, .advance 1 none]
    let s₀ := init (fun _ => ⟨none, 0, 0⟩) id Fin.val
    ∃ s, run (step 2) s₀ as = some s ∧ Passed 2 s 0 ∧ Passed 2 s 1 := by
  intro as s₀
  have hend : ((run (step 2) s₀ as).map fun s => decide (s.frames 0 = [] ∧ s.frames 1 = [])) =
      some true := by
    decide +kernel
  have hm : Meets (step 2) Settles s₀ as := by decide +kernel
  obtain ⟨s, hs, hend⟩ := Option.map_eq_some_iff.mp hend
  obtain ⟨hidle, hidle'⟩ := of_decide_eq_true hend
  obtain ⟨hpass, -⟩ := idle_core_passed 2 (fun _ => ⟨none, 0, 0⟩) id Fin.val as s hs
  exact ⟨s, hs, hpass hm 0 hidle, hpass hm 1 hidle'⟩

/-- Coroutine 0 has ended its section and awaits a `read`: nothing runs on core 0, but its
version stays 0, and `synchronize_rcu` on core 1 waits for it. -/
theorem idle_core_online :
    ∃ s : State (Fin 2), run (step 2) (init (fun _ => ⟨none, 0, 0⟩) id Fin.val)
      [.receive 0 0, .call (.readLock 0), .call (.advance 0), .call (.advance 0),
        .call (.readUnlock 0), .leave 0 (.service 0), .advance 0 none, .advance 0 none,
        .receive 1 1, .call (.synchronize 1), .call (.advance 1)] = some s ∧
      s.frames 0 = [] ∧ s.rcu.depth 0 = 0 ∧ s.rcu.versions 0 = 0 ∧
      s.rcu.pc 1 = .syncYield 1 1 0 := ⟨_, rfl, rfl, rfl, rfl, rfl⟩

end LibCoro.Reactor
