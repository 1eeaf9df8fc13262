import LibCoro.Rcu

namespace LibCoro.Rcu

open Machine

variable {C : Type} [DecidableEq C]

theorem top_eq_some (s : State C) (k : C) (c : Nat) :
    s.top k = some c ↔ s.core k = some c ∧ (s.stack c).head? = some k := by
  unfold State.top
  cases hc : s.core k with
  | none => simp
  | some d =>
    simp only [Option.bind_some, Option.ite_none_right_eq_some, Option.some.injEq]
    constructor
    · rintro ⟨h, rfl⟩
      exact ⟨rfl, h⟩
    · rintro ⟨rfl, h⟩
      exact ⟨h, rfl⟩

theorem top_unique {s : State C} {j k : C} {c : Nat} (hj : s.top j = some c) (hk : s.top k = some c) :
    j = k :=
  Option.some.inj (((top_eq_some s j c).mp hj).2.symm.trans ((top_eq_some s k c).mp hk).2)

theorem mem_stack_of_top {s : State C} {k : C} {c : Nat} (h : s.top k = some c) : k ∈ s.stack c :=
  List.mem_of_mem_head? ((top_eq_some s k c).mp h).2

theorem top_of_same {s t : State C} {k : C} (hst : t.stack = s.stack) (hco : t.core = s.core) :
    t.top k = s.top k := by
  simp [State.top, hst, hco]

theorem top_enter_self (s : State C) (c : Nat) (k : C) : (s.enter c k).top k = some c := by
  simp [top_eq_some, State.enter]

theorem top_enter_ne {s : State C} {c d : Nat} {j k : C} (hj : j ≠ k) (hd : d ≠ c) :
    (s.enter c k).top j = some d ↔ s.top j = some d := by
  simp [top_eq_some, State.enter, Function.update_of_ne hj, Function.update_of_ne hd]

theorem top_leave {s : State C} {c d : Nat} {j k : C} (hk : s.top k = some c) (hj : j ≠ k)
    (h : s.top j = some d) : (s.leave c k).top j = some d := by
  have hd : d ≠ c := by
    rintro rfl
    exact hj (top_unique h hk)
  rw [top_eq_some] at h ⊢
  simpa [State.leave, Function.update_of_ne hj, Function.update_of_ne hd] using h

@[simp] theorem pc_goto (s : State C) (k : C) (p : Pc) : (s.goto k p).pc k = p :=
  Function.update_self _ _ _

theorem pc_goto_ne (s : State C) {j k : C} (p : Pc) (hj : j ≠ k) : (s.goto k p).pc j = s.pc j :=
  Function.update_of_ne hj _ _

omit [DecidableEq C] in
theorem enqueue_eq (s : State C) (c : Nat) (head : Addr) :
    rcuDataEnqueue s c head =
      { s with
        heads := (rcuDataEnqueue s c head).heads
        data := Function.update s.data c
          ⟨if (s.data c).tail = none then some head else (s.data c).head, some head,
            ((s.data c).count + 1) % 2 ^ 64⟩ } := by
  unfold rcuDataEnqueue
  cases (s.data c).tail <;> simp

theorem callRcu_eq (s : State C) (c : Nat) (k : C) (head func : Addr) :
    callRcu s c k head func =
      { s with
        sequencer := ticket s
        heads := (callRcu s c k head func).heads
        data := Function.update s.data c
          ⟨if (s.data c).tail = none then some head else (s.data c).head, some head,
            ((s.data c).count + 1) % 2 ^ 64⟩
        pc :=
          if 1024 ≤ ((s.data c).count + 1) % 2 ^ 64 then
            Function.update s.pc k (.drainScan uintMax 0)
          else s.pc } := by
  unfold callRcu
  rw [enqueue_eq]
  simp only [Function.update_self]
  split_ifs <;> rfl

section callRcu

variable (s : State C) (c : Nat) (k : C) (head func : Addr)

@[simp] theorem versions_callRcu : (callRcu s c k head func).versions = s.versions := by
  rw [callRcu_eq]

@[simp] theorem sequencer_callRcu : (callRcu s c k head func).sequencer = ticket s := by
  rw [callRcu_eq]

@[simp] theorem rcuCount_callRcu : (callRcu s c k head func).rcuCount = s.rcuCount := by
  rw [callRcu_eq]

@[simp] theorem stack_callRcu : (callRcu s c k head func).stack = s.stack := by
  rw [callRcu_eq]

@[simp] theorem core_callRcu : (callRcu s c k head func).core = s.core := by
  rw [callRcu_eq]

@[simp] theorem depth_callRcu : (callRcu s c k head func).depth = s.depth := by
  rw [callRcu_eq]

theorem data_callRcu : (callRcu s c k head func).data = Function.update s.data c
    ⟨if (s.data c).tail = none then some head else (s.data c).head, some head,
      ((s.data c).count + 1) % 2 ^ 64⟩ := by
  rw [callRcu_eq]

theorem pc_callRcu : (callRcu s c k head func).pc =
    if 1024 ≤ ((s.data c).count + 1) % 2 ^ 64 then Function.update s.pc k (.drainScan uintMax 0)
    else s.pc := by
  rw [callRcu_eq]

theorem pc_callRcu_self : (callRcu s c k head func).pc k =
    if 1024 ≤ ((s.data c).count + 1) % 2 ^ 64 then .drainScan uintMax 0 else s.pc k := by
  rw [pc_callRcu]
  split_ifs
  · exact Function.update_self _ _ _
  · rfl

@[simp] theorem top_callRcu : (callRcu s c k head func).top = s.top :=
  funext fun _ => top_of_same (stack_callRcu s c k head func) (core_callRcu s c k head func)

end callRcu

theorem call_eq_some (s t : State C) (k : C) (f : Nat → State C) :
    call s k f = some t ↔ ∃ c, s.top k = some c ∧ s.pc k = .idle ∧ f c = t := by
  simp [call, Option.bind_eq_some_iff]

inductive Calls (s : State C) (c : Nat) (k : C) : Act C → State C → Prop where
  | suspend : Calls s c k (.suspend k) (s.leave c k)
  | load (hcount : s.rcuCount c + 1 = 1024) :
      Calls s c k (.readLock k)
        ({ s with rcuCount := Function.update s.rcuCount c 0 }.goto k (.lockCompare s.sequencer))
  | count (hcount : s.rcuCount c + 1 ≠ 1024) :
      Calls s c k (.readLock k)
        ({ s with rcuCount := Function.update s.rcuCount c (s.rcuCount c + 1) }.setDepth k
          (s.depth k + 1))
  | readUnlock (hd : s.depth k ≠ 0) : Calls s c k (.readUnlock k) (s.setDepth k (s.depth k - 1))
  | dereference (p : Addr) : Calls s c k (.dereference k p) s
  | assign (p v : Addr) :
      Calls s c k (.assign k p v) { s with pointers := Function.update s.pointers p v }
  | synchronize : Calls s c k (.synchronize k) (synchronizeRcu s c k)
  | callRcu (head func : Addr) : Calls s c k (.callRcu k head func) (callRcu s c k head func)
  | threadCallRcu : Calls s c k (.threadCallRcu k) (s.goto k (.drainScan uintMax 0))

inductive Advances (n : Nat) (s : State C) (c : Nat) (k : C) : State C → Prop where
  | same (g : Nat) (hpc : s.pc k = .lockCompare g) (hg : g = s.versions c) :
      Advances n s c k ((s.goto k .idle).setDepth k (s.depth k + 1))
  | other (g : Nat) (hpc : s.pc k = .lockCompare g) (hg : g ≠ s.versions c) :
      Advances n s c k (s.goto k (.lockStore g))
  | store (g : Nat) (hpc : s.pc k = .lockStore g) :
      Advances n s c k
        (({ s with versions := Function.update s.versions c g }.goto k .idle).setDepth k
          (s.depth k + 1))
  | pass (w m i : Nat) (hpc : s.pc k = .sync w m i) (hi : i < n) (hv : i = m ∨ w ≤ s.versions i) :
      Advances n s c k (s.goto k (.sync w m (i + 1)))
  | wait (w m i : Nat) (hpc : s.pc k = .sync w m i) (hi : i < n) (him : i ≠ m)
      (hv : s.versions i < w) : Advances n s c k (s.goto k (.syncYield w m i))
  | synced (w m i : Nat) (hpc : s.pc k = .sync w m i) (hi : n ≤ i) :
      Advances n s c k (s.goto k .idle)
  | yield (w m i : Nat) (hpc : s.pc k = .syncYield w m i) :
      Advances n s c k ((rcuOffline (s.leave c k) c).goto k (.syncYielded w m i c))
  | look (m m' i : Nat) (hpc : s.pc k = .drainScan m i) (hi : i < n)
      (hm : m' = if i = c then m else min m (s.versions i)) :
      Advances n s c k (s.goto k (.drainScan m' (i + 1)))
  | looked (m i : Nat) (hpc : s.pc k = .drainScan m i) (hi : n ≤ i) :
      Advances n s c k (s.goto k (.drainLoop m (s.data c).head))
  | leave (m : Nat) (node : Option Addr) (hpc : s.pc k = .drainLoop m node)
      (hm : ∀ a ∈ node, m < (s.heads a).version) : Advances n s c k (s.goto k .idle)
  | callback (m : Nat) (a : Addr) (hpc : s.pc k = .drainLoop m (some a))
      (hm : (s.heads a).version ≤ m) :
      Advances n s c k ((runCallback s c a).goto k (.drainLoop m (s.heads a).next))

inductive Moves (n : Nat) (s : State C) : Act C → State C → Prop where
  | resume (c : Nat) (k : C) (hc : c < n) (hk : s.core k = none) (hpc : s.pc k = .idle)
      (hcalm : s.calm c = true) : Moves n s (.resume c k) (s.enter c k)
  | deliver (k : C) (w m i c : Nat) (hpc : s.pc k = .syncYielded w m i c) (hst : s.stack c = []) :
      Moves n s (.deliver k) ((s.enter c k).goto k (.sync w m i))
  | offline (c : Nat) (hc : c < n) (hcalm : s.calm c = true) :
      Moves n s (.offline c) (rcuOffline s c)
  | call (c : Nat) (k : C) {a : Act C} {t : State C} (hk : s.top k = some c) (hpc : s.pc k = .idle)
      (h : Calls s c k a t) : Moves n s a t
  | advance (c : Nat) (k : C) {t : State C} (hk : s.top k = some c) (h : Advances n s c k t) :
      Moves n s (.advance k) t

theorem advances_of_eq {n c : Nat} {s t : State C} {k : C} (h : advance n s c k = some t) :
    Advances n s c k t := by
  cases hpc : s.pc k with
  | idle | syncYielded w m i d => simp [advance, hpc] at h
  | lockCompare g =>
    simp only [advance, hpc] at h
    split_ifs at h with hg <;> cases h
    · exact .same g hpc hg
    · exact .other g hpc hg
  | lockStore g =>
    simp only [advance, hpc] at h
    cases h
    exact .store g hpc
  | sync w m i =>
    simp only [advance, hpc] at h
    split_ifs at h with hi him hv <;> cases h
    · exact .pass w m i hpc hi (.inl him)
    · exact .wait w m i hpc hi him hv
    · exact .pass w m i hpc hi (.inr (Nat.le_of_not_lt hv))
    · exact .synced w m i hpc (Nat.le_of_not_lt hi)
  | syncYield w m i =>
    simp only [advance, hpc] at h
    cases h
    exact .yield w m i hpc
  | drainScan m i =>
    simp only [advance, hpc] at h
    split_ifs at h with hi hic <;> cases h
    · exact .look m m i hpc hi (if_pos hic).symm
    · exact .look m _ i hpc hi (if_neg hic).symm
    · exact .looked m i hpc (Nat.le_of_not_lt hi)
  | drainLoop m node =>
    cases node with
    | none =>
      simp only [advance, hpc] at h
      cases h
      exact .leave m none hpc (by simp)
    | some a =>
      simp only [advance, hpc] at h
      split_ifs at h with hm <;> cases h
      · exact .leave m (some a) hpc (by simpa using hm)
      · exact .callback m a hpc (Nat.le_of_not_lt hm)

theorem moves_of_step {n : Nat} {s t : State C} {a : Act C} (h : step n s a = some t) :
    Moves n s a t := by
  cases a with
  | resume c k =>
    obtain ⟨⟨hc, hk, hpc, hcalm⟩, rfl⟩ := (when_eq_some _ _ _).mp h
    exact .resume c k hc hk hpc hcalm
  | deliver k =>
    cases hpc : s.pc k with
    | syncYielded w m i c =>
      simp only [step, hpc] at h
      obtain ⟨hst, rfl⟩ := (when_eq_some _ _ _).mp h
      exact .deliver k w m i c hpc hst
    | _ => simp [step, hpc] at h
  | offline c =>
    obtain ⟨⟨hc, hcalm⟩, rfl⟩ := (when_eq_some _ _ _).mp h
    exact .offline c hc hcalm
  | advance k =>
    simp only [step, Option.bind_eq_some_iff] at h
    obtain ⟨c, hk, h⟩ := h
    exact .advance c k hk (advances_of_eq h)
  | readLock k =>
    obtain ⟨c, hk, hpc, rfl⟩ := (call_eq_some s t k _).mp h
    refine .call c k hk hpc ?_
    unfold rcuReadLock
    split_ifs with hcount
    · exact .load hcount
    · exact .count hcount
  | readUnlock k =>
    simp only [step] at h
    split_ifs at h with hd
    obtain ⟨c, hk, hpc, rfl⟩ := (call_eq_some s t k _).mp h
    exact .call c k hk hpc (.readUnlock hd)
  | suspend k | dereference k p | assign k p v | synchronize k | callRcu k head func
  | threadCallRcu k =>
    obtain ⟨c, hk, hpc, rfl⟩ := (call_eq_some s t k _).mp h
    exact .call c k hk hpc (by constructor)

theorem advances_of_step {n : Nat} {s t : State C} {k : C} (h : step n s (.advance k) = some t) :
    ∃ c, s.top k = some c ∧ Advances n s c k t := by
  simp only [step, Option.bind_eq_some_iff] at h
  obtain ⟨c, hk, h⟩ := h
  exact ⟨c, hk, advances_of_eq h⟩

def State.site (s : State C) : Act C → Option Nat
  | .resume c _ | .offline c => some c
  | .deliver k =>
    match s.pc k with
    | .syncYielded _ _ _ c => some c
    | _ => none
  | .suspend k | .readLock k | .readUnlock k | .dereference k _ | .assign k _ _ | .synchronize k
  | .callRcu k _ _ | .threadCallRcu k | .advance k => s.top k

def Act.actor : Act C → Option C
  | .offline _ => none
  | .resume _ k | .deliver k | .suspend k | .readLock k | .readUnlock k | .dereference k _
  | .assign k _ _ | .synchronize k | .callRcu k _ _ | .threadCallRcu k | .advance k => some k

theorem Calls.actor {s t : State C} {c : Nat} {k : C} {a : Act C} (h : Calls s c k a t) :
    a.actor = some k := by
  cases h <;> rfl

theorem Calls.site {s t : State C} {c : Nat} {k : C} {a : Act C} (h : Calls s c k a t) :
    s.site a = s.top k := by
  cases h <;> rfl

theorem Calls.top {s t : State C} {c : Nat} {k : C} {a : Act C} (h : Calls s c k a t)
    (ha : a ≠ .suspend k) : t.top = s.top := by
  cases h with
  | suspend => exact absurd rfl ha
  | callRcu head func => exact top_callRcu s c k head func
  | _ => rfl

theorem site_of_step {n : Nat} {s t : State C} {a : Act C} (h : step n s a = some t) :
    ∃ c, s.site a = some c := by
  cases moves_of_step h with
  | resume c _ _ _ _ _ => exact ⟨c, rfl⟩
  | offline c _ _ => exact ⟨c, rfl⟩
  | deliver k w m i c hpc _ => exact ⟨c, by simp [State.site, hpc]⟩
  | call c k hk _ h => exact ⟨c, h.site.trans hk⟩
  | advance c k hk _ => exact ⟨c, hk⟩

/-- What a step leaves alone: the other cores, and the other coroutines' places. -/
structure Frame (s t : State C) (c : Nat) (k : Option C) : Prop where
  versions : ∀ i, i ≠ c → t.versions i = s.versions i
  data : ∀ i, i ≠ c → t.data i = s.data i
  top : ∀ j d, s.top j = some d → d ≠ c → some j ≠ k → t.top j = some d
  pc : ∀ j, some j ≠ k → t.pc j = s.pc j
  depth : ∀ j, some j ≠ k → t.depth j = s.depth j

section Frame

variable {s t : State C} {c : Nat} {k : C}

theorem Frame.refl (s : State C) (c : Nat) (k : Option C) : Frame s s c k :=
  ⟨fun _ _ => rfl, fun _ _ => rfl, fun _ _ hj _ _ => hj, fun _ _ => rfl, fun _ _ => rfl⟩

theorem Frame.goto (h : Frame s t c (some k)) (p : Pc) : Frame s (t.goto k p) c (some k) := by
  refine ⟨h.versions, h.data, h.top, fun j hj => ?_, h.depth⟩
  exact (pc_goto_ne t p fun e => hj (congrArg some e)).trans (h.pc j hj)

theorem Frame.setDepth (h : Frame s t c (some k)) (d : Nat) :
    Frame s (t.setDepth k d) c (some k) := by
  refine ⟨h.versions, h.data, h.top, h.pc, fun j hj => ?_⟩
  exact (Function.update_of_ne (fun e => hj (congrArg some e)) _ _).trans (h.depth j hj)

theorem frame_enter (s : State C) (c : Nat) (k : C) : Frame s (s.enter c k) c (some k) := by
  refine ⟨fun _ _ => rfl, fun _ _ => rfl, fun j d hj hd hjk => ?_, fun _ _ => rfl, fun _ _ => rfl⟩
  exact (top_enter_ne (fun e => hjk (congrArg some e)) hd).mpr hj

theorem frame_leave (hk : s.top k = some c) : Frame s (s.leave c k) c (some k) :=
  ⟨fun _ _ => rfl, fun _ _ => rfl, fun _ _ hj _ hjk => top_leave hk (fun e => hjk (congrArg some e)) hj,
    fun _ _ => rfl, fun _ _ => rfl⟩

theorem Frame.offline {o : Option C} (h : Frame s t c o) : Frame s (rcuOffline t c) c o :=
  ⟨fun i hi => (Function.update_of_ne hi _ _).trans (h.versions i hi), h.data, h.top, h.pc, h.depth⟩

theorem frame_callRcu (s : State C) (c : Nat) (k : C) (head func : Addr) :
    Frame s (callRcu s c k head func) c (some k) := by
  refine ⟨by simp, fun i hi => ?_, by simp +contextual, fun j hj => ?_, by simp⟩
  · rw [data_callRcu, Function.update_of_ne hi]
  · have hjk : j ≠ k := fun e => hj (congrArg some e)
    rw [pc_callRcu]
    split_ifs
    · exact Function.update_of_ne hjk _ _
    · rfl

theorem frame_calls {a : Act C} (hk : s.top k = some c) (h : Calls s c k a t) :
    Frame s t c (some k) := by
  have hsame : ∀ u : State C, u.versions = s.versions → u.data = s.data → u.top = s.top →
      u.pc = s.pc → u.depth = s.depth → Frame s u c (some k) := by
    intro u hv hda ht hp hd
    exact ⟨by simp [hv], by simp [hda], by simp +contextual [ht], by simp [hp], by simp [hd]⟩
  cases h with
  | suspend => exact frame_leave hk
  | load _ =>
    refine Frame.goto ?_ _
    exact hsame _ rfl rfl rfl rfl rfl
  | count _ =>
    refine Frame.setDepth ?_ _
    exact hsame _ rfl rfl rfl rfl rfl
  | readUnlock _ => exact (Frame.refl s c _).setDepth _
  | dereference p => exact Frame.refl s c _
  | assign p v => exact hsame _ rfl rfl rfl rfl rfl
  | synchronize =>
    refine Frame.goto ?_ _
    exact hsame _ rfl rfl rfl rfl rfl
  | callRcu head func => exact frame_callRcu s c k head func
  | threadCallRcu => exact (Frame.refl s c _).goto _

theorem frame_advances {n : Nat} (hk : s.top k = some c) (h : Advances n s c k t) :
    Frame s t c (some k) := by
  have hs := Frame.refl s c (some k)
  cases h with
  | same g _ _ => exact (hs.goto _).setDepth _
  | store g _ =>
    have hv : Frame s { s with versions := Function.update s.versions c g } c (some k) :=
      ⟨fun i hi => Function.update_of_ne hi _ _, hs.data, hs.top, hs.pc, hs.depth⟩
    exact (hv.goto _).setDepth _
  | yield w m i _ => exact (frame_leave hk).offline.goto _
  | callback m a _ _ =>
    have hda : Frame s (runCallback s c a) c (some k) :=
      ⟨hs.versions, fun i hi => Function.update_of_ne hi _ _, hs.top, hs.pc, hs.depth⟩
    exact hda.goto _
  | other | pass | wait | synced | look | looked | leave => exact hs.goto _

/-- A step touches its own core and its own coroutine, and nothing else of the cores. -/
theorem frame_step {n : Nat} {a : Act C} (h : step n s a = some t) (hc : s.site a = some c) :
    Frame s t c a.actor := by
  cases moves_of_step h with
  | resume d k _ _ _ _ =>
    cases hc
    exact frame_enter s c k
  | deliver k w m i d hpc _ =>
    simp only [State.site, hpc, Option.some.injEq] at hc
    subst hc
    exact (frame_enter s d k).goto _
  | offline d _ _ =>
    cases hc
    exact (Frame.refl s c none).offline
  | call d k hk _ h =>
    obtain rfl : d = c := Option.some.inj (hk.symm.trans (h.site.symm.trans hc))
    rw [h.actor]
    exact frame_calls hk h
  | advance d k hk h =>
    obtain rfl : d = c := Option.some.inj (hk.symm.trans hc)
    exact frame_advances hk h

end Frame

end LibCoro.Rcu
