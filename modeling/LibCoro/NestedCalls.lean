import LibCoro.TaskRefinement

namespace LibCoro.Task

open Machine Calls Outcome

variable {L X V R : Type} {j k c : Kind}

namespace State

def Finished (s : State L X V R) (h : Handle) : Prop :=
  ∃ k caller value, s.frames h = some ⟨k, caller, value, .finalSuspend⟩

def Gone (s : State L X V R) (h : Handle) : Prop := h < s.next ∧ s.frames h = none

def Awaiting (s : State L X V R) (p h : Handle) : Prop :=
  ∃ (k c : Kind) (caller : Option Handle) (value : Option V)
    (rest : Result V c → Body L X V k),
    s.frames p = some ⟨k, caller, value, .awaitTask none (some h) rest⟩

end State

/-- What a run from the start of `body` to `s` has shown, where it performed `es` and
destroyed the frames `ds`. -/
structure Nested (body : Body L X V j) (es : List (Event L X V)) (ds : List Handle)
    (s : State L X V R) : Prop where
  events : (call body (es.map Event.answer)).1 = es
  result : s.done = true →
    ∃ r, call body (es.map Event.answer) = (es, some (r, [])) ∧ s.get = slot j r
  safe : ∀ e, s.control ≠ .failed e
  progress : ∀ _ : V, s.done = false → ∃ a t, step s a = some t
  handsBack : ∀ h r v k caller value (result : Result V k), s.control = .coroutine h r →
    s.frames h = some ⟨k, caller, value, .code (.coReturn result)⟩ →
    (∃ p, caller = some p ∧ s.Awaiting p h ∧ (advance s h r v).control = .coroutine p r) ∨
      (h = root ∧ caller = none ∧ (advance s h r v).control = .resumer r)
  destroyedOnce : ds.Nodup
  destroyed : ∀ h, h ∈ ds ↔ s.Gone h
  destroyedFinished : ∀ v h, emitDestroy s (.advance v) = some h → s.Finished h
  allDestroyed : s.done = true → ∀ h, h < s.next → h ≠ root → h ∈ ds
  neverResumed : ∀ h r, s.control = .coroutine h r → h ∉ ds ∧ ¬ s.Finished h

theorem done_iff (s : State L X V R) : s.done = true ↔ s.Finished root := by
  rw [State.done, State.Finished]
  cases s.frames root with
  | none => simp
  | some f =>
    obtain ⟨k, caller, value, point⟩ := f
    cases point <;> simp

theorem OnTop.root_unfinished {F : Heap L X V} {callers : Stack L X V j k} {h : Handle}
    {caller : Option Handle} {ps : List Handle} {point : Point L X V k}
    (ht : OnTop F callers h caller ps point) (hp : point ≠ .finalSuspend) :
    ∀ k caller value, F root ≠ some ⟨k, caller, value, .finalSuspend⟩ := by
  induction callers generalizing h caller ps with
  | nil =>
    obtain ⟨rfl, _, _⟩ := ht.awaits
    intro k' caller' value hf
    rw [ht.frame] at hf
    injection hf with hf
    injection hf with hk _ _ hpt
    subst hk
    exact hp (eq_of_heq hpt)
  | cons rest callers ih =>
    obtain ⟨p, caller', ps', _, _, _, hf, hr⟩ := ht.awaits
    exact ih ⟨hf, hr⟩ (by simp)

section Represented

variable {s : State L X V R} {n : Config L X V j}

theorem Represents.started_cases (hn : Represents s n) (hb : ∀ b, n ≠ .entry b) :
    (∃ h r, s.control = .coroutine h r) ∨ (∃ h r, s.stored = [h] ∧ s.control = .resumer r) ∨
      ∃ result r, n = .returned result ∧ s.done = true ∧ s.control = .resumer r := by
  cases n with
  | entry b => exact absurd rfl (hb b)
  | running callers b =>
    obtain ⟨-, -, h, r, _, _, hc, -⟩ := hn
    exact Or.inl ⟨h, r, hc⟩
  | blocked callers x rest =>
    obtain ⟨-, h, r, _, _, hst, hc, -⟩ := hn
    exact Or.inr (Or.inl ⟨h, r, hst, hc⟩)
  | unblocked callers x rest =>
    obtain ⟨-, -, h, r, _, _, hc, -⟩ := hn
    exact Or.inl ⟨h, r, hc⟩
  | returning callers rest result =>
    obtain ⟨-, -, _, h, r, _, _, hc, -⟩ := hn
    exact Or.inl ⟨h, r, hc⟩
  | returned result =>
    obtain ⟨-, -, ⟨r, hc⟩, hf, -⟩ := hn
    exact Or.inr (Or.inr ⟨result, r, rfl, by simp [State.done, hf], hc⟩)

theorem Represents.safe (hn : Represents s n) (e : Error) : s.control ≠ .failed e := by
  by_cases hb : ∃ b, n = .entry b
  · obtain ⟨b, rfl⟩ := hb
    obtain ⟨-, -, ⟨r, hc⟩, -⟩ := hn
    simp [hc]
  · obtain ⟨h, r, hc⟩ | ⟨h, r, -, hc⟩ | ⟨result, r, -, -, hc⟩ :=
      hn.started_cases fun b e => hb ⟨b, e⟩
    · simp [hc]
    · simp [hc]
    · simp [hc]

theorem Represents.progress (hn : Represents s n) (v : V) (hd : s.done = false) :
    ∃ a t, step s a = some t := by
  by_cases hb : ∃ b, n = .entry b
  · obtain ⟨b, rfl⟩ := hb
    obtain ⟨hs, -, ⟨r, hc⟩, -⟩ := hn
    refine ⟨.start r, { s with started := true, control := .coroutine root r }, ?_⟩
    simp [step, hc, hs]
  · obtain ⟨h, r, hc⟩ | ⟨h, r, hst, hc⟩ | ⟨result, r, -, hdone, -⟩ :=
      hn.started_cases fun b e => hb ⟨b, e⟩
    · exact ⟨.advance v, advance s h r v, by simp [step, hc]⟩
    · refine ⟨.resume r h, { s with stored := s.stored.erase h, control := .coroutine h r }, ?_⟩
      simp [step, hc, hst]
    · simp [hd] at hdone

theorem Represents.returned_of_finished (hn : Represents s n) (hd : s.Finished root) :
    ∃ result, n = .returned result := by
  obtain ⟨k, caller, value, hroot⟩ := hd
  cases n with
  | entry b =>
    obtain ⟨_, _, _, hf, _⟩ := hn
    have ht : OnTop s.frames .nil root none [] (.code b) := ⟨hf, rfl, rfl, rfl⟩
    exact absurd hroot (ht.root_unfinished (by simp) _ _ _)
  | running callers b =>
    obtain ⟨_, _, _, _, _, _, _, ht, _⟩ := hn
    exact absurd hroot (ht.root_unfinished (by simp) _ _ _)
  | blocked callers x rest =>
    obtain ⟨_, _, _, _, _, _, _, ht, _⟩ := hn
    exact absurd hroot (ht.root_unfinished (by simp) _ _ _)
  | unblocked callers x rest =>
    obtain ⟨_, _, _, _, _, _, _, ht, _⟩ := hn
    exact absurd hroot (ht.root_unfinished (by simp) _ _ _)
  | returning callers rest result =>
    obtain ⟨_, _, _, _, _, _, _, _, _, _, ht, _⟩ := hn
    exact absurd hroot (ht.root_unfinished (by simp) _ _ _)
  | returned result => exact ⟨result, rfl⟩

theorem Represents.onTop (hn : Represents s n) {h : Handle} {r : R}
    (hc : s.control = .coroutine h r) :
    ∃ (k : Kind) (callers : Stack L X V j k) (caller : Option Handle) (ps : List Handle)
      (point : Point L X V k), OnTop s.frames callers h caller ps point ∧ point ≠ .finalSuspend := by
  obtain ⟨-, -, hin⟩ := hn.inside hc
  cases hin with
  | running ht _ => exact ⟨_, _, _, _, _, ht, by simp⟩
  | unblocked ht _ => exact ⟨_, _, _, _, _, ht, by simp⟩
  | returning _ _ ht _ => exact ⟨_, _, _, _, _, ht, by simp⟩

theorem OnTop.point_eq {F : Heap L X V} {callers : Stack L X V j k} {h : Handle}
    {caller caller' : Option Handle} {ps : List Handle} {point point' : Point L X V k}
    {value : Option V} (ht : OnTop F callers h caller ps point)
    (hf : F h = some ⟨k, caller', value, point'⟩) :
    caller' = caller ∧ value = none ∧ point' = point := by
  rw [ht.frame] at hf
  cases hf
  exact ⟨rfl, rfl, rfl⟩

theorem OnTop.kind_eq {F : Heap L X V} {callers : Stack L X V j k} {h : Handle}
    {caller : Option Handle} {ps : List Handle} {point : Point L X V k} {f : Frame L X V}
    (ht : OnTop F callers h caller ps point) (hf : F h = some f) : f.kind = k := by
  rw [ht.frame] at hf
  cases hf
  rfl

theorem Represents.neverResumed (hn : Represents s n) {h : Handle} {r : R}
    (hc : s.control = .coroutine h r) : ¬ s.Gone h ∧ ¬ s.Finished h := by
  obtain ⟨k, callers, caller, ps, point, ht, hp⟩ := hn.onTop hc
  refine ⟨fun hg => ?_, fun ⟨k', caller', value, hf⟩ => ?_⟩
  · exact absurd (ht.frame.symm.trans hg.2) (by simp)
  · obtain rfl : k' = k := ht.kind_eq hf
    exact hp (ht.point_eq hf).2.2.symm

theorem Represents.handsBack (hn : Represents s n) {h : Handle} {r : R} {v : V} {k : Kind}
    {caller : Option Handle} {value : Option V} {result : Result V k}
    (hc : s.control = .coroutine h r)
    (hf : s.frames h = some ⟨k, caller, value, .code (.coReturn result)⟩) :
    (∃ p, caller = some p ∧ s.Awaiting p h ∧ (advance s h r v).control = .coroutine p r) ∨
      (h = root ∧ caller = none ∧ (advance s h r v).control = .resumer r) := by
  obtain ⟨k', callers, caller', ps, point, ht, _⟩ := hn.onTop hc
  obtain rfl : k = k' := ht.kind_eq hf
  obtain ⟨rfl, rfl, rfl⟩ := ht.point_eq hf
  simp only [advance, hf, coReturn, returnValue_none]
  cases callers with
  | nil =>
    obtain ⟨rfl, rfl, rfl⟩ := ht.awaits
    exact .inr ⟨rfl, rfl, rfl⟩
  | cons rest callers =>
    obtain ⟨p, caller', ps', rfl, rfl, _, hfp, _⟩ := ht.awaits
    exact .inl ⟨p, rfl, ⟨_, _, _, _, rest, hfp⟩, rfl⟩

def Buries (s : State L X V R) (d : Option Handle) (t : State L X V R) : Prop :=
  (∀ x, t.Gone x ↔ x ∈ d.toList ∨ s.Gone x) ∧ ∀ x ∈ d.toList, s.Finished x ∧ x ≠ root ∧ ¬ s.Gone x

theorem buries_put {h : Handle} {f f' : Frame L X V} {t : State L X V R}
    (hf : s.frames h = some f) (ht : t.frames = Function.update s.frames h (some f'))
    (hx : t.next = s.next) : Buries s none t := by
  refine ⟨fun x => ?_, by simp⟩
  rw [State.Gone, State.Gone, ht, hx]
  by_cases hxh : x = h
  · simp [hxh, hf]
  · simp [Function.update_of_ne hxh]

theorem buries_coAwaitTask {callers : Stack L X V j k} {h : Handle} {r : R}
    {caller : Option Handle} {ps : List Handle} {child : Body L X V c}
    {rest : Result V c → Body L X V k}
    (hf : OnTop s.frames callers h caller ps (.code (.coAwaitTask child rest)))
    (hl : Live s.frames s.next (h :: ps)) :
    Buries s none (coAwaitTask s h r caller none child rest) := by
  have hn : s.next ≠ h := Nat.ne_of_gt (hl.bound h List.mem_cons_self)
  refine ⟨fun x => ?_, by simp⟩
  simp only [coAwaitTask, operatorCoAwait, awaitSuspend, State.put, Frame.fresh,
    Function.update_of_ne hn, Function.update_self, State.Gone]
  by_cases hx : x = s.next
  · simp [hx]
  · rw [Function.update_of_ne hx]
    by_cases hxh : x = h
    · simp [hxh, hf.frame]
    · rw [Function.update_of_ne hxh, Function.update_of_ne hx]
      have : x < s.next + 1 ↔ x < s.next := by
        refine ⟨fun hlt => ?_, fun hlt => Nat.lt_succ_of_lt hlt⟩
        exact Nat.lt_of_le_of_ne (Nat.le_of_lt_succ hlt) hx
      simp [this]

theorem buries_awaitResume {callers : Stack L X V j k} {h p : Handle} {caller : Option Handle}
    {ps : List Handle} {rest : Result V c → Body L X V k} {result : Result V c} (hp : p < h)
    (hf : s.frames h = some ⟨c, some p, slot c result, .finalSuspend⟩)
    (ht : OnTop s.frames callers p caller ps (.awaitTask none (some h) rest))
    (hl : Live s.frames s.next (h :: p :: ps)) :
    Buries s (some h) (awaitResume s p caller none none (some h) rest) := by
  have hfp : Function.update s.frames p (some ⟨k, caller, none, .code (rest result)⟩) h =
      some ⟨c, some p, slot c result, .finalSuspend⟩ :=
    (Function.update_of_ne (Nat.ne_of_gt hp) _ _).trans hf
  have hn : h < s.next := hl.bound h List.mem_cons_self
  refine ⟨fun x => ?_, fun x hx => ?_⟩
  · simp only [awaitResume, hf, takeValue_slot, State.put, State.destroy, State.dropTask, hfp,
      State.Gone, Option.toList_some, List.mem_singleton]
    by_cases hxh : x = h
    · simp [hxh, hn]
    · rw [Function.update_of_ne hxh]
      by_cases hxp : x = p
      · simp [hxp, Nat.ne_of_lt hp, ht.frame]
      · simp [Function.update_of_ne hxp, hxh]
  · obtain rfl : x = h := by simpa using hx
    refine ⟨⟨c, some p, slot c result, hf⟩, Nat.ne_of_gt (Nat.lt_of_le_of_lt (Nat.zero_le p) hp), ?_⟩
    intro hg
    rw [hg.2] at hf
    cases hf

theorem Represents.buries {t : State L X V R} {a : Act V R} (hn : Represents s n)
    (ht : step s a = some t) : Buries s (emitDestroy s a) t := by
  cases hc : s.control with
  | failed e => exact absurd hc (hn.safe e)
  | resumer r =>
    have he : emitDestroy s a = none := by cases a <;> simp [emitDestroy, hc]
    rw [he]
    obtain ⟨_, _, _, rfl⟩ | ⟨_, _, _, _, rfl⟩ := step_resumer hc ht
    · exact ⟨fun x => by simp [State.Gone], by simp⟩
    · exact ⟨fun x => by simp [State.Gone], by simp⟩
  | coroutine h r =>
    obtain ⟨v, rfl, rfl⟩ := step_coroutine hc ht
    obtain ⟨-, -, hin⟩ := hn.inside hc
    cases hin with
    | @running k callers b caller ps hf hl =>
      have he : emitDestroy s (.advance v) = none := by simp [emitDestroy, hc, hf.frame]
      simp only [he, advance, hf.frame]
      cases b with
      | coReturn result =>
        simp only [coReturn, returnValue_none]
        exact buries_put hf.frame rfl rfl
      | localStep l rest => exact buries_put hf.frame rfl rfl
      | coAwaitTask child rest => exact buries_coAwaitTask hf hl
      | coAwait x rest => exact buries_put hf.frame rfl rfl
    | unblocked hf hl =>
      have he : emitDestroy s (.advance v) = none := by simp [emitDestroy, hc, hf.frame]
      simp only [he, advance, hf.frame]
      exact buries_put hf.frame rfl rfl
    | @returning k c callers rest result caller ps child hp hfc hf hl =>
      have he : emitDestroy s (.advance v) = some child := by simp [emitDestroy, hc, hf.frame]
      simp only [he, advance, hf.frame]
      exact buries_awaitResume hp hfc hf hl

end Represented

def BuriedOnce (ds : List Handle) (s : State L X V R) : Prop :=
  ds.Nodup ∧ ∀ h, h ∈ ds ↔ s.Gone h

theorem buriedOnce_step {s t : State L X V R} {ds : List Handle} {d : Option Handle}
    (hb : BuriedOnce ds s) (ht : Buries s d t) : BuriedOnce (ds ++ d.toList) t := by
  refine ⟨List.nodup_append.mpr ⟨hb.1, by cases d <;> simp, ?_⟩, fun h => ?_⟩
  · intro x hx y hy hxy
    exact (ht.2 y hy).2.2 ((hb.2 y).mp (hxy ▸ hx))
  · rw [List.mem_append, ht.1 h, hb.2 h, or_comm]

theorem represents_run {body : Body L X V j} {r : R} {s : State L X V R} {as : List (Act V R)}
    (h : run step (init body r) as = some s) :
    ∃ n, Represents s n ∧
      Performed Event.answer (call body) (trace step emit (init body r) as) n.call := by
  refine trace_invariant emit (fun es s => ∃ n, Represents s n ∧
    Performed Event.answer (call body) es n.call) ?_ h
    ⟨.entry body, represents_init body r, performed_nil _⟩
  rintro es s a t ⟨n, hn, hp⟩ ht
  obtain ⟨n', hstep, hn', he⟩ := simulates hn ht
  exact ⟨n', hn', he ▸ performed_step hp hstep⟩

theorem buriedOnce_run {body : Body L X V j} {r : R} {s : State L X V R} {as : List (Act V R)}
    (h : run step (init body r) as = some s) :
    BuriedOnce (trace step emitDestroy (init body r) as) s := by
  have hinit : BuriedOnce [] (init body r) := by
    refine ⟨List.nodup_nil, fun h => ⟨fun hm => by simp at hm, fun hg => ?_⟩⟩
    obtain rfl : h = root := Nat.lt_one_iff.mp hg.1
    simp [State.Gone, init] at hg
  refine (trace_invariant emitDestroy (fun ds s => (∃ n : Config L X V j, Represents s n) ∧
    BuriedOnce ds s) ?_ h ⟨⟨_, represents_init body r⟩, hinit⟩).2
  rintro ds s a t ⟨⟨n, hn⟩, hb⟩ ht
  obtain ⟨n', _, hn', _⟩ := simulates hn ht
  exact ⟨⟨n', hn'⟩, buriedOnce_step hb (hn.buries ht)⟩

theorem halts_init (body : Body L X V j) (r : R) : Halts step (init body r) := by
  refine Halts.of_simulation Represents ?_ (halts_entry body) (represents_init body r)
  intro s n a t hn ht
  obtain ⟨n', hstep, hn', _⟩ := simulates hn ht
  exact ⟨a.answer, n', hstep, hn'⟩

/-- Tasks behave like nested calls: no schedule runs for ever, one that cannot go on has finished
the outermost task, and what it has performed is what the nested calls perform. -/
theorem tasks_are_nested_calls (body : Body L X V j) (r : R) :
    Halts step (init body r) ∧ ∀ (as : List (Act V R)) (s : State L X V R),
      run step (init body r) as = some s →
        Nested body (trace step emit (init body r) as) (trace step emitDestroy (init body r) as)
          s := by
  refine ⟨halts_init body r, fun as s h => ?_⟩
  obtain ⟨n, hn, hp⟩ := represents_run h
  obtain ⟨hnd, hgone⟩ := buriedOnce_run h
  refine ⟨hp.events n.prompted, fun hd => ?_, hn.safe, fun v => hn.progress v, ?_, hnd, hgone,
    fun v h hd => ?_, fun hd h hlt hr => ?_, fun h r' hc => ?_⟩
  · obtain ⟨result, rfl⟩ := hn.returned_of_finished ((done_iff s).mp hd)
    refine ⟨result, hp.result, ?_⟩
    rw [State.get, hn.2.2.2.1]
    rfl
  · intro h r' v k caller value result hc hf
    exact hn.handsBack hc hf
  · cases hc : s.control with
    | coroutine h' r' =>
      have ht : step s (.advance v) = some (advance s h' r' v) := by simp [step, hc]
      exact ((hn.buries ht).2 h (by simp [hd])).1
    | resumer r' => simp [emitDestroy, hc] at hd
    | failed e => simp [emitDestroy, hc] at hd
  · obtain ⟨result, rfl⟩ := hn.returned_of_finished ((done_iff s).mp hd)
    refine (hgone h).mpr ⟨hlt, ?_⟩
    by_contra hf
    exact hr (List.mem_singleton.mp (hn.2.2.2.2.only h hf))
  · obtain ⟨hg, hf⟩ := hn.neverResumed hc
    exact ⟨fun hm => hg ((hgone h).mp hm), hf⟩

def asyncWrapper : Body String String Nat .value :=
  .coAwaitTask
    (.localStep "before suspend" fun _ => .coAwait "w" fun _ =>
      .localStep "async_func done" fun _ => .coReturn (k := .value) 1)
    fun ret => .coReturn (k := .value) ret

def startThenWakeup : List (Act Nat String) :=
  [.start "test", .advance 0, .advance 0, .advance 0, .resume "wakeup" 1, .advance 0, .advance 0,
    .advance 0, .advance 0, .advance 0]

theorem tasks_are_nested_calls_wrapper :
    ∃ s, run step (init asyncWrapper "main") startThenWakeup = some s ∧
      s.control = .resumer "wakeup" ∧ s.get = some 1 ∧
      trace step emitDestroy (init asyncWrapper "main") startThenWakeup = [1] ∧
      Nested asyncWrapper [.localStep "before suspend" 0, .external "w" 0,
        .localStep "async_func done" 0] [1] s :=
  ⟨_, rfl, rfl, rfl, rfl, (tasks_are_nested_calls asyncWrapper "main").2 startThenWakeup _ rfl⟩

end LibCoro.Task
