import LibCoro.ScheduleInvariant

namespace LibCoro.Schedule

open Machine Mailbox

variable {cfg : Config} {es : List TaskId} {s t : State}

theorem sendMsg_frame (s : State) (sender : Thread) (dest : Option Thread) (m : Msg) :
    ∃ ms cr, s.sendMsg sender dest m = { s with messages := ms, crashed := cr } := by
  cases dest with
  | none => exact ⟨s.messages, true, rfl⟩
  | some d => exact ⟨s.messages ++ [⟨sender, d, m⟩], s.crashed, rfl⟩

theorem sendMsg_phase (s : State) (sender : Thread) (dest : Option Thread) (m : Msg) :
    (s.sendMsg sender dest m).phase = s.phase ∧ (s.sendMsg sender dest m).stops = s.stops := by
  obtain ⟨ms, cr, he⟩ := sendMsg_frame s sender dest m
  exact he ▸ ⟨rfl, rfl⟩

theorem setThread_frame (s : State) (i : Core) (thread : Thread) :
    ∃ th cr, s.setThread i thread = { s with threads := th, crashed := cr } := by
  unfold State.setThread
  split_ifs
  · exact ⟨_, s.crashed, rfl⟩
  · exact ⟨s.threads, true, rfl⟩

theorem setChannel_frame (s : State) (i : Core) (ch : Channel) :
    ∃ chs cr, s.setChannel i ch = { s with channels := chs, crashed := cr } := by
  unfold State.setChannel
  split_ifs
  · exact ⟨_, s.crashed, rfl⟩
  · exact ⟨s.channels, true, rfl⟩

theorem setAlive_frame (s : State) (n : Int) :
    ∃ k cr, s.setAlive n = { s with aliveTasks := k, crashed := cr } := by
  unfold State.setAlive
  split_ifs
  · exact ⟨n, s.crashed, rfl⟩
  · exact ⟨s.aliveTasks, true, rfl⟩

theorem serviceExit_frame (cfg : Config) (s : State) (self : Thread) :
    ∃ ch ms cr, serviceExit cfg s self =
      { s with channels := ch, messages := ms, crashed := cr, stops := s.stops + 1 } := by
  have hfold : ∀ (cores : List Core) (s : State), ∃ ch ms cr,
      cores.foldl (exitCore self) s = { s with channels := ch, messages := ms, crashed := cr } := by
    intro cores
    induction cores with
    | nil => exact fun s => ⟨s.channels, s.messages, s.crashed, rfl⟩
    | cons i cores ih =>
      intro s
      rw [List.foldl_cons, exitCore]
      by_cases hi : i = 0
      · rw [if_pos hi]
        obtain ⟨ch', cr', he'⟩ := setChannel_frame s i .put
        rw [he']
        obtain ⟨ch, ms, cr, he⟩ := ih { s with channels := ch', crashed := cr' }
        exact ⟨ch, ms, cr, he⟩
      · rw [if_neg hi]
        obtain ⟨ms', cr', he'⟩ := sendMsg_frame s self (s.threads i) (.threadExit i)
        rw [he']
        obtain ⟨ch, ms, cr, he⟩ := ih { s with messages := ms', crashed := cr' }
        exact ⟨ch, ms, cr, he⟩
  obtain ⟨ch, ms, cr, he⟩ := hfold (List.range cfg.numThreads) s
  exact ⟨ch, ms, cr, by rw [serviceExit, he]⟩

theorem taskDone_frame (cfg : Config) (s : State) (self : Thread) :
    ∃ k ch ms cr n, taskDone cfg s self =
      { s with aliveTasks := k, channels := ch, messages := ms, crashed := cr, stops := n } := by
  rw [taskDone]
  obtain ⟨k, cr', he'⟩ := setAlive_frame s (s.aliveTasks - 1)
  rw [he']
  dsimp only
  split_ifs
  · obtain ⟨ch, ms, cr, he⟩ := serviceExit_frame cfg { s with aliveTasks := k, crashed := cr' } self
    exact ⟨k, ch, ms, cr, s.stops + 1, he⟩
  · exact ⟨k, s.channels, s.messages, cr', s.stops, rfl⟩

theorem createThread_frame (cfg : Config) (s : State) (i : Core) :
    ∃ th mt ch ms cr, createThread cfg s i =
      { s with threads := th, mainThread := mt, channels := ch, messages := ms, crashed := cr } := by
  unfold createThread
  split_ifs
  · obtain ⟨ms, cr', he'⟩ := sendMsg_frame s cfg.currentCore (some i) (.threadInitGetChannel i)
    obtain ⟨th, cr, he⟩ := setThread_frame { s with messages := ms, crashed := cr' } i i
    exact ⟨th, s.mainThread, s.channels, ms, cr, he' ▸ he⟩
  · obtain ⟨ch, cr', he'⟩ := setChannel_frame { s with mainThread := some i } i .obtained
    obtain ⟨th, cr, he⟩ :=
      setThread_frame { s with mainThread := some i, channels := ch, crashed := cr' } i i
    exact ⟨th, some i, ch, s.messages, cr, he' ▸ he⟩

theorem sendTask_frame (cfg : Config) (s : State) (i : TaskId) :
    ∃ k ms cr, sendTask cfg s i = { s with aliveTasks := k, messages := ms, crashed := cr } := by
  unfold sendTask
  obtain ⟨k, cr', he'⟩ := setAlive_frame s (s.aliveTasks + 1)
  obtain ⟨ms, cr, he⟩ := sendMsg_frame { s with aliveTasks := k, crashed := cr' } cfg.currentCore
    (s.threads (i % cfg.numThreads)) (.serviceThreadRun i)
  exact ⟨k, ms, cr, he' ▸ he⟩

theorem schedulerInit_frame (ht : schedulerInit cfg s = some t) :
    t.phase = s.phase ∧ t.stack = s.stack ∧ t.requests = s.requests := by
  unfold schedulerInit at ht
  split at ht
  · split_ifs at ht <;> obtain rfl := Option.some.inj ht
    · obtain ⟨th, mt, ch, ms, cr, he⟩ := createThread_frame cfg s _
      rw [he]
      exact ⟨rfl, rfl, rfl⟩
    · exact ⟨rfl, rfl, rfl⟩
  · split_ifs at ht <;> obtain rfl := Option.some.inj ht
    · obtain ⟨k, ms, cr, he⟩ := sendTask_frame cfg s _
      rw [he]
      exact ⟨rfl, rfl, rfl⟩
    · obtain ⟨ch, ms, cr, he⟩ := serviceExit_frame cfg s cfg.currentCore
      rw [he]
      exact ⟨rfl, rfl, rfl⟩
    · exact ⟨rfl, rfl, rfl⟩
  · cases ht

theorem taskDone_phase (cfg : Config) (s : State) (self : Thread) :
    (taskDone cfg s self).phase = s.phase := by
  obtain ⟨k, ch, ms, cr, n, he⟩ := taskDone_frame cfg s self
  rw [he]

theorem setChannel_phase (s : State) (i : Core) (ch : Channel) :
    (s.setChannel i ch).phase = s.phase ∧ (s.setChannel i ch).stops = s.stops := by
  obtain ⟨chs, cr, he⟩ := setChannel_frame s i ch
  exact he ▸ ⟨rfl, rfl⟩

/-- `service_exit` has run only if every task is finished and no message of a task is left. -/
theorem Inv.all_done (h : Inv cfg es s) (hs : s.stops ≠ 0) : ∀ i < cfg.numTasks, i ∈ es := by
  have hst := h.stops
  by_cases hp : s.pc = .returned ∧ es.length = cfg.numTasks
  · intro i hi
    have hd : s.dispatched cfg = cfg.numTasks := by simp [State.dispatched, hp.1]
    have hcard := h.tokens.card_pending
    rw [hd, hp.2] at hcard
    have hempty := Finset.card_eq_zero.mp (by omega : (Finset.range cfg.numTasks \ es.toFinset).card = 0)
    exact List.mem_toFinset.mp (Finset.sdiff_eq_empty_iff_subset.mp hempty (Finset.mem_range.mpr hi))
  · rw [if_neg hp] at hst
    exact absurd hst hs

structure Started (cfg : Config) (starts : List (TaskId × Thread)) (s : State) : Prop where
  nodup : (starts.map Prod.fst).Nodup
  thread : ∀ p ∈ starts, p.2 = p.1 % cfg.numThreads
  mem : ∀ i, i ∈ starts.map Prod.fst ↔ s.phase i ≠ .initial

theorem Started.same {starts : List (TaskId × Thread)} {e : Option (TaskId × Thread)}
    (h : Started cfg starts s) (he : e = none)
    (hp : ∀ i, t.phase i = .initial ↔ s.phase i = .initial) :
    Started cfg (starts ++ e.toList) t := by
  rw [he, Option.toList_none, List.append_nil]
  exact ⟨h.nodup, h.thread, fun i => (h.mem i).trans (hp i).symm.not⟩

theorem initial_update {phase : TaskId → Phase} {i : TaskId} {p : Phase} (hi : phase i ≠ .initial)
    (hp : p ≠ .initial) (j : TaskId) :
    Function.update phase i p j = .initial ↔ phase j = .initial := by
  by_cases hji : j = i
  · simp [hji, hi, hp]
  · rw [Function.update_of_ne hji]

theorem started_poll {starts : List (TaskId × Thread)} (h : Started cfg starts s)
    (hi : Inv cfg es s) {sender dest : Thread} {m : Envelope Thread Msg}
    (ho : oldest s.messages sender dest = some m) (hidle : s.Idle cfg dest) :
    Started cfg (starts ++ (emitStart cfg s (.poll sender dest)).toList)
      (handle cfg { s with messages := receive s.messages sender dest } dest m.fn) := by
  have hq := inFlight_receive ho
  have hmem : m ∈ s.messages := List.mem_of_find?_eq_some ho
  have hdest := (oldest_ends ho).2
  obtain ⟨sender', dest', f⟩ := m
  cases f with
  | threadInitGetChannel core | threadExit core =>
    refine h.same (by simp [emitStart, ho]) fun i => ?_
    rw [handle, (setChannel_phase ..).1]
  | taskDone i =>
    refine h.same (by simp [emitStart, ho]) fun j => ?_
    rw [handle, taskDone_phase]
  | serviceThreadRunYield i =>
    have hp := hi.tokens.yield_phase hq
    rw [handle, serviceThreadRunYield, if_pos hp]
    exact h.same (by simp [emitStart, ho]) (initial_update (by simp [hp]) (by simp))
  | serviceThreadRun i =>
    have hp := (hi.tokens.run_phase hq).2
    have he : emitStart cfg s (.poll sender dest) = some (i, dest) := by simp [emitStart, ho, hidle]
    rw [handle, serviceThreadRun, if_pos hp, he, Option.toList_some]
    have hnew : i ∉ starts.map Prod.fst := fun hm => (h.mem i).mp hm hp
    refine ⟨?_, fun p hpm => ?_, fun j => ?_⟩
    · rw [List.map_append]
      refine List.nodup_append.mpr ⟨h.nodup, by simp, fun x hx y hy => ?_⟩
      rintro rfl
      simp only [List.map_cons, List.map_nil, List.mem_singleton] at hy
      exact hnew (hy ▸ hx)
    · cases List.mem_append.mp hpm with
      | inl hpm => exact h.thread p hpm
      | inr hpm =>
        rw [List.mem_singleton.mp hpm]
        exact hdest.symm.trans ((hi.addressed _ hmem).run i rfl)
    · rw [List.map_append, List.mem_append, h.mem j]
      simp only [List.map_cons, List.map_nil, List.mem_singleton, State.push]
      by_cases hji : j = i
      · simp [hji]
      · simp [hji]

theorem started_step {starts : List (TaskId × Thread)} {a : Act} (h : Started cfg starts s)
    (hi : Inv cfg es s) (ht : step cfg s a = some t) :
    Started cfg (starts ++ (emitStart cfg s a).toList) t := by
  cases moves_of_step ht with
  | schedulerInit ht =>
    refine h.same rfl fun i => ?_
    rw [(schedulerInit_frame ht).1]
  | poll ho hidle => exact started_poll h hi ho hidle
  | yield hst | block hst | wait hst | awaitIo hst hd =>
    have hp := hi.tokens.top_phase hst
    exact h.same rfl (initial_update (by simp [hp]) (by simp))
  | coReturn hst =>
    have hp := hi.tokens.top_phase hst
    refine h.same rfl fun j => ?_
    rw [(sendMsg_phase ..).1]
    exact initial_update (by simp [hp]) (by simp) j
  | submit hst | leave hst hf => exact h.same rfl fun j => Iff.rfl
  | resume hst hf hp => exact h.same rfl (initial_update (by simp [hp]) (by simp))
  | ioComplete hidle hp => exact h.same rfl (initial_update (by simp [hp]) (by simp))

theorem inv_run (hf : cfg.Fits) {as : List Act} (h : run (step cfg) init as = some s) :
    Inv cfg (trace (step cfg) (emitDone cfg) init as) s :=
  trace_invariant (emitDone cfg) (Inv cfg) (fun _ _ _ _ => inv_step hf) h (inv_init cfg)

/-- With every task finished and nothing in flight, the application has been stopped. -/
theorem Inv.stopped (hi : Inv cfg es s) (hpc : s.pc = .returned) (hms : s.messages = [])
    (hr : ∀ i < cfg.numTasks, s.phase i = .returned) : s.stops = 1 := by
  have hcard := hi.tokens.card_pending
  have hd : s.dispatched cfg = cfg.numTasks := by simp [State.dispatched, hpc]
  rw [hi.stops, if_pos]
  refine ⟨hpc, ?_⟩
  have hempty : Finset.range cfg.numTasks \ es.toFinset = ∅ := by
    refine Finset.sdiff_eq_empty_iff_subset.mpr fun i hm => List.mem_toFinset.mpr ?_
    exact hi.tokens.mem_of_returned (hr i (Finset.mem_range.mp hm)) (by simp [hms])
  rw [hd, hempty, Finset.card_empty] at hcard
  omega

/-- What a run from the start to `s` has shown, where it started the tasks `starts` and
processed the `task_done` of the tasks `dones`. `scheduler_init` is the first message of the main
thread and consumed once it has returned. -/
structure Orderly (cfg : Config) (starts : List (TaskId × Thread)) (dones : List TaskId)
    (s : State) : Prop where
  startedOnce : (starts.map Prod.fst).Nodup
  startedOn : ∀ p ∈ starts, p.1 < cfg.numTasks ∧ s.threads (p.1 % cfg.numThreads) = some p.2
  allStarted : s.pc = .returned → s.messages = [] → ∀ i < cfg.numTasks, i ∈ starts.map Prod.fst
  alive : s.aliveTasks = (Finset.range (s.dispatched cfg) \ dones.toFinset).card
  doneOnce : dones.Nodup ∧ ∀ i ∈ dones, i < s.dispatched cfg ∧ s.phase i = .returned
  alive_le : 0 ≤ s.aliveTasks ∧ s.aliveTasks ≤ cfg.numTasks
  stopsOnce : s.stops ≤ 1
  notEarly : ∀ a t, step cfg s a = some t → t.stops ≠ s.stops →
    (∀ i < cfg.numTasks, s.phase i = .returned) ∧
      ∀ i, inFlight s.messages (.serviceThreadRunYield i) = 0
  notLate : s.pc = .returned → s.messages = [] → (∀ i < cfg.numTasks, s.phase i = .returned) →
    s.stops = 1
  sane : s.crashed = false

section exact

variable {cfg : Config}

theorem crashed_sendMsg {s : State} (h : s.crashed = true) (sender : Thread) (dest : Option Thread)
    (m : Msg) : (s.sendMsg sender dest m).crashed = true := by
  cases dest with
  | none => rfl
  | some d => exact h

end exact

end LibCoro.Schedule
