import LibCoro.ScheduleExit

namespace LibCoro.Schedule

open Machine Mailbox

/-- The process over its cycles: `size` is `tasks.size()`, and `previous` what it was when the
last run ended. The last three fields record the current run: the tasks sent to a thread, the
tasks started, and those whose `task_done` was processed. -/
structure Process where
  size : Nat
  previous : Nat
  running : Option Config
  sched : State
  sent : List TaskId
  starts : List (TaskId × Thread)
  dones : List TaskId

/-- A cycle is `run` with the arguments of its `init_service`, the steps of the scheduler, and
`finish`, with which `spdk_app_start` returns once every reactor is idle. -/
inductive ProcessAct where
  | addTask
  | run (numThreads : Nat) (currentCore : Core)
  | act (a : Act)
  | finish
  deriving DecidableEq, Repr

namespace Process

def init : Process := ⟨0, 0, none, Schedule.init, [], [], []⟩

/-- `init_service` resets `alive_tasks`; `threads`, `channels` and `tasks` stay. -/
def restart (s : State) : State := { s with pc := .foreachCore 0, aliveTasks := 0, stops := 0 }

def emitSend (cfg : Config) (s : State) : Act → Option TaskId
  | .schedulerInit =>
    match s.pc with
    | .foreachTask i => if i < cfg.numTasks then some i else none
    | _ => none
  | _ => none

def step (p : Process) : ProcessAct → Option Process
  | .addTask => when p.running.isNone { p with size := p.size + 1 }
  | .run numThreads currentCore =>
    if h : currentCore < numThreads then
      when p.running.isNone
        { p with
          running := some ⟨numThreads, p.size, currentCore, h⟩
          sched := restart p.sched
          sent := []
          starts := []
          dones := [] }
    else none
  | .act a =>
    p.running.bind fun cfg =>
      (Schedule.step cfg p.sched a).map fun t =>
        { p with
          sched := t
          sent := p.sent ++ (emitSend cfg p.sched a).toList
          starts := p.starts ++ (emitStart cfg p.sched a).toList
          dones := p.dones ++ (emitDone cfg p.sched a).toList }
  | .finish =>
    p.running.bind fun cfg =>
      when (p.sched.stops ≠ 0 ∧ p.sched.messages = [] ∧ ∀ c < cfg.numThreads, p.sched.Idle cfg c)
        { p with running := none, previous := p.size }

end Process

/-- The actions `as` have led to a run of which all tasks are new, without more cores or tasks
than the tables and `alive_tasks` can hold. -/
structure Fresh (as : List ProcessAct) (p : Process) : Prop where
  new : p.previous = 0
  threads : ∀ n c, ProcessAct.run n c ∈ as → n ≤ entries
  tasks : (p.size : Int) ≤ intMax

structure Rested (s : State) : Prop where
  phase : ∀ i, s.phase i = .initial
  stack : ∀ c, s.stack c = []
  requests : ∀ i, s.requests i = []
  messages : s.messages = []
  sane : s.crashed = false

variable {cfg : Config} {s t : State} {es : List TaskId} {p q : Process}

theorem inv_restart (cfg : Config) (h : Rested s) : Inv cfg [] (Process.restart s) where
  tokens := by
    refine ⟨fun i => ?_, fun i => ?_, fun i => ?_, fun c i => ?_, fun i _ => h.phase i⟩
    · simp [Process.restart, h.messages, State.dispatched]
    · simp [Process.restart, h.messages, h.phase]
    · simp [Process.restart, h.messages, h.phase]
    · simp [Process.restart, h.stack, h.phase]
  sane := h.sane
  threads i hi := absurd hi (Nat.not_lt_zero i)
  main hm := absurd hm (Nat.not_lt_zero _)
  addressed m hm := by simp [Process.restart, h.messages] at hm
  placed := by
    refine ⟨fun c hc => ?_, fun i c hc => ?_, fun i _ => h.requests i, fun i c hc => ?_⟩
    · exact absurd (h.stack c) hc
    · simp [Process.restart, h.phase] at hc
    · simp [Process.restart, h.requests] at hc
  dispatched_le := Nat.zero_le _
  room := by simp [Process.restart, State.dispatched, intMax]
  early _ := rfl
  alive := rfl
  stops := by simp [Process.restart]

theorem started_restart (cfg : Config) (h : Rested s) : Started cfg [] (Process.restart s) where
  nodup := List.nodup_nil
  thread p hp := absurd hp List.not_mem_nil
  mem i := by simp [Process.restart, h.phase]

theorem rested_of_inv (h : Inv cfg es s) (hn : cfg.numTasks = 0) (hm : s.messages = [])
    (hidle : ∀ c < cfg.numThreads, s.Idle cfg c) : Rested s := by
  have hd : s.dispatched cfg = 0 := Nat.le_zero.mp (hn ▸ h.dispatched_le)
  have hphase : ∀ i, s.phase i = .initial := fun i => h.tokens.fresh i (hd ▸ Nat.zero_le i)
  refine ⟨hphase, fun c => ?_, fun i => h.placed.fresh i (hphase i), hm, h.sane⟩
  by_contra hst
  exact hst (hidle c (h.placed.stack c hst)).1

theorem pc_of_step {a : Act} (ht : step cfg s a = some t) (ha : a ≠ .schedulerInit) : t.pc = s.pc := by
  have hsend : ∀ (u : State) sender dest m, (u.sendMsg sender dest m).pc = u.pc := by
    intro u sender dest m
    obtain ⟨ms, cr, he⟩ := sendMsg_frame u sender dest m
    rw [he]
  cases moves_of_step ht with
  | schedulerInit => exact absurd rfl ha
  | @poll sender dest m ho hidle =>
    cases hf : m.fn with
    | threadInitGetChannel core | threadExit core =>
      obtain ⟨ch, cr, he⟩ := setChannel_frame
        { s with messages := receive s.messages sender dest } core _
      rw [handle, he]
    | serviceThreadRun i =>
      rw [handle, serviceThreadRun]
      split_ifs <;> rfl
    | serviceThreadRunYield i =>
      rw [handle, serviceThreadRunYield]
      split_ifs <;> rfl
    | taskDone i =>
      obtain ⟨k, ch, ms, cr, n, he⟩ := taskDone_frame cfg
        { s with messages := receive s.messages sender dest } dest
      rw [handle, he]
  | yield hst | coReturn hst => exact hsend ..
  | block | wait | leave | resume | submit | awaitIo | ioComplete => rfl

section Crash

theorem crashed_ite (p : Prop) [Decidable p] {t : State} (h : t.crashed = true) :
    (if p then t else { s with crashed := true }).crashed = true := by
  split_ifs
  · exact h
  · rfl

theorem crashed_setThread (h : s.crashed = true) (i : Core) (thread : Thread) :
    (s.setThread i thread).crashed = true :=
  crashed_ite _ h

theorem crashed_setChannel (h : s.crashed = true) (i : Core) (ch : Channel) :
    (s.setChannel i ch).crashed = true :=
  crashed_ite _ h

theorem crashed_setAlive (h : s.crashed = true) (n : Int) : (s.setAlive n).crashed = true :=
  crashed_ite _ h

theorem crashed_serviceExit (h : s.crashed = true) (self : Thread) :
    (serviceExit cfg s self).crashed = true := by
  have hfold : ∀ (cores : List Core) (s : State), s.crashed = true →
      (cores.foldl (exitCore self) s).crashed = true := by
    intro cores
    induction cores with
    | nil => exact fun s h => h
    | cons i cores ih =>
      intro s h
      refine ih _ ?_
      unfold exitCore
      split_ifs
      · exact crashed_setChannel h ..
      · exact crashed_sendMsg h ..
  exact hfold _ s h

theorem crashed_handle (h : s.crashed = true) (self : Thread) (m : Msg) :
    (handle cfg s self m).crashed = true := by
  cases m with
  | threadInitGetChannel core | threadExit core => exact crashed_setChannel h ..
  | serviceThreadRun i | serviceThreadRunYield i => exact crashed_ite _ h
  | taskDone i =>
    have hal := crashed_setAlive h (s.aliveTasks - 1)
    rw [handle, taskDone]
    split_ifs
    · exact crashed_serviceExit hal self
    · exact hal

theorem crashed_createThread (h : s.crashed = true) (i : Core) :
    (createThread cfg s i).crashed = true := by
  unfold createThread
  split_ifs
  · exact crashed_setThread (crashed_sendMsg h ..) ..
  · refine crashed_setThread (crashed_setChannel ?_ ..) ..
    exact h

theorem crashed_schedulerInit (h : s.crashed = true) (ht : schedulerInit cfg s = some t) :
    t.crashed = true := by
  unfold schedulerInit at ht
  split at ht
  · split_ifs at ht <;> obtain rfl := Option.some.inj ht
    · exact crashed_createThread h _
    · exact h
  · split_ifs at ht <;> obtain rfl := Option.some.inj ht
    · exact crashed_sendMsg (crashed_setAlive h _) ..
    · exact crashed_serviceExit h _
    · exact h
  · cases ht

theorem crashed_step {a : Act} (h : s.crashed = true) (ht : step cfg s a = some t) :
    t.crashed = true := by
  cases moves_of_step ht with
  | schedulerInit ht => exact crashed_schedulerInit h ht
  | @poll sender dest m ho hidle =>
    exact crashed_handle (s := { s with messages := receive s.messages sender dest }) h ..
  | @yield c i rest hst =>
    exact crashed_sendMsg (s := s.suspend c i (.leaving i) rest .yielded) h ..
  | @coReturn c i rest hst =>
    exact crashed_sendMsg (s := s.suspend c i (.leaving i) rest .returned) h ..
  | block | wait | leave | resume | submit | awaitIo | ioComplete => exact h

end Crash

def Good (p : Process) : Prop :=
  p.previous ≤ p.size ∧
    match p.running with
    | none => p.previous = 0 → Rested p.sched
    | some cfg =>
      cfg.numThreads ≤ entries ∧
        (p.previous = 0 → (Inv cfg p.dones p.sched ∧ Started cfg p.starts p.sched) ∨
          intMax < (cfg.numTasks : Int) ∧ p.sched.crashed = true)

theorem good_act {a : Act} (hn : cfg.numThreads ≤ entries) {dones : List TaskId}
    {starts : List (TaskId × Thread)} (h : (Inv cfg dones s ∧ Started cfg starts s) ∨
      intMax < (cfg.numTasks : Int) ∧ s.crashed = true) (ht : step cfg s a = some t) :
    (Inv cfg (dones ++ (emitDone cfg s a).toList) t ∧
      Started cfg (starts ++ (emitStart cfg s a).toList) t) ∨
        intMax < (cfg.numTasks : Int) ∧ t.crashed = true := by
  obtain ⟨hi, hs⟩ | ⟨hover, hcrash⟩ := h
  · exact (inv_or_overflow hn hi ht).imp_left fun hi' => ⟨hi', started_step hs hi ht⟩
  · exact .inr ⟨hover, crashed_step hcrash ht⟩

def Sending (p : Process) : Prop :=
  p.previous ≤ p.size ∧ ∀ cfg, p.running = some cfg →
    cfg.numTasks = p.size ∧ p.sent = List.range (p.sched.dispatched cfg) ∧
      p.sched.dispatched cfg ≤ cfg.numTasks

theorem good_step {a : ProcessAct} (h : Good p) (hsend : Sending p)
    (ha : ∀ n c, a = .run n c → n ≤ entries) (ht : Process.step p a = some q) : Good q := by
  obtain ⟨hle, h⟩ := h
  cases a with
  | addTask =>
    obtain ⟨hr, rfl⟩ := (when_eq_some _ _ _).mp ht
    rw [Option.isNone_iff_eq_none.mp hr] at h
    refine ⟨Nat.le_succ_of_le hle, ?_⟩
    rwa [Option.isNone_iff_eq_none.mp hr]
  | run numThreads currentCore =>
    simp only [Process.step] at ht
    split_ifs at ht with hlt
    obtain ⟨hr, rfl⟩ := (when_eq_some _ _ _).mp ht
    rw [Option.isNone_iff_eq_none.mp hr] at h
    exact ⟨hle, ha _ _ rfl, fun hz => .inl ⟨inv_restart _ (h hz), started_restart _ (h hz)⟩⟩
  | act a =>
    simp only [Process.step, Option.bind_eq_some_iff, Option.map_eq_some_iff] at ht
    obtain ⟨cfg, hr, t, ht, rfl⟩ := ht
    rw [hr] at h
    refine ⟨hle, ?_⟩
    rw [hr]
    exact ⟨h.1, fun hz => good_act h.1 (h.2 hz) ht⟩
  | finish =>
    simp only [Process.step, Option.bind_eq_some_iff, when_eq_some] at ht
    obtain ⟨cfg, hr, ⟨-, hm, hidle⟩, rfl⟩ := ht
    rw [hr] at h
    refine ⟨Nat.le_refl _, fun hz => ?_⟩
    have hsize : p.size = 0 := hz
    have hn : cfg.numTasks = 0 := (hsend.2 cfg hr).1.trans hsize
    obtain ⟨hi, -⟩ | ⟨hover, -⟩ := h.2 (Nat.le_zero.mp (hsize ▸ hle))
    · exact rested_of_inv hi hn hm hidle
    · rw [hn] at hover
      exact absurd hover (by decide)

end LibCoro.Schedule
