import LibCoro.Machine
import LibCoro.Mailbox

namespace LibCoro.Schedule

open Machine Mailbox

abbrev Core := Nat

abbrev Thread := Nat

abbrev TaskId := Nat

/-- What a run is started with: the arguments of `init_service`, the number of tasks added and
the core on which SPDK calls `scheduler_init`. -/
structure Config where
  numThreads : Nat
  numTasks : Nat
  currentCore : Core
  current_lt : currentCore < numThreads

/-- The functions sent to a thread. `task_done` gets a null pointer: the task it carries here
only names the sender. -/
inductive Msg where
  | threadInitGetChannel (core : Core)
  | serviceThreadRun (i : TaskId)
  | serviceThreadRunYield (i : TaskId)
  | taskDone (i : TaskId)
  | threadExit (core : Core)
  deriving DecidableEq, Repr

/-- An activation on a core: a coroutine that runs or has resumed the one above it; the
`await_suspend` of a condition variable behind its `compare_exchange`, where `~unique_lock` still
unlocks the mutex; or code that has nothing left but to return. -/
inductive Frame where
  | body (i : TaskId)
  | unlocking (i : TaskId)
  | leaving (i : TaskId)
  deriving DecidableEq, Repr

/-- `Mutex::unlock` and `notify` resume those who wait. -/
def Frame.resumes : Frame → Bool
  | .body _ | .unlocking _ => true
  | .leaving _ => false

def Frame.suspended : Frame → Bool
  | .body _ => false
  | .unlocking _ | .leaving _ => true

/-- The coroutine of a task: at `initial_suspend`, running on a core, suspended in `yield()`, in
the queue of a mutex or a condition variable, in an I/O request that was submitted on a core, or
with its body returned. -/
inductive Phase where
  | initial
  | executing (c : Core)
  | yielded
  | blocked
  | submitted (c : Core)
  | returned
  deriving DecidableEq, Repr

inductive Channel where
  | null
  | obtained
  | put
  deriving DecidableEq, Repr

inductive InitPc where
  | foreachCore (i : Core)
  | foreachTask (i : TaskId)
  | returned
  deriving DecidableEq, Repr

/-- The globals of the scheduler, the messages in flight and the activations on each core, the
last one first. `requests` lists the cores on whose channel a task has submitted I/O, and
`crashed` is set by what is undefined in the source: a null pointer, an index beyond a table, an
`int` that overflows. -/
structure State where
  pc : InitPc
  threads : Core → Option Thread
  mainThread : Option Thread
  channels : Core → Channel
  aliveTasks : Int
  messages : List (Envelope Thread Msg)
  phase : TaskId → Phase
  stack : Core → List Frame
  requests : TaskId → List Core
  stops : Nat
  crashed : Bool

def init : State :=
  { pc := .foreachCore 0, threads := fun _ => none, mainThread := none,
    channels := fun _ => .null, aliveTasks := 0, messages := [], phase := fun _ => .initial,
    stack := fun _ => [], requests := fun _ => [], stops := 0, crashed := false }

/-- `block` is the `compare_exchange` that queues a coroutine in a mutex or a notifier, and `wait`
the one of a condition variable, which holds its mutex; `leave` returns from what is on top. -/
inductive Act where
  | schedulerInit
  | poll (sender dest : Thread)
  | yield (c : Core)
  | block (c : Core)
  | wait (c : Core)
  | leave (c : Core)
  | resume (c : Core) (i : TaskId)
  | submit (c : Core)
  | awaitIo (c d : Core)
  | ioComplete (c : Core) (i : TaskId)
  | coReturn (c : Core)
  deriving DecidableEq, Repr

def entries : Nat := 256

def intMax : Int := 2147483647

def intMin : Int := -2147483648

/-- The tables have an entry for every core, and an `int` counts the tasks. -/
structure Config.Fits (cfg : Config) : Prop where
  threads : cfg.numThreads ≤ entries
  tasks : (cfg.numTasks : Int) ≤ intMax

namespace State

def sendMsg (s : State) (sender : Thread) (dest : Option Thread) (m : Msg) : State :=
  match dest with
  | none => { s with crashed := true }
  | some d => { s with messages := s.messages ++ [⟨sender, d, m⟩] }

def setThread (s : State) (i : Core) (thread : Thread) : State :=
  if i < entries then { s with threads := Function.update s.threads i (some thread) }
  else { s with crashed := true }

def setChannel (s : State) (i : Core) (ch : Channel) : State :=
  if i < entries then { s with channels := Function.update s.channels i ch }
  else { s with crashed := true }

def setAlive (s : State) (n : Int) : State :=
  if intMin ≤ n ∧ n ≤ intMax then { s with aliveTasks := n } else { s with crashed := true }

def push (s : State) (c : Core) (i : TaskId) : State :=
  { s with
    phase := Function.update s.phase i (.executing c)
    stack := Function.update s.stack c (.body i :: s.stack c) }

def suspend (s : State) (c : Core) (i : TaskId) (f : Frame) (rest : List Frame) (p : Phase) : State :=
  { s with phase := Function.update s.phase i p, stack := Function.update s.stack c (f :: rest) }

end State

def exitCore (sender : Thread) (s : State) (i : Core) : State :=
  if i = 0 then s.setChannel i .put
  else s.sendMsg sender (s.threads i) (.threadExit i)

/-- `service_exit` on the thread `sender`; `stops` counts the calls of `spdk_app_stop`. -/
def serviceExit (cfg : Config) (s : State) (sender : Thread) : State :=
  let s := (List.range cfg.numThreads).foldl (exitCore sender) s
  { s with stops := s.stops + 1 }

def taskDone (cfg : Config) (s : State) (self : Thread) : State :=
  let s := s.setAlive (s.aliveTasks - 1)
  if s.aliveTasks = 0 then serviceExit cfg s self else s

/-- `task_run` up to its `co_await *t`, which needs a task that nobody has awaited. -/
def serviceThreadRun (s : State) (self : Thread) (i : TaskId) : State :=
  if s.phase i = .initial then s.push self i else { s with crashed := true }

/-- `h.resume()`, which needs a coroutine that is suspended in `yield()`. -/
def serviceThreadRunYield (s : State) (self : Thread) (i : TaskId) : State :=
  if s.phase i = .yielded then s.push self i else { s with crashed := true }

def handle (cfg : Config) (s : State) (self : Thread) : Msg → State
  | .threadInitGetChannel core => s.setChannel core .obtained
  | .serviceThreadRun i => serviceThreadRun s self i
  | .serviceThreadRunYield i => serviceThreadRunYield s self i
  | .taskDone _ => taskDone cfg s self
  | .threadExit core => s.setChannel core .put

def createThread (cfg : Config) (s : State) (i : Core) : State :=
  if i ≠ cfg.currentCore then
    (s.sendMsg cfg.currentCore (some i) (.threadInitGetChannel i)).setThread i i
  else ({ s with mainThread := some i }.setChannel i .obtained).setThread i i

def sendTask (cfg : Config) (s : State) (i : TaskId) : State :=
  (s.setAlive (s.aliveTasks + 1)).sendMsg cfg.currentCore (s.threads (i % cfg.numThreads))
    (.serviceThreadRun i)

/-- The next round of a loop of `scheduler_init`; only the main thread reads `alive_tasks`, so
counting a task and sending its message are one step. -/
def schedulerInit (cfg : Config) (s : State) : Option State :=
  match s.pc with
  | .foreachCore i =>
    if i < cfg.numThreads then some { createThread cfg s i with pc := .foreachCore (i + 1) }
    else some { s with pc := .foreachTask 0 }
  | .foreachTask i =>
    if i < cfg.numTasks then some { sendTask cfg s i with pc := .foreachTask (i + 1) }
    else if cfg.numTasks = 0 then
      some { serviceExit cfg s cfg.currentCore with pc := .returned }
    else some { s with pc := .returned }
  | .returned => none

def State.Idle (s : State) (cfg : Config) (c : Core) : Prop :=
  s.stack c = [] ∧ (c = cfg.currentCore → s.pc = .returned)

instance (s : State) (cfg : Config) (c : Core) : Decidable (s.Idle cfg c) :=
  inferInstanceAs (Decidable (_ ∧ _))

/-- `submit` is a call of `read` or `write`, which uses `channels[current_core]`; SPDK completes
the request on the thread that has submitted it. -/
def step (cfg : Config) (s : State) : Act → Option State
  | .schedulerInit => schedulerInit cfg s
  | .poll sender dest =>
    match oldest s.messages sender dest with
    | none => none
    | some m =>
      when (s.Idle cfg dest)
        (handle cfg { s with messages := receive s.messages sender dest } dest m.fn)
  | .yield c =>
    match s.stack c with
    | .body i :: rest =>
      some ((s.suspend c i (.leaving i) rest .yielded).sendMsg c (some c) (.serviceThreadRunYield i))
    | _ => none
  | .block c =>
    match s.stack c with
    | .body i :: rest => some (s.suspend c i (.leaving i) rest .blocked)
    | _ => none
  | .wait c =>
    match s.stack c with
    | .body i :: rest => some (s.suspend c i (.unlocking i) rest .blocked)
    | _ => none
  | .leave c =>
    match s.stack c with
    | f :: rest => when f.suspended { s with stack := Function.update s.stack c rest }
    | [] => none
  | .resume c i => when ((s.stack c).head?.any Frame.resumes ∧ s.phase i = .blocked) (s.push c i)
  | .submit c =>
    match s.stack c with
    | .body i :: _ => some { s with requests := Function.update s.requests i (c :: s.requests i) }
    | _ => none
  | .awaitIo c d =>
    match s.stack c with
    | .body i :: rest =>
      when (d ∈ s.requests i) (s.suspend c i (.leaving i) rest (.submitted d))
    | _ => none
  | .ioComplete c i => when (s.Idle cfg c ∧ s.phase i = .submitted c) (s.push c i)
  | .coReturn c =>
    match s.stack c with
    | .body i :: rest =>
      some ((s.suspend c i (.leaving i) rest .returned).sendMsg c s.mainThread (.taskDone i))
    | _ => none

inductive Moves (cfg : Config) (s : State) : Act → State → Prop where
  | schedulerInit {t : State} (h : schedulerInit cfg s = some t) : Moves cfg s .schedulerInit t
  | poll {sender dest : Thread} {m : Envelope Thread Msg}
      (ho : oldest s.messages sender dest = some m) (hidle : s.Idle cfg dest) :
      Moves cfg s (.poll sender dest)
        (handle cfg { s with messages := receive s.messages sender dest } dest m.fn)
  | yield {c : Core} {i : TaskId} {rest : List Frame} (hst : s.stack c = .body i :: rest) :
      Moves cfg s (.yield c) ((s.suspend c i (.leaving i) rest .yielded).sendMsg c (some c)
        (.serviceThreadRunYield i))
  | block {c : Core} {i : TaskId} {rest : List Frame} (hst : s.stack c = .body i :: rest) :
      Moves cfg s (.block c) (s.suspend c i (.leaving i) rest .blocked)
  | wait {c : Core} {i : TaskId} {rest : List Frame} (hst : s.stack c = .body i :: rest) :
      Moves cfg s (.wait c) (s.suspend c i (.unlocking i) rest .blocked)
  | leave {c : Core} {f : Frame} {rest : List Frame} (hst : s.stack c = f :: rest)
      (hf : f.suspended = true) :
      Moves cfg s (.leave c) { s with stack := Function.update s.stack c rest }
  | resume {c : Core} {i : TaskId} {f : Frame} {rest : List Frame} (hst : s.stack c = f :: rest)
      (hf : f.resumes = true) (hp : s.phase i = .blocked) : Moves cfg s (.resume c i) (s.push c i)
  | submit {c : Core} {i : TaskId} {rest : List Frame} (hst : s.stack c = .body i :: rest) :
      Moves cfg s (.submit c) { s with requests := Function.update s.requests i (c :: s.requests i) }
  | awaitIo {c d : Core} {i : TaskId} {rest : List Frame} (hst : s.stack c = .body i :: rest)
      (hd : d ∈ s.requests i) :
      Moves cfg s (.awaitIo c d) (s.suspend c i (.leaving i) rest (.submitted d))
  | ioComplete {c : Core} {i : TaskId} (hidle : s.Idle cfg c) (hp : s.phase i = .submitted c) :
      Moves cfg s (.ioComplete c i) (s.push c i)
  | coReturn {c : Core} {i : TaskId} {rest : List Frame} (hst : s.stack c = .body i :: rest) :
      Moves cfg s (.coReturn c) ((s.suspend c i (.leaving i) rest .returned).sendMsg c s.mainThread
        (.taskDone i))

theorem moves_of_step {cfg : Config} {s t : State} {a : Act} (ht : step cfg s a = some t) :
    Moves cfg s a t := by
  cases a with
  | schedulerInit => exact .schedulerInit ht
  | poll sender dest =>
    cases ho : oldest s.messages sender dest with
    | none => simp [step, ho] at ht
    | some m =>
      simp only [step, ho, when_eq_some] at ht
      exact ht.2 ▸ .poll ho ht.1
  | resume c i =>
    cases hst : s.stack c with
    | nil => simp [step, hst] at ht
    | cons f rest =>
      simp only [step, hst, List.head?_cons, Option.any_some, when_eq_some] at ht
      exact ht.2 ▸ .resume hst ht.1.1 ht.1.2
  | ioComplete c i =>
    simp only [step, when_eq_some] at ht
    exact ht.2 ▸ .ioComplete ht.1.1 ht.1.2
  | leave c =>
    cases hst : s.stack c with
    | nil => simp [step, hst] at ht
    | cons f rest =>
      simp only [step, hst, when_eq_some] at ht
      exact ht.2 ▸ .leave hst ht.1
  | yield c | block c | wait c | submit c | awaitIo c d | coReturn c =>
    cases hst : s.stack c with
    | nil => simp [step, hst] at ht
    | cons f rest =>
      cases f with
      | unlocking i | leaving i => simp [step, hst] at ht
      | body i =>
        simp only [step, hst, when_eq_some, Option.some.injEq] at ht
        first
          | exact ht ▸ .yield hst
          | exact ht ▸ .block hst
          | exact ht ▸ .wait hst
          | exact ht ▸ .submit hst
          | exact ht ▸ .coReturn hst
          | exact ht.2 ▸ .awaitIo hst ht.1

def emitStart (cfg : Config) (s : State) : Act → Option (TaskId × Thread)
  | .poll sender dest =>
    match oldest s.messages sender dest with
    | some ⟨_, _, .serviceThreadRun i⟩ => if s.Idle cfg dest then some (i, dest) else none
    | _ => none
  | _ => none

def emitDone (cfg : Config) (s : State) : Act → Option TaskId
  | .poll sender dest =>
    match oldest s.messages sender dest with
    | some ⟨_, _, .taskDone i⟩ => if s.Idle cfg dest then some i else none
    | _ => none
  | _ => none

def State.dispatched (s : State) (cfg : Config) : Nat :=
  match s.pc with
  | .foreachCore _ => 0
  | .foreachTask i => i
  | .returned => cfg.numTasks

end LibCoro.Schedule
