import LibCoro.NestedCalls

namespace LibCoro.Launch

open Machine Calls Outcome
open LibCoro.Task (Handle root)

/-- The functions that start a `task<void>` of their own. -/
inductive Path where
  | launchTaskOnFire
  | serviceThreadRun
  deriving DecidableEq, Repr

/-- Where the code that owns the task object stands: before `t.start()` and after it, before
`push_back` and inside it, before `~task`; in the end the task is in `wrapper_tasks` or destroyed. -/
inductive Pc where
  | start
  | started
  | pushBack
  | pushing
  | destroy
  | kept
  | destroyed
  deriving DecidableEq, Repr

/-- `final_suspend` of the task: `done()` is true from its suspension on, and only then does the
`await_suspend` of its awaiter read `_caller`, on the core of whoever resumed the task last. -/
inductive Final (R : Type) where
  | before
  | awaitSuspend (r : Option R)
  | after
  deriving DecidableEq, Repr

/-- The launching code resumes as `none`, everybody who holds a raw handle as `some r`. The other
cores share `wrapper_tasks`: so many still have to call `push_back`, and so many are inside it. -/
structure State (L X V R : Type) where
  path : Path
  pc : Pc
  task : Task.State L X V (Option R)
  final : Final R
  waiting : Nat
  inside : Nat
  raced : Bool

variable {L X V R : Type}

def init (path : Path) (body : Body L X V .void) (others : Nat) : State L X V R :=
  { path := path, pc := .start, task := Task.init body none, final := .before, waiting := others,
    inside := 0, raced := false }

def State.returned (s : State L X V R) : Bool :=
  match s.final, s.task.control with
  | .awaitSuspend none, _ => false
  | _, .resumer _ => true
  | _, .coroutine _ r => r.isSome
  | _, .failed _ => false

/-- The next step of `launch_task_on_fire` and the end of the full expression that calls it, or
of `service_thread_run`. Nothing orders the calls of `push_back` of different cores. -/
def launcher (s : State L X V R) : Option (State L X V R) :=
  match s.pc with
  | .start => (Task.step s.task (.start none)).map fun task => { s with pc := .started, task := task }
  | .started =>
    if s.returned then
      match s.path with
      | .launchTaskOnFire => some { s with pc := .destroy }
      | .serviceThreadRun => some { s with pc := if s.task.done then .destroy else .pushBack }
    else none
  | .pushBack => some { s with pc := .pushing, raced := s.raced || s.inside ≠ 0 }
  | .pushing => some { s with pc := .kept }
  | .destroy => some { s with pc := .destroyed, task := s.task.dropTask (some root) }
  | .kept => none
  | .destroyed => none

inductive Act (V R : Type) where
  | launcher
  | resume (r : R) (h : Handle)
  | advance (v : V)
  | awaitSuspend
  | otherPushBack
  | otherPushed
  deriving DecidableEq, Repr

def State.finalOf (s : State L X V R) (task : Task.State L X V (Option R)) : Final R :=
  match s.task.control with
  | .coroutine _ r => if task.done ∧ ¬ s.task.done then .awaitSuspend r else s.final
  | _ => s.final

def step (s : State L X V R) : Act V R → Option (State L X V R)
  | .launcher => launcher s
  | .resume r h => (Task.step s.task (.resume (some r) h)).map fun task => { s with task := task }
  | .advance v =>
    (Task.step s.task (.advance v)).map fun task => { s with task := task, final := s.finalOf task }
  | .awaitSuspend =>
    match s.final with
    | .awaitSuspend _ =>
      match s.task.frames root with
      | none => some { s with task := s.task.fail .destroyed, final := .after }
      | some _ => some { s with final := .after }
    | _ => none
  | .otherPushBack =>
    when (s.waiting ≠ 0) { s with
      waiting := s.waiting - 1
      inside := s.inside + 1
      raced := s.raced || s.inside ≠ 0 || s.pc = .pushing }
  | .otherPushed => when (s.inside ≠ 0) { s with inside := s.inside - 1 }

def emit (s : State L X V R) : Act V R → Option (Event L X V)
  | .advance v => Task.emit s.task (.advance v)
  | _ => none

/-- Somebody holds a handle of the task's coroutines, one of them runs, or `final_suspend` still
has to look at the frame. -/
def State.InUse (s : State L X V R) : Prop :=
  s.task.stored ≠ [] ∨ (∃ h r, s.task.control = .coroutine h r) ∨ ∃ r, s.final = .awaitSuspend r

/-- The frames that can still be entered exist, and in the end the body has run once. -/
structure Alive (body : Body L X V .void) (es : List (Event L X V)) (s : State L X V R) : Prop where
  frame : s.InUse → s.task.frames root ≠ none
  handles : ∀ h ∈ s.task.stored, s.task.frames h ≠ none
  safe : ∀ e, s.task.control ≠ .failed e
  events : (call body (es.map Event.answer)).1 = es
  ended : ∀ (_ : V) (_ : R), (∀ a, step s a = none) →
    call body (es.map Event.answer) = (es, some ((), []))
  raced : s.raced = false

/-- The task object is destroyed only when the task is through with `final_suspend`. -/
def DropsFinished (s : State L X V R) : Act V R → Prop
  | .launcher => s.pc = .destroy → s.final = .after
  | _ => True

/-- A core calls `push_back` only while no other is inside it. -/
def OneByOne (s : State L X V R) : Act V R → Prop
  | .launcher => s.pc = .pushBack → s.inside = 0
  | .otherPushBack => s.inside = 0 ∧ s.pc ≠ .pushing
  | _ => True

instance : (f : Final R) → Decidable (f = .after)
  | .after => isTrue rfl
  | .before | .awaitSuspend _ => isFalse (by simp)

instance (s : State L X V R) : (a : Act V R) → Decidable (DropsFinished s a)
  | .launcher => inferInstanceAs (Decidable (s.pc = .destroy → s.final = .after))
  | .resume _ _ | .advance _ | .awaitSuspend | .otherPushBack | .otherPushed => isTrue trivial

instance (s : State L X V R) : (a : Act V R) → Decidable (OneByOne s a)
  | .launcher => inferInstanceAs (Decidable (s.pc = .pushBack → s.inside = 0))
  | .otherPushBack => inferInstanceAs (Decidable (s.inside = 0 ∧ s.pc ≠ .pushing))
  | .resume _ _ | .advance _ | .awaitSuspend | .otherPushed => isTrue trivial

end LibCoro.Launch
