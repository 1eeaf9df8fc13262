import LibCoro.Calls

namespace LibCoro.Task

open Machine Calls

abbrev Handle := Nat

/-- What is left of a coroutine: the body from here on, the rest of a `co_await` of a task (with
the temporary task object and its awaiter) or of an external awaitable, or `final_suspend`. -/
inductive Point (L X V : Type) (k : Kind) where
  | code (b : Body L X V k)
  | awaitTask {c : Kind} (task awaiter : Option Handle) (rest : Result V c → Body L X V k)
  | external (x : X) (rest : V → Body L X V k)
  | finalSuspend

/-- A coroutine frame with the promise of `task<T>` or `task<void>`; `none` is
`std::noop_coroutine()` in `caller` and `std::nullopt` in `value`. -/
structure Frame (L X V : Type) where
  kind : Kind
  caller : Option Handle
  value : Option V
  point : Point L X V kind

def Frame.fresh {L X V : Type} {k : Kind} (b : Body L X V k) : Frame L X V :=
  ⟨k, none, none, .code b⟩

inductive Error where
  | assertFailed
  | badOptionalAccess
  | nullHandle
  | destroyed
  | resumedAtEnd
  deriving DecidableEq, Repr

/-- Who runs: the code that last called `resume`, a coroutine inside such a call, or nobody
after a failed assertion or undefined behaviour. -/
inductive Control (R : Type) where
  | resumer (r : R)
  | coroutine (h : Handle) (r : R)
  | failed (e : Error)
  deriving DecidableEq, Repr

structure State (L X V R : Type) where
  frames : Handle → Option (Frame L X V)
  next : Handle
  stored : List Handle
  started : Bool
  control : Control R

/-- The outermost task object holds the frame `0`. -/
def root : Handle := 0

variable {L X V R : Type} {k c : Kind}

def init (body : Body L X V k) (r : R) : State L X V R :=
  ⟨Function.update (fun _ => none) root (some (.fresh body)), 1, [], false, .resumer r⟩

/-- The outermost task is started once; a stored handle is resumed once; a running coroutine
takes its next step, where `v` answers a local step or an external awaitable. -/
inductive Act (V R : Type) where
  | start (r : R)
  | resume (r : R) (h : Handle)
  | advance (v : V)
  deriving DecidableEq, Repr

namespace State

def fail (s : State L X V R) (e : Error) : State L X V R := { s with control := .failed e }

def put (s : State L X V R) (h : Handle) (f : Frame L X V) : State L X V R :=
  { s with frames := Function.update s.frames h (some f) }

/-- `coroutine_handle::destroy`. -/
def destroy (s : State L X V R) (h : Handle) : State L X V R :=
  match s.frames h with
  | none => s.fail .destroyed
  | some _ => { s with frames := Function.update s.frames h none }

/-- `~task`. -/
def dropTask (s : State L X V R) : Option Handle → State L X V R
  | none => s
  | some h => s.destroy h

end State

def operatorCoAwait (task : Option Handle) : Option Handle × Option Handle := (none, task)

/-- `Awaiter::await_suspend`, called by `caller`: the child is resumed next. -/
def awaitSuspend (s : State L X V R) (awaiter : Option Handle) (caller : Handle) (r : R) :
    State L X V R :=
  match awaiter with
  | none => s.fail .nullHandle
  | some h =>
    match s.frames h with
    | none => s.fail .destroyed
    | some f => { s.put h { f with caller := some caller } with control := .coroutine h r }

def coAwaitTask (s : State L X V R) (h : Handle) (r : R) (caller : Option Handle)
    (value : Option V) (child : Body L X V c) (rest : Result V c → Body L X V k) : State L X V R :=
  let t := { s.put s.next (.fresh child) with next := s.next + 1 }
  let (task, awaiter) := operatorCoAwait (some s.next)
  awaitSuspend (t.put h ⟨k, caller, value, .awaitTask task awaiter rest⟩) awaiter h r

def takeValue : (c : Kind) → Option V → Option (Result V c)
  | .void, _ => some ()
  | .value, value => value

/-- `Awaiter::await_resume`, then the destructor of the temporary task object. -/
def awaitResume (s : State L X V R) (h : Handle) (caller : Option Handle) (value : Option V)
    (task awaiter : Option Handle) (rest : Result V c → Body L X V k) : State L X V R :=
  match awaiter with
  | none => s.fail .nullHandle
  | some child =>
    match s.frames child with
    | none => s.fail .destroyed
    | some f =>
      match takeValue c f.value with
      | none => s.fail .badOptionalAccess
      | some r => ((s.put h ⟨k, caller, value, .code (rest r)⟩).destroy child).dropTask task

def returnValue : (k : Kind) → Option V → Result V k → Option (Option V)
  | .void, value, _ => some value
  | .value, none, r => some (some r)
  | .value, some _, _ => none

/-- `co_return`, then `final_suspend`, whose awaiter hands control to `_caller`. -/
def coReturn (s : State L X V R) (h : Handle) (r : R) (caller : Option Handle) (value : Option V)
    (result : Result V k) : State L X V R :=
  match returnValue k value result with
  | none => s.fail .assertFailed
  | some value =>
    { s.put h ⟨k, caller, value, .finalSuspend⟩ with
      control := caller.elim (.resumer r) fun h => .coroutine h r }

def advance (s : State L X V R) (h : Handle) (r : R) (v : V) : State L X V R :=
  match s.frames h with
  | none => s.fail .destroyed
  | some ⟨k, caller, value, point⟩ =>
    match point with
    | .code (.coReturn result) => coReturn s h r caller value result
    | .code (.localStep _ rest) => s.put h ⟨k, caller, value, .code (rest v)⟩
    | .code (.coAwaitTask child rest) => coAwaitTask s h r caller value child rest
    | .code (.coAwait x rest) =>
      { s.put h ⟨k, caller, value, .external x rest⟩ with
        stored := h :: s.stored, control := .resumer r }
    | .awaitTask task awaiter rest => awaitResume s h caller value task awaiter rest
    | .external _ rest => s.put h ⟨k, caller, value, .code (rest v)⟩
    | .finalSuspend => s.fail .resumedAtEnd

def step (s : State L X V R) (a : Act V R) : Option (State L X V R) :=
  match a, s.control with
  | .start r, .resumer _ =>
    when (s.started = false) { s with started := true, control := .coroutine root r }
  | .resume r h, .resumer _ =>
    when (h ∈ s.stored) { s with stored := s.stored.erase h, control := .coroutine h r }
  | .advance v, .coroutine h r => some (advance s h r v)
  | _, _ => none

/-- The local steps and external awaits that the bodies perform. -/
def emit (s : State L X V R) : Act V R → Option (Event L X V)
  | .advance v =>
    match s.control with
    | .coroutine h _ =>
      match s.frames h with
      | some ⟨_, _, _, .code (.localStep l _)⟩ => some (.localStep l v)
      | some ⟨_, _, _, .external x _⟩ => some (.external x v)
      | _ => none
    | _ => none
  | _ => none

def emitDestroy (s : State L X V R) : Act V R → Option Handle
  | .advance _ =>
    match s.control with
    | .coroutine h _ =>
      match s.frames h with
      | some ⟨_, _, _, .awaitTask _ awaiter _⟩ => awaiter
      | _ => none
    | _ => none
  | _ => none

def State.get (s : State L X V R) : Option V := (s.frames root).bind Frame.value

def State.done (s : State L X V R) : Bool :=
  match s.frames root with
  | some ⟨_, _, _, .finalSuspend⟩ => true
  | _ => false

end LibCoro.Task
