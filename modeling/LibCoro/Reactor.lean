import LibCoro.RcuInvariant

namespace LibCoro.Reactor

open Machine

variable {C : Type}

/-- How a coroutine leaves its core: in one of the library's awaitables, or at the end of
`task_run`. A request is completed on the core that submitted it. -/
inductive Leave where
  | yield
  | mutex
  | conditionVariable
  | notifier
  | service (submitted : Nat)
  | taskRun
  deriving DecidableEq, Repr

/-- What the code does there: `publish` is the step from which on somebody else can resume
the coroutine, and `unlock` the end of the scope that owns the lock of a `wait`. -/
inductive Op where
  | rcuOffline
  | publish
  | unlock
  deriving DecidableEq, Repr

def Leave.code : Leave → List Op
  | .yield => [.rcuOffline, .publish]
  | .mutex => [.publish, .rcuOffline]
  | .conditionVariable => [.rcuOffline, .publish, .unlock]
  | .notifier => [.publish, .rcuOffline]
  | .service _ => [.publish]
  | .taskRun => [.rcuOffline]

/-- Who can resume a coroutine: nobody, the event loop of a core, or whoever takes it off the
list of a lock, a condition variable or a notifier. -/
inductive Waits where
  | nobody
  | eventLoop (core : Nat)
  | list
  deriving DecidableEq, Repr

def Leave.waits (core : Nat) : Leave → Waits
  | .yield => .eventLoop core
  | .service submitted => .eventLoop submitted
  | .mutex | .conditionVariable | .notifier => .list
  | .taskRun => .nobody

/-- What stands on the call stack of a core above its event loop. -/
inductive Frame (C : Type) where
  | body (k : C)
  | leaving (k : C) (how : Leave) (rest : List Op)
  deriving DecidableEq, Repr

/-- The frame on top is the one that runs; one below waits inside the call with which it
resumed the one above it. -/
structure State (C : Type) where
  rcu : Rcu.State C
  frames : Nat → List (Frame C)
  waits : C → Waits

def init (heads : Rcu.Addr → Rcu.RcuHead) (pointers : Rcu.Addr → Rcu.Addr) (home : C → Nat) :
    State C where
  rcu := Rcu.init heads pointers
  frames _ := []
  waits k := .eventLoop (home k)

/-- `receive` resumes a coroutine from the event loop, `deliver` one that yielded in
`synchronize_rcu`, and `resume` one that the code on top takes off a list. `call` is a call of
an rcu function or its next step, and `advance` the next step of a frame that leaves, which
resumes a coroutine if it unlocks a mutex that somebody waits for. -/
inductive Act (C : Type) where
  | receive (c : Nat) (k : C)
  | deliver (k : C)
  | resume (c : Nat) (k : C)
  | leave (k : C) (how : Leave)
  | advance (c : Nat) (resumed : Option C)
  | call (a : Rcu.Act C)
  deriving DecidableEq, Repr

def caller : Rcu.Act C → Option C
  | .readLock k | .readUnlock k | .dereference k _ | .assign k _ _ | .synchronize k
  | .callRcu k _ _ | .threadCallRcu k | .advance k => some k
  | .resume _ _ | .deliver _ | .suspend _ | .offline _ => none

variable [DecidableEq C]

def State.setFrames (s : State C) (c : Nat) (fs : List (Frame C)) : State C :=
  { s with frames := Function.update s.frames c fs }

def State.top (s : State C) (k : C) : Option Nat :=
  (s.rcu.core k).bind fun c => if (s.frames c).head? = some (.body k) then some c else none

def enter (n : Nat) (s : State C) (c : Nat) (k : C) : Option (State C) :=
  (Rcu.step n s.rcu (.resume c k)).map fun r =>
    { s with rcu := r, waits := Function.update s.waits k .nobody }.setFrames c
      (.body k :: s.frames c)

def perform (n : Nat) (s : State C) (c : Nat) (k : C) (how : Leave) (resumed : Option C) :
    Op → Option (State C)
  | .rcuOffline => (Rcu.step n s.rcu (.offline c)).map fun r => { s with rcu := r }
  | .publish => some { s with waits := Function.update s.waits k (how.waits c) }
  | .unlock =>
    match resumed with
    | none => some s
    | some j => if s.waits j = .list then enter n s c j else none

/-- A coroutine that yields in `synchronize_rcu` leaves its core within a step of `call`. -/
def step (n : Nat) (s : State C) : Act C → Option (State C)
  | .receive c k => if s.frames c = [] ∧ s.waits k = .eventLoop c then enter n s c k else none
  | .deliver k =>
    (s.rcu.site (.deliver k)).bind fun c =>
      if s.frames c = [] then
        (Rcu.step n s.rcu (.deliver k)).map fun r => { s with rcu := r }.setFrames c [.body k]
      else none
  | .resume c k =>
    match s.frames c with
    | .body _ :: _ => if s.waits k = .list then enter n s c k else none
    | _ => none
  | .leave k how =>
    (s.top k).bind fun c =>
      (Rcu.step n s.rcu (.suspend k)).map fun r =>
        { s with rcu := r }.setFrames c (.leaving k how how.code :: (s.frames c).tail)
  | .advance c resumed =>
    match s.frames c with
    | .leaving k how (op :: ops) :: fs =>
      perform n (s.setFrames c (.leaving k how ops :: fs)) c k how resumed op
    | .leaving _ _ [] :: fs => some (s.setFrames c fs)
    | _ => none
  | .call a =>
    (caller a).bind fun k => (s.top k).bind fun c =>
      (Rcu.step n s.rcu a).map fun r =>
        if r.core k = none then { s with rcu := r }.setFrames c (s.frames c).tail
        else { s with rcu := r }

end LibCoro.Reactor
