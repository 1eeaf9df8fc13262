import LibCoro.Chain
import LibCoro.Machine

namespace LibCoro.ConditionVariable

open Machine

variable {C : Type}

/-- Where a coroutine or a thread stands in the code of the condition variable. The
awaiter of a coroutine lives in its frame, so the coroutine names it. -/
inductive Pc (C : Type) where
  | idle
  | suspendLoad
  | suspendNext (awaitings : Option C)
  | suspendCas (awaitings : Option C)
  | parked
  | allLoad
  | allCas (awaitings : Option C)
  | oneLoad
  | oneNext (awaitings : Option C)
  | oneCas (awaitings : C) (next : Option C)
  | oneClear (awaitings : C)
  | resumeWaiters (awaiters : Option C)
  | resume (prev : C) (awaiters : Option C)
  | nullDeref
  | strayResume
  deriving DecidableEq, Repr

structure State (C : Type) where
  awaiters : Option C
  next : C → Option C
  pc : C → Pc C

def init : State C := ⟨none, fun _ => none, fun _ => .idle⟩

inductive Act (C : Type) where
  | suspend (k : C)
  | notifyAll (k : C)
  | notifyOne (k : C)
  | advance (k : C) (spurious : Bool)
  deriving DecidableEq, Repr

def Act.actor : Act C → C
  | .suspend k | .notifyAll k | .notifyOne k | .advance k _ => k

variable [DecidableEq C]

def State.goto (s : State C) (k : C) (p : Pc C) : State C := { s with pc := Function.update s.pc k p }

def State.setNext (s : State C) (a : C) (p : Option C) : State C :=
  { s with next := Function.update s.next a p }

/-- The next atomic step of `await_suspend`, `notifyAll`, `notifyOne` or `resumeWaiters`;
`spurious` lets a weak compare-exchange fail although the word is the expected one. -/
def advance (s : State C) (k : C) (spurious : Bool) : Option (State C) :=
  match s.pc k with
  | .suspendLoad => some (s.goto k (.suspendNext s.awaiters))
  | .suspendNext awaitings => some ((s.setNext k awaitings).goto k (.suspendCas awaitings))
  | .suspendCas awaitings =>
    if s.awaiters = awaitings ∧ spurious = false then
      some ({ s with awaiters := some k }.goto k .parked)
    else some (s.goto k (.suspendNext s.awaiters))
  | .allLoad => some (s.goto k (.allCas s.awaiters))
  | .allCas awaitings =>
    if s.awaiters = awaitings ∧ spurious = false then
      some ({ s with awaiters := none }.goto k (.resumeWaiters awaitings))
    else some (s.goto k (.allCas s.awaiters))
  | .oneLoad =>
    if s.awaiters = none then some (s.goto k .idle) else some (s.goto k (.oneNext s.awaiters))
  | .oneNext (some awaitings) => some (s.goto k (.oneCas awaitings (s.next awaitings)))
  | .oneNext none => some (s.goto k .nullDeref)
  | .oneCas awaitings next =>
    if s.awaiters = some awaitings ∧ spurious = false then
      some ({ s with awaiters := next }.goto k (.oneClear awaitings))
    else some (s.goto k (.oneNext s.awaiters))
  | .oneClear awaitings => some ((s.setNext awaitings none).goto k (.resumeWaiters (some awaitings)))
  | .resumeWaiters (some awaiters) => some (s.goto k (.resume awaiters (s.next awaiters)))
  | .resumeWaiters none => some (s.goto k .idle)
  | .resume prev awaiters =>
    if s.pc prev = .parked then some ((s.goto prev .idle).goto k (.resumeWaiters awaiters))
    else some (s.goto k .strayResume)
  | _ => none

/-- `suspend` constructs the awaiter, with a null link, and calls its `await_suspend`. -/
def step (s : State C) : Act C → Option (State C)
  | .suspend k => when (s.pc k = .idle) ((s.setNext k none).goto k .suspendLoad)
  | .notifyAll k => when (s.pc k = .idle) (s.goto k .allLoad)
  | .notifyOne k => when (s.pc k = .idle) (s.goto k .oneLoad)
  | .advance k spurious => advance s k spurious

/-- A registration is the compare-exchange that publishes the awaiter. -/
inductive Event (C : Type) where
  | registered (a : C)
  | resumed (a : C)
  deriving DecidableEq, Repr

def emit (s : State C) : Act C → Option (Event C)
  | .advance k spurious =>
    match s.pc k with
    | .suspendCas awaitings =>
      if s.awaiters = awaitings ∧ spurious = false then some (.registered k) else none
    | .resume prev _ => some (.resumed prev)
    | _ => none
  | _ => none

end LibCoro.ConditionVariable
