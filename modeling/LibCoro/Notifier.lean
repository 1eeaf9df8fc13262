import LibCoro.ConditionVariable
import Mathlib.Algebra.Order.BigOperators.Group.Finset

namespace LibCoro.Notifier

open Machine

variable {C : Type}

/-- The one word of a notifier: null, the address of the notifier itself for the set flag, or the
awaiter that was registered last. -/
inductive Word (C : Type) where
  | null
  | self
  | awaiter (a : C)
  deriving DecidableEq, Repr

def Word.pointer : Word C → Option C
  | .awaiter a => some a
  | .null | .self => none

/-- Where a coroutine or a thread stands in `wait`, `notify` or `reset`. The awaiter of a
coroutine lives in its frame, so the coroutine names it. -/
inductive Pc (C : Type) where
  | idle
  | ready
  | suspendLoad
  | suspendNext (awaitings : Word C)
  | suspendCas (awaitings : Word C)
  | parked
  | exchange
  | resumeWaiters (awaiters : Option C)
  | resume (prev : C) (awaiters : Option C)
  | resetCas
  | strayResume
  deriving DecidableEq, Repr

structure State (C : Type) where
  word : Word C
  next : C → Option C
  pc : C → Pc C

def init : State C := ⟨.null, fun _ => none, fun _ => .idle⟩

inductive Act (C : Type) where
  | wait (k : C)
  | notify (k : C)
  | reset (k : C)
  | advance (k : C) (spurious : Bool)
  deriving DecidableEq, Repr

def Act.actor : Act C → C
  | .wait k | .notify k | .reset k | .advance k _ => k

def Act.Calls (a : Act C) (k : C) : Prop := a = .wait k ∨ a = .notify k ∨ a = .reset k

variable [DecidableEq C]

def State.goto (s : State C) (k : C) (p : Pc C) : State C := { s with pc := Function.update s.pc k p }

def State.setNext (s : State C) (a : C) (p : Option C) : State C :=
  { s with next := Function.update s.next a p }

def State.suspendWith (s : State C) (k : C) : State C :=
  if s.word = .self then s.goto k .idle else s.goto k (.suspendNext s.word)

/-- The next atomic step of `await_ready`, `await_suspend`, `notify`, `reset` or `resumeWaiters`;
`spurious` lets a weak compare-exchange fail although the word is the expected one. -/
def advance (s : State C) (k : C) (spurious : Bool) : Option (State C) :=
  match s.pc k with
  | .ready => if s.word = .self then some (s.goto k .idle) else some (s.goto k .suspendLoad)
  | .suspendLoad => some (s.suspendWith k)
  | .suspendNext awaitings => some ((s.setNext k awaitings.pointer).goto k (.suspendCas awaitings))
  | .suspendCas awaitings =>
    if s.word = awaitings ∧ spurious = false then
      some ({ s with word := .awaiter k }.goto k .parked)
    else some (s.suspendWith k)
  | .exchange =>
    if s.word = .self then some (s.goto k .idle)
    else some ({ s with word := .self }.goto k (.resumeWaiters s.word.pointer))
  | .resumeWaiters (some awaiters) => some (s.goto k (.resume awaiters (s.next awaiters)))
  | .resumeWaiters none => some (s.goto k .idle)
  | .resume prev awaiters =>
    if s.pc prev = .parked then some ((s.goto prev .idle).goto k (.resumeWaiters awaiters))
    else some (s.goto k .strayResume)
  | .resetCas =>
    if s.word = .self then some ({ s with word := .null }.goto k .idle) else some (s.goto k .idle)
  | .idle | .parked | .strayResume => none

/-- `wait` constructs the awaiter, with a null link, and calls its `await_ready`. -/
def step (s : State C) : Act C → Option (State C)
  | .wait k => when (s.pc k = .idle) ((s.setNext k none).goto k .ready)
  | .notify k => when (s.pc k = .idle) (s.goto k .exchange)
  | .reset k => when (s.pc k = .idle) (s.goto k .resetCas)
  | .advance k spurious => advance s k spurious

/-- A registration is the compare-exchange that publishes the awaiter, a notification the
exchange. -/
inductive Event (C : Type) where
  | registered (a : C)
  | notified (k : C)
  | resumed (k a : C)
  deriving DecidableEq, Repr

def emit (s : State C) : Act C → Option (Event C)
  | .advance k spurious =>
    match s.pc k with
    | .suspendCas awaitings =>
      if s.word = awaitings ∧ spurious = false then some (.registered k) else none
    | .exchange => some (.notified k)
    | .resume prev _ => some (.resumed k prev)
    | _ => none
  | _ => none

def emitResumed (k : C) (s : State C) (a : Act C) : Option C :=
  match emit s a with
  | some (.resumed j b) => if j = k then some b else none
  | _ => none

def pending : List (Event C) → List C
  | es => es.foldl (fun l e =>
    match e with
    | .registered a => a :: l
    | .notified _ => []
    | .resumed _ _ => l) []

end LibCoro.Notifier
