import LibCoro.ConditionVariable
import LibCoro.Lock
import Mathlib.Algebra.Order.BigOperators.Group.Finset

namespace LibCoro.CondWait

open Machine

variable {C P σ : Type}

inductive Pc (P : Type) where
  | idle
  | acquire
  | waitTest (pred : P)
  | waitSuspend (pred : P)
  | waiting (pred : P)
  | waitLock (pred : P)
  | notifying
  | returning
  | overlap
  deriving DecidableEq, Repr

/-- A lock and a condition variable with the coroutines that share them. A coroutine that is
resumed before its `await_suspend` has released the lock locks it again while the old hold is
still there, so every coroutine has two places at the lock and changes to the other one,
`hold`, each time it parks. `leaving` records that the old hold is still to be released, `owes`
that a change is still to be followed by a notification. -/
structure State (L : Lock (C × Bool)) (P σ : Type) where
  lock : L.State
  cv : ConditionVariable.State C
  mem : σ
  pc : C → Pc P
  hold : C → Bool
  leaving : C → Bool
  owes : C → Bool

variable {L : Lock (C × Bool)}

def init (mem : σ) : State L P σ where
  lock := L.init
  cv := ConditionVariable.init
  mem := mem
  pc _ := .idle
  hold _ := false
  leaving _ := false
  owes _ := false

/-- The calls of a client, its changes of the shared state, its next step inside a call, the
end of its `await_suspend`, and the steps of the lock. -/
inductive Act (L : Lock (C × Bool)) (P σ : Type) where
  | tryLock (k : C)
  | coLock (k : C)
  | unlock (k : C)
  | write (k : C) (mem : σ) (notifies : Bool)
  | wait (k : C) (pred : P)
  | notifyAll (k : C)
  | advance (k : C) (spurious : Bool)
  | release (k : C)
  | move (m : L.Move)

def Act.actor : Act L P σ → Option C
  | .tryLock k | .coLock k | .unlock k | .wait k _ | .notifyAll k | .advance k _ => some k
  | .write _ _ _ | .release _ | .move _ => none

def State.status (s : State L P σ) (k : C) : Status := L.status s.lock (k, s.hold k)

variable [DecidableEq C]

def State.goto (s : State L P σ) (k : C) (p : Pc P) : State L P σ :=
  { s with pc := Function.update s.pc k p }

def lockStep (s : State L P σ) (k : C) (f : L.State → C × Bool → Option L.State) (p : Pc P) :
    Option (State L P σ) :=
  (f s.lock (k, s.hold k)).map fun m => { s with lock := m }.goto k p

def cvStep (s : State L P σ) (a : ConditionVariable.Act C)
    (f : ConditionVariable.State C → State L P σ) : Option (State L P σ) :=
  (ConditionVariable.step s.cv a).map f

def State.park (s : State L P σ) (k : C) (pred : P) : State L P σ :=
  { s with
    hold := Function.update s.hold k (!s.hold k)
    leaving := Function.update s.leaving k true }.goto k (.waiting pred)

def advance [DecidableEq P] (eval : P → σ → Bool) (s : State L P σ) (k : C) (spurious : Bool) :
    Option (State L P σ) :=
  match s.pc k with
  | .acquire => when (s.status k = .holding) (s.goto k .idle)
  | .waitTest pred =>
    if eval pred s.mem then some (s.goto k .idle)
    else cvStep s (.suspend k) fun v => { s with cv := v }.goto k (.waitSuspend pred)
  | .waitSuspend pred =>
    cvStep s (.advance k spurious) fun v =>
      if v.pc k = .parked then { s with cv := v }.park k pred
      else { s with cv := v }.goto k (.waitSuspend pred)
  | .waiting pred =>
    if s.cv.pc k = .parked then none
    else if s.status k = .idle then lockStep s k L.coLock (.waitLock pred)
    else some (s.goto k .overlap)
  | .waitLock pred => when (s.status k = .holding) (s.goto k (.waitTest pred))
  | .notifying =>
    if s.cv.pc k = .idle then some (s.goto k .idle)
    else cvStep s (.advance k spurious) fun v => { s with cv := v }.goto k .notifying
  | .returning => when (s.status k = .idle) (s.goto k .idle)
  | .idle | .overlap => none

/-- `wait` is called by the holder of the lock, and the shared state is changed only by the
holder. `notifies` says that the change is to be followed by a notification. -/
def step [DecidableEq P] (eval : P → σ → Bool) (s : State L P σ) :
    Act L P σ → Option (State L P σ)
  | .tryLock k => if s.pc k = .idle then lockStep s k L.tryLock .idle else none
  | .coLock k => if s.pc k = .idle then lockStep s k L.coLock .acquire else none
  | .unlock k => if s.pc k = .idle then lockStep s k L.unlock .returning else none
  | .write k mem notifies =>
    when (s.pc k = .idle ∧ s.status k = .holding)
      { s with mem := mem, owes := Function.update s.owes k (s.owes k || notifies) }
  | .wait k pred => when (s.pc k = .idle ∧ s.status k = .holding) (s.goto k (.waitTest pred))
  | .notifyAll k =>
    if s.pc k = .idle then
      cvStep s (.notifyAll k) fun v =>
        { s with cv := v, owes := Function.update s.owes k false }.goto k .notifying
    else none
  | .advance k spurious => advance eval s k spurious
  | .release k =>
    if s.leaving k then
      (L.unlock s.lock (k, !s.hold k)).map fun m =>
        { s with lock := m, leaving := Function.update s.leaving k false }
    else none
  | .move m => (L.move s.lock m).map fun m => { s with lock := m }

def cvAct [DecidableEq P] (eval : P → σ → Bool) (s : State L P σ) :
    Act L P σ → Option (ConditionVariable.Act C)
  | .advance k spurious =>
    match s.pc k with
    | .waitTest pred => if eval pred s.mem then none else some (.suspend k)
    | .waitSuspend _ => some (.advance k spurious)
    | .notifying => if s.cv.pc k = .idle then none else some (.advance k spurious)
    | _ => none
  | .notifyAll k => some (.notifyAll k)
  | _ => none

end LibCoro.CondWait
