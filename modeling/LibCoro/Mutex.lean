import LibCoro.Chain
import LibCoro.FifoLock

namespace LibCoro.Mutex

open Machine Chain

variable {C : Type}

/-- The word `_state`: the mutex itself, null, or the newest of the queued awaiters. -/
inductive Word (C : Type) where
  | unlockedState
  | nullptr
  | awaiter (a : C)
  deriving DecidableEq, Repr

/-- `static_cast<LockAwaiter*>`, used only where the word is not `unlockedState`. -/
def Word.toAwaiter : Word C → Option C
  | .awaiter a => some a
  | _ => none

/-- Where a coroutine stands in the code of the mutex. An awaiter lives in the
frame of the coroutine that awaits it, so the coroutine names its awaiter. -/
inductive Pc (C : Type) where
  | idle
  | lockAsyncImpl
  | lockLoop (oldValue : Word C)
  | lockEnqueue (oldValue : Word C)
  | parked
  | holding
  | unlockLoad
  | unlockCas
  | unlockExchange
  | unlockReverse (waiter : C) (waitersHead : Option C)
  | unlockPop (waitersHead : Option C)
  | unlockResume (waitersHead : C)
  | assertFailed
  deriving DecidableEq, Repr

structure State (C : Type) where
  state : Word C
  waiters : Option C
  next : C → Option C
  pc : C → Pc C

def init : State C := ⟨.unlockedState, none, fun _ => none, fun _ => .idle⟩

inductive Act (C : Type) where
  | tryLock (k : C)
  | coLock (k : C)
  | unlock (k : C)
  | advance (k : C) (spurious : Bool)
  deriving DecidableEq, Repr

def Act.actor : Act C → C
  | .tryLock k | .coLock k | .unlock k | .advance k _ => k

variable [DecidableEq C]

def State.goto (s : State C) (k : C) (p : Pc C) : State C := { s with pc := Function.update s.pc k p }

/-- The strong compare-exchange of `tryLock`, also made by `await_ready`. -/
def tryLock (s : State C) (k : C) (fail : Pc C) : State C :=
  if s.state = .unlockedState then { s with state := .nullptr }.goto k .holding else s.goto k fail

/-- `assert(_state.load() != unlockedState())`, then the read of `_waiters`. -/
def unlock (s : State C) (k : C) : State C :=
  if s.state = .unlockedState then s.goto k .assertFailed
  else if s.waiters = none then s.goto k .unlockLoad
  else s.goto k (.unlockPop s.waiters)

/-- The next atomic step of `lockAsyncImpl` or `unlock` for the coroutine `k`;
`spurious` lets a weak compare-exchange fail although the word is the expected one.
Nothing of `unlock` is left once it has called `resume`, so a coroutine that runs
inside that call and unlocks in turn interleaves like any other. -/
def advance (s : State C) (k : C) (spurious : Bool) : Option (State C) :=
  match s.pc k with
  | .lockAsyncImpl => some (s.goto k (.lockLoop s.state))
  | .lockLoop oldValue =>
    if oldValue = .unlockedState then
      if s.state = oldValue ∧ spurious = false then
        some ({ s with state := .nullptr }.goto k .holding)
      else some (s.goto k (.lockLoop s.state))
    else some ({ s with next := Function.update s.next k oldValue.toAwaiter }.goto k
      (.lockEnqueue oldValue))
  | .lockEnqueue oldValue =>
    if s.state = oldValue ∧ spurious = false then
      some ({ s with state := .awaiter k }.goto k .parked)
    else some (s.goto k (.lockLoop s.state))
  | .unlockLoad =>
    if s.state = .nullptr then some (s.goto k .unlockCas) else some (s.goto k .unlockExchange)
  | .unlockCas =>
    if s.state = .nullptr then some ({ s with state := .unlockedState }.goto k .idle)
    else some (s.goto k .unlockExchange)
  | .unlockExchange =>
    match s.state with
    | .awaiter a => some ({ s with state := .nullptr }.goto k (.unlockReverse a none))
    | _ => some ({ s with state := .nullptr }.goto k .assertFailed)
  | .unlockReverse waiter waitersHead =>
    some ({ s with next := Function.update s.next waiter waitersHead }.goto k
      (match s.next waiter with
        | some temp => .unlockReverse temp (some waiter)
        | none => .unlockPop (some waiter)))
  | .unlockPop (some a) => some ({ s with waiters := s.next a }.goto k (.unlockResume a))
  | .unlockPop none => some (s.goto k .assertFailed)
  | .unlockResume a => some ((s.goto k .idle).goto a .holding)
  | _ => none

def step (s : State C) : Act C → Option (State C)
  | .tryLock k => when (s.pc k = .idle) (tryLock s k .idle)
  | .coLock k => when (s.pc k = .idle) (tryLock s k .lockAsyncImpl)
  | .unlock k => when (s.pc k = .holding) (unlock s k)
  | .advance k spurious => advance s k spurious

/-- The effect of a step on the lock and its waiters: `tryLock`, the two
compare-exchanges that win in `lockAsyncImpl`, the releasing one and `resume`. -/
def emit (s : State C) : Act C → Option (FifoLock.Event C)
  | .tryLock k | .coLock k => if s.state = .unlockedState then some (.acquire k) else none
  | .unlock _ => none
  | .advance k spurious =>
    match s.pc k with
    | .lockLoop .unlockedState =>
      if s.state = .unlockedState ∧ spurious = false then some (.acquire k) else none
    | .lockEnqueue oldValue =>
      if s.state = oldValue ∧ spurious = false then some (.enqueue k) else none
    | .unlockCas => if s.state = .nullptr then some (.release k) else none
    | .unlockResume a => some (.handoff k a)
    | _ => none

def Pc.Holds : Pc C → Prop
  | .holding | .unlockLoad | .unlockCas | .unlockExchange | .unlockReverse _ _ | .unlockPop _
  | .unlockResume _ => True
  | _ => False

instance : DecidablePred (Pc.Holds (C := C)) := fun p => by
  cases p <;> unfold Pc.Holds <;> infer_instance

end LibCoro.Mutex
