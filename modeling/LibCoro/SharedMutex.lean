import LibCoro.ConditionVariable
import LibCoro.Lock
import Mathlib.Algebra.Order.BigOperators.Group.Finset

namespace LibCoro.SharedMutex

open Machine

variable {C : Type}

def writeEnteredFlag : Nat := 2 ^ 31

def maxReaders : Nat := 2 ^ 32 - 1 - writeEnteredFlag

def writeEntered (state_ : Nat) : Bool := state_ &&& writeEnteredFlag ≠ 0

def readers (state_ : Nat) : Nat := state_ &&& maxReaders

/-- `++state_` and `state_--` on an `unsigned`. -/
def increment (state_ : Nat) : Nat := (state_ + 1) % 2 ^ 32

def decrement (state_ : Nat) : Nat := (state_ + (2 ^ 32 - 1)) % 2 ^ 32

inductive Gate where
  | gate1
  | gate2
  deriving DecidableEq, Repr

/-- The calls of `wait`: two in `coLock`, one in `coLockShared`. -/
inductive Wait where
  | writeEntered
  | readers
  | maxReaders
  deriving DecidableEq, Repr

inductive Op where
  | coLock
  | unlock
  | coLockShared
  | unlockShared
  deriving DecidableEq, Repr

inductive Pc where
  | idle
  | acquire (op : Op)
  | lockTest
  | lockSetFlag
  | lockTestReaders
  | lockDone
  | tryTest
  | trySet
  | unlockAssert
  | unlockClear
  | sharedTest
  | sharedIncrement
  | trySharedTest
  | unsharedAssert
  | unsharedDecrement
  | unsharedTest (prev : Nat)
  | unsharedTestReaders
  | waitTest (w : Wait)
  | waitSuspend (w : Wait)
  | waitUnlock (w : Wait)
  | waiting (w : Wait)
  | waitLock (w : Wait)
  | notifyAll (g : Gate)
  | notifyOne (g : Gate)
  | notifying (g : Gate)
  | release
  | returning
  | assertFailed
  | overlap
  deriving DecidableEq, Repr

def Wait.gate : Wait → Gate
  | .writeEntered | .maxReaders => .gate1
  | .readers => .gate2

def Wait.pred (state_ : Nat) : Wait → Bool
  | .writeEntered => !SharedMutex.writeEntered state_
  | .readers => SharedMutex.readers state_ = 0
  | .maxReaders => state_ < SharedMutex.maxReaders

def Wait.next : Wait → Pc
  | .writeEntered => .lockSetFlag
  | .readers => .lockDone
  | .maxReaders => .sharedIncrement

def Op.entry : Op → Pc
  | .coLock => .lockTest
  | .unlock => .unlockAssert
  | .coLockShared => .sharedTest
  | .unlockShared => .unsharedAssert

/-- `exclusive` and `shared` record which locks each coroutine holds: exclusively from the
end of its wait, or the success of `tryLock`, to `state_ = 0`; shared from `++state_` to
`state_--`. -/
structure State (L : Lock C) where
  mut_ : L.State
  gate : Gate → ConditionVariable.State C
  state_ : Nat
  pc : C → Pc
  exclusive : C → Bool
  shared : C → Nat

variable {L : Lock C}

def init : State L where
  mut_ := L.init
  gate _ := ConditionVariable.init
  state_ := 0
  pc _ := .idle
  exclusive _ := false
  shared _ := 0

/-- The calls of a client, its next step inside a call, and the steps of `mut_`. -/
inductive Act (L : Lock C) where
  | coLock (k : C)
  | tryLock (k : C)
  | unlock (k : C)
  | coLockShared (k : C)
  | tryLockShared (k : C)
  | unlockShared (k : C)
  | advance (k : C) (spurious : Bool)
  | move (m : L.Move)

variable [DecidableEq C]

def State.goto (s : State L) (k : C) (p : Pc) : State L := { s with pc := Function.update s.pc k p }

def lockStep (s : State L) (k : C) (f : L.State → C → Option L.State) (p : L.State → Pc) :
    Option (State L) :=
  (f s.mut_ k).map fun m => { s with mut_ := m }.goto k (p m)

def gateStep (s : State L) (g : Gate) (k : C) (a : ConditionVariable.Act C)
    (p : ConditionVariable.State C → Pc) : Option (State L) :=
  (ConditionVariable.step (s.gate g) a).map fun v =>
    { s with gate := Function.update s.gate g v }.goto k (p v)

/-- The next step of `k`. A coroutine that is resumed while its `await_suspend` still
owns `mut_` would go on twice at a time: `overlap`. -/
def advance (s : State L) (k : C) (spurious : Bool) : Option (State L) :=
  match s.pc k with
  | .acquire op => when (L.status s.mut_ k = .holding) (s.goto k op.entry)
  | .lockTest =>
    some (s.goto k (if writeEntered s.state_ then .waitTest .writeEntered else .lockSetFlag))
  | .lockSetFlag => some ({ s with state_ := s.state_ ||| writeEnteredFlag }.goto k .lockTestReaders)
  | .lockTestReaders =>
    some (s.goto k (if readers s.state_ ≠ 0 then .waitTest .readers else .lockDone))
  | .lockDone => some ({ s with exclusive := Function.update s.exclusive k true }.goto k .release)
  | .tryTest => some (s.goto k (if s.state_ = 0 then .trySet else .release))
  | .trySet =>
    some ({ s with
      state_ := writeEnteredFlag
      exclusive := Function.update s.exclusive k true }.goto k .release)
  | .unlockAssert => some (s.goto k (if writeEntered s.state_ then .unlockClear else .assertFailed))
  | .unlockClear =>
    some ({ s with
      state_ := 0
      exclusive := Function.update s.exclusive k false }.goto k (.notifyAll .gate1))
  | .sharedTest =>
    some (s.goto k (if maxReaders ≤ s.state_ then .waitTest .maxReaders else .sharedIncrement))
  | .sharedIncrement =>
    some ({ s with
      state_ := increment s.state_
      shared := Function.update s.shared k (s.shared k + 1) }.goto k .release)
  | .trySharedTest => some (s.goto k (if s.state_ < maxReaders then .sharedIncrement else .release))
  | .unsharedAssert =>
    some (s.goto k (if 0 < readers s.state_ then .unsharedDecrement else .assertFailed))
  | .unsharedDecrement =>
    some ({ s with
      state_ := decrement s.state_
      shared := Function.update s.shared k (s.shared k - 1) }.goto k (.unsharedTest s.state_))
  | .unsharedTest prev =>
    some (s.goto k (if writeEntered s.state_ then .unsharedTestReaders
      else if prev = maxReaders then .notifyOne .gate1 else .release))
  | .unsharedTestReaders =>
    some (s.goto k (if readers s.state_ = 0 then .notifyOne .gate2 else .release))
  | .waitTest w =>
    if w.pred s.state_ then some (s.goto k w.next)
    else gateStep s w.gate k (.suspend k) fun _ => .waitSuspend w
  | .waitSuspend w =>
    gateStep s w.gate k (.advance k spurious) fun v =>
      if v.pc k = .parked then .waitUnlock w else .waitSuspend w
  | .waitUnlock w =>
    if (s.gate w.gate).pc k = .parked then lockStep s k L.unlock fun _ => .waiting w
    else some (s.goto k .overlap)
  | .waiting w =>
    if (s.gate w.gate).pc k = .parked then none
    else if L.status s.mut_ k = .idle then lockStep s k L.coLock fun _ => .waitLock w
    else some (s.goto k .overlap)
  | .waitLock w => when (L.status s.mut_ k = .holding) (s.goto k (.waitTest w))
  | .notifyAll g => gateStep s g k (.notifyAll k) fun _ => .notifying g
  | .notifyOne g => gateStep s g k (.notifyOne k) fun _ => .notifying g
  | .notifying g =>
    if (s.gate g).pc k = .idle then some (s.goto k .release)
    else gateStep s g k (.advance k spurious) fun _ => .notifying g
  | .release => lockStep s k L.unlock fun _ => .returning
  | .returning => when (L.status s.mut_ k = .idle) (s.goto k .idle)
  | .idle | .assertFailed | .overlap => none

def tried (L : Lock C) (k : C) (p : Pc) (m : L.State) : Pc :=
  if L.status m k = .holding then p else .idle

/-- The discipline of the clients: `unlock` and `unlockShared` release a lock that the
caller holds. -/
def step (s : State L) : Act L → Option (State L)
  | .coLock k => if s.pc k = .idle then lockStep s k L.coLock fun _ => .acquire .coLock else none
  | .tryLock k => if s.pc k = .idle then lockStep s k L.tryLock (tried L k .tryTest) else none
  | .unlock k =>
    if s.pc k = .idle ∧ s.exclusive k = true then lockStep s k L.coLock fun _ => .acquire .unlock
    else none
  | .coLockShared k =>
    if s.pc k = .idle then lockStep s k L.coLock fun _ => .acquire .coLockShared else none
  | .tryLockShared k =>
    if s.pc k = .idle then lockStep s k L.tryLock (tried L k .trySharedTest) else none
  | .unlockShared k =>
    if s.pc k = .idle ∧ 0 < s.shared k then lockStep s k L.coLock fun _ => .acquire .unlockShared
    else none
  | .advance k spurious => advance s k spurious
  | .move m => (L.move s.mut_ m).map fun m => { s with mut_ := m }

def gateAct (s : State L) : Act L → Option (Gate × ConditionVariable.Act C)
  | .advance k spurious =>
    match s.pc k with
    | .waitTest w => if w.pred s.state_ then none else some (w.gate, .suspend k)
    | .waitSuspend w => some (w.gate, .advance k spurious)
    | .notifyAll g => some (g, .notifyAll k)
    | .notifyOne g => some (g, .notifyOne k)
    | .notifying g => if (s.gate g).pc k = .idle then none else some (g, .advance k spurious)
    | _ => none
  | _ => none

/-- The registrations and resumptions on the gate `g`. -/
def emit (g : Gate) (s : State L) (a : Act L) : Option (ConditionVariable.Event C) :=
  (gateAct s a).bind fun b => if b.1 = g then ConditionVariable.emit (s.gate g) b.2 else none

end LibCoro.SharedMutex
