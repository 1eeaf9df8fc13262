import LibCoro.Machine
import Mathlib.Algebra.Order.BigOperators.Group.Finset

namespace LibCoro.Rcu

open Machine

/-- `LONG_LONG_MAX`, the version of a core that is offline. -/
def DONE : Nat := 2 ^ 63 - 1

/-- `UINT_MAX`, where `thread_call_rcu` starts its minimum. -/
def uintMax : Nat := 2 ^ 32 - 1

abbrev Addr := Nat

structure RcuHead where
  next : Option Addr
  version : Nat
  func : Addr

structure CallRcuData where
  head : Option Addr
  tail : Option Addr
  count : Nat

inductive Pc where
  | idle
  | lockCompare (global_version : Nat)
  | lockStore (global_version : Nat)
  | sync (writer_version current_core i : Nat)
  | syncYield (writer_version current_core i : Nat)
  | syncYielded (writer_version current_core i core : Nat)
  | drainScan (min_version i : Nat)
  | drainLoop (min_version : Nat) (node : Option Addr)
  deriving DecidableEq, Repr

/-- The coroutines that execute on a core form a stack: the last one resumed runs,
and the others wait inside the call that resumed the one above them. -/
structure State (C : Type) where
  versions : Nat → Nat
  sequencer : Nat
  rcuCount : Nat → Nat
  data : Nat → CallRcuData
  heads : Addr → RcuHead
  pointers : Addr → Addr
  stack : Nat → List C
  core : C → Option Nat
  depth : C → Nat
  pc : C → Pc

variable {C : Type}

def init (heads : Addr → RcuHead) (pointers : Addr → Addr) : State C where
  versions _ := DONE
  sequencer := 0
  rcuCount _ := 1023
  data _ := ⟨none, none, 0⟩
  heads := heads
  pointers := pointers
  stack _ := []
  core _ := none
  depth _ := 0
  pc _ := .idle

/-- `offline c` is a call of `rcu_offline` by the code of an awaitable on core `c`. -/
inductive Act (C : Type) where
  | resume (c : Nat) (k : C)
  | deliver (k : C)
  | suspend (k : C)
  | offline (c : Nat)
  | readLock (k : C)
  | readUnlock (k : C)
  | dereference (k : C) (p : Addr)
  | assign (k : C) (p v : Addr)
  | synchronize (k : C)
  | callRcu (k : C) (head func : Addr)
  | threadCallRcu (k : C)
  | advance (k : C)
  deriving DecidableEq, Repr

variable [DecidableEq C]

def State.top (s : State C) (k : C) : Option Nat :=
  (s.core k).bind fun c => if (s.stack c).head? = some k then some c else none

def State.calm (s : State C) (c : Nat) : Bool := (s.stack c).head?.all fun j => s.pc j = .idle

def State.goto (s : State C) (k : C) (p : Pc) : State C := { s with pc := Function.update s.pc k p }

def State.enter (s : State C) (c : Nat) (k : C) : State C :=
  { s with stack := Function.update s.stack c (k :: s.stack c), core := Function.update s.core k (some c) }

def State.leave (s : State C) (c : Nat) (k : C) : State C :=
  { s with stack := Function.update s.stack c (s.stack c).tail, core := Function.update s.core k none }

/-- A read-side section begins or ends; `rcu_read_unlock` itself does nothing. -/
def State.setDepth (s : State C) (k : C) (d : Nat) : State C :=
  { s with depth := Function.update s.depth k d }

def rcuOffline (s : State C) (c : Nat) : State C :=
  { s with versions := Function.update s.versions c DONE, rcuCount := Function.update s.rcuCount c 1023 }

/-- `++rcu_count`, and for one call in 1024 the load of the sequencer. -/
def rcuReadLock (s : State C) (c : Nat) (k : C) : State C :=
  if s.rcuCount c + 1 = 1024 then
    { s with rcuCount := Function.update s.rcuCount c 0 }.goto k (.lockCompare s.sequencer)
  else { s with rcuCount := Function.update s.rcuCount c (s.rcuCount c + 1) }.setDepth k (s.depth k + 1)

/-- The ticket of a grace period: `sequencer.fetch_add(1) + 1` in 64 bits. -/
def ticket (s : State C) : Nat := (s.sequencer + 1) % 2 ^ 64

def synchronizeRcu (s : State C) (c : Nat) (k : C) : State C :=
  { s with sequencer := ticket s }.goto k (.sync (ticket s) c 0)

def rcuDataEnqueue (s : State C) (c : Nat) (head : Addr) : State C :=
  match (s.data c).tail with
  | none =>
    { s with
      data := Function.update s.data c ⟨some head, some head, ((s.data c).count + 1) % 2 ^ 64⟩ }
  | some tail =>
    { s with
      heads := Function.update s.heads tail { s.heads tail with next := some head }
      data := Function.update s.data c
        ⟨(s.data c).head, some head, ((s.data c).count + 1) % 2 ^ 64⟩ }

/-- `call_rcu`; the thread-local part after the `fetch_add` belongs to the same step. -/
def callRcu (s : State C) (c : Nat) (k : C) (head func : Addr) : State C :=
  let s' := rcuDataEnqueue
    { s with
      sequencer := ticket s
      heads := Function.update s.heads head { s.heads head with version := ticket s, func := func } } c head
  if 1024 ≤ (s'.data c).count then s'.goto k (.drainScan uintMax 0) else s'

/-- `head->func(head)`, where the callback calls no rcu function and resumes nobody; after it the
queue starts at the next node. -/
def runCallback (s : State C) (c : Nat) (head : Addr) : State C :=
  let node := (s.heads head).next
  { s with
    data := Function.update s.data c
      ⟨node, if node = none then none else (s.data c).tail, (s.data c).count⟩ }

def advance (num_threads : Nat) (s : State C) (c : Nat) (k : C) : Option (State C) :=
  match s.pc k with
  | .lockCompare global_version =>
    if global_version = s.versions c then some ((s.goto k .idle).setDepth k (s.depth k + 1))
    else some (s.goto k (.lockStore global_version))
  | .lockStore global_version =>
    some (({ s with versions := Function.update s.versions c global_version }.goto k .idle).setDepth k
      (s.depth k + 1))
  | .sync writer_version current_core i =>
    if i < num_threads then
      if i = current_core then some (s.goto k (.sync writer_version current_core (i + 1)))
      else if s.versions i < writer_version then some (s.goto k (.syncYield writer_version current_core i))
      else some (s.goto k (.sync writer_version current_core (i + 1)))
    else some (s.goto k .idle)
  | .syncYield writer_version current_core i =>
    some ((rcuOffline (s.leave c k) c).goto k (.syncYielded writer_version current_core i c))
  | .drainScan min_version i =>
    if i < num_threads then
      if i = c then some (s.goto k (.drainScan min_version (i + 1)))
      else some (s.goto k (.drainScan (min min_version (s.versions i)) (i + 1)))
    else some (s.goto k (.drainLoop min_version (s.data c).head))
  | .drainLoop min_version (some head) =>
    if min_version < (s.heads head).version then some (s.goto k .idle)
    else some ((runCallback s c head).goto k (.drainLoop min_version (s.heads head).next))
  | .drainLoop _ none => some (s.goto k .idle)
  | _ => none

def call (s : State C) (k : C) (f : Nat → State C) : Option (State C) :=
  (s.top k).bind fun c => when (s.pc k = .idle) (f c)

def step (num_threads : Nat) (s : State C) : Act C → Option (State C)
  | .resume c k => when (c < num_threads ∧ s.core k = none ∧ s.pc k = .idle ∧ s.calm c) (s.enter c k)
  | .deliver k =>
    match s.pc k with
    | .syncYielded writer_version current_core i c =>
      when (s.stack c = []) ((s.enter c k).goto k (.sync writer_version current_core i))
    | _ => none
  | .suspend k => call s k fun c => s.leave c k
  | .offline c => when (c < num_threads ∧ s.calm c) (rcuOffline s c)
  | .readLock k => call s k fun c => rcuReadLock s c k
  | .readUnlock k => if s.depth k = 0 then none else call s k fun _ => s.setDepth k (s.depth k - 1)
  | .dereference k _ => call s k fun _ => s
  | .assign k p v => call s k fun _ => { s with pointers := Function.update s.pointers p v }
  | .synchronize k => call s k fun c => synchronizeRcu s c k
  | .callRcu k head func => call s k fun c => callRcu s c k head func
  | .threadCallRcu k => call s k fun _ => s.goto k (.drainScan uintMax 0)
  | .advance k => (s.top k).bind fun c => advance num_threads s c k

end LibCoro.Rcu
