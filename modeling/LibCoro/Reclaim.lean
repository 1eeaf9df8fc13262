import LibCoro.Rcu
import LibCoro.Chain

namespace LibCoro.Reclaim

open Machine Chain Rcu

/-- An activation of `thread_call_rcu`. The callback it is in may call the rcu functions
again; its `node` was read before. -/
inductive Frame where
  | scan (min_version i : Nat)
  | loop (min_version : Nat) (node : Option Addr)
  | callback (min_version : Nat) (head : Addr) (node : Option Addr)
  deriving DecidableEq, Repr

/-- What one thread sees of the reclamation, its activations with the innermost first.
No code reads `registered`, the heads of which the callback did not begin yet. -/
structure State where
  versions : Nat → Nat
  sequencer : Nat
  data : CallRcuData
  heads : Addr → RcuHead
  frames : List Frame
  registered : List Addr

def init (heads : Addr → RcuHead) : State where
  versions _ := DONE
  sequencer := 0
  data := ⟨none, none, 0⟩
  heads := heads
  frames := []
  registered := []

/-- `publish` and `fetchAdd` are the other threads', `write` is the program's use of its
objects, and `ret` the end of a callback. -/
inductive Act where
  | publish (core version : Nat)
  | fetchAdd
  | write (a : Addr) (value : RcuHead)
  | callRcu (head func : Addr)
  | freeRcu (head : Addr)
  | threadCallRcu
  | advance
  | ret

inductive Event where
  | registered (head func : Addr)
  | ran (head func : Addr)
  deriving DecidableEq, Repr

def _free_rcu : Addr := 0

def State.links (s : State) (a : Addr) : Option Addr := (s.heads a).next

def State.ready (s : State) : Bool :=
  match s.frames with
  | [] => true
  | .callback _ _ _ :: _ => true
  | _ => false

/-- `sequencer.fetch_add(1) + 1` in 64 bits. -/
def ticket (s : State) : Nat := (s.sequencer + 1) % 2 ^ 64

def rcuDataEnqueue (s : State) (head : Addr) : State :=
  match s.data.tail with
  | none => { s with data := ⟨some head, some head, (s.data.count + 1) % 2 ^ 64⟩ }
  | some tail =>
    { s with
      heads := Function.update s.heads tail { s.heads tail with next := some head }
      data := ⟨s.data.head, some head, (s.data.count + 1) % 2 ^ 64⟩ }

def threadCallRcu (s : State) : State := { s with frames := .scan uintMax 0 :: s.frames }

def callRcu (s : State) (head func : Addr) : State :=
  let s' := rcuDataEnqueue
    { s with
      sequencer := ticket s
      heads := Function.update s.heads head { s.heads head with version := ticket s, func := func }
      registered := s.registered ++ [head] } head
  if 1024 ≤ s'.data.count then threadCallRcu s' else s'

def advance (num_threads current_core : Nat) (s : State) : Option State :=
  match s.frames with
  | .scan min_version i :: rest =>
    if i < num_threads then
      if i = current_core then some { s with frames := .scan min_version (i + 1) :: rest }
      else some { s with frames := .scan (min min_version (s.versions i)) (i + 1) :: rest }
    else some { s with frames := .loop min_version s.data.head :: rest }
  | .loop _ none :: rest => some { s with frames := rest }
  | .loop min_version (some head) :: rest =>
    if min_version < (s.heads head).version then some { s with frames := rest }
    else some { s with
      frames := .callback min_version head (s.heads head).next :: rest
      registered := s.registered.erase head }
  | _ => none

def ret (s : State) : Option State :=
  match s.frames with
  | .callback min_version _ node :: rest =>
    some { s with
      data := ⟨node, if node = none then none else s.data.tail, s.data.count⟩
      frames := .loop min_version node :: rest }
  | _ => none

def step (num_threads current_core : Nat) (s : State) : Act → Option State
  | .publish core version => some { s with versions := Function.update s.versions core version }
  | .fetchAdd => some { s with sequencer := ticket s }
  | .write a value => some { s with heads := Function.update s.heads a value }
  | .callRcu head func => when s.ready (callRcu s head func)
  | .freeRcu head => when s.ready (callRcu s head _free_rcu)
  | .threadCallRcu => when s.ready (threadCallRcu s)
  | .advance => advance num_threads current_core s
  | .ret => ret s

def calls (s : State) : Option Addr :=
  match s.frames with
  | .loop min_version (some head) :: _ =>
    if min_version < (s.heads head).version then none else some head
  | _ => none

def emit (s : State) : Act → Option Event
  | .callRcu head func => some (.registered head func)
  | .freeRcu head => some (.registered head _free_rcu)
  | .advance => (calls s).map fun head => .ran head (s.heads head).func
  | _ => none

def serve : List (Addr × Addr) → Event → Option (List (Addr × Addr))
  | q, .registered head func => some (q ++ [(head, func)])
  | [], .ran _ _ => none
  | p :: q, .ran head func => when (p = (head, func)) q

def due (es : List Event) : Option (List (Addr × Addr)) := run serve [] es

def Event.registers (p : Addr × Addr → Bool) : Event → Bool
  | .registered head func => p (head, func)
  | .ran _ _ => false

def Event.runs (p : Addr × Addr → Bool) : Event → Bool
  | .registered _ _ => false
  | .ran head func => p (head, func)

def State.running (s : State) : List Addr :=
  s.frames.filterMap fun
    | .callback _ head _ => some head
    | _ => none

def State.inLast (s : State) : Bool :=
  match s.frames with
  | .callback _ _ none :: _ => true
  | _ => false

def Act.head : Act → Option Addr
  | .callRcu head _ => some head
  | .freeRcu head => some head
  | _ => none

/-- A head belongs to the queue from its registration until its callback runs. -/
def Disciplined (s : State) : Act → Prop
  | .write a _ => a ∉ s.registered
  | a => ∀ head ∈ a.head, head ∉ s.registered ∧ head ∉ s.running

def Outside (s : State) (a : Act) : Prop := a.head ≠ none → s.frames = []

def NullNext (s : State) (a : Act) : Prop := ∀ head ∈ a.head, s.links head = none

/-- The callback of the last node registers nothing. -/
def NotLast (s : State) (a : Act) : Prop := a.head ≠ none → s.inLast = false

/-- A drain that a callback started finds no callback to call. -/
def NotNested (s : State) : Act → Prop
  | .advance => 2 ≤ s.frames.length → calls s = none
  | _ => True

instance (s : State) (a : Act) : Decidable (Disciplined s a) :=
  match a with
  | .write a _ => inferInstanceAs (Decidable (a ∉ s.registered))
  | .callRcu head func =>
    inferInstanceAs (Decidable (∀ h ∈ (Act.callRcu head func).head, h ∉ s.registered ∧ h ∉ s.running))
  | .freeRcu head =>
    inferInstanceAs (Decidable (∀ h ∈ (Act.freeRcu head).head, h ∉ s.registered ∧ h ∉ s.running))
  | .publish _ _ | .fetchAdd | .threadCallRcu | .advance | .ret =>
    inferInstanceAs (Decidable (∀ h ∈ (none : Option Addr), h ∉ s.registered ∧ h ∉ s.running))

instance (s : State) (a : Act) : Decidable (Outside s a) :=
  inferInstanceAs (Decidable (a.head ≠ none → s.frames = []))

instance (s : State) (a : Act) : Decidable (NullNext s a) :=
  inferInstanceAs (Decidable (∀ head ∈ a.head, s.links head = none))

instance (s : State) (a : Act) : Decidable (NotLast s a) :=
  inferInstanceAs (Decidable (a.head ≠ none → s.inLast = false))

instance (s : State) (a : Act) : Decidable (NotNested s a) :=
  match a with
  | .advance => inferInstanceAs (Decidable (2 ≤ s.frames.length → calls s = none))
  | .publish _ _ | .fetchAdd | .write _ _ | .callRcu _ _ | .freeRcu _ | .threadCallRcu | .ret =>
    isTrue trivial

end LibCoro.Reclaim
