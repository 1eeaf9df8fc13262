import LibCoro.Grace
import LibCoro.Lock

namespace LibCoro.RcuPressure

open Machine Grace

inductive Field where
  | a
  | b
  | c
  deriving DecidableEq, Repr

inductive Pc (A : Type) where
  | idle
  | filling (p : A) (rest : List Field)
  | locking (p : A)
  | loaded (p q : A)
  | assigned (q : A)
  | synchronizing (q : A)
  | synchronized (q : A)
  | deleted
  deriving DecidableEq, Repr

variable {C A : Type} {M : Lock C}

/-- The readers have their `p` and what they read of it. -/
structure State (M : Lock C) (A : Type) where
  lock : M.State
  gp : A
  foo : A → Field → Nat
  pc : C → Pc A
  reading : C → Option (A × List Nat)
  custody : Custody C A

/-- `reuse` is what the program does with memory that is not in use. -/
inductive Act (M : Lock C) (A : Type) where
  | new (k : C) (p : A)
  | fill (k : C)
  | coLock (k : C)
  | move (m : M.Move)
  | load (k : C)
  | assign (k : C)
  | delete (k : C)
  | unlock (k : C)
  | dereference (r : C)
  | read (r : C) (f : Field)
  | reuse (p : A) (f : Field) (v : Nat)

variable [DecidableEq C] [DecidableEq A]

def State.goto (s : State M A) (k : C) (p : Pc A) : State M A :=
  { s with pc := Function.update s.pc k p }

omit [DecidableEq A] in
@[simp] theorem pc_goto (s : State M A) (k : C) (p : Pc A) : (s.goto k p).pc k = p :=
  Function.update_self _ _ _

omit [DecidableEq A] in
theorem pc_goto_ne (s : State M A) {j k : C} (p : Pc A) (h : j ≠ k) : (s.goto k p).pc j = s.pc j :=
  Function.update_of_ne h _ _

def State.write (s : State M A) (p : A) (f : Field) (v : Nat) : State M A :=
  { s with foo := Function.update s.foo p (Function.update (s.foo p) f v) }

def State.assign (inside : C → Bool) (s : State M A) (k : C) (p q : A) : State M A :=
  { s with gp := p, custody := s.custody.retire inside k q }

def State.free (s : State M A) (q : A) : State M A :=
  { s with custody := { s.custody with phase := Function.update s.custody.phase q .free } }

def act (idx : C → Nat) (inside : C → Bool) (s : State M A) : Act M A → Option (State M A)
  | .new k p =>
    if s.pc k = .idle then
      (s.custody.take p).map fun u => { s.goto k (.filling p [.a, .b, .c]) with custody := u }
    else none
  | .fill k =>
    match s.pc k with
    | .filling p (f :: rest) => some ((s.write p f (idx k)).goto k (.filling p rest))
    | _ => none
  | .coLock k =>
    match s.pc k with
    | .filling p [] => (M.coLock s.lock k).map fun l => { s.goto k (.locking p) with lock := l }
    | _ => none
  | .move m => (M.move s.lock m).map fun l => { s with lock := l }
  | .load k =>
    match s.pc k with
    | .locking p => when (M.status s.lock k = .holding) (s.goto k (.loaded p s.gp))
    | _ => none
  | .assign k =>
    match s.pc k with
    | .loaded p q => some ((s.assign inside k p q).goto k (.assigned q))
    | _ => none
  | .delete k =>
    match s.pc k with
    | .synchronized q => some ((s.free q).goto k .deleted)
    | _ => none
  | .unlock k =>
    if s.pc k = .deleted then (M.unlock s.lock k).map fun l => { s.goto k .idle with lock := l }
    else none
  | .dereference r =>
    when (inside r) { s with reading := Function.update s.reading r (some (s.gp, [])) }
  | .read r f =>
    (s.reading r).map fun (p, values) =>
      { s with reading := Function.update s.reading r (some (p, values ++ [s.foo p f])) }
  | .reuse p f v => when (s.custody.phase p = .free) (s.write p f v)

/-- The call of `synchronize_rcu` behind the assignment, and its return. -/
def Pc.hear (k : C) : Pc A → Event C → Pc A
  | .assigned q, .begin j => if j = k then .synchronizing q else .assigned q
  | .synchronizing q, .finish j => if j = k then .synchronized q else .synchronizing q
  | p, _ => p

/-- What a reader got does not outlive its section. -/
def hear (s : State M A) (e : Event C) : State M A :=
  { s with
    pc := fun k => (s.pc k).hear k e
    reading := fun r => if e = .enter r ∨ e = .leave r then none else s.reading r
    custody := s.custody.hear e }

def Act.actor : Act M A → Option C
  | .new k _ | .fill k | .coLock k | .load k | .assign k | .delete k | .unlock k => some k
  | .dereference r | .read r _ => some r
  | .move _ | .reuse _ _ _ => none

def client (M : Lock C) (idx : C → Nat) : Client C (State M A) (Act M A) where
  actor := Act.actor
  act := act idx
  hear := hear

def init (M : Lock C) (gp : A) (v : Nat) (foo : A → Field → Nat) : State M A where
  lock := M.init
  gp := gp
  foo := Function.update foo gp fun _ => v
  pc _ := .idle
  reading _ := none
  custody := ⟨fun a => if a = gp then .used else .free, fun _ => ∅⟩

end LibCoro.RcuPressure
