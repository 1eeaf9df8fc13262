import LibCoro.CdsList
import LibCoro.Grace

namespace LibCoro.RcuList

open Machine Links CdsList Grace

variable {C A : Type} [DecidableEq C] [DecidableEq A]

/-! The functions of `rculist.h` as the stores they make, one after another. The macro
`CMM_STORE_SHARED`, which nothing that `rculist.h` includes defines, is a parameter: what it does
to the `next` of a node. -/

variable (cmmStoreShared : Nodes A → A → A → Nodes A)

def cdsListAddRcu (newp head : A) : List (Nodes A → Nodes A) :=
  [fun s => s.setNext newp (s.next head),
    fun s => s.setPrev newp head,
    fun s => s.setPrev (s.next head) newp,
    fun s => s.setNext head newp]

def cdsListAddTailRcu (newp head : A) : List (Nodes A → Nodes A) :=
  [fun s => s.setNext newp head,
    fun s => s.setPrev newp (s.prev head),
    fun s => s.setNext (s.prev head) newp,
    fun s => s.setPrev head newp]

def cdsListReplaceRcu (old new : A) : List (Nodes A → Nodes A) :=
  [fun s => s.setNext new (s.next old),
    fun s => s.setPrev new (s.prev old),
    fun s => s.setNext (s.prev new) new,
    fun s => s.setPrev (s.next new) new]

def cdsListDelRcu (elem : A) : List (Nodes A → Nodes A) :=
  [fun s => s.setPrev (s.next elem) (s.prev elem),
    fun s => cmmStoreShared s (s.prev elem) (s.next elem)]

/-- A call of one of them on the list that the traversals go over. -/
inductive Op (A : Type) where
  | add (newp : A)
  | addTail (newp : A)
  | replace (old new : A)
  | del (elem : A)
  deriving DecidableEq, Repr

def Op.stores (head : A) : Op A → List (Nodes A → Nodes A)
  | .add newp => cdsListAddRcu newp head
  | .addTail newp => cdsListAddTailRcu newp head
  | .replace old new => cdsListReplaceRcu old new
  | .del elem => cdsListDelRcu cmmStoreShared elem

/-- The store that the traversals see. -/
def Op.publishes : Op A → Nat
  | .add _ => 3
  | .addTail _ => 2
  | .replace _ _ => 2
  | .del _ => 1

def Op.added : Op A → Option A
  | .add newp => some newp
  | .addTail newp => some newp
  | .replace _ new => some new
  | .del _ => none

def Op.removed : Op A → Option A
  | .replace old _ => some old
  | .del elem => some elem
  | _ => none

def Op.apply : Op A → List A → List A
  | .add newp, l => newp :: l
  | .addTail newp, l => l ++ [newp]
  | .replace old new, l => l.map fun x => if x = old then new else x
  | .del elem, l => l.erase elem

/-- A `cds_list_for_each_rcu` loop. The code has `pos` only; the rest says what the loop came to,
which nodes the list had when it began, and which it got and lost since. -/
structure Traversal (A : Type) where
  pos : A
  finished : Bool
  visited : List A
  snapshot : List A
  came : List A
  lost : List A

structure State (C A : Type) where
  nodes : Nodes A
  updating : Option (C × Op A × Nat)
  reading : C → Option (Traversal A)
  contents : List A
  custody : Custody C A

/-- `write` is what the program does with memory that is not in use. -/
inductive Act (C A : Type) where
  | update (k : C) (op : Op A)
  | store (k : C)
  | start (r : C)
  | next (r : C)
  | write (a next prev : A)
  | reclaim (k : C) (a : A)
  deriving DecidableEq, Repr

/-- A node is added only if it is free, and only a node of the list is taken off. -/
def claim (u : Custody C A) (contents : List A) (op : Op A) : Option (Custody C A) :=
  if ∀ e ∈ op.removed, e ∈ contents then
    match op.added with
    | some newp => u.take newp
    | none => some u
  else none

def Traversal.publish (t : Traversal A) (op : Op A) : Traversal A :=
  { t with came := t.came ++ op.added.toList, lost := t.lost ++ op.removed.toList }

def State.publish (inside : C → Bool) (s : State C A) (k : C) (op : Op A) : State C A :=
  { s with
    contents := op.apply s.contents
    reading := fun r => (s.reading r).map fun t => t.publish op
    custody := op.removed.elim s.custody (s.custody.retire inside k) }

def State.store (head : A) (inside : C → Bool) (s : State C A) (k : C) (op : Op A) (i : Nat) :
    Option (State C A) :=
  (op.stores cmmStoreShared head)[i]?.map fun f =>
    let s' := { s with
      nodes := f s.nodes
      updating :=
        if i + 1 < (op.stores cmmStoreShared head).length then some (k, op, i + 1) else none }
    if i = op.publishes then s'.publish inside k op else s'

def Traversal.next (head p : A) (t : Traversal A) : Traversal A :=
  if p = head then { t with pos := p, finished := true }
  else { t with pos := p, visited := t.visited ++ [p] }

def act (head : A) (inside : C → Bool) (s : State C A) : Act C A → Option (State C A)
  | .update k op =>
    if s.updating = none then
      (claim s.custody s.contents op).map fun u =>
        { s with updating := some (k, op, 0), custody := u }
    else none
  | .store k =>
    s.updating.bind fun (j, op, i) =>
      if j = k then s.store cmmStoreShared head inside k op i else none
  | .start r =>
    when (inside r)
      { s with reading := Function.update s.reading r (some ⟨head, false, [], s.contents, [], []⟩) }
  | .next r =>
    (s.reading r).bind fun t =>
      when (t.finished = false)
        { s with
          reading := Function.update s.reading r (some (t.next head (s.nodes.next t.pos))) }
  | .write a n p =>
    when (s.custody.phase a = .free) { s with nodes := (s.nodes.setNext a n).setPrev a p }
  | .reclaim k a => (s.custody.reclaim k a).map fun u => { s with custody := u }

/-- A section that ends, or begins, has no traversal in it. -/
def hear (s : State C A) (e : Event C) : State C A :=
  { s with
    reading := fun r => if e = .enter r ∨ e = .leave r then none else s.reading r
    custody := s.custody.hear e }

def Act.actor : Act C A → Option C
  | .update k _ | .store k | .start k | .next k | .reclaim k _ => some k
  | .write _ _ _ => none

def client (head : A) : Client C (State C A) (Act C A) where
  actor := Act.actor
  act := act cmmStoreShared head
  hear := hear

def init (head : A) (nodes : Nodes A) : State C A where
  nodes := (nodes.setPrev head head).setNext head head
  updating := none
  reading _ := none
  contents := []
  custody := ⟨fun a => if a = head then .used else .free, fun _ => ∅⟩

end LibCoro.RcuList
