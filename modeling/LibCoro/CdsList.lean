import LibCoro.Links
import LibCoro.Machine

namespace LibCoro.CdsList

open Machine Links

variable {A : Type} [DecidableEq A]

structure Nodes (A : Type) where
  next : A → A
  prev : A → A

def Nodes.setNext (s : Nodes A) (a b : A) : Nodes A := { s with next := Function.update s.next a b }

def Nodes.setPrev (s : Nodes A) (a b : A) : Nodes A := { s with prev := Function.update s.prev a b }

/-- `CDS_INIT_LIST_HEAD` as `list.cpp` has it for itself -/
def cdsInitListHead (s : Nodes A) (ptr : A) : Nodes A := (s.setPrev ptr ptr).setNext ptr ptr

def listAdd (s : Nodes A) (newp head : A) : Nodes A :=
  let s := s.setPrev (s.next head) newp
  let s := s.setNext newp (s.next head)
  let s := s.setPrev newp head
  s.setNext head newp

def listAddTail (s : Nodes A) (newp head : A) : Nodes A :=
  let s := s.setNext (s.prev head) newp
  let s := s.setNext newp head
  let s := s.setPrev newp (s.prev head)
  s.setPrev head newp

/-- `__list_del` -/
def listDel (s : Nodes A) (prev next : A) : Nodes A :=
  let s := s.setPrev next prev
  s.setNext prev next

def cdsListDel (s : Nodes A) (elem : A) : Nodes A := listDel s (s.prev elem) (s.next elem)

/-- What `list.h` uses and neither declares nor includes: the macro `CDS_INIT_LIST_HEAD` and the
function `cds_list_add_tail`. -/
structure Undeclared (A : Type) where
  initListHead : Nodes A → A → Nodes A
  addTail : Nodes A → A → A → Nodes A

/-- The macro is the one of `list.cpp`, and the function the `list_add_tail` of `list.h`. -/
structure Undeclared.Usual (names : Undeclared A) : Prop where
  initListHead_eq : ∀ s ptr, names.initListHead s ptr = cdsInitListHead s ptr
  addTail_eq : ∀ s newp head, names.addTail s newp head = listAddTail s newp head

def Undeclared.usual : Undeclared A := ⟨cdsInitListHead, listAddTail⟩

theorem Undeclared.usual_usual : (usual : Undeclared A).Usual := ⟨fun _ _ => rfl, fun _ _ _ => rfl⟩

def cdsListDelInit (names : Undeclared A) (s : Nodes A) (elem : A) : Nodes A :=
  names.initListHead (cdsListDel s elem) elem

def cdsListMove (s : Nodes A) (elem head : A) : Nodes A :=
  listAdd (listDel s (s.prev elem) (s.next elem)) elem head

def cdsListReplace (s : Nodes A) (old new : A) : Nodes A :=
  let s := s.setNext new (s.next old)
  let s := s.setPrev new (s.prev old)
  let s := s.setNext (s.prev new) new
  s.setPrev (s.next new) new

def cdsListSplice (s : Nodes A) (add head : A) : Nodes A :=
  if add ≠ s.next add then
    let s := s.setPrev (s.next add) head
    let s := s.setNext (s.prev add) (s.next head)
    let s := s.setPrev (s.next head) (s.prev add)
    s.setNext head (s.next add)
  else s

def cdsListEmpty (s : Nodes A) (head : A) : Bool := head = s.next head

def cdsListReplaceInit (names : Undeclared A) (s : Nodes A) (old new : A) : Nodes A :=
  let head := s.next old
  let s := cdsListDel s old
  let s := names.addTail s new head
  names.initListHead s old

def Nodes.link (s : Nodes A) (backward : Bool) : A → A := if backward then s.prev else s.next

/-- What `cds_list_for_each` and `cds_list_for_each_prev` do from `pos` on, and the nodes they
come to; `none` if they are not done after `fuel` tests. -/
def forEach (backward : Bool) (head : A) (body : Nodes A → A → Nodes A) :
    Nat → Nodes A → A → Option (List A × Nodes A)
  | 0, _, _ => none
  | fuel + 1, s, pos =>
    if pos = head then some ([], s)
    else
      let s := body s pos
      (forEach backward head body fuel s (s.link backward pos)).map fun (l, t) => (pos :: l, t)

def cdsListForEach (head : A) (body : Nodes A → A → Nodes A) (fuel : Nat) (s : Nodes A) :=
  forEach false head body fuel s (s.next head)

def cdsListForEachPrev (head : A) (body : Nodes A → A → Nodes A) (fuel : Nat) (s : Nodes A) :=
  forEach true head body fuel s (s.prev head)

/-- A call of one of the functions that change lists. -/
inductive Op (A : Type) where
  | initHead (h : A)
  | add (n h : A)
  | addTail (n h : A)
  | del (e : A)
  | delInit (e : A)
  | move (e h : A)
  | replace (old new : A)
  | splice (add h : A)
  | replaceInit (old new : A)
  deriving DecidableEq, Repr

def exec (names : Undeclared A) (s : Nodes A) : Op A → Nodes A
  | .initHead h => names.initListHead s h
  | .add n h => listAdd s n h
  | .addTail n h => listAddTail s n h
  | .del e => cdsListDel s e
  | .delInit e => cdsListDelInit names s e
  | .move e h => cdsListMove s e h
  | .replace old new => cdsListReplace s old new
  | .splice add h => cdsListSplice s add h
  | .replaceInit old new => cdsListReplaceInit names s old new

/-- What the nodes stand for: `home` gives the head of the list a node is in, and a head is at
home in its own list. -/
structure Lists (A : Type) where
  home : A → Option A
  contents : A → List A

structure Lists.Valid (w : Lists A) : Prop where
  head : ∀ x h, w.home x = some h → w.home h = some h
  mem : ∀ h x, w.home h = some h → (w.home x = some h ↔ x ∈ h :: w.contents h)
  nodup : ∀ h, w.home h = some h → (h :: w.contents h).Nodup

def Lists.set (w : Lists A) (h : A) (l : List A) : Lists A where
  home x := if x ∈ l then some h else if x ∈ w.contents h then none else w.home x
  contents := Function.update w.contents h l

def Lists.open (w : Lists A) (h : A) : Lists A where
  home := Function.update w.home h (some h)
  contents := Function.update w.contents h []

def Lists.close (w : Lists A) (h : A) : Lists A where
  home x := if w.home x = some h then none else w.home x
  contents := w.contents

/-- A node that is in no list, or only in one of its own, as `CDS_INIT_LIST_HEAD` leaves it. -/
def Lists.Loose (w : Lists A) (x : A) : Prop := w.home x = none ∨ w.home x = some x

instance (w : Lists A) (x : A) : Decidable (w.Loose x) :=
  inferInstanceAs (Decidable (_ ∨ _))

def Lists.init (w : Lists A) (h : A) : Option (Lists A) := when (w.Loose h) ((w.close h).open h)

/-- A loose node comes into the list of `h`, which then is `l`. If it was a head, its own list is
given up. -/
def Lists.put (w : Lists A) (n h : A) (l : List A) : Option (Lists A) :=
  when (w.Loose n ∧ w.home h = some h ∧ n ≠ h) ((w.close n).set h l)

/-- A node leaves the list it is in. A node that is linked to itself stays so, and where the head
of a list goes, the others are left without it. -/
def Lists.remove (w : Lists A) (e : A) : Option (Lists A) :=
  (w.home e).map fun h =>
    if e ≠ h then w.set h ((w.contents h).erase e)
    else if w.contents e = [] then w
    else w.close e

/-- A loose node takes the place of another, also that of a head. Put in the place of a node that is
linked to itself, it comes behind it. -/
def Lists.replace (w : Lists A) (old new : A) : Option (Lists A) :=
  (w.home old).bind fun h =>
    if old ≠ h then w.put new h ((w.contents h).map fun x => if x = old then new else x)
    else if w.contents old = [] then w.put new old [new]
    else
      when (w.Loose new ∧ new ≠ old)
        ((((w.close new).close old).open new).set new (w.contents old))

/-- What each function is for, where it may be called. -/
def step (w : Lists A) : Op A → Option (Lists A)
  | .initHead h => w.init h
  | .add n h => w.put n h (n :: w.contents h)
  | .addTail n h => w.put n h (w.contents h ++ [n])
  | .del e => w.remove e
  | .delInit e => (w.remove e).bind fun u => u.init e
  | .move e h => (w.remove e).bind fun u => u.put e h (e :: u.contents h)
  | .replace old new => w.replace old new
  | .splice add h =>
    when (w.home add = some add ∧ w.home h = some h ∧ add ≠ h)
      (if w.contents add = [] then w else (w.close add).set h (w.contents add ++ w.contents h))
  | .replaceInit old new => (w.replace old new).bind fun u => u.init old

structure Represents (s : Nodes A) (w : Lists A) : Prop extends w.Valid where
  ring : ∀ h, w.home h = some h → Ring s.next s.prev h (w.contents h)

end LibCoro.CdsList
