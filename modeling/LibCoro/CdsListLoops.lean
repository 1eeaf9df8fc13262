import LibCoro.CdsListRefinement

namespace LibCoro.CdsList

open Machine Links

variable {A : Type} [DecidableEq A]

def order (backward : Bool) (l : List A) : List A := if backward then l.reverse else l

/-- The calls that the body of a loop makes for the nodes of `l`, one after another. `ok` says what
becomes of the list the loop goes over. -/
inductive Turns (head : A) (body : A → List (Op A)) (ok : A → List A → List A → Prop) :
    Lists A → List A → Lists A → Prop where
  | done (w : Lists A) : Turns head body ok w [] w
  | turn {w u v : Lists A} {x : A} {l : List A} (hrun : run step w (body x) = some u)
      (hhead : u.home head = some head) (hok : ok x (w.contents head) (u.contents head))
      (rest : Turns head body ok u l v) : Turns head body ok w (x :: l) v

/-- The body leaves the list as it is. -/
def Keeps (_ : A) (l l' : List A) : Prop := l' = l

variable {names : Undeclared A} {s : Nodes A} {w w' : Lists A} {head : A} {backward : Bool}

omit [DecidableEq A] in
theorem path_order (hr : Represents s w) (hh : w.home head = some head) :
    Path (s.link backward) head (order backward (w.contents head)) head := by
  cases backward
  · exact (hr.ring head hh).forward
  · exact (hr.ring head hh).backward

omit [DecidableEq A] in
theorem mem_order {x : A} {l : List A} : x ∈ order backward l ↔ x ∈ l := by
  cases backward <;> simp [order]

omit [DecidableEq A] in
theorem link_order (l₁ l₂ : List A) (hr : Represents s w) (hh : w.home head = some head) {x : A}
    (ho : order backward (w.contents head) = l₁ ++ x :: l₂) :
    s.link backward x = first l₂ head := by
  have hp : Path (s.link backward) head (order backward (w.contents head)) head := path_order hr hh
  rw [ho] at hp
  exact hp.behind

omit [DecidableEq A] in
theorem ne_head (hr : Represents s w) (hh : w.home head = some head) {l₁ l₂ : List A} {x : A}
    (ho : order backward (w.contents head) = l₁ ++ x :: l₂) : x ≠ head := by
  rintro rfl
  have hx : x ∈ order backward (w.contents x) := by simp [ho]
  exact hr.not_mem hh (mem_order.mp hx)

theorem forEach_spec (hnames : names.Usual) {body : A → List (Op A)} {todo l : List A} {fuel : Nat}
    (hr : Represents s w) (hh : w.home head = some head)
    (ho : order backward (w.contents head) = l ++ todo)
    (ht : Turns head body Keeps w todo w') (hf : todo.length < fuel) :
    ∃ t, forEach backward head (fun s x => (body x).foldl (exec names) s) fuel s (first todo head) =
      some (todo, t) ∧ Represents t w' := by
  induction ht generalizing s l fuel with
  | done w =>
    obtain ⟨fuel, rfl⟩ := Nat.exists_eq_add_of_lt hf
    exact ⟨s, by simp [forEach], hr⟩
  | @turn w u v x rest hrun hhead hok hrest ih =>
    cases fuel with
    | zero => exact absurd hf (Nat.not_lt_zero _)
    | succ fuel =>
      have hr' := represents_run hnames hr hrun
      have ho' : order backward (u.contents head) = l ++ x :: rest := by rw [hok, ho]
      have ho'' : order backward (u.contents head) = (l ++ [x]) ++ rest := by simp [ho']
      have hlen : rest.length < fuel := by simpa using hf
      obtain ⟨t, hloop, ht⟩ := ih hr' hhead ho'' hlen
      refine ⟨t, ?_, ht⟩
      rw [first_cons, forEach, if_neg (ne_head hr hh ho)]
      dsimp only
      rw [link_order _ _ hr' hhead ho', hloop]
      rfl

omit [DecidableEq A] in
theorem represents_none (s : Nodes A) : Represents s ⟨fun _ => none, fun _ => []⟩ :=
  ⟨⟨nofun, nofun, nofun⟩, nofun⟩

omit [DecidableEq A] in
theorem first_order (hr : Represents s w) (hh : w.home head = some head) :
    s.link backward head = first (order backward (w.contents head)) head :=
  (path_order hr hh).first

theorem turns_self (w : Lists A) {l : List A} (hh : w.home head = some head) :
    Turns head (fun _ => []) Keeps w l w := by
  induction l with
  | nil => exact .done w
  | cons x l ih => exact .turn rfl hh rfl ih

/-- After any calls, on memory that held anything before, a walk over a list in either direction
visits what the calls put there. -/
theorem lists_walked (names : Undeclared A) (hnames : names.Usual) (s : Nodes A)
    (ops : List (Op A)) (w : Lists A) (head : A)
    (h : run step ⟨fun _ => none, fun _ => []⟩ ops = some w) (hh : w.home head = some head)
    (fuel : Nat) (hf : (w.contents head).length < fuel) :
    (cdsListForEach head (fun t _ => t) fuel (ops.foldl (exec names) s)).map Prod.fst =
        some (w.contents head) ∧
      (cdsListForEachPrev head (fun t _ => t) fuel (ops.foldl (exec names) s)).map Prod.fst =
        some (w.contents head).reverse ∧
      (cdsListEmpty (ops.foldl (exec names) s) head = true ↔ w.contents head = []) := by
  have hr := represents_run hnames (represents_none s) h
  have hloop : ∀ backward : Bool,
      (forEach backward head (fun t _ => t) fuel (ops.foldl (exec names) s)
        ((ops.foldl (exec names) s).link backward head)).map Prod.fst =
          some (order backward (w.contents head)) := by
    intro backward
    have hlen : (order backward (w.contents head)).length < fuel := by
      cases backward <;> simpa [order] using hf
    obtain ⟨t, ht, -⟩ := forEach_spec (l := []) hnames hr hh rfl (turns_self w hh) hlen
    rw [first_order hr hh]
    exact congrArg (Option.map Prod.fst) ht
  refine ⟨hloop false, hloop true, ?_⟩
  have hfirst : (ops.foldl (exec names) s).next head = first (w.contents head) head :=
    (hr.ring head hh).forward.first
  rw [cdsListEmpty, decide_eq_true_iff]
  constructor
  · intro he
    by_contra hne
    have hmem := first_mem_self head hne
    have hself : first (w.contents head) head = head := hfirst.symm.trans he.symm
    rw [hself] at hmem
    exact hr.not_mem hh hmem
  · intro hnil
    rw [hnil] at hfirst
    exact hfirst.symm

theorem lists_walked_spliced :
    (cdsListForEachPrev 0 (fun t _ => t) 5 ([.initHead 0, .initHead 9, .add 1 0, .addTail 2 0,
      .add 3 9, .addTail 4 9, .splice 9 0, .delInit 1, .replaceInit 4 5, .add 1 0].foldl
        (exec .usual) ⟨id, id⟩)).map Prod.fst = some [2, 5, 3, 1] :=
  (lists_walked .usual Undeclared.usual_usual ⟨id, id⟩ [.initHead 0, .initHead 9, .add 1 0,
    .addTail 2 0, .add 3 9, .addTail 4 9, .splice 9 0, .delInit 1, .replaceInit 4 5, .add 1 0]
    _ 0 rfl rfl 5 (by decide)).2.1

end LibCoro.CdsList
