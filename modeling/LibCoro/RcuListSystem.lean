import LibCoro.RcuGrace
import LibCoro.RcuListInvariant

namespace LibCoro.RcuList

open Machine Links CdsList Grace

variable {C A : Type} [DecidableEq C] [DecidableEq A]

def State.published (s : State C A) : Act C A → Option (Op A)
  | .store k => s.updating.bind fun (j, op, i) =>
    if j = k ∧ i = op.publishes then some op else none
  | _ => none

def published (p : Rcu.State C × State C A) (x : Rcu.Act C ⊕ Act C A) : Option (Op A) :=
  x.getRight?.bind p.2.published

theorem act_contents {head : A} {inside : C → Bool} {s t : State C A} {a : Act C A}
    (h : act Nodes.setNext head inside s a = some t) :
    t.contents = (s.published a).elim s.contents fun op => op.apply s.contents := by
  cases a with
  | store k =>
    obtain ⟨⟨j, op, i⟩, hu, hs⟩ := Option.bind_eq_some_iff.mp h
    by_cases hj : j = k
    · simp only [hj, if_true] at hs
      obtain ⟨f, -, rfl⟩ := Option.map_eq_some_iff.mp hs
      simp only [State.published, hu, Option.bind_some, hj, true_and]
      split_ifs <;> rfl
    · simp [hj] at hs
  | update k op =>
    unfold act at h
    split_ifs at h
    obtain ⟨u, -, rfl⟩ := Option.map_eq_some_iff.mp h
    rfl
  | start r | write a n p =>
    obtain ⟨-, rfl⟩ := (when_eq_some _ _ _).mp h
    rfl
  | next r =>
    obtain ⟨t', -, hs⟩ := Option.bind_eq_some_iff.mp h
    obtain ⟨-, rfl⟩ := (when_eq_some _ _ _).mp hs
    rfl
  | reclaim k a =>
    obtain ⟨u, -, rfl⟩ := Option.map_eq_some_iff.mp h
    rfl

section system

variable {n : Nat} {head : A} {heads : Rcu.Addr → Rcu.RcuHead} {pointers : Rcu.Addr → Rcu.Addr}
  {nodes : Nodes A} {xs : List (Rcu.Act C ⊕ Act C A)} {p : Rcu.State C × State C A}

theorem inv_run (h : run (Rcu.withClient n (client Nodes.setNext head))
      (Rcu.init heads pointers, init head nodes) xs = some p)
    (hd : Meets (Rcu.step n) Rcu.Disciplined (Rcu.init heads pointers) (Rcu.rcuActs xs))
    (ht : Rcu.tickets (Rcu.rcuActs xs) < 2 ^ 64) : ∃ g, Inv head g p.2 := by
  obtain ⟨g, hg, -⟩ := Rcu.client_run h hd ht
  exact ⟨g, run_invariant (fun p => Inv head p.1 p.2) (fun p x q hp hq => inv_step p x q hp hq) hg
    (inv_init nodes)⟩

theorem Sound.visited {next : A → A} {contents : List A} {t : Traversal A}
    (h : Sound next head contents t) : t.visited.Nodup ∧
      (∀ x ∈ t.visited, x ∈ t.snapshot ∨ x ∈ t.came) ∧
      t.visited.filter (fun x => x ∈ t.snapshot ∧ x ∉ t.lost) <+:
        t.snapshot.filter (fun x => x ∉ t.lost) := by
  obtain ⟨rest, hc⟩ : ∃ rest, Covers contents t (t.visited ++ rest) := by
    cases hf : t.finished with
    | true => exact ⟨[], by rw [List.append_nil]; exact (h.finished hf).2⟩
    | false =>
      obtain ⟨-, rest, -, hc⟩ := h.running hf
      exact ⟨rest, hc⟩
  refine ⟨hc.nodup.sublist (List.sublist_append_left _ _), fun x hx => ?_, ?_⟩
  · exact h.known x (hc.within x (List.mem_append_left rest hx))
  · rw [← hc.steady, List.filter_append]
    exact List.prefix_append _ _

def Applied (es : List (Op A)) (p : Rcu.State C × State C A) : Prop :=
  p.2.contents = es.foldl (fun l op => op.apply l) []

theorem applied_step (es : List (Op A)) (p : Rcu.State C × State C A) (x : Rcu.Act C ⊕ Act C A)
    (q : Rcu.State C × State C A) (h : Applied es p)
    (hq : Rcu.withClient n (client Nodes.setNext head) p x = some q) :
    Applied (es ++ (published p x).toList) q := by
  unfold Applied at h ⊢
  cases x with
  | inl a =>
    obtain ⟨t, -, rfl⟩ := Option.map_eq_some_iff.mp hq
    have he : (es ++ (published p (.inl a)).toList) = es := List.append_nil es
    rw [he, ← h]
    cases Rcu.grace n p.1 a <;> rfl
  | inr a =>
    obtain ⟨-, l, hl, rfl⟩ := Rcu.withClient_inr hq
    have he : published p (.inr a) = p.2.published a := rfl
    rw [List.foldl_append, ← h, he]
    refine (act_contents hl).trans ?_
    cases p.2.published a <;> rfl

end system

/-- Whatever the cores do, the list has what the calls that took effect made of it one after
another, and its links are those of these nodes in their order: for the loops at every moment and
in both directions between the calls. -/
theorem links_consistent (cmmStoreShared : Nodes A → A → A → Nodes A)
    (hstore : ∀ s a b, cmmStoreShared s a b = s.setNext a b) (n : Nat)
    (heads : Rcu.Addr → Rcu.RcuHead) (pointers : Rcu.Addr → Rcu.Addr) (head : A) (nodes : Nodes A)
    (xs : List (Rcu.Act C ⊕ Act C A)) (p : Rcu.State C × State C A)
    (h : run (Rcu.withClient n (client cmmStoreShared head))
      (Rcu.init heads pointers, init head nodes) xs = some p)
    (hd : Meets (Rcu.step n) Rcu.Disciplined (Rcu.init heads pointers) (Rcu.rcuActs xs))
    (ht : Rcu.tickets (Rcu.rcuActs xs) < 2 ^ 64) :
    p.2.contents = (trace (Rcu.withClient n (client cmmStoreShared head)) published
        (Rcu.init heads pointers, init head nodes) xs).foldl (fun l op => op.apply l) [] ∧
      (head :: p.2.contents).Nodup ∧ Path p.2.nodes.next head p.2.contents head ∧
      (p.2.updating = none → Ring p.2.nodes.next p.2.nodes.prev head p.2.contents) := by
  obtain rfl : cmmStoreShared = Nodes.setNext := funext fun s => funext₂ (hstore s)
  obtain ⟨g, hi⟩ := inv_run h hd ht
  have hstart : Applied [] ((Rcu.init heads pointers, init head nodes) :
      Rcu.State C × State C A) := rfl
  have hcontents := trace_invariant published Applied applied_step h hstart
  refine ⟨hcontents, hi.nodup, hi.forward, fun hu => ⟨hi.forward, ?_⟩⟩
  have hup := hi.updating
  simpa only [Updating, hu] using hup

theorem links_consistent_del : ∃ p : Rcu.State (Fin 1) × State (Fin 1) (Fin 8),
    run (Rcu.withClient 1 (client Nodes.setNext 0))
      (Rcu.init (fun _ => ⟨none, 0, 0⟩) id, init 0 ⟨id, id⟩)
      [.inl (.resume 0 0), .inr (.update 0 (.add 6)), .inr (.store 0), .inr (.store 0),
        .inr (.store 0), .inr (.store 0), .inr (.update 0 (.add 5)), .inr (.store 0),
        .inr (.store 0), .inr (.store 0), .inr (.store 0), .inr (.update 0 (.del 6)),
        .inr (.store 0), .inr (.store 0)] = some p ∧ p.2.updating = none ∧
      Ring p.2.nodes.next p.2.nodes.prev 0 [5] :=
  ⟨_, rfl, rfl, (links_consistent Nodes.setNext (fun _ _ _ => rfl) 1 (fun _ => ⟨none, 0, 0⟩) id
    (0 : Fin 8) ⟨id, id⟩
    [.inl (.resume 0 0), .inr (.update 0 (.add 6)), .inr (.store 0), .inr (.store 0),
      .inr (.store 0), .inr (.store 0), .inr (.update 0 (.add 5)), .inr (.store 0),
      .inr (.store 0), .inr (.store 0), .inr (.store 0), .inr (.update 0 (.del 6)),
      .inr (.store 0), .inr (.store 0)] _ rfl (by decide) (by decide)).2.2.2 rfl⟩

/-- No loop inside a read-side section comes to memory that was freed. -/
theorem loops_on_live_nodes (cmmStoreShared : Nodes A → A → A → Nodes A)
    (hstore : ∀ s a b, cmmStoreShared s a b = s.setNext a b) (n : Nat)
    (heads : Rcu.Addr → Rcu.RcuHead) (pointers : Rcu.Addr → Rcu.Addr) (head : A) (nodes : Nodes A)
    (xs : List (Rcu.Act C ⊕ Act C A)) (p : Rcu.State C × State C A) (r : C) (t : Traversal A)
    (h : run (Rcu.withClient n (client cmmStoreShared head))
      (Rcu.init heads pointers, init head nodes) xs = some p)
    (hd : Meets (Rcu.step n) Rcu.Disciplined (Rcu.init heads pointers) (Rcu.rcuActs xs))
    (ht : Rcu.tickets (Rcu.rcuActs xs) < 2 ^ 64) (hr : p.2.reading r = some t) :
    p.2.custody.phase t.pos ≠ .free := by
  obtain rfl : cmmStoreShared = Nodes.setNext := funext fun s => funext₂ (hstore s)
  obtain ⟨g, hi⟩ := inv_run h hd ht
  exact hi.pos_not_free hr

theorem loops_on_live_nodes_del : ∃ (p : Rcu.State (Fin 2) × State (Fin 2) (Fin 8))
    (t : Traversal (Fin 8)),
    run (Rcu.withClient 2 (client Nodes.setNext 0))
      (Rcu.init (fun _ => ⟨none, 0, 0⟩) id, init 0 ⟨id, id⟩)
      [.inl (.resume 1 1), .inr (.update 1 (.add 5)), .inr (.store 1), .inr (.store 1),
        .inr (.store 1), .inr (.store 1), .inl (.resume 0 0), .inl (.readLock 0), .inl (.advance 0),
        .inl (.advance 0), .inr (.start 0), .inr (.next 0), .inr (.update 1 (.del 5)),
        .inr (.store 1), .inr (.store 1), .inl (.synchronize 1), .inl (.advance 1)] = some p ∧
      p.2.reading 0 = some t ∧ p.1.pc 1 = .syncYield 1 1 0 ∧ t.pos = 5 ∧ p.2.contents = [] ∧
      p.2.custody.phase t.pos ≠ .free :=
  ⟨_, _, rfl, rfl, rfl, rfl, rfl, loops_on_live_nodes Nodes.setNext (fun _ _ _ => rfl) 2
    (fun _ => ⟨none, 0, 0⟩) id (0 : Fin 8) ⟨id, id⟩
    [.inl (.resume 1 1), .inr (.update 1 (.add 5)), .inr (.store 1), .inr (.store 1),
      .inr (.store 1), .inr (.store 1), .inl (.resume 0 0), .inl (.readLock 0), .inl (.advance 0),
      .inl (.advance 0), .inr (.start 0), .inr (.next 0), .inr (.update 1 (.del 5)),
      .inr (.store 1), .inr (.store 1), .inl (.synchronize 1), .inl (.advance 1)]
    _ 0 _ rfl (by decide) (by decide) rfl⟩

/-- A loop comes to no node twice and to none that was not in the list while it ran; it comes to
the nodes that stayed in their order, and at its end to all of them. -/
theorem loops_visit_lasting (cmmStoreShared : Nodes A → A → A → Nodes A)
    (hstore : ∀ s a b, cmmStoreShared s a b = s.setNext a b) (n : Nat)
    (heads : Rcu.Addr → Rcu.RcuHead) (pointers : Rcu.Addr → Rcu.Addr) (head : A) (nodes : Nodes A)
    (xs : List (Rcu.Act C ⊕ Act C A)) (p : Rcu.State C × State C A) (r : C) (t : Traversal A)
    (h : run (Rcu.withClient n (client cmmStoreShared head))
      (Rcu.init heads pointers, init head nodes) xs = some p)
    (hd : Meets (Rcu.step n) Rcu.Disciplined (Rcu.init heads pointers) (Rcu.rcuActs xs))
    (ht : Rcu.tickets (Rcu.rcuActs xs) < 2 ^ 64) (hr : p.2.reading r = some t) :
    t.visited.Nodup ∧ (∀ x ∈ t.visited, x ∈ t.snapshot ∨ x ∈ t.came) ∧
      t.visited.filter (fun x => x ∈ t.snapshot ∧ x ∉ t.lost) <+:
        t.snapshot.filter (fun x => x ∉ t.lost) ∧
      (t.finished = true → t.visited.filter (fun x => x ∈ t.snapshot ∧ x ∉ t.lost) =
        t.snapshot.filter (fun x => x ∉ t.lost)) := by
  obtain rfl : cmmStoreShared = Nodes.setNext := funext fun s => funext₂ (hstore s)
  obtain ⟨g, hi⟩ := inv_run h hd ht
  have hs := hi.sound r t hr
  obtain ⟨hnd, hin, hpre⟩ := hs.visited
  exact ⟨hnd, hin, hpre, fun hf => (hs.finished hf).2.steady⟩

theorem loops_visit_lasting_del : ∃ (p : Rcu.State (Fin 2) × State (Fin 2) (Fin 8))
    (t : Traversal (Fin 8)),
    run (Rcu.withClient 2 (client Nodes.setNext 0))
      (Rcu.init (fun _ => ⟨none, 0, 0⟩) id, init 0 ⟨id, id⟩)
      [.inl (.resume 1 1), .inr (.update 1 (.addTail 4)), .inr (.store 1), .inr (.store 1),
        .inr (.store 1), .inr (.store 1), .inr (.update 1 (.addTail 5)), .inr (.store 1),
        .inr (.store 1), .inr (.store 1), .inr (.store 1), .inr (.update 1 (.addTail 6)),
        .inr (.store 1), .inr (.store 1), .inr (.store 1), .inr (.store 1), .inl (.resume 0 0),
        .inl (.readLock 0), .inl (.advance 0), .inl (.advance 0), .inr (.start 0), .inr (.next 0),
        .inr (.next 0), .inr (.update 1 (.del 5)), .inr (.store 1), .inr (.store 1), .inr (.next 0),
        .inr (.update 1 (.replace 6 7)), .inr (.store 1), .inr (.store 1), .inr (.store 1),
        .inr (.next 0)] = some p ∧
      p.2.reading 0 = some t ∧ t.visited = [4, 5, 6] ∧ t.snapshot = [4, 5, 6] ∧ t.lost = [5, 6] ∧
      t.visited.filter (fun x => x ∈ t.snapshot ∧ x ∉ t.lost) =
        t.snapshot.filter (fun x => x ∉ t.lost) :=
  ⟨_, _, rfl, rfl, rfl, rfl, rfl,
    (loops_visit_lasting Nodes.setNext (fun _ _ _ => rfl) 2 (fun _ => ⟨none, 0, 0⟩) id (0 : Fin 8)
      ⟨id, id⟩
      [.inl (.resume 1 1), .inr (.update 1 (.addTail 4)), .inr (.store 1), .inr (.store 1),
        .inr (.store 1), .inr (.store 1), .inr (.update 1 (.addTail 5)), .inr (.store 1),
        .inr (.store 1), .inr (.store 1), .inr (.store 1), .inr (.update 1 (.addTail 6)),
        .inr (.store 1), .inr (.store 1), .inr (.store 1), .inr (.store 1), .inl (.resume 0 0),
        .inl (.readLock 0), .inl (.advance 0), .inl (.advance 0), .inr (.start 0), .inr (.next 0),
        .inr (.next 0), .inr (.update 1 (.del 5)), .inr (.store 1), .inr (.store 1), .inr (.next 0),
        .inr (.update 1 (.replace 6 7)), .inr (.store 1), .inr (.store 1), .inr (.store 1),
        .inr (.next 0)]
      _ 0 _ rfl (by decide) (by decide) rfl).2.2.2 rfl⟩

end LibCoro.RcuList
