import LibCoro.ReclaimLinks

namespace LibCoro.Reclaim

open Machine Chain Rcu

def Act.takesTicket : Act → Bool
  | .fetchAdd => true
  | .callRcu _ _ => true
  | .freeRcu _ => true
  | _ => false

def TicketsLeft (s : State) (a : Act) : Prop := a.takesTicket = true → s.sequencer + 1 < 2 ^ 64 - 1

instance (s : State) (a : Act) : Decidable (TicketsLeft s a) :=
  inferInstanceAs (Decidable (a.takesTicket = true → s.sequencer + 1 < 2 ^ 64 - 1))

/-- `rcu_data` agrees with the callbacks `q` that are due. -/
structure Tracks (s : State) (q : List (Addr × Addr)) : Prop where
  count : s.data.count = q.length
  empty : s.data.head = none ↔ s.data.tail = none
  zero : s.data.head = none ↔ s.data.count = 0
  ordered : ∃ l, Linked s.links s.data.head l ∧
    l.Pairwise fun a b => (s.heads a).version < (s.heads b).version
  drains : ∀ head func, (callRcu s head func).frames = .scan uintMax 0 :: s.frames ↔
    1024 ≤ q.length + 1

/-- What is left of it once callbacks ran: the queue holds what is due, in the order of the tickets. -/
structure Tidy (s : State) (q : List (Addr × Addr)) : Prop where
  empty : s.data.head = none ↔ s.data.tail = none
  due : s.data.head = none ↔ q = []
  linked : Linked s.links s.data.head (q.map Prod.fst)
  ordered : (q.map Prod.fst).Pairwise fun a b => (s.heads a).version < (s.heads b).version

def registrations (es : List Event) : Nat := es.countP (Event.registers fun _ => true)

structure Aged (s : State) : Prop where
  ordered : s.registered.Pairwise fun a b => (s.heads a).version < (s.heads b).version
  taken : ∀ a ∈ s.registered, (s.heads a).version ≤ s.sequencer

structure Rests (s : State) (a : Act) (t : State) : Prop where
  count : t.data.count = s.data.count
  registered : t.registered.Sublist s.registered
  version : ∀ b ∈ s.registered, (t.heads b).version = (s.heads b).version
  sequencer : t.sequencer = if a.takesTicket then ticket s else s.sequencer
  silent : registrations (emit s a).toList = 0

section step

variable {n c : Nat} {es : List Event} {s t : State} {a : Act}

theorem rests_advance (h : step n c s .advance = some t) : Rests s .advance t := by
  have hsilent : registrations (emit s .advance).toList = 0 := by
    change registrations ((calls s).map fun head => Event.ran head (s.heads head).func).toList = 0
    cases calls s <;> rfl
  cases advances_of_step h with
  | look _ _ _ _ _ _ _ => exact ⟨rfl, List.Sublist.refl _, fun _ _ => rfl, rfl, hsilent⟩
  | looked _ _ _ _ _ => exact ⟨rfl, List.Sublist.refl _, fun _ _ => rfl, rfl, hsilent⟩
  | leave _ _ _ _ _ => exact ⟨rfl, List.Sublist.refl _, fun _ _ => rfl, rfl, hsilent⟩
  | call m b rest hf hm =>
    exact ⟨rfl, List.erase_sublist, fun _ _ => rfl, rfl, hsilent⟩

theorem rests_of_step (h : step n c s a = some t) (hd : Disciplined s a) (ha : a.head = none) :
    Rests s a t := by
  cases a with
  | publish core version =>
    obtain rfl := Option.some.inj h
    exact ⟨rfl, List.Sublist.refl _, fun _ _ => rfl, rfl, rfl⟩
  | fetchAdd =>
    obtain rfl := Option.some.inj h
    exact ⟨rfl, List.Sublist.refl _, fun _ _ => rfl, rfl, rfl⟩
  | write b value =>
    obtain rfl := Option.some.inj h
    refine ⟨rfl, List.Sublist.refl _, fun d hdr => ?_, rfl, rfl⟩
    have hne : d ≠ b := by
      rintro rfl
      exact hd hdr
    simp [hne]
  | callRcu _ _ => cases ha
  | freeRcu _ => cases ha
  | threadCallRcu =>
    obtain ⟨-, rfl⟩ := (when_eq_some _ _ _).mp h
    exact ⟨rfl, List.Sublist.refl _, fun _ _ => rfl, rfl, rfl⟩
  | advance => exact rests_advance h
  | ret =>
    obtain ⟨m, head, node, rest, hf, rfl⟩ := returns_of_step h
    exact ⟨rfl, List.Sublist.refl _, fun _ _ => rfl, rfl, rfl⟩

theorem takesTicket_of_head {head : Addr} (ha : a.head = some head) : a.takesTicket = true := by
  cases a <;> first | rfl | cases ha

theorem ticket_of_left (h : s.sequencer + 1 < 2 ^ 64 - 1) : ticket s = s.sequencer + 1 :=
  Nat.mod_eq_of_lt (by omega)

theorem registrations_append (es es' : List Event) :
    registrations (es ++ es') = registrations es + registrations es' := List.countP_append

theorem count_step (hi : s.data.count = registrations es % 2 ^ 64) (hd : Disciplined s a)
    (h : step n c s a = some t) :
    t.data.count = registrations (es ++ (emit s a).toList) % 2 ^ 64 := by
  rw [registrations_append]
  cases ha : a.head with
  | none =>
    have hr := rests_of_step h hd ha
    rw [hr.count, hr.silent, hi, Nat.add_zero]
  | some head =>
    obtain ⟨-, func, ht, hemit⟩ := step_head h ha
    have hone : registrations (emit s a).toList = 1 := by
      rw [hemit]
      rfl
    rw [ht.data, hone]
    change (s.data.count + 1) % 2 ^ 64 = _
    omega

theorem ticket_step (hi : registrations es ≤ s.sequencer ∧ s.sequencer < 2 ^ 64 - 1)
    (hd : Disciplined s a) (hw : TicketsLeft s a) (h : step n c s a = some t) :
    registrations (es ++ (emit s a).toList) ≤ t.sequencer ∧ t.sequencer < 2 ^ 64 - 1 := by
  rw [registrations_append]
  cases ha : a.head with
  | none =>
    have hr := rests_of_step h hd ha
    rw [hr.silent, hr.sequencer]
    cases hk : a.takesTicket with
    | false => simpa using hi
    | true =>
      have hleft := hw hk
      rw [if_pos rfl, ticket_of_left hleft]
      omega
  | some head =>
    obtain ⟨-, func, ht, hemit⟩ := step_head h ha
    have hone : registrations (emit s a).toList = 1 := by
      rw [hemit]
      rfl
    have hleft := hw (takesTicket_of_head ha)
    rw [hone, ht.sequencer, ticket_of_left hleft]
    omega

theorem aged_step (hi : Aged s) (hd : Disciplined s a) (hw : TicketsLeft s a)
    (h : step n c s a = some t) : Aged t := by
  cases ha : a.head with
  | none =>
    have hr := rests_of_step h hd ha
    have hseq : s.sequencer ≤ t.sequencer := by
      rw [hr.sequencer]
      cases hk : a.takesTicket with
      | false => simp
      | true =>
        rw [if_pos rfl, ticket_of_left (hw hk)]
        omega
    refine ⟨?_, fun b hb => ?_⟩
    · apply List.Pairwise.imp_of_mem ?_ (hi.ordered.sublist hr.registered)
      intro b d hb hd hlt
      rw [hr.version b (hr.registered.subset hb), hr.version d (hr.registered.subset hd)]
      exact hlt
    · rw [hr.version b (hr.registered.subset hb)]
      exact (hi.taken b (hr.registered.subset hb)).trans hseq
  | some head =>
    obtain ⟨-, func, ht, -⟩ := step_head h ha
    have hnew := (disciplined_head hd ha).1
    have hold : ∀ b ∈ s.registered, (t.heads b).version = (s.heads b).version := by
      intro b hb
      have hne : b ≠ head := by
        rintro rfl
        exact hnew hb
      rw [ht.version, if_neg hne]
    have hhead : (t.heads head).version = t.sequencer := by
      rw [ht.version, if_pos rfl, ht.sequencer]
    have hseq : s.sequencer < t.sequencer := by
      rw [ht.sequencer, ticket_of_left (hw (takesTicket_of_head ha))]
      omega
    refine ⟨?_, fun b hb => ?_⟩
    · rw [ht.registered, List.pairwise_append]
      refine ⟨?_, List.pairwise_singleton _ _, fun b hb d hd => ?_⟩
      · apply List.Pairwise.imp_of_mem ?_ hi.ordered
        intro b d hb hd hlt
        rw [hold b hb, hold d hd]
        exact hlt
      · obtain rfl := List.mem_singleton.mp hd
        rw [hold b hb, hhead]
        exact (hi.taken b hb).trans_lt hseq
    · rw [ht.registered, List.mem_append] at hb
      obtain hb | hb := hb
      · rw [hold b hb]
        exact (hi.taken b hb).trans hseq.le
      · obtain rfl := List.mem_singleton.mp hb
        exact hhead.le

theorem tidy_of_inv {q : List (Addr × Addr)} (hi : Inv es s q) (hf : s.frames = []) (ha : Aged s) :
    Tidy s q := by
  have hw : Waiting s.links s.data s.registered := by
    apply hi.stage.waiting
    rw [State.running, hf]
    rfl
  refine ⟨hw.head_none.trans hw.tail_none.symm, ?_, hi.registered ▸ hw.linked,
    hi.registered ▸ ha.ordered⟩
  rw [hw.head_none, hi.registered, List.map_eq_nil_iff]

theorem tracks_of_tidy {q : List (Addr × Addr)} (hi : Tidy s q) (hcount : s.data.count = q.length)
    (hq : q.length + 1 < 2 ^ 64) : Tracks s q := by
  refine ⟨hcount, hi.empty, ?_, ⟨_, hi.linked, hi.ordered⟩, ?_⟩
  · rw [hi.due, hcount, List.length_eq_zero_iff]
  · intro head func
    rw [(callRcu_registers s head func).frames, hcount, Nat.mod_eq_of_lt hq]
    by_cases hle : 1024 ≤ q.length + 1 <;> simp [hle]

end step

section run

variable {n c : Nat} {heads : Addr → RcuHead} {as : List Act} {t : State}

theorem count_run (h : run (step n c) (init heads) as = some t)
    (hd : Meets (step n c) Disciplined (init heads) as) :
    t.data.count = registrations (trace (step n c) emit (init heads) as) % 2 ^ 64 := by
  have hr := trace_invariant_of_meets emit _
    (fun es s => s.data.count = registrations es % 2 ^ 64)
    (fun es s a t hi hd hstep => count_step hi hd hstep) h hd
    (show (init heads).data.count = registrations [] % 2 ^ 64 from rfl)
  simpa using hr

theorem ticket_run (h : run (step n c) (init heads) as = some t)
    (hd : Meets (step n c) (fun s a => Disciplined s a ∧ TicketsLeft s a) (init heads) as) :
    registrations (trace (step n c) emit (init heads) as) ≤ t.sequencer ∧
      t.sequencer < 2 ^ 64 - 1 := by
  have hr := trace_invariant_of_meets emit _
    (fun es s => registrations es ≤ s.sequencer ∧ s.sequencer < 2 ^ 64 - 1)
    (fun es s a t hi hok hstep => ticket_step hi hok.1 hok.2 hstep) h hd
    (show registrations [] ≤ (init heads).sequencer ∧ (init heads).sequencer < 2 ^ 64 - 1 by
      simp [init, registrations])
  simpa using hr

theorem aged_run (h : run (step n c) (init heads) as = some t)
    (hd : Meets (step n c) (fun s a => Disciplined s a ∧ TicketsLeft s a) (init heads) as) :
    Aged t :=
  run_invariant_of_meets _ Aged (fun _ _ _ hi hok hstep => aged_step hi hok.1 hok.2 hstep) h hd
    ⟨List.Pairwise.nil, by simp [init]⟩

theorem runs_zero (es : List Event) :
    es.countP (Event.runs fun _ => true) = 0 ↔ ∀ head func, .ran head func ∉ es := by
  rw [List.countP_eq_zero]
  constructor
  · intro h head func hm
    exact h _ hm rfl
  · intro h e he
    cases e with
    | registered _ _ => simp [Event.runs]
    | ran head func => exact absurd he (h head func)

/-- Between calls the queue holds what is due, as long as no drain within a callback calls one. -/
theorem tidy_run (h : run (step n c) (init heads) as = some t)
    (hd : Meets (step n c) (fun s a => Disciplined s a ∧ NullNext s a ∧ Outside s a) (init heads) as)
    (hw : Meets (step n c) TicketsLeft (init heads) as) (hf : t.frames = [])
    (hnest : Meets (step n c) NotNested (init heads) as) :
    ∃ q, due (trace (step n c) emit (init heads) as) = some q ∧ Tidy t q := by
  obtain ⟨q, hi⟩ := inv_run_outside h (meets_mono (fun s a hok =>
    ⟨⟨hok.1.1, hok.1.2.2⟩, hok.1.2.1, hok.2⟩) ((meets_and _ _).mpr ⟨hd, hnest⟩))
  refine ⟨q, hi.due, tidy_of_inv hi hf (aged_run h ?_)⟩
  exact meets_mono (fun s a hok => ⟨hok.1.1, hok.2⟩) ((meets_and _ _).mpr ⟨hd, hw⟩)

/-- Between calls `count` is what is due as long as no callback ran; it counts those that ran.
The rest of the queue is right as long as no drain within a callback calls one. -/
theorem count_tracks (h : run (step n c) (init heads) as = some t)
    (hd : Meets (step n c) (fun s a => Disciplined s a ∧ NullNext s a ∧ Outside s a) (init heads) as)
    (hw : Meets (step n c) TicketsLeft (init heads) as) (hf : t.frames = []) :
    ((∃ q, due (trace (step n c) emit (init heads) as) = some q ∧ Tracks t q) ↔
      ∀ head func, .ran head func ∉ trace (step n c) emit (init heads) as) ∧
    (Meets (step n c) NotNested (init heads) as →
      ∃ q, due (trace (step n c) emit (init heads) as) = some q ∧ Tidy t q) := by
  refine ⟨?_, tidy_run h hd hw hf⟩
  have hd₁ : Meets (step n c) Disciplined (init heads) as := meets_mono (fun s a hok => hok.1) hd
  have hseq := ticket_run h ((meets_and _ _).mpr ⟨hd₁, hw⟩)
  have hcount : t.data.count = registrations (trace (step n c) emit (init heads) as) := by
    rw [count_run h hd₁, Nat.mod_eq_of_lt (by omega)]
  have hsplit : ∀ q, due (trace (step n c) emit (init heads) as) = some q →
      registrations (trace (step n c) emit (init heads) as) =
        (trace (step n c) emit (init heads) as).countP (Event.runs fun _ => true) + q.length := by
    intro q hq
    have hb := due_balance (fun _ => true) hq
    rw [List.countP_true] at hb
    exact hb
  rw [← runs_zero]
  constructor
  · rintro ⟨q, hq, ht⟩
    have hlen := hsplit q hq
    have hc := ht.count
    omega
  · intro hquiet
    have hran := (runs_zero _).mp hquiet
    have hnest : Meets (step n c) NotNested (init heads) as := by
      refine meets_mono (fun s a he => notNested_of_silent fun _ head func hr => he _ hr head func rfl)
        (meets_of_trace (fun e => ∀ head func, e ≠ Event.ran head func) h ?_)
      intro e he head func heq
      exact hran head func (heq ▸ he)
    obtain ⟨q, hq, ht⟩ := tidy_run h hd hw hf hnest
    have hlen := hsplit q hq
    exact ⟨q, hq, tracks_of_tidy ht (by omega) (by omega)⟩

theorem count_tracks_partial : ∃ t q,
    run (step 2 0) (init zeroed) [.publish 1 0, .callRcu 1 5, .fetchAdd, .freeRcu 2, .threadCallRcu,
      .advance, .advance, .advance, .advance] = some t ∧ t.frames = [] ∧ q.length = 2 ∧ Tracks t q := by
  have hsome : (run (step 2 0) (init zeroed) [.publish 1 0, .callRcu 1 5, .fetchAdd, .freeRcu 2,
      .threadCallRcu, .advance, .advance, .advance, .advance]).map State.frames = some [] := by decide
  obtain ⟨t, ht, hf⟩ := Option.map_eq_some_iff.mp hsome
  have htrace : trace (step 2 0) emit (init zeroed) [.publish 1 0, .callRcu 1 5, .fetchAdd,
      .freeRcu 2, .threadCallRcu, .advance, .advance, .advance, .advance] =
        [.registered 1 5, .registered 2 _free_rcu] := by decide
  obtain ⟨q, hq, htr⟩ := (count_tracks ht (by decide) (by decide) hf).1.mpr (by simp [htrace])
  rw [htrace] at hq
  obtain rfl : [(1, 5), (2, _free_rcu)] = q := Option.some.inj hq
  exact ⟨t, _, ht, hf, rfl, htr⟩

/-- The callback of the only registered head ran, and `count` still is one. -/
theorem count_not_decremented :
    ¬ ∀ (n c : Nat) (heads : Addr → RcuHead) (as : List Act) (t : State),
      run (step n c) (init heads) as = some t →
      Meets (step n c) (fun s a => Disciplined s a ∧ NullNext s a ∧ Outside s a) (init heads) as →
      t.frames = [] →
      ∃ q, due (trace (step n c) emit (init heads) as) = some q ∧ Tracks t q := by
  intro H
  let as : List Act := .callRcu 1 5 :: drainTwo.take 6
  have hsome : (run (step 1 0) (init zeroed) as).map (fun t => (t.frames, t.data.count)) =
      some ([], 1) := by decide
  obtain ⟨t, ht, he⟩ := Option.map_eq_some_iff.mp hsome
  obtain ⟨hf, hc⟩ := Prod.mk.inj he
  have hm : Meets (step 1 0) (fun s a => Disciplined s a ∧ NullNext s a ∧ Outside s a)
      (init zeroed) as := by decide
  obtain ⟨q, hq, htr⟩ := H 1 0 zeroed as t ht hm hf
  have hdue : due (trace (step 1 0) emit (init zeroed) as) = some [] := by decide
  obtain rfl : [] = q := Option.some.inj (hdue.symm.trans hq)
  exact absurd (hc.symm.trans htr.count) (by decide)

end run

end LibCoro.Reclaim
