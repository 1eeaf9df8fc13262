import LibCoro.Reclaim

namespace LibCoro.Reclaim

open Machine Chain Rcu

/-- What is waiting is a queue from `rcu_data.head`. -/
abbrev Waiting (links : Addr → Option Addr) (data : CallRcuData) (l : List Addr) : Prop :=
  TailQueue links data.head data.tail l

/-- In a callback the queue still starts at its head, and what waits follows the `node`
that was read before. -/
structure Behind (links : Addr → Option Addr) (data : CallRcuData) (head : Addr)
    (node : Option Addr) (l : List Addr) : Prop where
  first : data.head = some head
  linked : Linked links node l
  last : data.tail = (head :: l).getLast?
  gone : head ∉ l

/-- What the activations know of the queue; only the outermost one calls callbacks. -/
inductive Stage (links : Addr → Option Addr) (data : CallRcuData) (l : List Addr) :
    List Frame → Prop
  | out (h : Waiting links data l) : Stage links data l []
  | scan (m i : Nat) (h : Waiting links data l) : Stage links data l [.scan m i]
  | loop (m : Nat) (h : Waiting links data l) : Stage links data l [.loop m data.head]
  | callback (m : Nat) (head : Addr) (node : Option Addr) (h : Behind links data head node l) :
      Stage links data l [.callback m head node]
  | nestedScan (m' i m : Nat) (head : Addr) (node : Option Addr)
      (h : Behind links data head node l) :
      Stage links data l [.scan m' i, .callback m head node]
  | nestedLoop (m' m : Nat) (head : Addr) (node : Option Addr)
      (h : Behind links data head node l) :
      Stage links data l [.loop m' (some head), .callback m head node]

structure Inv (es : List Event) (s : State) (q : List (Addr × Addr)) : Prop where
  due : due es = some q
  registered : s.registered = q.map Prod.fst
  func : ∀ p ∈ q, (s.heads p.1).func = p.2
  stage : Stage s.links s.data s.registered s.frames

theorem due_snoc {es : List Event} {q : List (Addr × Addr)} (h : due es = some q) (e : Event) :
    due (es ++ [e]) = serve q e := by
  apply Option.ext
  intro q'
  simp only [due, run_append, run_cons, run_nil]
  constructor
  · rintro ⟨r, hr, u, hu, rfl⟩
    obtain rfl : q = r := Option.some.inj (h.symm.trans hr)
    exact hu
  · intro hq'
    exact ⟨q, h, q', hq', rfl⟩

theorem serve_balance (p : Addr × Addr → Bool) {q q' : List (Addr × Addr)} {es : List Event}
    (h : run serve q es = some q') :
    q.countP p + es.countP (Event.registers p) = es.countP (Event.runs p) + q'.countP p := by
  induction es generalizing q with
  | nil => simp [(run_nil q q').mp h]
  | cons e es ih =>
    obtain ⟨r, hr, hrest⟩ := (run_cons q q' e es).mp h
    have hq := ih hrest
    cases e with
    | registered head func =>
      obtain rfl := Option.some.inj hr
      rw [List.countP_append, List.countP_singleton] at hq
      have hreg : (Event.registered head func :: es).countP (Event.registers p) =
          es.countP (Event.registers p) + if p (head, func) then 1 else 0 := List.countP_cons
      have hrun : (Event.registered head func :: es).countP (Event.runs p) =
          es.countP (Event.runs p) := by simp [Event.runs]
      omega
    | ran head func =>
      cases q with
      | nil => cases hr
      | cons x q =>
        obtain ⟨rfl, rfl⟩ := (when_eq_some _ _ _).mp hr
        have hreg : (Event.ran head func :: es).countP (Event.registers p) =
            es.countP (Event.registers p) := by simp [Event.registers]
        have hrun : (Event.ran head func :: es).countP (Event.runs p) =
            es.countP (Event.runs p) + if p (head, func) then 1 else 0 := List.countP_cons
        rw [List.countP_cons]
        omega

/-- Every registration is run or due. -/
theorem due_balance (p : Addr × Addr → Bool) {q : List (Addr × Addr)} {es : List Event}
    (h : due es = some q) :
    es.countP (Event.registers p) = es.countP (Event.runs p) + q.countP p := by
  simpa using serve_balance p h

section callRcu

theorem enqueue_data (s : State) (head : Addr) :
    (rcuDataEnqueue s head).data =
      ⟨if s.data.tail = none then some head else s.data.head, some head,
        (s.data.count + 1) % 2 ^ 64⟩ := by
  unfold rcuDataEnqueue
  cases s.data.tail <;> simp

theorem enqueue_links (s : State) (head : Addr) :
    (rcuDataEnqueue s head).links = enqueueLink s.links s.data.tail head := by
  funext a
  unfold rcuDataEnqueue
  cases s.data.tail with
  | none => rfl
  | some t => by_cases ha : a = t <;> simp [enqueueLink, State.links, ha]

theorem enqueue_same (s : State) (head a : Addr) :
    ((rcuDataEnqueue s head).heads a).version = (s.heads a).version ∧
      ((rcuDataEnqueue s head).heads a).func = (s.heads a).func := by
  unfold rcuDataEnqueue
  cases s.data.tail with
  | none => exact ⟨rfl, rfl⟩
  | some t => by_cases ha : a = t <;> simp [ha]

theorem enqueue_rest (s : State) (head : Addr) :
    (rcuDataEnqueue s head).versions = s.versions ∧
      (rcuDataEnqueue s head).sequencer = s.sequencer ∧
      (rcuDataEnqueue s head).registered = s.registered ∧
      (rcuDataEnqueue s head).frames = s.frames := by
  unfold rcuDataEnqueue
  cases s.data.tail <;> exact ⟨rfl, rfl, rfl, rfl⟩

structure Registers (s : State) (head func : Addr) (t : State) : Prop where
  sequencer : t.sequencer = ticket s
  data : t.data = ⟨if s.data.tail = none then some head else s.data.head, some head,
    (s.data.count + 1) % 2 ^ 64⟩
  links : t.links = enqueueLink s.links s.data.tail head
  version : ∀ a, (t.heads a).version = if a = head then ticket s else (s.heads a).version
  func : ∀ a, (t.heads a).func = if a = head then func else (s.heads a).func
  registered : t.registered = s.registered ++ [head]
  frames : t.frames =
    if 1024 ≤ (s.data.count + 1) % 2 ^ 64 then .scan uintMax 0 :: s.frames else s.frames

theorem callRcu_registers (s : State) (head func : Addr) :
    Registers s head func (callRcu s head func) := by
  let s₁ : State :=
    { s with
      sequencer := ticket s
      heads := Function.update s.heads head { s.heads head with version := ticket s, func := func }
      registered := s.registered ++ [head] }
  have hlinks : s₁.links = s.links := by
    funext a
    by_cases ha : a = head <;> simp [s₁, State.links, ha]
  have hdata := enqueue_data s₁ head
  obtain ⟨-, hseq, hreg, hfr⟩ := enqueue_rest s₁ head
  have hcall : callRcu s head func =
      { rcuDataEnqueue s₁ head with
        frames := if 1024 ≤ (s.data.count + 1) % 2 ^ 64 then .scan uintMax 0 :: s.frames
          else s.frames } := by
    show (if 1024 ≤ (rcuDataEnqueue s₁ head).data.count then threadCallRcu (rcuDataEnqueue s₁ head)
      else rcuDataEnqueue s₁ head) = _
    have hcount : (rcuDataEnqueue s₁ head).data.count = (s.data.count + 1) % 2 ^ 64 := by
      rw [hdata]
    rw [hcount]
    split
    · rw [threadCallRcu, hfr]
    · rw [← hfr]
  rw [hcall]
  refine ⟨hseq, hdata, ?_, fun a => ?_, fun a => ?_, hreg, rfl⟩
  · rw [← hlinks]
    exact enqueue_links s₁ head
  · refine (enqueue_same s₁ head a).1.trans ?_
    by_cases ha : a = head <;> simp [s₁, ha]
  · refine (enqueue_same s₁ head a).2.trans ?_
    by_cases ha : a = head <;> simp [s₁, ha]

end callRcu

theorem step_head {n c : Nat} {s t : State} {a : Act} (h : step n c s a = some t) {head : Addr}
    (ha : a.head = some head) :
    s.ready = true ∧ ∃ func, Registers s head func t ∧ emit s a = some (.registered head func) := by
  cases a with
  | callRcu head' func =>
    obtain rfl : head' = head := Option.some.inj ha
    obtain ⟨hr, rfl⟩ := (when_eq_some _ _ _).mp h
    exact ⟨hr, func, callRcu_registers s head' func, rfl⟩
  | freeRcu head' =>
    obtain rfl : head' = head := Option.some.inj ha
    obtain ⟨hr, rfl⟩ := (when_eq_some _ _ _).mp h
    exact ⟨hr, _free_rcu, callRcu_registers s head' _free_rcu, rfl⟩
  | publish _ _ => cases ha
  | fetchAdd => cases ha
  | write _ _ => cases ha
  | threadCallRcu => cases ha
  | advance => cases ha
  | ret => cases ha

inductive Advances (n c : Nat) (s : State) : State → Prop
  | look (m m' i : Nat) (rest : List Frame) (hf : s.frames = .scan m i :: rest) (hi : i < n)
      (hm : m' = if i = c then m else min m (s.versions i)) :
      Advances n c s { s with frames := .scan m' (i + 1) :: rest }
  | looked (m i : Nat) (rest : List Frame) (hf : s.frames = .scan m i :: rest) (hi : n ≤ i) :
      Advances n c s { s with frames := .loop m s.data.head :: rest }
  | leave (m : Nat) (node : Option Addr) (rest : List Frame) (hf : s.frames = .loop m node :: rest)
      (hm : ∀ a ∈ node, m < (s.heads a).version) : Advances n c s { s with frames := rest }
  | call (m : Nat) (a : Addr) (rest : List Frame) (hf : s.frames = .loop m (some a) :: rest)
      (hm : (s.heads a).version ≤ m) :
      Advances n c s { s with
        frames := .callback m a (s.heads a).next :: rest
        registered := s.registered.erase a }

theorem advances_of_step {n c : Nat} {s t : State} (h : step n c s .advance = some t) :
    Advances n c s t := by
  change advance n c s = some t at h
  unfold advance at h
  split at h
  case h_1 m i rest hf =>
    by_cases hi : i < n
    · rw [if_pos hi] at h
      by_cases hc : i = c
      · rw [if_pos hc] at h
        obtain rfl := Option.some.inj h
        exact .look m m i rest hf hi (if_pos hc).symm
      · rw [if_neg hc] at h
        obtain rfl := Option.some.inj h
        exact .look m _ i rest hf hi (if_neg hc).symm
    · rw [if_neg hi] at h
      obtain rfl := Option.some.inj h
      exact .looked m i rest hf (by omega)
  case h_2 m rest hf =>
    obtain rfl := Option.some.inj h
    exact .leave m none rest hf (by simp)
  case h_3 m a rest hf =>
    split at h
    · obtain rfl := Option.some.inj h
      exact .leave m (some a) rest hf (by simpa)
    · obtain rfl := Option.some.inj h
      exact .call m a rest hf (by omega)
  case h_4 => cases h

theorem returns_of_step {n c : Nat} {s t : State} (h : step n c s .ret = some t) :
    ∃ m head node rest, s.frames = .callback m head node :: rest ∧
      t = { s with
        data := ⟨node, if node = none then none else s.data.tail, s.data.count⟩
        frames := .loop m node :: rest } := by
  change ret s = some t at h
  unfold ret at h
  split at h
  · rename_i m head node rest hf
    exact ⟨m, head, node, rest, hf, (Option.some.inj h).symm⟩
  · cases h

theorem calls_leave {s : State} {m : Nat} {node : Option Addr} {rest : List Frame}
    (hf : s.frames = .loop m node :: rest) (hm : ∀ a ∈ node, m < (s.heads a).version) :
    calls s = none := by
  cases node with
  | none => simp [calls, hf]
  | some a => simpa [calls, hf] using hm a rfl

theorem calls_call {s : State} {m : Nat} {a : Addr} {rest : List Frame}
    (hf : s.frames = .loop m (some a) :: rest) (hm : (s.heads a).version ≤ m) :
    calls s = some a := by
  simpa [calls, hf] using hm

theorem calls_scan {s : State} {m i : Nat} {rest : List Frame}
    (hf : s.frames = .scan m i :: rest) : calls s = none := by
  simp [calls, hf]

theorem emit_ran {s : State} {a : Act} {head func : Addr} (h : emit s a = some (.ran head func)) :
    a = .advance ∧ calls s = some head := by
  cases a with
  | advance =>
    obtain ⟨b, hb, he⟩ := Option.map_eq_some_iff.mp h
    obtain ⟨rfl, -⟩ := Event.ran.inj he
    exact ⟨rfl, hb⟩
  | publish _ _ => cases h
  | fetchAdd => cases h
  | write _ _ => cases h
  | callRcu _ _ => cases h
  | freeRcu _ => cases h
  | threadCallRcu => cases h
  | ret => cases h

theorem notNested_of_silent {s : State} {a : Act}
    (h : 2 ≤ s.frames.length → ∀ head func, emit s a ≠ some (.ran head func)) : NotNested s a := by
  cases a with
  | advance =>
    intro hlen
    cases hc : calls s with
    | none => rfl
    | some b => exact absurd (congrArg (Option.map _) hc) (h hlen b _)
  | publish _ _ => trivial
  | fetchAdd => trivial
  | write _ _ => trivial
  | callRcu _ _ => trivial
  | freeRcu _ => trivial
  | threadCallRcu => trivial
  | ret => trivial

theorem ready_iff (s : State) :
    s.ready = true ↔ s.frames = [] ∨ ∃ m head node rest, s.frames = .callback m head node :: rest := by
  unfold State.ready
  split
  case h_1 hf => simp [hf]
  case h_2 m head node rest hf => simp [hf]
  case h_3 hnil hcb => simpa using ⟨hnil, hcb⟩

theorem inLast_false {s : State} {m : Nat} {head : Addr} {node : Option Addr} {rest : List Frame}
    (hf : s.frames = .callback m head node :: rest) (h : s.inLast = false) : node ≠ none := by
  rintro rfl
  simp [State.inLast, hf] at h

theorem mem_running {s : State} (m : Nat) {head : Addr} (node : Option Addr)
    (h : .callback m head node ∈ s.frames) : head ∈ s.running :=
  List.mem_filterMap.mpr ⟨_, h, rfl⟩

section Stage

variable {links : Addr → Option Addr} {data : CallRcuData} {l : List Addr}

theorem Stage.ready {s : State} (h : Stage links data l s.frames) (hr : s.ready = true) :
    (s.frames = [] ∧ Waiting links data l) ∨
      ∃ m head node, s.frames = [.callback m head node] ∧ Behind links data head node l := by
  obtain hf | ⟨m, head, node, rest, hf⟩ := (ready_iff s).mp hr
  · rw [hf] at h
    cases h with
    | out h => exact Or.inl ⟨hf, h⟩
  · rw [hf] at h
    cases h with
    | callback _ _ _ h => exact Or.inr ⟨m, head, node, hf, h⟩

theorem Stage.enter {s : State} (h : Stage links data l s.frames) (hr : s.ready = true) (m i : Nat) :
    Stage links data l (.scan m i :: s.frames) := by
  obtain ⟨hf, hw⟩ | ⟨m', head, node, hf, hb⟩ := h.ready hr
  · rw [hf]
    exact .scan m i hw
  · rw [hf]
    exact .nestedScan m i m' head node hb

theorem Stage.write {frames : List Frame} (h : Stage links data l frames) {a : Addr}
    (p : Option Addr) (ha : a ∉ l) : Stage (Function.update links a p) data l frames := by
  have hw : ∀ (_ : Waiting links data l), Waiting (Function.update links a p) data l :=
    fun hw => ⟨(linked_update p ha).mpr hw.linked, hw.last⟩
  have hb : ∀ {head node} (_ : Behind links data head node l),
      Behind (Function.update links a p) data head node l :=
    fun hb => ⟨hb.first, (linked_update p ha).mpr hb.linked, hb.last, hb.gone⟩
  cases h with
  | out h => exact .out (hw h)
  | scan m i h => exact .scan m i (hw h)
  | loop m h => exact .loop m (hw h)
  | callback m head node h => exact .callback m head node (hb h)
  | nestedScan m' i m head node h => exact .nestedScan m' i m head node (hb h)
  | nestedLoop m' m head node h => exact .nestedLoop m' m head node (hb h)

theorem Behind.enqueue {head a : Addr} {node : Option Addr} (h : Behind links data head node l)
    (hnode : node ≠ none) (hn : links a = none) (ha : a ∉ l) (hne : a ≠ head) (k : Nat) :
    Behind (enqueueLink links data.tail a)
      ⟨if data.tail = none then some a else data.head, some a, k⟩ head node (l ++ [a]) := by
  have hl : l ≠ [] := by
    rintro rfl
    exact hnode h.linked
  have htail : data.tail ≠ none := by
    rw [h.last]
    simp
  have hlast : data.tail = l.getLast? := by
    rw [h.last, List.getLast?_cons, List.getLast?_eq_some_getLast hl]
    simp
  refine ⟨?_, linked_enqueue h.linked hlast hl hn ha, ?_, ?_⟩
  · rw [if_neg htail]
    exact h.first
  · rw [← List.cons_append, List.getLast?_concat]
  · simpa using ⟨h.gone, Ne.symm hne⟩

theorem Behind.returns {head : Addr} {node : Option Addr} (h : Behind links data head node l) (k : Nat) :
    Waiting links ⟨node, if node = none then none else data.tail, k⟩ l :=
  tailQueue_rest h.linked h.last

end Stage

/-- The step meets nothing that the queue cannot bear. -/
def Orderly (s : State) (a : Act) : Prop := NullNext s a ∧ NotLast s a ∧ NotNested s a

instance (s : State) (a : Act) : Decidable (Orderly s a) :=
  inferInstanceAs (Decidable (NullNext s a ∧ NotLast s a ∧ NotNested s a))

theorem disciplined_head {s : State} {a : Act} (h : Disciplined s a) {head : Addr}
    (ha : a.head = some head) : head ∉ s.registered ∧ head ∉ s.running := by
  cases a with
  | write _ _ => cases ha
  | callRcu _ _ => exact h head ha
  | freeRcu _ => exact h head ha
  | publish _ _ => cases ha
  | fetchAdd => cases ha
  | threadCallRcu => cases ha
  | advance => cases ha
  | ret => cases ha

section Inv

variable {n c : Nat} {es : List Event} {s t : State} {a : Act} {q : List (Addr × Addr)}

theorem inv_register (hi : Inv es s q) {head func : Addr} (hr : s.ready = true)
    (ht : Registers s head func t) (hd : head ∉ s.registered ∧ head ∉ s.running)
    (hn : s.links head = none) (hlast : s.inLast = false) :
    Inv (es ++ [.registered head func]) t (q ++ [(head, func)]) := by
  have hready : t.frames = s.frames ∨ t.frames = .scan uintMax 0 :: s.frames := by
    rw [ht.frames]
    split
    · exact Or.inr rfl
    · exact Or.inl rfl
  refine ⟨?_, ?_, ?_, ?_⟩
  · rw [due_snoc hi.due]
    rfl
  · rw [ht.registered, hi.registered]
    simp
  · intro p hp
    rw [ht.func]
    obtain hpq | rfl : p ∈ q ∨ p = (head, func) := by simpa using hp
    · have hne : p.1 ≠ head := by
        rintro rfl
        exact hd.1 (hi.registered ▸ List.mem_map_of_mem hpq)
      rw [if_neg hne, hi.func p hpq]
    · simp
  · have hst : Stage t.links t.data t.registered s.frames := by
      rw [ht.links, ht.data, ht.registered]
      obtain ⟨hf, hw⟩ | ⟨m, head', node, hf, hb⟩ := hi.stage.ready hr
      · rw [hf]
        exact .out (hw.enqueue hn hd.1)
      · have hne : head ≠ head' := by
          rintro rfl
          exact hd.2 (mem_running m node (hf ▸ List.mem_singleton_self _))
        rw [hf]
        exact .callback m head' node (hb.enqueue (inLast_false hf hlast) hn hd.1 hne _)
    obtain hf | hf := hready
    · rw [hf]
      exact hst
    · rw [hf]
      exact hst.enter hr _ _

theorem inv_silent (hi : Inv es t q) (he : emit s a = none) :
    ∃ q', Inv (es ++ (emit s a).toList) t q' := by
  rw [he]
  exact ⟨q, by simpa using hi⟩

theorem inv_frames (hi : Inv es s q) {frames : List Frame}
    (hst : Stage s.links s.data s.registered frames) : Inv es { s with frames := frames } q :=
  ⟨hi.due, hi.registered, hi.func, hst⟩

theorem Inv.front (hi : Inv es s q) {m : Nat} {node : Option Addr} (hf : s.frames = [.loop m node]) :
    node = s.data.head ∧ Waiting s.links s.data s.registered := by
  have hst := hi.stage
  rw [hf] at hst
  cases hst with
  | loop _ hw => exact ⟨rfl, hw⟩

theorem inv_call (hi : Inv es s q) {m : Nat} {a : Addr} {rest : List Frame}
    (hf : s.frames = .loop m (some a) :: rest) (hrest : rest = []) :
    ∃ q', Inv (es ++ [.ran a (s.heads a).func])
      { s with
        frames := .callback m a (s.heads a).next :: rest
        registered := s.registered.erase a } q' := by
  subst hrest
  obtain ⟨hhead, hw⟩ := hi.front hf
  obtain ⟨l, hl, hrest⟩ := (linked_some a s.registered).mp (hhead ▸ hw.linked)
  rw [hi.registered] at hl
  cases q with
  | nil => cases hl
  | cons p q =>
    obtain ⟨rfl, rfl⟩ : p.1 = a ∧ q.map Prod.fst = l := by simpa using hl
    have hreg : s.registered.erase p.1 = q.map Prod.fst := by
      rw [hi.registered, List.map_cons, List.erase_cons_head]
    refine ⟨q, ?_, hreg, fun r hr => hi.func r (List.mem_cons_of_mem p hr), ?_⟩
    · rw [due_snoc hi.due, hi.func p List.mem_cons_self]
      simp [serve]
    · rw [hreg]
      refine .callback m p.1 _ ⟨hhead.symm, hrest, ?_, ?_⟩
      · rw [hw.last, hi.registered, List.map_cons]
      · have hnd := linked_nodup hw.linked
        rw [hi.registered, List.map_cons] at hnd
        exact (List.nodup_cons.mp hnd).1

theorem notNested_rest {m : Nat} {b : Addr} {rest : List Frame} (hok : NotNested s .advance)
    (hf : s.frames = .loop m (some b) :: rest) (hm : (s.heads b).version ≤ m) : rest = [] := by
  by_contra hne
  have hlen : 2 ≤ s.frames.length := by
    rw [hf, List.length_cons]
    have := List.length_pos_iff.mpr hne
    omega
  exact absurd (hok hlen) (by simp [calls_call hf hm])

theorem inv_advance (hi : Inv es s q) (hok : NotNested s .advance)
    (h : step n c s .advance = some t) : ∃ q', Inv (es ++ (emit s .advance).toList) t q' := by
  have hst := hi.stage
  cases advances_of_step h with
  | look m m' i rest hf hlt hm =>
    refine inv_silent (inv_frames hi ?_) (by rw [emit, calls_scan hf, Option.map_none])
    rw [hf] at hst
    cases hst with
    | scan _ _ hw => exact .scan m' (i + 1) hw
    | nestedScan _ _ m head node hb => exact .nestedScan m' (i + 1) m head node hb
  | looked m i rest hf hle =>
    refine inv_silent (inv_frames hi ?_) (by rw [emit, calls_scan hf, Option.map_none])
    rw [hf] at hst
    cases hst with
    | scan _ _ hw => exact .loop m hw
    | nestedScan _ _ m' head node hb =>
      rw [hb.first]
      exact .nestedLoop m m' head node hb
  | leave m node rest hf hm =>
    refine inv_silent (inv_frames hi ?_) (by rw [emit, calls_leave hf hm, Option.map_none])
    rw [hf] at hst
    cases hst with
    | loop _ hw => exact .out hw
    | nestedLoop _ m' head node' hb => exact .callback m' head node' hb
  | call m a rest hf hm =>
    rw [emit, calls_call hf hm]
    exact inv_call hi hf (notNested_rest hok hf hm)

theorem inv_ret (hi : Inv es s q) (h : step n c s .ret = some t) : Inv es t q := by
  obtain ⟨m, head, node, rest, hf, rfl⟩ := returns_of_step h
  have hst := hi.stage
  rw [hf] at hst
  cases hst with
  | callback _ _ _ hb => exact ⟨hi.due, hi.registered, hi.func, .loop m (hb.returns _)⟩

theorem inv_write (hi : Inv es s q) {a : Addr} (value : RcuHead) (ha : a ∉ s.registered) :
    Inv es { s with heads := Function.update s.heads a value } q := by
  refine ⟨hi.due, hi.registered, fun p hp => ?_, ?_⟩
  · have hne : p.1 ≠ a := by
      rintro rfl
      exact ha (hi.registered ▸ List.mem_map_of_mem hp)
    simpa [hne] using hi.func p hp
  · have hlinks : State.links { s with heads := Function.update s.heads a value } =
        Function.update s.links a value.next := by
      funext b
      by_cases hb : b = a <;> simp [State.links, hb]
    rw [hlinks]
    exact hi.stage.write value.next ha

theorem inv_step (hi : Inv es s q) (hd : Disciplined s a) (hok : Orderly s a)
    (h : step n c s a = some t) : ∃ q', Inv (es ++ (emit s a).toList) t q' := by
  have hreg : ∀ head, a.head = some head → ∃ q', Inv (es ++ (emit s a).toList) t q' := by
    intro head ha
    obtain ⟨hr, func, ht, hemit⟩ := step_head h ha
    rw [hemit]
    exact ⟨_, inv_register hi hr ht (disciplined_head hd ha) (hok.1 head ha)
      (hok.2.1 (by simp [ha]))⟩
  cases a with
  | publish core version =>
    obtain rfl := Option.some.inj h
    exact inv_silent ⟨hi.due, hi.registered, hi.func, hi.stage⟩ rfl
  | fetchAdd =>
    obtain rfl := Option.some.inj h
    exact inv_silent ⟨hi.due, hi.registered, hi.func, hi.stage⟩ rfl
  | write a value =>
    obtain rfl := Option.some.inj h
    exact inv_silent (inv_write hi value hd) rfl
  | callRcu head func => exact hreg head rfl
  | freeRcu head => exact hreg head rfl
  | threadCallRcu =>
    obtain ⟨hr, rfl⟩ := (when_eq_some _ _ _).mp h
    exact inv_silent (inv_frames hi (hi.stage.enter hr _ _)) rfl
  | advance => exact inv_advance hi hok.2.2 h
  | ret => exact inv_silent (inv_ret hi h) rfl

end Inv

theorem inv_init (heads : Addr → RcuHead) : Inv [] (init heads) [] :=
  ⟨rfl, rfl, by simp, .out (tailQueue_nil _)⟩

theorem inv_run {n c : Nat} {heads : Addr → RcuHead} {as : List Act} {t : State}
    (h : run (step n c) (init heads) as = some t)
    (hm : Meets (step n c) (fun s a => Disciplined s a ∧ Orderly s a) (init heads) as) :
    ∃ q, Inv (trace (step n c) emit (init heads) as) t q := by
  have hrun := trace_invariant_of_meets emit _ (fun es s => ∃ q, Inv es s q)
    (fun es s a t ⟨q, hq⟩ hok hstep => inv_step hq hok.1 hok.2 hstep) h hm ⟨[], inv_init heads⟩
  simpa using hrun

end LibCoro.Reclaim
