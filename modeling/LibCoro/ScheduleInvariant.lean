import Mathlib.Data.Finset.Card
import Mathlib.Data.Finset.Range
import LibCoro.Schedule

namespace LibCoro.Schedule

open Machine Mailbox

/-- Where each task is: `q` counts the messages in flight, `es` lists the tasks whose
`task_done` has been processed, and the first `d` tasks have been sent to their threads. -/
structure Tokens (d : Nat) (q : Msg → Nat) (stack : Core → List Frame) (phase : TaskId → Phase)
    (es : List TaskId) : Prop where
  run : ∀ i, q (.serviceThreadRun i) = if i < d ∧ phase i = .initial then 1 else 0
  yield : ∀ i, q (.serviceThreadRunYield i) = if phase i = .yielded then 1 else 0
  done : ∀ i, q (.taskDone i) + es.count i = if phase i = .returned then 1 else 0
  stack : ∀ c i, (stack c).count (.body i) = if phase i = .executing c then 1 else 0
  fresh : ∀ i, d ≤ i → phase i = .initial

section Tokens

variable {d : Nat} {q q' : Msg → Nat} {stack stack' : Core → List Frame} {phase : TaskId → Phase}
  {es : List TaskId} {c : Core} {i : TaskId} {f : Frame} {rest : List Frame}

theorem Tokens.congr (h : Tokens d q stack phase es)
    (hq : ∀ i, q' (.serviceThreadRun i) = q (.serviceThreadRun i) ∧
      q' (.serviceThreadRunYield i) = q (.serviceThreadRunYield i) ∧
      q' (.taskDone i) = q (.taskDone i)) : Tokens d q' stack phase es where
  run j := (hq j).1.trans (h.run j)
  yield j := (hq j).2.1.trans (h.yield j)
  done j := by
    rw [(hq j).2.2]
    exact h.done j
  stack := h.stack
  fresh := h.fresh

theorem Tokens.update (h : Tokens d q stack phase es) (p : Phase) (hi : i < d)
    (hp : p ≠ .initial)
    (hq : ∀ j, j ≠ i → q' (.serviceThreadRun j) = q (.serviceThreadRun j) ∧
      q' (.serviceThreadRunYield j) = q (.serviceThreadRunYield j) ∧
      q' (.taskDone j) = q (.taskDone j))
    (hst : ∀ c j, j ≠ i → (stack' c).count (.body j) = (stack c).count (.body j))
    (hrun : q' (.serviceThreadRun i) = 0)
    (hyield : q' (.serviceThreadRunYield i) = if p = .yielded then 1 else 0)
    (hdone : q' (.taskDone i) + es.count i = if p = .returned then 1 else 0)
    (hstack : ∀ c, (stack' c).count (.body i) = if p = .executing c then 1 else 0) :
    Tokens d q' stack' (Function.update phase i p) es := by
  refine ⟨fun j => ?_, fun j => ?_, fun j => ?_, fun c j => ?_, fun j hj => ?_⟩
  · by_cases hji : j = i
    · simp [hji, hrun, hp]
    · rw [(hq j hji).1, h.run j, Function.update_of_ne hji]
  · by_cases hji : j = i
    · simp [hji, hyield]
    · rw [(hq j hji).2.1, h.yield j, Function.update_of_ne hji]
  · by_cases hji : j = i
    · simp [hji, hdone]
    · rw [(hq j hji).2.2, h.done j, Function.update_of_ne hji]
  · by_cases hji : j = i
    · simp [hji, hstack]
    · rw [hst c j hji, h.stack c j, Function.update_of_ne hji]
  · have hji : j ≠ i := Nat.ne_of_gt (Nat.lt_of_lt_of_le hi hj)
    rw [Function.update_of_ne hji, h.fresh j hj]

theorem Tokens.lt_of_phase (h : Tokens d q stack phase es) (hp : phase i ≠ .initial) : i < d := by
  by_contra hlt
  exact hp (h.fresh i (Nat.le_of_not_lt hlt))

theorem count_push (c' : Core) (j : TaskId) :
    (Function.update stack c (.body i :: stack c) c').count (.body j) =
      (stack c').count (.body j) + if i = j ∧ c = c' then 1 else 0 := by
  by_cases hc : c' = c
  · subst hc
    by_cases hij : i = j
    · simp [hij]
    · simp [hij]
  · simp [Function.update_of_ne hc, Ne.symm hc]

theorem Frame.ne_body (hf : f.suspended = true) (j : TaskId) : f ≠ .body j := by
  rintro rfl
  cases hf

theorem count_suspend (hst : stack c = .body i :: rest) (hf : f.suspended = true) (c' : Core)
    (j : TaskId) : (stack c').count (.body j) =
      (Function.update stack c (f :: rest) c').count (.body j) + if i = j ∧ c = c' then 1 else 0 := by
  by_cases hc : c' = c
  · subst hc
    by_cases hij : i = j
    · simp [hst, hij, Frame.ne_body hf j]
    · simp [hst, hij, Frame.ne_body hf j]
  · simp [Function.update_of_ne hc, Ne.symm hc]

theorem Tokens.leave (h : Tokens d q stack phase es) (hst : stack c = f :: rest)
    (hf : f.suspended = true) : Tokens d q (Function.update stack c rest) phase es := by
  refine ⟨h.run, h.yield, h.done, fun c' j => ?_, h.fresh⟩
  rw [← h.stack c' j]
  by_cases hc : c' = c
  · subst hc
    simp [hst, Frame.ne_body hf j]
  · rw [Function.update_of_ne hc]

theorem Tokens.dispatch (h : Tokens d q stack phase es)
    (hq : ∀ m, q' m = q m + if Msg.serviceThreadRun d = m then 1 else 0) :
    Tokens (d + 1) q' stack phase es := by
  refine ⟨fun j => ?_, fun j => ?_, fun j => ?_, h.stack, fun j hj =>
    h.fresh j (Nat.le_of_succ_le hj)⟩
  · rw [hq, h.run j]
    by_cases hj : d = j
    · simp [hj, h.fresh j (Nat.le_of_eq hj)]
    · have hlt : j < d + 1 ↔ j < d :=
        ⟨fun hl => Nat.lt_of_le_of_ne (Nat.le_of_lt_succ hl) (Ne.symm hj), Nat.lt_succ_of_lt⟩
      simp [hj, hlt]
  · simp [hq, h.yield j]
  · simp [hq, h.done j]

theorem Tokens.run_phase (h : Tokens d q stack phase es)
    (hq : ∀ m, q m = q' m + if Msg.serviceThreadRun i = m then 1 else 0) :
    i < d ∧ phase i = .initial := by
  have h1 := h.run i
  rw [hq] at h1
  by_contra hp
  simp [hp] at h1

theorem Tokens.start (h : Tokens d q stack phase es)
    (hq : ∀ m, q m = q' m + if Msg.serviceThreadRun i = m then 1 else 0) :
    Tokens d q' (Function.update stack c (.body i :: stack c))
      (Function.update phase i (.executing c)) es := by
  obtain ⟨hi, hp⟩ := h.run_phase hq
  have hr := h.run i
  have hy := h.yield i
  have hd := h.done i
  simp only [hq, hp, hi] at hr hy hd
  refine h.update (.executing c) hi (by simp) (fun j hj => ?_) (fun c' j hj => ?_) ?_ ?_ ?_ ?_
  · simp [hq, Ne.symm hj]
  · simp [count_push, Ne.symm hj]
  · simpa using hr
  · simpa using hy
  · simpa using hd
  · intro c'
    rw [count_push, h.stack c' i, hp]
    simp

theorem Tokens.yield_phase (h : Tokens d q stack phase es)
    (hq : ∀ m, q m = q' m + if Msg.serviceThreadRunYield i = m then 1 else 0) :
    phase i = .yielded := by
  have h1 := h.yield i
  rw [hq] at h1
  by_contra hp
  simp [hp] at h1

theorem Tokens.wake (h : Tokens d q stack phase es)
    (hq : ∀ m, q m = q' m + if Msg.serviceThreadRunYield i = m then 1 else 0) :
    Tokens d q' (Function.update stack c (.body i :: stack c))
      (Function.update phase i (.executing c)) es := by
  have hp := h.yield_phase hq
  have hr := h.run i
  have hy := h.yield i
  have hd := h.done i
  simp only [hq, hp] at hr hy hd
  refine h.update (.executing c) (h.lt_of_phase (by simp [hp])) (by simp) (fun j hj => ?_)
    (fun c' j hj => ?_) ?_ ?_ ?_ ?_
  · simp [hq, Ne.symm hj]
  · simp [count_push, Ne.symm hj]
  · simpa using hr
  · simpa using hy
  · simpa using hd
  · intro c'
    rw [count_push, h.stack c' i, hp]
    simp

theorem Tokens.unblock (h : Tokens d q stack phase es)
    (hp : phase i = .blocked ∨ ∃ c, phase i = .submitted c) :
    Tokens d q (Function.update stack c (.body i :: stack c))
      (Function.update phase i (.executing c)) es := by
  have hne : phase i ≠ .initial ∧ phase i ≠ .yielded ∧ phase i ≠ .returned ∧
      ∀ c', phase i ≠ .executing c' := by
    obtain hp | ⟨c', hp⟩ := hp <;> simp [hp]
  have hr := h.run i
  have hy := h.yield i
  have hd := h.done i
  rw [if_neg fun hi => hne.1 hi.2] at hr
  rw [if_neg hne.2.1] at hy
  rw [if_neg hne.2.2.1] at hd
  refine h.update (.executing c) (h.lt_of_phase hne.1) (by simp)
    (fun j hj => ⟨rfl, rfl, rfl⟩) (fun c' j hj => ?_) hr ?_ ?_ ?_
  · simp [count_push, Ne.symm hj]
  · simpa using hy
  · simpa using hd
  · intro c'
    rw [count_push, h.stack c' i, if_neg (hne.2.2.2 c')]
    simp

theorem Tokens.phase_of_body (h : Tokens d q stack phase es) (hi : .body i ∈ stack c) :
    phase i = .executing c := by
  have h1 := h.stack c i
  have hpos := List.count_pos_iff.mpr hi
  by_contra hp
  rw [if_neg hp] at h1
  omega

theorem Tokens.top_phase (h : Tokens d q stack phase es) (hst : stack c = .body i :: rest) :
    phase i = .executing c := h.phase_of_body (by simp [hst])

/-- The coroutine on top is suspended or ends, and the message sent says where it went. -/
theorem Tokens.suspend (h : Tokens d q stack phase es) (hst : stack c = .body i :: rest)
    (hf : f.suspended = true) (p : Phase) (hp : p ≠ .initial ∧ ∀ c, p ≠ .executing c)
    (hq : ∀ j, j ≠ i → q' (.serviceThreadRun j) = q (.serviceThreadRun j) ∧
      q' (.serviceThreadRunYield j) = q (.serviceThreadRunYield j) ∧
      q' (.taskDone j) = q (.taskDone j))
    (hrun : q' (.serviceThreadRun i) = q (.serviceThreadRun i))
    (hyield : q' (.serviceThreadRunYield i) =
      q (.serviceThreadRunYield i) + if p = .yielded then 1 else 0)
    (hdone : q' (.taskDone i) = q (.taskDone i) + if p = .returned then 1 else 0) :
    Tokens d q' (Function.update stack c (f :: rest)) (Function.update phase i p) es := by
  have htop := h.top_phase hst
  have hr := h.run i
  have hy := h.yield i
  have hd := h.done i
  simp only [htop] at hr hy hd
  refine h.update p (h.lt_of_phase (by simp [htop])) hp.1 hq (fun c' j hj => ?_) ?_ ?_ ?_ ?_
  · rw [count_suspend hst hf c' j]
    simp [Ne.symm hj]
  · simpa [hrun] using hr
  · simpa [hyield] using hy
  · simp only [reduceCtorEq, if_false] at hd
    omega
  · intro c'
    have h1 := h.stack c' i
    rw [count_suspend hst hf c' i, htop] at h1
    simp only [Phase.executing.injEq, true_and] at h1
    simp only [hp.2 c', if_false]
    omega

theorem Tokens.process (h : Tokens d q stack phase es)
    (hq : ∀ m, q m = q' m + if Msg.taskDone i = m then 1 else 0) :
    Tokens d q' stack phase (es ++ [i]) := by
  refine ⟨fun j => ?_, fun j => ?_, fun j => ?_, h.stack, h.fresh⟩
  · simpa [hq] using h.run j
  · simpa [hq] using h.yield j
  · have := h.done j
    rw [hq] at this
    simp only [Msg.taskDone.injEq] at this
    rw [← this, List.count_append, List.count_singleton]
    simp only [beq_iff_eq]
    omega

theorem Tokens.done_nodup (h : Tokens d q stack phase es) : es.Nodup := by
  refine List.nodup_iff_count_le_one.mpr fun i => ?_
  have h1 := h.done i
  split at h1 <;> omega

theorem Tokens.returned_of_mem (h : Tokens d q stack phase es) (hi : i ∈ es) :
    phase i = .returned := by
  have h1 := h.done i
  have h2 := List.count_pos_iff.mpr hi
  by_contra hp
  rw [if_neg hp] at h1
  omega

theorem Tokens.mem_of_returned (h : Tokens d q stack phase es) (hp : phase i = .returned)
    (hq : q (.taskDone i) = 0) : i ∈ es := by
  have h1 := h.done i
  rw [hq, if_pos hp] at h1
  exact List.count_pos_iff.mp (by omega)

theorem Tokens.subset_range (h : Tokens d q stack phase es) : es.toFinset ⊆ Finset.range d := by
  intro i hi
  have hp := h.returned_of_mem (List.mem_toFinset.mp hi)
  exact Finset.mem_range.mpr (h.lt_of_phase (by simp [hp]))

/-- The dispatched tasks whose `task_done` has not been processed, counted. -/
theorem Tokens.card_pending (h : Tokens d q stack phase es) :
    (Finset.range d \ es.toFinset).card + es.length = d := by
  have hc := Finset.card_sdiff_add_card_eq_card h.subset_range
  rwa [List.toFinset_card_of_nodup h.done_nodup, Finset.card_range] at hc

end Tokens

def State.created (s : State) (cfg : Config) : Nat :=
  match s.pc with
  | .foreachCore i => i
  | _ => cfg.numThreads

structure Addressed (cfg : Config) (m : Envelope Thread Msg) : Prop where
  dest : m.dest < cfg.numThreads
  run : ∀ i, m.fn = .serviceThreadRun i → m.dest = i % cfg.numThreads
  done : ∀ i, m.fn = .taskDone i → m.dest = cfg.currentCore
  core : ∀ c, m.fn = .threadInitGetChannel c ∨ m.fn = .threadExit c → m.dest = c

structure Placed (n : Nat) (stack : Core → List Frame) (phase : TaskId → Phase)
    (requests : TaskId → List Core) : Prop where
  stack : ∀ c, stack c ≠ [] → c < n
  submitted : ∀ i c, phase i = .submitted c → c < n
  fresh : ∀ i, phase i = .initial → requests i = []
  requests : ∀ i, ∀ c ∈ requests i, c < n

section Placed

variable {n : Nat} {stack : Core → List Frame} {phase : TaskId → Phase}
  {requests : TaskId → List Core} {c : Core} {i : TaskId} {rest : List Frame}

theorem Placed.setStack (h : Placed n stack phase requests) (hc : c < n) :
    Placed n (Function.update stack c rest) phase requests := by
  refine ⟨fun c' hc' => ?_, h.submitted, h.fresh, h.requests⟩
  by_cases hcc : c' = c
  · exact hcc ▸ hc
  · exact h.stack c' (by rwa [Function.update_of_ne hcc] at hc')

theorem Placed.setPhase (h : Placed n stack phase requests) {p : Phase} (hne : p ≠ .initial)
    (hp : ∀ c, p = .submitted c → c < n) : Placed n stack (Function.update phase i p) requests := by
  refine ⟨h.stack, fun j c hj => ?_, fun j hj => ?_, h.requests⟩
  · by_cases hji : j = i
    · rw [hji, Function.update_self] at hj
      exact hp c hj
    · exact h.submitted j c (by rwa [Function.update_of_ne hji] at hj)
  · by_cases hji : j = i
    · rw [hji, Function.update_self] at hj
      exact absurd hj hne
    · exact h.fresh j (by rwa [Function.update_of_ne hji] at hj)

theorem Placed.push (h : Placed n stack phase requests) (hc : c < n) :
    Placed n (Function.update stack c (.body i :: stack c)) (Function.update phase i (.executing c))
      requests := (h.setStack hc).setPhase (by simp) (by simp)

theorem Placed.submit (h : Placed n stack phase requests) (hc : c < n) (hi : phase i ≠ .initial) :
    Placed n stack phase (Function.update requests i (c :: requests i)) := by
  refine ⟨h.stack, h.submitted, fun j hj => ?_, fun j d hd => ?_⟩
  · have hji : j ≠ i := by
      rintro rfl
      exact hi hj
    rw [Function.update_of_ne hji]
    exact h.fresh j hj
  · by_cases hji : j = i
    · rw [hji, Function.update_self, List.mem_cons] at hd
      exact hd.elim (fun hdc => hdc ▸ hc) (h.requests i d)
    · exact h.requests j d (by rwa [Function.update_of_ne hji] at hd)

end Placed

/-- What holds after any run that has counted no more tasks than an `int` can, where `es` lists
the tasks whose `task_done` was processed. -/
structure Inv (cfg : Config) (es : List TaskId) (s : State) : Prop where
  tokens : Tokens (s.dispatched cfg) (inFlight s.messages) s.stack s.phase es
  sane : s.crashed = false
  threads : ∀ i < s.created cfg, s.threads i = some i
  main : cfg.currentCore < s.created cfg → s.mainThread = some cfg.currentCore
  addressed : ∀ m ∈ s.messages, Addressed cfg m
  placed : Placed cfg.numThreads s.stack s.phase s.requests
  dispatched_le : s.dispatched cfg ≤ cfg.numTasks
  room : (s.dispatched cfg : Int) ≤ intMax
  early : s.pc ≠ .returned → es = []
  alive : s.aliveTasks + es.length = s.dispatched cfg
  stops : s.stops = if s.pc = .returned ∧ es.length = cfg.numTasks then 1 else 0

theorem inv_init (cfg : Config) : Inv cfg [] init where
  tokens := ⟨fun i => by simp [init, State.dispatched], fun i => by simp [init],
    fun i => by simp [init], fun c i => by simp [init], fun i _ => rfl⟩
  sane := rfl
  threads i hi := absurd hi (Nat.not_lt_zero i)
  main hm := absurd hm (Nat.not_lt_zero _)
  addressed m hm := by simp [init] at hm
  placed := ⟨fun c hc => by simp [init] at hc, fun i c hc => by simp [init] at hc,
    fun i _ => rfl, fun i c hc => by simp [init] at hc⟩
  dispatched_le := Nat.zero_le _
  room := by simp [init, State.dispatched, intMax]
  early _ := rfl
  alive := rfl
  stops := by simp [init]

theorem setThread_eq (s : State) {i : Core} (hi : i < entries) (thread : Thread) :
    s.setThread i thread = { s with threads := Function.update s.threads i (some thread) } := if_pos hi

theorem setChannel_eq (s : State) {i : Core} (hi : i < entries) (ch : Channel) :
    s.setChannel i ch = { s with channels := Function.update s.channels i ch } := if_pos hi

theorem setAlive_eq (s : State) {n : Int} (hn : intMin ≤ n ∧ n ≤ intMax) :
    s.setAlive n = { s with aliveTasks := n } := if_pos hn

theorem foldl_exitCore (self : Thread) (cores : List Core) (s : State)
    (ht : ∀ i ∈ cores, s.threads i = some i) :
    ∃ ch ms, cores.foldl (exitCore self) s =
        { s with channels := ch, messages := s.messages ++ ms } ∧
      (∀ d, ch d = s.channels d ∨ ch d = .put) ∧
      ∀ m ∈ ms, ∃ i ∈ cores, m = ⟨self, i, .threadExit i⟩ := by
  induction cores generalizing s with
  | nil => exact ⟨s.channels, [], by simp, fun d => .inl rfl, by simp⟩
  | cons i cores ih =>
    have hrest : ∀ j ∈ cores, s.threads j = some j := fun j hj => ht j (List.mem_cons_of_mem i hj)
    rw [List.foldl_cons, exitCore]
    by_cases hi : i = 0
    · rw [if_pos hi, setChannel_eq s (hi ▸ Nat.succ_pos 255)]
      obtain ⟨ch, ms, he, hch, hms⟩ :=
        ih { s with channels := Function.update s.channels i .put } hrest
      refine ⟨ch, ms, he, fun d => ?_, fun m hm => ?_⟩
      · obtain hd | hd := hch d
        · by_cases hdi : d = i
          · exact .inr (hd.trans (hdi ▸ Function.update_self ..))
          · exact .inl (hd.trans (Function.update_of_ne hdi _ _))
        · exact .inr hd
      · obtain ⟨k, hk, rfl⟩ := hms m hm
        exact ⟨k, List.mem_cons_of_mem i hk, rfl⟩
    · rw [if_neg hi, ht i List.mem_cons_self, State.sendMsg]
      obtain ⟨ch, ms, he, hch, hms⟩ :=
        ih { s with messages := s.messages ++ [⟨self, i, .threadExit i⟩] } hrest
      refine ⟨ch, ⟨self, i, .threadExit i⟩ :: ms, ?_, hch, fun m hm => ?_⟩
      · rw [he]
        simp
      · cases List.mem_cons.mp hm with
        | inl hm => exact ⟨i, List.mem_cons_self, hm⟩
        | inr hm =>
          obtain ⟨k, hk, rfl⟩ := hms m hm
          exact ⟨k, List.mem_cons_of_mem i hk, rfl⟩

theorem serviceExit_eq (cfg : Config) (s : State) (self : Thread)
    (ht : ∀ i < cfg.numThreads, s.threads i = some i) :
    ∃ ch ms, serviceExit cfg s self =
        { s with channels := ch, messages := s.messages ++ ms, stops := s.stops + 1 } ∧
      (∀ d, ch d = s.channels d ∨ ch d = .put) ∧
      ∀ m ∈ ms, ∃ i < cfg.numThreads, m = ⟨self, i, .threadExit i⟩ := by
  obtain ⟨ch, ms, he, hch, hms⟩ := foldl_exitCore self (List.range cfg.numThreads) s
    fun i hi => ht i (List.mem_range.mp hi)
  refine ⟨ch, ms, by rw [serviceExit, he], hch, fun m hm => ?_⟩
  obtain ⟨i, hi, rfl⟩ := hms m hm
  exact ⟨i, List.mem_range.mp hi, rfl⟩

section Step

variable {cfg : Config} {es : List TaskId} {s : State}

theorem Inv.tasks {ch : Core → Channel} {rs : TaskId → List Core} {ms : List (Envelope Thread Msg)}
    {stack : Core → List Frame} {phase : TaskId → Phase} (h : Inv cfg es s)
    (ht : Tokens (s.dispatched cfg) (inFlight ms) stack phase es)
    (hm : ∀ m ∈ ms, m ∈ s.messages ∨ Addressed cfg m) (hp : Placed cfg.numThreads stack phase rs) :
    Inv cfg es { s with
      channels := ch, messages := ms, stack := stack, phase := phase, requests := rs } where
  tokens := ht
  sane := h.sane
  threads := h.threads
  main := h.main
  addressed m hmem := (hm m hmem).elim (h.addressed m) id
  placed := hp
  dispatched_le := h.dispatched_le
  room := h.room
  early := h.early
  alive := h.alive
  stops := h.stops

theorem Inv.created_of_phase (h : Inv cfg es s) {i : TaskId} (hp : s.phase i ≠ .initial) :
    s.created cfg = cfg.numThreads := by
  have hi := h.tokens.lt_of_phase hp
  unfold State.dispatched at hi
  unfold State.created
  cases hpc : s.pc with
  | foreachCore j =>
    rw [hpc] at hi
    exact absurd hi (Nat.not_lt_zero i)
  | foreachTask j => rfl
  | returned => rfl

theorem Inv.lt_of_stack (h : Inv cfg es s) {c : Core} {f : Frame} {rest : List Frame}
    (hst : s.stack c = f :: rest) : c < cfg.numThreads :=
  h.placed.stack c (by simp [hst])

theorem inv_yield (h : Inv cfg es s) {c : Core} {i : TaskId} {rest : List Frame}
    (hst : s.stack c = .body i :: rest) :
    Inv cfg es ((s.suspend c i (.leaving i) rest .yielded).sendMsg c (some c)
      (.serviceThreadRunYield i)) := by
  have hc := h.lt_of_stack hst
  refine h.tasks (h.tokens.suspend hst rfl .yielded (by simp) (fun j hj => ?_) ?_ ?_ ?_)
    (fun m hm => ?_) ((h.placed.setStack hc).setPhase (by simp) (by simp))
  · simp [State.suspend, Ne.symm hj]
  · simp [State.suspend]
  · simp [State.suspend]
  · simp [State.suspend]
  · cases List.mem_append.mp hm with
    | inl hm => exact .inl hm
    | inr hm =>
      rw [List.mem_singleton.mp hm]
      exact .inr ⟨hc, by simp, by simp, by simp⟩

theorem inv_block (h : Inv cfg es s) {c : Core} {i : TaskId} {f : Frame} {rest : List Frame}
    (hst : s.stack c = .body i :: rest) (hf : f.suspended = true) :
    Inv cfg es (s.suspend c i f rest .blocked) :=
  h.tasks (h.tokens.suspend hst hf .blocked (by simp) (fun _ _ => ⟨rfl, rfl, rfl⟩) rfl rfl rfl)
    (fun _ => .inl) ((h.placed.setStack (h.lt_of_stack hst)).setPhase (by simp) (by simp))

theorem inv_leave (h : Inv cfg es s) {c : Core} {f : Frame} {rest : List Frame}
    (hst : s.stack c = f :: rest) (hf : f.suspended = true) :
    Inv cfg es { s with stack := Function.update s.stack c rest } :=
  h.tasks (h.tokens.leave hst hf) (fun _ => .inl) (h.placed.setStack (h.lt_of_stack hst))

theorem inv_coReturn (h : Inv cfg es s) {c : Core} {i : TaskId} {rest : List Frame}
    (hst : s.stack c = .body i :: rest) :
    Inv cfg es ((s.suspend c i (.leaving i) rest .returned).sendMsg c s.mainThread (.taskDone i)) := by
  have htop := h.tokens.top_phase hst
  have hmain : s.mainThread = some cfg.currentCore :=
    h.main ((h.created_of_phase (i := i) (by simp [htop])).symm ▸ cfg.current_lt)
  rw [hmain]
  refine h.tasks (h.tokens.suspend hst rfl .returned (by simp) (fun j hj => ?_) ?_ ?_ ?_)
    (fun m hm => ?_) ((h.placed.setStack (h.lt_of_stack hst)).setPhase (by simp) (by simp))
  · simp [State.suspend, Ne.symm hj]
  · simp [State.suspend]
  · simp [State.suspend]
  · simp [State.suspend]
  · cases List.mem_append.mp hm with
    | inl hm => exact .inl hm
    | inr hm =>
      rw [List.mem_singleton.mp hm]
      exact .inr ⟨cfg.current_lt, by simp, by simp, by simp⟩

theorem inv_awaitIo (h : Inv cfg es s) {c d : Core} {i : TaskId} {rest : List Frame}
    (hst : s.stack c = .body i :: rest) (hd : d ∈ s.requests i) :
    Inv cfg es (s.suspend c i (.leaving i) rest (.submitted d)) := by
  refine h.tasks (h.tokens.suspend hst rfl (.submitted d) (by simp) (fun _ _ => ⟨rfl, rfl, rfl⟩) rfl rfl
    rfl) (fun _ => .inl) ((h.placed.setStack (h.lt_of_stack hst)).setPhase (by simp)
      fun c' hc' => ?_)
  rw [← Phase.submitted.inj hc']
  exact h.placed.requests i d hd

theorem inv_unblock (h : Inv cfg es s) {c : Core} {i : TaskId} (hc : c < cfg.numThreads)
    (hp : s.phase i = .blocked ∨ ∃ d, s.phase i = .submitted d) : Inv cfg es (s.push c i) :=
  h.tasks (h.tokens.unblock hp) (fun _ => .inl) (h.placed.push hc)

theorem Tokens.exit {d : Nat} {ms ms' : List (Envelope Thread Msg)} {stack : Core → List Frame}
    {phase : TaskId → Phase} (h : Tokens d (inFlight ms) stack phase es) {n : Nat} {self : Thread}
    (hms : ∀ m ∈ ms', ∃ i < n, m = ⟨self, i, .threadExit i⟩) :
    Tokens d (inFlight (ms ++ ms')) stack phase es := by
  have hzero : ∀ f : Msg, (∀ i, f ≠ .threadExit i) → inFlight ms' f = 0 := by
    intro f hf
    refine inFlight_eq_zero fun m hm => ?_
    obtain ⟨i, -, rfl⟩ := hms m hm
    exact (hf i).symm
  refine h.congr fun i => ?_
  simp [hzero]

theorem addressed_exit {self : Thread} {m : Envelope Thread Msg}
    (h : ∃ i < cfg.numThreads, m = ⟨self, i, .threadExit i⟩) : Addressed cfg m := by
  obtain ⟨i, hi, rfl⟩ := h
  exact ⟨hi, by simp, by simp, by simp⟩

theorem inv_taskDone (h : Inv cfg es s) (hpc : s.pc = .returned) {ms : List (Envelope Thread Msg)}
    {i : TaskId} (hsub : ∀ m ∈ ms, m ∈ s.messages)
    (hq : ∀ m, inFlight s.messages m = inFlight ms m + if Msg.taskDone i = m then 1 else 0) :
    Inv cfg (es ++ [i]) (taskDone cfg { s with messages := ms } cfg.currentCore) := by
  have htok := h.tokens.process hq
  have hd : s.dispatched cfg = cfg.numTasks := by simp [State.dispatched, hpc]
  have hcard := htok.card_pending
  have hal := h.alive
  have hst := h.stops
  have hroom := h.room
  have hcr : s.created cfg = cfg.numThreads := by simp [State.created, hpc]
  rw [hd] at hcard hal hroom
  rw [List.length_append, List.length_singleton] at hcard
  have hint : intMin ≤ s.aliveTasks - 1 ∧ s.aliveTasks - 1 ≤ intMax := by
    simp only [intMin, intMax] at hroom ⊢
    omega
  rw [taskDone, setAlive_eq _ hint]
  by_cases hz : s.aliveTasks - 1 = 0
  · rw [if_pos hz]
    obtain ⟨ch, ms', he, -, hms⟩ := serviceExit_eq cfg
      { s with messages := ms, aliveTasks := s.aliveTasks - 1 } cfg.currentCore
      fun j hj => h.threads j (hcr.symm ▸ hj)
    rw [he]
    refine ⟨htok.exit hms, h.sane, h.threads, h.main, fun m hm => ?_, h.placed, h.dispatched_le,
      h.room, fun hp => absurd hpc hp, ?_, ?_⟩
    · cases List.mem_append.mp hm with
      | inl hm => exact h.addressed m (hsub m hm)
      | inr hm => exact addressed_exit (hms m hm)
    · simp only [State.dispatched, hpc, List.length_append, List.length_singleton]
      omega
    · simp only [hst, hpc, true_and, List.length_append, List.length_singleton]
      rw [if_neg (by omega), if_pos (by omega)]
  · rw [if_neg hz]
    refine ⟨htok, h.sane, h.threads, h.main, fun m hm => h.addressed m (hsub m hm), h.placed,
      h.dispatched_le, h.room, fun hp => absurd hpc hp, ?_, ?_⟩
    · simp only [State.dispatched, hpc, List.length_append, List.length_singleton]
      omega
    · simp only [hst, hpc, true_and, List.length_append, List.length_singleton]
      rw [if_neg (by omega), if_neg (by omega)]

theorem inv_silent {t : State} {a : Act} (he : emitDone cfg s a = none) (h : Inv cfg es t) :
    Inv cfg (es ++ (emitDone cfg s a).toList) t := by
  rwa [he, Option.toList_none, List.append_nil]

theorem inv_poll (hn : cfg.numThreads ≤ entries) (h : Inv cfg es s) {sender dest : Thread}
    {m : Envelope Thread Msg} (ho : oldest s.messages sender dest = some m)
    (hidle : s.Idle cfg dest) :
    Inv cfg (es ++ (emitDone cfg s (.poll sender dest)).toList)
      (handle cfg { s with messages := receive s.messages sender dest } dest m.fn) := by
  have hq := inFlight_receive ho
  have hadd := h.addressed m (List.mem_of_find?_eq_some ho)
  have hdest := (oldest_ends ho).2
  obtain ⟨sender', dest', f⟩ := m
  obtain rfl : dest' = dest := hdest
  have hlt : dest' < cfg.numThreads := hadd.dest
  have hin : ∀ i, dest' = i → i < entries := fun i hi => hi ▸ Nat.lt_of_lt_of_le hlt hn
  cases f with
  | threadInitGetChannel core =>
    refine inv_silent (by simp [emitDone, ho]) ?_
    rw [handle, setChannel_eq _ (hin core (hadd.core core (.inl rfl)))]
    exact h.tasks (h.tokens.congr fun i => by simp [hq]) (fun m hm => .inl (mem_of_receive hm)) h.placed
  | serviceThreadRun i =>
    refine inv_silent (by simp [emitDone, ho]) ?_
    have hp := (h.tokens.run_phase hq).2
    rw [handle, serviceThreadRun, if_pos hp]
    exact h.tasks (h.tokens.start hq) (fun m hm => .inl (mem_of_receive hm)) (h.placed.push hlt)
  | serviceThreadRunYield i =>
    refine inv_silent (by simp [emitDone, ho]) ?_
    have hp := h.tokens.yield_phase hq
    rw [handle, serviceThreadRunYield, if_pos hp]
    exact h.tasks (h.tokens.wake hq) (fun m hm => .inl (mem_of_receive hm)) (h.placed.push hlt)
  | taskDone i =>
    obtain rfl : dest' = cfg.currentCore := hadd.done i rfl
    have he : emitDone cfg s (.poll sender cfg.currentCore) = some i := by simp [emitDone, ho, hidle]
    rw [he]
    exact inv_taskDone h (hidle.2 rfl) (fun m hm => mem_of_receive hm) hq
  | threadExit core =>
    refine inv_silent (by simp [emitDone, ho]) ?_
    rw [handle, setChannel_eq _ (hin core (hadd.core core (.inr rfl)))]
    exact h.tasks (h.tokens.congr fun i => by simp [hq]) (fun m hm => .inl (mem_of_receive hm)) h.placed

theorem inv_foreachCore (hn : cfg.numThreads ≤ entries) (h : Inv cfg es s) {i : Core}
    (hpc : s.pc = .foreachCore i) {t : State} (ht : schedulerInit cfg s = some t) : Inv cfg es t := by
  have hes := h.early (by simp [hpc])
  have hd : s.dispatched cfg = 0 := by simp [State.dispatched, hpc]
  have hc : s.created cfg = i := by simp [State.created, hpc]
  have htok := h.tokens
  have hal := h.alive
  have hth := h.threads
  have hmain := h.main
  have hroom := h.room
  have hst : s.stops = 0 := by simpa [hpc] using h.stops
  rw [hd] at htok hal hroom
  rw [hc] at hth hmain
  simp only [schedulerInit, hpc] at ht
  have hth' : ∀ j < i + 1, Function.update s.threads i (some i) j = some j := by
    intro j hj
    by_cases hji : j = i
    · rw [hji, Function.update_self]
    · rw [Function.update_of_ne hji]
      exact hth j (Nat.lt_of_le_of_ne (Nat.le_of_lt_succ hj) hji)
  by_cases hi : i < cfg.numThreads
  · have hin : i < entries := Nat.lt_of_lt_of_le hi hn
    rw [if_pos hi, createThread, setThread_eq _ hin, setThread_eq _ hin, setChannel_eq _ hin] at ht
    by_cases hcur : i ≠ cfg.currentCore
    · rw [if_pos hcur] at ht
      obtain rfl := Option.some.inj ht
      refine ⟨htok.congr fun j => by simp [State.sendMsg], h.sane, hth', fun hlt => ?_,
        fun m hm => ?_, h.placed, Nat.zero_le _, hroom, fun _ => hes, hal,
        by simpa [State.sendMsg] using hst⟩
      · exact hmain (Nat.lt_of_le_of_ne (Nat.le_of_lt_succ hlt) (Ne.symm hcur))
      · cases List.mem_append.mp hm with
        | inl hm => exact h.addressed m hm
        | inr hm =>
          rw [List.mem_singleton.mp hm]
          exact ⟨hi, by simp, by simp, by simp⟩
    · rw [if_neg hcur] at ht
      obtain rfl := Option.some.inj ht
      have hic : i = cfg.currentCore := not_not.mp hcur
      exact ⟨htok, h.sane, hth', fun _ => by rw [hic], h.addressed, h.placed, Nat.zero_le _, hroom,
        fun _ => hes, hal, by simpa using hst⟩
  · rw [if_neg hi] at ht
    obtain rfl := Option.some.inj ht
    have hle := Nat.le_of_not_lt hi
    exact ⟨htok, h.sane, fun j hj => hth j (Nat.lt_of_lt_of_le hj hle),
      fun hlt => hmain (Nat.lt_of_lt_of_le hlt hle), h.addressed, h.placed, Nat.zero_le _, hroom,
      fun _ => hes, hal, by simpa using hst⟩

theorem inv_foreachTask (h : Inv cfg es s) {i : TaskId} (hpc : s.pc = .foreachTask i) {t : State}
    (ht : schedulerInit cfg s = some t) :
    Inv cfg es t ∨ intMax < (cfg.numTasks : Int) ∧ t.crashed = true := by
  have hes := h.early (by simp [hpc])
  have hd : s.dispatched cfg = i := by simp [State.dispatched, hpc]
  have hc : s.created cfg = cfg.numThreads := by simp [State.created, hpc]
  have htok := h.tokens
  have hal := h.alive
  have hle := h.dispatched_le
  have hth := h.threads
  have hmain := h.main
  have hroom := h.room
  have hst : s.stops = 0 := by simpa [hpc] using h.stops
  rw [hd] at htok hal hle hroom
  rw [hc] at hth hmain
  simp only [schedulerInit, hpc] at ht
  by_cases hi : i < cfg.numTasks
  · have hmod := Nat.mod_lt i (Nat.lt_of_le_of_lt (Nat.zero_le _) cfg.current_lt)
    rw [if_pos hi, sendTask, hth _ hmod] at ht
    rw [hes, List.length_nil] at hal
    by_cases hlast : (i : Int) = intMax
    · right
      have hno : ¬ (intMin ≤ s.aliveTasks + 1 ∧ s.aliveTasks + 1 ≤ intMax) := by omega
      rw [State.setAlive, if_neg hno] at ht
      obtain rfl := Option.some.inj ht
      exact ⟨hlast ▸ Int.ofNat_lt.mpr hi, rfl⟩
    · left
      have hint : intMin ≤ s.aliveTasks + 1 ∧ s.aliveTasks + 1 ≤ intMax := by
        simp only [intMin, intMax] at hroom hlast ⊢
        omega
      rw [setAlive_eq _ hint] at ht
      obtain rfl := Option.some.inj ht
      refine ⟨htok.dispatch fun m => by simp [State.sendMsg], h.sane, hth, hmain, fun m hm => ?_,
        h.placed, hi, ?_, fun _ => hes, ?_, by simpa [State.sendMsg] using hst⟩
      · cases List.mem_append.mp hm with
        | inl hm => exact h.addressed m hm
        | inr hm =>
          rw [List.mem_singleton.mp hm]
          exact ⟨hmod, by simp, by simp, by simp⟩
      · change ((i + 1 : Nat) : Int) ≤ intMax
        omega
      · change s.aliveTasks + 1 + (es.length : Int) = ((i + 1 : Nat) : Int)
        rw [hes, List.length_nil]
        omega
  · left
    rw [if_neg hi] at ht
    have hin : i = cfg.numTasks := Nat.le_antisymm hle (Nat.le_of_not_lt hi)
    rw [hin] at htok hal hroom
    rw [hes, List.length_nil] at hal
    by_cases hz : cfg.numTasks = 0
    · rw [if_pos hz] at ht
      obtain rfl := Option.some.inj ht
      obtain ⟨ch, ms, he, -, hms⟩ := serviceExit_eq cfg s cfg.currentCore hth
      rw [he]
      refine ⟨htok.exit hms, h.sane, hth, hmain, fun m hm => ?_, h.placed, Nat.le_refl _, hroom,
        fun _ => hes, by rw [hes]; exact hal, by simp [hst, hes, hz]⟩
      cases List.mem_append.mp hm with
      | inl hm => exact h.addressed m hm
      | inr hm => exact addressed_exit (hms m hm)
    · rw [if_neg hz] at ht
      obtain rfl := Option.some.inj ht
      exact ⟨htok, h.sane, hth, hmain, h.addressed, h.placed, Nat.le_refl _, hroom, fun _ => hes,
        by rw [hes]; exact hal, by simp [hst, hes, Ne.symm hz]⟩

/-- With no more cores than the tables have entries, a step keeps the invariant or counts a task
too many. -/
theorem inv_or_overflow (hn : cfg.numThreads ≤ entries) {t : State} {a : Act} (h : Inv cfg es s)
    (ht : step cfg s a = some t) :
    Inv cfg (es ++ (emitDone cfg s a).toList) t ∨ intMax < (cfg.numTasks : Int) ∧ t.crashed = true := by
  cases moves_of_step ht with
  | schedulerInit ht =>
    cases hpc : s.pc with
    | foreachCore i => exact .inl (inv_silent rfl (inv_foreachCore hn h hpc ht))
    | foreachTask i => exact (inv_foreachTask h hpc ht).imp_left (inv_silent rfl)
    | returned => simp [schedulerInit, hpc] at ht
  | poll ho hidle => exact .inl (inv_poll hn h ho hidle)
  | yield hst => exact .inl (inv_silent rfl (inv_yield h hst))
  | block hst | wait hst => exact .inl (inv_silent rfl (inv_block h hst rfl))
  | leave hst hf => exact .inl (inv_silent rfl (inv_leave h hst hf))
  | resume hst hf hp => exact .inl (inv_silent rfl (inv_unblock h (h.lt_of_stack hst) (.inl hp)))
  | @submit c i rest hst =>
    have hplaced := h.placed.submit (i := i) (h.lt_of_stack hst) (by simp [h.tokens.top_phase hst])
    exact .inl (inv_silent rfl (h.tasks h.tokens (fun _ => .inl) hplaced))
  | awaitIo hst hd => exact .inl (inv_silent rfl (inv_awaitIo h hst hd))
  | ioComplete hidle hp =>
    exact .inl (inv_silent rfl (inv_unblock h (h.placed.submitted _ _ hp) (.inr ⟨_, hp⟩)))
  | coReturn hst => exact .inl (inv_silent rfl (inv_coReturn h hst))

theorem inv_step (hf : cfg.Fits) {t : State} {a : Act} (h : Inv cfg es s)
    (ht : step cfg s a = some t) : Inv cfg (es ++ (emitDone cfg s a).toList) t :=
  (inv_or_overflow hf.threads h ht).resolve_right fun hov => Int.not_lt.mpr hf.tasks hov.1

end Step

end LibCoro.Schedule
