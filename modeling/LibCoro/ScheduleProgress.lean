import LibCoro.ScheduleExit
import Mathlib.Algebra.Order.BigOperators.Group.Finset

namespace LibCoro.Schedule

open Machine Mailbox

variable {cfg : Config} {es : List TaskId} {s t : State} {a : Act}

/-- What the body of a task does on its way to `co_return`. -/
def Act.ofBody : Act → Bool
  | .yield _ | .block _ | .wait _ | .submit _ | .awaitIo _ _ => true
  | _ => false

/-- The steps a task still needs if its body does nothing but return; its message in flight is
counted with the messages. -/
def Phase.left : Phase → Nat
  | .returned => 0
  | .blocked | .submitted _ => 4
  | .initial | .executing _ | .yielded => 3

def InitPc.left (cfg : Config) : InitPc → Nat
  | .foreachCore i => 2 * (cfg.numThreads - i) + 2 * cfg.numTasks + 2
  | .foreachTask i => 2 * (cfg.numTasks - i) + 1
  | .returned => 0

theorem left_executing (c : Core) : (Phase.executing c).left = 3 := rfl

theorem countP_body (i : TaskId) (fs : List Frame) :
    (Frame.body i :: fs).countP Frame.suspended = fs.countP Frame.suspended :=
  List.countP_cons_of_neg (by simp [Frame.suspended])

def State.leaving (cfg : Config) (s : State) : Nat :=
  ∑ c ∈ Finset.range cfg.numThreads, (s.stack c).countP Frame.suspended

def State.left (cfg : Config) (s : State) : Nat :=
  s.pc.left cfg + s.messages.length + ∑ i ∈ Finset.range cfg.numTasks, (s.phase i).left +
    s.leaving cfg + if s.stops = 0 then cfg.numThreads else 0

theorem sum_update {A : Type} {n i : Nat} (hi : i < n) (f : Nat → A) (g : A → Nat) (x : A) :
    ∑ j ∈ Finset.range n, g (Function.update f i x j) + g (f i) =
      ∑ j ∈ Finset.range n, g (f j) + g x := by
  have hmem : i ∈ Finset.range n := Finset.mem_range.mpr hi
  have hrest : ∑ j ∈ (Finset.range n).erase i, g (Function.update f i x j) =
      ∑ j ∈ (Finset.range n).erase i, g (f j) :=
    Finset.sum_congr rfl fun j hj => by rw [Function.update_of_ne (Finset.ne_of_mem_erase hj)]
  rw [← Finset.add_sum_erase _ _ hmem, ← Finset.add_sum_erase _ (fun j => g (f j)) hmem, hrest,
    Function.update_self, Nat.add_right_comm, Nat.add_assoc, Nat.add_comm (g x)]

theorem length_receive {sender dest : Thread} {m : Envelope Thread Msg}
    (h : oldest s.messages sender dest = some m) :
    (receive s.messages sender dest).length + 1 = s.messages.length :=
  (perm_receive h).length_eq.symm

theorem length_serviceExit (cfg : Config) (s : State) (self : Thread) :
    (serviceExit cfg s self).messages.length ≤ s.messages.length + cfg.numThreads := by
  have hfold : ∀ (cores : List Core) (s : State),
      (cores.foldl (exitCore self) s).messages.length ≤ s.messages.length + cores.length := by
    intro cores
    induction cores with
    | nil => exact fun s => Nat.le_refl _
    | cons i cores ih =>
      intro s
      have hle := ih (exitCore self s i)
      have hone : (exitCore self s i).messages.length ≤ s.messages.length + 1 := by
        unfold exitCore
        split_ifs
        · obtain ⟨ch, cr, he⟩ := setChannel_frame s i .put
          rw [he]
          exact Nat.le_succ _
        · cases s.threads i <;> simp [State.sendMsg]
      rw [List.foldl_cons, List.length_cons]
      omega
  exact (hfold _ s).trans (by rw [List.length_range])

theorem length_sendMsg (s : State) (sender : Thread) (dest : Option Thread) (m : Msg) :
    (s.sendMsg sender dest m).messages.length ≤ s.messages.length + 1 := by
  cases dest <;> simp [State.sendMsg]

theorem length_createThread (cfg : Config) (s : State) (i : Core) :
    (createThread cfg s i).messages.length ≤ s.messages.length + 1 := by
  unfold createThread
  split_ifs
  · have hlen := length_sendMsg s cfg.currentCore (some i) (.threadInitGetChannel i)
    obtain ⟨th, cr, he⟩ :=
      setThread_frame (s.sendMsg cfg.currentCore (some i) (.threadInitGetChannel i)) i i
    rwa [he]
  · obtain ⟨ch, cr', he'⟩ := setChannel_frame { s with mainThread := some i } i .obtained
    obtain ⟨th, cr, he⟩ :=
      setThread_frame { s with mainThread := some i, channels := ch, crashed := cr' } i i
    rw [he', he]
    exact Nat.le_succ _

theorem length_sendTask (cfg : Config) (s : State) (i : TaskId) :
    (sendTask cfg s i).messages.length ≤ s.messages.length + 1 := by
  obtain ⟨k, cr, he⟩ := setAlive_frame s (s.aliveTasks + 1)
  rw [sendTask, he]
  exact length_sendMsg { s with aliveTasks := k, crashed := cr } ..

theorem left_serviceExit (cfg : Config) (self : Thread) (hs : s.stops = 0) :
    (serviceExit cfg s self).left cfg ≤ s.left cfg := by
  have hlen := length_serviceExit cfg s self
  obtain ⟨ch, ms, cr, he⟩ := serviceExit_frame cfg s self
  rw [he] at hlen ⊢
  simp only [State.left, State.leaving, hs, Nat.add_one_ne_zero, if_false, if_true] at hlen ⊢
  omega

theorem left_sendMsg (cfg : Config) (s : State) (sender : Thread) (dest : Option Thread) (m : Msg) :
    (s.sendMsg sender dest m).left cfg ≤ s.left cfg + 1 := by
  have hlen := length_sendMsg s sender dest m
  obtain ⟨ms, cr, he⟩ := sendMsg_frame s sender dest m
  rw [he] at hlen ⊢
  simp only [State.left, State.leaving] at hlen ⊢
  omega

theorem left_schedulerInit (h : Inv cfg es s) (ht : schedulerInit cfg s = some t) :
    1 + t.left cfg ≤ s.left cfg := by
  unfold schedulerInit at ht
  cases hpc : s.pc with
  | foreachCore i =>
    simp only [hpc] at ht
    split_ifs at ht with hi <;> obtain rfl := Option.some.inj ht
    · have hi' := Nat.succ_le_of_lt hi
      have hlen := length_createThread cfg s i
      obtain ⟨th, mt, ch, ms, cr, he⟩ := createThread_frame cfg s i
      rw [he] at hlen ⊢
      simp only [State.left, State.leaving, InitPc.left, hpc] at hlen ⊢
      omega
    · simp only [State.left, State.leaving, InitPc.left, hpc]
      omega
  | foreachTask i =>
    have hst : s.stops = 0 := by simpa [hpc] using h.stops
    simp only [hpc] at ht
    split_ifs at ht with hi hz <;> obtain rfl := Option.some.inj ht
    · have hi' := Nat.succ_le_of_lt hi
      have hlen := length_sendTask cfg s i
      obtain ⟨k, ms, cr, he⟩ := sendTask_frame cfg s i
      rw [he] at hlen ⊢
      simp only [State.left, State.leaving, InitPc.left, hpc] at hlen ⊢
      omega
    · have hle := left_serviceExit cfg cfg.currentCore hst
      obtain ⟨ch, ms, cr, he⟩ := serviceExit_frame cfg s cfg.currentCore
      rw [he] at hle ⊢
      simp only [State.left, State.leaving, InitPc.left, hpc] at hle ⊢
      omega
    · simp only [State.left, State.leaving, InitPc.left, hpc]
      omega
  | returned => simp [hpc] at ht

theorem left_move (s : State) {i : TaskId} (hi : i < cfg.numTasks) (p : Phase) {c : Core}
    (hc : c < cfg.numThreads) (fs : List Frame) :
    { s with
        phase := Function.update s.phase i p
        stack := Function.update s.stack c fs }.left cfg +
          ((s.phase i).left + (s.stack c).countP Frame.suspended) =
      s.left cfg + (p.left + fs.countP Frame.suspended) := by
  have hsum := sum_update hi s.phase Phase.left p
  have hst := sum_update hc s.stack (List.countP Frame.suspended) fs
  simp only [State.left, State.leaving]
  omega

theorem left_taskDone (self : Thread) (hs : s.stops = 0) :
    (taskDone cfg s self).left cfg ≤ s.left cfg := by
  obtain ⟨k, cr, he⟩ := setAlive_frame s (s.aliveTasks - 1)
  rw [taskDone, he]
  dsimp only
  split_ifs
  · exact left_serviceExit (s := { s with aliveTasks := k, crashed := cr }) cfg self hs
  · exact Nat.le_refl _

theorem Inv.stops_of_taskDone (h : Inv cfg es s) {i : TaskId}
    (hi : 0 < inFlight s.messages (.taskDone i)) : s.stops = 0 := by
  have hdone := h.tokens.done i
  by_contra hne
  have hlt : i < cfg.numTasks := by
    refine Nat.lt_of_lt_of_le (h.tokens.lt_of_phase fun hp => ?_) h.dispatched_le
    rw [hp, if_neg (by simp)] at hdone
    omega
  have hmem := List.count_pos_iff.mpr (h.all_done hne i hlt)
  split_ifs at hdone
  · omega
  · omega

theorem left_poll (h : Inv cfg es s) {sender dest : Thread} {m : Envelope Thread Msg}
    (ho : oldest s.messages sender dest = some m) (hidle : s.Idle cfg dest) :
    1 + (handle cfg { s with messages := receive s.messages sender dest } dest m.fn).left cfg ≤
      s.left cfg := by
  have hq := inFlight_receive ho
  have hlen := length_receive ho
  have hreceive : 1 + { s with messages := receive s.messages sender dest }.left cfg = s.left cfg := by
    simp only [State.left, State.leaving]
    omega
  have hdest : dest < cfg.numThreads := (oldest_ends ho).2 ▸
    (h.addressed m (List.mem_of_find?_eq_some ho)).dest
  obtain ⟨sender', dest', f⟩ := m
  rw [← hreceive]
  refine Nat.add_le_add_left ?_ 1
  have hpush : ∀ i < cfg.numTasks, (s.phase i).left = 3 →
      ({ s with messages := receive s.messages sender dest }.push dest i).left cfg ≤
        { s with messages := receive s.messages sender dest }.left cfg := by
    intro i hi hp
    have hle := left_move { s with messages := receive s.messages sender dest } hi (.executing dest)
      hdest [.body i]
    simp only [hp, hidle.1, left_executing, countP_body] at hle
    simp only [State.push, hidle.1]
    omega
  cases f with
  | threadInitGetChannel core | threadExit core =>
    obtain ⟨ch, cr, he⟩ := setChannel_frame
      { s with messages := receive s.messages sender dest } core _
    rw [handle, he]
    exact Nat.le_refl _
  | serviceThreadRun i =>
    obtain ⟨hd, hp⟩ := h.tokens.run_phase hq
    rw [handle, serviceThreadRun, if_pos hp]
    exact hpush i (Nat.lt_of_lt_of_le hd h.dispatched_le) (by rw [hp]; rfl)
  | serviceThreadRunYield i =>
    have hp := h.tokens.yield_phase hq
    rw [handle, serviceThreadRunYield, if_pos hp]
    have hi := h.tokens.lt_of_phase (i := i) (by simp [hp])
    exact hpush i (Nat.lt_of_lt_of_le hi h.dispatched_le) (by rw [hp]; rfl)
  | taskDone i =>
    refine left_taskDone (s := { s with messages := receive s.messages sender dest }) dest ?_
    refine h.stops_of_taskDone (i := i) ?_
    rw [hq, if_pos rfl]
    exact Nat.succ_pos _

theorem left_suspend (h : Inv cfg es s) {c : Core} {i : TaskId} {f : Frame} {rest : List Frame}
    (hst : s.stack c = .body i :: rest) (hf : f.suspended = true) (p : Phase) :
    (s.suspend c i f rest p).left cfg + 2 = s.left cfg + p.left := by
  have htop := h.tokens.top_phase hst
  have hi := h.tokens.lt_of_phase (i := i) (by simp [htop])
  have hle := left_move s (Nat.lt_of_lt_of_le hi h.dispatched_le) p (h.lt_of_stack hst) (f :: rest)
  rw [htop, hst, left_executing, countP_body, List.countP_cons_of_pos hf] at hle
  simp only [State.suspend]
  omega

theorem left_unblock (h : Inv cfg es s) {c : Core} {i : TaskId} (hc : c < cfg.numThreads)
    (hp : s.phase i = .blocked ∨ ∃ d, s.phase i = .submitted d) :
    1 + (s.push c i).left cfg = s.left cfg := by
  have hi : i < s.dispatched cfg := by
    refine h.tokens.lt_of_phase ?_
    obtain hp | ⟨d, hp⟩ := hp <;> simp [hp]
  have hleft : (s.phase i).left = 4 := by
    obtain hp | ⟨d, hp⟩ := hp <;> rw [hp] <;> rfl
  have hle := left_move s (Nat.lt_of_lt_of_le hi h.dispatched_le) (.executing c) hc
    (.body i :: s.stack c)
  rw [hleft, left_executing, countP_body] at hle
  simp only [State.push]
  omega

theorem left_leave (h : Inv cfg es s) {c : Core} {f : Frame} {rest : List Frame}
    (hst : s.stack c = f :: rest) (hf : f.suspended = true) :
    1 + { s with stack := Function.update s.stack c rest }.left cfg = s.left cfg := by
  have hsum := sum_update (h.lt_of_stack hst) s.stack (List.countP Frame.suspended) rest
  rw [hst, List.countP_cons_of_pos hf] at hsum
  simp only [State.left, State.leaving]
  omega

theorem left_step (h : Inv cfg es s) (ht : step cfg s a = some t) :
    1 + t.left cfg ≤ 3 * a.ofBody.toNat + s.left cfg := by
  cases moves_of_step ht with
  | schedulerInit ht =>
    have hle := left_schedulerInit h ht
    omega
  | poll ho hidle =>
    have hle := left_poll h ho hidle
    omega
  | @yield c i rest hst =>
    have hle := left_sendMsg cfg (s.suspend c i (.leaving i) rest .yielded) c (some c)
      (.serviceThreadRunYield i)
    have hp := left_suspend h hst (f := .leaving i) rfl .yielded
    simp only [Phase.left, Act.ofBody, Bool.toNat_true] at hp ⊢
    omega
  | @block c i rest hst =>
    have hp := left_suspend h hst (f := .leaving i) rfl .blocked
    simp only [Phase.left, Act.ofBody, Bool.toNat_true] at hp ⊢
    omega
  | @wait c i rest hst =>
    have hp := left_suspend h hst (f := .unlocking i) rfl .blocked
    simp only [Phase.left, Act.ofBody, Bool.toNat_true] at hp ⊢
    omega
  | @awaitIo c d i rest hst hd =>
    have hp := left_suspend h hst (f := .leaving i) rfl (.submitted d)
    simp only [Phase.left, Act.ofBody, Bool.toNat_true] at hp ⊢
    omega
  | submit hst =>
    simp only [State.left, State.leaving, Act.ofBody, Bool.toNat_true]
    omega
  | leave hst hf =>
    have hle := left_leave h hst hf
    omega
  | resume hst hf hp =>
    have hle := left_unblock h (h.lt_of_stack hst) (.inl hp)
    omega
  | ioComplete hidle hp =>
    have hle := left_unblock h (h.placed.submitted _ _ hp) (.inr ⟨_, hp⟩)
    omega
  | @coReturn c i rest hst =>
    have hle := left_sendMsg cfg (s.suspend c i (.leaving i) rest .returned) c s.mainThread (.taskDone i)
    have hp := left_suspend h hst (f := .leaving i) rfl .returned
    simp only [Phase.left] at hp
    omega

structure Ended (cfg : Config) (s : State) : Prop where
  pc : s.pc = .returned
  messages : s.messages = []
  stack : ∀ c, s.stack c = []
  returned : ∀ i < cfg.numTasks, s.phase i = .returned
  stops : s.stops = 1

/-- Somebody is left to release a mutex or to notify: a task that does not wait itself, or one
that is still about to unlock the mutex of its condition variable. -/
def Attended (cfg : Config) (s : State) : Prop :=
  (∃ i, s.phase i = .blocked) →
    (∃ j < cfg.numTasks, s.phase j ≠ .blocked ∧ s.phase j ≠ .returned) ∨
      ∃ c i, .unlocking i ∈ s.stack c

theorem schedulerInit_some (cfg : Config) (h : s.pc ≠ .returned) : ∃ t, schedulerInit cfg s = some t := by
  unfold schedulerInit
  cases hpc : s.pc with
  | returned => exact absurd hpc h
  | foreachCore i | foreachTask i =>
    simp only
    split_ifs <;> exact ⟨_, rfl⟩

/-- A state without a further step: some tasks may be left that wait for each other. -/
theorem Inv.stuck (h : Inv cfg es s) (hpc : s.pc = .returned) (hst : ∀ c, s.stack c = [])
    (hms : s.messages = []) (hio : ∀ i c, s.phase i ≠ .submitted c) :
    ∀ i < cfg.numTasks, s.phase i = .blocked ∨ s.phase i = .returned := by
  intro i hi
  have hd : s.dispatched cfg = cfg.numTasks := by simp [State.dispatched, hpc]
  have hrun := h.tokens.run i
  have hyield := h.tokens.yield i
  rw [hms, hd] at hrun
  rw [hms] at hyield
  cases hp : s.phase i with
  | initial => simp [hp, hi] at hrun
  | yielded => simp [hp] at hyield
  | executing c =>
    have hstack := h.tokens.stack c i
    simp [hp, hst c] at hstack
  | submitted c => exact absurd hp (hio i c)
  | blocked => exact .inl rfl
  | returned => exact .inr rfl

theorem attended_of_executing {i : TaskId} {c : Core} (hi : i < cfg.numTasks)
    (ht : t.phase i = .executing c) : Attended cfg t :=
  fun _ => .inl ⟨i, hi, by simp [ht]⟩

theorem Attended.same (h : Attended cfg s) (ht : t.phase = s.phase)
    (hst : ∀ c i, .unlocking i ∈ s.stack c → .unlocking i ∈ t.stack c) : Attended cfg t := by
  rw [Attended, ht]
  refine fun hb => (h hb).imp_right ?_
  rintro ⟨c, i, hi⟩
  exact ⟨c, i, hst c i hi⟩

theorem attended_poll (h : Inv cfg es s) (hat : Attended cfg s) {sender dest : Thread}
    {m : Envelope Thread Msg} (ho : oldest s.messages sender dest = some m) :
    Attended cfg (handle cfg { s with messages := receive s.messages sender dest } dest m.fn) := by
  have hq := inFlight_receive ho
  obtain ⟨sender', dest', f⟩ := m
  cases f with
  | threadInitGetChannel core | threadExit core =>
    obtain ⟨ch, cr, he⟩ := setChannel_frame
      { s with messages := receive s.messages sender dest } core _
    rw [handle, he]
    exact hat
  | taskDone i =>
    obtain ⟨k, ch, ms, cr, n, he⟩ := taskDone_frame cfg
      { s with messages := receive s.messages sender dest } dest
    rw [handle, he]
    exact hat
  | serviceThreadRun i =>
    obtain ⟨hd, hp⟩ := h.tokens.run_phase hq
    rw [handle, serviceThreadRun, if_pos hp]
    exact attended_of_executing (Nat.lt_of_lt_of_le hd h.dispatched_le) (Function.update_self ..)
  | serviceThreadRunYield i =>
    have hp := h.tokens.yield_phase hq
    rw [handle, serviceThreadRunYield, if_pos hp]
    exact attended_of_executing (Nat.lt_of_lt_of_le (h.tokens.lt_of_phase (by simp [hp])) h.dispatched_le)
      (Function.update_self ..)

theorem Inv.step_of_stack (h : Inv cfg es s) (hat : Attended cfg s) {c : Core} (hc : s.stack c ≠ []) :
    ∃ a t, a.ofBody = false ∧ step cfg s a = some t ∧ Attended cfg t := by
  obtain ⟨f, rest, hst⟩ := List.exists_cons_of_ne_nil hc
  by_cases hb : f.resumes = true ∧ ∃ j, s.phase j = .blocked
  · obtain ⟨hf, j, hj⟩ := hb
    refine ⟨.resume c j, s.push c j, rfl, if_pos ⟨by simp [hst, hf], hj⟩, ?_⟩
    refine attended_of_executing (Nat.lt_of_lt_of_le (h.tokens.lt_of_phase ?_) h.dispatched_le)
      (Function.update_self j _ _)
    simp [hj]
  · cases f with
    | body i =>
      refine ⟨.coReturn c, (s.suspend c i (.leaving i) rest .returned).sendMsg c s.mainThread
        (.taskDone i), rfl, by simp [step, hst], ?_⟩
      rintro ⟨j, hj⟩
      rw [(sendMsg_phase ..).1] at hj
      by_cases hji : j = i
      · simp [hji, State.suspend] at hj
      · exact absurd ⟨rfl, j, by simpa [State.suspend, hji] using hj⟩ hb
    | unlocking i =>
      refine ⟨.leave c, _, rfl, by simp only [step, hst]; exact if_pos rfl, ?_⟩
      exact fun hj => absurd ⟨rfl, hj⟩ hb
    | leaving i =>
      refine ⟨.leave c, _, rfl, by simp only [step, hst]; exact if_pos rfl, ?_⟩
      refine hat.same rfl fun d j hj => ?_
      by_cases hdc : d = c
      · subst hdc
        simpa [hst] using hj
      · simpa [Function.update_of_ne hdc] using hj

theorem Inv.step_of_messages (h : Inv cfg es s) (hat : Attended cfg s) (hidle : ∀ c, s.Idle cfg c)
    (hms : s.messages ≠ []) : ∃ a t, a.ofBody = false ∧ step cfg s a = some t ∧ Attended cfg t := by
  obtain ⟨m, rest, hm⟩ := List.exists_cons_of_ne_nil hms
  have ho : oldest s.messages m.sender m.dest = some m := by simp [hm, oldest]
  refine ⟨.poll m.sender m.dest, _, rfl, ?_, attended_poll h hat ho⟩
  simp only [step, ho]
  exact if_pos (hidle m.dest)

theorem Inv.step_of_submitted (h : Inv cfg es s) {i : TaskId} {c : Core} (hidle : s.Idle cfg c)
    (hi : s.phase i = .submitted c) :
    ∃ a t, a.ofBody = false ∧ step cfg s a = some t ∧ Attended cfg t := by
  refine ⟨.ioComplete c i, s.push c i, rfl, if_pos ⟨hidle, hi⟩, ?_⟩
  refine attended_of_executing (Nat.lt_of_lt_of_le (h.tokens.lt_of_phase ?_) h.dispatched_le)
    (Function.update_self i _ _)
  simp [hi]

/-- Unless all is over, there is a step in which no body does anything but return. -/
theorem Inv.step_or_ended (h : Inv cfg es s) (hat : Attended cfg s) :
    Ended cfg s ∨ ∃ a t, a.ofBody = false ∧ step cfg s a = some t ∧ Attended cfg t := by
  by_cases hpc : s.pc = .returned
  swap
  · obtain ⟨t, ht⟩ := schedulerInit_some cfg hpc
    obtain ⟨hphase, hstack, -⟩ := schedulerInit_frame ht
    exact .inr ⟨.schedulerInit, t, rfl, ht, hat.same hphase fun c i hi => hstack ▸ hi⟩
  by_cases hst : ∀ c, s.stack c = []
  swap
  · obtain ⟨c, hc⟩ := not_forall.mp hst
    exact .inr (h.step_of_stack hat hc)
  have hidle : ∀ c, s.Idle cfg c := fun c => ⟨hst c, fun _ => hpc⟩
  by_cases hms : s.messages = []
  swap
  · exact .inr (h.step_of_messages hat hidle hms)
  by_cases hio : ∃ i c, s.phase i = .submitted c
  · obtain ⟨i, c, hi⟩ := hio
    exact .inr (h.step_of_submitted (hidle c) hi)
  · have hleft := h.stuck hpc hst hms fun i c hi => hio ⟨i, c, hi⟩
    have hreturned : ∀ i < cfg.numTasks, s.phase i = .returned := by
      intro i hi
      refine (hleft i hi).resolve_left fun hb => ?_
      obtain ⟨j, hj, hnb, hnr⟩ | ⟨c, j, hj⟩ := hat ⟨i, hb⟩
      · exact (hleft j hj).elim hnb hnr
      · simp [hst c] at hj
    exact .inl ⟨hpc, hms, hst, hreturned, h.stopped hpc hms hreturned⟩

theorem Inv.ends (hf : cfg.Fits) (h : Inv cfg es s) (hat : Attended cfg s) :
    ∃ bs t, run (step cfg) s bs = some t ∧ Ended cfg t := by
  induction hn : s.left cfg using Nat.strong_induction_on generalizing s es with
  | h n ih =>
    obtain hend | ⟨a, t, ha, ht, hat'⟩ := h.step_or_ended hat
    · exact ⟨[], s, rfl, hend⟩
    · have hle := left_step h ht
      rw [ha, Bool.toNat_false, Nat.mul_zero, Nat.zero_add, hn] at hle
      obtain ⟨bs, u, hr, hend⟩ := ih (t.left cfg) (by omega) (inv_step hf h ht) hat' rfl
      exact ⟨a :: bs, u, (run_cons _ _ _ _).mpr ⟨t, ht, hr⟩, hend⟩

end LibCoro.Schedule
