import LibCoro.ScheduleExit

namespace LibCoro.Schedule

open Machine Mailbox

/-- The channel of a core has been obtained, or the message that obtains it is ahead of every
other message of the main thread to that core. -/
def Queued (cfg : Config) (ch : Core → Channel) (created : Nat) (ms : List (Envelope Thread Msg)) :
    Prop :=
  ∀ d, ch d ≠ .null ∨ (created ≤ d ∧ queue ms cfg.currentCore d = []) ∨
    ∃ rest, queue ms cfg.currentCore d =
      ⟨cfg.currentCore, d, .threadInitGetChannel d⟩ :: rest

def Carried (cfg : Config) (ch : Core → Channel) (stops : Nat) (m : Envelope Thread Msg) : Prop :=
  match m.fn with
  | .threadInitGetChannel c => m.dest = c
  | .serviceThreadRun _ => m.sender = cfg.currentCore
  | .serviceThreadRunYield _ => ch m.dest ≠ .null
  | .taskDone _ => True
  | .threadExit _ => stops ≠ 0

/-- Wherever a task runs, or will run next, the channel has been obtained. -/
structure Fed (cfg : Config) (s : State) : Prop where
  queued : Queued cfg s.channels (s.created cfg) s.messages
  carried : ∀ m ∈ s.messages, Carried cfg s.channels s.stops m
  running : ∀ c, s.stack c ≠ [] → s.channels c ≠ .null
  requests : ∀ i, ∀ c ∈ s.requests i, s.channels c ≠ .null
  submitted : ∀ i c, s.phase i = .submitted c → s.channels c ≠ .null
  put : ∀ c, s.channels c = .put → s.stops ≠ 0

section Queued

variable {cfg : Config} {ch ch' : Core → Channel} {created : Nat}
  {ms ms' : List (Envelope Thread Msg)} {sender dest : Thread} {m : Envelope Thread Msg}

theorem queue_of_forall_ne {d : Core}
    (h : ∀ m ∈ ms, ¬ (m.sender = cfg.currentCore ∧ m.dest = d)) :
    queue ms cfg.currentCore d = [] := by
  refine List.filter_eq_nil_iff.mpr fun m hm => ?_
  simpa using fun hs hd => h m hm ⟨hs, hd⟩

theorem queued_append (h : Queued cfg ch created ms)
    (hms : ∀ m ∈ ms', m.sender = cfg.currentCore → ch m.dest ≠ .null ∨ m.dest < created) :
    Queued cfg ch created (ms ++ ms') := by
  intro d
  rw [queue_append]
  obtain hd | ⟨hd, hq⟩ | ⟨rest, hq⟩ := h d
  · exact .inl hd
  · by_cases hn : ch d = .null
    · have hnone : queue ms' cfg.currentCore d = [] := by
        refine queue_of_forall_ne fun m hm ⟨hs, hmd⟩ => ?_
        obtain hc | hlt := hms m hm hs
        · exact hc (hmd ▸ hn)
        · exact absurd hd (Nat.not_le_of_lt (hmd ▸ hlt))
      exact .inr (.inl ⟨hd, by rw [hq, hnone, List.append_nil]⟩)
    · exact .inl hn
  · exact .inr (.inr ⟨_, by rw [hq, List.cons_append]⟩)

theorem queued_receive (h : Queued cfg ch created ms) (ho : oldest ms sender dest = some m)
    (hmono : ∀ d, ch d ≠ .null → ch' d ≠ .null)
    (hinit : m.fn = .threadInitGetChannel dest → ch' dest ≠ .null) :
    Queued cfg ch' created (receive ms sender dest) := by
  intro d
  by_cases hsd : sender = cfg.currentCore ∧ dest = d
  · obtain ⟨rfl, rfl⟩ := hsd
    have hq := queue_oldest ho
    obtain hd | ⟨_, hnil⟩ | ⟨rest, hcons⟩ := h dest
    · exact .inl (hmono dest hd)
    · rw [hq] at hnil
      cases hnil
    · rw [hq] at hcons
      exact .inl (hinit (by rw [(List.cons.inj hcons).1]))
  · rw [queue_receive_ne hsd]
    exact (h d).imp_left (hmono d)

theorem Carried.mono {stops stops' : Nat} (h : Carried cfg ch stops m)
    (hmono : ∀ d, ch d ≠ .null → ch' d ≠ .null) (hstops : stops ≠ 0 → stops' ≠ 0) :
    Carried cfg ch' stops' m := by
  unfold Carried at h ⊢
  cases hf : m.fn with
  | serviceThreadRunYield i =>
    rw [hf] at h
    exact hmono m.dest h
  | threadExit i =>
    rw [hf] at h
    exact hstops h
  | threadInitGetChannel c | serviceThreadRun i =>
    rw [hf] at h
    exact h
  | taskDone i => trivial

end Queued

section Step

variable {cfg : Config} {es : List TaskId} {s t : State}

theorem Fed.setStack (h : Fed cfg s) {c : Core} (hc : s.channels c ≠ .null) (fs : List Frame) :
    Fed cfg { s with stack := Function.update s.stack c fs } where
  queued := h.queued
  carried := h.carried
  running d hd := by
    by_cases hdc : d = c
    · exact hdc ▸ hc
    · refine h.running d ?_
      simpa [Function.update_of_ne hdc] using hd
  requests := h.requests
  submitted := h.submitted
  put := h.put

theorem Fed.send (h : Fed cfg s) {c : Core} {i : TaskId} {f f' : Frame} {rest : List Frame} {p : Phase}
    {ms : List (Envelope Thread Msg)} (hst : s.stack c = f :: rest)
    (hp : ∀ d, p = .submitted d → s.channels d ≠ .null)
    (hms : ∀ m ∈ ms, m.sender = c ∧ Carried cfg s.channels s.stops m ∧
      (s.channels m.dest ≠ .null ∨ m.dest < s.created cfg)) :
    Fed cfg { s.suspend c i f' rest p with messages := s.messages ++ ms } where
  queued := queued_append h.queued fun m hm _ => (hms m hm).2.2
  carried m hm := (List.mem_append.mp hm).elim (h.carried m) fun hm => (hms m hm).2.1
  running d hd := by
    refine (h.setStack (h.running c (by simp [hst])) (f' :: rest)).running d ?_
    simpa [State.suspend] using hd
  requests := h.requests
  submitted j d hj := by
    by_cases hji : j = i
    · refine hp d ?_
      simpa [State.suspend, hji] using hj
    · refine h.submitted j d ?_
      simpa [State.suspend, Function.update_of_ne hji] using hj
  put := h.put

theorem Fed.suspend (h : Fed cfg s) {c : Core} {i : TaskId} {f f' : Frame} {rest : List Frame}
    {p : Phase} (hst : s.stack c = f :: rest)
    (hp : ∀ d, p = .submitted d → s.channels d ≠ .null) : Fed cfg (s.suspend c i f' rest p) := by
  have hsend : Fed cfg { s.suspend c i f' rest p with messages := s.messages ++ [] } :=
    h.send hst hp (by simp)
  rwa [List.append_nil] at hsend

theorem Fed.push (h : Fed cfg s) {c : Core} (i : TaskId) (hc : s.channels c ≠ .null) :
    Fed cfg (s.push c i) where
  queued := h.queued
  carried := h.carried
  running d hd := by
    refine (h.setStack hc (.body i :: s.stack c)).running d ?_
    simpa [State.push] using hd
  requests := h.requests
  submitted j d hj := by
    by_cases hji : j = i
    · simp [State.push, hji] at hj
    · refine h.submitted j d ?_
      simpa [State.push, Function.update_of_ne hji] using hj
  put := h.put

theorem Fed.receive (h : Fed cfg s) {ch : Core → Channel} {sender dest : Thread}
    {m : Envelope Thread Msg} (ho : oldest s.messages sender dest = some m)
    (hmono : ∀ d, s.channels d ≠ .null → ch d ≠ .null)
    (hinit : m.fn = .threadInitGetChannel dest → ch dest ≠ .null)
    (hput : ∀ c, ch c = .put → s.stops ≠ 0) :
    Fed cfg { s with channels := ch, messages := Mailbox.receive s.messages sender dest } where
  queued := queued_receive h.queued ho hmono hinit
  carried m hm := (h.carried m (mem_of_receive hm)).mono hmono id
  running c hc := hmono c (h.running c hc)
  requests i c hc := hmono c (h.requests i c hc)
  submitted i c hp := hmono c (h.submitted i c hp)
  put := hput

theorem Fed.exit (h : Fed cfg s) (hth : ∀ i < cfg.numThreads, s.threads i = some i)
    (hcr : s.created cfg = cfg.numThreads) (self : Thread) : Fed cfg (serviceExit cfg s self) := by
  obtain ⟨ch, ms, he, hch, hms⟩ := serviceExit_eq cfg s self hth
  have hmono : ∀ d, s.channels d ≠ .null → ch d ≠ .null := by
    intro d hd
    obtain hcd | hcd := hch d <;> rw [hcd]
    · exact hd
    · simp
  rw [he]
  refine ⟨queued_append (fun d => (h.queued d).imp_left (hmono d)) fun m hm _ => .inr ?_,
    fun m hm => ?_, fun c hc => hmono c (h.running c hc), fun i c hc => hmono c (h.requests i c hc),
    fun i c hp => hmono c (h.submitted i c hp), fun c _ => Nat.succ_ne_zero _⟩
  · obtain ⟨i, hi, rfl⟩ := hms m hm
    exact hcr.symm ▸ hi
  · cases List.mem_append.mp hm with
    | inl hm => exact (h.carried m hm).mono hmono fun _ => Nat.succ_ne_zero _
    | inr hm =>
      obtain ⟨i, _, rfl⟩ := hms m hm
      exact Nat.succ_ne_zero _

theorem Queued.mono {ch ch' : Core → Channel} {n n' : Nat} {ms : List (Envelope Thread Msg)}
    (h : Queued cfg ch n ms) (hn : ∀ d, n ≤ d → n' ≤ d ∨ ch' d ≠ .null)
    (hmono : ∀ d, ch d ≠ .null → ch' d ≠ .null) : Queued cfg ch' n' ms := by
  intro d
  obtain hd | ⟨hd, hq⟩ | hq := h d
  · exact .inl (hmono d hd)
  · exact (hn d hd).elim (fun hd => .inr (.inl ⟨hd, hq⟩)) .inl
  · exact .inr (.inr hq)

end Step

structure Obtained (got : List (Core × Thread)) (s : State) : Prop where
  own : ∀ p ∈ got, p.2 = p.1
  all : ∀ c, s.channels c = .obtained → (c, c) ∈ got

theorem Obtained.same {got : List (Core × Thread)} {e : Option (Core × Thread)}
    (h : Obtained got s) (he : e = none)
    (hch : ∀ d, t.channels d = .obtained → s.channels d = .obtained) :
    Obtained (got ++ e.toList) t := by
  rw [he, Option.toList_none, List.append_nil]
  exact ⟨h.own, fun c hc => h.all c (hch c hc)⟩

theorem Obtained.get {got : List (Core × Thread)} {e : Option (Core × Thread)}
    (h : Obtained got s) {c : Core} (he : e = some (c, c))
    (hch : t.channels = Function.update s.channels c .obtained) :
    Obtained (got ++ e.toList) t := by
  rw [he, Option.toList_some]
  refine ⟨fun p hp => ?_, fun d hd => List.mem_append.mpr ?_⟩
  · cases List.mem_append.mp hp with
    | inl hp => exact h.own p hp
    | inr hp => rw [List.mem_singleton.mp hp]
  · by_cases hdc : d = c
    · exact .inr (by simp [hdc])
    · rw [hch, Function.update_of_ne hdc] at hd
      exact .inl (h.all d hd)

/-- The channel of core `c` can be used: `got` lists the channels obtained so far, each with the
thread on which that happened. -/
structure Live (got : List (Core × Thread)) (s : State) (c : Core) : Prop where
  sane : s.crashed = false
  obtained : s.channels c = .obtained
  own : (c, c) ∈ got
  only : ∀ p ∈ got, p.2 = p.1

end LibCoro.Schedule
