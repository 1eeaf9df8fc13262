import LibCoro.Service

namespace LibCoro.Service

open Machine

variable {R : Type} [DecidableEq R]

/-- A request gets `-ENOMEM` from its first submission only while no wait entry of its core
is queued. -/
def Alone (args : R → Request) (s : State R) : Act R → Prop
  | .issue r rc => rc = -ENOMEM → s.ioWait (args r).core = []
  | _ => True

instance (args : R → Request) (s : State R) (a : Act R) : Decidable (Alone args s a) := by
  cases a <;> unfold Alone <;> infer_instance

def ownSubmission (args : R → Request) (r : R) : Submission R := ⟨args r, r⟩

def ownContext (args : R → Request) (r : R) : RetryContext R :=
  ⟨(args r).buf, (args r).len, (args r).offset, r⟩

/-- The entry and the context of a core belong to the request that waits there. -/
structure Own (args : R → Request) (s : State R) : Prop where
  entry : ∀ c, ∀ w ∈ s.ioWait c, w.entry = c ∧ (args w.owner).core = c
  slot : ∀ c, ∀ w ∈ s.ioWait c, s.waitEntries c = some ⟨(args w.owner).direction, c⟩ ∧
    s.retryContexts c = some (ownContext args w.owner)
  pending : ∀ p ∈ s.pending, p = ownSubmission args p.res
  submitted : ∀ p ∈ s.submitted, p.2 = ownSubmission args p.1

structure Kept (s t : State R) : Prop where
  waitEntries : t.waitEntries = s.waitEntries
  retryContexts : t.retryContexts = s.retryContexts
  ioWait : t.ioWait = s.ioWait
  pending : t.pending = s.pending
  submitted : t.submitted = s.submitted
  codes : t.codes = s.codes
  ready : t.ready = s.ready

theorem kept_resume (s : State R) (r : R) (res : Int) : Kept s (resume (s.setRes r res) r) := by
  unfold resume
  split
  · split_ifs <;> exact ⟨rfl, rfl, rfl, rfl, rfl, rfl, rfl⟩
  · exact ⟨rfl, rfl, rfl, rfl, rfl, rfl, rfl⟩

omit [DecidableEq R] in
theorem own_kept {args : R → Request} {s t : State R} (ho : Own args s) (hk : Kept s t) :
    Own args t := by
  refine ⟨?_, ?_, ?_, ?_⟩
  · rw [hk.ioWait]
    exact ho.entry
  · rw [hk.ioWait, hk.waitEntries, hk.retryContexts]
    exact ho.slot
  · rw [hk.pending]
    exact ho.pending
  · rw [hk.submitted]
    exact ho.submitted

theorem own_record {args : R → Request} {s : State R} (ho : Own args s) (r : R) (rc : Int) :
    Own args (s.record r (ownSubmission args r) rc) := by
  refine ⟨ho.entry, ho.slot, ho.pending, fun p hp => ?_⟩
  obtain hp | hp := List.mem_append.mp hp
  · exact ho.submitted p hp
  · rw [List.mem_singleton.mp hp]

omit [DecidableEq R] in
theorem own_accept {args : R → Request} {s : State R} (ho : Own args s) (r : R) :
    Own args (s.accept (ownSubmission args r)) := by
  refine ⟨ho.entry, ho.slot, fun p hp => ?_, ho.submitted⟩
  obtain hp | hp := List.mem_append.mp hp
  · exact ho.pending p hp
  · rw [List.mem_singleton.mp hp]
    rfl

omit [DecidableEq R] in
theorem own_queueIoWait {args : R → Request} {s : State R} (ho : Own args s) (r : R)
    (he : s.ioWait (args r).core = []) :
    Own args (queueIoWait s (args r).core r (args r).direction (args r).buf (args r).len
      (args r).offset) := by
  have hcases : ∀ c, ∀ w ∈ Function.update s.ioWait (args r).core
      (s.ioWait (args r).core ++ [⟨(args r).core, r⟩]) c,
      c = (args r).core ∧ w = ⟨(args r).core, r⟩ ∨ c ≠ (args r).core ∧ w ∈ s.ioWait c := by
    intro c w hw
    by_cases hc : c = (args r).core
    · rw [hc, Function.update_self, he, List.nil_append, List.mem_singleton] at hw
      exact .inl ⟨hc, hw⟩
    · rw [Function.update_of_ne hc] at hw
      exact .inr ⟨hc, hw⟩
  refine ⟨fun c w hw => ?_, fun c w hw => ?_, ho.pending, ho.submitted⟩
  · obtain ⟨rfl, rfl⟩ | ⟨-, hw⟩ := hcases c w hw
    · exact ⟨rfl, rfl⟩
    · exact ho.entry c w hw
  · obtain ⟨rfl, rfl⟩ | ⟨hc, hw⟩ := hcases c w hw
    · simp [queueIoWait, ownContext]
    · simpa [queueIoWait, hc] using ho.slot c w hw

def issued (args : R → Request) (s : State R) (r : R) (rc : Int) : State R :=
  submit (args r).direction s (args r).core r (args r).buf (args r).len (args r).offset rc

theorem issue_eq_some (args : R → Request) (s t : State R) (r : R) (rc : Int) :
    step args s (.issue r rc) = some t ↔ s.phase r = .fresh ∧ issued args s r rc = t := by
  simp only [step, when_eq_some, issued]
  cases (args r).direction <;> rfl

def retried (args : R → Request) (s : State R) (r : R) (rc : Int) : State R :=
  spdkRetry (args r).direction s (args r).core r (ownContext args r) rc

def State.dequeue (s : State R) (c : Nat) (w : Waiting R) : State R :=
  { s with ioWait := Function.update s.ioWait c ((s.ioWait c).erase w) }

theorem retry_eq_some {args : R → Request} {s t : State R} {c : Nat} {w : Waiting R} {rc : Int}
    (ho : Own args s) (h : step args s (.retry c w rc) = some t) :
    w ∈ s.ioWait c ∧ (args w.owner).core = c ∧ retried args (s.dequeue c w) w.owner rc = t := by
  simp only [step] at h
  split_ifs at h with hw
  obtain ⟨hentry, hcore⟩ := ho.entry c w hw
  obtain ⟨hslot, hctx⟩ := ho.slot c w hw
  refine ⟨hw, hcore, ?_⟩
  simp only [callWaiting, hentry, hslot, hctx, Option.bind_some, Option.map_some] at h
  rw [← Option.some.inj h, retried, hcore]
  cases (args w.owner).direction <;> rfl

theorem own_dequeue {args : R → Request} {s : State R} (ho : Own args s) (c : Nat) (w : Waiting R) :
    Own args (s.dequeue c w) := by
  have hsub : ∀ d, ∀ v ∈ (s.dequeue c w).ioWait d, v ∈ s.ioWait d := by
    intro d v hv
    by_cases hd : d = c
    · subst hd
      simp only [State.dequeue, Function.update_self] at hv
      exact List.mem_of_mem_erase hv
    · simpa [State.dequeue, hd] using hv
  exact ⟨fun d v hv => ho.entry d v (hsub d v hv), fun d v hv => ho.slot d v (hsub d v hv),
    ho.pending, ho.submitted⟩

theorem own_step {args : R → Request} (s : State R) (a : Act R) (t : State R) (ho : Own args s)
    (ha : Alone args s a) (h : step args s a = some t) : Own args t := by
  cases a with
  | issue r rc =>
    obtain ⟨-, rfl⟩ := (issue_eq_some args s t r rc).mp h
    have hp : Own args { s with phase := Function.update s.phase r .created } :=
      ⟨ho.entry, ho.slot, ho.pending, ho.submitted⟩
    have hr := own_record hp r rc
    change Own args (if rc = -ENOMEM then _ else if rc ≠ 0 then _ else _)
    split_ifs with hm hz
    · exact own_queueIoWait hr r (ha hm)
    · exact ⟨hr.entry, hr.slot, hr.pending, hr.submitted⟩
    · exact own_accept hr r
  | await r =>
    obtain ⟨-, rfl⟩ := (when_eq_some _ _ _).mp h
    unfold await
    split_ifs <;> exact ⟨ho.entry, ho.slot, ho.pending, ho.submitted⟩
  | complete p success =>
    obtain ⟨-, rfl⟩ := (when_eq_some _ _ _).mp h
    refine own_kept ?_ (kept_resume _ p.res _)
    exact ⟨ho.entry, ho.slot, fun q hq => ho.pending q (List.mem_of_mem_erase hq), ho.submitted⟩
  | retry c w rc =>
    obtain ⟨-, -, rfl⟩ := retry_eq_some ho h
    have hr := own_record (own_dequeue ho c w) w.owner rc
    change Own args (if rc = -ENOMEM then _ else if rc ≠ 0 then _ else _)
    split_ifs with hm hz
    · exact hr
    · exact own_kept hr (kept_resume _ w.owner rc)
    · exact own_accept hr w.owner

omit [DecidableEq R] in
theorem own_init (args : R → Request) : Own args (init : State R) := by
  constructor <;> simp [init]

theorem own_run {args : R → Request} {as : List (Act R)} {s : State R}
    (h : run (step args) init as = some s) (ha : Meets (step args) (Alone args) init as) :
    Own args s :=
  run_invariant_of_meets (Alone args) (Own args) own_step h ha (own_init args)

/-- Every submission made for a request, the first one or a retry, has the request's own
direction, arguments and result slot. -/
theorem submissions_isolated (args : R → Request) (as : List (Act R)) (s : State R)
    (h : run (step args) init as = some s) (ha : Meets (step args) (Alone args) init as) :
    ∀ p ∈ s.submitted, p.2 = ownSubmission args p.1 :=
  (own_run h ha).submitted

theorem submissions_isolated_two_cores : ∃ s : State (Fin 2),
    run (step fun r => ⟨r.val, if r = 0 then .read else .write, 100 + r.val, 8, 0⟩) init
      [.issue 0 (-12), .await 0, .issue 1 (-12), .await 1, .retry 1 ⟨1, 1⟩ 0, .retry 0 ⟨0, 0⟩ 0] =
      some s ∧
    ∀ p ∈ s.submitted, p.2 =
      ownSubmission (fun r => ⟨r.val, if r = 0 then .read else .write, 100 + r.val, 8, 0⟩) p.1 :=
  ⟨_, rfl, submissions_isolated _
    [.issue 0 (-12), .await 0, .issue 1 (-12), .await 1, .retry 1 ⟨1, 1⟩ 0, .retry 0 ⟨0, 0⟩ 0] _ rfl
    (by decide)⟩

/-- On one core the second request takes over the slot of the first: the retry of the
read submits the write once more. -/
theorem submissions_mixed_up : ∃ s : State (Fin 2),
    run (step fun r => ⟨0, if r = 0 then .read else .write, 100 + r.val, 8, 0⟩) init
      [.issue 0 (-12), .await 0, .issue 1 (-12), .await 1, .retry 0 ⟨0, 0⟩ 0] = some s ∧
    (0, ⟨⟨0, .write, 101, 8, 0⟩, 1⟩) ∈ s.submitted ∧
    ¬ ∀ p ∈ s.submitted, p.2 =
      ownSubmission (fun r => ⟨0, if r = 0 then .read else .write, 100 + r.val, 8, 0⟩) p.1 :=
  ⟨_, rfl, by decide, by decide⟩

end LibCoro.Service
