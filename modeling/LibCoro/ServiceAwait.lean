import LibCoro.ServiceOwnership

namespace LibCoro.Service

open Machine

variable {R : Type} [DecidableEq R]

instance (rc : Int) : Decidable (Failure rc) := inferInstanceAs (Decidable (_ ∧ _))

def emitStatus (s : State R) : Act R → Option (R × Int)
  | .issue r rc => if Failure rc then some (r, rc) else none
  | .await _ => none
  | .complete submission success => some (submission.res, if success then 0 else 1)
  | .retry _ waiting rc =>
    if Failure rc then
      (s.waitEntries waiting.entry).bind fun entry =>
        (s.retryContexts entry.cbArg).map fun ctx => (ctx.res, rc)
    else none

def statuses (es : List (R × Int)) (r : R) : List Int :=
  (es.filter fun e => e.1 = r).map Prod.snd

/-- No request ends in a callback before its coroutine has awaited it. -/
def NotEarly (s : State R) : Act R → Prop
  | .complete submission _ => s.phase submission.res ≠ .created
  | .retry _ waiting rc => Failure rc → s.phase waiting.owner ≠ .created
  | _ => True

instance (s : State R) : (a : Act R) → Decidable (NotEarly s a)
  | .issue _ _ | .await _ => .isTrue trivial
  | .complete submission _ => inferInstanceAs (Decidable (s.phase submission.res ≠ .created))
  | .retry _ waiting rc =>
    inferInstanceAs (Decidable (Failure rc → s.phase waiting.owner ≠ .created))

/-- SPDK still has the submission of a request, or its wait entry, or its retry got `-ENOMEM`. -/
inductive Owned (args : R → Request) (s : State R) (r : R) : Prop where
  | pending (hs : submissions s r = 1) (hw : waits args s r = 0) (hc : (s.codes r).getLast? = some 0)
  | waiting (hs : submissions s r = 0) (hw : waits args s r = 1) (hc : s.codes r = [-ENOMEM])
  | dropped (hs : submissions s r = 0) (hw : waits args s r = 0) (hc : Dropped s r)

/-- The coroutine of `r` has got the one status of its request, or waits as long as there is
none and the request is owned. -/
def Answered (args : R → Request) (es : List (R × Int)) (s : State R) (r : R) : Prop :=
  match s.phase r with
  | .fresh => statuses es r = [] ∧ s.resumed r = []
  | .suspended => statuses es r = [] ∧ s.resumed r = [] ∧ Owned args s r
  | .created => statuses es r = (if s.ready r then [(s.results r).res] else []) ∧ s.resumed r = []
  | .done value => statuses es r = [value] ∧ (s.resumed r = [] ∨ s.resumed r = [value])

inductive Station (args : R → Request) (vs : List Int) (s : State R) (r : R) : Prop where
  | fresh (hp : s.phase r = .fresh) (hv : vs = []) (hr : s.resumed r = [])
      (hc : (s.results r).coro = none) (ho : submissions s r + waits args s r = 0)
      (hy : s.ready r = false) (hk : s.codes r = [])
  | failed (hp : s.phase r = .created) (hv : vs = [(s.results r).res]) (hr : s.resumed r = [])
      (ho : submissions s r + waits args s r = 0) (hy : s.ready r = true)
  | created (hp : s.phase r = .created) (hv : vs = []) (hr : s.resumed r = [])
      (hc : (s.results r).coro = none) (ho : Owned args s r) (hy : s.ready r = false)
  | suspended (hp : s.phase r = .suspended) (hv : vs = []) (hr : s.resumed r = [])
      (hc : (s.results r).coro = some r) (ho : Owned args s r)
  | done (value : Int) (hp : s.phase r = .done value) (hv : vs = [value])
      (hr : s.resumed r = [] ∨ s.resumed r = [value]) (ho : submissions s r + waits args s r = 0)

structure Timely (args : R → Request) (es : List (R × Int)) (s : State R) : Prop where
  own : Own args s
  fault : s.fault = false
  station : ∀ r, Station args (statuses es r) s r

variable {args : R → Request} {es : List (R × Int)} {s t : State R} {r : R} {vs : List Int}

theorem Owned.le_one (h : Owned args s r) : submissions s r + waits args s r ≤ 1 := by
  cases h <;> omega

theorem Owned.same (h : Owned args s r) (hs : Same args s t r) : Owned args t r := by
  obtain ⟨-, -, -, hcodes, -, hsub, hwait⟩ := hs
  cases h with
  | pending hs hw hc => exact .pending (hsub.trans hs) (hwait.trans hw) (hcodes ▸ hc)
  | waiting hs hw hc => exact .waiting (hsub.trans hs) (hwait.trans hw) (hcodes.trans hc)
  | dropped hs hw hc => exact .dropped (hsub.trans hs) (hwait.trans hw) (hcodes.trans hc)

theorem answered_of_station (h : Station args (statuses es r) s r) : Answered args es s r := by
  unfold Answered
  cases h with
  | fresh hp hv hr => simp [hp, hv, hr]
  | failed hp hv hr ho hy => simp [hp, hv, hr, hy]
  | created hp hv hr hc ho hy => simp [hp, hv, hr, hy]
  | suspended hp hv hr hc ho => simp [hp, hv, hr, ho]
  | done value hp hv hr => simp [hp, hv, hr]

theorem station_same (hs : Same args s t r) (h : Station args vs s r) : Station args vs t r := by
  have howned : Owned args s r → Owned args t r := fun ho => ho.same hs
  obtain ⟨h₁, h₂, h₃, h₄, h₅, h₆, h₇⟩ := hs
  cases h with
  | fresh => apply Station.fresh <;> simp_all
  | failed => apply Station.failed <;> simp_all
  | created => apply Station.created <;> simp_all
  | suspended => apply Station.suspended <;> simp_all
  | done value => apply Station.done value <;> simp_all

theorem subject_of_status {a : Act R} {x : R} {v : Int} (ho : Own args s)
    (h : step args s a = some t) (he : emitStatus s a = some (x, v)) : x = a.subject := by
  cases a with
  | issue r rc =>
    simp only [emitStatus] at he
    split_ifs at he
    exact (congrArg Prod.fst (Option.some.inj he)).symm
  | await r => cases he
  | complete p success => exact (congrArg Prod.fst (Option.some.inj he)).symm
  | retry c w rc =>
    have hw := (retry_eq_some ho h).1
    obtain ⟨hentry, -⟩ := ho.entry c w hw
    obtain ⟨hslot, hctx⟩ := ho.slot c w hw
    simp only [emitStatus, hentry, hslot, hctx, Option.bind_some, Option.map_some] at he
    split_ifs at he
    exact (congrArg Prod.fst (Option.some.inj he)).symm

theorem statuses_append (es : List (R × Int)) (e : Option (R × Int)) (r : R) :
    statuses (es ++ e.toList) r =
      statuses es r ++ ((e.filter fun e => e.1 = r).map Prod.snd).toList := by
  unfold statuses
  rw [List.filter_append, List.map_append]
  cases e with
  | none => rfl
  | some e => by_cases he : e.1 = r <;> simp [he, Option.filter]

theorem statuses_none (es : List (R × Int)) (r : R) : statuses (es ++ Option.toList none) r = statuses es r := by
  simp [statuses]

theorem statuses_self (es : List (R × Int)) (r : R) (v : Int) :
    statuses (es ++ (some (r, v)).toList) r = statuses es r ++ [v] := by
  simp [statuses]

theorem timely_of_same {a : Act R} (hi : Timely args es s) (h : step args s a = some t)
    (ha : a.subject = r) (ho : Own args t) (hf : t.fault = s.fault)
    (hsame : ∀ x, x ≠ r → Same args s t x)
    (hr : Station args (statuses (es ++ (emitStatus s a).toList) r) t r) :
    Timely args (es ++ (emitStatus s a).toList) t := by
  refine ⟨ho, hf.trans hi.fault, fun x => ?_⟩
  by_cases hx : x = r
  · exact hx ▸ hr
  · have hst := station_same (hsame x hx) (hi.station x)
    have hnone : (emitStatus s a).filter (fun e => e.1 = x) = none := by
      cases he : emitStatus s a with
      | none => rfl
      | some e =>
        have hex : e.1 ≠ x := fun hex => hx (hex ▸ (subject_of_status hi.own h he).trans ha)
        simp [Option.filter, hex]
    rw [statuses_append, hnone]
    simpa using hst

theorem station_fresh (h : Station args vs s r) (hp : s.phase r = .fresh) :
    vs = [] ∧ s.resumed r = [] ∧ (s.results r).coro = none ∧ submissions s r = 0 ∧
      waits args s r = 0 ∧ s.ready r = false ∧ s.codes r = [] := by
  cases h with
  | fresh _ hv hr hc ho hy hk => exact ⟨hv, hr, hc, by omega, by omega, hy, hk⟩
  | failed hn | created hn | suspended hn | done _ hn =>
    rw [hp] at hn
    cases hn

theorem timely_issue {rc : Int} (hi : Timely args es s) (hp : s.phase r = .fresh)
    (h : step args s (.issue r rc) = some (issued args s r rc)) (ho : Own args (issued args s r rc)) :
    Timely args (es ++ (emitStatus s (.issue r rc)).toList) (issued args s r rc) := by
  obtain ⟨hv, hr, hc, hs, hw, hy, hk⟩ := station_fresh (hi.station r) hp
  have hrecord := fun (x : R) (hx : x ≠ r) => same_issuing args s rc hx
  obtain ⟨hm, hu⟩ | ⟨hf, hu⟩ | ⟨hz, hu⟩ := issued_cases args s r rc <;> rw [hu] at h ho ⊢
  · have hnf : ¬ Failure rc := fun hf => hf.2 hm
    refine timely_of_same (r := r) hi h rfl ho rfl
      (fun x hx => same_trans (hrecord x hx) (same_queueIoWait args _ _ _ _ _ hx)) ?_
    rw [emitStatus, if_neg hnf, statuses_none]
    refine .created (Function.update_self _ _ _) hv hr hc (.waiting hs ?_ ?_) hy
    · rw [waits_queueIoWait, if_pos rfl]
      exact congrArg (· + 1) hw
    · simp [queueIoWait, State.record, hk, hm]
  · refine timely_of_same (r := r) hi h rfl ho rfl (fun x hx => same_trans (hrecord x hx) (same_setFailure args _ rc hx)) ?_
    rw [emitStatus, if_pos hf, statuses_self, hv]
    refine .failed (Function.update_self _ _ _) (by simp [setFailure]) hr ?_ (Function.update_self _ _ _)
    change submissions s r + waits args s r = 0
    omega
  · have hnf : ¬ Failure rc := fun hf => hf.1 hz
    refine timely_of_same (r := r) hi h rfl ho rfl (fun x hx => same_trans (hrecord x hx) (same_accept args _ hx)) ?_
    rw [emitStatus, if_neg hnf, statuses_none]
    refine .created (Function.update_self _ _ _) hv hr hc (.pending ?_ hw ?_) hy
    · rw [submissions_accept, if_pos rfl]
      exact congrArg (· + 1) hs
    · simp [State.accept, State.record, hk, hz]

theorem timely_await (hi : Timely args es s) (hp : s.phase r = .created)
    (h : step args s (.await r) = some (await s r)) (ho : Own args (await s r)) :
    Timely args (es ++ (emitStatus s (.await r)).toList) (await s r) := by
  have hst := hi.station r
  have hsame := fun (x : R) (hx : x ≠ r) => same_await args s hx
  obtain ⟨hy, he⟩ | ⟨hy, he⟩ := await_cases s r <;> rw [he] at h ho hsame ⊢
  · refine timely_of_same (r := r) hi h rfl ho rfl hsame ?_
    rw [emitStatus, statuses_none]
    cases hst with
    | failed _ hv hr ho _ => exact .done _ (Function.update_self _ _ _) hv (.inl hr) ho
    | created _ _ _ _ _ hn | fresh _ _ _ _ _ hn =>
      rw [hy] at hn
      cases hn
    | suspended hn | done _ hn =>
      rw [hp] at hn
      cases hn
  · refine timely_of_same (r := r) hi h rfl ho rfl hsame ?_
    rw [emitStatus, statuses_none]
    cases hst with
    | created _ hv hr _ ho _ =>
      refine .suspended (Function.update_self _ _ _) hv hr (by simp) ?_
      cases ho with
      | pending hs hw hc => exact .pending hs hw hc
      | waiting hs hw hc => exact .waiting hs hw hc
      | dropped hs hw hc => exact .dropped hs hw hc
    | failed _ _ _ _ hn =>
      rw [hy] at hn
      cases hn
    | fresh hn | suspended hn | done _ hn =>
      rw [hp] at hn
      cases hn

theorem timely_resume {a : Act R} {u : State R} {v : Int} (hi : Timely args es s)
    (h : step args s a = some (resume (u.setRes r v) r)) (ha : a.subject = r)
    (he : emitStatus s a = some (r, v)) (ho : Own args (resume (u.setRes r v) r))
    (hu : u.fault = s.fault ∧ u.phase r = s.phase r ∧ u.results r = s.results r ∧
      u.resumed r = s.resumed r)
    (hsame : ∀ x, x ≠ r → Same args s u x) (hp : s.phase r = .suspended)
    (hown : submissions u r + waits args u r < submissions s r + waits args s r) :
    Timely args (es ++ (emitStatus s a).toList) (resume (u.setRes r v) r) := by
  obtain ⟨hfault, hphase, hresults, hresumed⟩ := hu
  cases hi.station r with
  | suspended _ hv hr hc hone =>
    have hcoro : (u.results r).coro = some r := hresults ▸ hc
    have hsusp : u.phase r = .suspended := hphase.trans hp
    have hres := resume_eq v hcoro hsusp
    have hf : (resume (u.setRes r v) r).fault = s.fault := by
      rw [hres]
      exact hfault
    refine timely_of_same hi h ha ho hf
      (fun x hx => same_trans (hsame x hx) (same_resume v hcoro hsusp hx)) ?_
    rw [he, statuses_self, hv, hres]
    refine .done v (Function.update_self _ _ _) rfl (.inr ?_) ?_
    · simp [hresumed, hr]
    · exact Nat.lt_one_iff.mp (Nat.lt_of_lt_of_le hown hone.le_one)
  | fresh hn | failed hn | created hn | done _ hn =>
    rw [hp] at hn
    cases hn

theorem suspended_of_owned (h : Station args vs s r) (ho : 0 < submissions s r + waits args s r)
    (hp : s.phase r ≠ .created) : s.phase r = .suspended := by
  cases h with
  | suspended hs => exact hs
  | created hc => exact absurd hc hp
  | fresh _ _ _ _ hz | failed _ _ _ hz | done _ _ _ _ hz => omega

theorem station_moved (h : Station args vs s r) (ho : 0 < submissions s r + waits args s r)
    (hp : t.phase r = s.phase r) (hr : t.resumed r = s.resumed r) (hc : t.results r = s.results r)
    (hy : t.ready r = s.ready r) (howned : Owned args s r → Owned args t r) :
    Station args vs t r := by
  cases h with
  | created hp' hv hr' hc' hone hy' =>
    exact .created (hp.trans hp') hv (hr.trans hr') (hc ▸ hc') (howned hone) (hy.trans hy')
  | suspended hp' hv hr' hc' hone =>
    exact .suspended (hp.trans hp') hv (hr.trans hr') (hc ▸ hc') (howned hone)
  | fresh _ _ _ _ hz | failed _ _ _ hz | done _ _ _ _ hz => omega

theorem timely_complete {p : Submission R} {success : Bool} (hi : Timely args es s)
    (hmem : p ∈ s.pending) (hnc : s.phase p.res ≠ .created)
    (h : step args s (.complete p success) =
      some (spdkIoCompleteCb { s with pending := s.pending.erase p } success p.res))
    (ho : Own args (spdkIoCompleteCb { s with pending := s.pending.erase p } success p.res)) :
    Timely args (es ++ (emitStatus s (.complete p success)).toList)
      (spdkIoCompleteCb { s with pending := s.pending.erase p } success p.res) := by
  have hs := submissions_taken hmem
  have hsusp := suspended_of_owned (hi.station p.res) (by omega) hnc
  refine timely_resume hi h rfl rfl ho ⟨rfl, rfl, rfl, rfl⟩ (fun x hx => same_erase args hmem hx) hsusp ?_
  change _ + waits args s p.res < _
  omega

theorem timely_retry {c : Nat} {w : Waiting R} {rc : Int} (hi : Timely args es s)
    (hmem : w ∈ s.ioWait c) (hcore : (args w.owner).core = c)
    (hne : Failure rc → s.phase w.owner ≠ .created)
    (h : step args s (.retry c w rc) = some (retried args (s.dequeue c w) w.owner rc))
    (ho : Own args (retried args (s.dequeue c w) w.owner rc)) :
    Timely args (es ++ (emitStatus s (.retry c w rc)).toList)
      (retried args (s.dequeue c w) w.owner rc) := by
  have hw := waits_taken hmem hcore
  have hwaiting : Owned args s w.owner → submissions s w.owner = 0 ∧
      waits args (s.dequeue c w) w.owner = 0 ∧ s.codes w.owner = [-ENOMEM] := by
    intro howned
    cases howned with
    | waiting hs hone hc => exact ⟨hs, by omega, hc⟩
    | pending _ hz _ | dropped _ hz _ => omega
  have hrecord := fun (x : R) (hx : x ≠ w.owner) => same_retrying hmem hcore rc hx
  obtain ⟨hm, hu⟩ | ⟨hf, hu⟩ | ⟨hz, hu⟩ := retried_cases args (s.dequeue c w) w.owner rc <;>
    rw [hu] at h ho ⊢
  · have hnf : ¬ Failure rc := fun hf => hf.2 hm
    refine timely_of_same (r := w.owner) hi h rfl ho rfl hrecord ?_
    rw [emitStatus, if_neg hnf, statuses_none]
    refine station_moved (hi.station w.owner) (by omega) rfl rfl rfl rfl fun howned => ?_
    obtain ⟨hs, hwait, hc⟩ := hwaiting howned
    refine .dropped hs hwait ?_
    simp [Dropped, State.record, State.dequeue, hc, hm]
  · obtain ⟨hentry, -⟩ := hi.own.entry c w hmem
    obtain ⟨hslot, hctx⟩ := hi.own.slot c w hmem
    have hsusp := suspended_of_owned (hi.station w.owner) (by omega) (hne hf)
    refine timely_resume hi h rfl ?_ ho ⟨rfl, rfl, rfl, rfl⟩ hrecord hsusp ?_
    · simp [emitStatus, hf, hentry, hslot, hctx, ownContext]
    · change submissions s w.owner + waits args (s.dequeue c w) w.owner < _
      omega
  · have hnf : ¬ Failure rc := fun hf => hf.1 hz
    refine timely_of_same (r := w.owner) hi h rfl ho rfl (fun x hx => same_trans (hrecord x hx) (same_accept args _ hx)) ?_
    rw [emitStatus, if_neg hnf, statuses_none]
    refine station_moved (hi.station w.owner) (by omega) rfl rfl rfl rfl fun howned => ?_
    obtain ⟨hs, hwait, hc⟩ := hwaiting howned
    refine .pending ?_ hwait ?_
    · rw [submissions_accept, if_pos rfl]
      exact congrArg (· + 1) hs
    · simp [State.accept, State.record, State.dequeue, hc, hz]

theorem timely_step {a : Act R} (hi : Timely args es s) (hal : Alone args s a) (hne : NotEarly s a)
    (h : step args s a = some t) : Timely args (es ++ (emitStatus s a).toList) t := by
  have ho := own_step s a t hi.own hal h
  cases a with
  | issue r rc =>
    obtain ⟨hp, rfl⟩ := (issue_eq_some args s t r rc).mp h
    exact timely_issue hi hp h ho
  | await r =>
    obtain ⟨hp, rfl⟩ := (when_eq_some _ _ _).mp h
    exact timely_await hi hp h ho
  | complete p success =>
    obtain ⟨hp, rfl⟩ := (when_eq_some _ _ _).mp h
    exact timely_complete hi hp hne h ho
  | retry c w rc =>
    obtain ⟨hw, hc, rfl⟩ := retry_eq_some hi.own h
    exact timely_retry hi hw hc hne h ho

/-- A callback for a request that nobody awaits yet resumes a null handle. -/
theorem fault_of_early {a : Act R} (hi : Timely args es s) (hne : ¬ NotEarly s a)
    (h : step args s a = some t) : t.fault = true := by
  have hnull : ∀ (u : State R) (r : R) (v : Int), s.phase r = .created → u.results r = s.results r →
      0 < submissions s r + waits args s r → (resume (u.setRes r v) r).fault = true := by
    intro u r v hp hu ho
    have hc : (s.results r).coro = none := by
      cases hi.station r with
      | created _ _ _ hc => exact hc
      | failed _ _ _ hz => omega
      | fresh hn | suspended hn | done _ hn =>
        rw [hp] at hn
        cases hn
    simp [resume, State.setRes, hu, hc]
  cases a with
  | issue r rc | await r => exact absurd trivial hne
  | complete p success =>
    obtain ⟨hmem, rfl⟩ := (when_eq_some _ _ _).mp h
    have hpos : 0 < submissions s p.res := List.countP_pos_iff.mpr ⟨p, hmem, by simp⟩
    exact hnull { s with pending := s.pending.erase p } p.res _ (not_not.mp hne) rfl (by omega)
  | retry c w rc =>
    obtain ⟨hmem, hcore, rfl⟩ := retry_eq_some hi.own h
    have hpos : 0 < waits args s w.owner := List.countP_pos_iff.mpr ⟨w, hcore ▸ hmem, by simp⟩
    obtain ⟨hf, hp⟩ := Classical.not_imp.mp hne
    obtain ⟨hm, -⟩ | ⟨-, hu⟩ | ⟨hz, -⟩ := retried_cases args (s.dequeue c w) w.owner rc
    · exact absurd hm hf.2
    · rw [hu]
      exact hnull ((s.dequeue c w).record w.owner (ownSubmission args w.owner) rc) w.owner rc
        (not_not.mp hp) rfl (by omega)
    · exact absurd hz hf.1

theorem fault_resume (s : State R) (r : R) (hf : s.fault = true) : (resume s r).fault = true := by
  unfold resume
  split
  · split_ifs
    · exact hf
    · rfl
  · rfl

theorem fault_step {a : Act R} (h : step args s a = some t) (hf : s.fault = true) : t.fault = true := by
  have hsubmit : ∀ (d : Direction) (s : State R) c r b l o rc, s.fault = true →
      (submit d s c r b l o rc).fault = true := by
    intro d s c r b l o rc hf
    unfold submit
    simp only
    split_ifs <;> exact hf
  have hretry : ∀ (d : Direction) (s : State R) c r ctx rc, s.fault = true →
      (spdkRetry d s c r ctx rc).fault = true := by
    intro d s c r ctx rc hf
    unfold spdkRetry
    simp only
    split_ifs
    · exact hf
    · exact fault_resume _ _ hf
    · exact hf
  cases a with
  | issue r rc =>
    obtain ⟨-, rfl⟩ := (issue_eq_some args s t r rc).mp h
    exact hsubmit _ _ _ _ _ _ _ _ hf
  | await r =>
    obtain ⟨-, rfl⟩ := (when_eq_some _ _ _).mp h
    unfold await
    split_ifs <;> exact hf
  | complete p success =>
    obtain ⟨-, rfl⟩ := (when_eq_some _ _ _).mp h
    exact fault_resume _ _ hf
  | retry c w rc =>
    simp only [step] at h
    split_ifs at h
    simp only [callWaiting, Option.bind_eq_some_iff, Option.map_eq_some_iff] at h
    obtain ⟨entry, -, ctx, -, rfl⟩ := h
    cases entry.cbFn
    · exact hretry .read _ _ _ _ _ hf
    · exact hretry .write _ _ _ _ _ hf

theorem timely_init (args : R → Request) : Timely args [] (init : State R) :=
  ⟨own_init args, rfl, fun _ => .fresh rfl rfl rfl rfl rfl rfl rfl⟩

theorem meets_of_no_fault {as : List (Act R)} (hi : Timely args es s)
    (ha : Meets (step args) (Alone args) s as) (h : run (step args) s as = some t)
    (hf : t.fault = false) : Meets (step args) NotEarly s as := by
  induction as generalizing s es with
  | nil => trivial
  | cons a as ih =>
    obtain ⟨u, hu, hr⟩ := (run_cons s t a as).mp h
    obtain ⟨hal, has⟩ := (meets_cons (Alone args) s a as).mp ha
    have hne : NotEarly s a := by
      by_contra hne
      have hfault := run_invariant (fun s => s.fault = true) (fun s a t hs ht => fault_step ht hs) hr
        (fault_of_early hi hne hu)
      rw [hf] at hfault
      cases hfault
    refine (meets_cons NotEarly s a as).mpr ⟨hne, fun v hv => ?_⟩
    obtain rfl : u = v := Option.some.inj (hu.symm.trans hv)
    exact ih (timely_step hi hal hne hu) (has u hu) hr

/-- Where the requests of a core do not share its retry context, every coroutine gets the one
status of its request, and gets it if it awaits the request late, exactly in the runs in which no
request ends in a callback before it is awaited. -/
theorem awaited_any_time_iff (args : R → Request) (as : List (Act R)) (s : State R)
    (h : run (step args) init as = some s) (ha : Meets (step args) (Alone args) init as) :
    (s.fault = false ∧ ∀ r, Answered args (trace (step args) emitStatus init as) s r) ↔
      Meets (step args) NotEarly init as := by
  constructor
  · exact fun hs => meets_of_no_fault (timely_init args) ha h hs.1
  · intro hm
    have hmeets := (meets_and (Alone args) NotEarly).mpr ⟨ha, hm⟩
    have hi := trace_invariant_of_meets emitStatus (fun s a => Alone args s a ∧ NotEarly s a)
      (Timely args) (fun es s a t hi ha ht => timely_step hi ha.1 ha.2 ht) h hmeets (timely_init args)
    exact ⟨hi.fault, fun r => answered_of_station (hi.station r)⟩

def twoReads : List (Act (Fin 2)) :=
  [.issue 0 0, .issue 1 0, .await 0, .complete ⟨⟨0, .read, 100, 8, 0⟩, 0⟩ true, .await 1,
    .complete ⟨⟨0, .read, 100, 8, 0⟩, 1⟩ false]

theorem awaited_any_time_iff_two : ∃ s : State (Fin 2),
    run (step fun _ => ⟨0, .read, 100, 8, 0⟩) init twoReads = some s ∧ s.phase 0 = .done 0 ∧
      s.phase 1 = .done 1 ∧ (s.fault = false ∧
        ∀ r, Answered (fun _ => ⟨0, .read, 100, 8, 0⟩)
          (trace (step fun _ => ⟨0, .read, 100, 8, 0⟩) emitStatus init twoReads) s r) :=
  ⟨_, rfl, rfl, rfl,
    (awaited_any_time_iff (fun _ => ⟨0, .read, 100, 8, 0⟩) twoReads _ rfl (by decide)).mpr (by decide)⟩

/-- The request completes before it is awaited: the callback resumes a null handle, and the
coroutine then suspends for ever. -/
theorem completed_before_await : ∃ s : State (Fin 1),
    run (step fun _ => ⟨0, .read, 100, 8, 0⟩) init
      [.issue 0 0, .complete ⟨⟨0, .read, 100, 8, 0⟩, 0⟩ true, .await 0] = some s ∧
    Meets (step fun _ => ⟨0, .read, 100, 8, 0⟩) (Alone fun _ => ⟨0, .read, 100, 8, 0⟩) init
      [.issue 0 0, .complete ⟨⟨0, .read, 100, 8, 0⟩, 0⟩ true, .await (0 : Fin 1)] ∧
    s.fault = true ∧ s.phase 0 = .suspended ∧ s.pending = [] ∧
    ¬ Answered (fun _ => ⟨0, .read, 100, 8, 0⟩)
      (trace (step fun _ => ⟨0, .read, 100, 8, 0⟩) emitStatus init
        [.issue 0 0, .complete ⟨⟨0, .read, 100, 8, 0⟩, 0⟩ true, .await 0]) s 0 := by
  refine ⟨_, rfl, by decide, rfl, rfl, rfl, fun h => ?_⟩
  exact absurd h.1 (by decide)

end LibCoro.Service
