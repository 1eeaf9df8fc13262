import LibCoro.ServiceIsolation
import Mathlib.Data.List.Count

namespace LibCoro.Service

open Machine

variable {R : Type} [DecidableEq R]

def waits (args : R → Request) (s : State R) (r : R) : Nat :=
  (s.ioWait (args r).core).countP fun w => w.owner = r

def submissions (s : State R) (r : R) : Nat := s.pending.countP fun p => p.res = r

/-- A request that was issued is awaited before a callback can run for it. -/
def AtOnce (s : State R) : Act R → Prop
  | .complete p _ => s.phase p.res ≠ .created
  | .retry _ w _ => s.phase w.owner ≠ .created
  | _ => True

instance (s : State R) : (a : Act R) → Decidable (AtOnce s a)
  | .issue _ _ | .await _ => .isTrue trivial
  | .complete p _ => inferInstanceAs (Decidable (s.phase p.res ≠ .created))
  | .retry _ w _ => inferInstanceAs (Decidable (s.phase w.owner ≠ .created))

def Failure (rc : Int) : Prop := rc ≠ 0 ∧ rc ≠ -ENOMEM

/-- How a request came to its result: from the completion callback, from a retry that
failed, or from a first submission that failed. -/
inductive Delivered (codes resumed : List Int) (value : Int) : Prop where
  | completed (hc : codes.getLast? = some 0) (hr : resumed = [value]) (hv : value = 0 ∨ value = 1)
  | retryFailed (hc : codes.getLast? = some value) (hr : resumed = [value]) (hv : Failure value)
  | failed (hc : codes = [value]) (hr : resumed = []) (hv : Failure value)

/-- A request that is not finished has one owner, a finished one has its result. -/
def Accounted (args : R → Request) (s : State R) (r : R) : Prop :=
  match s.phase r with
  | .fresh => submissions s r + waits args s r = 0 ∧ s.resumed r = []
  | .created => submissions s r + waits args s r = (if s.ready r then 0 else 1) ∧ s.resumed r = []
  | .suspended => submissions s r + waits args s r = 1 ∧ s.resumed r = []
  | .done value => submissions s r + waits args s r = 0 ∧ Delivered (s.codes r) (s.resumed r) value

def Open (s : State R) (r : R) : Prop :=
  s.phase r = .created ∨ s.phase r = .suspended ∧ (s.results r).coro = some r

/-- The stations of a request; from `dropped` no step leads on. -/
inductive Story (args : R → Request) (s : State R) (r : R) : Prop where
  | fresh (hp : s.phase r = .fresh) (hc : s.codes r = []) (hr : s.resumed r = [])
      (hs : submissions s r = 0) (hw : waits args s r = 0) (hy : s.ready r = false)
  | failed (rc : Int) (hp : s.phase r = .created) (hc : s.codes r = [rc]) (hr : s.resumed r = [])
      (hs : submissions s r = 0) (hw : waits args s r = 0) (hy : s.ready r = true) (hf : Failure rc)
      (hres : (s.results r).res = rc)
  | pending (hp : Open s r) (hc : (s.codes r).getLast? = some 0) (hr : s.resumed r = [])
      (hs : submissions s r = 1) (hw : waits args s r = 0) (hy : s.ready r = false)
  | waiting (hp : Open s r) (hc : s.codes r = [-ENOMEM]) (hr : s.resumed r = [])
      (hs : submissions s r = 0) (hw : waits args s r = 1) (hy : s.ready r = false)
  | dropped (hp : s.phase r = .suspended) (hc : s.codes r = [-ENOMEM, -ENOMEM])
      (hr : s.resumed r = []) (hs : submissions s r = 0) (hw : waits args s r = 0)
  | done (value : Int) (hp : s.phase r = .done value) (hd : Delivered (s.codes r) (s.resumed r) value)
      (hs : submissions s r = 0) (hw : waits args s r = 0)

theorem delivered_codes {codes resumed : List Int} {value : Int}
    (h : Delivered codes resumed value) : codes ≠ [-ENOMEM, -ENOMEM] := by
  rintro rfl
  cases h with
  | completed hc => simp [ENOMEM] at hc
  | retryFailed hc hr hv => exact hv.2 (Option.some.inj hc).symm
  | failed hc => simp at hc

theorem accounted_iff {args : R → Request} {s : State R} {r : R} (h : Story args s r) :
    Accounted args s r ↔ s.codes r ≠ [-ENOMEM, -ENOMEM] := by
  unfold Accounted
  cases h with
  | fresh hp hc hr hs hw hy => simp [hp, hc, hr, hs, hw]
  | failed rc hp hc hr hs hw hy => simp [hp, hc, hr, hs, hw, hy]
  | pending hp hc hr hs hw hy =>
    have hne : s.codes r ≠ [-ENOMEM, -ENOMEM] := by
      intro e
      simp [e, ENOMEM] at hc
    obtain hp | ⟨hp, -⟩ := hp <;> simp [hp, hr, hs, hw, hy, hne]
  | waiting hp hc hr hs hw hy => obtain hp | ⟨hp, -⟩ := hp <;> simp [hp, hc, hr, hs, hw, hy]
  | dropped hp hc hr hs hw => simp [hp, hc, hr, hs, hw]
  | done value hp hd hs hw => simp [hp, hs, hw, hd, delivered_codes hd]

def Act.subject : Act R → R
  | .issue r _ | .await r => r
  | .complete p _ => p.res
  | .retry _ w _ => w.owner

structure Same (args : R → Request) (s t : State R) (r : R) : Prop where
  phase : t.phase r = s.phase r
  ready : t.ready r = s.ready r
  results : t.results r = s.results r
  codes : t.codes r = s.codes r
  resumed : t.resumed r = s.resumed r
  submissions : submissions t r = submissions s r
  waits : waits args t r = waits args s r

theorem story_same {args : R → Request} {s t : State R} {r : R} (hs : Same args s t r)
    (h : Story args s r) : Story args t r := by
  obtain ⟨h₁, h₂, h₃, h₄, h₅, h₆, h₇⟩ := hs
  cases h with
  | fresh => apply Story.fresh <;> simp_all
  | failed rc => apply Story.failed rc <;> simp_all
  | pending => apply Story.pending <;> simp_all [Open]
  | waiting => apply Story.waiting <;> simp_all [Open]
  | dropped => apply Story.dropped <;> simp_all
  | done value => apply Story.done value <;> simp_all

theorem resume_eq {s : State R} {r : R} (v : Int) (hc : (s.results r).coro = some r)
    (hp : s.phase r = .suspended) : resume (s.setRes r v) r =
      { s.setRes r v with
        phase := Function.update s.phase r (.done v)
        resumed := Function.update s.resumed r (s.resumed r ++ [v]) } := by
  simp [resume, State.setRes, hc, hp]

theorem waits_queueIoWait (args : R → Request) (s : State R) (x r : R) (cbFn : Direction) (buf : Nat)
    (len : Int) (offset : Nat) :
    waits args (queueIoWait s (args x).core x cbFn buf len offset) r =
      waits args s r + if x = r then 1 else 0 := by
  unfold waits queueIoWait
  by_cases hc : (args r).core = (args x).core
  · simp [hc, List.countP_append, List.countP_cons]
  · have hx : x ≠ r := fun e => hc (e ▸ rfl)
    simp [hc, hx]

theorem submissions_accept (args : R → Request) (s : State R) (x r : R) :
    submissions (s.accept (ownSubmission args x)) r = submissions s r + if x = r then 1 else 0 := by
  simp [submissions, State.accept, ownSubmission, List.countP_append, List.countP_cons]

theorem waits_dequeue {args : R → Request} {s : State R} {c : Nat} {w : Waiting R}
    (hw : w ∈ s.ioWait c) (hc : (args w.owner).core = c) (r : R) :
    waits args (s.dequeue c w) r = waits args s r - if w.owner = r then 1 else 0 := by
  unfold waits State.dequeue
  by_cases hr : (args r).core = c
  · simp [hr, List.countP_erase, hw]
  · have hx : w.owner ≠ r := fun e => hr (e ▸ hc)
    simp [hr, hx]

theorem submissions_erase {s : State R} {p : Submission R} (hp : p ∈ s.pending) (r : R) :
    submissions { s with pending := s.pending.erase p } r =
      submissions s r - if p.res = r then 1 else 0 := by
  simp [submissions, List.countP_erase, hp]

theorem waits_taken {args : R → Request} {s : State R} {c : Nat} {w : Waiting R}
    (hw : w ∈ s.ioWait c) (hc : (args w.owner).core = c) :
    waits args (s.dequeue c w) w.owner + 1 = waits args s w.owner := by
  have hpos : 0 < waits args s w.owner := List.countP_pos_iff.mpr ⟨w, hc ▸ hw, by simp⟩
  rw [waits_dequeue hw hc, if_pos rfl]
  omega

theorem submissions_taken {s : State R} {p : Submission R} (hp : p ∈ s.pending) :
    submissions { s with pending := s.pending.erase p } p.res + 1 = submissions s p.res := by
  have hpos : 0 < submissions s p.res := List.countP_pos_iff.mpr ⟨p, hp, by simp⟩
  rw [submissions_erase hp, if_pos rfl]
  omega

theorem same_trans {args : R → Request} {s t u : State R} {r : R} (h : Same args s t r)
    (h' : Same args t u r) : Same args s u r :=
  ⟨h'.phase.trans h.phase, h'.ready.trans h.ready, h'.results.trans h.results, h'.codes.trans h.codes,
    h'.resumed.trans h.resumed, h'.submissions.trans h.submissions, h'.waits.trans h.waits⟩

theorem same_record (args : R → Request) (s : State R) {r x : R} (p : Submission R) (rc : Int)
    (hx : x ≠ r) : Same args s (s.record r p rc) x :=
  ⟨rfl, rfl, rfl, Function.update_of_ne hx _ _, rfl, rfl, rfl⟩

theorem same_accept (args : R → Request) (s : State R) {r x : R} (hx : x ≠ r) :
    Same args s (s.accept (ownSubmission args r)) x := by
  refine ⟨rfl, rfl, rfl, rfl, rfl, ?_, rfl⟩
  rw [submissions_accept, if_neg (Ne.symm hx), Nat.add_zero]

theorem same_queueIoWait (args : R → Request) (s : State R) {r x : R} (cbFn : Direction) (buf : Nat)
    (len : Int) (offset : Nat) (hx : x ≠ r) :
    Same args s (queueIoWait s (args r).core r cbFn buf len offset) x := by
  refine ⟨rfl, rfl, rfl, rfl, rfl, rfl, ?_⟩
  rw [waits_queueIoWait, if_neg (Ne.symm hx), Nat.add_zero]

theorem same_setFailure (args : R → Request) (s : State R) {r x : R} (rc : Int) (hx : x ≠ r) :
    Same args s (setFailure s r rc) x :=
  ⟨rfl, Function.update_of_ne hx _ _, Function.update_of_ne hx _ _, rfl, rfl, rfl, rfl⟩

theorem same_dequeue {args : R → Request} {s : State R} {c : Nat} {w : Waiting R} {x : R}
    (hw : w ∈ s.ioWait c) (hc : (args w.owner).core = c) (hx : x ≠ w.owner) :
    Same args s (s.dequeue c w) x := by
  refine ⟨rfl, rfl, rfl, rfl, rfl, rfl, ?_⟩
  rw [waits_dequeue hw hc, if_neg (Ne.symm hx), Nat.sub_zero]

theorem same_erase (args : R → Request) {s : State R} {p : Submission R} {x : R} (hp : p ∈ s.pending)
    (hx : x ≠ p.res) : Same args s { s with pending := s.pending.erase p } x := by
  refine ⟨rfl, rfl, rfl, rfl, rfl, ?_, rfl⟩
  rw [submissions_erase hp, if_neg (Ne.symm hx), Nat.sub_zero]

theorem same_resume {args : R → Request} {s : State R} {r : R} {x : R} (v : Int)
    (hc : (s.results r).coro = some r) (hp : s.phase r = .suspended) (hx : x ≠ r) :
    Same args s (resume (s.setRes r v) r) x := by
  rw [resume_eq v hc hp]
  exact ⟨Function.update_of_ne hx _ _, rfl, Function.update_of_ne hx _ _, rfl,
    Function.update_of_ne hx _ _, rfl, rfl⟩

theorem same_issuing (args : R → Request) (s : State R) {r x : R} (rc : Int) (hx : x ≠ r) :
    Same args s ({ s with phase := Function.update s.phase r .created }.record r
      (ownSubmission args r) rc) x :=
  ⟨Function.update_of_ne hx _ _, rfl, rfl, Function.update_of_ne hx _ _, rfl, rfl, rfl⟩

theorem same_retrying {args : R → Request} {s : State R} {c : Nat} {w : Waiting R} {x : R}
    (hw : w ∈ s.ioWait c) (hc : (args w.owner).core = c) (rc : Int) (hx : x ≠ w.owner) :
    Same args s ((s.dequeue c w).record w.owner (ownSubmission args w.owner) rc) x :=
  same_trans (same_dequeue hw hc hx) (same_record args _ _ rc hx)

theorem await_cases (s : State R) (r : R) :
    (s.ready r = true ∧
      await s r = { s with phase := Function.update s.phase r (.done (s.results r).res) }) ∨
    (s.ready r = false ∧ await s r = { s with
      results := Function.update s.results r ⟨some r, (s.results r).res⟩
      phase := Function.update s.phase r .suspended }) := by
  cases hy : s.ready r with
  | true => exact .inl ⟨rfl, if_pos hy⟩
  | false => exact .inr ⟨rfl, if_neg (by simp [hy])⟩

theorem same_await (args : R → Request) (s : State R) {r x : R} (hx : x ≠ r) :
    Same args s (await s r) x := by
  obtain ⟨-, he⟩ | ⟨-, he⟩ := await_cases s r <;> rw [he]
  · exact ⟨Function.update_of_ne hx _ _, rfl, rfl, rfl, rfl, rfl, rfl⟩
  · exact ⟨Function.update_of_ne hx _ _, rfl, Function.update_of_ne hx _ _, rfl, rfl, rfl, rfl⟩

structure Inv (args : R → Request) (s : State R) : Prop where
  own : Own args s
  fault : s.fault = false
  story : ∀ r, Story args s r

theorem inv_of_same {args : R → Request} {s t : State R} (hi : Inv args s) (ho : Own args t) (r : R)
    (hf : t.fault = s.fault) (hsame : ∀ x, x ≠ r → Same args s t x) (hr : Story args t r) :
    Inv args t := by
  refine ⟨ho, hf.trans hi.fault, fun x => ?_⟩
  by_cases hx : x = r
  · exact hx ▸ hr
  · exact story_same (hsame x hx) (hi.story x)

theorem issued_cases (args : R → Request) (s : State R) (r : R) (rc : Int) :
    let u := { s with phase := Function.update s.phase r .created }.record r (ownSubmission args r) rc
    (rc = -ENOMEM ∧ issued args s r rc = queueIoWait u (args r).core r (args r).direction (args r).buf
      (args r).len (args r).offset) ∨
    (Failure rc ∧ issued args s r rc = setFailure u r rc) ∨
    (rc = 0 ∧ issued args s r rc = u.accept (ownSubmission args r)) := by
  intro u
  by_cases hm : rc = -ENOMEM
  · exact .inl ⟨hm, if_pos hm⟩
  · by_cases hz : rc = 0
    · exact .inr (.inr ⟨hz, (if_neg hm).trans (if_neg (not_not.mpr hz))⟩)
    · exact .inr (.inl ⟨⟨hz, hm⟩, (if_neg hm).trans (if_pos hz)⟩)

theorem story_fresh {args : R → Request} {s : State R} {r : R} (h : Story args s r)
    (hp : s.phase r = .fresh) : s.codes r = [] ∧ s.resumed r = [] ∧ submissions s r = 0 ∧
      waits args s r = 0 ∧ s.ready r = false := by
  cases h with
  | fresh _ hc hr hs hw hy => exact ⟨hc, hr, hs, hw, hy⟩
  | pending ho | waiting ho => obtain ho | ⟨ho, -⟩ := ho <;> rw [hp] at ho <;> cases ho
  | failed _ ho | dropped ho | done _ ho =>
    rw [hp] at ho
    cases ho

theorem inv_issue {args : R → Request} {s : State R} {r : R} {rc : Int} (hi : Inv args s)
    (hp : s.phase r = .fresh) (ho : Own args (issued args s r rc)) :
    Inv args (issued args s r rc) := by
  obtain ⟨hc, hr, hs, hw, hy⟩ := story_fresh (hi.story r) hp
  have hrecord := fun (x : R) (hx : x ≠ r) => same_issuing args s rc hx
  obtain ⟨hm, h⟩ | ⟨hf, h⟩ | ⟨hz, h⟩ := issued_cases args s r rc <;> rw [h] at ho ⊢
  · apply inv_of_same hi ho r rfl fun x hx => same_trans (hrecord x hx) (same_queueIoWait args _ _ _ _ _ hx)
    apply Story.waiting
    · exact .inl (Function.update_self _ _ _)
    · simp [queueIoWait, State.record, hc, hm]
    · exact hr
    · exact hs
    · rw [waits_queueIoWait, if_pos rfl]
      exact congrArg (· + 1) hw
    · exact hy
  · apply inv_of_same hi ho r rfl fun x hx => same_trans (hrecord x hx) (same_setFailure args _ rc hx)
    apply Story.failed rc
    · exact Function.update_self _ _ _
    · simp [setFailure, State.record, hc]
    · exact hr
    · exact hs
    · exact hw
    · exact Function.update_self _ _ _
    · exact hf
    · simp [setFailure]
  · apply inv_of_same hi ho r rfl fun x hx => same_trans (hrecord x hx) (same_accept args _ hx)
    apply Story.pending
    · exact .inl (Function.update_self _ _ _)
    · simp [State.accept, State.record, hc, hz]
    · exact hr
    · rw [submissions_accept, if_pos rfl]
      exact congrArg (· + 1) hs
    · exact hw
    · exact hy

theorem inv_await {args : R → Request} {s : State R} {r : R} (hi : Inv args s)
    (hp : s.phase r = .created) (ho : Own args (await s r)) : Inv args (await s r) := by
  have hstory := hi.story r
  have hsame := fun (x : R) (hx : x ≠ r) => same_await args s hx
  obtain ⟨hy, he⟩ | ⟨hy, he⟩ := await_cases s r <;> rw [he] at ho hsame ⊢
  · apply inv_of_same hi ho r rfl hsame
    cases hstory with
    | failed rc _ hc hr hs hw _ hf hres =>
      apply Story.done rc
      · simp [hres]
      · exact .failed hc hr hf
      · exact hs
      · exact hw
    | fresh _ _ _ _ _ hn | pending _ _ _ _ _ hn | waiting _ _ _ _ _ hn =>
      rw [hy] at hn
      cases hn
    | dropped hn | done _ hn =>
      rw [hp] at hn
      cases hn
  · apply inv_of_same hi ho r rfl hsame
    cases hstory with
    | pending _ hc hr hs hw hn => exact .pending (.inr (by simp)) hc hr hs hw hn
    | waiting _ hc hr hs hw hn => exact .waiting (.inr (by simp)) hc hr hs hw hn
    | failed _ _ _ _ _ _ hn =>
      rw [hy] at hn
      cases hn
    | fresh hn | dropped hn | done _ hn =>
      rw [hp] at hn
      cases hn

theorem inv_complete {args : R → Request} {s : State R} {p : Submission R} {success : Bool}
    (hi : Inv args s) (hmem : p ∈ s.pending) (hnc : s.phase p.res ≠ .created)
    (ho : Own args (spdkIoCompleteCb { s with pending := s.pending.erase p } success p.res)) :
    Inv args (spdkIoCompleteCb { s with pending := s.pending.erase p } success p.res) := by
  have hs := submissions_taken hmem
  cases hi.story p.res with
  | pending hopen hc hr hone hw hy =>
    obtain ⟨hsusp, hcoro⟩ := hopen.resolve_left hnc
    have hres := resume_eq (s := { s with pending := s.pending.erase p }) (if success then 0 else 1)
      hcoro hsusp
    have hfault : (spdkIoCompleteCb { s with pending := s.pending.erase p } success p.res).fault =
        s.fault := by
      rw [spdkIoCompleteCb, hres]
      rfl
    apply inv_of_same hi ho p.res hfault
      (fun x hx => same_trans (same_erase args hmem hx) (same_resume _ hcoro hsusp hx))
    rw [spdkIoCompleteCb, hres]
    apply Story.done (if success then 0 else 1)
    · exact Function.update_self _ _ _
    · apply Delivered.completed
      · exact hc
      · simp [hr]
      · cases success <;> simp
    · have hlast : submissions { s with pending := s.pending.erase p } p.res = 0 := by omega
      exact hlast
    · exact hw
  | fresh _ _ _ hz | failed _ _ _ _ hz | waiting _ _ _ hz | dropped _ _ _ hz | done _ _ _ hz => omega

theorem retried_cases (args : R → Request) (s : State R) (r : R) (rc : Int) :
    let u := s.record r (ownSubmission args r) rc
    (rc = -ENOMEM ∧ retried args s r rc = u) ∨
    (Failure rc ∧ retried args s r rc = resume (u.setRes r rc) r) ∨
    (rc = 0 ∧ retried args s r rc = u.accept (ownSubmission args r)) := by
  intro u
  by_cases hm : rc = -ENOMEM
  · exact .inl ⟨hm, if_pos hm⟩
  · by_cases hz : rc = 0
    · exact .inr (.inr ⟨hz, (if_neg hm).trans (if_neg (not_not.mpr hz))⟩)
    · exact .inr (.inl ⟨⟨hz, hm⟩, (if_neg hm).trans (if_pos hz)⟩)

/-- A wait entry fires: the request is submitted again, fails, or is forgotten. -/
theorem inv_retry {args : R → Request} {s : State R} {c : Nat} {w : Waiting R} {rc : Int}
    (hi : Inv args s) (hmem : w ∈ s.ioWait c) (hcore : (args w.owner).core = c)
    (hnc : s.phase w.owner ≠ .created)
    (ho : Own args (retried args (s.dequeue c w) w.owner rc)) :
    s.codes w.owner = [-ENOMEM] ∧ Inv args (retried args (s.dequeue c w) w.owner rc) := by
  have hw := waits_taken hmem hcore
  have hrecord := fun (x : R) (hx : x ≠ w.owner) => same_retrying hmem hcore rc hx
  cases hi.story w.owner with
  | waiting hopen hc hr hs hone hy =>
    refine ⟨hc, ?_⟩
    obtain ⟨hsusp, hcoro⟩ := hopen.resolve_left hnc
    have hw' : waits args (s.dequeue c w) w.owner = 0 := by omega
    obtain ⟨hm, h⟩ | ⟨hf, h⟩ | ⟨hz, h⟩ := retried_cases args (s.dequeue c w) w.owner rc <;>
      rw [h] at ho ⊢
    · apply inv_of_same hi ho w.owner rfl hrecord
      apply Story.dropped
      · exact hsusp
      · simp [State.record, State.dequeue, hc, hm]
      · exact hr
      · exact hs
      · exact hw'
    · have hres := resume_eq (s := (s.dequeue c w).record w.owner (ownSubmission args w.owner) rc) rc
        hcoro hsusp
      have hfault : (resume (((s.dequeue c w).record w.owner (ownSubmission args w.owner) rc).setRes
          w.owner rc) w.owner).fault = s.fault := by
        rw [hres]
        rfl
      apply inv_of_same hi ho w.owner hfault
        (fun x hx => same_trans (hrecord x hx) (same_resume rc hcoro hsusp hx))
      rw [hres]
      apply Story.done rc
      · exact Function.update_self _ _ _
      · apply Delivered.retryFailed
        · simp [State.setRes, State.record, State.dequeue, hc]
        · simp [State.record, State.dequeue, hr]
        · exact hf
      · exact hs
      · exact hw'
    · apply inv_of_same hi ho w.owner rfl
        (fun x hx => same_trans (hrecord x hx) (same_accept args _ hx))
      apply Story.pending
      · exact .inr ⟨hsusp, hcoro⟩
      · simp [State.accept, State.record, State.dequeue, hc, hz]
      · exact hr
      · rw [submissions_accept, if_pos rfl]
        exact congrArg (· + 1) hs
      · exact hw'
      · exact hy
  | fresh _ _ _ _ hz | failed _ _ _ _ _ hz | pending _ _ _ _ hz | dropped _ _ _ _ hz
  | done _ _ _ _ hz => omega

theorem inv_step {args : R → Request} {s t : State R} {a : Act R} (hi : Inv args s)
    (ha : Alone args s a ∧ AtOnce s a) (h : step args s a = some t) : Inv args t := by
  have ho := own_step s a t hi.own ha.1 h
  cases a with
  | issue r rc =>
    obtain ⟨hp, rfl⟩ := (issue_eq_some args s t r rc).mp h
    exact inv_issue hi hp ho
  | await r =>
    obtain ⟨hp, rfl⟩ := (when_eq_some _ _ _).mp h
    exact inv_await hi hp ho
  | complete p success =>
    obtain ⟨hp, rfl⟩ := (when_eq_some _ _ _).mp h
    exact inv_complete hi hp ha.2 ho
  | retry c w rc =>
    obtain ⟨hw, hc, rfl⟩ := retry_eq_some hi.own h
    exact (inv_retry hi hw hc ha.2 ho).2

def Dropped (s : State R) (r : R) : Prop := s.codes r = [-ENOMEM, -ENOMEM]

/-- A request is forgotten by its retry that gets `-ENOMEM`, and by nothing else. -/
theorem dropped_step {args : R → Request} {s t : State R} {a : Act R} (hi : Inv args s)
    (ha : Alone args s a ∧ AtOnce s a) (h : step args s a = some t) (r : R) :
    Dropped t r ↔ Dropped s r ∨ ∃ c w, a = .retry c w (-ENOMEM) ∧ w.owner = r := by
  unfold Dropped
  cases a with
  | issue x rc =>
    obtain ⟨hp, rfl⟩ := (issue_eq_some args s t x rc).mp h
    have hcodes : (issued args s x rc).codes = Function.update s.codes x (s.codes x ++ [rc]) := by
      obtain ⟨-, h⟩ | ⟨-, h⟩ | ⟨-, h⟩ := issued_cases args s x rc <;> rw [h] <;> rfl
    rw [hcodes]
    by_cases hr : r = x
    · subst hr
      simp [(story_fresh (hi.story r) hp).1]
    · simp [hr]
  | await x =>
    obtain ⟨hp, rfl⟩ := (when_eq_some _ _ _).mp h
    have hcodes : (await s x).codes = s.codes := by
      unfold await
      split_ifs <;> rfl
    simp [hcodes]
  | complete p success =>
    obtain ⟨hp, rfl⟩ := (when_eq_some _ _ _).mp h
    have hcodes := (kept_resume { s with pending := s.pending.erase p } p.res
      (if success then 0 else 1)).codes
    rw [spdkIoCompleteCb, hcodes]
    simp
  | retry c w rc =>
    obtain ⟨hw, hc, rfl⟩ := retry_eq_some hi.own h
    obtain ⟨hold, -⟩ := inv_retry hi hw hc ha.2 (own_step s _ _ hi.own ha.1 h)
    have hcodes : (retried args (s.dequeue c w) w.owner rc).codes =
        Function.update s.codes w.owner [-ENOMEM, rc] := by
      obtain ⟨-, h⟩ | ⟨-, h⟩ | ⟨-, h⟩ := retried_cases args (s.dequeue c w) w.owner rc <;> rw [h]
      · simp [State.record, State.dequeue, hold]
      · rw [(kept_resume _ w.owner rc).codes]
        simp [State.record, State.dequeue, hold]
      · simp [State.accept, State.record, State.dequeue, hold]
    rw [hcodes]
    by_cases hr : r = w.owner
    · subst hr
      simp [hold]
    · simp [hr, Ne.symm hr]

theorem inv_init (args : R → Request) : Inv args (init : State R) :=
  ⟨own_init args, rfl, fun _ => .fresh rfl rfl rfl rfl rfl rfl⟩

theorem inv_run {args : R → Request} {as : List (Act R)} {s : State R}
    (h : run (step args) init as = some s)
    (hm : Meets (step args) (fun s a => Alone args s a ∧ AtOnce s a) init as) :
    Inv args s ∧ ∀ r, Dropped s r ↔ ∃ c w, .retry c w (-ENOMEM) ∈ as ∧ w.owner = r := by
  have hinit : Inv args init ∧ ∀ r : R, Dropped init r ↔
      ∃ c w, Act.retry c w (-ENOMEM) ∈ [] ∧ w.owner = r :=
    ⟨inv_init args, fun r => by simp [Dropped, init]⟩
  have hrun := trace_invariant_of_meets (fun _ a => some a) (fun s a => Alone args s a ∧ AtOnce s a)
    (fun es s => Inv args s ∧ ∀ r, Dropped s r ↔ ∃ c w, .retry c w (-ENOMEM) ∈ es ∧ w.owner = r)
    (fun es s a t hi ha hst => ⟨inv_step hi.1 ha hst, fun r => ?_⟩) h hm hinit
  · rwa [trace_self h, List.nil_append] at hrun
  · rw [dropped_step hi.1 ha hst r, hi.2 r]
    simp only [Option.toList_some, List.mem_append, List.mem_singleton]
    constructor
    · rintro (⟨c, w, hmem, hr⟩ | ⟨c, w, rfl, hr⟩)
      · exact ⟨c, w, .inl hmem, hr⟩
      · exact ⟨c, w, .inr rfl, hr⟩
    · rintro ⟨c, w, hmem | rfl, hr⟩
      · exact .inl ⟨c, w, hmem, hr⟩
      · exact .inr ⟨c, w, rfl, hr⟩

/-- A request has its one owner or its result exactly when no retry of it got `-ENOMEM`. -/
theorem request_owned_iff (args : R → Request) (as : List (Act R)) (s : State R)
    (h : run (step args) init as = some s)
    (hm : Meets (step args) (fun s a => Alone args s a ∧ AtOnce s a) init as) :
    s.fault = false ∧
      ∀ r, Accounted args s r ↔ ∀ c w, .retry c w (-ENOMEM) ∈ as → w.owner ≠ r := by
  obtain ⟨hi, hdrop⟩ := inv_run h hm
  refine ⟨hi.fault, fun r => (accounted_iff (hi.story r)).trans ((not_congr (hdrop r)).trans ?_)⟩
  simp only [not_exists, not_and, ne_eq]

theorem request_owned_iff_retried : ∃ s : State (Fin 1),
    run (step fun _ => ⟨0, .read, 100, 8, 0⟩) init
      [.issue 0 (-12), .await 0, .retry 0 ⟨0, 0⟩ 0, .complete ⟨⟨0, .read, 100, 8, 0⟩, 0⟩ true] = some s ∧
    s.fault = false ∧ Accounted (fun _ => ⟨0, .read, 100, 8, 0⟩) s 0 := by
  have hmain := request_owned_iff (fun _ : Fin 1 => ⟨0, .read, 100, 8, 0⟩)
    [.issue 0 (-12), .await 0, .retry 0 ⟨0, 0⟩ 0, .complete ⟨⟨0, .read, 100, 8, 0⟩, 0⟩ true] _ rfl
    (by decide)
  refine ⟨_, rfl, hmain.1, (hmain.2 0).mpr fun c w hmem => ?_⟩
  simp [ENOMEM] at hmem

/-- The retry gets `-ENOMEM` as well: the coroutine stays suspended with no owner left. -/
theorem request_stranded : ∃ s : State (Fin 1),
    run (step fun _ => ⟨0, .read, 100, 8, 0⟩) init
      [.issue 0 (-12), .await 0, .retry 0 ⟨0, 0⟩ (-12)] = some s ∧
    Meets (step fun _ => ⟨0, .read, 100, 8, 0⟩)
      (fun s a => Alone (fun _ => ⟨0, .read, 100, 8, 0⟩) s a ∧ AtOnce s a) init
      [.issue 0 (-12), .await 0, .retry 0 ⟨0, (0 : Fin 1)⟩ (-12)] ∧
    s.phase 0 = .suspended ∧ s.pending = [] ∧ s.ioWait 0 = [] ∧
    ¬ ∀ r, Accounted (fun _ => ⟨0, .read, 100, 8, 0⟩) s r := by
  refine ⟨_, rfl, by decide, rfl, rfl, rfl, fun hacc => ?_⟩
  have h0 := (hacc 0).1
  exact absurd h0 (by decide)

end LibCoro.Service
