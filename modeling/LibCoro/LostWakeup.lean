import LibCoro.CondWaitReturns
import Mathlib.Data.Fintype.Basic

namespace LibCoro.CondWait

open Machine Chain
open ConditionVariable (Signal Stacked signal pending resumedBy)

variable {C P σ : Type} {L : Lock (C × Bool)} {eval : P → σ → Bool}

/-- A change that is not to be followed by a notification makes no predicate true for which a
coroutine is parked. -/
def Announced (eval : P → σ → Bool) (s : State L P σ) : Act L P σ → Prop
  | .write _ mem false => ∀ c pred, s.pc c = .waiting pred → s.cv.pc c = .parked →
      eval pred mem = true → eval pred s.mem = true
  | _ => True

def Owing (s : State L P σ) (k : C) : Prop :=
  s.owes k = true ∨ s.cv.pc k = .allLoad ∨ ∃ w, s.cv.pc k = .allCas w

/-- Where one of the waiters `l` has a true predicate, somebody still owes a notification. -/
def Watched (eval : P → σ → Bool) (l : List C) (s : State L P σ) : Prop :=
  ∀ c ∈ l, ∀ pred, s.pc c = .waiting pred → eval pred s.mem = true → ∃ k, Owing s k

variable {es : List (Signal C)} {s t : State L P σ} {d : C → List C} {k : C}

theorem waiting_of_parked (hi : Inv eval es s d) (hk : s.cv.pc k = .parked) :
    ∃ pred, s.pc k = .waiting pred := by
  have hplace := hi.place k
  cases hpc : s.pc k with
  | waiting pred => exact ⟨pred, rfl⟩
  | overlap => exact absurd hplace (by rw [hpc]; exact id)
  | waitSuspend pred =>
    rw [hpc] at hplace
    have hpush := hplace.2.2
    rw [hk] at hpush
    exact hpush.elim
  | notifying =>
    rw [hpc] at hplace
    have hnot := hplace.2
    rw [hk] at hnot
    exact (hnot.elim id (by simp)).elim
  | _ =>
    rw [hpc] at hplace
    have hcv := hplace.2
    rw [hk] at hcv
    cases hcv

variable [DecidableEq C] [DecidableEq P] {a : Act L P σ}

theorem not_actor_of_parked (hi : Inv eval es s d) (hk : s.cv.pc k = .parked)
    (h : step eval s a = some t) : a.actor ≠ some k := by
  intro hact
  obtain ⟨pred, hpc⟩ := waiting_of_parked hi hk
  obtain ⟨spurious, rfl⟩ := advance_of_step h hact (by simp [hpc])
  simp [step, advance, hpc, hk] at h

theorem waitSuspend_of_registered (hi : Inv eval es s d)
    (he : emit eval s a = some (.registered k)) :
    ∃ pred, s.pc k = .waitSuspend pred ∧ eval pred s.mem = false := by
  obtain ⟨b, hcv, hsig⟩ := Option.bind_eq_some_iff.mp he
  obtain ⟨rfl, w, hcas, -⟩ := ConditionVariable.of_registered hsig
  cases a with
  | advance j spurious =>
    have hplace := hi.place j
    simp only [cvAct] at hcv
    cases hpc : s.pc j <;> simp only [hpc] at hcv <;> try split_ifs at hcv
    all_goals cases hcv
    · rw [hpc] at hplace
      exact ⟨_, hpc, hplace.2.1⟩
    · rw [hpc] at hplace
      exact absurd hplace.2 (by simp [hcas, ConditionVariable.Pc.Notifying])
  | _ => cases hcv

theorem owing_step (hi : Inv eval es s d) (hw : ∀ k mem n, a ≠ .write k mem n)
    (h : step eval s a = some t) (he : emit eval s a ≠ some (.taken k)) (ho : Owing s k) :
    Owing t k := by
  have howes := (frame_step h).owes hw k
  unfold emit at he
  cases hcv : cvAct eval s a with
  | none =>
    obtain ⟨-, hsame⟩ := inv_apart hi hcv h
    unfold Owing at ho ⊢
    rw [hsame, howes.resolve_right fun e => by simp [e, cvAct] at hcv]
    exact ho
  | some b =>
    obtain ⟨hv, -, -⟩ := inv_cv hi hcv h
    rw [hcv, Option.bind_some] at he
    by_cases hb : b = .notifyAll k
    · subst hb
      obtain ⟨-, hv⟩ := (when_eq_some _ _ _).mp hv
      refine .inr (.inl ?_)
      rw [← hv]
      exact Function.update_self _ _ _
    · have hne : a ≠ .notifyAll k := by
        rintro rfl
        exact hb (Option.some.inj hcv).symm
      rw [Owing, howes.resolve_right hne]
      refine ho.imp_right fun ho => ?_
      by_cases hact : b.actor = k
      · cases b with
        | suspend j | notifyAll j | notifyOne j =>
          obtain ⟨hidle, -⟩ := (when_eq_some _ _ _).mp hv
          obtain rfl : j = k := hact
          obtain ho | ⟨w, ho⟩ := ho <;> rw [hidle] at ho <;> cases ho
        | advance j spurious =>
          obtain rfl : j = k := hact
          simp only [ConditionVariable.step] at hv
          obtain ho | ⟨w, ho⟩ := ho <;> simp only [ConditionVariable.advance, ho] at hv
          · rw [← Option.some.inj hv]
            exact .inr ⟨_, Function.update_self _ _ _⟩
          · split_ifs at hv with hc
            · simp [signal, ho, hc] at he
            · rw [← Option.some.inj hv]
              exact .inr ⟨_, Function.update_self _ _ _⟩
      · have hparked : s.cv.pc k ≠ .parked := by
          obtain ho | ⟨w, ho⟩ := ho <;> simp [ho]
        obtain hpc | ⟨hp, -⟩ := ConditionVariable.pc_of_step hv (Ne.symm hact)
        · rwa [hpc]
        · exact absurd hp hparked

/-- No step leaves a waiter with a true predicate and nobody to notify it. -/
theorem watched_step (hi : Inv eval es s d) (hw : Watched eval (pending es) s)
    (ha : Announced eval s a) (h : step eval s a = some t) :
    Watched eval (pending (es ++ (emit eval s a).toList)) t := by
  have hparked : ∀ c ∈ pending es, s.cv.pc c = .parked :=
    fun c hc => (hi.stack.inv.parked c).mpr (.inl hc)
  have hpc : ∀ c ∈ pending es, t.pc c = s.pc c :=
    fun c hc => (frame_step h).pc c (not_actor_of_parked hi (hparked c hc) h)
  by_cases hwrite : ∃ k mem n, a = .write k mem n
  · obtain ⟨k, mem, n, rfl⟩ := hwrite
    obtain ⟨-, rfl⟩ := (when_eq_some _ _ _).mp h
    intro c hc pred hcp heval
    rw [show emit eval s (.write k mem n) = none from rfl, Option.toList_none, List.append_nil] at hc
    cases n with
    | true => exact ⟨k, .inl (by simp)⟩
    | false =>
      obtain ⟨j, hj⟩ := hw c hc pred hcp (ha c pred hcp (hparked c hc) heval)
      refine ⟨j, hj.imp_left fun hj => ?_⟩
      by_cases hjk : j = k
      · simp [hjk, hjk ▸ hj]
      · simp [hjk, hj]
  · have hnot : ∀ k mem n, a ≠ .write k mem n := fun k mem n e => hwrite ⟨k, mem, n, e⟩
    have hmem := (frame_step h).mem hnot
    have hold : (∀ k, emit eval s a ≠ some (.taken k)) → ∀ c ∈ pending es, ∀ pred,
        t.pc c = .waiting pred → eval pred t.mem = true → ∃ k, Owing t k := by
      intro he c hc pred hcp heval
      rw [hpc c hc] at hcp
      rw [hmem] at heval
      obtain ⟨j, hj⟩ := hw c hc pred hcp heval
      exact ⟨j, owing_step hi hnot h (he j) hj⟩
    cases he : emit eval s a with
    | none =>
      rw [Option.toList_none, List.append_nil]
      exact hold (by simp [he])
    | some e =>
      rw [Option.toList_some, ConditionVariable.pending_append]
      cases e with
      | taken k => exact fun c hc => absurd hc List.not_mem_nil
      | resumed k b => exact hold (by simp [he])
      | registered x =>
        intro c hc pred hcp heval
        obtain rfl | hc := List.mem_cons.mp hc
        · obtain ⟨pred', hcp', hfalse⟩ := waitSuspend_of_registered hi he
          have hwaits : (s.pc c).waits = some pred' := by rw [hcp']; rfl
          have hkeep := (pc_of_waits hi hwaits h).resolve_right (by simp [hcp])
          rw [hcp] at hkeep
          cases hkeep
          rw [hmem, hfalse] at heval
          cases heval
        · exact hold (by simp [he]) c hc pred hcp heval

theorem resuming_of_taken {spurious : Bool} (hi : Inv eval es s d)
    (he : emit eval s (.advance k spurious) = some (.taken k))
    (h : step eval s (.advance k spurious) = some t) :
    (t.cv.pc k).Resuming ∧ t.pc k = .notifying := by
  have hplace := hi.place k
  obtain ⟨b, hcv, hsig⟩ := Option.bind_eq_some_iff.mp he
  obtain ⟨rfl, w, hcas, hw⟩ := ConditionVariable.of_taken hsig
  simp only [step] at h
  simp only [cvAct] at hcv
  cases hpc : s.pc k with
  | waitTest pred =>
    simp only [hpc] at hcv
    split_ifs at hcv
    cases hcv
  | waitSuspend pred =>
    rw [hpc] at hplace
    have hpush := hplace.2.2
    rw [hcas] at hpush
    exact hpush.elim
  | notifying =>
    simp only [hpc] at hcv
    simp only [advance, hpc] at h
    split_ifs at h hcv
    cases hcv
    obtain ⟨v, hv, rfl⟩ := Option.map_eq_some_iff.mp h
    refine ⟨?_, pc_goto_self _ _ _⟩
    simp only [ConditionVariable.step, ConditionVariable.advance, hcas, hw, and_self, if_true,
      Option.some.injEq] at hv
    change (v.pc k).Resuming
    rw [← hv]
    simpa [ConditionVariable.State.goto] using ConditionVariable.Pc.Resuming.loop _
  | _ => simp [hpc] at hcv

theorem notifying_step (h : step eval s a = some t) (hk : s.pc k = .notifying) :
    t.pc k = .notifying ∨ t.pc k = .idle := by
  by_cases hact : a.actor = some k
  · obtain ⟨spurious, rfl⟩ := advance_of_step h hact (by simp [hk])
    simp only [step, advance, hk] at h
    split_ifs at h
    · cases h
      exact .inr (pc_goto_self s k .idle)
    · obtain ⟨v, -, rfl⟩ := Option.map_eq_some_iff.mp h
      exact .inl (pc_goto_self _ _ _)
  · exact .inl (((frame_step h).pc k hact).trans hk)

theorem resuming_step (hi : Inv eval es s d) (h : step eval s a = some t) (hk : s.pc k = .notifying)
    (hr : (s.cv.pc k).Resuming) : (t.cv.pc k).Resuming := by
  cases hcv : cvAct eval s a with
  | none =>
    rw [(inv_apart hi hcv h).2]
    exact hr
  | some b =>
    refine ConditionVariable.resuming_step hi.stack.inv (inv_cv hi hcv h).1 (fun hb => ?_) hr
    cases a with
    | notifyAll j =>
      cases hcv
      obtain rfl : j = k := hb
      simp [step, hk] at h
    | advance j spurious =>
      simp only [cvAct] at hcv
      cases hpc : s.pc j with
      | waitTest pred =>
        simp only [hpc] at hcv
        split_ifs at hcv
        cases hcv
        obtain rfl : j = k := hb
        simp [hk] at hpc
      | waitSuspend pred =>
        simp only [hpc, Option.some.injEq] at hcv
        subst hcv
        exact ⟨spurious, congrArg (ConditionVariable.Act.advance · spurious) hb⟩
      | notifying =>
        simp only [hpc] at hcv
        split_ifs at hcv
        cases hcv
        exact ⟨spurious, congrArg (ConditionVariable.Act.advance · spurious) hb⟩
      | _ => simp [hpc] at hcv
    | _ => cases hcv

theorem resumed_run {bs : List (Act L P σ)} {u : State L P σ} (hi : Inv eval es s d)
    (hk : s.pc k = .notifying) (hr : (s.cv.pc k).Resuming)
    (hin : Meets (step eval) (fun s _ => s.pc k = .notifying) s bs)
    (h : run (step eval) s bs = some u) :
    ∃ es' d', Inv eval es' u d' ∧ (u.cv.pc k).Resuming ∧ (u.pc k = .notifying ∨ u.pc k = .idle) ∧
      d k = trace (step eval) (emitResumed eval k) s bs ++ d' k := by
  induction bs generalizing s es d with
  | nil =>
    rw [(run_nil s u).mp h]
    exact ⟨es, d, hi, hr, .inl hk, rfl⟩
  | cons b bs ih =>
    obtain ⟨t, ht, hrun⟩ := (run_cons s u b bs).mp h
    obtain ⟨-, hin'⟩ := (meets_cons _ s b bs).mp hin
    obtain ⟨d₁, hi₁, -, hd⟩ := inv_step hi ht
    have hr₁ := resuming_step hi ht hk hr
    have hne : emit eval s b ≠ some (.taken k) := by
      intro he
      obtain ⟨b', -, hsig⟩ := Option.bind_eq_some_iff.mp he
      obtain ⟨-, w, hcas, -⟩ := ConditionVariable.of_taken hsig
      rw [hcas] at hr
      cases hr
    cases bs with
    | nil =>
      obtain rfl := (run_nil t u).mp hrun
      refine ⟨_, d₁, hi₁, hr₁, notifying_step ht hk, ?_⟩
      rw [trace_cons ht, hd k hne]
      simp [trace]
    | cons b' bs' =>
      have hk₁ := ((meets_cons _ t b' bs').mp (hin' t ht)).1
      obtain ⟨es', d', hi', hr', hu, hd'⟩ := ih hi₁ hk₁ hr₁ (hin' t ht) hrun
      exact ⟨es', d', hi', hr', hu, by rw [trace_cons ht, hd k hne, hd', List.append_assoc]⟩

theorem notify_finishes {u : ConditionVariable.State C} {n : Nat} (hk : s.pc k = .notifying)
    (h : run ConditionVariable.step s.cv (List.replicate n (.advance k false)) = some u)
    (hu : u.pc k = .idle) :
    ∃ j v, run (step eval) s (List.replicate j (.advance k false)) = some v ∧ v.pc k = .idle := by
  induction n generalizing s with
  | zero =>
    obtain rfl := (run_nil _ u).mp h
    refine ⟨1, s.goto k .idle, (run_cons ..).mpr ⟨_, ?_, rfl⟩, pc_goto_self s k .idle⟩
    simp [step, advance, hk, hu]
  | succ n ih =>
    obtain ⟨v, hv, hr⟩ := (run_cons ..).mp h
    have hidle : s.cv.pc k ≠ .idle := by
      intro hidle
      simp [ConditionVariable.step, ConditionVariable.advance, hidle] at hv
    have hstep : step eval s (.advance k false) =
        some (({ s with cv := v } : State L P σ).goto k .notifying) := by
      simp [step, advance, hk, hidle, cvStep, hv]
    obtain ⟨j, w, hw, hwk⟩ := ih (s := ({ s with cv := v } : State L P σ).goto k .notifying)
      (pc_goto_self _ _ _) hr
    exact ⟨j + 1, w, (run_cons ..).mpr ⟨_, hstep, hw⟩, hwk⟩

structure Notified (eval : P → σ → Bool) (es : List (Signal C)) (s : State L P σ) : Prop where
  registered : Linked s.cv.next s.cv.awaiters (pending es) ∧ (pending es).Nodup ∧
    ∀ a ∈ pending es, s.cv.pc a = .parked
  owed : ∀ a ∈ pending es, ∀ pred, s.pc a = .waiting pred → eval pred s.mem = true →
    ∃ k, s.owes k = true ∨ s.pc k = .notifying
  resumes : ∀ k spurious t bs u, emit eval s (.advance k spurious) = some (.taken k) →
    step eval s (.advance k spurious) = some t → run (step eval) t bs = some u →
    Meets (step eval) (fun s _ => s.pc k = .notifying) t bs →
    (∃ rest, pending es = trace (step eval) (emitResumed eval k) t bs ++ rest ∧
      (u.cv.pc k = .idle → rest = [])) ∧
      ∃ j v, run (step eval) u (List.replicate j (.advance k false)) = some v ∧ v.pc k = .idle

omit [DecidableEq C] [DecidableEq P] in
theorem notifying_of_owing (hi : Inv eval es s d) (ho : Owing s k) :
    s.owes k = true ∨ s.pc k = .notifying := by
  refine ho.imp_right fun ho => ?_
  have hplace := hi.place k
  have hne : s.cv.pc k ≠ .idle ∧ s.cv.pc k ≠ .parked ∧ ¬ (s.cv.pc k).Pushing := by
    obtain ho | ⟨w, ho⟩ := ho <;> simp [ho, ConditionVariable.Pc.Pushing]
  cases hpc : s.pc k with
  | notifying => rfl
  | overlap =>
    rw [hpc] at hplace
    exact hplace.elim
  | waitSuspend pred =>
    rw [hpc] at hplace
    exact absurd hplace.2.2 hne.2.2
  | waiting pred =>
    rw [hpc] at hplace
    exact absurd hplace.2 (by simp [hne.1, hne.2.1])
  | _ =>
    rw [hpc] at hplace
    exact absurd hplace.2 hne.1

theorem notified_of_inv (hi : Inv eval es s d) (hw : Watched eval (pending es) s) :
    Notified eval es s := by
  have hlinked := hi.stack.inv.linked
  refine ⟨⟨hlinked, linked_nodup hlinked, fun a ha => ?_⟩, fun a ha pred hpc heval => ?_,
    fun k spurious t bs u he ht hr hin => ?_⟩
  · exact (hi.stack.inv.parked a).mpr (.inl ha)
  · obtain ⟨k, hk⟩ := hw a ha pred hpc heval
    exact ⟨k, notifying_of_owing hi hk⟩
  · obtain ⟨d₁, hi₁, htaken, -⟩ := inv_step hi ht
    obtain ⟨hres, hnot⟩ := resuming_of_taken hi he ht
    obtain ⟨es', d', hi', hres', hu, hd⟩ := resumed_run hi₁ hnot hres hin hr
    rw [htaken k he] at hd
    refine ⟨⟨d' k, hd, fun hidle => ?_⟩, ?_⟩
    · have hdk := hi'.stack.inv.detached k
      rwa [hidle] at hdk
    · cases hu with
      | inl hu =>
        obtain ⟨n, v, hv, hvk⟩ := ConditionVariable.resuming_finishes hi'.stack.inv hres'
        exact notify_finishes hu hv hvk
      | inr hu => exact ⟨0, u, rfl, hu⟩

/-- If changes that make a predicate of a parked coroutine true are followed by a notification,
no waiter is left in the stack with a true predicate once every notification is made; and each
notification resumes the waiters registered until then, in turn. -/
theorem no_lost_wakeup (kind : LockKind) (eval : P → σ → Bool) (mem : σ)
    (as : List (Act (kind.lock : Lock (C × Bool)) P σ)) (s : State (kind.lock : Lock (C × Bool)) P σ)
    (h : run (step eval) (init mem) as = some s)
    (hm : Meets (step eval) (Announced eval) (init mem) as) :
    Notified eval (trace (step eval) (emit eval) (init mem) as) s := by
  obtain ⟨⟨d, hi⟩, hw⟩ := trace_invariant_of_meets (emit eval) (Announced eval)
    (fun es s => (∃ d, Inv eval es s d) ∧ Watched eval (pending es) s)
    (fun es s a t ⟨⟨d, hi⟩, hw⟩ ha ht =>
      ⟨(inv_step hi ht).imp fun _ h => h.1, watched_step hi hw ha ht⟩) h hm
    ⟨⟨_, inv_init mem⟩, fun a ha => absurd ha List.not_mem_nil⟩
  exact notified_of_inv hi hw

instance [Fintype C] [Fintype P] (s : State L P σ) (a : Act L P σ) :
    Decidable (Announced eval s a) := by
  cases a with
  | write k mem notifies =>
    cases notifies <;> unfold Announced <;> infer_instance
  | _ => exact isTrue trivial

def notifyWaiter (a b : C) :
    List (Act (LockKind.mutex.lock : Lock (C × Bool)) Unit Bool) :=
  [.coLock a, .advance a false, .wait a (), .advance a false, .advance a false, .advance a true,
    .advance a false, .release a, .move (((a, false), false) : (C × Bool) × Bool),
    .move (((a, false), false) : (C × Bool) × Bool), .coLock b, .advance b false,
    .write b false false, .write b true true, .notifyAll b, .advance b false, .advance b false,
    .advance b false, .advance b false, .advance b false, .advance b false]

theorem no_lost_wakeup_locked : ∃ s : State (LockKind.mutex.lock : Lock (Fin 2 × Bool)) Unit Bool,
    run (step fun _ m => m) (init false) (notifyWaiter 0 1) = some s ∧ s.pc 0 = .waiting () ∧
      s.cv.pc 0 = .idle ∧ s.owes 1 = false ∧
      Notified (fun _ m => m)
        (trace (step fun _ m => m) (emit fun _ m => m) (init false) (notifyWaiter 0 1)) s :=
  ⟨_, rfl, rfl, rfl, rfl, no_lost_wakeup .mutex (fun _ m => m) false (notifyWaiter 0 1) _ rfl
    (by decide +kernel)⟩

end LibCoro.CondWait
