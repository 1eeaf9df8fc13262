import LibCoro.Notifier
import LibCoro.ResumeWaiters

namespace LibCoro.Notifier

open Machine Chain

variable {C : Type}

/-- Outside its flag, a notifier keeps its waiters as a condition variable does. -/
def Pc.view : Pc C → ConditionVariable.Pc C
  | .idle | .ready | .exchange | .resetCas => .idle
  | .suspendLoad => .suspendLoad
  | .suspendNext awaitings => .suspendNext awaitings.pointer
  | .suspendCas awaitings => .suspendCas awaitings.pointer
  | .parked => .parked
  | .resumeWaiters awaiters => .resumeWaiters awaiters
  | .resume prev awaiters => .resume prev awaiters
  | .strayResume => .strayResume

theorem view_parked (p : Pc C) : p.view = .parked ↔ p = .parked := by
  cases p <;> simp [Pc.view]

def State.view (s : State C) : ConditionVariable.State C :=
  ⟨s.word.pointer, s.next, fun k => (s.pc k).view⟩

def Event.About (a : C) (e : Event C) : Prop := e = .registered a ∨ ∃ k, e = .resumed k a

def RegisteredSince (es : List (Event C)) (a : C) : Prop :=
  ∃ es₁ es₂, es = es₁ ++ .registered a :: es₂ ∧ ∀ e ∈ es₂, ¬ e.About a

def NotifiedSince (es : List (Event C)) (k a : C) : Prop :=
  ∃ es₁ es₂, es = es₁ ++ .notified k :: es₂ ∧ RegisteredSince es₁ a ∧
    ∀ e ∈ es₂, e ≠ .notified k ∧ ¬ e.About a

/-- The waiters taken by `k` are the ones it is going to resume: `d k`. -/
structure Inv (es : List (Event C)) (s : State C) (d : C → List C) : Prop where
  stack : ConditionVariable.Inv s.view (pending es) d
  unset : ∀ k w, s.pc k = .suspendNext w ∨ s.pc k = .suspendCas w → w ≠ .self
  registered : ∀ a ∈ pending es, RegisteredSince es a
  notified : ∀ k, ∀ a ∈ d k, NotifiedSince es k a

theorem pending_append (es : List (Event C)) (e : Event C) :
    pending (es ++ [e]) =
      match e with
      | .registered a => a :: pending es
      | .notified _ => []
      | .resumed _ _ => pending es := by
  rw [pending, List.foldl_append]
  rfl

theorem inv_init : Inv [] (init : State C) (fun _ => []) where
  stack := ConditionVariable.inv_init
  unset k w hk := by simp [init] at hk
  registered a ha := absurd ha List.not_mem_nil
  notified k a ha := absurd ha List.not_mem_nil

variable {es : List (Event C)} {a k : C}

theorem RegisteredSince.append (h : RegisteredSince es a) {e : Event C} (he : ¬ e.About a) :
    RegisteredSince (es ++ [e]) a := by
  obtain ⟨es₁, es₂, rfl, hes⟩ := h
  refine ⟨es₁, es₂ ++ [e], by simp, fun x hx => ?_⟩
  cases List.mem_append.mp hx with
  | inl hx => exact hes x hx
  | inr hx => exact List.mem_singleton.mp hx ▸ he

theorem NotifiedSince.append (h : NotifiedSince es k a) {e : Event C} (he : ¬ e.About a)
    (hk : e ≠ .notified k) : NotifiedSince (es ++ [e]) k a := by
  obtain ⟨es₁, es₂, rfl, hr, hes⟩ := h
  refine ⟨es₁, es₂ ++ [e], by simp, hr, fun x hx => ?_⟩
  cases List.mem_append.mp hx with
  | inl hx => exact hes x hx
  | inr hx => exact List.mem_singleton.mp hx ▸ ⟨hk, he⟩

variable [DecidableEq C] {s t : State C} {d : C → List C}

theorem view_goto (s : State C) (k : C) (p : Pc C) : (s.goto k p).view = s.view.goto k p.view := by
  have hpc : (fun j => (Function.update s.pc k p j).view) =
      Function.update (fun j => (s.pc j).view) k p.view := by
    funext j
    by_cases hj : j = k
    · simp [hj]
    · simp [hj]
  exact congrArg (ConditionVariable.State.mk s.word.pointer s.next) hpc

theorem Inv.goto (hi : Inv es s d) {p : Pc C}
    (hd : ConditionVariable.Detached s.next p.view (d k))
    (hp : p = .parked ↔ s.pc k = .parked) (hs : p.view.Sound)
    (hw : ∀ w, p = .suspendNext w ∨ p = .suspendCas w → w ≠ .self)
    (ho : ∀ w, p.view = .suspendCas w → s.next k = w) : Inv es (s.goto k p) d where
  stack := by
    rw [view_goto]
    refine ConditionVariable.inv_goto hi.stack hd ?_ hs ho
    exact (view_parked p).trans (hp.trans (view_parked (s.pc k)).symm)
  unset j w hj := by
    by_cases hjk : j = k
    · subst hjk
      exact hw w (by simpa [State.goto] using hj)
    · exact hi.unset j w (by simpa [State.goto, hjk] using hj)
  registered := hi.registered
  notified := hi.notified

def Hands (es : List (Event C)) (s : State C) (k : C) (d d' : C → List C) : Prop :=
  (∀ j, j ≠ k → d' j = d j) ∧
    match s.pc k with
    | .exchange => d' k = pending es
    | .resume prev _ => d k = prev :: d' k
    | _ => d' k = d k

omit [DecidableEq C] in
theorem hands_same (d : C → List C) (he : s.pc k ≠ .exchange) (hr : ∀ a p, s.pc k ≠ .resume a p) :
    Hands es s k d d := by
  refine ⟨fun j _ => rfl, ?_⟩
  split
  · exact absurd ‹_› he
  · exact absurd ‹_› (hr _ _)
  · rfl

theorem Inv.suspendWith (hi : Inv es s d) (hd : d k = []) (hk : s.pc k ≠ .parked) :
    Inv es (s.suspendWith k) d := by
  unfold State.suspendWith
  by_cases hw : s.word = .self
  · rw [if_pos hw]
    exact hi.goto hd (by simp [hk]) trivial (by simp) (by simp [Pc.view])
  · rw [if_neg hw]
    refine hi.goto hd (by simp [hk]) trivial (fun w hp => ?_) (by simp [Pc.view])
    obtain hp | hp := hp <;> cases hp
    exact hw

theorem inv_register (hi : Inv es s d) {w : Word C} (hpc : s.pc k = .suspendCas w)
    (hw : s.word = w) :
    Inv (es ++ [.registered k]) ({ s with word := .awaiter k }.goto k .parked) d := by
  have hview : s.view.pc k = .suspendCas w.pointer := by simp [State.view, hpc, Pc.view]
  obtain ⟨hkl, hkd⟩ := ConditionVariable.not_mem_of_not_parked hi.stack (a := k) (by simp [hview])
  have habout : ∀ b, b ≠ k → ¬ (Event.registered k).About b := by
    intro b hb h
    obtain h | ⟨j, h⟩ := h
    · exact hb (Event.registered.inj h).symm
    · cases h
  refine ⟨?_, fun j v hj => ?_, fun b hb => ?_, fun j b hb => ?_⟩
  · rw [pending_append, view_goto]
    exact ConditionVariable.inv_push hi.stack hview (congrArg Word.pointer hw)
  · by_cases hjk : j = k
    · subst hjk
      simp [State.goto] at hj
    · exact hi.unset j v (by simpa [State.goto, hjk] using hj)
  · rw [pending_append] at hb
    cases List.mem_cons.mp hb with
    | inl hb => exact ⟨es, [], hb ▸ rfl, by simp⟩
    | inr hb => exact (hi.registered b hb).append (habout b fun h => hkl (h ▸ hb))
  · exact (hi.notified j b hb).append (habout b fun h => hkd j (h ▸ hb)) (by simp)

theorem inv_exchange (hi : Inv es s d) (hpc : s.pc k = .exchange) :
    Inv (es ++ [.notified k]) ({ s with word := .self }.goto k (.resumeWaiters s.word.pointer))
      (Function.update d k (pending es)) := by
  have hview : s.view.pc k = .idle := by simp [State.view, hpc, Pc.view]
  have hdk : d k = [] := by simpa [hview, ConditionVariable.Detached] using hi.stack.detached k
  have hnew : ∀ b, ¬ (Event.notified k).About b := by
    rintro b (h | ⟨j, h⟩) <;> cases h
  refine ⟨?_, fun j v hj => ?_, fun b hb => ?_, fun j b hb => ?_⟩
  · rw [pending_append, view_goto]
    have hstack : ConditionVariable.Inv s.view (pending es ++ []) d := by
      rw [List.append_nil]
      exact hi.stack
    exact ConditionVariable.inv_take hstack hdk (by simp [hview]) rfl hi.stack.linked (by simp [Pc.view])
      (by simp [Pc.view]) trivial
  · by_cases hjk : j = k
    · subst hjk
      simp [State.goto] at hj
    · exact hi.unset j v (by simpa [State.goto, hjk] using hj)
  · rw [pending_append] at hb
    exact absurd hb List.not_mem_nil
  · by_cases hjk : j = k
    · rw [hjk, Function.update_self] at hb
      exact hjk ▸ ⟨es, [], rfl, hi.registered b hb, by simp⟩
    · rw [Function.update_of_ne hjk] at hb
      exact (hi.notified j b hb).append (hnew b) fun h => hjk (Event.notified.inj h).symm

theorem inv_resume (hi : Inv es s d) {b : C} {p : Option C} (hpc : s.pc k = .resume b p) :
    s.pc b = .parked ∧ ∃ l, d k = b :: l ∧
      Inv (es ++ [.resumed k b]) ((s.goto b .idle).goto k (.resumeWaiters p))
        (Function.update d k l) := by
  have hview : s.view.pc k = .resume b p := by simp [State.view, hpc, Pc.view]
  have hdk := hi.stack.detached k
  rw [hview] at hdk
  obtain ⟨l, hl, hlinked⟩ := hdk
  have hparked : s.view.pc b = .parked := (hi.stack.parked b).mpr (.inr ⟨k, by simp [hl]⟩)
  have hb : s.pc b = .parked := (view_parked (s.pc b)).mp hparked
  have hstack := ConditionVariable.inv_resume hi.stack hview hl hlinked
  have hbk : b ≠ k := by
    rintro rfl
    rw [hpc] at hb
    cases hb
  obtain ⟨hbl, hbd⟩ := ConditionVariable.not_mem_of_not_parked hstack (a := b)
    (by simp [ConditionVariable.State.goto, hbk])
  have hkeep : ∀ c, c ≠ b → ¬ (Event.resumed k b).About c := by
    intro c hc h
    obtain h | ⟨j, h⟩ := h
    · cases h
    · exact hc (Event.resumed.inj h).2.symm
  have hsub : ∀ j, ∀ c ∈ Function.update d k l j, c ∈ d j := by
    intro j c hc
    by_cases hjk : j = k
    · rw [hjk, Function.update_self] at hc
      rw [hjk, hl]
      exact List.mem_cons_of_mem b hc
    · rwa [Function.update_of_ne hjk] at hc
  refine ⟨hb, l, hl, ?_, fun j v hj => ?_, fun c hc => ?_, fun j c hc => ?_⟩
  · rw [pending_append, view_goto, view_goto]
    exact hstack
  · refine hi.unset j v ?_
    by_cases hjk : j = k
    · simp [State.goto, hjk] at hj
    · by_cases hjb : j = b
      · simp [State.goto, hjb, hbk] at hj
      · simpa [State.goto, hjk, hjb] using hj
  · rw [pending_append] at hc
    exact (hi.registered c hc).append (hkeep c fun h => hbl (h ▸ hc))
  · exact (hi.notified j c (hsub j c hc)).append (hkeep c fun h => hbd j (h ▸ hc)) (by simp)

theorem inv_setNext (hi : Inv es s d) (q : Option C) (hk : s.pc k ≠ .parked)
    (hc : ∀ w, s.pc k ≠ .suspendCas w) : Inv es (s.setNext k q) d where
  stack := by
    refine ConditionVariable.inv_setNext q hi.stack (fun h => hk ((view_parked _).mp h)) fun w h => ?_
    cases hp : s.pc k <;> simp [State.view, hp, Pc.view] at h
    exact hc _ hp
  unset := hi.unset
  registered := hi.registered
  notified := hi.notified

omit [DecidableEq C] in
theorem inv_silent {e : Option (Event C)} (he : e = none) (h : Inv es t d) :
    Inv (es ++ e.toList) t d := by
  rwa [he, Option.toList_none, List.append_nil]

theorem inv_advance {spurious : Bool} (hi : Inv es s d) (h : advance s k spurious = some t) :
    ∃ d', Inv (es ++ (emit s (.advance k spurious)).toList) t d' ∧ Hands es s k d d' := by
  have hdk : ConditionVariable.Detached s.next (s.pc k).view (d k) := hi.stack.detached k
  have hsound : (s.pc k).view.Sound := hi.stack.sound k
  cases hpc : s.pc k with
  | idle | parked | strayResume => simp [advance, hpc] at h
  | ready =>
    rw [hpc] at hdk
    refine ⟨d, inv_silent (by simp [emit, hpc]) ?_, hands_same d (by simp [hpc]) (by simp [hpc])⟩
    simp only [advance, hpc] at h
    split_ifs at h <;> cases h
    all_goals exact hi.goto hdk (by simp [hpc]) trivial (by simp) (by simp [Pc.view])
  | suspendLoad =>
    rw [hpc] at hdk
    refine ⟨d, inv_silent (by simp [emit, hpc]) ?_, hands_same d (by simp [hpc]) (by simp [hpc])⟩
    simp only [advance, hpc, Option.some.injEq] at h
    exact h ▸ hi.suspendWith hdk (by simp [hpc])
  | suspendNext w =>
    rw [hpc] at hdk
    refine ⟨d, inv_silent (by simp [emit, hpc]) ?_, hands_same d (by simp [hpc]) (by simp [hpc])⟩
    simp only [advance, hpc, Option.some.injEq] at h
    have hw := hi.unset k w (.inl hpc)
    subst h
    refine (inv_setNext hi w.pointer (by simp [hpc]) (by simp [hpc])).goto hdk
      (by simp [State.setNext, hpc]) trivial (fun v hv => ?_) fun v hv => ?_
    · obtain hv | hv := hv <;> cases hv
      exact hw
    · cases hv
      exact Function.update_self ..
  | suspendCas w =>
    rw [hpc] at hdk
    refine ⟨d, ?_, hands_same d (by simp [hpc]) (by simp [hpc])⟩
    simp only [advance, hpc] at h
    simp only [emit, hpc]
    split_ifs at h ⊢ with hc <;> cases h
    · exact inv_register hi hpc hc.1
    · exact inv_silent rfl (hi.suspendWith hdk (by simp [hpc]))
  | exchange =>
    rw [hpc] at hdk
    simp only [advance, hpc] at h
    simp only [emit, hpc, Option.toList_some]
    split_ifs at h with hw <;> cases h
    · -- the flag is set already: nobody waits
      have hnil : pending es = [] := by
        have hl := hi.stack.linked
        rw [show s.view.awaiters = none by simp [State.view, hw, Word.pointer]] at hl
        exact (linked_none _).mp hl
      have hex := inv_exchange hi hpc
      refine ⟨d, ⟨?_, ?_, fun b hb => ?_, fun j b hb => ?_⟩, fun j _ => rfl, by simp [hpc, hnil]; exact hdk⟩
      · rw [pending_append, ← hnil]
        exact (hi.goto (p := .idle) hdk (by simp [hpc]) trivial (by simp) (by simp [Pc.view])).stack
      · exact (hi.goto (p := .idle) hdk (by simp [hpc]) trivial (by simp) (by simp [Pc.view])).unset
      · rw [pending_append] at hb
        exact absurd hb List.not_mem_nil
      · have hjk : j ≠ k := by
          rintro rfl
          rw [hdk] at hb
          cases hb
        refine hex.notified j b ?_
        rwa [Function.update_of_ne hjk]
    · exact ⟨_, inv_exchange hi hpc, fun j hj => Function.update_of_ne hj _ _, by simp [hpc]⟩
  | resumeWaiters p =>
    rw [hpc] at hdk
    refine ⟨d, inv_silent (by simp [emit, hpc]) ?_, hands_same d (by simp [hpc]) (by simp [hpc])⟩
    cases p with
    | none =>
      simp only [advance, hpc, Option.some.injEq] at h
      subst h
      exact hi.goto ((linked_none _).mp hdk) (by simp [hpc]) trivial (by simp) (by simp [Pc.view])
    | some b =>
      simp only [advance, hpc, Option.some.injEq] at h
      subst h
      exact hi.goto ((linked_some b (d k)).mp hdk) (by simp [hpc]) trivial (by simp) (by simp [Pc.view])
  | resume b p =>
    obtain ⟨hb, l, hl, hinv⟩ := inv_resume hi hpc
    simp only [advance, hpc, hb, if_true, Option.some.injEq] at h
    subst h
    simp only [emit, hpc, Option.toList_some]
    exact ⟨_, hinv, fun j hj => Function.update_of_ne hj _ _, by simp [hpc, hl]⟩
  | resetCas =>
    rw [hpc] at hdk
    refine ⟨d, inv_silent (by simp [emit, hpc]) ?_, hands_same d (by simp [hpc]) (by simp [hpc])⟩
    simp only [advance, hpc] at h
    split_ifs at h with hw <;> cases h
    · -- null and the set flag both stand for the empty list
      have hg := hi.goto (p := .idle) hdk (by simp [hpc]) trivial (by simp) (by simp [Pc.view])
      have hview : (({ s with word := .null } : State C).goto k .idle).view = (s.goto k .idle).view := by
        simp [State.view, State.goto, hw, Word.pointer]
      exact ⟨hview ▸ hg.stack, hg.unset, hg.registered, hg.notified⟩
    · exact hi.goto hdk (by simp [hpc]) trivial (by simp) (by simp [Pc.view])

/-- A step takes the whole list of waiters at an exchange, and else only what it resumes. -/
theorem inv_step {act : Act C} (hi : Inv es s d) (h : step s act = some t) :
    ∃ d', Inv (es ++ (emit s act).toList) t d' ∧
      (∀ j sp, act = .advance j sp → s.pc j = .exchange → d' j = pending es) ∧
      ∀ j, s.pc j ≠ .exchange → d j = (emitResumed j s act).toList ++ d' j := by
  cases act with
  | advance k sp =>
    obtain ⟨d', hinv, hother, hself⟩ := inv_advance hi h
    refine ⟨d', hinv, fun j sp' ha hj => ?_, fun j hj => ?_⟩
    · cases ha
      simpa only [hj] using hself
    · by_cases hjk : j = k
      · subst hjk
        cases hpc : s.pc j with
        | exchange => exact absurd hpc hj
        | resume b p =>
          rw [hpc] at hself
          simp [emitResumed, emit, hpc, hself]
        | suspendCas w =>
          rw [hpc] at hself
          have he : emitResumed j s (.advance j sp) = none := by
            simp only [emitResumed, emit, hpc]
            split_ifs <;> rfl
          rw [he]
          exact hself.symm
        | _ =>
          rw [hpc] at hself
          simp [emitResumed, emit, hpc, hself]
      · have he : emitResumed j s (.advance k sp) = none := by
          simp only [emitResumed, emit]
          cases s.pc k <;> simp only
          · split_ifs <;> rfl
          · exact if_neg (Ne.symm hjk)
        rw [he]
        exact (hother j hjk).symm
  | wait k =>
    obtain ⟨hk, rfl⟩ := (when_eq_some _ _ _).mp h
    have hdk : ConditionVariable.Detached s.next (s.pc k).view (d k) := hi.stack.detached k
    rw [hk] at hdk
    refine ⟨d, inv_silent rfl ?_, nofun, fun j _ => rfl⟩
    exact (inv_setNext hi none (by simp [hk]) (by simp [hk])).goto hdk (by simp [State.setNext, hk]) trivial
      (by simp) (by simp [Pc.view])
  | notify k | reset k =>
    obtain ⟨hk, rfl⟩ := (when_eq_some _ _ _).mp h
    have hdk : ConditionVariable.Detached s.next (s.pc k).view (d k) := hi.stack.detached k
    rw [hk] at hdk
    refine ⟨d, inv_silent rfl ?_, nofun, fun j _ => rfl⟩
    exact hi.goto hdk (by simp [hk]) trivial (by simp) (by simp [Pc.view])

theorem pc_frame {act : Act C} (h : step s act = some t) (hk : act.actor ≠ k) :
    t.pc k = s.pc k ∨ s.pc k = .parked ∧ t.pc k = .idle ∧ ∃ j p, s.pc j = .resume k p := by
  have hne : k ≠ act.actor := Ne.symm hk
  cases act with
  | wait j | notify j | reset j =>
    obtain ⟨-, rfl⟩ := (when_eq_some _ _ _).mp h
    exact .inl (Function.update_of_ne hne _ _)
  | advance j sp =>
    change k ≠ j at hne
    simp only [step] at h
    cases hpc : s.pc j with
    | idle | parked | strayResume => simp [advance, hpc] at h
    | resume b p =>
      simp only [advance, hpc] at h
      split_ifs at h with hb <;> cases h
      · by_cases hkb : k = b
        · subst hkb
          exact .inr ⟨hb, by simp [State.goto, hne], j, p, hpc⟩
        · exact .inl (by simp [State.goto, hne, hkb])
      · exact .inl (Function.update_of_ne hne _ _)
    | resumeWaiters p =>
      cases p <;> simp only [advance, hpc, Option.some.injEq] at h <;> subst h
      all_goals exact .inl (Function.update_of_ne hne _ _)
    | suspendLoad =>
      simp only [advance, hpc, Option.some.injEq, State.suspendWith] at h
      split_ifs at h <;> subst h
      all_goals exact .inl (Function.update_of_ne hne _ _)
    | suspendCas w =>
      simp only [advance, hpc, State.suspendWith] at h
      split_ifs at h <;> cases h
      all_goals exact .inl (Function.update_of_ne hne _ _)
    | ready | suspendNext w | exchange | resetCas =>
      simp only [advance, hpc] at h
      try split_ifs at h
      all_goals cases h
      all_goals exact .inl (Function.update_of_ne hne _ _)

inductive Pc.Resuming : Pc C → Prop where
  | idle : Resuming .idle
  | loop (awaiters : Option C) : Resuming (.resumeWaiters awaiters)
  | resume (prev : C) (awaiters : Option C) : Resuming (.resume prev awaiters)

theorem resuming_step {act : Act C} (hi : Inv es s d) (h : step s act = some t)
    (hc : ¬ act.Calls k) (hk : (s.pc k).Resuming) : (t.pc k).Resuming := by
  by_cases hact : act.actor = k
  · cases act with
    | wait j => exact absurd (.inl (congrArg Act.wait hact)) hc
    | notify j => exact absurd (.inr (.inl (congrArg Act.notify hact))) hc
    | reset j => exact absurd (.inr (.inr (congrArg Act.reset hact))) hc
    | advance j sp =>
      obtain rfl : j = k := hact
      simp only [step] at h
      generalize hpc : s.pc j = p at hk
      cases hk with
      | idle => simp [advance, hpc] at h
      | loop awaiters =>
        cases awaiters <;> simp only [advance, hpc, Option.some.injEq] at h <;> subst h
        · simpa [State.goto] using Pc.Resuming.idle
        · simpa [State.goto] using Pc.Resuming.resume _ _
      | resume prev awaiters =>
        simp only [advance, hpc, (inv_resume hi hpc).1, if_true, Option.some.injEq] at h
        subst h
        simpa [State.goto] using Pc.Resuming.loop awaiters
  · obtain hsame | ⟨hparked, -⟩ := pc_frame h hact
    · rwa [hsame]
    · rw [hparked] at hk
      cases hk

theorem resumed_run {bs : List (Act C)} {u : State C} (hi : Inv es s d)
    (hk : (s.pc k).Resuming) (hbs : ∀ act ∈ bs, ¬ act.Calls k) (h : run step s bs = some u) :
    ∃ es' d', Inv es' u d' ∧ (u.pc k).Resuming ∧
      d k = trace step (emitResumed k) s bs ++ d' k := by
  induction bs generalizing s es d with
  | nil =>
    rw [(run_nil s u).mp h]
    exact ⟨es, d, hi, hk, rfl⟩
  | cons act bs ih =>
    obtain ⟨t, ht, hr⟩ := (run_cons s u act bs).mp h
    obtain ⟨d₁, hi₁, -, hd⟩ := inv_step hi ht
    have hk₁ := resuming_step hi ht (hbs act List.mem_cons_self) hk
    obtain ⟨es', d', hi', hk', hd'⟩ :=
      ih hi₁ hk₁ (fun b hb => hbs b (List.mem_cons_of_mem act hb)) hr
    refine ⟨es', d', hi', hk', ?_⟩
    have hne : s.pc k ≠ .exchange := by
      intro hpc
      rw [hpc] at hk
      cases hk
    rw [trace_cons ht, hd k hne, hd', List.append_assoc]

/-- In `resumeWaiters` a notifier makes the steps that a condition variable makes. -/
theorem view_advance (spurious : Bool) (hi : Inv es s d) (hk : (s.pc k).Resuming) :
    (s.pc k).view.Resuming ∧ (step s (.advance k spurious)).map State.view =
      ConditionVariable.step s.view (.advance k spurious) := by
  generalize hpc : s.pc k = p at hk
  have hview : s.view.pc k = p.view := congrArg Pc.view hpc
  simp only [step, advance, hpc, ConditionVariable.step, ConditionVariable.advance, hview]
  cases hk with
  | idle => exact ⟨.idle, rfl⟩
  | loop awaiters =>
    refine ⟨.loop awaiters, ?_⟩
    cases awaiters <;> exact congrArg some (view_goto s k _)
  | resume b awaiters =>
    refine ⟨.resume b awaiters, ?_⟩
    have hb := (inv_resume hi hpc).1
    have hbv : s.view.pc b = .parked := (view_parked (s.pc b)).mpr hb
    simp only [Pc.view, if_pos hb, if_pos hbv, Option.map_some, view_goto]

theorem resuming_finishes (hi : Inv es s d) (hk : (s.pc k).Resuming) :
    ∃ j u, run step s (List.replicate j (.advance k false)) = some u ∧ u.pc k = .idle := by
  obtain ⟨n, v, hr, hv⟩ :=
    ConditionVariable.resuming_finishes hi.stack (view_advance false hi hk).1
  refine ⟨n, ?_⟩
  induction n generalizing es s d with
  | zero =>
    obtain rfl := (run_nil _ v).mp hr
    refine ⟨s, rfl, ?_⟩
    change (s.pc k).view = .idle at hv
    generalize s.pc k = p at hk hv
    cases hk with
    | idle => rfl
    | _ => cases hv
  | succ n ih =>
    obtain ⟨w, hw, hrest⟩ := (run_cons ..).mp hr
    rw [← (view_advance false hi hk).2] at hw
    obtain ⟨t, ht, rfl⟩ := Option.map_eq_some_iff.mp hw
    obtain ⟨d', hi', -⟩ := inv_step hi ht
    have htk := resuming_step hi ht (by simp [Act.Calls]) hk
    obtain ⟨u, hu, huk⟩ := ih hi' htk hrest
    exact ⟨u, (run_cons ..).mpr ⟨t, ht, hu⟩, huk⟩

/-- The coroutine is inside `wait`. -/
def Pc.Waiting : Pc C → Prop
  | .ready | .suspendLoad | .suspendNext _ | .suspendCas _ | .parked => True
  | _ => False

theorem completes_of_step {act : Act C} (hi : Inv es s d) (h : step s act = some t)
    (hw : (s.pc k).Waiting) (ht : t.pc k = .idle) : s.word = .self ∨ ∃ j, NotifiedSince es j k := by
  by_cases hact : act.actor = k
  · cases act with
    | wait j | notify j | reset j =>
      obtain rfl : j = k := hact
      obtain ⟨hidle, -⟩ := (when_eq_some _ _ _).mp h
      rw [hidle] at hw
      exact hw.elim
    | advance j sp =>
      obtain rfl : j = k := hact
      refine .inl ?_
      simp only [step] at h
      cases hpc : s.pc j with
      | ready =>
        simp only [advance, hpc] at h
        split_ifs at h with hself <;> cases h
        · exact hself
        · simp [State.goto] at ht
      | suspendLoad =>
        simp only [advance, hpc, Option.some.injEq, State.suspendWith] at h
        split_ifs at h with hself <;> subst h
        · exact hself
        · simp [State.goto] at ht
      | suspendNext w =>
        simp only [advance, hpc, Option.some.injEq] at h
        subst h
        simp [State.goto] at ht
      | suspendCas w =>
        simp only [advance, hpc, State.suspendWith] at h
        split_ifs at h with hc hself <;> cases h
        · simp [State.goto] at ht
        · exact hself
        · simp [State.goto] at ht
      | parked => simp [advance, hpc] at h
      | idle | exchange | resumeWaiters p | resume b p | resetCas | strayResume =>
        rw [hpc] at hw
        exact hw.elim
  · obtain hsame | ⟨-, -, j, p, hj⟩ := pc_frame h hact
    · rw [hsame] at ht
      rw [ht] at hw
      exact hw.elim
    · obtain ⟨-, l, hl, -⟩ := inv_resume hi hj
      exact .inr ⟨j, hi.notified j k (by simp [hl])⟩

structure Correct (es : List (Event C)) (s : State C) : Prop where
  registered : Linked s.next s.word.pointer (pending es) ∧ (pending es).Nodup ∧
    ∀ a ∈ pending es, s.pc a = .parked
  completes : ∀ act t a, step s act = some t → (s.pc a).Waiting → t.pc a = .idle →
    s.word = .self ∨ ∃ k, NotifiedSince es k a
  resumes : ∀ k sp t bs u, s.pc k = .exchange → step s (.advance k sp) = some t →
    run step t bs = some u → (∀ act ∈ bs, ¬ act.Calls k) →
    (∃ rest, pending es = trace step (emitResumed k) t bs ++ rest ∧ (u.pc k = .idle → rest = [])) ∧
      ∃ j v, run step u (List.replicate j (.advance k false)) = some v ∧ v.pc k = .idle
  unset : (s.word = .self → pending es = []) ∧
    ∀ act a, emit s act = some (.registered a) → s.word ≠ .self
  reset : ∀ k sp t, s.pc k = .resetCas → step s (.advance k sp) = some t →
    (t.word = if s.word = .self then .null else s.word) ∧ t.next = s.next ∧
      ∀ a, s.pc a = .parked → t.pc a = .parked
  sane : ∀ k, s.pc k ≠ .strayResume

theorem correct_of_inv (hi : Inv es s d) : Correct es s := by
  have hlinked : Linked s.next s.word.pointer (pending es) := hi.stack.linked
  refine ⟨⟨hlinked, linked_nodup hlinked, fun a ha => ?_⟩,
    fun act t a ht hw hidle => completes_of_step hi ht hw hidle,
    fun k sp t bs u hk ht hr hbs => ?_, ⟨fun hw => ?_, fun act a he => ?_⟩, fun k sp t hk ht => ?_,
    fun k hk => ?_⟩
  · exact (view_parked (s.pc a)).mp ((hi.stack.parked a).mpr (.inl ha))
  · obtain ⟨d₁, hi₁, htaken, -⟩ := inv_step hi ht
    have hk₁ : (t.pc k).Resuming := by
      simp only [step, advance, hk] at ht
      split_ifs at ht <;> obtain rfl := Option.some.inj ht
      · simpa [State.goto] using Pc.Resuming.idle
      · simpa [State.goto] using Pc.Resuming.loop _
    obtain ⟨es', d', hi', hk', hd⟩ := resumed_run hi₁ hk₁ hbs hr
    rw [htaken k sp rfl hk] at hd
    refine ⟨⟨d' k, hd, fun hidle => ?_⟩, resuming_finishes hi' hk'⟩
    have hdk : ConditionVariable.Detached u.next (u.pc k).view (d' k) := hi'.stack.detached k
    rwa [hidle] at hdk
  · rw [hw] at hlinked
    exact (linked_none _).mp hlinked
  · cases act with
    | wait k | notify k | reset k => cases he
    | advance k sp =>
      simp only [emit] at he
      cases hpc : s.pc k <;> simp only [hpc, reduceCtorEq, Option.some.injEq] at he
      split_ifs at he with hc
      exact hc.1 ▸ hi.unset k _ (.inr hpc)
  · simp only [step, advance, hk] at ht
    have hother : ∀ a, s.pc a = .parked → Function.update s.pc k .idle a = .parked := by
      intro a ha
      have hak : a ≠ k := by
        rintro rfl
        rw [hk] at ha
        cases ha
      rwa [Function.update_of_ne hak]
    split_ifs at ht with hw <;> obtain rfl := Option.some.inj ht
    · exact ⟨(if_pos hw).symm, rfl, hother⟩
    · exact ⟨(if_neg hw).symm, rfl, hother⟩
  · have hsound : (s.pc k).view.Sound := hi.stack.sound k
    rw [hk] at hsound
    exact hsound

/-- The protocol of the notifier: a wait ends only with the flag set or by a later notification,
which resumes exactly the waiters registered until then; nobody registers while the flag is set,
and `reset` clears the flag but drops no waiter. -/
theorem notifier_protocol (as : List (Act C)) (s : State C) (h : run step init as = some s) :
    Correct (trace step emit init as) s := by
  obtain ⟨d, hi⟩ := trace_invariant emit (fun es s => ∃ d, Inv es s d) (fun es s act t ⟨d, hi⟩ ht =>
    (inv_step hi ht).imp fun _ h => h.1) h ⟨_, inv_init⟩
  exact correct_of_inv hi

def waitTwice (a b : C) : List (Act C) :=
  [.wait a, .advance a false, .advance a false, .advance a false, .advance a true, .advance a false,
    .advance a false, .notify b, .advance b false, .advance b false, .advance b false, .wait a,
    .advance a false]

theorem notifier_protocol_twice : ∃ s : State (Fin 2), run step init (waitTwice 0 1) = some s ∧
    s.pc 0 = .idle ∧ trace step emit init (waitTwice 0 1) =
      [.registered 0, .notified 1, .resumed 1 0] ∧
    Correct (trace step emit init (waitTwice 0 1)) s :=
  ⟨_, rfl, rfl, by decide, notifier_protocol (waitTwice 0 1) _ rfl⟩

end LibCoro.Notifier
