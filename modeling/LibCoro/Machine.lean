import Mathlib.Data.List.Basic
import Mathlib.Logic.Function.Basic

namespace LibCoro.Machine

variable {S A E S' : Type}

def when (p : Prop) [Decidable p] (t : S) : Option S := if p then some t else none

@[simp] theorem when_eq_some (p : Prop) [Decidable p] (t u : S) :
    when p t = some u ↔ p ∧ t = u := by
  by_cases h : p <;> simp [when, h]

/-- Perform the actions one after another; `none` if one of them is not enabled. -/
def run (step : S → A → Option S) : S → List A → Option S
  | s, [] => some s
  | s, a :: as => (step s a).bind (fun t => run step t as)

variable {step : S → A → Option S}

theorem run_nil (s t : S) : run step s [] = some t ↔ t = s := by
  simp [run, eq_comm]

theorem run_cons (s u : S) (a : A) (as : List A) :
    run step s (a :: as) = some u ↔ ∃ t, step s a = some t ∧ run step t as = some u := by
  simp [run, Option.bind_eq_some_iff]

theorem run_append (s u : S) (as bs : List A) :
    run step s (as ++ bs) = some u ↔ ∃ t, run step s as = some t ∧ run step t bs = some u := by
  induction as generalizing s with
  | nil => simp [run]
  | cons a as ih =>
    simp only [List.cons_append, run_cons, ih]
    constructor
    · rintro ⟨t, ht, v, hv, hu⟩
      exact ⟨v, ⟨t, ht, hv⟩, hu⟩
    · rintro ⟨v, ⟨t, ht, hv⟩, hu⟩
      exact ⟨t, ht, v, hv, hu⟩

theorem run_invariant (I : S → Prop) (hstep : ∀ s a t, I s → step s a = some t → I t)
    {s t : S} {as : List A} (h : run step s as = some t) (hi : I s) : I t := by
  induction as generalizing s with
  | nil => rwa [(run_nil s t).mp h]
  | cons a as ih =>
    obtain ⟨u, hu, hr⟩ := (run_cons s t a as).mp h
    exact ih hr (hstep s a u hi hu)

/-- Every step the run takes meets `ok` in the state it is taken from. -/
def Meets (step : S → A → Option S) (ok : S → A → Prop) : S → List A → Prop
  | _, [] => True
  | s, a :: as => ok s a ∧ (step s a).elim True fun t => Meets step ok t as

theorem meets_cons (ok : S → A → Prop) (s : S) (a : A) (as : List A) :
    Meets step ok s (a :: as) ↔ ok s a ∧ ∀ t, step s a = some t → Meets step ok t as := by
  rw [Meets]
  cases step s a <;> simp

instance decidableMeets (ok : S → A → Prop) [∀ s a, Decidable (ok s a)] :
    ∀ (s : S) (as : List A), Decidable (Meets step ok s as)
  | _, [] => isTrue trivial
  | s, a :: as =>
    match h : step s a with
    | none => decidable_of_iff (ok s a) (by simp [meets_cons, h])
    | some t =>
      have := decidableMeets ok t as
      decidable_of_iff (ok s a ∧ Meets step ok t as) (by simp [meets_cons, h])

theorem meets_mono {ok ok' : S → A → Prop} (himp : ∀ s a, ok s a → ok' s a) {s : S} {as : List A}
    (h : Meets step ok s as) : Meets step ok' s as := by
  induction as generalizing s with
  | nil => trivial
  | cons a as ih =>
    obtain ⟨ha, has⟩ := (meets_cons ok s a as).mp h
    exact (meets_cons ok' s a as).mpr ⟨himp s a ha, fun t ht => ih (has t ht)⟩

theorem meets_of_forall {ok : S → A → Prop} (h : ∀ s a, ok s a) (s : S) (as : List A) :
    Meets step ok s as := by
  induction as generalizing s with
  | nil => trivial
  | cons a as ih => exact (meets_cons ok s a as).mpr ⟨h s a, fun t _ => ih t⟩

theorem meets_and (ok ok' : S → A → Prop) {s : S} {as : List A} :
    Meets step (fun s a => ok s a ∧ ok' s a) s as ↔ Meets step ok s as ∧ Meets step ok' s as := by
  induction as generalizing s with
  | nil => simp [Meets]
  | cons a as ih =>
    simp only [meets_cons, ih]
    exact ⟨fun ⟨h, hr⟩ => ⟨⟨h.1, fun t ht => (hr t ht).1⟩, h.2, fun t ht => (hr t ht).2⟩,
      fun ⟨⟨h, hr⟩, h', hr'⟩ => ⟨⟨h, h'⟩, fun t ht => ⟨hr t ht, hr' t ht⟩⟩⟩

theorem meets_append (ok : S → A → Prop) {s t : S} {as bs : List A}
    (h : Meets step ok s (as ++ bs)) (hr : run step s as = some t) :
    Meets step ok s as ∧ Meets step ok t bs := by
  induction as generalizing s with
  | nil =>
    rw [(run_nil s t).mp hr]
    exact ⟨trivial, h⟩
  | cons a as ih =>
    obtain ⟨u, hu, hr'⟩ := (run_cons s t a as).mp hr
    obtain ⟨ha, has⟩ := (meets_cons ok s a (as ++ bs)).mp h
    refine ⟨(meets_cons ok s a as).mpr ⟨ha, fun v hv => ?_⟩, (ih (has u hu) hr').2⟩
    obtain rfl : u = v := Option.some.inj (hu.symm.trans hv)
    exact (ih (has u hu) hr').1

theorem meets_append_intro (ok : S → A → Prop) {s t : S} {as bs : List A} (hr : run step s as = some t)
    (has : Meets step ok s as) (hbs : Meets step ok t bs) : Meets step ok s (as ++ bs) := by
  induction as generalizing s with
  | nil =>
    rw [(run_nil s t).mp hr] at hbs
    exact hbs
  | cons a as ih =>
    obtain ⟨u, hu, hr'⟩ := (run_cons s t a as).mp hr
    obtain ⟨ha, has'⟩ := (meets_cons ok s a as).mp has
    refine (meets_cons ok s a (as ++ bs)).mpr ⟨ha, fun v hv => ?_⟩
    obtain rfl : u = v := Option.some.inj (hu.symm.trans hv)
    exact ih hr' (has' u hu)

theorem meets_of_first (ok : S → A → Prop) {s : S} {as : List A}
    (h : ∀ as₁ a as₂ t, as = as₁ ++ a :: as₂ → run step s as₁ = some t → Meets step ok s as₁ →
      ok t a) : Meets step ok s as := by
  induction as generalizing s with
  | nil => trivial
  | cons a as ih =>
    have ha : ok s a := h [] a as s rfl rfl trivial
    refine (meets_cons ok s a as).mpr ⟨ha, fun u hu => ih fun as₁ b as₂ t e hr hm => ?_⟩
    apply h (a :: as₁) b as₂ t (congrArg (a :: ·) e) ((run_cons s t a as₁).mpr ⟨u, hu, hr⟩)
    refine (meets_cons ok s a as₁).mpr ⟨ha, fun v hv => ?_⟩
    obtain rfl : u = v := Option.some.inj (hu.symm.trans hv)
    exact hm

theorem run_invariant_of_meets (ok : S → A → Prop) (I : S → Prop)
    (hstep : ∀ s a t, I s → ok s a → step s a = some t → I t)
    {s t : S} {as : List A} (h : run step s as = some t) (hm : Meets step ok s as)
    (hi : I s) : I t := by
  induction as generalizing s with
  | nil => rwa [(run_nil s t).mp h]
  | cons a as ih =>
    obtain ⟨u, hu, hr⟩ := (run_cons s t a as).mp h
    obtain ⟨ha, has⟩ := (meets_cons ok s a as).mp hm
    exact ih hr (has u hu) (hstep s a u hi ha hu)

/-- What a run shows to an observer that sees `emit` of each step. -/
def trace (step : S → A → Option S) (emit : S → A → Option E) : S → List A → List E
  | _, [] => []
  | s, a :: as => (emit s a).toList ++ ((step s a).map (fun t => trace step emit t as)).getD []

variable {emit : S → A → Option E}

theorem trace_cons {s t : S} {a : A} (h : step s a = some t) (as : List A) :
    trace step emit s (a :: as) = (emit s a).toList ++ trace step emit t as := by
  simp [trace, h]

theorem trace_append {s t : S} {as : List A} (h : run step s as = some t) (bs : List A) :
    trace step emit s (as ++ bs) = trace step emit s as ++ trace step emit t bs := by
  induction as generalizing s with
  | nil =>
    rw [(run_nil s t).mp h]
    rfl
  | cons a as ih =>
    obtain ⟨u, hu, hr⟩ := (run_cons s t a as).mp h
    rw [List.cons_append, trace_cons hu, trace_cons hu, ih hr, List.append_assoc]

theorem trace_self {s t : S} {as : List A} (h : run step s as = some t) :
    trace step (fun _ a => some a) s as = as := by
  induction as generalizing s with
  | nil => rfl
  | cons a as ih =>
    obtain ⟨u, hu, hr⟩ := (run_cons s t a as).mp h
    rw [trace_cons hu, ih hr]
    rfl

theorem meets_of_trace (P : E → Prop) {s t : S} {as : List A} (h : run step s as = some t)
    (hP : ∀ e ∈ trace step emit s as, P e) :
    Meets step (fun s a => ∀ e, emit s a = some e → P e) s as := by
  induction as generalizing s with
  | nil => trivial
  | cons a as ih =>
    obtain ⟨u, hu, hr⟩ := (run_cons s t a as).mp h
    rw [trace_cons hu] at hP
    refine (meets_cons _ s a as).mpr ⟨fun e he => hP e (by simp [he]), fun v hv => ?_⟩
    obtain rfl : u = v := Option.some.inj (hu.symm.trans hv)
    exact ih hr fun e he => hP e (List.mem_append_right _ he)

/-- An invariant that relates the state to everything observed so far. -/
theorem trace_invariant (emit : S → A → Option E) (R : List E → S → Prop)
    (hstep : ∀ es s a t, R es s → step s a = some t → R (es ++ (emit s a).toList) t)
    {s t : S} {as : List A} (h : run step s as = some t) {es : List E} (hr : R es s) :
    R (es ++ trace step emit s as) t := by
  induction as generalizing s es with
  | nil =>
    rw [(run_nil s t).mp h]
    simpa [trace] using hr
  | cons a as ih =>
    obtain ⟨u, hu, hrun⟩ := (run_cons s t a as).mp h
    rw [trace_cons hu, ← List.append_assoc]
    exact ih hrun (hstep es s a u hr hu)

theorem trace_invariant_of_meets (emit : S → A → Option E) (ok : S → A → Prop)
    (R : List E → S → Prop)
    (hstep : ∀ es s a t, R es s → ok s a → step s a = some t → R (es ++ (emit s a).toList) t)
    {s t : S} {as : List A} (h : run step s as = some t) (hm : Meets step ok s as)
    {es : List E} (hr : R es s) : R (es ++ trace step emit s as) t := by
  induction as generalizing s es with
  | nil =>
    rw [(run_nil s t).mp h]
    simpa [trace] using hr
  | cons a as ih =>
    obtain ⟨u, hu, hrun⟩ := (run_cons s t a as).mp h
    rw [trace_cons hu, ← List.append_assoc]
    obtain ⟨ha, has⟩ := (meets_cons ok s a as).mp hm
    exact ih hrun (has u hu) (hstep es s a u hr ha hu)

/-- In every state of the run `P` holds of it and of what was observed before. -/
def Throughout (step : S → A → Option S) (emit : S → A → Option E) (P : List E → S → Prop) (s : S)
    (as : List A) : Prop :=
  ∀ as₁ as₂ t, as = as₁ ++ as₂ → run step s as₁ = some t → P (trace step emit s as₁) t

theorem throughout_of_meets (ok : S → A → Prop) (P : List E → S → Prop) {s : S} {as : List A}
    (h : ∀ as t, run step s as = some t → Meets step ok s as → P (trace step emit s as) t)
    (hm : Meets step ok s as) : Throughout step emit P s as := by
  intro as₁ as₂ t e hr
  subst e
  exact h as₁ t hr (meets_append ok hm hr).1

theorem throughout_append (P : List E → S → Prop) {s t : S} {as bs : List A}
    (h : Throughout step emit P s (as ++ bs)) (hr : run step s as = some t) :
    Throughout step emit (fun es => P (trace step emit s as ++ es)) t bs := by
  intro bs₁ bs₂ u e hu
  subst e
  rw [← trace_append hr]
  exact h (as ++ bs₁) bs₂ u (by simp) ((run_append s u as bs₁).mpr ⟨t, hr, hu⟩)

theorem throughout_cons (P : List E → S → Prop) {s u : S} {a : A} {as : List A}
    (h : Throughout step emit P s (a :: as)) (hu : step s a = some u) :
    P (emit s a).toList u ∧ Throughout step emit (fun es => P ((emit s a).toList ++ es)) u as := by
  have hrun : run step s [a] = some u := (run_cons s u a []).mpr ⟨u, hu, rfl⟩
  have htrace : trace step emit s [a] = (emit s a).toList := by
    rw [trace_cons hu, trace, List.append_nil]
  rw [← htrace]
  exact ⟨h [a] as u rfl hrun, throughout_append P h hrun⟩

/-- Where the first step that does not meet `ok` breaks `P`, a run that keeps `P` has none. -/
theorem meets_of_throughout (D ok : S → A → Prop) (P : List E → S → Prop) {s t : S} {as : List A}
    (h : run step s as = some t) (hD : Meets step D s as)
    (hfirst : ∀ as₁ a u v, run step s as₁ = some u → Meets step (fun s a => D s a ∧ ok s a) s as₁ →
      D u a → step u a = some v → P (trace step emit s as₁ ++ (emit u a).toList) v → ok u a)
    (hP : Throughout step emit P s as) : Meets step ok s as := by
  apply meets_of_first
  intro as₁ a as₂ u e hr hm
  subst e
  obtain ⟨hD₁, hD₂⟩ := meets_append D hD hr
  obtain ⟨w, hw, hrest⟩ := (run_append s t as₁ (a :: as₂)).mp h
  obtain rfl : u = w := Option.some.inj (hr.symm.trans hw)
  obtain ⟨v, hv, -⟩ := (run_cons u t a as₂).mp hrest
  have hPv := (throughout_cons _ (throughout_append P hP hr) hv).1
  exact hfirst as₁ a u v hr ((meets_and D ok).mpr ⟨hD₁, hm⟩) ((meets_cons D u a as₂).mp hD₂).1 hv hPv

/-- Forward simulation: the abstract machine performs exactly the observed actions. -/
theorem run_simulation {step' : S' → E → Option S'} (R : S → S' → Prop)
    (hsim : ∀ s s' a t, R s s' → step s a = some t →
      ∃ t', run step' s' (emit s a).toList = some t' ∧ R t t')
    {s t : S} {as : List A} (h : run step s as = some t) {s' : S'} (hr : R s s') :
    ∃ t', run step' s' (trace step emit s as) = some t' ∧ R t t' := by
  induction as generalizing s s' with
  | nil =>
    rw [(run_nil s t).mp h]
    exact ⟨s', rfl, hr⟩
  | cons a as ih =>
    obtain ⟨u, hu, hrun⟩ := (run_cons s t a as).mp h
    obtain ⟨u', hu', hr'⟩ := hsim s s' a u hr hu
    obtain ⟨t', ht', hrt⟩ := ih hrun hr'
    rw [trace_cons hu]
    exact ⟨t', (run_append s' t' _ _).mpr ⟨u', hu', ht'⟩, hrt⟩

theorem run_simulation_of_meets (ok : S → A → Prop) {step' : S' → E → Option S'} (R : S → S' → Prop)
    (hsim : ∀ s s' a t, R s s' → ok s a → step s a = some t →
      ∃ t', run step' s' (emit s a).toList = some t' ∧ R t t')
    {s t : S} {as : List A} (h : run step s as = some t) (hm : Meets step ok s as) {s' : S'}
    (hr : R s s') : ∃ t', run step' s' (trace step emit s as) = some t' ∧ R t t' := by
  induction as generalizing s s' with
  | nil =>
    rw [(run_nil s t).mp h]
    exact ⟨s', rfl, hr⟩
  | cons a as ih =>
    obtain ⟨u, hu, hrun⟩ := (run_cons s t a as).mp h
    obtain ⟨ha, has⟩ := (meets_cons ok s a as).mp hm
    obtain ⟨u', hu', hr'⟩ := hsim s s' a u hr ha hu
    obtain ⟨t', ht', hrt⟩ := ih hrun (has u hu) hr'
    rw [trace_cons hu]
    exact ⟨t', (run_append s' t' _ _).mpr ⟨u', hu', ht'⟩, hrt⟩

/-- A machine that answers each step by a run of its own shows the same over whole runs. -/
theorem run_mirror {B : Type} {step' : S' → B → Option S'} (emit' : S' → B → Option E)
    (ok : S → A → Prop) (ok' : S' → B → Prop) (R : S → S' → Prop)
    (hsim : ∀ s s' a t, R s s' → ok s a → step s a = some t →
      ∃ bs t', run step' s' bs = some t' ∧ Meets step' ok' s' bs ∧
        trace step' emit' s' bs = (emit s a).toList ∧ R t t')
    {s t : S} {as : List A} (h : run step s as = some t) (hm : Meets step ok s as) {s' : S'}
    (hr : R s s') :
    ∃ bs t', run step' s' bs = some t' ∧ Meets step' ok' s' bs ∧
      trace step' emit' s' bs = trace step emit s as ∧ R t t' := by
  induction as generalizing s s' with
  | nil =>
    rw [(run_nil s t).mp h]
    exact ⟨[], s', rfl, trivial, rfl, hr⟩
  | cons a as ih =>
    obtain ⟨u, hu, hrun⟩ := (run_cons s t a as).mp h
    obtain ⟨ha, has⟩ := (meets_cons ok s a as).mp hm
    obtain ⟨bs, u', hu', hok, htr, hr'⟩ := hsim s s' a u hr ha hu
    obtain ⟨bs', t', ht', hok', htr', hrt⟩ := ih hrun (has u hu) hr'
    refine ⟨bs ++ bs', t', (run_append s' t' bs bs').mpr ⟨u', hu', ht'⟩,
      meets_append_intro ok' hu' hok hok', ?_, hrt⟩
    rw [trace_append hu', trace_cons hu, htr, htr']

/-- No run from `s` goes on for ever. -/
def Halts (step : S → A → Option S) (s : S) : Prop := Acc (fun t s => ∃ a, step s a = some t) s

theorem halts_of_step {s : S} (h : ∀ a t, step s a = some t → Halts step t) : Halts step s :=
  Acc.intro s fun t ⟨a, ht⟩ => h a t ht

/-- A machine halts where it is simulated step by step by one that does. -/
theorem Halts.of_simulation {step' : S' → E → Option S'} (R : S → S' → Prop)
    (hsim : ∀ s s' a t, R s s' → step s a = some t → ∃ e t', step' s' e = some t' ∧ R t t')
    {s : S} {s' : S'} (h : Halts step' s') (hr : R s s') : Halts step s := by
  induction h generalizing s with
  | intro s' _ ih =>
    refine halts_of_step fun a t ht => ?_
    obtain ⟨e, t', ht', hr'⟩ := hsim s s' a t hr ht
    exact ih t' ⟨e, ht'⟩ hr'

def guarded (step : S → A → Option S) (ok : S → A → Prop) [∀ s a, Decidable (ok s a)] (s : S)
    (a : A) : Option S :=
  if ok s a then step s a else none

@[simp] theorem guarded_eq_some (ok : S → A → Prop) [∀ s a, Decidable (ok s a)] (s t : S) (a : A) :
    guarded step ok s a = some t ↔ ok s a ∧ step s a = some t := by
  by_cases h : ok s a <;> simp [guarded, h]

def countdown (step : S → A → Option S) : S × Nat → Option A → Option (S × Nat)
  | (s, k), some a => (step s a).map fun t => (t, k)
  | (s, k + 1), none => some (s, k)
  | (_, 0), none => none

theorem Halts.countdown {s : S} (h : Halts step s) (k : Nat) :
    Halts (Machine.countdown step) (s, k) := by
  induction h generalizing k with
  | intro s _ ih =>
    induction k with
    | zero =>
      refine halts_of_step fun a t ht => ?_
      cases a with
      | none => cases ht
      | some a =>
        obtain ⟨u, hu, rfl⟩ := Option.map_eq_some_iff.mp ht
        exact ih u ⟨a, hu⟩ 0
    | succ k ihk =>
      refine halts_of_step fun a t ht => ?_
      cases a with
      | none =>
        obtain rfl := Option.some.inj ht
        exact ihk
      | some a =>
        obtain ⟨u, hu, rfl⟩ := Option.map_eq_some_iff.mp ht
        exact ih u ⟨a, hu⟩ (k + 1)

theorem Halts.stops {s : S} (h : Halts step s) :
    ∃ as t, run step s as = some t ∧ ∀ a, step t a = none := by
  induction h with
  | intro s _ ih =>
    by_cases hs : ∀ a, step s a = none
    · exact ⟨[], s, rfl, hs⟩
    · push Not at hs
      obtain ⟨a, ha⟩ := hs
      obtain ⟨u, hu⟩ := Option.ne_none_iff_exists'.mp ha
      obtain ⟨as, t, ht, hend⟩ := ih u ⟨a, hu⟩
      exact ⟨a :: as, t, (run_cons s t a as).mpr ⟨u, hu, ht⟩, hend⟩

end LibCoro.Machine
