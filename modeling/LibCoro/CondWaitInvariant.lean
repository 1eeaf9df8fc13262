import LibCoro.CondWait
import LibCoro.NotifyAll

namespace LibCoro.CondWait

open Machine
open ConditionVariable (Signal Stacked signal pending resumedBy)

variable {C P σ : Type} {L : Lock (C × Bool)} {eval : P → σ → Bool}

def At (eval : P → σ → Bool) (s : State L P σ) (k : C) : Pc P → Prop
  | .idle => (s.status k = .idle ∨ s.status k = .holding) ∧ s.cv.pc k = .idle
  | .acquire | .waitLock _ =>
    (s.status k = .acquiring ∨ s.status k = .holding) ∧ s.cv.pc k = .idle
  | .waitTest _ => s.status k = .holding ∧ s.cv.pc k = .idle
  | .waitSuspend pred =>
    s.status k = .holding ∧ eval pred s.mem = false ∧ (s.cv.pc k).Pushing
  | .waiting _ => s.status k = .idle ∧ (s.cv.pc k = .parked ∨ s.cv.pc k = .idle)
  | .notifying =>
    (s.status k = .idle ∨ s.status k = .holding) ∧ ((s.cv.pc k).Notifying ∨ s.cv.pc k = .idle)
  | .returning => (s.status k = .releasing ∨ s.status k = .idle) ∧ s.cv.pc k = .idle
  | .overlap => False

/-- The place at the lock that a coroutine does not use now: the hold that its `await_suspend`
still has to release, or one that is released. -/
def Other (s : State L P σ) (k : C) : Prop :=
  if s.leaving k then L.status s.lock (k, !s.hold k) = .holding
  else L.status s.lock (k, !s.hold k) = .releasing ∨ L.status s.lock (k, !s.hold k) = .idle

/-- The waiters taken by `k` are the ones it is going to resume: `d k`. -/
structure Inv (eval : P → σ → Bool) (es : List (Signal C)) (s : State L P σ) (d : C → List C) :
    Prop where
  lock : L.Inv s.lock
  stack : Stacked es s.cv d
  place : ∀ k, At eval s k (s.pc k)
  other : ∀ k, Other s k

theorem inv_init (mem : σ) : Inv eval [] (init mem : State L P σ) (fun _ => []) where
  lock := L.inv_init
  stack := ConditionVariable.stacked_init
  place _ := ⟨.inl (L.status_init _), rfl⟩
  other _ := .inr (L.status_init _)

def Drifts (a b : Status) : Prop :=
  b = a ∨ (a = .acquiring ∧ b = .holding) ∨ (a = .releasing ∧ b = .idle)

theorem Drifts.of_idle {b : Status} (h : Drifts .idle b) : b = .idle := by simpa [Drifts] using h

theorem Drifts.of_holding {b : Status} (h : Drifts .holding b) : b = .holding := by
  simpa [Drifts] using h

theorem Drifts.of_acquiring {b : Status} (h : Drifts .acquiring b) : b = .acquiring ∨ b = .holding := by
  simpa [Drifts] using h

theorem Drifts.of_releasing {b : Status} (h : Drifts .releasing b) : b = .releasing ∨ b = .idle := by
  simpa [Drifts] using h

variable {es : List (Signal C)} {s t : State L P σ} {d : C → List C} {k : C}

theorem at_frame {j : C} {p : Pc P} (h : At eval s j p) (hs : Drifts (s.status j) (t.status j))
    (hcv : t.cv.pc j = s.cv.pc j ∨ s.cv.pc j = .parked ∧ t.cv.pc j = .idle) (hm : t.mem = s.mem) :
    At eval t j p := by
  have hcv' : s.cv.pc j ≠ .parked → t.cv.pc j = s.cv.pc j := fun hne =>
    hcv.resolve_right fun hp => hne hp.1
  have hfree : s.status j = .idle ∨ s.status j = .holding →
      t.status j = .idle ∨ t.status j = .holding := by
    rintro (hst | hst) <;> rw [hst] at hs
    · exact .inl hs.of_idle
    · exact .inr hs.of_holding
  cases p with
  | overlap => exact h
  | idle => exact ⟨hfree h.1, (hcv' (by simp [h.2])).trans h.2⟩
  | acquire | waitLock pred =>
    obtain ⟨hst, hpc⟩ := h
    refine ⟨?_, (hcv' (by simp [hpc])).trans hpc⟩
    obtain hst | hst := hst <;> rw [hst] at hs
    · exact hs.of_acquiring
    · exact .inr hs.of_holding
  | waitTest pred =>
    obtain ⟨hst, hpc⟩ := h
    rw [hst] at hs
    exact ⟨hs.of_holding, (hcv' (by simp [hpc])).trans hpc⟩
  | waitSuspend pred =>
    obtain ⟨hst, heval, hpc⟩ := h
    have hne : s.cv.pc j ≠ .parked := by
      intro hp
      rw [hp] at hpc
      exact hpc
    rw [hst] at hs
    exact ⟨hs.of_holding, by rw [hm]; exact heval, by rw [hcv' hne]; exact hpc⟩
  | waiting pred =>
    obtain ⟨hst, hpc⟩ := h
    rw [hst] at hs
    refine ⟨hs.of_idle, ?_⟩
    obtain hcv | hcv := hcv
    · rwa [hcv]
    · exact .inr hcv.2
  | notifying =>
    obtain ⟨hst, hpc⟩ := h
    have hne : s.cv.pc j ≠ .parked := by
      intro hp
      rw [hp] at hpc
      obtain hpc | hpc := hpc
      · exact hpc
      · cases hpc
    exact ⟨hfree hst, by rw [hcv' hne]; exact hpc⟩
  | returning =>
    obtain ⟨hst, hpc⟩ := h
    refine ⟨?_, (hcv' (by simp [hpc])).trans hpc⟩
    obtain hst | hst := hst <;> rw [hst] at hs
    · exact hs.of_releasing
    · exact .inr hs.of_idle

theorem other_frame {j : C} (h : Other s j) (hl : t.leaving j = s.leaving j)
    (hh : t.hold j = s.hold j)
    (hs : Drifts (L.status s.lock (j, !s.hold j)) (L.status t.lock (j, !s.hold j))) : Other t j := by
  unfold Other at h ⊢
  rw [hl, hh]
  split_ifs at h ⊢
  · rw [h] at hs
    exact hs.of_holding
  · obtain h | h := h <;> rw [h] at hs
    · exact hs.of_releasing
    · exact .inr hs.of_idle

theorem drifts_of_move (hi : L.Inv s.lock) {m : L.Move} {u : L.State} (h : L.move s.lock m = some u)
    (i : C × Bool) : Drifts (L.status s.lock i) (L.status u i) := L.move_status s.lock m u hi h i

theorem place_unique (hi : Inv eval es s d) {i j : C × Bool} (h : L.status s.lock i = .holding)
    (hj : (L.status s.lock j).Owns) : j = i :=
  L.exclusive s.lock j i hi.lock hj (.inl h)

theorem inv_move (hi : Inv eval es s d) {m : L.Move} {u : L.State}
    (h : L.move s.lock m = some u) : Inv eval es { s with lock := u } d where
  lock := L.inv_move _ _ _ hi.lock h
  stack := hi.stack
  place j := at_frame (hi.place j) (drifts_of_move hi.lock h _) (.inl rfl) rfl
  other j := other_frame (hi.other j) rfl rfl (drifts_of_move hi.lock h _)

variable [DecidableEq C]

@[simp] theorem pc_goto_self (s : State L P σ) (k : C) (p : Pc P) : (s.goto k p).pc k = p :=
  Function.update_self _ _ _

theorem pc_goto_ne (s : State L P σ) {j k : C} (p : Pc P) (hj : j ≠ k) :
    (s.goto k p).pc j = s.pc j :=
  Function.update_of_ne hj _ _

theorem Inv.goto (hi : Inv eval es s d) {p : Pc P} (hp : At eval s k p) :
    Inv eval es (s.goto k p) d where
  lock := hi.lock
  stack := hi.stack
  place j := by
    by_cases hj : j = k
    · subst hj
      rw [pc_goto_self]
      exact at_frame hp (.inl rfl) (.inl rfl) rfl
    · rw [pc_goto_ne _ _ hj]
      exact at_frame (hi.place j) (.inl rfl) (.inl rfl) rfl
  other := hi.other

theorem inv_lockStep (hi : Inv eval es s d) {f : L.State → C × Bool → Option L.State} {p : Pc P}
    (hf : ∀ u, f s.lock (k, s.hold k) = some u → L.Inv u ∧
      ∀ i, i ≠ (k, s.hold k) → L.status u i = L.status s.lock i)
    (hp : ∀ u, f s.lock (k, s.hold k) = some u → At eval { s with lock := u } k p)
    (h : lockStep s k f p = some t) : Inv eval es t d := by
  obtain ⟨u, hu, rfl⟩ := Option.map_eq_some_iff.mp h
  obtain ⟨hl, hsame⟩ := hf u hu
  have hi' : ∀ j, j ≠ k → At eval { s with lock := u } j (s.pc j) := by
    intro j hj
    refine at_frame (hi.place j) (.inl (hsame _ ?_)) (.inl rfl) rfl
    exact fun e => hj (congrArg Prod.fst e)
  refine ⟨hl, hi.stack, fun j => ?_, fun j => other_frame (hi.other j) rfl rfl (.inl (hsame _ ?_))⟩
  · by_cases hj : j = k
    · subst hj
      rw [pc_goto_self]
      exact hp u hu
    · rw [pc_goto_ne _ _ hj]
      exact hi' j hj
  · intro e
    obtain ⟨rfl, he⟩ := Prod.mk.inj e
    simp at he

theorem inv_cvStep (hi : Inv eval es s d) {a : ConditionVariable.Act C}
    {v : ConditionVariable.State C} {d' : C → List C} {p : Pc P} {ow : C → Bool} (hact : a.actor = k)
    (hv : ConditionVariable.step s.cv a = some v)
    (hs : Stacked (es ++ (signal s.cv a).toList) v d')
    (hp : At eval { s with cv := v } k p) :
    Inv eval (es ++ (signal s.cv a).toList) ({ s with cv := v, owes := ow }.goto k p) d' := by
  refine ⟨hi.lock, hs, fun j => ?_, hi.other⟩
  by_cases hj : j = k
  · subst hj
    rw [pc_goto_self]
    exact hp
  · rw [pc_goto_ne _ _ hj]
    refine at_frame (hi.place j) (.inl rfl) ?_ rfl
    exact (ConditionVariable.pc_of_step hv (hact ▸ hj)).imp_right fun h => ⟨h.1, h.2.1⟩

/-- A coroutine that parks changes to its other place, which is free. -/
theorem inv_park (hi : Inv eval es s d) {pred : P} {b : ConditionVariable.Act C}
    {v : ConditionVariable.State C} {d' : C → List C} (hact : b.actor = k)
    (hv : ConditionVariable.step s.cv b = some v)
    (hs : Stacked (es ++ (signal s.cv b).toList) v d') (hk : s.status k = .holding)
    (hpark : v.pc k = .parked) :
    Inv eval (es ++ (signal s.cv b).toList) (({ s with cv := v } : State L P σ).park k pred) d' := by
  have hself : (k, !s.hold k) ≠ (k, s.hold k) := by simp
  have hfree : L.status s.lock (k, !s.hold k) = .idle := by
    have hother := hi.other k
    unfold Other at hother
    split_ifs at hother
    · exact absurd (place_unique hi hk (.inl hother)) hself
    · exact hother.resolve_left fun h => hself (place_unique hi hk (.inr h))
  have hhold : ∀ j, j ≠ k → Function.update s.hold k (!s.hold k) j = s.hold j :=
    fun j hj => Function.update_of_ne hj _ _
  refine ⟨hi.lock, hs, fun j => ?_, fun j => ?_⟩
  · by_cases hj : j = k
    · subst hj
      rw [State.park, pc_goto_self]
      refine ⟨?_, .inl hpark⟩
      simpa [State.status, State.goto] using hfree
    · rw [State.park, pc_goto_ne _ _ hj]
      refine at_frame (hi.place j) (.inl ?_) ?_ rfl
      · simp [State.status, State.goto, hhold j hj]
      · exact (ConditionVariable.pc_of_step hv (hact ▸ hj)).imp_right fun h => ⟨h.1, h.2.1⟩
  · by_cases hj : j = k
    · subst hj
      simpa [Other, State.park, State.goto, State.status] using hk
    · refine other_frame (hi.other j) ?_ (hhold j hj) (.inl rfl)
      simp [State.park, State.goto, hj]

omit [DecidableEq C] in
theorem inv_write (hi : Inv eval es s d) {mem : σ} {ow : C → Bool} (hidle : s.pc k = .idle)
    (hk : s.status k = .holding) : Inv eval es { s with mem := mem, owes := ow } d := by
  refine ⟨hi.lock, hi.stack, fun j => ?_, hi.other⟩
  have hj := hi.place j
  change At eval { s with mem := mem, owes := ow } j (s.pc j)
  cases hpc : s.pc j with
  | waitSuspend pred =>
    rw [hpc] at hj
    have hjk : j = k := congrArg Prod.fst (place_unique hi hk (.inl hj.1))
    rw [hjk, hidle] at hpc
    cases hpc
  | _ =>
    rw [hpc] at hj
    exact hj

theorem inv_release (hi : Inv eval es s d) {u : L.State}
    (h : L.unlock s.lock (k, !s.hold k) = some u) :
    Inv eval es { s with lock := u, leaving := Function.update s.leaving k false } d := by
  obtain ⟨-, hst, hsame⟩ := L.unlock_status _ _ _ h
  refine ⟨L.inv_unlock _ _ _ hi.lock h, hi.stack, fun j => ?_, fun j => ?_⟩
  · refine at_frame (hi.place j) (.inl (hsame _ fun e => ?_)) (.inl rfl) rfl
    obtain ⟨rfl, he⟩ := Prod.mk.inj e
    simp at he
  · by_cases hj : j = k
    · subst hj
      simpa [Other] using hst
    · refine other_frame (hi.other j) (Function.update_of_ne hj _ _) rfl (.inl (hsame _ fun e => ?_))
      exact hj (congrArg Prod.fst e)

variable [DecidableEq P] {a : Act L P σ}

/-- What a step leaves alone. -/
structure Frame (s : State L P σ) (a : Act L P σ) (t : State L P σ) : Prop where
  pc : ∀ k, a.actor ≠ some k → t.pc k = s.pc k
  mem : (∀ k mem n, a ≠ .write k mem n) → t.mem = s.mem
  owes : (∀ k mem n, a ≠ .write k mem n) → ∀ k, t.owes k = s.owes k ∨ a = .notifyAll k

omit [DecidableEq P] in
theorem frame_goto {u : State L P σ} {p : Pc P} (ha : a.actor = some k) (hpc : u.pc = s.pc)
    (hm : u.mem = s.mem) (ho : u.owes = s.owes) : Frame s a (u.goto k p) := by
  refine ⟨fun j hj => ?_, fun _ => hm, fun _ j => .inl (congrFun ho j)⟩
  rw [ha] at hj
  exact (pc_goto_ne u p fun e => hj (congrArg some e.symm)).trans (congrFun hpc j)

omit [DecidableEq P] in
theorem frame_lockStep {f : L.State → C × Bool → Option L.State} {p : Pc P} (ha : a.actor = some k)
    (h : lockStep s k f p = some t) : Frame s a t := by
  obtain ⟨u, -, rfl⟩ := Option.map_eq_some_iff.mp h
  exact frame_goto ha rfl rfl rfl

theorem frame_step (h : step eval s a = some t) : Frame s a t := by
  cases a with
  | tryLock j | coLock j | unlock j =>
    simp only [step] at h
    split_ifs at h
    exact frame_lockStep rfl h
  | write j mem notifies =>
    obtain ⟨-, rfl⟩ := (when_eq_some _ _ _).mp h
    exact ⟨fun _ _ => rfl, fun hw => absurd rfl (hw j mem notifies),
      fun hw => absurd rfl (hw j mem notifies)⟩
  | wait j pred =>
    obtain ⟨-, rfl⟩ := (when_eq_some _ _ _).mp h
    exact frame_goto rfl rfl rfl rfl
  | notifyAll j =>
    simp only [step] at h
    split_ifs at h
    obtain ⟨v, -, rfl⟩ := Option.map_eq_some_iff.mp h
    refine ⟨fun k hk => pc_goto_ne _ _ fun e => hk (congrArg some e.symm), fun _ => rfl, fun _ k => ?_⟩
    by_cases hk : k = j
    · exact .inr (hk ▸ rfl)
    · exact .inl (Function.update_of_ne hk _ _)
  | move m =>
    obtain ⟨u, -, rfl⟩ := Option.map_eq_some_iff.mp h
    exact ⟨fun _ _ => rfl, fun _ => rfl, fun _ _ => .inl rfl⟩
  | release j =>
    simp only [step] at h
    split_ifs at h
    obtain ⟨u, -, rfl⟩ := Option.map_eq_some_iff.mp h
    exact ⟨fun _ _ => rfl, fun _ => rfl, fun _ _ => .inl rfl⟩
  | advance j spurious =>
    simp only [step] at h
    cases hpc : s.pc j with
    | idle | overlap => simp [advance, hpc] at h
    | acquire | waitLock pred | returning =>
      simp only [advance, hpc] at h
      obtain ⟨-, rfl⟩ := (when_eq_some _ _ _).mp h
      exact frame_goto rfl rfl rfl rfl
    | waitTest pred | notifying =>
      simp only [advance, hpc] at h
      split_ifs at h
      · cases h
        exact frame_goto rfl rfl rfl rfl
      · obtain ⟨v, -, rfl⟩ := Option.map_eq_some_iff.mp h
        exact frame_goto rfl rfl rfl rfl
    | waiting pred =>
      simp only [advance, hpc] at h
      split_ifs at h
      · exact frame_lockStep rfl h
      · cases h
        exact frame_goto rfl rfl rfl rfl
    | waitSuspend pred =>
      simp only [advance, hpc] at h
      obtain ⟨v, -, rfl⟩ := Option.map_eq_some_iff.mp h
      split_ifs <;> exact frame_goto rfl rfl rfl rfl

theorem advance_of_step (h : step eval s a = some t) (hact : a.actor = some k)
    (hpc : s.pc k ≠ .idle) : ∃ spurious, a = .advance k spurious := by
  cases a with
  | write j mem notifies | release j | move m => cases hact
  | tryLock j | coLock j | unlock j | notifyAll j =>
    cases hact
    simp only [step, if_neg hpc] at h
    cases h
  | wait j pred =>
    cases hact
    exact absurd ((when_eq_some _ _ _).mp h).1.1 hpc
  | advance j spurious =>
    cases hact
    exact ⟨spurious, rfl⟩

theorem inv_apart (hi : Inv eval es s d) (hcv : cvAct eval s a = none)
    (h : step eval s a = some t) : Inv eval es t d ∧ t.cv = s.cv := by
  have hlock : ∀ {k : C} {f : L.State → C × Bool → Option L.State} {p : Pc P},
      lockStep s k f p = some t → t.cv = s.cv := by
    intro k f p h
    obtain ⟨u, -, rfl⟩ := Option.map_eq_some_iff.mp h
    rfl
  cases a with
  | notifyAll k => cases hcv
  | tryLock k =>
    simp only [step] at h
    split_ifs at h with hidle
    have hk := hi.place k
    rw [hidle] at hk
    refine ⟨inv_lockStep hi (fun u hu => ?_) (fun u hu => ?_) h, hlock h⟩
    · exact ⟨L.inv_tryLock _ _ _ hi.lock hu, (L.tryLock_status _ _ _ hu).2.2⟩
    · exact ⟨(L.tryLock_status _ _ _ hu).2.1, hk.2⟩
  | coLock k =>
    simp only [step] at h
    split_ifs at h with hidle
    have hk := hi.place k
    rw [hidle] at hk
    refine ⟨inv_lockStep hi (fun u hu => ?_) (fun u hu => ?_) h, hlock h⟩
    · exact ⟨L.inv_coLock _ _ _ hi.lock hu, (L.coLock_status _ _ _ hu).2.2⟩
    · exact ⟨(L.coLock_status _ _ _ hu).2.1, hk.2⟩
  | unlock k =>
    simp only [step] at h
    split_ifs at h with hidle
    have hk := hi.place k
    rw [hidle] at hk
    refine ⟨inv_lockStep hi (fun u hu => ?_) (fun u hu => ?_) h, hlock h⟩
    · exact ⟨L.inv_unlock _ _ _ hi.lock hu, (L.unlock_status _ _ _ hu).2.2⟩
    · exact ⟨(L.unlock_status _ _ _ hu).2.1, hk.2⟩
  | write k mem notifies =>
    obtain ⟨⟨hidle, hk⟩, rfl⟩ := (when_eq_some _ _ _).mp h
    exact ⟨inv_write hi hidle hk, rfl⟩
  | wait k pred =>
    obtain ⟨⟨hidle, hst⟩, rfl⟩ := (when_eq_some _ _ _).mp h
    have hk := hi.place k
    rw [hidle] at hk
    exact ⟨hi.goto ⟨hst, hk.2⟩, rfl⟩
  | release k =>
    simp only [step] at h
    split_ifs at h
    obtain ⟨u, hu, rfl⟩ := Option.map_eq_some_iff.mp h
    exact ⟨inv_release hi hu, rfl⟩
  | move m =>
    obtain ⟨u, hu, rfl⟩ := Option.map_eq_some_iff.mp h
    exact ⟨inv_move hi hu, rfl⟩
  | advance k spurious =>
    have hk := hi.place k
    simp only [step] at h
    cases hpc : s.pc k with
    | idle | overlap => simp [advance, hpc] at h
    | acquire =>
      simp only [advance, hpc] at h
      obtain ⟨hst, rfl⟩ := (when_eq_some _ _ _).mp h
      rw [hpc] at hk
      exact ⟨hi.goto ⟨.inr hst, hk.2⟩, rfl⟩
    | waitTest pred =>
      simp only [advance, hpc] at h
      simp only [cvAct, hpc] at hcv
      rw [hpc] at hk
      split_ifs at h hcv
      cases h
      exact ⟨hi.goto ⟨.inr hk.1, hk.2⟩, rfl⟩
    | waitSuspend pred => simp [cvAct, hpc] at hcv
    | waiting pred =>
      simp only [advance, hpc] at h
      rw [hpc] at hk
      split_ifs at h with hparked hst
      · have hcvk := hk.2.resolve_left hparked
        refine ⟨inv_lockStep hi (fun u hu => ?_) (fun u hu => ?_) h, hlock h⟩
        · exact ⟨L.inv_coLock _ _ _ hi.lock hu, (L.coLock_status _ _ _ hu).2.2⟩
        · exact ⟨(L.coLock_status _ _ _ hu).2.1, hcvk⟩
      · exact absurd hk.1 hst
    | waitLock pred =>
      simp only [advance, hpc] at h
      obtain ⟨hst, rfl⟩ := (when_eq_some _ _ _).mp h
      rw [hpc] at hk
      exact ⟨hi.goto ⟨hst, hk.2⟩, rfl⟩
    | notifying =>
      simp only [advance, hpc] at h
      simp only [cvAct, hpc] at hcv
      rw [hpc] at hk
      split_ifs at h hcv with hcvk
      cases h
      exact ⟨hi.goto ⟨hk.1, hcvk⟩, rfl⟩
    | returning =>
      simp only [advance, hpc] at h
      obtain ⟨hst, rfl⟩ := (when_eq_some _ _ _).mp h
      rw [hpc] at hk
      exact ⟨hi.goto ⟨.inl hst, hk.2⟩, rfl⟩

theorem inv_cv (hi : Inv eval es s d) {b : ConditionVariable.Act C} (hcv : cvAct eval s a = some b)
    (h : step eval s a = some t) : ConditionVariable.step s.cv b = some t.cv ∧
      (∀ j, b ≠ .notifyOne j) ∧
      ∀ d', Stacked (es ++ (signal s.cv b).toList) t.cv d' →
        Inv eval (es ++ (signal s.cv b).toList) t d' := by
  cases a with
  | notifyAll k =>
    cases hcv
    simp only [step] at h
    split_ifs at h with hidle
    have hk := hi.place k
    rw [hidle] at hk
    obtain ⟨v, hv, rfl⟩ := Option.map_eq_some_iff.mp h
    refine ⟨hv, by simp, fun d' hs => inv_cvStep hi rfl hv hs ⟨hk.1, .inl ?_⟩⟩
    obtain ⟨-, rfl⟩ := (when_eq_some _ _ _).mp hv
    simp [ConditionVariable.State.goto, ConditionVariable.Pc.Notifying]
  | advance k spurious =>
    have hk := hi.place k
    simp only [step] at h
    cases hpc : s.pc k with
    | waitTest pred =>
      simp only [advance, hpc] at h
      simp only [cvAct, hpc] at hcv
      rw [hpc] at hk
      split_ifs at h hcv with heval
      cases hcv
      obtain ⟨v, hv, rfl⟩ := Option.map_eq_some_iff.mp h
      refine ⟨hv, by simp, fun d' hs => ?_⟩
      refine inv_cvStep hi rfl hv hs ⟨hk.1, Bool.eq_false_iff.mpr heval, ?_⟩
      obtain ⟨-, rfl⟩ := (when_eq_some _ _ _).mp hv
      simp [ConditionVariable.State.goto, ConditionVariable.Pc.Pushing]
    | waitSuspend pred =>
      simp only [advance, hpc] at h
      simp only [cvAct, hpc, Option.some.injEq] at hcv
      subst hcv
      rw [hpc] at hk
      obtain ⟨v, hv, rfl⟩ := Option.map_eq_some_iff.mp h
      by_cases hparked : v.pc k = .parked
      · rw [if_pos hparked]
        exact ⟨hv, by simp, fun d' hs => inv_park hi rfl hv hs hk.1 hparked⟩
      · rw [if_neg hparked]
        refine ⟨hv, by simp, fun d' hs => inv_cvStep hi rfl hv hs ⟨hk.1, hk.2.1, ?_⟩⟩
        exact (ConditionVariable.pushing_step hk.2.2 hv).resolve_right hparked
    | notifying =>
      simp only [advance, hpc] at h
      simp only [cvAct, hpc] at hcv
      rw [hpc] at hk
      split_ifs at h hcv with hcvk
      cases hcv
      obtain ⟨v, hv, rfl⟩ := Option.map_eq_some_iff.mp h
      refine ⟨hv, by simp, fun d' hs => inv_cvStep hi rfl hv hs ⟨hk.1, ?_⟩⟩
      exact ConditionVariable.notifying_step (hk.2.resolve_right hcvk) (hs.inv.sound k) hv
    | _ => simp [cvAct, hpc] at hcv
  | _ => cases hcv

/-- The registrations, notifications and resumptions of a run. -/
def emit (eval : P → σ → Bool) (s : State L P σ) (a : Act L P σ) : Option (Signal C) :=
  (cvAct eval s a).bind (signal s.cv)

def emitResumed (eval : P → σ → Bool) (k : C) (s : State L P σ) (a : Act L P σ) : Option C :=
  (cvAct eval s a).bind (resumedBy k s.cv)

theorem inv_step (hi : Inv eval es s d) (h : step eval s a = some t) :
    ∃ d', Inv eval (es ++ (emit eval s a).toList) t d' ∧
      (∀ k, emit eval s a = some (.taken k) → d' k = pending es) ∧
      ∀ j, emit eval s a ≠ some (.taken j) → d j = (emitResumed eval j s a).toList ++ d' j := by
  unfold emit emitResumed
  cases hcv : cvAct eval s a with
  | none =>
    refine ⟨d, ?_, by simp, fun j _ => rfl⟩
    simpa using (inv_apart hi hcv h).1
  | some b =>
    obtain ⟨hv, hone, hinv⟩ := inv_cv hi hcv h
    obtain ⟨d', hs, htaken, hd⟩ := ConditionVariable.stacked_step hi.stack hone hv
    exact ⟨d', hinv d' hs, htaken, hd⟩

theorem inv_run {as : List (Act L P σ)} {mem : σ} (h : run (step eval) (init mem) as = some s) :
    ∃ d, Inv eval (trace (step eval) (emit eval) (init mem) as) s d :=
  trace_invariant (emit eval) (fun es s => ∃ d, Inv eval es s d)
    (fun _ _ _ _ ⟨_, hi⟩ ht => (inv_step hi ht).imp fun _ h => h.1) h ⟨_, inv_init mem⟩

end LibCoro.CondWait
