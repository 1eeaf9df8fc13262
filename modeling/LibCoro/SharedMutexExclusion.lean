import LibCoro.MutexLock
import LibCoro.SharedMutexStep

namespace LibCoro.SharedMutex

open Machine

variable {C : Type} {L : Lock C} [Fintype C] [DecidableEq C]

theorem inv_waitTest {s t : State L} {k : C} {spurious : Bool} {w : Wait} (hi : Inv s)
    (hpc : s.pc k = .waitTest w) (h : advance s k spurious = some t) : Inv t := by
  have hst := hi.status k
  have hgt := hi.gateAt k
  rw [hpc] at hst hgt
  simp only [advance, hpc] at h
  split_ifs at h with hw
  · cases h
    have hfact' := fact_of_pred hi k hw
    cases w <;> exact inv_plain hi hst hgt trivial (by simp [hpc, Pc.PastFlag, Wait.next]) hfact'
  · refine inv_gateCall hi h hst rfl fun v hv _ => ?_
    obtain ⟨-, rfl⟩ := (when_eq_some _ _ _).mp hv
    refine ⟨rfl, ?_, fun g hg => ?_, by simp, ?_, trivial⟩
    · simp [GateAt, ConditionVariable.State.goto, ConditionVariable.Pc.Pushing]
    · simpa [GateAt, hg] using hgt g
    · cases w <;> simp [hpc, Pc.PastFlag]

theorem inv_waitSuspend {s t : State L} {k : C} {spurious : Bool} {w : Wait} (hi : Inv s)
    (hpc : s.pc k = .waitSuspend w) (h : advance s k spurious = some t) : Inv t := by
  have hst := hi.status k
  have hgt := hi.gateAt k
  rw [hpc] at hst hgt
  simp only [advance, hpc] at h
  have hpush : ((s.gate w.gate).pc k).Pushing := by simpa [GateAt] using hgt w.gate
  refine inv_gateCall hi h hst rfl fun v hv _ => ?_
  have hnext := ConditionVariable.pushing_step hpush hv
  split_ifs with hpk
  · refine ⟨rfl, by simpa [GateAt] using hpk, fun g hg => ?_, by simp, ?_, trivial⟩
    · simpa [GateAt, hg] using hgt g
    · cases w <;> simp [hpc, Pc.PastFlag]
  · refine ⟨rfl, by simpa [GateAt] using hnext.resolve_right hpk, fun g hg => ?_, by simp, ?_, trivial⟩
    · simpa [GateAt, hg] using hgt g
    · cases w <;> simp [hpc, Pc.PastFlag]

theorem inv_waitUnlock {s t : State L} {k : C} {spurious : Bool} {w : Wait} (hi : Inv s)
    (hpc : s.pc k = .waitUnlock w) (h : advance s k spurious = some t) : Inv t := by
  have hgt := hi.gateAt k
  rw [hpc] at hgt
  have hpk : (s.gate w.gate).pc k = .parked := by simpa [GateAt] using hgt w.gate
  simp only [advance, hpc, hpk, if_true] at h
  refine inv_lockCall hi h (fun m hm => L.inv_unlock _ _ _ hi.lock hm) (fun m hm => ?_) fun m hm => ?_
  · exact (L.unlock_status _ _ _ hm).2
  · refine ⟨fun g => ?_, fun v hv => ?_, ?_, trivial⟩
    · by_cases hg : g = w.gate
      · subst hg
        simp [GateAt, hpk, ConditionVariable.Pc.Calm]
      · simpa [GateAt, hg] using hgt g
    · cases hv
      exact hpk
    · cases w <;> simp [hpc, Pc.PastFlag]

theorem inv_waiting {s t : State L} {k : C} {spurious : Bool} {w : Wait} (hi : Inv s)
    (hpc : s.pc k = .waiting w) (h : advance s k spurious = some t) : Inv t := by
  have hgt := hi.gateAt k
  rw [hpc] at hgt
  have hcalm : ((s.gate w.gate).pc k).Calm := by simpa [GateAt] using hgt w.gate
  simp only [advance, hpc] at h
  split_ifs at h with hpk hidle
  · refine inv_lockCall hi h (fun m hm => L.inv_coLock _ _ _ hi.lock hm) (fun m hm => ?_) fun m hm => ?_
    · exact (L.coLock_status _ _ _ hm).2
    · refine ⟨fun g => ?_, by simp, ?_, trivial⟩
      · by_cases hg : g = w.gate
        · subst hg
          exact hcalm.resolve_right hpk
        · simpa [GateAt, hg] using hgt g
      · cases w <;> simp [hpc, Pc.PastFlag]
  · -- a coroutine that was resumed had given `mut_` up before
    exact absurd (hi.awake k w hpc (hcalm.resolve_right hpk)) hidle

theorem inv_notifying {s t : State L} {k : C} {spurious : Bool} {g : Gate} (hi : Inv s)
    (hpc : s.pc k = .notifying g) (h : advance s k spurious = some t) : Inv t := by
  have hst := hi.status k
  have hgt := hi.gateAt k
  rw [hpc] at hst hgt
  have hnot : ((s.gate g).pc k).Notifying ∨ (s.gate g).pc k = .idle := by
    simpa [GateAt] using hgt g
  simp only [advance, hpc] at h
  split_ifs at h with hidle
  · cases h
    refine inv_plain hi hst (fun g' => ?_) trivial (by simp [hpc, Pc.PastFlag]) trivial
    by_cases hg : g' = g
    · subst hg
      exact hidle
    · simpa [GateAt, hg] using hgt g'
  · refine inv_gateCall hi h hst rfl fun v hv hs => ?_
    have hnext := ConditionVariable.notifying_step (hnot.resolve_right hidle) hs hv
    refine ⟨rfl, by simpa [GateAt] using hnext, fun g' hg => ?_, by simp,
      by simp [hpc, Pc.PastFlag], trivial⟩
    simpa [GateAt, hg] using hgt g'

theorem inv_advance {s t : State L} {k : C} {spurious : Bool} (hi : Inv s)
    (h : advance s k spurious = some t) : Inv t := by
  have hst := hi.status k
  have hgt := hi.gateAt k
  have hfact := hi.fact k
  cases hpc : s.pc k with
  | idle | assertFailed | overlap => simp [advance, hpc] at h
  | acquire op =>
    rw [hpc] at hgt hfact
    simp only [advance, hpc, when_eq_some] at h
    obtain ⟨hk, rfl⟩ := h
    cases op <;> exact inv_plain hi hk hgt trivial (by simp [hpc, Pc.PastFlag, Op.entry]) hfact
  | lockTest =>
    rw [hpc] at hst hgt
    simp only [advance, hpc, Option.some.injEq] at h
    subst h
    split_ifs with hw
    · exact inv_plain hi hst hgt trivial (by simp [hpc, Pc.PastFlag]) trivial
    · rw [writeEntered_iff hi.word.bound, Nat.not_le] at hw
      exact inv_plain hi hst hgt trivial (by simp [hpc, Pc.PastFlag]) (no_writer hi hw)
  | lockSetFlag =>
    rw [hpc] at hst hgt
    simp only [advance, hpc, Option.some.injEq] at h
    subst h
    exact inv_setFlag hi hpc hst hgt
  | lockTestReaders =>
    rw [hpc] at hst hgt
    simp only [advance, hpc, Option.some.injEq] at h
    subst h
    split_ifs with hr
    · exact inv_plain hi hst hgt trivial (by simp [hpc, Pc.PastFlag]) trivial
    · refine inv_plain hi hst hgt trivial (by simp [hpc, Pc.PastFlag]) ?_
      exact (holders_eq_readers hi).trans (not_not.mp hr)
  | lockDone =>
    rw [hpc] at hst hgt
    simp only [advance, hpc, Option.some.injEq] at h
    subst h
    exact inv_lockDone hi hpc hst hgt
  | tryTest =>
    rw [hpc] at hst hgt
    simp only [advance, hpc, Option.some.injEq] at h
    subst h
    split_ifs with hz
    · exact inv_plain hi hst hgt trivial (by simp [hpc, Pc.PastFlag]) hz
    · exact inv_plain hi hst hgt trivial (by simp [hpc, Pc.PastFlag]) trivial
  | trySet =>
    rw [hpc] at hst hgt
    simp only [advance, hpc, Option.some.injEq] at h
    subst h
    exact inv_trySet hi hpc hst hgt
  | unlockAssert =>
    rw [hpc] at hst hgt hfact
    simp only [advance, hpc, Option.some.injEq] at h
    subst h
    rw [if_pos (writeEntered_of_writer hi (.inl hfact))]
    exact inv_plain hi hst hgt trivial (by simp [hpc, Pc.PastFlag]) hfact
  | unlockClear =>
    rw [hpc] at hst hgt
    simp only [advance, hpc, Option.some.injEq] at h
    subst h
    exact inv_unlockClear hi hpc hst hgt
  | sharedTest =>
    rw [hpc] at hst hgt
    simp only [advance, hpc, Option.some.injEq] at h
    subst h
    split_ifs with hm
    · exact inv_plain hi hst hgt trivial (by simp [hpc, Pc.PastFlag]) trivial
    · exact inv_plain hi hst hgt trivial (by simp [hpc, Pc.PastFlag]) (Nat.not_le.mp hm)
  | sharedIncrement =>
    rw [hpc] at hst hgt
    simp only [advance, hpc, Option.some.injEq] at h
    subst h
    exact inv_sharedIncrement hi hpc hst hgt
  | trySharedTest =>
    rw [hpc] at hst hgt
    simp only [advance, hpc, Option.some.injEq] at h
    subst h
    split_ifs with hm
    · exact inv_plain hi hst hgt trivial (by simp [hpc, Pc.PastFlag]) hm
    · exact inv_plain hi hst hgt trivial (by simp [hpc, Pc.PastFlag]) trivial
  | unsharedAssert =>
    rw [hpc] at hst hgt hfact
    simp only [advance, hpc, Option.some.injEq] at h
    subst h
    have hpos : 0 < readers s.state_ := by
      rw [← holders_eq_readers hi]
      exact Nat.lt_of_lt_of_le hfact (shared_le_holders s k)
    rw [if_pos hpos]
    exact inv_plain hi hst hgt trivial (by simp [hpc, Pc.PastFlag]) hfact
  | unsharedDecrement =>
    rw [hpc] at hst hgt
    simp only [advance, hpc, Option.some.injEq] at h
    subst h
    exact inv_unsharedDecrement hi hpc hst hgt decrement_eq
  | unsharedTest prev | unsharedTestReaders =>
    rw [hpc] at hst hgt
    simp only [advance, hpc, Option.some.injEq] at h
    subst h
    split_ifs <;> exact inv_plain hi hst hgt trivial (by simp [hpc, Pc.PastFlag]) trivial
  | waitTest w => exact inv_waitTest hi hpc h
  | waitSuspend w => exact inv_waitSuspend hi hpc h
  | waitUnlock w => exact inv_waitUnlock hi hpc h
  | waiting w => exact inv_waiting hi hpc h
  | waitLock w =>
    rw [hpc] at hgt
    simp only [advance, hpc, when_eq_some] at h
    obtain ⟨hk, rfl⟩ := h
    refine inv_plain hi hk hgt trivial ?_ trivial
    cases w <;> simp [hpc, Pc.PastFlag]
  | notifyAll g | notifyOne g =>
    rw [hpc] at hst hgt
    simp only [advance, hpc] at h
    refine inv_gateCall hi h hst rfl fun v hv _ => ?_
    obtain ⟨-, rfl⟩ := (when_eq_some _ _ _).mp hv
    refine ⟨rfl, ?_, fun g' hg => ?_, by simp, by simp [hpc, Pc.PastFlag], trivial⟩
    · simp [GateAt, ConditionVariable.State.goto, ConditionVariable.Pc.Notifying]
    · simpa [GateAt, hg] using hgt g'
  | notifying g => exact inv_notifying hi hpc h
  | release =>
    rw [hpc] at hgt
    simp only [advance, hpc] at h
    refine inv_lockCall hi h (fun m hm => L.inv_unlock _ _ _ hi.lock hm) (fun m hm => ?_) fun m hm => ?_
    · exact (L.unlock_status _ _ _ hm).2
    · exact ⟨hgt, by simp, by simp [hpc, Pc.PastFlag], trivial⟩
  | returning =>
    rw [hpc] at hgt
    simp only [advance, hpc, when_eq_some] at h
    obtain ⟨hk, rfl⟩ := h
    exact inv_goto hi hk hgt (by simp) (by simp [hpc, Pc.PastFlag]) trivial

theorem inv_begin (op : Op) {s t : State L} {k : C} (hi : Inv s) (hpc : s.pc k = .idle)
    (hfact : Fact s k (.acquire op)) (h : lockStep s k L.coLock (fun _ => .acquire op) = some t) :
    Inv t := by
  have hgt := hi.gateAt k
  rw [hpc] at hgt
  refine inv_lockCall hi h (fun m hm => L.inv_coLock _ _ _ hi.lock hm) (fun m hm => ?_) fun m hm => ?_
  · exact (L.coLock_status _ _ _ hm).2
  · exact ⟨hgt, by simp, by simp [hpc, Pc.PastFlag], hfact⟩

theorem inv_try {s t : State L} {k : C} {p : Pc} (hi : Inv s) (hpc : s.pc k = .idle)
    (hp : p = .tryTest ∨ p = .trySharedTest) (h : lockStep s k L.tryLock (tried L k p) = some t) :
    Inv t := by
  have hgt := hi.gateAt k
  rw [hpc] at hgt
  refine inv_lockCall hi h (fun m hm => L.inv_tryLock _ _ _ hi.lock hm) (fun m hm => ?_) fun m hm => ?_
  · obtain ⟨-, hst, hother⟩ := L.tryLock_status _ _ _ hm
    refine ⟨?_, hother⟩
    unfold tried
    split_ifs with hk
    · obtain rfl | rfl := hp <;> exact hk
    · exact hst.resolve_right hk
  · unfold tried
    split_ifs with hk
    · obtain rfl | rfl := hp <;> exact ⟨hgt, by simp, by simp [hpc, Pc.PastFlag], trivial⟩
    · exact ⟨hgt, by simp, by simp [hpc, Pc.PastFlag], trivial⟩

omit [DecidableEq C] in
theorem inv_move {s : State L} {m : L.Move} {v : L.State} (hi : Inv s)
    (hm : L.move s.mut_ m = some v) : Inv { s with mut_ := v } := by
  have hst := L.move_status _ _ _ hi.lock hm
  refine ⟨L.inv_move _ _ _ hi.lock hm, hi.gates, hi.fresh, fun k => ?_, hi.gateAt, fun k w hpc hq => ?_,
    ?_, fun k => ?_⟩
  · have hk := hi.status k
    obtain hsame | ⟨hold, hnew⟩ | ⟨hold, hnew⟩ := hst k
    · rwa [hsame]
    · rw [hold] at hk
      rw [hnew]
      cases hpc : s.pc k <;> simp [hpc, StatusAt] at hk ⊢
    · rw [hold] at hk
      rw [hnew]
      cases hpc : s.pc k <;> simp [hpc, StatusAt] at hk ⊢
  · have hidle := hi.awake k w hpc hq
    obtain hsame | ⟨hold, -⟩ | ⟨-, hnew⟩ := hst k
    · exact hsame.trans hidle
    · rw [hidle] at hold
      cases hold
    · exact hnew
  · exact word_congr hi.word rfl rfl (fun _ => Iff.rfl) hi.word.alone
  · exact fact_congr (hi.fact k) rfl rfl rfl fun _ => Iff.rfl

theorem inv_step (s : State L) (a : Act L) (t : State L) (hi : Inv s) (h : step s a = some t) :
    Inv t := by
  cases a with
  | coLock k =>
    simp only [step] at h
    split_ifs at h with hpc
    exact inv_begin .coLock hi hpc trivial h
  | coLockShared k =>
    simp only [step] at h
    split_ifs at h with hpc
    exact inv_begin .coLockShared hi hpc trivial h
  | tryLock k =>
    simp only [step] at h
    split_ifs at h with hpc
    exact inv_try hi hpc (.inl rfl) h
  | tryLockShared k =>
    simp only [step] at h
    split_ifs at h with hpc
    exact inv_try hi hpc (.inr rfl) h
  | unlock k =>
    simp only [step] at h
    split_ifs at h with hpc
    exact inv_begin .unlock hi hpc.1 hpc.2 h
  | unlockShared k =>
    simp only [step] at h
    split_ifs at h with hpc
    exact inv_begin .unlockShared hi hpc.1 hpc.2 h
  | advance k spurious => exact inv_advance hi h
  | move m =>
    obtain ⟨v, hv, rfl⟩ := Option.map_eq_some_iff.mp h
    exact inv_move hi hv

theorem inv_run {as : List (Act L)} {s : State L} (h : run step init as = some s) : Inv s :=
  run_invariant Inv inv_step h inv_init

omit [Fintype C] in
theorem gate_of_step {s t : State L} {a : Act L} (h : step s a = some t) (g : Gate) :
    (∃ b, gateAct s a = some (g, b) ∧ ConditionVariable.step (s.gate g) b = some (t.gate g)) ∨
      (t.gate g = s.gate g ∧ ∀ b, gateAct s a ≠ some (g, b)) := by
  have hlock : ∀ {k : C} {f : L.State → C → Option L.State} {p : L.State → Pc},
      lockStep s k f p = some t → t.gate g = s.gate g := by
    intro k f p hs
    obtain ⟨m, -, rfl⟩ := Option.map_eq_some_iff.mp hs
    rfl
  have hgate : ∀ {g' : Gate} {k : C} {b : ConditionVariable.Act C}
      {p : ConditionVariable.State C → Pc}, gateStep s g' k b p = some t →
      gateAct s a = some (g', b) →
      (∃ b, gateAct s a = some (g, b) ∧ ConditionVariable.step (s.gate g) b = some (t.gate g)) ∨
        (t.gate g = s.gate g ∧ ∀ b, gateAct s a ≠ some (g, b)) := by
    intro g' k b p hs hb
    obtain ⟨v, hv, rfl⟩ := Option.map_eq_some_iff.mp hs
    by_cases hg : g = g'
    · subst hg
      exact .inl ⟨b, hb, by simpa [State.goto] using hv⟩
    · refine .inr ⟨by simp [State.goto, hg], fun b' hb' => ?_⟩
      rw [hb, Option.some.injEq, Prod.mk.injEq] at hb'
      exact hg hb'.1.symm
  cases a with
  | coLock k | tryLock k | unlock k | coLockShared k | tryLockShared k | unlockShared k =>
    simp only [step] at h
    split_ifs at h
    exact .inr ⟨hlock h, by simp [gateAct]⟩
  | move m =>
    obtain ⟨v, -, rfl⟩ := Option.map_eq_some_iff.mp h
    exact .inr ⟨rfl, by simp [gateAct]⟩
  | advance k spurious =>
    simp only [step] at h
    cases hpc : s.pc k with
    | idle | assertFailed | overlap => simp [advance, hpc] at h
    | waitSuspend w | notifyAll g' | notifyOne g' =>
      simp only [advance, hpc] at h
      exact hgate h (by simp [gateAct, hpc])
    | waitTest w =>
      simp only [advance, hpc] at h
      split_ifs at h with hw
      · cases h
        exact .inr ⟨rfl, by simp [gateAct, hpc, hw]⟩
      · exact hgate h (by simp [gateAct, hpc, hw])
    | notifying g' =>
      simp only [advance, hpc] at h
      split_ifs at h with hidle
      · cases h
        exact .inr ⟨rfl, by simp [gateAct, hpc, hidle]⟩
      · exact hgate h (by simp [gateAct, hpc, hidle])
    | waitUnlock w | waiting w =>
      simp only [advance, hpc] at h
      split_ifs at h
      all_goals first
        | exact .inr ⟨hlock h, by simp [gateAct, hpc]⟩
        | cases h; exact .inr ⟨rfl, by simp [gateAct, hpc]⟩
    | release =>
      simp only [advance, hpc] at h
      exact .inr ⟨hlock h, by simp [gateAct, hpc]⟩
    | acquire op | waitLock w | returning =>
      simp only [advance, hpc, when_eq_some] at h
      obtain ⟨-, rfl⟩ := h
      exact .inr ⟨rfl, by simp [gateAct, hpc]⟩
    | _ =>
      simp only [advance, hpc, Option.some.injEq] at h
      subst h
      exact .inr ⟨rfl, by simp [gateAct, hpc]⟩

theorem balanced_step {es : List (ConditionVariable.Event C)} {s t : State L} {a : Act L} {g : Gate}
    (hi : Inv s) (hb : ∀ j, ConditionVariable.Balanced es (s.gate g) j) (h : step s a = some t) (j : C) :
    ConditionVariable.Balanced (es ++ (emit g s a).toList) (t.gate g) j := by
  obtain ⟨b, hact, hb'⟩ | ⟨hsame, hact⟩ := gate_of_step h g
  · have he : emit g s a = ConditionVariable.emit (s.gate g) b := by simp [emit, hact]
    rw [he]
    exact ConditionVariable.balanced_step (hi.gates g) hb hb' j
  · have he : emit g s a = none := by
      unfold emit
      cases hg : gateAct s a with
      | none => rfl
      | some p =>
        obtain ⟨g', b⟩ := p
        have hne : g' ≠ g := by
          rintro rfl
          exact hact b hg
        simp [hne]
    rw [he, Option.toList_none, List.append_nil, hsame]
    exact hb j

/-- What readers and writers rely on, and what the packed word says about them. -/
structure Excludes (s : State L) : Prop where
  writers : ∀ j k, s.exclusive j = true → s.exclusive k = true → j = k
  readers : ∀ j k, s.exclusive j = true → s.shared k = 0
  count : SharedMutex.readers s.state_ = ∑ k, s.shared k
  flag : writeEntered s.state_ = true ↔ ∃ k, Writer s k
  unique : ∀ j k, Writer s j → Writer s k → j = k
  noCarry : ∀ k, s.pc k = .sharedIncrement → s.state_ < maxReaders
  noBorrow : ∀ k, s.pc k = .unsharedDecrement → 0 < SharedMutex.readers s.state_
  clear : ∀ k, s.pc k = .unlockClear → ∀ j, s.shared j = 0
  noAssert : ∀ k, s.pc k ≠ .assertFailed ∧ s.pc k ≠ .overlap
  gates : ∀ g k, (s.gate g).pc k ≠ .nullDeref ∧ (s.gate g).pc k ≠ .strayResume

omit [DecidableEq C] in
theorem excludes_of_inv {s : State L} (hi : Inv s) : Excludes s := by
  have hzero : ∀ j, s.exclusive j = true → ∀ k, s.shared k = 0 := by
    intro j hj k
    have hle := shared_le_holders s k
    have hz := hi.word.alone j hj
    omega
  refine ⟨fun j k hj hk => hi.word.unique j k (.inl hj) (.inl hk), fun j k hj => hzero j hj k, ?_, ?_,
    hi.word.unique, fun k hpc => ?_, fun k hpc => ?_, fun k hpc => ?_, fun k => ?_, fun g k => ?_⟩
  · exact (holders_eq_readers hi).symm
  · rw [writeEntered_iff hi.word.bound]
    exact hi.word.flag
  · have hf := hi.fact k
    rwa [hpc] at hf
  · have hf := hi.fact k
    rw [hpc] at hf
    rw [← holders_eq_readers hi]
    exact Nat.lt_of_lt_of_le hf (shared_le_holders s k)
  · have hf := hi.fact k
    rw [hpc] at hf
    exact hzero k hf
  · have hst := hi.status k
    constructor <;> intro hpc <;> rw [hpc] at hst <;> exact hst
  · obtain ⟨l, d, hg⟩ := hi.gates g
    have hk := hg.sound k
    constructor <;> intro hpc <;> rw [hpc] at hk <;> exact hk

/-- With either lock inside, the shared mutex keeps writers apart from everybody, the word
counts the holders, and each coroutine is resumed once for each time it parks at a gate. -/
theorem shared_mutex_excludes (kind : LockKind) (as : List (Act (kind.lock : Lock C)))
    (s : State (kind.lock : Lock C)) (h : run step init as = some s) :
    Excludes s ∧
      ∀ g k, ConditionVariable.Balanced (trace step (emit g) init as) (s.gate g) k := by
  refine ⟨excludes_of_inv (inv_run h), fun g => ?_⟩
  have hinit : Inv (init : State (kind.lock : Lock C)) ∧
      ∀ j, ConditionVariable.Balanced [] ((init : State (kind.lock : Lock C)).gate g) j :=
    ⟨inv_init, fun j => by simp [ConditionVariable.Balanced, init, ConditionVariable.init]⟩
  have hrun := trace_invariant (emit g)
    (fun es s => Inv s ∧ ∀ j, ConditionVariable.Balanced es (s.gate g) j)
    (fun es s a t hr ht => ⟨inv_step s a t hr.1 ht, balanced_step hr.1 hr.2 ht⟩) h hinit
  simpa using hrun.2

theorem shared_mutex_excludes_handover :
    let as : List (Act ((LockKind.spinLock 4).lock : Lock (Fin 2))) :=
      [.coLockShared 0, .move (0 : Fin 2), .advance 0 false, .advance 0 false, .advance 0 false,
        .advance 0 false, .advance 0 false, .coLock 1, .move (1 : Fin 2), .advance 1 false, .advance 1 false,
        .advance 1 false, .advance 1 false, .advance 1 false, .advance 1 false, .advance 1 false,
        .advance 1 false, .advance 1 false, .unlockShared 0, .move (0 : Fin 2), .advance 0 false,
        .advance 0 false, .advance 0 false, .advance 0 false, .advance 0 false, .advance 0 false,
        .advance 0 false, .advance 0 false, .advance 0 false, .advance 0 false, .advance 0 false,
        .advance 0 false, .advance 0 false, .advance 0 false, .advance 0 false, .advance 0 false,
        .advance 1 false, .move (1 : Fin 2), .advance 1 false, .advance 1 false, .advance 1 false]
    ∃ s, run step init as = some s ∧ s.exclusive 1 = true ∧ Excludes s ∧
      ∀ g k, ConditionVariable.Balanced (trace step (emit g) init as) (s.gate g) k := by
  intro as
  have hend : ((run step init as).map fun s => s.exclusive 1) = some true := by decide +kernel
  obtain ⟨s, hs, hex⟩ := Option.map_eq_some_iff.mp hend
  exact ⟨s, hs, hex, shared_mutex_excludes (.spinLock 4) as s hs⟩

end LibCoro.SharedMutex
