import LibCoro.SharedMutexProgress

namespace LibCoro.SharedMutex

open Machine
open Sections (Mode Place Live)
open ConditionVariable (registered_of_parked)

variable {C : Type} {L : Lock C} [DecidableEq C] {mode : C → Mode} {Good : L.State → Prop} {s t u : State L}
  {a : Act L} {k c : C} {w : Place}

/-- A client only takes, gives up or waits for `mut_`; `tryLock` is not called. -/
def Act.Waits : Act L → Prop
  | .tryLock _ | .tryLockShared _ => False
  | _ => True

/-- What a step does to `mut_`. -/
inductive Turns (L : Lock C) (m m' : L.State) : Prop where
  | still (same : m' = m)
  | coLock (k : C) (call : L.coLock m k = some m')
  | unlock (k : C) (call : L.unlock m k = some m')
  | move (b : L.Move) (step : L.move m b = some m')

omit [DecidableEq C] in
theorem Turns.good {m m' : L.State} (h : Turns L m m') (hL : Live (L.guard mode) Good) (hi : L.Inv m)
    (hg : Good m) : Good m' := by
  cases h with
  | still same => exact same ▸ hg
  | coLock k call => exact hL.enter m k m' hi hg call
  | unlock k call => exact hL.leave m k m' hi hg call
  | move b step => exact hL.move m b m' hi hg step

theorem turns_of_step (ha : a.Waits) (h : step s a = some t) : Turns L s.mut_ t.mut_ := by
  have hlock : ∀ {k : C} {f : L.State → C → Option L.State} {p : L.State → Pc},
      lockStep s k f p = some t → (∀ m, f s.mut_ k = some m → Turns L s.mut_ m) →
      Turns L s.mut_ t.mut_ := by
    intro k f p hs hf
    obtain ⟨m, hm, rfl⟩ := Option.map_eq_some_iff.mp hs
    exact hf m hm
  have hgate : ∀ {k : C} {g : Gate} {b : ConditionVariable.Act C} {p : ConditionVariable.State C → Pc},
      gateStep s g k b p = some t → Turns L s.mut_ t.mut_ := by
    intro k g b p hs
    obtain ⟨v, -, rfl⟩ := Option.map_eq_some_iff.mp hs
    exact .still rfl
  have hgoto : ∀ (u : State L) {k : C} {p : Pc}, u.goto k p = t → u.mut_ = s.mut_ →
      Turns L s.mut_ t.mut_ := by
    rintro u k p rfl hu
    exact .still hu
  cases a with
  | tryLock k | tryLockShared k => exact ha.elim
  | coLock k | unlock k | coLockShared k | unlockShared k =>
    simp only [step] at h
    split_ifs at h
    exact hlock h fun m => .coLock k
  | move m =>
    obtain ⟨v, hv, rfl⟩ := Option.map_eq_some_iff.mp h
    exact .move m hv
  | advance k spurious =>
    simp only [step] at h
    cases hpc : s.pc k with
    | idle | assertFailed | overlap => simp [advance, hpc] at h
    | release =>
      simp only [advance, hpc] at h
      exact hlock h fun m => .unlock k
    | notifyAll g | notifyOne g | waitSuspend v =>
      simp only [advance, hpc] at h
      exact hgate h
    | waitUnlock v =>
      simp only [advance, hpc] at h
      split_ifs at h
      · exact hlock h fun m => .unlock k
      · cases h
        exact .still rfl
    | waiting v =>
      simp only [advance, hpc] at h
      split_ifs at h
      · exact hlock h fun m => .coLock k
      · cases h
        exact .still rfl
    | waitTest v | notifying v =>
      simp only [advance, hpc] at h
      split_ifs at h
      · cases h
        exact .still rfl
      · exact hgate h
    | acquire o | waitLock v | returning =>
      simp only [advance, hpc, when_eq_some] at h
      obtain ⟨-, rfl⟩ := h
      exact .still rfl
    | _ =>
      simp only [advance, hpc, Option.some.injEq] at h
      exact hgoto _ h rfl

omit [DecidableEq C] in
theorem At.shared_le (h : At (mode k) s k w) : s.shared k ≤ 1 := by
  have hheld : ∀ own, Held s k own → s.shared k ≤ 1 := by
    intro own hh
    match own with
    | none | some .shared | some .exclusive =>
      have hshared := hh.2
      omega
  cases w with
  | outside | inside => exact hheld _ h.2
  | entering | leaving =>
    obtain ⟨-, hh⟩ | ⟨-, hh⟩ := h <;> exact hheld _ hh

omit [DecidableEq C] in
theorem At.shared_eq_zero (h : At (mode k) s k w) (hidle : s.pc k ≠ .idle) (hret : ¬ (s.pc k).Returns)
    (hkeep : ¬ (s.pc k).Keeps (mode k)) : s.shared k = 0 := by
  cases w with
  | outside | inside => exact absurd h.1 hidle
  | entering => exact h.elim (fun h => h.2.2) fun h => absurd h.1 hret
  | leaving => exact h.elim (fun h => absurd h.1 hkeep) fun h => h.2.2

omit [DecidableEq C] in
theorem shared_of_serves (h : At (mode k) s k w) (hk : Serves s k) : s.shared k = 0 := by
  obtain (⟨hpc | hpc, -⟩ | hpc | hpc | hpc) | hpc | hpc | ⟨hpc, -⟩ := hk <;>
    exact h.shared_eq_zero (by simp [hpc]) (by simp [hpc, Pc.Returns]) (by simp [hpc, Pc.Keeps])

variable [Fintype C]

/-- `mut_` is in good order, and whoever sleeps has somebody to wait for. -/
structure Orderly (Good : L.State → Prop) (s : State L) : Prop where
  lock : Good s.mut_
  heeded : Heeded s
  supplied : Supplied s

namespace Client

variable {s t : Client L}

omit [DecidableEq C] in
theorem holders_le (hi : Inv mode s) {W : Finset C} (hW : ∀ c ∈ W, Serves s.sharedMutex c) :
    s.sharedMutex.holders + W.card ≤ Fintype.card C := by
  classical
  have hpoint : ∀ k ∈ Finset.univ, (s.sharedMutex.shared k + if k ∈ W then 1 else 0) ≤ 1 := by
    intro k _
    by_cases hk : k ∈ W
    · rw [shared_of_serves (hi.places k) (hW k hk), if_pos hk]
    · rw [if_neg hk]
      exact (hi.places k).shared_le
  have hsum := Finset.sum_le_sum hpoint
  rw [Finset.sum_add_distrib] at hsum
  simpa [State.holders] using hsum

omit [DecidableEq C] in
/-- Few clients never take all slots, so only a writer fills the word. -/
theorem flag_of_covered (hi : Inv mode s) (hfew : Fintype.card C < maxReaders)
    (hc : Covered s.sharedMutex) : 2 ^ 31 ≤ s.sharedMutex.state_ := by
  obtain ⟨W, hW, hcard⟩ := hc
  have hle := holders_le hi hW
  have hcount := hi.sharedMutex.word.count
  by_contra hlt
  omega

omit [DecidableEq C] in
theorem holding_of_decrement (hi : Inv mode s) (hk : s.sharedMutex.pc k = .unsharedDecrement) :
    L.status s.sharedMutex.mut_ k = .holding := by
  have hst := hi.sharedMutex.status k
  rwa [hk] at hst

omit [DecidableEq C] in
theorem sleeper_stands (hi : Inv mode s) (hk : s.sharedMutex.pc k = .unsharedDecrement)
    (hc : Parked s.sharedMutex .maxReaders c) : Standing s.sharedMutex .maxReaders c := by
  have hhold := holding_of_decrement hi hk
  refine ⟨.inr hc.1, registered_of_parked (hi.sharedMutex.gates .gate1) (fun j => ?_) hc.2⟩
  by_cases hj : j = k
  · subst hj
    have hgt := hi.sharedMutex.gateAt j .gate1
    rw [hk] at hgt
    exact .inl hgt
  · exact calm_of_not_holding (hi.sharedMutex.status j) (hi.sharedMutex.gateAt j .gate1)
      (not_holding hi.sharedMutex hhold hj)

theorem spares (hi : Inv mode s) (hfew : Fintype.card C < maxReaders) (hs : Supplied s.sharedMutex)
    (a : Act L) : Spares s.sharedMutex a := by
  cases a with
  | advance k spurious =>
    rintro hk hfree ⟨c, hc⟩
    obtain hcov | ⟨j, hj⟩ := hs c (sleeper_stands hi hk hc)
    · have hflag := flag_of_covered hi hfew hcov
      have hmax : maxReaders = 2 ^ 31 - 1 := rfl
      omega
    · obtain rfl := holder_unique hi.sharedMutex (holding_of_sweeps hi.sharedMutex hj)
        (holding_of_decrement hi hk)
      obtain hpc | ⟨hpc, -⟩ := hj <;> simp [hk] at hpc
  | _ => trivial

theorem orderly_inner {u : State L} (hL : Live (L.guard mode) Good) (hfew : Fintype.card C < maxReaders)
    (hi : Inv mode s) (hg : Orderly Good s.sharedMutex) (ha : a.Waits) (h : step s.sharedMutex a = some u) :
    Orderly Good u where
  lock := (turns_of_step ha h).good hL hi.sharedMutex.lock hg.lock
  heeded := heeded_step hg.heeded h
  supplied := supplied_step hi.sharedMutex hg.heeded.tested hg.heeded.flagged hg.supplied
    (spares hi hfew hg.supplied a) h

theorem orderly_enter (hL : Live (L.guard mode) Good) (hfew : Fintype.card C < maxReaders)
    (hi : Inv mode s) (hg : Orderly Good s.sharedMutex) (h : enter mode s k = some t) :
    Orderly Good t.sharedMutex := by
  unfold enter at h
  split_ifs at h
  obtain ⟨u, hu, rfl⟩ := Option.map_eq_some_iff.mp h
  refine orderly_inner hL hfew hi hg ?_ hu
  cases mode k <;> trivial

theorem orderly_leave (hL : Live (L.guard mode) Good) (hfew : Fintype.card C < maxReaders)
    (hi : Inv mode s) (hg : Orderly Good s.sharedMutex) (h : leave mode s k = some t) :
    Orderly Good t.sharedMutex := by
  unfold leave at h
  split_ifs at h
  obtain ⟨u, hu, rfl⟩ := Option.map_eq_some_iff.mp h
  refine orderly_inner hL hfew hi hg ?_ hu
  cases mode k <;> trivial

theorem orderly_move (hL : Live (L.guard mode) Good) (hfew : Fintype.card C < maxReaders)
    (hi : Inv mode s) (hg : Orderly Good s.sharedMutex) {m : Move L} (h : move s m = some t) :
    Orderly Good t.sharedMutex := by
  cases m with
  | advance k spurious | lock m =>
    obtain ⟨u, hu, rfl⟩ := Option.map_eq_some_iff.mp h
    exact orderly_inner hL hfew hi hg (by trivial) hu
  | ret k =>
    simp only [move] at h
    split_ifs at h
    cases hp : s.place k <;> simp [hp] at h <;> subst h <;> exact hg

def work (s : Client L) : Nat :=
  total s.sharedMutex + (Finset.univ.filter fun k => s.place k = .leaving).card

def Drives (s t : Client L) : Prop := ∃ ms, run move s ms = some t

omit [Fintype C] in
theorem drives_refl (s : Client L) : Drives s s := ⟨[], rfl⟩

omit [Fintype C] in
theorem drives_step {u : Client L} (m : Move L) (h : move s m = some t) (ht : Drives t u) : Drives s u := by
  obtain ⟨ms, hr⟩ := ht
  exact ⟨m :: ms, (run_cons _ _ _ _).mpr ⟨t, h, hr⟩⟩

omit [Fintype C] in
theorem Drives.trans {u : Client L} (h : Drives s t) (h' : Drives t u) : Drives s u := by
  obtain ⟨ms, hr⟩ := h
  obtain ⟨ms', hr'⟩ := h'
  exact ⟨ms ++ ms', (run_append _ _ _ _).mpr ⟨t, hr, hr'⟩⟩

theorem drives_keeps (hL : Live (L.guard mode) Good) (hfew : Fintype.card C < maxReaders)
    (hi : Inv mode s) (hg : Orderly Good s.sharedMutex) (h : Drives s t) :
    Inv mode t ∧ Orderly Good t.sharedMutex := by
  obtain ⟨ms, hr⟩ := h
  refine run_invariant (fun s => Inv mode s ∧ Orderly Good s.sharedMutex) ?_ hr ⟨hi, hg⟩
  rintro s m t ⟨hi, hg⟩ ht
  exact ⟨inv_move hi ht, orderly_move hL hfew hi hg ht⟩

omit [Fintype C] in
theorem drives_lock {ms : List L.Move} {m : L.State} (h : run L.move s.sharedMutex.mut_ ms = some m) :
    Drives s { s with sharedMutex := { s.sharedMutex with mut_ := m } } := by
  induction ms generalizing s with
  | nil =>
    obtain rfl := (run_nil _ _).mp h
    exact drives_refl s
  | cons b ms ih =>
    obtain ⟨m', hm', hr⟩ := (run_cons _ _ _ _).mp h
    have hstep : move s (.lock b) =
        some { s with sharedMutex := { s.sharedMutex with mut_ := m' } } := by
      simp [move, step, hm']
    have hrest : Drives { s with sharedMutex := { s.sharedMutex with mut_ := m' } } _ := ih hr
    exact drives_step _ hstep hrest

theorem works_of_step
    (h : ∃ u, step s.sharedMutex (.advance k false) = some u ∧ total u < total s.sharedMutex) :
    ∃ t, Drives s t ∧ work t < work s := by
  obtain ⟨u, hu, hlt⟩ := h
  have hstep : move s (.advance k false) = some { s with sharedMutex := u } := by simp [move, hu]
  exact ⟨_, drives_step _ hstep (drives_refl _), Nat.add_lt_add_right hlt _⟩

theorem works_of_holding (hL : Live (L.guard mode) Good) (hi : Inv mode s)
    (hg : Orderly Good s.sharedMutex) (hk : L.status s.sharedMutex.mut_ k = .holding) :
    ∃ t, Drives s t ∧ work t < work s := by
  have hunlock : ∃ m, L.unlock s.sharedMutex.mut_ k = some m :=
    hL.leaves _ k hi.sharedMutex.lock hg.lock ((Status.place_inside _).mpr hk)
  exact works_of_step (owner_steps hi.sharedMutex hk hunlock)

theorem works_of_leaving (hpc : s.sharedMutex.pc k = .idle) (hp : s.place k = .leaving) :
    ∃ t, Drives s t ∧ work t < work s := by
  have hstep : move s (.ret k) = some { s with place := Function.update s.place k .outside } := by
    simp [move, hpc, hp]
  refine ⟨_, drives_step _ hstep (drives_refl _), Nat.add_lt_add_left (Finset.card_lt_card ?_) _⟩
  refine (Finset.ssubset_iff_of_subset fun j hj => ?_).mpr ⟨k, by simp [hp], by simp⟩
  by_cases hjk : j = k
  · subst hjk
    simp at hj
  · simpa [hjk] using hj

omit [DecidableEq C] in
/-- When nobody can go on, everybody is out: those who slept would be asleep behind nobody. -/
theorem out_of_quiet (hi : Inv mode s) (hfew : Fintype.card C < maxReaders)
    (hg : Orderly Good s.sharedMutex) (hq : Quiet s.sharedMutex)
    (hret : ∀ k, s.sharedMutex.pc k = .idle → s.place k = .outside) : ∀ k, s.place k = .outside := by
  have hword := hi.sharedMutex.word
  obtain ⟨hstand, hsweep, hsignal, -⟩ := quiet_still hi.sharedMutex hq
  have hheld : ∀ k, Held s.sharedMutex k none := by
    intro k
    have hat := hi.places k
    obtain hpc | ⟨w, hpc, -⟩ := hq.clients k
    · rw [hret k hpc] at hat
      exact hat.2
    · cases hp : s.place k <;> simp [hp, At, hpc, Pc.Returns, Pc.Keeps, Pc.Releases] at hat
      exact hat.2
  have hholders : s.sharedMutex.holders = 0 := Finset.sum_eq_zero fun k _ => (hheld k).2
  have hreaders : ∀ c, ¬ Parked s.sharedMutex .readers c := by
    intro c hc
    obtain hcount | ⟨k, hk⟩ := hg.heeded.drained c (hstand c _ hc)
    · exact hcount ((holders_eq_readers hi.sharedMutex).symm.trans hholders)
    · exact hsignal k hk
  have hlow : ¬ 2 ^ 31 ≤ s.sharedMutex.state_ := by
    rw [hword.flag]
    rintro ⟨j, hex | hpast⟩
    · rw [(hheld j).1] at hex
      cases hex
    · obtain hpc | ⟨w, hw⟩ := hq.clients j
      · rw [hpc] at hpast
        exact hpast
      · rw [hw.1] at hpast
        cases w with
        | readers => exact hreaders j hw
        | writeEntered | maxReaders => exact hpast
  intro k
  obtain hpc | ⟨w, hw⟩ := hq.clients k
  · exact hret k hpc
  · cases w with
    | readers => exact absurd hw (hreaders k)
    | writeEntered =>
      obtain hflag | ⟨j, hj⟩ := hg.heeded.flagged k (hstand k _ hw)
      · exact absurd hflag hlow
      · exact absurd hj (hsweep j)
    | maxReaders =>
      obtain hcov | ⟨j, hj⟩ := hg.supplied k (hstand k _ hw)
      · exact absurd (flag_of_covered hi hfew hcov) hlow
      · exact absurd hj (hsweep j)

theorem works_of_idle (hL : Live (L.guard mode) Good) (hi : Inv mode s) (hg : Orderly Good s.sharedMutex)
    (hidle : ∀ k, L.status s.sharedMutex.mut_ k = .idle) (hk : s.sharedMutex.pc k ≠ .idle)
    (hsleep : ∀ w, ¬ Parked s.sharedMutex w k) : ∃ t, Drives s t ∧ work t < work s := by
  have hnot : ∀ j, j ≠ k → L.status s.sharedMutex.mut_ j ≠ .holding := fun j _ => by simp [hidle j]
  have hst := hi.sharedMutex.status k
  rw [hidle k] at hst
  cases hpc : s.sharedMutex.pc k with
  | idle => exact absurd hpc hk
  | returning =>
    refine works_of_step (k := k) ⟨s.sharedMutex.goto k .idle, by simp [step, advance, hpc, when, hidle k], ?_⟩
    refine total_goto hi.sharedMutex hnot rfl (fun _ _ _ => rfl) ?_
    simp [rank, goto_pc, hpc]
  | waiting w =>
    have hpk : (s.sharedMutex.gate w.gate).pc k ≠ .parked := fun hpk => hsleep w ⟨hpc, hpk⟩
    obtain ⟨m, hm⟩ : ∃ m, L.coLock s.sharedMutex.mut_ k = some m :=
      hL.enters _ k hi.sharedMutex.lock hg.lock ((Status.place_outside _).mpr (hidle k))
    refine works_of_step (k := k) ⟨{ s.sharedMutex with mut_ := m }.goto k (.waitLock w),
      by simp [step, advance, hpc, hpk, hidle k, lockStep, hm], ?_⟩
    refine total_goto hi.sharedMutex hnot rfl (fun _ _ _ => rfl) ?_
    simp [rank, goto_pc, hpc, hpk]
  | _ =>
    rw [hpc] at hst
    simp [StatusAt] at hst

theorem settles_or_works (hL : Live (L.guard mode) Good) (hfew : Fintype.card C < maxReaders)
    (hi : Inv mode s) (hg : Orderly Good s.sharedMutex) (hin : ∀ k, s.place k ≠ .inside) :
    ∃ t, Drives s t ∧ ((∃ k, t.place k = .inside) ∨ (∀ k, t.place k = .outside) ∨ work t < work s) := by
  by_cases hhold : ∃ k, L.status s.sharedMutex.mut_ k = .holding
  · obtain ⟨k, hk⟩ := hhold
    obtain ⟨t, ht, hlt⟩ := works_of_holding hL hi hg hk
    exact ⟨t, ht, .inr (.inr hlt)⟩
  -- `mut_` lets somebody in or comes to rest
  obtain ⟨ms, m, hr, hm⟩ : ∃ ms m, run L.move s.sharedMutex.mut_ ms = some m ∧
      ((∃ k, (L.status m k).place = .inside) ∨ ∀ k, (L.status m k).place = .outside) :=
    hL.settles _ hi.sharedMutex.lock hg.lock fun k hk =>
      hhold ⟨k, (Status.place_inside _).mp hk⟩
  have hdrive := drives_lock hr
  obtain ⟨hi', hg'⟩ := drives_keeps hL hfew hi hg hdrive
  have hworks : ∀ t, Drives { s with sharedMutex := { s.sharedMutex with mut_ := m } } t →
      work t < work { s with sharedMutex := { s.sharedMutex with mut_ := m } } →
      ∃ t, Drives s t ∧ ((∃ k, t.place k = .inside) ∨ (∀ k, t.place k = .outside) ∨ work t < work s) :=
    fun t ht hlt => ⟨t, hdrive.trans ht, .inr (.inr hlt)⟩
  obtain ⟨k, hk⟩ | hout := hm
  · obtain ⟨t, ht, hlt⟩ := works_of_holding hL hi' hg' ((Status.place_inside _).mp hk)
    exact hworks t ht hlt
  have hidle : ∀ k, L.status m k = .idle := fun k => (Status.place_outside _).mp (hout k)
  by_cases hawake : ∃ k, s.sharedMutex.pc k ≠ .idle ∧ ∀ w, ¬ Parked s.sharedMutex w k
  · obtain ⟨k, hk, hsleep⟩ := hawake
    obtain ⟨t, ht, hlt⟩ := works_of_idle hL hi' hg' hidle hk hsleep
    exact hworks t ht hlt
  by_cases hret : ∀ k, s.sharedMutex.pc k = .idle → s.place k = .outside
  · refine ⟨_, hdrive, .inr (.inl (out_of_quiet hi' hfew hg' ⟨fun k => ?_, fun k => ?_⟩ hret))⟩
    · simp [hidle k, Status.Owns]
    · by_cases hk : s.sharedMutex.pc k = .idle
      · exact .inl hk
      · refine .inr ?_
        by_contra hsleep
        exact hawake ⟨k, hk, not_exists.mp hsleep⟩
  -- a call is over whose client is still in it
  · push Not at hret
    obtain ⟨k, hpc, hp⟩ := hret
    cases hpk : s.place k with
    | outside => exact absurd hpk hp
    | inside => exact absurd hpk (hin k)
    | entering =>
      have hstep : move s (.ret k) = some { s with place := Function.update s.place k .inside } := by
        simp [move, hpc, hpk]
      exact ⟨_, drives_step _ hstep (drives_refl _), .inl ⟨k, Function.update_self ..⟩⟩
    | leaving =>
      obtain ⟨t, ht, hlt⟩ := works_of_leaving hpc hpk
      exact ⟨t, ht, .inr (.inr hlt)⟩

theorem settles (hL : Live (L.guard mode) Good) (hfew : Fintype.card C < maxReaders) (hi : Inv mode s)
    (hg : Orderly Good s.sharedMutex) :
    ∃ t, Drives s t ∧ ((∃ k, t.place k = .inside) ∨ ∀ k, t.place k = .outside) := by
  obtain ⟨n, hn⟩ : ∃ n, work s < n := ⟨_, Nat.lt_succ_self _⟩
  induction n generalizing s with
  | zero => exact absurd hn (Nat.not_lt_zero _)
  | succ n ih =>
    by_cases hin : ∃ k, s.place k = .inside
    · exact ⟨s, drives_refl s, .inl hin⟩
    · obtain ⟨t, ht, hk | hout | hlt⟩ := settles_or_works hL hfew hi hg (not_exists.mp hin)
      · exact ⟨t, ht, .inl hk⟩
      · exact ⟨t, ht, .inr hout⟩
      · obtain ⟨hi', hg'⟩ := drives_keeps hL hfew hi hg ht
        obtain ⟨u, hu, hend⟩ := ih hi' hg' (by omega)
        exact ⟨u, ht.trans hu, hend⟩

omit [DecidableEq C] [Fintype C] in
theorem idle_of_place (h : At (mode k) s.sharedMutex k (s.place k))
    (hp : s.place k = .outside ∨ s.place k = .inside) : s.sharedMutex.pc k = .idle := by
  obtain hp | hp := hp <;> rw [hp] at h <;> exact h.1

theorem enters (hL : Live (L.guard mode) Good) (hi : Inv mode s) (hg : Orderly Good s.sharedMutex)
    (hp : s.place k = .outside) : ∃ t, enter mode s k = some t := by
  have hpc := idle_of_place (hi.places k) (.inl hp)
  have hst := hi.sharedMutex.status k
  rw [hpc] at hst
  obtain ⟨m, hm⟩ : ∃ m, L.coLock s.sharedMutex.mut_ k = some m :=
    hL.enters _ k hi.sharedMutex.lock hg.lock ((Status.place_outside _).mpr hst)
  cases hmode : mode k <;> simp [enter, hp, hmode, step, hpc, lockStep, hm]

theorem leaves (hL : Live (L.guard mode) Good) (hi : Inv mode s) (hg : Orderly Good s.sharedMutex)
    (hp : s.place k = .inside) : ∃ t, leave mode s k = some t := by
  have hat := hi.places k
  have hpc := idle_of_place hat (.inr hp)
  have hst := hi.sharedMutex.status k
  rw [hpc] at hst
  obtain ⟨m, hm⟩ : ∃ m, L.coLock s.sharedMutex.mut_ k = some m :=
    hL.enters _ k hi.sharedMutex.lock hg.lock ((Status.place_outside _).mpr hst)
  rw [hp] at hat
  have hheld := hat.2
  cases hmode : mode k with
  | shared =>
    rw [hmode] at hheld
    have hone : s.sharedMutex.shared k = 1 := hheld.2
    simp [leave, hp, hmode, step, hpc, hone, lockStep, hm]
  | exclusive =>
    rw [hmode] at hheld
    have hex : s.sharedMutex.exclusive k = true := hheld.1
    simp [leave, hp, hmode, step, hpc, hex, lockStep, hm]

end Client

/-- With few clients the shared mutex leaves nobody stuck, if its `mut_` leaves nobody stuck. -/
theorem live (hL : Live (L.guard mode) Good) (hfew : Fintype.card C < maxReaders) :
    Live (guard L mode) fun s : Client L => Orderly Good s.sharedMutex where
  init := by
    refine ⟨hL.init, heeded_init, fun c hc => ?_⟩
    obtain ⟨hpc | hpc, -⟩ := hc <;> cases hpc
  enter _ _ _ hi hg h := Client.orderly_enter hL hfew hi hg h
  leave _ _ _ hi hg h := Client.orderly_leave hL hfew hi hg h
  move _ _ _ hi hg h := Client.orderly_move hL hfew hi hg h
  enters _ _ hi hg hp := Client.enters hL hi hg hp
  leaves _ _ hi hg hp := Client.leaves hL hi hg hp
  settles s hi hg _ := by
    obtain ⟨t, ⟨ms, hr⟩, ht⟩ := Client.settles hL hfew hi hg
    exact ⟨ms, t, hr, ht⟩

end LibCoro.SharedMutex
