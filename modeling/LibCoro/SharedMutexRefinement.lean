import LibCoro.RwLock
import LibCoro.SharedMutexExclusion

namespace LibCoro.SharedMutex

open Machine

variable {C : Type} {L : Lock C}

structure Represents (s : State L) (w : RwLock.State C) : Prop where
  queued : ∀ k, (s.pc k).PastFlag ↔ w.phase = .queued k
  entered : ∀ k, s.exclusive k = true ↔ w.phase = .entered k
  readers : w.readers = s.shared

/-- The steps that change who holds the lock, or waits for it with the flag set. -/
def emitRw (s : State L) : Act L → Option (RwLock.Event C)
  | .advance k _ =>
    match s.pc k with
    | .lockSetFlag => some (.announce k)
    | .lockDone => some (.enter k)
    | .trySet => some (.take k)
    | .unlockClear => some (.leave k)
    | .sharedIncrement => some (.share k)
    | .unsharedDecrement => some (.unshare k)
    | _ => none
  | _ => none

structure Stutters (s t : State L) : Prop where
  exclusive : t.exclusive = s.exclusive
  shared : t.shared = s.shared
  pastFlag : ∀ j, (t.pc j).PastFlag ↔ (s.pc j).PastFlag

theorem represents_init : Represents (init : State L) RwLock.init where
  queued k := by simp [init, Pc.PastFlag, RwLock.init]
  entered k := by simp [init, RwLock.init]
  readers := rfl

variable {s t : State L} {a : Act L} {w : RwLock.State C} {k : C}

theorem Stutters.represents (h : Stutters s t) (hw : Represents s w) : Represents t w where
  queued k := (h.pastFlag k).trans (hw.queued k)
  entered k := by
    rw [h.exclusive]
    exact hw.entered k
  readers := hw.readers.trans h.shared.symm

theorem Represents.writer (hw : Represents s w) : Writer s k ↔ w.phase.Taken k := by
  rw [Writer, hw.entered, hw.queued]
  exact or_comm

theorem Represents.free (hw : Represents s w) (hno : ∀ j, ¬ Writer s j) : w.phase = .free := by
  cases hp : w.phase with
  | free => rfl
  | queued k => exact absurd (hw.writer.mpr (.inl hp)) (hno k)
  | entered k => exact absurd (hw.writer.mpr (.inr hp)) (hno k)

variable [DecidableEq C]

theorem pastFlag_goto {u : State L} {p : Pc} (hu : u.pc = s.pc) (j : C) :
    ((u.goto k p).pc j).PastFlag ↔ if j = k then p.PastFlag else (s.pc j).PastFlag := by
  by_cases hj : j = k
  · subst hj
    simp [State.goto]
  · simp [State.goto, hj, hu]

theorem stutters_goto {u : State L} {p : Pc} (hu : u.pc = s.pc) (he : u.exclusive = s.exclusive)
    (hs : u.shared = s.shared) (hp : p.PastFlag ↔ (s.pc k).PastFlag) : Stutters s (u.goto k p) where
  exclusive := he
  shared := hs
  pastFlag j := by
    rw [pastFlag_goto hu]
    split_ifs with hj
    · rw [hj, hp]
    · rfl

theorem stutters_of_step (h : step s a = some t) (hq : emitRw s a = none) (ho : ∀ j, t.pc j ≠ .overlap) :
    Stutters s t := by
  have hlock : ∀ {k : C} {f : L.State → C → Option L.State} {p : L.State → Pc},
      lockStep s k f p = some t → (∀ m, (p m).PastFlag ↔ (s.pc k).PastFlag) → Stutters s t := by
    intro k f p hs hp
    obtain ⟨m, -, rfl⟩ := Option.map_eq_some_iff.mp hs
    exact stutters_goto rfl rfl rfl (hp m)
  have hgate : ∀ {k : C} {g : Gate} {b : ConditionVariable.Act C}
      {p : ConditionVariable.State C → Pc}, gateStep s g k b p = some t →
      (∀ v, (p v).PastFlag ↔ (s.pc k).PastFlag) → Stutters s t := by
    intro k g b p hs hp
    obtain ⟨v, -, rfl⟩ := Option.map_eq_some_iff.mp hs
    exact stutters_goto rfl rfl rfl (hp v)
  cases a with
  | coLock k | coLockShared k =>
    simp only [step] at h
    split_ifs at h with hpc
    exact hlock h (by simp [hpc, Pc.PastFlag])
  | unlock k | unlockShared k =>
    simp only [step] at h
    split_ifs at h with hpc
    exact hlock h (by simp [hpc.1, Pc.PastFlag])
  | tryLock k | tryLockShared k =>
    simp only [step] at h
    split_ifs at h with hpc
    refine hlock h fun m => ?_
    unfold tried
    split_ifs <;> simp [hpc, Pc.PastFlag]
  | move m =>
    obtain ⟨v, -, rfl⟩ := Option.map_eq_some_iff.mp h
    exact ⟨rfl, rfl, fun _ => Iff.rfl⟩
  | advance k spurious =>
    simp only [step] at h
    cases hpc : s.pc k with
    | idle | assertFailed | overlap => simp [advance, hpc] at h
    | lockSetFlag | lockDone | trySet | unlockClear | sharedIncrement | unsharedDecrement =>
      simp [emitRw, hpc] at hq
    | waitSuspend v =>
      simp only [advance, hpc] at h
      refine hgate h fun u => ?_
      split_ifs <;> cases v <;> simp [hpc, Pc.PastFlag]
    | notifyAll g | notifyOne g =>
      simp only [advance, hpc] at h
      exact hgate h (by simp [hpc, Pc.PastFlag])
    | waitTest v =>
      simp only [advance, hpc] at h
      split_ifs at h with hv
      · cases h
        refine stutters_goto rfl rfl rfl ?_
        cases v <;> simp [hpc, Pc.PastFlag, Wait.next]
      · refine hgate h fun u => ?_
        cases v <;> simp [hpc, Pc.PastFlag]
    | notifying g =>
      simp only [advance, hpc] at h
      split_ifs at h
      · cases h
        exact stutters_goto rfl rfl rfl (by simp [hpc, Pc.PastFlag])
      · exact hgate h (by simp [hpc, Pc.PastFlag])
    | waitUnlock v =>
      simp only [advance, hpc] at h
      split_ifs at h
      · refine hlock h fun m => ?_
        cases v <;> simp [hpc, Pc.PastFlag]
      · cases h
        exact absurd (by simp [State.goto]) (ho k)
    | waiting v =>
      simp only [advance, hpc] at h
      split_ifs at h
      · refine hlock h fun m => ?_
        cases v <;> simp [hpc, Pc.PastFlag]
      · cases h
        exact absurd (by simp [State.goto]) (ho k)
    | release =>
      simp only [advance, hpc] at h
      exact hlock h (by simp [hpc, Pc.PastFlag])
    | acquire op =>
      simp only [advance, hpc, when_eq_some] at h
      obtain ⟨-, rfl⟩ := h
      refine stutters_goto rfl rfl rfl ?_
      cases op <;> simp [hpc, Pc.PastFlag, Op.entry]
    | waitLock v =>
      simp only [advance, hpc, when_eq_some] at h
      obtain ⟨-, rfl⟩ := h
      refine stutters_goto rfl rfl rfl ?_
      cases v <;> simp [hpc, Pc.PastFlag]
    | returning =>
      simp only [advance, hpc, when_eq_some] at h
      obtain ⟨-, rfl⟩ := h
      exact stutters_goto rfl rfl rfl (by simp [hpc, Pc.PastFlag])
    | _ =>
      simp only [advance, hpc, Option.some.injEq] at h
      subst h
      refine stutters_goto rfl rfl rfl ?_
      try split_ifs
      all_goals simp [hpc, Pc.PastFlag]

theorem represents_writer {u : State L} {p : Pc} {phase : RwLock.Phase C} {b : Bool}
    (hw : Represents s w) (halone : ∀ j, j ≠ k → ¬ Writer s j) (hu : u.pc = s.pc)
    (hx : u.exclusive = Function.update s.exclusive k b) (hs : u.shared = s.shared)
    (hphase : phase = .free ∨ phase.Taken k) (hp : p.PastFlag ↔ phase = .queued k)
    (hb : b = true ↔ phase = .entered k) : Represents (u.goto k p) { w with phase := phase } := by
  have hother : ∀ j, j ≠ k → phase ≠ .queued j ∧ phase ≠ .entered j := by
    intro j hj
    obtain rfl | hk := hphase
    · simp
    · exact ⟨fun h => hj (hk.eq (.inl h)), fun h => hj (hk.eq (.inr h))⟩
  refine ⟨fun j => ?_, fun j => ?_, hw.readers.trans hs.symm⟩
  · rw [pastFlag_goto hu]
    split_ifs with hj
    · exact hj ▸ hp
    · exact iff_of_false (fun h => halone j hj (.inr h)) (hother j hj).1
  · rw [State.goto, hx]
    by_cases hj : j = k
    · subst hj
      simpa using hb
    · rw [Function.update_of_ne hj]
      exact iff_of_false (fun h => halone j hj (.inl h)) (hother j hj).2

theorem represents_reader {u : State L} {p : Pc} {n : Nat} (hw : Represents s w) (hu : u.pc = s.pc)
    (hx : u.exclusive = s.exclusive) (hs : u.shared = Function.update s.shared k n)
    (hp : p.PastFlag ↔ (s.pc k).PastFlag) :
    Represents (u.goto k p) { w with readers := Function.update w.readers k n } := by
  refine ⟨fun j => ?_, fun j => ?_, ?_⟩
  · rw [pastFlag_goto hu, ← hw.queued j]
    split_ifs with hj
    · rw [hj, hp]
    · rfl
  · rw [State.goto, hx]
    exact hw.entered j
  · rw [hw.readers]
    exact hs.symm

variable [Fintype C]

theorem represents_step {e : RwLock.Event C} (hi : Inv s) (hw : Represents s w)
    (h : step s a = some t) (he : emitRw s a = some e) :
    ∃ v, RwLock.step maxReaders w e = some v ∧ Represents t v := by
  have hcount : w.count = s.holders := by rw [RwLock.State.count, hw.readers, State.holders]
  have halone : ∀ k, Writer s k → ∀ j, j ≠ k → ¬ Writer s j :=
    fun k hk j hj hwj => hj (hi.word.unique j k hwj hk)
  cases a with
  | advance k spurious =>
    have hfact := hi.fact k
    simp only [step] at h
    simp only [emitRw] at he
    cases hpc : s.pc k with
    | lockSetFlag =>
      rw [hpc] at hfact he
      cases he
      simp only [advance, hpc, Option.some.injEq] at h
      subst h
      have hno : s.exclusive k = false := Bool.eq_false_iff.mpr fun hx => hfact k (.inl hx)
      refine ⟨_, if_pos (hw.free hfact), represents_writer (b := false) hw (fun j _ => hfact j) rfl ?_ rfl
        (.inr (.inl rfl)) (by simp [Pc.PastFlag]) (by simp)⟩
      rw [← hno, Function.update_eq_self]
    | lockDone =>
      rw [hpc] at hfact he
      cases he
      simp only [advance, hpc, Option.some.injEq] at h
      subst h
      have hk : (s.pc k).PastFlag := by simp [hpc, Pc.PastFlag]
      refine ⟨_, if_pos ⟨(hw.queued k).mp hk, hcount.trans hfact⟩, represents_writer (b := true) hw
        (halone k (.inr hk)) rfl rfl rfl (.inr (.inr rfl)) (by simp [Pc.PastFlag]) (by simp)⟩
    | trySet =>
      rw [hpc] at hfact he
      cases he
      simp only [advance, hpc, Option.some.injEq] at h
      subst h
      have hz : s.state_ = 0 := hfact
      have hno : ∀ j, ¬ Writer s j := no_writer hi (by omega)
      have hnone : w.count = 0 := by
        rw [hcount, holders_eq_readers hi, hz, readers_eq, Nat.zero_mod]
      refine ⟨_, if_pos ⟨hw.free hno, hnone⟩,
        represents_writer (b := true) hw (fun j _ => hno j) rfl rfl
        rfl (.inr (.inr rfl)) (by simp [Pc.PastFlag]) (by simp)⟩
    | unlockClear =>
      rw [hpc] at hfact he
      cases he
      simp only [advance, hpc, Option.some.injEq] at h
      subst h
      refine ⟨_, if_pos ((hw.entered k).mp hfact), represents_writer (b := false) hw
        (halone k (.inl hfact)) rfl rfl rfl (.inl rfl) (by simp [Pc.PastFlag]) (by simp)⟩
    | sharedIncrement =>
      rw [hpc] at hfact he
      cases he
      simp only [advance, hpc, Option.some.injEq] at h
      subst h
      have hlt : s.state_ < 2 ^ 31 - 1 := hfact
      have hno : ∀ j, ¬ Writer s j := no_writer hi (by omega)
      have hbound : w.count < maxReaders := by
        rw [hcount, holders_eq_readers hi, readers_eq, Nat.mod_eq_of_lt (by omega)]
        exact hfact
      exact ⟨_, if_pos ⟨hw.free hno, hbound⟩,
        represents_reader hw rfl rfl (by rw [hw.readers]) (by simp [hpc, Pc.PastFlag])⟩
    | unsharedDecrement =>
      rw [hpc] at hfact he
      cases he
      simp only [advance, hpc, Option.some.injEq] at h
      subst h
      have hpos : 0 < w.readers k := by
        rw [hw.readers]
        exact hfact
      exact ⟨_, if_pos hpos,
        represents_reader hw rfl rfl (by rw [hw.readers]) (by simp [hpc, Pc.PastFlag])⟩
    | _ => simp [hpc] at he
  | _ => cases he

theorem refines_run {as : List (Act L)} (h : run step init as = some s) :
    ∃ w, run (RwLock.step maxReaders) RwLock.init (trace step emitRw init as) = some w ∧
      Represents s w := by
  have hsim : ∀ (s : State L) (w : RwLock.State C) (a : Act L) (t : State L), Inv s ∧ Represents s w →
      step s a = some t → ∃ v, run (RwLock.step maxReaders) w (emitRw s a).toList = some v ∧
        Inv t ∧ Represents t v := by
    rintro s w a t ⟨hi, hw⟩ ht
    have hit : Inv t := inv_step s a t hi ht
    cases he : emitRw s a with
    | none =>
      have hq := stutters_of_step ht he fun j => ((excludes_of_inv hit).noAssert j).2
      exact ⟨w, rfl, hit, hq.represents hw⟩
    | some e =>
      obtain ⟨v, hv, hwv⟩ := represents_step hi hw ht he
      exact ⟨v, (run_cons w v e []).mpr ⟨v, hv, rfl⟩, hit, hwv⟩
  obtain ⟨w, hrun, -, hw⟩ := run_simulation (fun s w => Inv s ∧ Represents s w) hsim h
    ⟨inv_init, represents_init⟩
  exact ⟨w, hrun, hw⟩

/-- With either lock inside, the shared mutex is a lock for readers and writers in which the
next writer comes before all further readers: from the moment it sets the flag until it
releases the lock nobody else gets in, and it waits for just the readers that were there. Inside
it is alone. -/
theorem shared_mutex_refines_rwLock (kind : LockKind) (as : List (Act (kind.lock : Lock C)))
    (s : State (kind.lock : Lock C)) (h : run step init as = some s) :
    (∃ w, run (RwLock.step maxReaders) RwLock.init (trace step emitRw init as) = some w ∧
      Represents s w) ∧
    (∀ k, s.exclusive k = true → s.holders = 0) ∧
    ∀ es k fs, trace step emitRw init as = es ++ .announce k :: fs → .leave k ∉ fs →
      Writer s k ∧ (∀ e ∈ fs, e = .enter k ∨ ∃ j, e = .unshare j) ∧
        ∃ u, run (RwLock.step maxReaders) RwLock.init es = some u ∧
          u.count = s.holders + fs.countP RwLock.Event.unshares := by
  obtain ⟨w, hrun, hw⟩ := refines_run h
  have hcount : w.count = s.holders := by rw [RwLock.State.count, hw.readers, State.holders]
  refine ⟨⟨w, hrun, hw⟩, fun k hk => ?_, fun es k fs he hl => ?_⟩
  · exact hcount.symm.trans (RwLock.alone_of_run hrun ((hw.entered k).mp hk))
  rw [he] at hrun
  obtain ⟨hk, hfs, u, hu, hc⟩ := RwLock.writer_first hrun hl
  refine ⟨hw.writer.mpr hk, hfs, u, hu, ?_⟩
  rw [hc, hcount]

theorem shared_mutex_refines_rwLock_first :
    let as : List (Act ((LockKind.spinLock 4).lock : Lock (Fin 3))) :=
      [.coLockShared 0, .move (0 : Fin 3), .advance 0 false, .advance 0 false, .advance 0 false,
        .advance 0 false, .advance 0 false, .coLock 1, .move (1 : Fin 3), .advance 1 false,
        .advance 1 false, .advance 1 false, .advance 1 false, .advance 1 false, .advance 1 false,
        .advance 1 false, .advance 1 false, .advance 1 false, .tryLockShared 2, .advance 2 false,
        .advance 2 false, .advance 2 false, .unlockShared 0, .move (0 : Fin 3), .advance 0 false,
        .advance 0 false, .advance 0 false, .advance 0 false, .advance 0 false, .advance 0 false,
        .advance 0 false, .advance 0 false, .advance 0 false, .advance 0 false, .advance 0 false,
        .advance 0 false, .advance 0 false, .advance 0 false, .advance 0 false, .advance 0 false,
        .advance 1 false, .move (1 : Fin 3), .advance 1 false, .advance 1 false, .advance 1 false]
    ∃ s, run step init as = some s ∧
      trace step emitRw init as = [.share 0, .announce 1, .unshare 0, .enter 1] ∧ Writer s 1 ∧
      ∃ w, run (RwLock.step maxReaders) RwLock.init (trace step emitRw init as) = some w ∧
        Represents s w := by
  intro as
  have hrun : (run step init as).isSome = true := by decide +kernel
  obtain ⟨s, hs⟩ := Option.isSome_iff_exists.mp hrun
  have htrace : trace step emitRw init as = [.share 0, .announce 1, .unshare 0, .enter 1] := by
    decide +kernel
  have h := shared_mutex_refines_rwLock (.spinLock 4) as s hs
  exact ⟨s, hs, htrace, (h.2.2 [.share 0] 1 [.unshare 0, .enter 1] htrace (by decide)).1, h.1⟩

end LibCoro.SharedMutex
