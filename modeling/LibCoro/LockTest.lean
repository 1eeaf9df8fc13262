import LibCoro.SharedMutexLive

namespace LibCoro.LockTest

open Machine Sections

variable {C σ ρ : Type}

inductive LockType where
  | mutex
  | spinLock (count : Int)
  | rwLock (count : Int)
  deriving DecidableEq, Repr

def LockType.guard [Fintype C] [DecidableEq C] (mode : C → Mode) : LockType → Guard mode
  | .mutex => LibCoro.mutex.guard mode
  | .spinLock count => (LibCoro.spinLock count).guard mode
  | .rwLock count => SharedMutex.guard (LibCoro.spinLock count) mode

/-- `lock_test` and `spinlock_test`: `i++` loads `i` and stores it. -/
def lockTest (C : Type) : Program (fun _ : C => .exclusive) Nat Nat where
  start := 0
  body _ := [fun x => (x.1, x.1), fun x => (x.2 + 1, x.2)]
  reads k h := by cases h

def stored : Pc ρ → Nat
  | .inside n _ => if 2 ≤ n then 1 else 0
  | .leaving => 1
  | _ => 0

theorem serial_lockTest (es : List C) : (lockTest C).serial 0 es = es.length := by
  induction es using List.reverseRecOn with
  | nil => rfl
  | append_singleton es k ih =>
    rw [Program.serial_snoc, ih, List.length_append]
    rfl

theorem exec_lockTest (k : C) (n m : Nat) :
    ((lockTest C).exec (((lockTest C).body k).take n) m).1 = m + (if 2 ≤ n then 1 else 0) ∧
      (1 ≤ n → ((lockTest C).exec (((lockTest C).body k).take n) m).2 = m) := by
  match n with
  | 0 | 1 | n + 2 => simp [lockTest, Program.exec]

variable [Fintype C] [DecidableEq C] {mode : C → Mode} {G : Guard (fun _ : C => Mode.exclusive)}
  {es : List C} {s : Sections.State G Nat Nat} {nRound : Nat}

theorem mem_lockTest (h : Serial (lockTest C) 0 es s) (hc : Counted nRound es s) :
    s.mem = ∑ k, (s.rounds k + stored (s.pc k)) := by
  have hlen := hc.length
  by_cases hin : ∃ k n r, s.pc k = .inside n r
  · obtain ⟨k, n, r, hk⟩ := hin
    have hmem : s.mem = es.length + (if 2 ≤ n then 1 else 0) := by
      have hx := congrArg Prod.fst (h.inside k n r hk)
      rwa [serial_lockTest, (exec_lockTest k n es.length).1] at hx
    -- nobody else is inside
    have hstored : ∀ j, stored (s.pc j) =
        (s.pc j).left + if j = k then (if 2 ≤ n then 1 else 0) else 0 := by
      intro j
      by_cases hj : j = k
      · subst hj
        simp [hk, stored, Pc.left]
      · cases hpj : s.pc j with
        | inside n' r' => cases (h.shared hpj (h.place_inside hk) hj).1
        | _ => simp [stored, Pc.left, hj]
    simp only [hstored, ← Nat.add_assoc]
    rw [Finset.sum_add_distrib, ← hlen, hmem]
    simp
  · have hmem : s.mem = es.length := by
      rw [h.still fun k n r hk => absurd ⟨k, n, r, hk⟩ hin, serial_lockTest]
    rw [hmem, hlen]
    refine Finset.sum_congr rfl fun k _ => ?_
    cases hpk : s.pc k with
    | inside n r => exact absurd ⟨k, n, r, hpk⟩ hin
    | _ => rfl

theorem mem_returned (h : Serial (lockTest C) 0 es s) (hc : Counted nRound es s)
    (hall : ∀ k, s.rounds k = nRound) : s.mem = Fintype.card C * nRound := by
  have hzero : ∀ k, s.rounds k + stored (s.pc k) = nRound := by
    intro k
    have hb := hc.busy k
    cases hpk : s.pc k with
    | head => exact hall k
    | _ => exact absurd (hall k) (Nat.ne_of_lt (hb (by simp [hpk])))
  rw [mem_lockTest h hc, Finset.sum_congr rfl fun k _ => hzero k]
  simp

/-- `i` does not get past what the test expects, so that an `int` is enough if that fits in one. -/
theorem mem_le (h : Serial (lockTest C) 0 es s) (hc : Counted nRound es s) :
    s.mem ≤ Fintype.card C * nRound := by
  have hle : ∀ k, s.rounds k + stored (s.pc k) ≤ nRound := by
    intro k
    cases hpk : s.pc k with
    | head => simpa [stored] using hc.head k hpk
    | entering | leaving =>
      have hlt := hc.busy k (by simp [hpk])
      simp only [stored]
      omega
    | inside n r =>
      have hlt := hc.busy k (by simp [hpk])
      simp only [stored]
      split_ifs <;> omega
  calc s.mem = ∑ k, (s.rounds k + stored (s.pc k)) := mem_lockTest h hc
    _ ≤ ∑ _k : C, nRound := Finset.sum_le_sum fun k _ => hle k
    _ = Fintype.card C * nRound := by simp

/-- The tests of the mutex and of the spin lock: what a coroutine loads is still there when it
stores, every increment counts, the test can always go on to its end, and there `i` is what
it expects. -/
theorem lock_test_counts (kind : LockKind) (nRound : Nat)
    (as : List (Sections.Act ((kind.lock : Lock C).guard fun _ => .exclusive)))
    (s : Sections.State ((kind.lock : Lock C).guard fun _ => .exclusive) Nat Nat)
    (h : run (Sections.step (lockTest C) nRound) (Sections.init _ 0) as = some s) :
    (∀ k r, s.pc k = .inside 1 r → r = s.mem) ∧
    s.mem = ∑ k, (s.rounds k + stored (s.pc k)) ∧ s.mem ≤ Fintype.card C * nRound ∧
    ((∀ k, s.rounds k = nRound) → s.mem = Fintype.card C * nRound) ∧
    ∃ bs t, run (Sections.step (lockTest C) nRound) s bs = some t ∧
      (∀ k, t.pc k = .head ∧ t.rounds k = nRound) ∧ t.mem = Fintype.card C * nRound := by
  obtain ⟨Good, hL⟩ := LockKind.live (C := C) kind fun _ => .exclusive
  have hlive := lively_run hL h
  refine ⟨fun k r hk => ?_, mem_lockTest hlive.serial hlive.counted,
    mem_le hlive.serial hlive.counted, mem_returned hlive.serial hlive.counted, ?_⟩
  · have hx := hlive.serial.inside k 1 r hk
    exact (congrArg Prod.snd hx).trans (congrArg Prod.fst hx).symm
  · obtain ⟨fs, t, hl, hend⟩ := completes hL hlive
    have ht := lively_leads hL hlive hl
    obtain ⟨bs, hr, -⟩ := hl
    exact ⟨bs, t, hr, hend, mem_returned ht.serial ht.counted fun k => (hend k).2⟩

theorem lock_test_counts_contended :
    let as : List (Sections.Act ((LockKind.mutex.lock : Lock (Fin 2)).guard fun _ => .exclusive)) :=
      [.begin 0, .begin 1, .advance 0, .advance 0, .move ((1, false) : Fin 2 × Bool),
        .move ((1, false) : Fin 2 × Bool), .move ((1, false) : Fin 2 × Bool), .advance 0, .advance 0,
        .move ((0, false) : Fin 2 × Bool), .move ((0, false) : Fin 2 × Bool),
        .move ((0, false) : Fin 2 × Bool), .move ((0, false) : Fin 2 × Bool),
        .move ((0, false) : Fin 2 × Bool), .advance 0, .advance 1, .advance 1]
    ∃ s, run (Sections.step (lockTest (Fin 2)) 1) (Sections.init _ 0) as = some s ∧
      s.pc 1 = .inside 1 s.mem ∧ s.mem = 1 ∧ ∃ bs t,
        run (Sections.step (lockTest (Fin 2)) 1) s bs = some t ∧
        (∀ k, t.pc k = .head ∧ t.rounds k = 1) ∧ t.mem = 2 := by
  intro as
  obtain ⟨s, hs⟩ : ∃ s, run (Sections.step (lockTest (Fin 2)) 1) (Sections.init _ 0) as = some s :=
    ⟨_, rfl⟩
  have hpc : ((run (Sections.step (lockTest (Fin 2)) 1) (Sections.init _ 0) as).map fun s =>
      (s.pc 1, s.mem)) = some (.inside 1 1, 1) := by rfl
  rw [hs] at hpc
  obtain ⟨h1, h2⟩ := Prod.mk.inj (Option.some.inj hpc)
  exact ⟨s, hs, by rw [h1, h2], h2, (lock_test_counts .mutex 1 as s hs).2.2.2.2⟩

/-- The `reader` and `writer` of the benchmark: one reads `gp->a`, the other writes it twice. -/
def benchmark (mode : C → Mode) : Program mode Nat Nat where
  start := 0
  body k :=
    match mode k with
    | .shared => [fun x => (x.1, x.1)]
    | .exclusive => [fun x => (0, x.2), fun x => (8, x.2)]
  reads k hk f hf x := by
    simp only [hk, List.mem_singleton] at hf
    rw [hf]

/-- Under each of the locks the sections might as well have been executed one after another in
the order of their ends: somebody inside sees what the sections before have left and what it
has done itself, and two that are inside at a time only read. -/
theorem sections_serial (type : LockType) (mode : C → Mode) (p : Program mode σ ρ) (m : σ) (nRound : Nat)
    (as : List (Sections.Act (type.guard mode))) (s : Sections.State (type.guard mode) σ ρ)
    (h : run (Sections.step p nRound) (Sections.init _ m) as = some s) :
    let es := trace (Sections.step p nRound) (Sections.emit p) (Sections.init (type.guard mode) m) as
    (∀ k n r, s.pc k = .inside n r → (s.mem, r) = p.exec ((p.body k).take n) (p.serial m es)) ∧
    ((∀ k n r, s.pc k = .inside n r → mode k = .shared) → s.mem = p.serial m es) ∧
    (∀ j k n r n' r', s.pc j = .inside n r → s.pc k = .inside n' r' → j ≠ k →
      mode j = .shared ∧ mode k = .shared) ∧
    ∀ k, es.count k = s.rounds k + (s.pc k).left := by
  have hs := serial_run h
  refine ⟨hs.inside, hs.still, fun j k n r n' r' hj hk hjk => ?_, (counted_run h).count⟩
  exact hs.shared hj (hs.place_inside hk) hjk

/-- The assertion of the benchmark's readers. -/
theorem benchmark_reads_eight (type : LockType) (mode : C → Mode) (nRound : Nat)
    (as : List (Sections.Act (type.guard mode))) (s : Sections.State (type.guard mode) Nat Nat)
    (h : run (Sections.step (benchmark mode) nRound) (Sections.init _ 8) as = some s) (k : C) (n r : Nat)
    (hk : mode k = .shared) (hin : s.pc k = .inside (n + 1) r) : r = 8 := by
  have height : ∀ es : List C, (benchmark mode).serial 8 es = 8 := by
    intro es
    induction es using List.reverseRecOn with
    | nil => rfl
    | append_singleton es j ih =>
      rw [Program.serial_snoc, ih]
      cases hj : mode j <;> simp [benchmark, Program.exec, hj]
  have hx := congrArg Prod.snd ((serial_run h).inside k (n + 1) r hin)
  rw [height] at hx
  simpa [benchmark, Program.exec, hk] using hx

theorem sections_serial_shared :
    let mode : Fin 3 → Mode := fun k => if k = 2 then .exclusive else .shared
    let advance : Fin 3 → Sections.Act (LockType.guard mode (.rwLock 4)) :=
      fun k => .move (SharedMutex.Move.advance k false)
    let lock : Fin 3 → Sections.Act (LockType.guard mode (.rwLock 4)) :=
      fun k => .move (SharedMutex.Move.lock k)
    let ret : Fin 3 → Sections.Act (LockType.guard mode (.rwLock 4)) :=
      fun k => .move (SharedMutex.Move.ret k)
    let as : List (Sections.Act (LockType.guard mode (.rwLock 4))) :=
      [.begin 2, lock 2] ++ List.replicate 7 (advance 2) ++ [ret 2] ++ List.replicate 4 (.advance 2) ++
        [lock 2] ++ List.replicate 10 (advance 2) ++ [ret 2, .advance 2] ++
        [.begin 0, lock 0] ++ List.replicate 5 (advance 0) ++ [ret 0, .advance 0, .advance 0] ++
        [.begin 1, lock 1] ++ List.replicate 5 (advance 1) ++ [ret 1, .advance 1, .advance 1]
    ∃ s, run (Sections.step (benchmark mode) 1) (Sections.init _ 7) as = some s ∧
      s.pc 0 = .inside 1 8 ∧ s.pc 1 = .inside 1 8 ∧ mode 0 = .shared ∧
      s.mem = (benchmark mode).serial 7 (trace (Sections.step (benchmark mode) 1)
        (Sections.emit (benchmark mode)) (Sections.init _ 7) as) := by
  intro mode advance lock ret as
  have hend : ((run (Sections.step (benchmark mode) 1) (Sections.init _ 7) as).map fun s =>
      (s.pc 0, s.pc 1, s.pc 2)) = some (.inside 1 8, .inside 1 8, .head) := by decide +kernel
  obtain ⟨s, hs, hpc⟩ := Option.map_eq_some_iff.mp hend
  simp only [Prod.mk.injEq] at hpc
  obtain ⟨h0, h1, h2⟩ := hpc
  obtain ⟨-, hstill, htwo, -⟩ := sections_serial (.rwLock 4) mode (benchmark mode) 7 1 as s hs
  refine ⟨s, hs, h0, h1, (htwo 0 1 1 8 1 8 h0 h1 (by decide)).1, hstill fun k n r hk => ?_⟩
  match k with
  | 0 | 1 => rfl
  | 2 =>
    rw [h2] at hk
    cases hk

theorem LockType.live (type : LockType) (mode : C → Mode)
    (hfew : ∀ count, type = .rwLock count → Fintype.card C < SharedMutex.maxReaders) :
    ∃ Good, Live (type.guard mode) Good := by
  cases type with
  | mutex => exact ⟨_, Mutex.live mode⟩
  | spinLock count => exact ⟨_, SpinLock.live count mode⟩
  | rwLock count => exact ⟨_, SharedMutex.live (SpinLock.live count mode) (hfew count rfl)⟩

/-- Under each of the locks nobody is left stuck: from every state all rounds can be brought to
their ends, where the memory is what they leave behind one after another. The shared mutex
needs fewer coroutines than it has slots for readers. -/
theorem sections_complete (type : LockType) (mode : C → Mode)
    (hfew : ∀ count, type = .rwLock count → Fintype.card C < SharedMutex.maxReaders)
    (p : Program mode σ ρ) (m : σ) (nRound : Nat) (as : List (Sections.Act (type.guard mode)))
    (s : Sections.State (type.guard mode) σ ρ)
    (h : run (Sections.step p nRound) (Sections.init _ m) as = some s) :
    ∃ bs t es, run (Sections.step p nRound) s bs = some t ∧ (∀ k, t.pc k = .head ∧ t.rounds k = nRound) ∧
      (∀ k, es.count k = nRound) ∧ t.mem = p.serial m es := by
  obtain ⟨Good, hL⟩ := type.live mode hfew
  have hlive := lively_run hL h
  obtain ⟨fs, t, hl, hend⟩ := completes hL hlive
  have ht := lively_leads hL hlive hl
  obtain ⟨bs, hr, -⟩ := hl
  refine ⟨bs, t, _, hr, hend, fun k => ?_, ht.serial.still fun k n r hk => ?_⟩
  · rw [ht.counted.count k, (hend k).1, (hend k).2]
    rfl
  · rw [(hend k).1] at hk
    cases hk

theorem sections_complete_sleeping :
    let mode : Fin 3 → Mode := fun k => if k = 2 then .exclusive else .shared
    let advance : Fin 3 → Sections.Act (LockType.guard mode (.rwLock 4)) :=
      fun k => .move (SharedMutex.Move.advance k false)
    let lock : Fin 3 → Sections.Act (LockType.guard mode (.rwLock 4)) :=
      fun k => .move (SharedMutex.Move.lock k)
    let ret : Fin 3 → Sections.Act (LockType.guard mode (.rwLock 4)) :=
      fun k => .move (SharedMutex.Move.ret k)
    let as : List (Sections.Act (LockType.guard mode (.rwLock 4))) :=
      [.begin 0, lock 0] ++ List.replicate 5 (advance 0) ++ [ret 0, .advance 0] ++
        [.begin 2, lock 2] ++ List.replicate 9 (advance 2) ++
        [.begin 1, lock 1] ++ List.replicate 7 (advance 1)
    ∃ s, run (Sections.step (benchmark mode) 1) (Sections.init _ 7) as = some s ∧
      SharedMutex.Parked (SharedMutex.Client.sharedMutex s.guard) .readers 2 ∧
      SharedMutex.Parked (SharedMutex.Client.sharedMutex s.guard) .maxReaders 1 ∧
      ∃ bs t es, run (Sections.step (benchmark mode) 1) s bs = some t ∧
        (∀ k, t.pc k = .head ∧ t.rounds k = 1) ∧ (∀ k, es.count k = 1) ∧
        t.mem = (benchmark mode).serial 7 es := by
  intro mode advance lock ret as
  have hend : ((run (Sections.step (benchmark mode) 1) (Sections.init _ 7) as).map fun s =>
      decide (SharedMutex.Parked (SharedMutex.Client.sharedMutex s.guard) .readers 2 ∧
        SharedMutex.Parked (SharedMutex.Client.sharedMutex s.guard) .maxReaders 1)) = some true := by
    decide +kernel
  obtain ⟨s, hs, hparked⟩ := Option.map_eq_some_iff.mp hend
  obtain ⟨hwriter, hreader⟩ := of_decide_eq_true hparked
  have hfew : Fintype.card (Fin 3) < SharedMutex.maxReaders := by
    simp [SharedMutex.maxReaders, SharedMutex.writeEnteredFlag]
  exact ⟨s, hs, hwriter, hreader,
    sections_complete (.rwLock 4) mode (fun _ _ => hfew) (benchmark mode) 7 1 as s hs⟩

end LibCoro.LockTest
