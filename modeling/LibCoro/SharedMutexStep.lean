import LibCoro.SharedMutexInvariant

namespace LibCoro.SharedMutex

open Machine

variable {C : Type} {L : Lock C} [Fintype C]

theorem no_writer {s : State L} (hi : Inv s) (h : s.state_ < 2 ^ 31) (j : C) : ¬ Writer s j :=
  fun hj => absurd (hi.word.flag.mpr ⟨j, hj⟩) (Nat.not_le.mpr h)

theorem writeEntered_of_writer {s : State L} (hi : Inv s) {k : C} (hk : Writer s k) :
    writeEntered s.state_ = true :=
  (writeEntered_iff hi.word.bound).mpr (hi.word.flag.mpr ⟨k, hk⟩)

theorem holders_eq_readers {s : State L} (hi : Inv s) : s.holders = readers s.state_ := by
  rw [readers_eq, hi.word.count]

theorem shared_le_holders (s : State L) (k : C) : s.shared k ≤ s.holders :=
  Finset.single_le_sum (fun _ _ => Nat.zero_le _) (Finset.mem_univ k)

theorem fact_of_pred {s : State L} (hi : Inv s) (k : C) {w : Wait} (h : w.pred s.state_ = true) :
    Fact s k w.next := by
  cases w with
  | writeEntered =>
    have hne : ¬ writeEntered s.state_ = true := by simpa [Wait.pred] using h
    rw [writeEntered_iff hi.word.bound] at hne
    exact no_writer hi (Nat.not_le.mp hne)
  | readers =>
    have hz : readers s.state_ = 0 := by simpa [Wait.pred] using h
    exact (holders_eq_readers hi).trans hz
  | maxReaders =>
    have hlt : s.state_ < maxReaders := by simpa [Wait.pred] using h
    exact hlt

variable [DecidableEq C]

theorem inv_setFlag {s : State L} {k : C} (hi : Inv s) (hpc : s.pc k = .lockSetFlag)
    (hk : L.status s.mut_ k = .holding) (hg : ∀ g, (s.gate g).pc k = .idle) :
    Inv ({ s with state_ := s.state_ ||| writeEnteredFlag }.goto k .lockTestReaders) := by
  have hno : ∀ j, ¬ Writer s j := by
    have hf := hi.fact k
    rwa [hpc] at hf
  refine inv_wordStep hi hk rfl rfl rfl (fun _ _ => rfl) (fun _ _ => rfl) ?_ rfl hg (by simp) trivial
  refine word_setFlag (k := k) hi.word hno rfl rfl ?_ ?_
  · intro j
    by_cases hj : j = k
    · subst hj
      simp [Writer, State.goto, Pc.PastFlag]
    · simpa [Writer, State.goto, hj] using hno j
  · exact fun j hj => absurd (.inl hj) (hno j)

theorem inv_trySet {s : State L} {k : C} (hi : Inv s) (hpc : s.pc k = .trySet)
    (hk : L.status s.mut_ k = .holding) (hg : ∀ g, (s.gate g).pc k = .idle) :
    Inv ({ s with
      state_ := writeEnteredFlag
      exclusive := Function.update s.exclusive k true }.goto k .release) := by
  have hz : s.state_ = 0 := by
    have hf := hi.fact k
    rwa [hpc] at hf
  have hno := no_writer hi (by omega : s.state_ < 2 ^ 31)
  refine inv_wordStep hi hk rfl rfl rfl (fun j hj => Function.update_of_ne hj _ _) (fun _ _ => rfl) ?_
    rfl hg (by simp) trivial
  refine word_setFlag (k := k) hi.word hno ?_ rfl ?_ ?_
  · simp [State.goto, hz]
  · intro j
    by_cases hj : j = k
    · subst hj
      simp [Writer, State.goto]
    · simpa [Writer, State.goto, hj] using hno j
  · intro _ _
    simp [holders_eq_readers hi, readers_eq, hz]

theorem inv_lockDone {s : State L} {k : C} (hi : Inv s) (hpc : s.pc k = .lockDone)
    (hk : L.status s.mut_ k = .holding) (hg : ∀ g, (s.gate g).pc k = .idle) :
    Inv ({ s with exclusive := Function.update s.exclusive k true }.goto k .release) := by
  have hz : s.holders = 0 := by
    have hf := hi.fact k
    rwa [hpc] at hf
  refine inv_wordStep hi hk rfl rfl rfl (fun j hj => Function.update_of_ne hj _ _) (fun _ _ => rfl) ?_
    rfl hg (by simp) trivial
  refine word_congr hi.word rfl rfl ?_ ?_
  · intro j
    by_cases hj : j = k
    · subst hj
      simp [Writer, State.goto, hpc, Pc.PastFlag]
    · simp [Writer, State.goto, hj]
  · exact fun _ _ => hz

theorem inv_unlockClear {s : State L} {k : C} (hi : Inv s) (hpc : s.pc k = .unlockClear)
    (hk : L.status s.mut_ k = .holding) (hg : ∀ g, (s.gate g).pc k = .idle) :
    Inv ({ s with
      state_ := 0
      exclusive := Function.update s.exclusive k false }.goto k (.notifyAll .gate1)) := by
  have hex : s.exclusive k = true := by
    have hf := hi.fact k
    rwa [hpc] at hf
  refine inv_wordStep hi hk rfl rfl rfl (fun j hj => Function.update_of_ne hj _ _) (fun _ _ => rfl) ?_
    rfl hg (by simp) trivial
  refine word_clear hi.word hex rfl rfl fun j hj => ?_
  have hjk : j ≠ k := by
    rintro rfl
    simp [Writer, State.goto, Pc.PastFlag] at hj
  exact ⟨hjk, by simpa [Writer, State.goto, hjk] using hj⟩

theorem inv_sharedIncrement {s : State L} {k : C} (hi : Inv s) (hpc : s.pc k = .sharedIncrement)
    (hk : L.status s.mut_ k = .holding) (hg : ∀ g, (s.gate g).pc k = .idle) :
    Inv ({ s with
      state_ := increment s.state_
      shared := Function.update s.shared k (s.shared k + 1) }.goto k .release) := by
  have hlt : s.state_ < 2 ^ 31 - 1 := by
    have hf := hi.fact k
    rwa [hpc] at hf
  have hno := no_writer hi (by omega : s.state_ < 2 ^ 31)
  have hinc := increment_eq (n := s.state_) (by omega)
  refine inv_wordStep hi hk rfl rfl rfl (fun _ _ => rfl) (fun j hj => Function.update_of_ne hj _ _) ?_
    rfl hg (by simp) trivial
  apply word_count (k := k) (n := s.shared k + 1) hi.word
  · simp only [State.goto, hinc]
    omega
  · simp only [State.goto, hinc]
    omega
  · rfl
  · exact writer_goto (by simp [hpc, Pc.PastFlag]) _ rfl rfl
  · simp only [State.goto, hinc]
    omega
  · exact fun j hj => absurd (.inl hj) (hno j)

theorem inv_unsharedDecrement {s : State L} {k : C} {n : Nat} (hi : Inv s)
    (hpc : s.pc k = .unsharedDecrement) (hk : L.status s.mut_ k = .holding)
    (hg : ∀ g, (s.gate g).pc k = .idle)
    (hdec : 0 < s.state_ → s.state_ < 2 ^ 32 → n = s.state_ - 1) :
    Inv ({ s with
      state_ := n
      shared := Function.update s.shared k (s.shared k - 1) }.goto k (.unsharedTest s.state_)) := by
  have hpos : 0 < s.shared k := by
    have hf := hi.fact k
    rwa [hpc] at hf
  have hle := shared_le_holders s k
  have hc := hi.word.count
  have hb := hi.word.bound
  have hn : n = s.state_ - 1 := hdec (by omega) hb
  refine inv_wordStep hi hk rfl rfl rfl (fun _ _ => rfl) (fun j hj => Function.update_of_ne hj _ _) ?_
    rfl hg (by simp) trivial
  apply word_count (k := k) (n := s.shared k - 1) hi.word
  · simp only [State.goto, hn]
    omega
  · simp only [State.goto, hn]
    omega
  · rfl
  · exact writer_goto (by simp [hpc, Pc.PastFlag]) _ rfl rfl
  · simp only [State.goto, hn]
    omega
  · intro j hj
    have hz := hi.word.alone j hj
    omega

def Pc.Plain : Pc → Prop
  | .lockTest | .lockSetFlag | .lockTestReaders | .lockDone | .tryTest | .trySet | .unlockAssert
  | .unlockClear | .sharedTest | .sharedIncrement | .trySharedTest | .unsharedAssert
  | .unsharedDecrement | .unsharedTest _ | .unsharedTestReaders | .waitTest _ | .notifyAll _
  | .notifyOne _ | .release => True
  | _ => False

omit [Fintype C] [DecidableEq C] in
theorem plain_at {p : Pc} (hp : p.Plain) (st : Status) (g : Gate) (q : ConditionVariable.Pc C) :
    (StatusAt p st ↔ st = .holding) ∧ (GateAt p g q ↔ q = .idle) ∧ ∀ w, p ≠ .waiting w := by
  cases p <;> first | exact hp.elim | exact ⟨Iff.rfl, Iff.rfl, by simp⟩

theorem inv_plain {s : State L} {k : C} {p : Pc} (hi : Inv s) (hk : L.status s.mut_ k = .holding)
    (hg : ∀ g, (s.gate g).pc k = .idle) (hp : p.Plain) (hf : p.PastFlag ↔ (s.pc k).PastFlag)
    (hfact : Fact s k p) : Inv (s.goto k p) := by
  have hat := plain_at (C := C) hp
  refine inv_goto hi ((hat _ .gate1 .idle).1.mpr hk) (fun g => (hat .idle g _).2.1.mpr (hg g))
    (hat .idle .gate1 .idle).2.2 hf hfact

theorem inv_lockCall {s t : State L} {k : C} {f : L.State → C → Option L.State} {p : L.State → Pc}
    (hi : Inv s) (h : lockStep s k f p = some t) (hinv : ∀ m, f s.mut_ k = some m → L.Inv m)
    (hst : ∀ m, f s.mut_ k = some m → StatusAt (p m) (L.status m k) ∧
      ∀ j, j ≠ k → L.status m j = L.status s.mut_ j)
    (hp : ∀ m, f s.mut_ k = some m → (∀ g, GateAt (p m) g ((s.gate g).pc k)) ∧
      (∀ w, p m = .waiting w → (s.gate w.gate).pc k = .parked) ∧
      ((p m).PastFlag ↔ (s.pc k).PastFlag) ∧ Fact s k (p m)) : Inv t := by
  obtain ⟨m, hm, rfl⟩ := Option.map_eq_some_iff.mp h
  obtain ⟨hs, hother⟩ := hst m hm
  obtain ⟨hgate, hwait, hflag, hfact⟩ := hp m hm
  refine inv_lockStep hi (hinv m hm) hother hs hgate (fun w hw hidle => ?_) hflag hfact
  rw [hwait w hw] at hidle
  cases hidle

theorem inv_gateCall {s t : State L} {k : C} {g : Gate} {a : ConditionVariable.Act C}
    {p : ConditionVariable.State C → Pc} (hi : Inv s) (h : gateStep s g k a p = some t)
    (hk : L.status s.mut_ k = .holding) (ha : a.actor = k)
    (hp : ∀ v, ConditionVariable.step (s.gate g) a = some v → (v.pc k).Sound →
      StatusAt (p v) .holding ∧ GateAt (p v) g (v.pc k) ∧
      (∀ h, h ≠ g → GateAt (p v) h ((s.gate h).pc k)) ∧ (∀ w, p v ≠ .waiting w) ∧
      ((p v).PastFlag ↔ (s.pc k).PastFlag) ∧ Fact s k (p v)) : Inv t := by
  obtain ⟨v, hv, rfl⟩ := Option.map_eq_some_iff.mp h
  have hsound : (v.pc k).Sound := by
    obtain ⟨l, d, hvi⟩ := ConditionVariable.inv_step (hi.gates g)
      (ConditionVariable.oneSafe_of_fresh (hi.fresh g) a) hv
    exact hvi.sound k
  obtain ⟨hs, hgate, hgates, hwait, hflag, hfact⟩ := hp v hv hsound
  exact inv_gateStep hi hk ha hv hs hgate hgates hwait hflag hfact

end LibCoro.SharedMutex
