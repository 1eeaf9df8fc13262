import LibCoro.SharedMutexGates

namespace LibCoro.SharedMutex

open Machine
open ConditionVariable (Registered parked_of_registered registered_of_parked)

variable {C : Type} {L : Lock C} [Fintype C]

inductive Writes (s t : State L) (k : C) : Prop where
  | setFlag (pc : s.pc k = .lockSetFlag) (alone : ∀ j, ¬ Writer s j)
    (word : t.state_ = s.state_ + 2 ^ 31)
  | trySet (pc : s.pc k = .trySet) (alone : ∀ j, ¬ Writer s j) (word : t.state_ = 2 ^ 31)
  | clear (pc : s.pc k = .unlockClear) (holds : s.exclusive k = true)
    (next : t.pc k = .notifyAll .gate1)
  | increment (pc : s.pc k = .sharedIncrement) (room : s.state_ < maxReaders)
    (word : t.state_ = s.state_ + 1)
  | decrement (pc : s.pc k = .unsharedDecrement) (count : 0 < s.state_ % 2 ^ 31)
    (word : t.state_ = s.state_ - 1) (next : t.pc k = .unsharedTest s.state_)

/-- `unlockShared` frees a slot below the maximum only where no reader sleeps, or where more
readers are on their way back to `mut_` than there were free slots. -/
def Spares [DecidableEq C] (s : State L) : Act L → Prop
  | .advance k _ => s.pc k = .unsharedDecrement → s.state_ < maxReaders →
      (∃ c, Parked s .maxReaders c) →
      maxReaders < s.state_ + (Finset.univ.filter fun c => Woken s c).card
  | _ => True

structure Quiet (s : State L) : Prop where
  free : ∀ k, ¬ (L.status s.mut_ k).Owns
  clients : ∀ k, s.pc k = .idle ∨ ∃ w, Parked s w k

instance [DecidableEq C] (s : State L) : Decidable (Quiet s) :=
  decidable_of_iff ((∀ k, ¬ (L.status s.mut_ k).Owns) ∧ ∀ k, s.pc k = .idle ∨
      Parked s .writeEntered k ∨ Parked s .readers k ∨ Parked s .maxReaders k) <| by
    constructor
    · rintro ⟨hfree, hclients⟩
      refine ⟨hfree, fun k => ?_⟩
      obtain h | h | h | h := hclients k
      · exact .inl h
      all_goals exact .inr ⟨_, h⟩
    · rintro ⟨hfree, hclients⟩
      refine ⟨hfree, fun k => ?_⟩
      obtain h | ⟨w, h⟩ := hclients k
      · exact .inl h
      · cases w <;> simp [h]

instance [DecidableEq C] (s : State L) (a : Act L) : Decidable (Spares s a) := by
  cases a <;> unfold Spares <;> infer_instance

def Tested (s : State L) : Prop := ∀ k w, s.pc k = .waitSuspend w → w.pred s.state_ = false

def Flagged (s : State L) : Prop :=
  ∀ c, Standing s .writeEntered c → 2 ^ 31 ≤ s.state_ ∨ ∃ k, Sweeps s .gate1 k

/-- While a writer stands at the second gate, there are readers or it is being woken. -/
def Drained (s : State L) : Prop :=
  ∀ c, Standing s .readers c → readers s.state_ ≠ 0 ∨ ∃ k, Signals s k

/-- There are no more free slots than readers on their way to one. -/
def Covered (s : State L) : Prop :=
  ∃ W : Finset C, (∀ c ∈ W, Serves s c) ∧ maxReaders ≤ s.state_ + W.card

def Supplied (s : State L) : Prop :=
  ∀ c, Standing s .maxReaders c → Covered s ∨ ∃ k, Sweeps s .gate1 k

variable {s t : State L} {j k c : C} {w : Wait} {g : Gate}

theorem holding_of_sweeps (hi : Inv s) (hk : Sweeps s .gate1 k) : L.status s.mut_ k = .holding := by
  have hst := hi.status k
  obtain hpc | ⟨hpc, -⟩ := hk <;> rw [hpc] at hst <;> exact hst

theorem holding_of_picks (hi : Inv s) (hk : Picks s g k) : L.status s.mut_ k = .holding := by
  have hst := hi.status k
  obtain hpc | ⟨hpc, -⟩ := hk <;> rw [hpc] at hst <;> exact hst

omit [Fintype C] in
theorem not_sweeps_of_picks (hk : Picks s g k) : ¬ Sweeps s g k := by
  obtain hpc | ⟨hpc, hpick⟩ := hk
  · simp [Sweeps, hpc]
  · rintro (hpc' | ⟨-, hsweep⟩)
    · simp [hpc] at hpc'
    · cases hq : (s.gate g).pc k <;>
        simp [hq, ConditionVariable.Pc.Picking, ConditionVariable.Pc.Sweeping] at hpick hsweep

theorem holding_of_writes (hi : Inv s) (hw : Writes s t k) : L.status s.mut_ k = .holding := by
  have hst := hi.status k
  cases hw with
  | setFlag pc | trySet pc | clear pc | increment pc | decrement pc =>
    rw [pc] at hst
    exact hst

theorem holder_unique (hi : Inv s) (hj : L.status s.mut_ j = .holding)
    (hk : L.status s.mut_ k = .holding) : j = k :=
  L.exclusive s.mut_ j k hi.lock (.inl hj) (.inl hk)

theorem standing_of_registered (hi : Inv s) (hc : Registered (s.gate g) c) :
    ∃ w, w.gate = g ∧ Standing s w c := by
  obtain ⟨w, rfl, hpc⟩ := waiter_of_parked hi (parked_of_registered (hi.gates g) hc)
  exact ⟨w, rfl, hpc, hc⟩

variable [DecidableEq C] {a : Act L}

theorem writes_of_step (hi : Inv s) (h : step s a = some t) :
    t.state_ = s.state_ ∨ ∃ k, a.actor = some k ∧ Writes s t k := by
  cases hk : a.actor with
  | none =>
    cases a with
    | move m => exact .inl (still_of_move h).2.2
    | _ => cases hk
  | some k =>
    obtain ⟨-, hword, hflow⟩ := moves_of_step h hk
    have hfact := hi.fact k
    have hb := hi.word.bound
    cases hpc : s.pc k with
    | lockSetFlag =>
      rw [hpc] at hword hfact
      have hlt : s.state_ < 2 ^ 31 := by
        by_contra hge
        obtain ⟨j, hj⟩ := hi.word.flag.mp (Nat.not_lt.mp hge)
        exact hfact j hj
      exact .inr ⟨k, rfl, .setFlag hpc hfact (hword.trans (or_flag hlt))⟩
    | trySet =>
      rw [hpc] at hword hfact
      have hz : s.state_ = 0 := hfact
      exact .inr ⟨k, rfl, .trySet hpc (no_writer hi (by omega)) hword⟩
    | unlockClear =>
      rw [hpc] at hfact hflow
      have hnext : t.pc k = .notifyAll .gate1 := by
        revert hflow
        cases t.pc k <;> simp [Flows]
      exact .inr ⟨k, rfl, .clear hpc hfact hnext⟩
    | sharedIncrement =>
      rw [hpc] at hword hfact
      have hlt : s.state_ < 2 ^ 31 - 1 := hfact
      exact .inr ⟨k, rfl, .increment hpc hfact (hword.trans (increment_eq (by omega)))⟩
    | unsharedDecrement =>
      rw [hpc] at hword hfact hflow
      have hpos : 0 < s.state_ % 2 ^ 31 := by
        rw [hi.word.count]
        exact Nat.lt_of_lt_of_le hfact (shared_le_holders s k)
      have hnext : t.pc k = .unsharedTest s.state_ := by
        revert hflow
        cases t.pc k <;> simp [Flows]
      exact .inr ⟨k, rfl, .decrement hpc hpos (hword.trans (decrement_eq (by omega) hb)) hnext⟩
    | _ =>
      rw [hpc] at hword
      exact .inl hword

theorem tested_step (hi : Inv s) (ht : Tested s) (h : step s a = some t) : Tested t := by
  intro k w hpc
  by_cases hk : a.actor = some k
  · have hmoves := moves_of_step h hk
    have hflow := hmoves.flow
    have hword := hmoves.word
    rw [hpc] at hflow
    obtain hfrom | ⟨hfrom, hpred⟩ := hflow
    · rw [hfrom] at hword
      rw [hword]
      exact ht k w hfrom
    · rw [hfrom] at hword
      rw [hword]
      exact hpred
  · rw [pc_of_step h hk] at hpc
    obtain hword | ⟨j, hj, hwr⟩ := writes_of_step hi h
    · rw [hword]
      exact ht k w hpc
    · have hst := hi.status k
      rw [hpc] at hst
      rw [holder_unique hi (holding_of_writes hi hwr) hst] at hj
      exact absurd hj hk

omit [Fintype C] in
theorem word_of_suspend (h : step s a = some t) (hact : a.actor = some c)
    (hpc : s.pc c = .waitSuspend w) : t.state_ = s.state_ := by
  have hword := (moves_of_step h hact).word
  rwa [hpc] at hword

theorem flagged_step (hi : Inv s) (ht : Tested s) (hf : Flagged s) (h : step s a = some t) :
    Flagged t := by
  intro c hc
  obtain hold | ⟨hact, hpc⟩ := standing_step hi h hc
  · obtain hflag | ⟨k, hk⟩ := hf c hold
    · obtain hword | ⟨k, -, hwr⟩ := writes_of_step hi h
      · exact .inl (hword ▸ hflag)
      · cases hwr with
        | setFlag pc alone word => exact .inl (by omega)
        | trySet pc alone word => exact .inl (by omega)
        | clear pc holds next => exact .inr ⟨k, .inl next⟩
        | increment pc room word => exact .inl (by omega)
        | decrement pc count word next => exact .inl (by omega)
    · obtain hk | hnone := sweeps_step hi h hk
      · exact .inr ⟨k, hk⟩
      · exact absurd hc.2 (hnone c)
  · have hpred := ht c _ hpc
    have hflag : writeEntered s.state_ = true := by simpa [Wait.pred] using hpred
    rw [word_of_suspend h hact hpc]
    exact .inl ((writeEntered_iff hi.word.bound).mp hflag)

omit [Fintype C] [DecidableEq C] in
theorem writer_of_standing (hc : Standing s .readers c) : Writer s c := by
  obtain ⟨hpc | hpc, -⟩ := hc <;> exact .inr (by rw [hpc]; trivial)

theorem signals_step (hi : Inv s) (h : step s a = some t) (hk : Signals s k) :
    Signals t k ∨ readers t.state_ ≠ 0 ∨ ∀ c, ¬ Standing t .readers c := by
  by_cases hact : a.actor = some k
  · -- the step is not the one with which a writer registers
    have hold : s.pc k ≠ .waitSuspend .readers → ∀ c, Standing t .readers c → Standing s .readers c := by
      intro hpc c hc
      obtain hold | ⟨hact', hsusp⟩ := standing_step hi h hc
      · exact hold
      · rw [hact] at hact'
        cases hact'
        exact absurd hsusp hpc
    obtain ⟨prev, hpc⟩ | hpc | hpick := hk
    · obtain ⟨spurious, rfl⟩ := advance_of_step h hact (by simp [hpc])
      by_cases hflag : writeEntered s.state_ = true
      · simp only [step, advance, hpc, Option.some.injEq] at h
        subst h
        exact .inl (.inr (.inl (by simp [State.goto, hflag])))
      · refine .inr (.inr fun c hc => hflag ?_)
        exact writeEntered_of_writer hi (writer_of_standing (hold (by simp [hpc]) c hc))
    · obtain ⟨spurious, rfl⟩ := advance_of_step h hact (by simp [hpc])
      simp only [step, advance, hpc, Option.some.injEq] at h
      subst h
      by_cases hzero : readers s.state_ = 0
      · exact .inl (.inr (.inr (.inl (by simp [State.goto, hzero]))))
      · exact .inr (.inl hzero)
    · obtain hnext | hnone | ⟨b, hb, hb'⟩ := picks_step hi h hpick
      · exact .inl (.inr (.inr hnext))
      · exact .inr (.inr fun c hc => hnone c hc.2)
      · refine .inr (.inr fun c hc => hb' ?_)
        have hpc : s.pc k ≠ .waitSuspend .readers := by
          obtain hpc | ⟨hpc, -⟩ := hpick <;> simp [hpc]
        obtain ⟨w, hw, hbw⟩ := standing_of_registered hi hb
        cases w with
        | readers =>
          have hbc := hi.word.unique b c (writer_of_standing hbw)
            (writer_of_standing (hold hpc c hc))
          exact hbc ▸ hc.2
        | writeEntered | maxReaders => cases hw
  · left
    have hpc := pc_of_step h hact
    obtain hk | hk | hpick := hk
    · exact .inl (hpc ▸ hk)
    · exact .inr (.inl (hpc.trans hk))
    · exact .inr (.inr (picks_frame hi h hact hpick))

theorem drained_step (hi : Inv s) (ht : Tested s) (hd : Drained s) (h : step s a = some t) :
    Drained t := by
  intro c hc
  obtain hold | ⟨hact, hpc⟩ := standing_step hi h hc
  · have hwriter := writer_of_standing hold
    obtain hcount | ⟨k, hk⟩ := hd c hold
    · obtain hword | ⟨k, -, hwr⟩ := writes_of_step hi h
      · exact .inl (hword ▸ hcount)
      · cases hwr with
        | setFlag pc alone word | trySet pc alone word => exact absurd hwriter (alone c)
        | clear pc holds next =>
          obtain rfl := hi.word.unique c k hwriter (.inl holds)
          obtain ⟨hpc | hpc, -⟩ := hold <;> simp [hpc] at pc
        | increment pc room word =>
          have hlt : s.state_ < 2 ^ 31 - 1 := room
          exact absurd hwriter (no_writer hi (by omega) c)
        | decrement pc count word next => exact .inr ⟨k, .inl ⟨_, next⟩⟩
    · obtain hk | hcount | hnone := signals_step hi h hk
      · exact .inr ⟨k, hk⟩
      · exact .inl hcount
      · exact absurd hc (hnone c)
  · have hpred := ht c _ hpc
    rw [word_of_suspend h hact hpc]
    exact .inl (by simpa [Wait.pred] using hpred)

theorem serves_frame (hi : Inv s) (h : step s a = some t) (hact : a.actor ≠ some c)
    (hc : Serves s c) : Serves t c := by
  have hpc := pc_of_step h hact
  obtain (⟨hsleep, hr⟩ | harr) | htest | hpick := hc
  · refine .inl (.inl ⟨?_, fun hr' => hr ((gate_frame hi h hact .gate1).1 hr')⟩)
    rwa [hpc]
  · exact .inl (.inr (by rwa [hpc]))
  · exact .inr (.inl (hpc.trans htest))
  · exact .inr (.inr (picks_frame hi h hact hpick))

theorem arrives_step (hi : Inv s) (h : step s a = some t) (hact : a.actor = some k)
    (hk : Arrives s k) : Arrives t k ∨ maxReaders ≤ t.state_ ∨ t.state_ = s.state_ + 1 := by
  have hbusy : s.pc k ≠ .idle := by
    obtain ⟨hpc | hpc, -⟩ | hpc | hpc | hpc := hk <;> simp [hpc]
  obtain ⟨spurious, rfl⟩ := advance_of_step h hact hbusy
  have hstep := h
  simp only [step] at h
  obtain ⟨hpc | hpc, hr⟩ | hpc | hpc | hpc := hk
  · have hpk := hi.gateAt k Wait.maxReaders.gate
    rw [hpc, GateAt, if_pos rfl] at hpk
    simp only [advance, hpc, hpk, if_true] at h
    obtain ⟨m, -, rfl⟩ := Option.map_eq_some_iff.mp h
    exact .inl (.inl ⟨.inr (by simp [State.goto]), hr⟩)
  · have hcalm := hi.gateAt k Wait.maxReaders.gate
    rw [hpc, GateAt, if_pos rfl] at hcalm
    simp only [advance, hpc] at h
    split_ifs at h with hpk hidle
    · obtain ⟨m, -, rfl⟩ := Option.map_eq_some_iff.mp h
      exact .inl (.inr (.inl (by simp [State.goto])))
    · exact absurd (hi.awake k .maxReaders hpc (hcalm.resolve_right hpk)) hidle
  · simp only [advance, hpc, when_eq_some] at h
    obtain ⟨-, rfl⟩ := h
    exact .inl (.inr (.inr (.inl (by simp [State.goto]))))
  · simp only [advance, hpc] at h
    split_ifs at h with hpred
    · cases h
      exact .inl (.inr (.inr (.inr (by simp [State.goto, Wait.next]))))
    · have hfull : maxReaders ≤ s.state_ := by simpa [Wait.pred] using hpred
      obtain ⟨v, -, rfl⟩ := Option.map_eq_some_iff.mp h
      exact .inr (.inl hfull)
  · obtain ⟨-, hword, -⟩ := moves_of_step hstep hact
    have hlt : s.state_ < 2 ^ 31 - 1 := by
      have hf := hi.fact k
      rwa [hpc] at hf
    rw [hpc] at hword
    exact .inr (.inr (hword.trans (increment_eq (by omega))))

omit [DecidableEq C] in
theorem max_le_of_flag (hi : Inv s) (hf : writeEntered s.state_ = true) : maxReaders ≤ s.state_ := by
  have hge := (writeEntered_iff hi.word.bound).mp hf
  have hmax : maxReaders = 2 ^ 31 - 1 := rfl
  omega

theorem serves_step (hi : Inv s) (h : step s a = some t) (hact : a.actor = some k)
    (hk : Serves s k) :
    Serves t k ∨ maxReaders ≤ t.state_ ∨ t.state_ = s.state_ + 1 ∨
      (Picks s .gate1 k ∧ ((∀ c, ¬ Registered (t.gate .gate1) c) ∨
        ∃ b, Registered (s.gate .gate1) b ∧ ¬ Registered (t.gate .gate1) b)) := by
  obtain harr | hpc | hpick := hk
  · obtain hnext | hfull | hword := arrives_step hi h hact harr
    · exact .inl (.inl hnext)
    · exact .inr (.inl hfull)
    · exact .inr (.inr (.inl hword))
  · obtain ⟨spurious, rfl⟩ := advance_of_step h hact (by simp [hpc])
    simp only [step, advance, hpc, Option.some.injEq] at h
    by_cases hflag : writeEntered s.state_ = true
    · have hfull := max_le_of_flag hi hflag
      subst h
      exact .inr (.inl hfull)
    · subst h
      exact .inl (.inr (.inr (.inl (by simp [State.goto, hflag]))))
  · obtain hnext | hout := picks_step hi h hpick
    · exact .inl (.inr (.inr hnext))
    · exact .inr (.inr (.inr ⟨hpick, hout⟩))

omit [Fintype C] [DecidableEq C] in
theorem covered_of_full (h : maxReaders ≤ s.state_) : Covered s := ⟨∅, by simp, by simpa using h⟩

omit [Fintype C] [DecidableEq C] in
theorem not_serves_of_standing (hc : Standing s .maxReaders c) : ¬ Serves s c := by
  obtain ⟨hpc | hpc, hr⟩ := hc
  all_goals
    rintro ((⟨-, hr'⟩ | harr | harr | harr) | htest | hpick | ⟨hpick, -⟩)
    · exact hr' hr
    all_goals simp_all

omit [Fintype C] in
theorem serves_of_taken {b : C} (h : step s a = some t) (hact : a.actor ≠ some b)
    (hb : Standing s .maxReaders b) (hb' : ¬ Registered (t.gate .gate1) b) : Serves t b := by
  refine .inl (.inl ⟨?_, hb'⟩)
  rw [pc_of_step h hact]
  exact hb.1

/-- A step that leaves the word alone leaves as many on their way, or finds no slot free. -/
theorem covered_still (hi : Inv s) (hf : Flagged s) (h : step s a = some t)
    (hword : t.state_ = s.state_) (hc : Standing t .maxReaders c) (hs : Covered s) : Covered t := by
  obtain ⟨W, hW, hcard⟩ := hs
  by_cases hall : ∀ b ∈ W, Serves t b
  · exact ⟨W, hall, hword ▸ hcard⟩
  · push Not at hall
    obtain ⟨k, hk, hkt⟩ := hall
    have hact : a.actor = some k := by
      by_contra hact
      exact hkt (serves_frame hi h hact (hW k hk))
    obtain hk' | hfull | hinc | ⟨hpick, hnone | ⟨b, hb, hb'⟩⟩ := serves_step hi h hact (hW k hk)
    · exact absurd hk' hkt
    · exact covered_of_full hfull
    · omega
    · exact absurd hc.2 (hnone c)
    · -- `k` took the awaiter `b`, which is on its way in its place
      obtain ⟨w, hw, hbw⟩ := standing_of_registered hi hb
      cases w with
      | readers => cases hw
      | writeEntered =>
        obtain hflag | ⟨j, hj⟩ := hf b hbw
        · refine covered_of_full ?_
          rw [hword]
          exact max_le_of_flag hi ((writeEntered_iff hi.word.bound).mpr hflag)
        · obtain rfl := holder_unique hi (holding_of_sweeps hi hj) (holding_of_picks hi hpick)
          exact absurd hj (not_sweeps_of_picks hpick)
      | maxReaders =>
        have hbk : a.actor ≠ some b := by
          intro hbk
          rw [hact] at hbk
          cases hbk
          exact not_serves_of_standing hbw (hW k hk)
        have hbW : b ∉ W.erase k := fun hm =>
          not_serves_of_standing hbw (hW b (Finset.mem_of_mem_erase hm))
        refine ⟨insert b (W.erase k), fun e he => ?_, ?_⟩
        · obtain rfl | he := Finset.mem_insert.mp he
          · exact serves_of_taken h hbk hbw hb'
          · obtain ⟨hek, heW⟩ := Finset.mem_erase.mp he
            refine serves_frame hi h (fun hae => hek ?_) (hW e heW)
            rw [hact] at hae
            exact (Option.some.inj hae).symm
        · rw [Finset.card_insert_of_notMem hbW, Finset.card_erase_add_one hk, hword]
          exact hcard

/-- A release below the maximum is covered by readers that were woken before. -/
theorem covered_of_woken (hi : Inv s) (h : step s a = some t) (hact : a.actor = some k)
    (hpc : s.pc k = .unsharedDecrement) (hword : t.state_ = s.state_ - 1)
    (hcard : maxReaders < s.state_ + (Finset.univ.filter fun c => Woken s c).card) : Covered t := by
  refine ⟨Finset.univ.filter fun c => Woken s c, fun b hb => ?_, by omega⟩
  have hbk : a.actor ≠ some b := by
    intro hab
    rw [hact] at hab
    cases hab
    obtain ⟨hpc', -⟩ | hpc' := (Finset.mem_filter.mp hb).2 <;> simp [hpc] at hpc'
  have hsame := pc_of_step h hbk
  obtain ⟨hpc', hidle⟩ | hpc' := (Finset.mem_filter.mp hb).2
  · refine .inl (.inl ⟨.inr (hsame.trans hpc'), fun hr => ?_⟩)
    have hpk := parked_of_registered (hi.gates .gate1) ((gate_frame hi h hbk .gate1).1 hr)
    rw [hidle] at hpk
    cases hpk
  · exact .inl (.inr (.inl (hsame.trans hpc')))

omit [DecidableEq C] in
theorem parked_of_standing (hi : Inv s) (hk : L.status s.mut_ k = .holding) (hck : c ≠ k)
    (hc : Standing s w c) : Parked s w c := by
  obtain ⟨hpc | hpc, hr⟩ := hc
  · have hst := hi.status c
    rw [hpc] at hst
    exact absurd (holder_unique hi hst hk) hck
  · exact ⟨hpc, parked_of_registered (hi.gates w.gate) hr⟩

theorem covered_written (hi : Inv s) (h : step s a = some t) (hact : a.actor = some k)
    (hwr : Writes s t k) (hsp : Spares s a) (hc : Standing s .maxReaders c) (hs : Covered s) :
    Covered t ∨ ∃ k, Sweeps t .gate1 k := by
  have hmax : maxReaders = 2 ^ 31 - 1 := rfl
  have hhold := holding_of_writes hi hwr
  cases hwr with
  | setFlag pc alone word | trySet pc alone word => exact .inl (covered_of_full (by omega))
  | clear pc holds next => exact .inr ⟨k, .inl next⟩
  | increment pc room word =>
    obtain ⟨W, hW, hcard⟩ := hs
    refine .inl ⟨W.erase k, fun b hb => ?_, ?_⟩
    · obtain ⟨hbk, hbW⟩ := Finset.mem_erase.mp hb
      refine serves_frame hi h (fun hab => hbk ?_) (hW b hbW)
      rw [hact] at hab
      exact (Option.some.inj hab).symm
    · have hle := Finset.pred_card_le_card_erase (s := W) (a := k)
      omega
  | decrement pc count word next =>
    by_cases hge : 2 ^ 31 ≤ s.state_
    · exact .inl (covered_of_full (by omega))
    · by_cases heq : s.state_ = maxReaders
      · refine .inl ⟨{k}, ?_, ?_⟩
        · simp [Serves, next, heq]
        · simp
          omega
      · obtain ⟨spurious, rfl⟩ := advance_of_step h hact (by simp [pc])
        have hck : c ≠ k := by
          rintro rfl
          obtain ⟨hpc | hpc, -⟩ := hc <;> simp [pc] at hpc
        have hcard := hsp pc (by omega) ⟨c, parked_of_standing hi hhold hck hc⟩
        exact .inl (covered_of_woken hi h hact pc word hcard)

theorem supplied_step (hi : Inv s) (ht : Tested s) (hf : Flagged s) (hs : Supplied s)
    (hsp : Spares s a) (h : step s a = some t) : Supplied t := by
  intro c hc
  obtain hold | ⟨hact, hpc⟩ := standing_step hi h hc
  · obtain hcov | ⟨k, hk⟩ := hs c hold
    · obtain hword | ⟨k, hact, hwr⟩ := writes_of_step hi h
      · exact .inl (covered_still hi hf h hword hc hcov)
      · exact covered_written hi h hact hwr hsp hold hcov
    · obtain hk | hnone := sweeps_step hi h hk
      · exact .inr ⟨k, hk⟩
      · exact absurd hc.2 (hnone c)
  · have hpred := ht c _ hpc
    have hfull : maxReaders ≤ s.state_ := by simpa [Wait.pred] using hpred
    refine .inl (covered_of_full ?_)
    rw [word_of_suspend h hact hpc]
    exact hfull

omit [DecidableEq C] in
theorem quiet_still (hi : Inv s) (hq : Quiet s) :
    (∀ c w, Parked s w c → Standing s w c) ∧ (∀ k, ¬ Sweeps s .gate1 k) ∧ (∀ k, ¬ Signals s k) ∧
      ∀ c, ¬ Serves s c := by
  have hcalm : ∀ g k, ((s.gate g).pc k).Calm := by
    intro g k
    refine calm_of_not_holding (hi.status k) (hi.gateAt k g) fun hst => hq.free k (.inl hst)
  have hstand : ∀ c w, Parked s w c → Standing s w c := fun c w hc =>
    ⟨.inr hc.1, registered_of_parked (hi.gates w.gate) (hcalm w.gate) hc.2⟩
  refine ⟨hstand, fun k hk => ?_, fun k hk => ?_, fun c hc => ?_⟩
  · exact hq.free k (.inl (holding_of_sweeps hi hk))
  · have hpc := hq.clients k
    obtain ⟨prev, hk⟩ | hk | hk | ⟨hk, -⟩ := hk <;> simp [hk, Parked] at hpc
  · obtain hpc | ⟨w, hw⟩ := hq.clients c
    · obtain (⟨hk | hk, -⟩ | hk | hk | hk) | hk | hk | ⟨hk, -⟩ := hc <;> simp [hk] at hpc
    · cases w with
      | maxReaders => exact not_serves_of_standing (hstand c _ hw) hc
      | writeEntered | readers =>
        have hpc := hw.1
        obtain (⟨hk | hk, -⟩ | hk | hk | hk) | hk | hk | ⟨hk, -⟩ := hc <;> simp [hk] at hpc

structure Heeded (s : State L) : Prop where
  inv : Inv s
  tested : Tested s
  flagged : Flagged s
  drained : Drained s

omit [DecidableEq C] in
theorem heeded_init : Heeded (init : State L) where
  inv := inv_init
  tested k w hpc := by cases hpc
  flagged c hc := by
    obtain ⟨hpc | hpc, -⟩ := hc <;> cases hpc
  drained c hc := by
    obtain ⟨hpc | hpc, -⟩ := hc <;> cases hpc

theorem heeded_step (hs : Heeded s) (h : step s a = some t) : Heeded t where
  inv := inv_step s a t hs.inv h
  tested := tested_step hs.inv hs.tested h
  flagged := flagged_step hs.inv hs.tested hs.flagged h
  drained := drained_step hs.inv hs.tested hs.drained h

theorem heeded_run {as : List (Act L)} (h : run step init as = some s) : Heeded s :=
  run_invariant Heeded (fun _ _ _ hs => heeded_step hs) h heeded_init

theorem supplied_run {as : List (Act L)} (h : run step init as = some s)
    (hm : Meets step Spares init as) : Supplied s := by
  have hinit : Heeded (init : State L) ∧ Supplied (init : State L) := by
    refine ⟨heeded_init, fun c hc => ?_⟩
    obtain ⟨hpc | hpc, -⟩ := hc <;> cases hpc
  have hrun := run_invariant_of_meets Spares (fun s => Heeded s ∧ Supplied s)
    (fun s a t hs ha ht => ⟨heeded_step hs.1 ht,
      supplied_step hs.1.inv hs.1.tested hs.1.flagged hs.2 ha ht⟩) h hm hinit
  exact hrun.2

/-- In a quiet state a writer parked at the first gate finds the flag set, and one parked at the
second gate finds readers. A parked reader finds the lock full in every run in which each
release below the maximum is made up for by readers on their way. -/
theorem nobody_left_behind (kind : LockKind) (as : List (Act (kind.lock : Lock C)))
    (s : State (kind.lock : Lock C)) (h : run step init as = some s) (hq : Quiet s) :
    (∀ c, Parked s .writeEntered c → writeEntered s.state_ = true) ∧
      (∀ c, Parked s .readers c → readers s.state_ ≠ 0) ∧
      (Meets step Spares init as → ∀ c, Parked s .maxReaders c → maxReaders ≤ s.state_) := by
  obtain ⟨hi, -, hf, hd⟩ := heeded_run h
  obtain ⟨hstand, hsweep, hsignal, hserve⟩ := quiet_still hi hq
  refine ⟨fun c hc => ?_, fun c hc => ?_, fun hm c hc => ?_⟩
  · obtain hflag | ⟨k, hk⟩ := hf c (hstand c _ hc)
    · exact (writeEntered_iff hi.word.bound).mpr hflag
    · exact absurd hk (hsweep k)
  · obtain hcount | ⟨k, hk⟩ := hd c (hstand c _ hc)
    · exact hcount
    · exact absurd hk (hsignal k)
  · obtain ⟨W, hW, hcard⟩ | ⟨k, hk⟩ := supplied_run h hm c (hstand c _ hc)
    · have hempty : W = ∅ := Finset.eq_empty_of_forall_notMem fun b hb => hserve b (hW b hb)
      simpa [hempty] using hcard
    · exact absurd hk (hsweep k)

theorem nobody_left_behind_writer :
    let as : List (Act ((LockKind.spinLock 128).lock : Lock (Fin 3))) :=
      [.coLock 0, .move (0 : Fin 3)] ++ List.replicate 7 (.advance 0 false) ++
      [.coLockShared 1, .move (1 : Fin 3)] ++ List.replicate 7 (.advance 1 false) ++
      [.coLock 2, .move (2 : Fin 3)] ++ List.replicate 7 (.advance 2 false)
    ∃ s, run step init as = some s ∧ Parked s .maxReaders 1 ∧ Parked s .writeEntered 2 ∧
      (∀ c, Parked s .writeEntered c → writeEntered s.state_ = true) ∧
      (∀ c, Parked s .readers c → readers s.state_ ≠ 0) ∧
      ∀ c, Parked s .maxReaders c → maxReaders ≤ s.state_ := by
  intro as
  have hend : ((run step init as).map fun s => decide (Quiet s ∧ Parked s .maxReaders 1 ∧
      Parked s .writeEntered 2)) = some true := by decide +kernel
  have hm : Meets step Spares init as := by decide +kernel
  obtain ⟨s, hs, hend⟩ := Option.map_eq_some_iff.mp hend
  obtain ⟨hq, hreader, hwriter⟩ := of_decide_eq_true hend
  obtain ⟨hflag, hcount, hfull⟩ := nobody_left_behind (.spinLock 128) as s hs hq
  exact ⟨s, hs, hreader, hwriter, hflag, hcount, hfull hm⟩

def taken (a : C) (n : Nat) : State ((LockKind.spinLock 128).lock : Lock C) :=
  { init with state_ := n, shared := fun k => if k = a then n else 0 }

def takeOnce (a : C) : List (Act ((LockKind.spinLock 128).lock : Lock C)) :=
  .tryLockShared a :: List.replicate 4 (.advance a false)

omit [Fintype C] in
theorem take_once (a : C) {n : Nat} (h : n < maxReaders) :
    run step (taken a n) (takeOnce a) = some (taken a (n + 1)) := by
  have hlt : n < 2 ^ 31 - 1 := h
  have hinc := increment_eq (n := n) (by omega)
  have hshared : Function.update (fun k : C => if k = a then n else 0) a (n + 1) =
      fun k => if k = a then n + 1 else 0 := by
    funext k
    by_cases hk : k = a <;> simp [hk]
  simp [run, takeOnce, List.replicate, step, advance, lockStep, tried, taken, init, State.goto, h,
    hinc, hshared, LockKind.lock, spinLock, SpinLock.tryLock, SpinLock.unlock, SpinLock.init,
    SpinLock.exchange, SpinLock.State.goto, SpinLock.status, Machine.when]

omit [Fintype C] in
theorem take_many (a : C) (n : Nat) (h : n ≤ maxReaders) :
    ∃ as, run step init as = some (taken a n) := by
  induction n with
  | zero =>
    have hinit : taken a 0 = init := by
      simp [taken, init]
    exact ⟨[], hinit ▸ rfl⟩
  | succ n ih =>
    obtain ⟨as, has⟩ := ih (by omega)
    exact ⟨as ++ takeOnce a, (run_append _ _ _ _).mpr ⟨taken a n, has, take_once a (by omega)⟩⟩

/-- Two readers park. Client `a` frees two slots before the reader that the first release woke runs
again: it takes one of them, and the other reader sleeps on. -/
def freeTwo (a b c : C) : List (Act ((LockKind.spinLock 128).lock : Lock C)) :=
  List.flatten [
    [.coLockShared b, .move (b : C)], List.replicate 7 (.advance b false),
    [.coLockShared c, .move (c : C)], List.replicate 7 (.advance c false),
    [.unlockShared a, .move (a : C)], List.replicate 15 (.advance a false),
    [.unlockShared a, .move (a : C)], List.replicate 6 (.advance a false),
    [.advance c false, .move (c : C)], List.replicate 5 (.advance c false)]

/-- With all slots taken, a reader is left behind by the two releases that free two of them. -/
theorem reader_left_behind :
    ∃ (as : List (Act ((LockKind.spinLock 128).lock : Lock (Fin 3)))) (s : _),
      run step init as = some s ∧ Quiet s ∧ Parked s .maxReaders 1 ∧ s.state_ < maxReaders := by
  obtain ⟨as, has⟩ := take_many (0 : Fin 3) maxReaders (Nat.le_refl _)
  have hend : ((run step (taken 0 maxReaders) (freeTwo (0 : Fin 3) 1 2)).map fun s =>
      decide (Quiet s ∧ Parked s .maxReaders 1 ∧ s.state_ < maxReaders)) = some true := by
    decide +kernel
  obtain ⟨s, hs, hend⟩ := Option.map_eq_some_iff.mp hend
  exact ⟨_, s, (run_append _ _ _ _).mpr ⟨_, has, hs⟩, of_decide_eq_true hend⟩

end LibCoro.SharedMutex
