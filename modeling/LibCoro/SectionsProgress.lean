import LibCoro.Sections
import Mathlib.Algebra.Order.BigOperators.Group.Finset

namespace LibCoro.Sections

open Machine

variable {C σ ρ : Type} {mode : C → Mode} {G : Guard mode}

/-- A guard that never leaves its clients stuck: while nobody is inside, its own steps can let
somebody in, or bring everybody out. -/
structure Live (G : Guard mode) (Good : G.State → Prop) : Prop where
  init : Good G.init
  enter : ∀ s k t, G.Inv s → Good s → G.enter s k = some t → Good t
  leave : ∀ s k t, G.Inv s → Good s → G.leave s k = some t → Good t
  move : ∀ s m t, G.Inv s → Good s → G.move s m = some t → Good t
  enters : ∀ s k, G.Inv s → Good s → G.place s k = .outside → ∃ t, G.enter s k = some t
  leaves : ∀ s k, G.Inv s → Good s → G.place s k = .inside → ∃ t, G.leave s k = some t
  settles : ∀ s, G.Inv s → Good s → (∀ k, G.place s k ≠ .inside) →
    ∃ ms t, run G.move s ms = some t ∧
    ((∃ k, G.place t k = .inside) ∨ ∀ k, G.place t k = .outside)

variable [DecidableEq C] {Good : G.State → Prop} {p : Program mode σ ρ} {nRound : Nat} {m : σ}
  {es : List C} {s t : State G σ ρ} {k : C} {n : Nat} {r : ρ}

structure Lively (p : Program mode σ ρ) (nRound : Nat) (Good : G.State → Prop) (m : σ) (es : List C)
    (s : State G σ ρ) : Prop where
  serial : Serial p m es s
  counted : Counted nRound es s
  good : Good s.guard

/-- A run from `s` to `t` in which the sections of `fs` end. -/
def Leads (p : Program mode σ ρ) (nRound : Nat) (s : State G σ ρ) (fs : List C)
    (t : State G σ ρ) : Prop :=
  ∃ as, run (step p nRound) s as = some t ∧ trace (step p nRound) (emit p) s as = fs

theorem leads_refl (s : State G σ ρ) : Leads p nRound s [] s := ⟨[], rfl, rfl⟩

theorem leads_step {a : Act G} (h : step p nRound s a = some t) :
    Leads p nRound s (emit p s a).toList t := by
  refine ⟨[a], (run_cons s t a []).mpr ⟨t, h, rfl⟩, ?_⟩
  rw [trace_cons h, trace, List.append_nil]

theorem Leads.trans {u : State G σ ρ} {fs gs : List C} (h : Leads p nRound s fs t)
    (h' : Leads p nRound t gs u) : Leads p nRound s (fs ++ gs) u := by
  obtain ⟨as, hr, rfl⟩ := h
  obtain ⟨bs, hr', rfl⟩ := h'
  exact ⟨as ++ bs, (run_append s u as bs).mpr ⟨t, hr, hr'⟩, trace_append hr bs⟩

theorem good_step (hL : Live G Good) {a : Act G} (hi : G.Inv s.guard) (hg : Good s.guard)
    (ht : step p nRound s a = some t) : Good t.guard := by
  cases a with
  | begin k =>
    cases hpc : s.pc k with
    | head =>
      simp only [step, hpc] at ht
      split_ifs at ht
      obtain ⟨g, hgs, rfl⟩ := Option.map_eq_some_iff.mp ht
      exact hL.enter _ _ _ hi hg hgs
    | _ => simp [step, hpc] at ht
  | move mv =>
    obtain ⟨g, hgs, rfl⟩ := Option.map_eq_some_iff.mp ht
    exact hL.move _ _ _ hi hg hgs
  | advance k =>
    simp only [step] at ht
    cases hpc : s.pc k with
    | head => simp [hpc] at ht
    | entering | leaving =>
      simp only [hpc, when_eq_some] at ht
      obtain ⟨-, rfl⟩ := ht
      exact hg
    | inside n r =>
      cases hf : (p.body k)[n]? with
      | some f =>
        simp only [hpc, hf, Option.some.injEq] at ht
        subst ht
        exact hg
      | none =>
        simp only [hpc, hf] at ht
        obtain ⟨g, hgs, rfl⟩ := Option.map_eq_some_iff.mp ht
        exact hL.leave _ _ _ hi hg hgs

theorem lively_step (hL : Live G Good) {a : Act G} (h : Lively p nRound Good m es s)
    (ht : step p nRound s a = some t) : Lively p nRound Good m (es ++ (emit p s a).toList) t :=
  ⟨serial_step h.serial ht, counted_step h.counted ht, good_step hL h.serial.guard h.good ht⟩

theorem lively_leads (hL : Live G Good) {fs : List C} (h : Lively p nRound Good m es s)
    (ht : Leads p nRound s fs t) : Lively p nRound Good m (es ++ fs) t := by
  obtain ⟨as, hr, rfl⟩ := ht
  exact trace_invariant (emit p) (Lively p nRound Good m) (fun _ _ _ _ => lively_step hL) hr h

theorem lively_run (hL : Live G Good) {as : List (Act G)}
    (h : run (step p nRound) (init G m) as = some s) :
    Lively p nRound Good m (trace (step p nRound) (emit p) (init G m) as) s :=
  lively_leads hL ⟨serial_init p m, counted_init nRound, hL.init⟩ ⟨as, h, rfl⟩

theorem leads_leaving (hL : Live G Good) (h : Lively p nRound Good m es s) (hk : s.pc k = .inside n r) :
    ∃ t, Leads p nRound s [k] t := by
  obtain ⟨d, hd⟩ : ∃ d, (p.body k).length - n = d := ⟨_, rfl⟩
  induction d generalizing s n r with
  | zero =>
    have hn : (p.body k).length ≤ n := Nat.le_of_sub_eq_zero hd
    obtain ⟨g, hg⟩ := hL.leaves s.guard k h.serial.guard h.good (h.serial.place_inside hk)
    have hstep : step p nRound s (.advance k) = some ({ s with guard := g }.goto k .leaving) := by
      simp [step, hk, List.getElem?_eq_none hn, hg]
    have hl := leads_step hstep
    simp only [emit, hk, if_pos hn, Option.toList_some] at hl
    exact ⟨_, hl⟩
  | succ d ih =>
    have hn : n < (p.body k).length := by omega
    have hstep : step p nRound s (.advance k) =
        some ({ s with mem := ((p.body k)[n] (s.mem, r)).1 }.goto k
          (.inside (n + 1) ((p.body k)[n] (s.mem, r)).2)) := by
      simp [step, hk, hn]
    have hl := leads_step hstep
    simp only [emit, hk, if_neg (Nat.not_le.mpr hn), Option.toList_none] at hl
    have hu := lively_leads hL h hl
    rw [List.append_nil] at hu
    obtain ⟨t, ht⟩ := ih hu (pc_goto ..) (by omega)
    exact ⟨t, hl.trans ht⟩

theorem leads_moves {ms : List G.Move} {g : G.State} (h : run G.move s.guard ms = some g) :
    Leads p nRound s [] { s with guard := g } := by
  induction ms generalizing s with
  | nil =>
    obtain rfl := (run_nil _ _).mp h
    exact leads_refl s
  | cons mv ms ih =>
    obtain ⟨g', hg', hr⟩ := (run_cons _ _ _ _).mp h
    have hstep : step p nRound s (.move mv) = some { s with guard := g' } := by simp [step, hg']
    have hl := leads_step hstep
    simp only [emit, Option.toList_none] at hl
    exact hl.trans (ih hr)

theorem leads_of_inside (hL : Live G Good) (h : Lively p nRound Good m es s)
    (hk : G.place s.guard k = .inside) : ∃ t, Leads p nRound s [k] t := by
  have hp := h.serial.place k
  cases hpc : s.pc k with
  | head | leaving =>
    rw [hpc, hk] at hp
    simp [PlaceAt] at hp
  | inside n r => exact leads_leaving hL h hpc
  | entering =>
    have hstep : step p nRound s (.advance k) = some (s.goto k (.inside 0 p.start)) := by
      simp [step, hpc, hk, when]
    have hl := leads_step hstep
    simp only [emit, hpc, Option.toList_none] at hl
    have hu := lively_leads hL h hl
    rw [List.append_nil] at hu
    obtain ⟨t, ht⟩ := leads_leaving hL hu (pc_goto ..)
    exact ⟨t, hl.trans ht⟩

/-- Unless somebody ends a section, the guard's own steps bring everybody out. -/
theorem leads_or_settles (hL : Live G Good) (h : Lively p nRound Good m es s) :
    (∃ k t, Leads p nRound s [k] t) ∨ ∃ g, Leads p nRound s [] { s with guard := g } ∧
      ∀ k, G.place g k = .outside := by
  by_cases hin : ∃ k, G.place s.guard k = .inside
  · obtain ⟨k, hk⟩ := hin
    exact .inl ⟨k, leads_of_inside hL h hk⟩
  · obtain ⟨ms, g, hr, hg⟩ := hL.settles s.guard h.serial.guard h.good (not_exists.mp hin)
    have hl : Leads p nRound s [] { s with guard := g } := leads_moves hr
    obtain ⟨k, hk⟩ | hout := hg
    · have hu := lively_leads hL h hl
      rw [List.append_nil] at hu
      obtain ⟨t, ht⟩ := leads_of_inside hL hu hk
      exact .inl ⟨k, t, hl.trans ht⟩
    · exact .inr ⟨g, hl, hout⟩

theorem leads_of_entering (hL : Live G Good) (h : Lively p nRound Good m es s) (hk : s.pc k = .entering) :
    ∃ j t, Leads p nRound s [j] t := by
  obtain hnext | ⟨g, hl, hout⟩ := leads_or_settles hL h
  · exact hnext
  · have hp := (lively_leads hL h hl).serial.place k
    rw [show ({ s with guard := g } : State G σ ρ).pc k = .entering from hk, hout k] at hp
    simp [PlaceAt] at hp

theorem leads_of_head (hL : Live G Good) (h : Lively p nRound Good m es s) (hk : s.pc k = .head)
    (hlt : s.rounds k < nRound) : ∃ j t, Leads p nRound s [j] t := by
  have hp := h.serial.place k
  rw [hk] at hp
  obtain ⟨g, hg⟩ := hL.enters s.guard k h.serial.guard h.good hp
  have hstep : step p nRound s (.begin k) = some ({ s with guard := g }.goto k .entering) := by
    simp [step, hk, hlt, hg]
  have hl := leads_step hstep
  simp only [emit, Option.toList_none] at hl
  have hu := lively_leads hL h hl
  rw [List.append_nil] at hu
  obtain ⟨j, t, ht⟩ := leads_of_entering hL hu (pc_goto ..)
  exact ⟨j, t, hl.trans ht⟩

theorem leads_next (hL : Live G Good) (h : Lively p nRound Good m es s) (hk : es.count k < nRound) :
    ∃ j t, Leads p nRound s [j] t := by
  have hcount := h.counted.count k
  cases hpc : s.pc k with
  | head =>
    rw [hpc] at hcount
    exact leads_of_head hL h hpc (Nat.lt_of_le_of_lt (Nat.le_of_eq hcount.symm) hk)
  | entering => exact leads_of_entering hL h hpc
  | inside n r => exact ⟨k, leads_leaving hL h hpc⟩
  | leaving =>
    obtain hnext | ⟨g, hl, hout⟩ := leads_or_settles hL h
    · exact hnext
    have hstep : step p nRound { s with guard := g } (.advance k) = some
        ({ s with guard := g, rounds := Function.update s.rounds k (s.rounds k + 1) }.goto k .head) := by
      simp [step, hpc, hout k, when]
    have hl' := leads_step hstep
    simp only [emit, hpc, Option.toList_none] at hl'
    have hlu := hl.trans hl'
    have hu := lively_leads hL h hlu
    rw [List.append_nil, List.append_nil] at hu
    rw [hpc] at hcount
    have hlt : s.rounds k + 1 < nRound := Nat.lt_of_le_of_lt (Nat.le_of_eq hcount.symm) hk
    obtain ⟨j, t, ht⟩ := leads_of_head hL hu (pc_goto ..) (by simpa [State.goto] using hlt)
    exact ⟨j, t, hlu.trans ht⟩

theorem leads_heads (hout : ∀ k, G.place s.guard k = .outside) (S : Finset C) :
    ∃ t, Leads p nRound s [] t ∧ t.guard = s.guard ∧
      (∀ k ∈ S, s.pc k = .leaving → t.pc k = .head) ∧
      ∀ k, t.pc k = s.pc k ∨ t.pc k = .head := by
  induction S using Finset.induction_on with
  | empty => exact ⟨s, leads_refl s, rfl, by simp, fun k => .inl rfl⟩
  | insert k S _ ih =>
    obtain ⟨t, hl, hg, hS, hpc⟩ := ih
    by_cases hk : t.pc k = .leaving
    · have hstep : step p nRound t (.advance k) =
          some ({ t with rounds := Function.update t.rounds k (t.rounds k + 1) }.goto k .head) := by
        simp [step, hk, hg, hout k, when]
      have hl' := leads_step hstep
      simp only [emit, hk, Option.toList_none] at hl'
      refine ⟨_, hl.trans hl', hg, fun j hj hjs => ?_, fun j => ?_⟩ <;> by_cases hjk : j = k
      · subst hjk
        exact pc_goto ..
      · rw [pc_goto_ne _ _ hjk]
        exact hS j ((Finset.mem_insert.mp hj).resolve_left hjk) hjs
      · subst hjk
        exact .inr (pc_goto ..)
      · rw [pc_goto_ne _ _ hjk]
        exact hpc j
    · refine ⟨t, hl, hg, fun j hj hjs => ?_, hpc⟩
      obtain rfl | hj := Finset.mem_insert.mp hj
      · exact (hpc j).resolve_left fun he => hk (he.trans hjs)
      · exact hS j hj hjs

omit [DecidableEq C] in
theorem Pc.left_le (q : Pc ρ) : q.left ≤ 1 := by
  cases q <;> simp [Pc.left]

theorem Counted.le (h : Counted nRound es s) (k : C) : es.count k ≤ nRound := by
  have hl := (s.pc k).left_le
  have hc := h.count k
  by_cases hk : s.pc k = .head
  · have hr := h.head k hk
    simp only [hk, Pc.left] at hc
    omega
  · have hr := h.busy k hk
    omega

theorem Counted.ended (h : Counted nRound es s) (hk : es.count k = nRound) :
    s.pc k = .head ∨ s.pc k = .leaving := by
  have hc := h.count k
  have hb := h.busy k
  cases hpc : s.pc k with
  | head => exact .inl rfl
  | leaving => exact .inr rfl
  | entering | inside n r =>
    simp only [hpc, Pc.left] at hc
    have hlt := hb (by simp [hpc])
    omega

theorem completes_ended [Fintype C] (hL : Live G Good) (h : Lively p nRound Good m es s)
    (hall : ∀ k, es.count k = nRound) :
    ∃ t, Leads p nRound s [] t ∧ ∀ k, t.pc k = .head ∧ t.rounds k = nRound := by
  obtain ⟨k, t, ht⟩ | ⟨g, hl, hout⟩ := leads_or_settles hL h
  · have hle := (lively_leads hL h ht).counted.le k
    rw [List.count_append, List.count_singleton_self, hall k] at hle
    omega
  · obtain ⟨t, ht, -, hS, hpc⟩ :
        ∃ t, Leads p nRound { s with guard := g } [] t ∧ t.guard = g ∧
          (∀ k ∈ Finset.univ, s.pc k = .leaving → t.pc k = .head) ∧
          ∀ k, t.pc k = s.pc k ∨ t.pc k = .head := leads_heads hout Finset.univ
    have hst := hl.trans ht
    have hhead : ∀ k, t.pc k = .head := by
      intro k
      obtain hk | hk := h.counted.ended (hall k)
      · exact (hpc k).elim (fun he => he.trans hk) id
      · exact hS k (Finset.mem_univ k) hk
    refine ⟨t, hst, fun k => ⟨hhead k, ?_⟩⟩
    have hc := (lively_leads hL h hst).counted.count k
    rw [hhead k, List.append_nil, List.append_nil, hall k] at hc
    exact hc.symm

/-- A live guard lets every run come to its end. -/
theorem completes [Fintype C] (hL : Live G Good) (h : Lively p nRound Good m es s) :
    ∃ fs t, Leads p nRound s fs t ∧ ∀ k, t.pc k = .head ∧ t.rounds k = nRound := by
  obtain ⟨d, hd⟩ : ∃ d, ∑ k, (nRound - es.count k) ≤ d := ⟨_, le_rfl⟩
  induction d generalizing s es with
  | zero =>
    have hz := Finset.sum_eq_zero_iff.mp (Nat.le_zero.mp hd)
    have hall : ∀ k, es.count k = nRound := fun k =>
      Nat.le_antisymm (h.counted.le k) (Nat.le_of_sub_eq_zero (hz k (Finset.mem_univ k)))
    obtain ⟨t, ht, hend⟩ := completes_ended hL h hall
    exact ⟨[], t, ht, hend⟩
  | succ d ih =>
    by_cases hall : ∀ k, es.count k = nRound
    · obtain ⟨t, ht, hend⟩ := completes_ended hL h hall
      exact ⟨[], t, ht, hend⟩
    · obtain ⟨k, hk⟩ := not_forall.mp hall
      have hlt := Nat.lt_of_le_of_ne (h.counted.le k) hk
      obtain ⟨j, u, hu⟩ := leads_next hL h hlt
      have hlu := lively_leads hL h hu
      -- the section of `j` that ends is one of those still to come
      have hless : ∑ i, (nRound - (es ++ [j]).count i) < ∑ i, (nRound - es.count i) := by
        refine Finset.sum_lt_sum (fun i _ => ?_) ⟨j, Finset.mem_univ j, ?_⟩
        · rw [List.count_append]
          omega
        · have hle := hlu.counted.le j
          rw [List.count_append, List.count_singleton_self] at hle ⊢
          omega
      obtain ⟨fs, t, ht, hend⟩ := ih hlu (by omega)
      exact ⟨[j] ++ fs, t, hu.trans ht, hend⟩

end LibCoro.Sections
