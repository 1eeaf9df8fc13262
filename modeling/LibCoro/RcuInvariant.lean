import LibCoro.RcuStep

namespace LibCoro.Rcu

open Machine

variable {C : Type} [DecidableEq C]

def Quiet (s : State C) (c : Nat) : Prop := ∀ j ∈ s.stack c, s.depth j = 0

/-- A read-side section contains no `co_await`, no second `rcu_read_lock` and no
resumption of another coroutine. -/
def Disciplined (s : State C) : Act C → Prop
  | .resume c _ | .offline c => Quiet s c
  | .suspend k | .readLock k | .synchronize k => s.depth k = 0
  | _ => True

instance (s : State C) (a : Act C) : Decidable (Disciplined s a) := by
  cases a <;> unfold Disciplined <;> try unfold Quiet
  all_goals infer_instance

def Act.isTicket : Act C → Bool
  | .synchronize _ | .callRcu _ _ _ => true
  | _ => false

def Pc.InLock (g : Nat) (p : Pc) : Prop := p = .lockCompare g ∨ p = .lockStore g

def Pc.Inside : Pc → Prop
  | .idle | .drainScan _ _ | .drainLoop _ _ => True
  | _ => False

def Pc.Yielded : Pc → Prop
  | .syncYielded _ _ _ _ => True
  | _ => False

/-- `fresh` is the link between `rcu_count` and `DONE`: a version that no running
section may rely on is republished by the next `rcu_read_lock`. -/
structure Inv (s : State C) : Prop where
  running : ∀ k, s.pc k ≠ .idle → ¬ (s.pc k).Yielded → ∃ c, s.top k = some c
  yielded : ∀ k, (s.pc k).Yielded → s.core k = none
  locking : ∀ k g, (s.pc k).InLock g → g ≤ s.sequencer ∧ s.depth k = 0
  opened : ∀ k, 0 < s.depth k → (s.pc k).Inside ∧ ∃ c, s.top k = some c ∧ s.versions c ≤ s.sequencer
  fresh : ∀ c, s.versions c ≤ s.sequencer ∨ s.rcuCount c = 1023 ∨
    ∃ k g, s.top k = some c ∧ (s.pc k).InLock g

theorem inv_init (heads : Addr → RcuHead) (pointers : Addr → Addr) :
    Inv (init heads pointers : State C) where
  running k h := absurd rfl h
  yielded k h := h.elim
  locking k g h := by simp [init, Pc.InLock] at h
  opened k h := by simp [init] at h
  fresh c := .inr (.inl rfl)

structure Local (s t : State C) (c : Nat) (k : C) : Prop where
  stack : t.stack = s.stack
  core : t.core = s.core
  pc : ∀ j, j ≠ k → t.pc j = s.pc j
  depth : ∀ j, j ≠ k → t.depth j = s.depth j
  versions : ∀ i, i ≠ c → t.versions i = s.versions i
  rcuCount : ∀ i, i ≠ c → t.rcuCount i = s.rcuCount i
  sequencer : s.sequencer ≤ t.sequencer

theorem Local.top {s t : State C} {c : Nat} {k : C} (h : Local s t c k) (j : C) :
    t.top j = s.top j := by
  simp [State.top, h.stack, h.core]

omit [DecidableEq C] in
theorem Local.refl (s : State C) (c : Nat) (k : C) : Local s s c k :=
  ⟨rfl, rfl, fun _ _ => rfl, fun _ _ => rfl, fun _ _ => rfl, fun _ _ => rfl, Nat.le_refl _⟩

theorem Local.goto {s t : State C} {c : Nat} {k : C} (h : Local s t c k) (p : Pc) :
    Local s (t.goto k p) c k := by
  refine ⟨h.stack, h.core, fun j hj => ?_, h.depth, h.versions, h.rcuCount, h.sequencer⟩
  exact (pc_goto_ne t p hj).trans (h.pc j hj)

theorem Local.setDepth {s t : State C} {c : Nat} {k : C} (h : Local s t c k) (d : Nat) :
    Local s (t.setDepth k d) c k := by
  refine ⟨h.stack, h.core, h.pc, fun j hj => ?_, h.versions, h.rcuCount, h.sequencer⟩
  exact (Function.update_of_ne hj _ _).trans (h.depth j hj)

theorem inv_local {s t : State C} {c : Nat} {k : C} (hi : Inv s) (hk : s.top k = some c)
    (hl : Local s t c k) (hy : ¬ (t.pc k).Yielded)
    (hlock : ∀ g, (t.pc k).InLock g → g ≤ t.sequencer ∧ t.depth k = 0)
    (hopen : 0 < t.depth k → (t.pc k).Inside ∧ t.versions c ≤ t.sequencer)
    (hfresh : t.versions c ≤ t.sequencer ∨ t.rcuCount c = 1023 ∨ ∃ g, (t.pc k).InLock g) :
    Inv t := by
  refine ⟨fun j hj hjy => ?_, fun j hj => ?_, fun j g hj => ?_, fun j hj => ?_, fun i => ?_⟩
  · rw [hl.top j]
    by_cases hjk : j = k
    · exact ⟨c, hjk ▸ hk⟩
    · rw [hl.pc j hjk] at hj hjy
      exact hi.running j hj hjy
  · have hjk : j ≠ k := fun e => hy (e ▸ hj)
    rw [hl.pc j hjk] at hj
    rw [hl.core]
    exact hi.yielded j hj
  · by_cases hjk : j = k
    · subst hjk
      exact hlock g hj
    · rw [hl.pc j hjk] at hj
      rw [hl.depth j hjk]
      exact ⟨Nat.le_trans (hi.locking j g hj).1 hl.sequencer, (hi.locking j g hj).2⟩
  · by_cases hjk : j = k
    · subst hjk
      exact ⟨(hopen hj).1, c, (hl.top j).trans hk, (hopen hj).2⟩
    · rw [hl.depth j hjk] at hj
      obtain ⟨hin, d, hd, hv⟩ := hi.opened j hj
      have hdc : d ≠ c := by
        rintro rfl
        exact hjk (top_unique hd hk)
      rw [hl.pc j hjk, hl.top j, ← hl.versions d hdc] at *
      exact ⟨hin, d, hd, Nat.le_trans hv hl.sequencer⟩
  · by_cases hic : i = c
    · subst hic
      obtain h | h | ⟨g, h⟩ := hfresh
      · exact .inl h
      · exact .inr (.inl h)
      · exact .inr (.inr ⟨k, g, (hl.top k).trans hk, h⟩)
    · rw [hl.versions i hic, hl.rcuCount i hic]
      obtain h | h | ⟨j, g, hj, h⟩ := hi.fresh i
      · exact .inl (Nat.le_trans h hl.sequencer)
      · exact .inr (.inl h)
      · have hjk : j ≠ k := by
          rintro rfl
          exact hic (Option.some.inj (hj.symm.trans hk))
        exact .inr (.inr ⟨j, g, (hl.top j).trans hj, by rw [hl.pc j hjk]; exact h⟩)

theorem fresh_of_top {s : State C} {c : Nat} {k : C} (hi : Inv s) (hk : s.top k = some c)
    (hpc : ∀ g, ¬ (s.pc k).InLock g) : s.versions c ≤ s.sequencer ∨ s.rcuCount c = 1023 := by
  obtain h | h | ⟨j, g, hj, hg⟩ := hi.fresh c
  · exact .inl h
  · exact .inr h
  · exact absurd (top_unique hj hk ▸ hg) (hpc g)

theorem depth_zero_of_core {s : State C} {k : C} (hi : Inv s) (hk : s.core k = none) :
    s.depth k = 0 := by
  by_contra h
  obtain ⟨-, c, hc, -⟩ := hi.opened k (Nat.pos_of_ne_zero h)
  rw [((top_eq_some s k c).mp hc).1] at hk
  cases hk

theorem inv_enter {s : State C} {c : Nat} {k : C} {p : Pc} (hi : Inv s) (hk : s.core k = none)
    (hc : ∀ j, s.top j = some c → s.pc j = .idle ∧ s.depth j = 0)
    (hp : ¬ p.Yielded ∧ ∀ g, ¬ p.InLock g) : Inv ((s.enter c k).goto k p) := by
  have hpc : ∀ j, j ≠ k → ((s.enter c k).goto k p).pc j = s.pc j :=
    fun j hj => Function.update_of_ne hj _ _
  have hpk : ((s.enter c k).goto k p).pc k = p := Function.update_self _ _ _
  have htop : ∀ j d, j ≠ k → d ≠ c → s.top j = some d → ((s.enter c k).goto k p).top j = some d :=
    fun j d hj hd h => (top_enter_ne hj hd).mpr h
  have hne : ∀ j d, s.top j = some d → j ≠ k := by
    rintro j d hj rfl
    rw [((top_eq_some s j d).mp hj).1] at hk
    cases hk
  refine ⟨fun j hj hjy => ?_, fun j hj => ?_, fun j g hj => ?_, fun j hj => ?_, fun i => ?_⟩
  · by_cases hjk : j = k
    · exact ⟨c, hjk ▸ top_enter_self s c k⟩
    · rw [hpc j hjk] at hj hjy
      obtain ⟨d, hd⟩ := hi.running j hj hjy
      have hdc : d ≠ c := by
        rintro rfl
        exact hj (hc j hd).1
      exact ⟨d, htop j d hjk hdc hd⟩
  · have hjk : j ≠ k := by
      rintro rfl
      rw [hpk] at hj
      exact hp.1 hj
    rw [hpc j hjk] at hj
    exact (Function.update_of_ne hjk _ _).trans (hi.yielded j hj)
  · have hjk : j ≠ k := by
      rintro rfl
      rw [hpk] at hj
      exact hp.2 g hj
    rw [hpc j hjk] at hj
    exact hi.locking j g hj
  · have hjk : j ≠ k := by
      rintro rfl
      exact absurd (depth_zero_of_core hi hk) (Nat.pos_iff_ne_zero.mp hj)
    obtain ⟨hin, d, hd, hv⟩ := hi.opened j hj
    have hdc : d ≠ c := by
      rintro rfl
      exact absurd (hc j hd).2 (Nat.pos_iff_ne_zero.mp hj)
    rw [hpc j hjk]
    exact ⟨hin, d, htop j d hjk hdc hd, hv⟩
  · obtain h | h | ⟨j, g, hj, hg⟩ := hi.fresh i
    · exact .inl h
    · exact .inr (.inl h)
    · have hic : i ≠ c := by
        rintro rfl
        rw [(hc j hj).1] at hg
        simp [Pc.InLock] at hg
      exact .inr (.inr ⟨j, g, htop j i (hne j i hj) hic hj, by rw [hpc j (hne j i hj)]; exact hg⟩)

theorem inv_leave {s : State C} {c : Nat} {k : C} {p : Pc} (hi : Inv s) (hk : s.top k = some c)
    (hd : s.depth k = 0) (hs : ∀ g, ¬ (s.pc k).InLock g) (hp : p = .idle ∨ p.Yielded) :
    Inv ((s.leave c k).goto k p) := by
  have hpc : ∀ j, j ≠ k → ((s.leave c k).goto k p).pc j = s.pc j :=
    fun j hj => Function.update_of_ne hj _ _
  have hpk : ((s.leave c k).goto k p).pc k = p := Function.update_self _ _ _
  have htop : ∀ j d, j ≠ k → s.top j = some d → ((s.leave c k).goto k p).top j = some d :=
    fun j d hj h => top_leave hk hj h
  refine ⟨fun j hj hjy => ?_, fun j hj => ?_, fun j g hj => ?_, fun j hj => ?_, fun i => ?_⟩
  · have hjk : j ≠ k := by
      rintro rfl
      rw [hpk] at hj hjy
      exact hp.elim hj hjy
    rw [hpc j hjk] at hj hjy
    obtain ⟨d, hd⟩ := hi.running j hj hjy
    exact ⟨d, htop j d hjk hd⟩
  · by_cases hjk : j = k
    · rw [hjk]
      exact Function.update_self _ _ _
    · rw [hpc j hjk] at hj
      exact (Function.update_of_ne hjk _ _).trans (hi.yielded j hj)
  · have hjk : j ≠ k := by
      rintro rfl
      rw [hpk] at hj
      obtain rfl | hp := hp
      · simp [Pc.InLock] at hj
      · obtain rfl | rfl := hj <;> exact hp
    rw [hpc j hjk] at hj
    exact hi.locking j g hj
  · have hjk : j ≠ k := by
      rintro rfl
      exact absurd hd (Nat.pos_iff_ne_zero.mp hj)
    obtain ⟨hin, d, hd, hv⟩ := hi.opened j hj
    rw [hpc j hjk]
    exact ⟨hin, d, htop j d hjk hd, hv⟩
  · obtain h | h | ⟨j, g, hj, hg⟩ := hi.fresh i
    · exact .inl h
    · exact .inr (.inl h)
    · have hjk : j ≠ k := by
        rintro rfl
        exact hs g hg
      exact .inr (.inr ⟨j, g, htop j i hjk hj, by rw [hpc j hjk]; exact hg⟩)

theorem inv_offline {s : State C} {c : Nat} (hi : Inv s)
    (hc : ∀ j, s.top j = some c → s.depth j = 0) : Inv (rcuOffline s c) := by
  refine ⟨hi.running, hi.yielded, hi.locking, fun j hj => ?_, fun i => ?_⟩
  · obtain ⟨hin, d, hd, hv⟩ := hi.opened j hj
    have hdc : d ≠ c := by
      rintro rfl
      exact absurd (hc j hd) (Nat.pos_iff_ne_zero.mp hj)
    exact ⟨hin, d, hd, by simpa [rcuOffline, hdc] using hv⟩
  · by_cases hic : i = c
    · exact .inr (.inl (by simp [rcuOffline, hic]))
    · have hv : (rcuOffline s c).versions i = s.versions i := Function.update_of_ne hic _ _
      have hr : (rcuOffline s c).rcuCount i = s.rcuCount i := Function.update_of_ne hic _ _
      rw [hv, hr]
      exact hi.fresh i

omit [DecidableEq C] in
theorem ticket_eq {s : State C} (h : s.sequencer + 1 < 2 ^ 64) : ticket s = s.sequencer + 1 :=
  Nat.mod_eq_of_lt h

theorem inv_quiet {s t : State C} {c : Nat} {k : C} (hi : Inv s) (hk : s.top k = some c)
    (hs : ∀ g, ¬ (s.pc k).InLock g) (hl : Local s t c k) (hv : t.versions c = s.versions c)
    (hr : t.rcuCount c = s.rcuCount c) (hp : ¬ (t.pc k).Yielded ∧ ∀ g, ¬ (t.pc k).InLock g)
    (hd : t.depth k ≤ s.depth k) (hin : (t.pc k).Inside ∨ t.depth k = 0) : Inv t := by
  refine inv_local hi hk hl hp.1 (fun g hg => absurd hg (hp.2 g)) (fun ht => ?_) ?_
  · obtain ⟨-, d, hd', hvd⟩ := hi.opened k (Nat.lt_of_lt_of_le ht hd)
    obtain rfl : d = c := Option.some.inj (hd'.symm.trans hk)
    rw [hv]
    exact ⟨hin.resolve_right (Nat.pos_iff_ne_zero.mp ht), Nat.le_trans hvd hl.sequencer⟩
  · rw [hv, hr]
    exact (fresh_of_top hi hk hs).imp (fun h => Nat.le_trans h hl.sequencer) .inl

theorem not_inLock_idle (g : Nat) : ¬ Pc.InLock g .idle := by simp [Pc.InLock]

theorem inv_goto {s u : State C} {c : Nat} {k : C} {p : Pc} (hi : Inv s) (hk : s.top k = some c)
    (hs : ∀ g, ¬ (s.pc k).InLock g) (hl : Local s u c k) (hv : u.versions = s.versions)
    (hr : u.rcuCount = s.rcuCount) (hd : u.depth = s.depth)
    (hp : ¬ p.Yielded ∧ ∀ g, ¬ p.InLock g) (hin : p.Inside ∨ s.depth k = 0) : Inv (u.goto k p) := by
  refine inv_quiet hi hk hs (hl.goto p) (congrFun hv c) (congrFun hr c) ?_ ?_ ?_
  · rwa [pc_goto]
  · exact Nat.le_of_eq (congrFun hd k)
  · rw [pc_goto]
    exact hin.imp_right (congrFun hd k).trans

theorem inv_opens {s u : State C} {c d : Nat} {k : C} (hi : Inv s) (hk : s.top k = some c)
    (hl : Local s u c k) (hpc : u.pc k = .idle) (hv : u.versions c ≤ u.sequencer) :
    Inv (u.setDepth k d) := by
  have hpk : (u.setDepth k d).pc k = .idle := hpc
  refine inv_local hi hk (hl.setDepth d) ?_ ?_ ?_ (.inl hv) <;> rw [hpk]
  · exact id
  · exact fun g hg => absurd hg (not_inLock_idle g)
  · exact fun _ => ⟨trivial, hv⟩

theorem inv_locks {s u : State C} {c g : Nat} {k : C} {p : Pc} (hi : Inv s) (hk : s.top k = some c)
    (hl : Local s u c k) (hp : p.InLock g) (hg : g ≤ u.sequencer) (hd : u.depth k = 0) :
    Inv (u.goto k p) := by
  refine inv_local hi hk (hl.goto p) ?_ ?_ ?_ (.inr (.inr ⟨g, ?_⟩)) <;> rw [pc_goto]
  · obtain rfl | rfl := hp <;> exact id
  · intro g' hg'
    obtain rfl : g' = g := by
      obtain rfl | rfl := hp <;> obtain h | h := hg' <;> cases h <;> rfl
    exact ⟨hg, hd⟩
  · exact fun h => absurd hd (Nat.pos_iff_ne_zero.mp h)
  · exact hp

theorem inv_yield {s : State C} {c w m i : Nat} {k : C} (hi : Inv s) (hk : s.top k = some c)
    (hpc : s.pc k = .syncYield w m i) (hd : s.depth k = 0) :
    Inv ((rcuOffline (s.leave c k) c).goto k (.syncYielded w m i c)) := by
  have hs : ∀ g, ¬ (s.pc k).InLock g := by simp [hpc, Pc.InLock]
  refine inv_offline (inv_leave hi hk hd hs (p := .syncYielded w m i c) (.inr trivial)) ?_
  intro j hj
  by_contra hdj
  obtain ⟨-, d, hd', -⟩ := hi.opened j (Nat.pos_of_ne_zero hdj)
  have hjk : j ≠ k := by
    rintro rfl
    exact hdj hd
  have hdc : d = c := Option.some.inj ((top_leave hk hjk hd').symm.trans hj)
  exact hjk (top_unique (hdc ▸ hd') hk)

theorem inv_advances {n c : Nat} {s t : State C} {k : C} (hi : Inv s) (hk : s.top k = some c)
    (h : Advances n s c k t) : Inv t := by
  have hl := Local.refl s c k
  -- a writer in the loop over the cores is outside every section
  have hzero : ¬ (s.pc k).Inside → s.depth k = 0 := fun hin => by
    by_contra hd
    exact hin (hi.opened k (Nat.pos_of_ne_zero hd)).1
  have hlock : ∀ p, s.pc k = p → (∀ g, ¬ p.InLock g) → ∀ g, ¬ (s.pc k).InLock g :=
    fun p hp hn => hp ▸ hn
  cases h with
  | same g hpc hg =>
    obtain ⟨hle, -⟩ := hi.locking k g (.inl hpc)
    exact inv_opens hi hk (hl.goto _) (pc_goto s k _) (hg ▸ hle)
  | other g hpc hg =>
    obtain ⟨hle, hd⟩ := hi.locking k g (.inl hpc)
    exact inv_locks hi hk hl (.inr rfl) hle hd
  | store g hpc =>
    obtain ⟨hle, -⟩ := hi.locking k g (.inr hpc)
    have hlv : Local s { s with versions := Function.update s.versions c g } c k :=
      ⟨rfl, rfl, hl.pc, hl.depth, fun i hi => Function.update_of_ne hi _ _, hl.rcuCount, hl.sequencer⟩
    refine inv_opens hi hk (hlv.goto _) (pc_goto _ k _) ?_
    simpa [State.goto] using hle
  | yield w m i hpc => exact inv_yield hi hk hpc (hzero (by simp [hpc, Pc.Inside]))
  | pass w m i hpc _ _ | wait w m i hpc _ _ _ | synced w m i hpc _ =>
    refine inv_goto hi hk (hlock _ hpc (by simp [Pc.InLock])) hl rfl rfl rfl ?_
      (.inr (hzero (by simp [hpc, Pc.Inside])))
    simp [Pc.Yielded, Pc.InLock]
  | look m m' i hpc _ _ | looked m i hpc _ | leave m node hpc _ =>
    refine inv_goto hi hk (hlock _ hpc (by simp [Pc.InLock])) hl rfl rfl rfl ?_ (.inl trivial)
    simp [Pc.Yielded, Pc.InLock]
  | callback m a hpc _ =>
    have hlc : Local s (runCallback s c a) c k :=
      ⟨rfl, rfl, hl.pc, hl.depth, hl.versions, hl.rcuCount, hl.sequencer⟩
    refine inv_goto hi hk (hlock _ hpc (by simp [Pc.InLock])) hlc rfl rfl rfl ?_ (.inl trivial)
    simp [Pc.Yielded, Pc.InLock]

theorem inv_callRcu {s : State C} {c : Nat} {k : C} {head func : Addr} (hi : Inv s)
    (hk : s.top k = some c) (hpc : s.pc k = .idle) (hw : s.sequencer + 1 < 2 ^ 64) :
    Inv (callRcu s c k head func) := by
  have hplace : (callRcu s c k head func).pc k = .idle ∨
      (callRcu s c k head func).pc k = .drainScan uintMax 0 := by
    rw [pc_callRcu_self]
    split_ifs
    · exact .inr rfl
    · exact .inl hpc
  have hl : Local s (callRcu s c k head func) c k := by
    have hframe := frame_callRcu s c k head func
    refine ⟨by simp, by simp, fun j hj => ?_, by simp, by simp, by simp, ?_⟩
    · exact hframe.pc j fun e => hj (Option.some.inj e)
    · rw [sequencer_callRcu, ticket_eq hw]
      exact Nat.le_succ _
  refine inv_quiet hi hk (by rw [hpc]; exact not_inLock_idle) hl (by simp) (by simp) ?_ (by simp)
    (.inl ?_)
  · obtain h | h := hplace <;> simp [h, Pc.Yielded, Pc.InLock]
  · obtain h | h := hplace <;> simp [h, Pc.Inside]

def Fair (s : State C) (a : Act C) : Prop :=
  Disciplined s a ∧ (a.isTicket = true → s.sequencer + 1 < 2 ^ 64)

theorem inv_calls {s t : State C} {c : Nat} {k : C} {a : Act C} (hi : Inv s) (hk : s.top k = some c)
    (hpc : s.pc k = .idle) (hf : Fair s a) (h : Calls s c k a t) : Inv t := by
  obtain ⟨hdis, hw⟩ := hf
  have hs : ∀ g, ¬ (s.pc k).InLock g := by
    rw [hpc]
    exact not_inLock_idle
  have hl := Local.refl s c k
  cases h with
  | suspend =>
    have he : s.leave c k = (s.leave c k).goto k .idle := by
      have hp : Function.update s.pc k .idle = s.pc := by rw [← hpc, Function.update_eq_self]
      simp [State.goto, State.leave, hp]
    rw [he]
    exact inv_leave hi hk hdis hs (.inl rfl)
  | load hcount =>
    have hlr : Local s { s with rcuCount := Function.update s.rcuCount c 0 } c k :=
      ⟨rfl, rfl, hl.pc, hl.depth, hl.versions, fun i hi => Function.update_of_ne hi _ _, hl.sequencer⟩
    exact inv_locks hi hk hlr (.inl rfl) (Nat.le_refl _) hdis
  | count hcount =>
    have hlr : Local s { s with rcuCount := Function.update s.rcuCount c (s.rcuCount c + 1) } c k :=
      ⟨rfl, rfl, hl.pc, hl.depth, hl.versions, fun i hi => Function.update_of_ne hi _ _, hl.sequencer⟩
    exact inv_opens hi hk hlr hpc ((fresh_of_top hi hk hs).resolve_right (by omega))
  | readUnlock hd =>
    refine inv_quiet hi hk hs (hl.setDepth _) rfl rfl ?_ ?_ (.inl ?_)
    · simp [State.setDepth, hpc, Pc.Yielded, Pc.InLock]
    · simp [State.setDepth]
    · simp [State.setDepth, hpc, Pc.Inside]
  | dereference p => exact hi
  | assign p v => exact ⟨hi.running, hi.yielded, hi.locking, hi.opened, hi.fresh⟩
  | synchronize =>
    have hlt : Local s { s with sequencer := ticket s } c k := by
      refine ⟨rfl, rfl, hl.pc, hl.depth, hl.versions, hl.rcuCount, ?_⟩
      rw [ticket_eq (hw rfl)]
      exact Nat.le_succ _
    refine inv_goto hi hk hs hlt rfl rfl rfl ?_ (.inr hdis)
    simp [Pc.Yielded, Pc.InLock]
  | callRcu head func => exact inv_callRcu hi hk hpc (hw rfl)
  | threadCallRcu =>
    refine inv_goto hi hk hs hl rfl rfl rfl ?_ (.inl trivial)
    simp [Pc.Yielded, Pc.InLock]

theorem inv_step {n : Nat} (s : State C) (a : Act C) (t : State C) (hi : Inv s) (hf : Fair s a)
    (h : step n s a = some t) : Inv t := by
  cases moves_of_step h with
  | resume c k _ hk hpc hcalm =>
    have he : s.enter c k = (s.enter c k).goto k .idle := by
      have hp : Function.update s.pc k .idle = s.pc := by rw [← hpc, Function.update_eq_self]
      simp [State.goto, State.enter, hp]
    rw [he]
    refine inv_enter hi hk (fun j hj => ⟨?_, hf.1 j (mem_stack_of_top hj)⟩)
      ⟨id, not_inLock_idle⟩
    have hhead := ((top_eq_some s j c).mp hj).2
    simpa [State.calm, hhead] using hcalm
  | deliver k w m i c hpc hst =>
    refine inv_enter hi (hi.yielded k (by simp [hpc, Pc.Yielded])) (fun j hj => ?_) ?_
    · have hm := mem_stack_of_top hj
      simp [hst] at hm
    · simp [Pc.Yielded, Pc.InLock]
  | offline c _ _ => exact inv_offline hi fun j hj => hf.1 j (mem_stack_of_top hj)
  | call c k hk hpc h => exact inv_calls hi hk hpc hf h
  | advance c k hk h => exact inv_advances hi hk h

theorem inv_run {n : Nat} {s t : State C} {as : List (Act C)} (h : run (step n) s as = some t)
    (hm : Meets (step n) Fair s as) (hi : Inv s) : Inv t :=
  run_invariant_of_meets Fair Inv inv_step h hm hi

def tickets (as : List (Act C)) : Nat := as.countP Act.isTicket

theorem sequencer_step {n : Nat} {s t : State C} {a : Act C} (h : step n s a = some t) :
    t.sequencer = if a.isTicket then ticket s else s.sequencer := by
  cases moves_of_step h with
  | resume | deliver | offline => rfl
  | call c k _ _ h =>
    cases h with
    | callRcu head func => exact sequencer_callRcu s c k head func
    | _ => rfl
  | advance c k _ h => cases h <;> rfl

theorem meets_fair {n : Nat} {s : State C} {as : List (Act C)}
    (h : Meets (step n) Disciplined s as) (hw : s.sequencer + tickets as < 2 ^ 64) :
    Meets (step n) Fair s as := by
  induction as generalizing s with
  | nil => trivial
  | cons a as ih =>
    simp only [tickets, List.countP_cons] at hw ih
    obtain ⟨hd, hds⟩ := (meets_cons Disciplined s a as).mp h
    refine (meets_cons Fair s a as).mpr ⟨⟨hd, fun ha => ?_⟩, fun t ht => ih (hds t ht) ?_⟩
    · simp only [ha, if_true] at hw
      omega
    · rw [sequencer_step ht]
      split_ifs with ha
      · simp only [ha, if_true] at hw
        rw [ticket_eq (by omega)]
        omega
      · omega

theorem site_of_actor {n : Nat} {s t : State C} {a : Act C} {k : C} {c : Nat} (hi : Inv s)
    (h : step n s a = some t) (hk : s.top k = some c) (ha : a.actor = some k) :
    s.site a = some c := by
  have hcore := ((top_eq_some s k c).mp hk).1
  cases moves_of_step h with
  | offline d _ _ => cases ha
  | resume d j _ hn _ _ =>
    cases ha
    rw [hn] at hcore
    cases hcore
  | deliver j w m i d hpc _ =>
    cases ha
    rw [hi.yielded k (by simp [hpc, Pc.Yielded])] at hcore
    cases hcore
  | call d j _ _ h =>
    cases h.actor.symm.trans ha
    exact h.site.trans hk
  | advance d j _ _ =>
    cases ha
    exact hk

/-- While a section is open, its core's version stays what it was and its coroutine
goes on running there: nothing but the end of the section can change that. -/
theorem section_step {n : Nat} {s t : State C} {a : Act C} {r : C} {c : Nat} (hi : Inv s)
    (hf : Fair s a) (hr : 0 < s.depth r) (hc : s.top r = some c) (ha : a ≠ .readUnlock r)
    (h : step n s a = some t) :
    t.top r = some c ∧ t.versions c = s.versions c ∧ t.depth r = s.depth r := by
  have hmem := mem_stack_of_top hc
  have hnz : s.depth r ≠ 0 := Nat.pos_iff_ne_zero.mp hr
  obtain ⟨d, hd⟩ := site_of_step h
  by_cases hdc : d = c
  · subst hdc
    have hself : ∀ k, s.top k = some d → k = r := fun k hk => top_unique hk hc
    cases moves_of_step h with
    | resume d' k _ _ _ _ | offline d' _ _ =>
      cases hd
      exact absurd (hf.1 r hmem) hnz
    | deliver k w m i d' hpc hst =>
      simp only [State.site, hpc, Option.some.injEq] at hd
      rw [hd] at hst
      rw [hst] at hmem
      cases hmem
    | call d' k hk hpc h =>
      obtain rfl := hself k (h.site.symm.trans hd)
      cases h with
      | suspend | load _ | count _ | synchronize => exact absurd hf.1 hnz
      | readUnlock _ => exact absurd rfl ha
      | dereference _ | assign _ _ | threadCallRcu => exact ⟨hc, rfl, rfl⟩
      | callRcu head func => simpa using hc
    | advance d' k hk h =>
      obtain rfl := hself k hd
      have hin := (hi.opened k hr).1
      cases h with
      | look | looked | leave | callback => exact ⟨hc, rfl, rfl⟩
      | same g hpc | other g hpc | store g hpc | pass w m i hpc | wait w m i hpc | synced w m i hpc
      | yield w m i hpc => simp [hpc, Pc.Inside] at hin
  · have hframe := frame_step h hd
    have hactor : some r ≠ a.actor := fun e =>
      hdc (Option.some.inj (hd.symm.trans (site_of_actor hi h hc e.symm)))
    exact ⟨hframe.top r c hc (Ne.symm hdc) hactor, hframe.versions c (Ne.symm hdc),
      hframe.depth r hactor⟩

end LibCoro.Rcu
