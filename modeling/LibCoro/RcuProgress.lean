import LibCoro.RcuSection
import LibCoro.RcuGrace

namespace LibCoro.Rcu

open Machine

variable {C : Type} [DecidableEq C] {n : Nat} {s t : State C} {a : Act C} {c v : Nat}

/-- The core does not hold up the grace period with ticket `v`, and no `rcu_read_lock` is going to
store a version there that would. -/
structure Clear (c v : Nat) (s : State C) : Prop where
  version : v ≤ s.versions c
  locking : ∀ k g, s.core k = some c → (s.pc k).InLock g → v ≤ g

def Room (s : State C) (a : Act C) : Prop := a.isTicket = true → s.sequencer + 1 < 2 ^ 64

theorem sequencer_mono (hr : Room s a) (h : step n s a = some t) : s.sequencer ≤ t.sequencer := by
  rw [sequencer_step h]
  split_ifs with ha
  · rw [ticket_eq (hr ha)]
    exact Nat.le_succ _
  · exact Nat.le_refl _

theorem meets_room {as : List (Act C)} (hw : s.sequencer + tickets as < 2 ^ 64) :
    Meets (step n) Room s as := by
  induction as generalizing s with
  | nil => trivial
  | cons a as ih =>
    simp only [tickets, List.countP_cons] at hw ih
    refine (meets_cons Room s a as).mpr ⟨fun ha => ?_, fun t ht => ih ?_⟩
    · simp only [ha, if_true] at hw
      omega
    · rw [sequencer_step ht]
      split_ifs with ha
      · simp only [ha, if_true] at hw
        rw [ticket_eq (by omega)]
        omega
      · omega

theorem clear_of_same {k : C} (hpc : ∀ j, j ≠ k → t.pc j = s.pc j)
    (hcore : ∀ j, j ≠ k → t.core j = s.core j)
    (hlock : ∀ j g, j ≠ k → s.core j = some c → (s.pc j).InLock g → v ≤ g) (hv : v ≤ t.versions c)
    (hk : ∀ g, t.core k = some c → (t.pc k).InLock g → v ≤ g) : Clear c v t := by
  refine ⟨hv, fun j g hj hg => ?_⟩
  by_cases hjk : j = k
  · exact hk g (hjk ▸ hj) (hjk ▸ hg)
  · rw [hcore j hjk] at hj
    rw [hpc j hjk] at hg
    exact hlock j g hjk hj hg

theorem clear_advances {k : C} {d : Nat} (hc : Clear c v s) (hv : v ≤ DONE)
    (hd : s.top k = some d) (h : Advances n s d k t) : Clear c v t := by
  have hcore := ((top_eq_some s k d).mp hd).1
  have hne : ∀ j, j ≠ k → t.pc j = s.pc j := fun j hj =>
    (frame_advances hd h).pc j fun e => hj (Option.some.inj e)
  have hlock := fun j g (_ : j ≠ k) => hc.locking j g
  cases h with
  | other g hpc _ =>
    refine clear_of_same hne (fun j _ => rfl) hlock hc.version fun g' hk hg => ?_
    rw [pc_goto] at hg
    obtain hg | hg := hg <;> cases hg
    exact hc.locking k g hk (.inl hpc)
  | store g hpc =>
    refine clear_of_same hne (fun j _ => rfl) hlock ?_ fun g' _ hg =>
      absurd hg (not_inLock_goto _ k not_inLock_idle)
    by_cases hcd : c = d
    · have hg := hc.locking k g (hcd ▸ hcore) (.inr hpc)
      simpa [State.goto, State.setDepth, hcd] using hg
    · simpa [State.goto, State.setDepth, hcd] using hc.version
  | yield w m i hpc =>
    refine clear_of_same hne (fun j hj => Function.update_of_ne hj _ _) hlock ?_ fun g' _ hg => ?_
    · by_cases hcd : c = d
      · simpa [rcuOffline, State.goto, hcd] using hv
      · simpa [rcuOffline, State.goto, State.leave, hcd] using hc.version
    · exact absurd hg (not_inLock_goto _ k (by simp [Pc.InLock]))
  | same | pass | wait | synced | look | looked | leave | callback =>
    refine clear_of_same hne (fun j _ => rfl) hlock hc.version fun g' _ hg => ?_
    exact absurd hg (not_inLock_goto _ k (by simp [Pc.InLock]))

theorem clear_calls {k : C} {d : Nat} (hc : Clear c v s) (hs : v ≤ s.sequencer)
    (hd : s.top k = some d) (hpc : s.pc k = .idle) (h : Calls s d k a t) : Clear c v t := by
  have hne : ∀ j, j ≠ k → t.pc j = s.pc j := fun j hj =>
    (frame_calls hd h).pc j fun e => hj (Option.some.inj e)
  have hlock := fun j g (_ : j ≠ k) => hc.locking j g
  cases h with
  | suspend =>
    refine clear_of_same hne (fun j hj => Function.update_of_ne hj _ _) hlock hc.version
      fun g _ hg => ?_
    change (s.pc k).InLock g at hg
    exact absurd (hpc ▸ hg) (not_inLock_idle g)
  | load hcount =>
    refine clear_of_same hne (fun j _ => rfl) hlock hc.version fun g _ hg => ?_
    rw [pc_goto] at hg
    obtain hg | hg := hg <;> cases hg
    exact hs
  | synchronize | threadCallRcu =>
    exact clear_of_same hne (fun j _ => rfl) hlock hc.version fun g _ hg =>
      absurd hg (not_inLock_goto _ k (by simp [Pc.InLock]))
  | callRcu head func =>
    refine clear_of_same hne (fun j _ => by simp) hlock (by simpa using hc.version) fun g _ hg => ?_
    rw [pc_callRcu_self, hpc] at hg
    split_ifs at hg <;> simp [Pc.InLock] at hg
  | count _ | readUnlock _ | dereference _ | assign _ _ => exact ⟨hc.version, hc.locking⟩

theorem clear_step (hc : Clear c v s) (hv : v ≤ DONE) (hs : v ≤ s.sequencer)
    (h : step n s a = some t) : Clear c v t := by
  have hlock := fun k j g (_ : j ≠ k) => hc.locking j g
  cases moves_of_step h with
  | resume d k _ _ hpc _ =>
    refine clear_of_same (s := s) (fun j _ => rfl) (fun j hj => Function.update_of_ne hj _ _) (hlock k)
      hc.version fun g _ hg => ?_
    change (s.pc k).InLock g at hg
    exact absurd (hpc ▸ hg) (not_inLock_idle g)
  | offline d _ _ =>
    refine ⟨?_, hc.locking⟩
    by_cases hcd : c = d
    · simpa [rcuOffline, hcd] using hv
    · simpa [rcuOffline, hcd] using hc.version
  | deliver k w m i d hpc _ =>
    exact clear_of_same (s := s) (fun j hj => Function.update_of_ne hj _ _)
      (fun j hj => Function.update_of_ne hj _ _) (hlock k) hc.version fun g _ hg =>
        absurd hg (not_inLock_goto _ k (by simp [Pc.InLock]))
  | call d k hd hpc h => exact clear_calls hc hs hd hpc h
  | advance d k hd h => exact clear_advances hc hv hd h

/-- The core is clear, or will be when its `rcu_read_lock` returns. -/
def Caught (c v : Nat) (s : State C) : Prop :=
  Clear c v s ∨ ∃ k g, s.top k = some c ∧ (s.pc k).InLock g ∧ v ≤ g

theorem Located.inLock (hl : Located s) {j : C} {g : Nat} (hj : s.core j = some c)
    (hg : (s.pc j).InLock g) : s.top j = some c := by
  obtain ⟨d, hd⟩ := hl j (by obtain hg | hg := hg <;> simp [hg])
    (by obtain hg | hg := hg <;> simp [hg, Pc.Yielded])
  rw [hd, ← hj]
  exact ((top_eq_some s j d).mp hd).1.symm

theorem advance_of_actor {k : C} (h : step n s a = some t) (hk : s.pc k ≠ .idle)
    (hy : ¬ (s.pc k).Yielded) (ha : a.actor = some k) : a = .advance k := by
  cases moves_of_step h with
  | offline d _ _ => cases ha
  | resume d j _ _ hpc _ =>
    cases ha
    exact absurd hpc hk
  | deliver j w m i d hpc _ =>
    cases ha
    rw [hpc] at hy
    exact absurd trivial hy
  | call d j _ hpc h =>
    cases h.actor.symm.trans ha
    exact absurd hpc hk
  | advance d j _ _ =>
    cases ha
    rfl

theorem caught_step (hl : Located s) (hc : Caught c v s) (hv : v ≤ DONE) (hs : v ≤ s.sequencer)
    (h : step n s a = some t) : Caught c v t := by
  obtain hc | ⟨k, g, hk, hg, hvg⟩ := hc
  · exact .inl (clear_step hc hv hs h)
  · have hidle : s.pc k ≠ .idle := by obtain hg | hg := hg <;> simp [hg]
    have hy : ¬ (s.pc k).Yielded := by obtain hg | hg := hg <;> simp [hg, Pc.Yielded]
    have hlock : ∀ j g', j ≠ k → s.core j = some c → (s.pc j).InLock g' → v ≤ g' :=
      fun j g' hj hc' hg' => absurd (top_unique (hl.inLock hc' hg') hk) hj
    by_cases ha : a = .advance k
    · subst ha
      obtain ⟨d, hd, h⟩ := advances_of_step h
      obtain rfl : d = c := Option.some.inj (hd.symm.trans hk)
      have hne : ∀ j, j ≠ k → t.pc j = s.pc j := fun j hj =>
        (frame_advances hd h).pc j fun e => hj (Option.some.inj e)
      cases h with
      | same g' hpc hg' =>
        obtain hg | hg := hg <;> rw [hpc] at hg <;> cases hg
        refine .inl (clear_of_same hne (fun j _ => rfl) hlock (hg' ▸ hvg) fun g' _ hg => ?_)
        exact absurd hg (not_inLock_goto _ k not_inLock_idle)
      | other g' hpc _ =>
        obtain hg | hg := hg <;> rw [hpc] at hg <;> cases hg
        exact .inr ⟨k, g, hk, .inr (pc_goto s k _), hvg⟩
      | store g' hpc =>
        obtain hg | hg := hg <;> rw [hpc] at hg <;> cases hg
        refine .inl (clear_of_same hne (fun j _ => rfl) hlock ?_ fun g' _ hg => ?_)
        · simpa [State.goto, State.setDepth] using hvg
        · exact absurd hg (not_inLock_goto _ k not_inLock_idle)
      | _ => obtain hg | hg := hg <;> simp_all
    · obtain ⟨d, hd⟩ := site_of_step h
      have hdc : c ≠ d := by
        rintro rfl
        exact ha (advance_of_busy h hk hidle hd)
      have hact : some k ≠ a.actor := fun e => ha (advance_of_actor h hidle hy e.symm)
      refine .inr ⟨k, g, (frame_step h hd).top k c hk hdc hact, ?_, hvg⟩
      rw [(frame_step h hd).pc k hact]
      exact hg

def lockAt (s : State C) : Act C → Option Nat
  | .readLock k => s.top k
  | _ => none

def offlineAt (s : State C) : Act C → Option Nat
  | .offline c => some c
  | .advance k => if (s.pc k).isYield then s.top k else none
  | _ => none

def Counted (s : State C) : Prop := ∀ c, s.rcuCount c ≤ 1023

theorem counted_step (hs : Counted s) (h : step n s a = some t) : Counted t := by
  intro c
  have hoff : ∀ d, Function.update s.rcuCount d 1023 c ≤ 1023 := by
    intro d
    by_cases hcd : c = d
    · simp [hcd]
    · simpa [hcd] using hs c
  cases moves_of_step h with
  | offline d _ _ => exact hoff d
  | resume | deliver => exact hs c
  | call d k _ _ h =>
    cases h with
    | load _ =>
      by_cases hcd : c = d
      · simp [State.goto, hcd]
      · simpa [State.goto, hcd] using hs c
    | count hcount =>
      by_cases hcd : c = d
      · have := hs d
        simp only [State.setDepth, hcd, Function.update_self]
        omega
      · simpa [State.setDepth, hcd] using hs c
    | callRcu head func => simpa using hs c
    | _ => exact hs c
  | advance d k _ h =>
    cases h with
    | yield => exact hoff d
    | _ => exact hs c

theorem caught_of_offline (hl : Located s) (hv : v ≤ DONE) (h : step n s a = some t)
    (ha : offlineAt s a = some c) : Caught c v t := by
  cases moves_of_step h with
  | offline d _ hcalm =>
    cases ha
    refine .inl ⟨by simpa [rcuOffline] using hv, fun k g hk hg => ?_⟩
    -- nobody is inside `rcu_read_lock` on a calm core
    have htop := hl.inLock hk hg
    have hidle : s.pc k = .idle := by
      simpa [State.calm, ((top_eq_some s k c).mp htop).2] using hcalm
    exact absurd (hidle ▸ hg) (not_inLock_idle g)
  | advance d k hd h =>
    simp only [offlineAt] at ha
    split_ifs at ha with hy
    obtain rfl : d = c := Option.some.inj (hd.symm.trans ha)
    cases h with
    | yield w m i hpc =>
      refine .inl (clear_of_same (s := s) (fun j hj => pc_goto_ne _ _ hj)
        (fun j hj => Function.update_of_ne hj _ _) (fun j g hj hc hg => ?_) ?_ fun g _ hg => ?_)
      · exact absurd (top_unique (hl.inLock hc hg) hd) hj
      · simpa [rcuOffline, State.goto] using hv
      · exact absurd hg (not_inLock_goto _ k (by simp [Pc.InLock]))
    | same g hpc | other g hpc | store g hpc | pass w m i hpc | wait w m i hpc | synced w m i hpc
    | look m m' i hpc | looked m i hpc | leave m node hpc | callback m x hpc =>
      simp [hpc, Pc.isYield] at hy
  | call d k _ _ h => cases h <;> cases ha
  | resume | deliver => cases ha

theorem count_step (hl : Located s) (hv : v ≤ DONE) (hs : v ≤ s.sequencer)
    (h : step n s a = some t) : Caught c v t ∨
      s.rcuCount c + (lockAt s a).toList.count c ≤ t.rcuCount c := by
  by_cases ho : offlineAt s a = some c
  · exact .inl (caught_of_offline hl hv h ho)
  cases moves_of_step h with
  | offline d _ _ =>
    have hcd : c ≠ d := fun e => ho (congrArg some e.symm)
    exact .inr (by simp [lockAt, rcuOffline, hcd])
  | resume | deliver => exact .inr (Nat.le_refl _)
  | call d k hd _ h =>
    cases h with
    | load hcount =>
      by_cases hcd : d = c
      · exact .inl (.inr ⟨k, s.sequencer, hcd ▸ hd, .inl (pc_goto _ k _), hs⟩)
      · exact .inr (by simp [lockAt, hd, State.goto, hcd, Ne.symm hcd])
    | count _ =>
      by_cases hcd : d = c
      · exact .inr (by simp [lockAt, hd, State.setDepth, hcd])
      · exact .inr (by simp [lockAt, hd, State.setDepth, hcd, Ne.symm hcd])
    | callRcu head func => exact .inr (by simp [lockAt])
    | _ => exact .inr (Nat.le_refl _)
  | advance d k hd h =>
    cases h with
    | yield w m i hpc =>
      have hcd : c ≠ d := by
        rintro rfl
        exact ho (by simp [offlineAt, hpc, Pc.isYield, hd])
      exact .inr (by simp [lockAt, rcuOffline, State.goto, State.leave, hcd])
    | _ => exact .inr (Nat.le_refl _)

structure Going (v : Nat) (s : State C) : Prop where
  located : Located s
  counted : Counted s
  taken : v ≤ s.sequencer

theorem going_step (hg : Going v s) (hr : Room s a) (h : step n s a = some t) : Going v t :=
  ⟨located_step hg.located h, counted_step hg.counted h, hg.taken.trans (sequencer_mono hr h)⟩

def CaughtOffline (c v : Nat) (es : List Nat) (s : State C) : Prop :=
  Going v s ∧ (c ∈ es → Caught c v s)

theorem caughtOffline_step {es : List Nat} (hs : CaughtOffline c v es s) (hv : v ≤ DONE)
    (hr : Room s a) (h : step n s a = some t) :
    CaughtOffline c v (es ++ (offlineAt s a).toList) t := by
  refine ⟨going_step hs.1 hr h, fun hmem => ?_⟩
  rcases List.mem_append.mp hmem with hmem | hmem
  · exact caught_step hs.1.located (hs.2 hmem) hv hs.1.taken h
  · exact caught_of_offline hs.1.located hv h (by simpa using hmem)

def CaughtLocking (c v : Nat) (es : List Nat) (s : State C) : Prop :=
  Going v s ∧ (Caught c v s ∨ es.count c ≤ s.rcuCount c)

theorem caughtLocking_step {es : List Nat} (hs : CaughtLocking c v es s) (hv : v ≤ DONE)
    (hr : Room s a) (h : step n s a = some t) :
    CaughtLocking c v (es ++ (lockAt s a).toList) t := by
  refine ⟨going_step hs.1 hr h, ?_⟩
  rcases hs.2 with hcaught | hle
  · exact .inl (caught_step hs.1.located hcaught hv hs.1.taken h)
  · refine (count_step hs.1.located hv hs.1.taken h).imp_right fun hstep => ?_
    rw [List.count_append]
    omega

/-- A core is caught up once it went offline, or after 1024 calls of `rcu_read_lock`. -/
theorem caught_run {as : List (Act C)} (h : run (step n) s as = some t)
    (hm : Meets (step n) Room s as) (hg : Going v s) (hv : v ≤ DONE)
    (hc : c ∈ trace (step n) offlineAt s as ∨ 1024 ≤ (trace (step n) lockAt s as).count c) :
    Caught c v t := by
  rcases hc with hc | hc
  · have hstart : CaughtOffline c v [] s := ⟨hg, nofun⟩
    exact (trace_invariant_of_meets offlineAt Room (CaughtOffline c v)
      (fun es s a t hs hr h => caughtOffline_step hs hv hr h) h hm hstart).2 hc
  · have hstart : CaughtLocking c v [] s := ⟨hg, .inr (Nat.zero_le _)⟩
    have hrun := trace_invariant_of_meets lockAt Room (CaughtLocking c v)
      (fun es s a t hs hr h => caughtLocking_step hs hv hr h) h hm hstart
    exact hrun.2.resolve_right fun hle =>
      absurd ((hc.trans hle).trans (hrun.1.counted c)) (by decide)

def AtSync (v m : Nat) (p : Pc) : Prop :=
  ∃ i, p = .sync v m i ∨ p = .syncYield v m i ∨ ∃ d, p = .syncYielded v m i d

def Pc.left (n : Nat) : Pc → Nat
  | .sync _ _ i | .syncYielded _ _ i _ => n - i + 1
  | .syncYield _ _ i => n - i + 2
  | _ => 0

theorem sync_step {k : C} {m : Nat} (hp : AtSync v m (s.pc k)) (h : step n s a = some t) :
    grace n s a = some (.finish k) ∨ AtSync v m (t.pc k) ∧
      ((∀ c, c < n → c ≠ m → v ≤ s.versions c) →
        (t.pc k).left n + [a].count (.advance k) ≤ (s.pc k).left n) := by
  obtain ⟨i, hp⟩ := hp
  have hidle : s.pc k ≠ .idle := by
    obtain hp | hp | ⟨d, hp⟩ := hp <;> simp [hp]
  by_cases ha : a.actor = some k
  · cases moves_of_step h with
    | offline d _ _ => cases ha
    | resume d j _ _ hj _ =>
      cases ha
      exact absurd hj hidle
    | call d j _ hj h =>
      cases h.actor.symm.trans ha
      exact absurd hj hidle
    | deliver j w m' i' d hj _ =>
      cases ha
      obtain hp | hp | ⟨e, hp⟩ := hp <;> rw [hj] at hp <;> cases hp
      exact .inr ⟨⟨i, .inl (pc_goto _ k _)⟩, fun _ => by simp [hj, Pc.left]⟩
    | advance d j _ h =>
      cases ha
      cases h with
      | pass w m' i' hj hi _ =>
        obtain hp | hp | ⟨e, hp⟩ := hp <;> rw [hj] at hp <;> cases hp
        refine .inr ⟨⟨i + 1, .inl (pc_goto _ k _)⟩, fun _ => ?_⟩
        simp only [pc_goto, hj, Pc.left, List.count_singleton_self]
        omega
      | wait w m' i' hj hi him hv =>
        obtain hp | hp | ⟨e, hp⟩ := hp <;> rw [hj] at hp <;> cases hp
        exact .inr ⟨⟨i, .inr (.inl (pc_goto _ k _))⟩, fun hc => absurd hv (Nat.not_lt.mpr (hc i hi him))⟩
      | synced w m' i' hj hi =>
        obtain hp | hp | ⟨e, hp⟩ := hp <;> rw [hj] at hp <;> cases hp
        exact .inl (by simp [grace, hj, Nat.not_lt.mpr hi])
      | yield w m' i' hj =>
        obtain hp | hp | ⟨e, hp⟩ := hp <;> rw [hj] at hp <;> cases hp
        exact .inr ⟨⟨i, .inr (.inr ⟨d, pc_goto _ k _⟩)⟩, fun _ => by simp [hj, Pc.left]⟩
      | same g hj | other g hj | store g hj | look m' m'' i' hj | looked m' i' hj
      | leave m' node hj | callback m' x hj => simp [hj] at hp
  · obtain ⟨d, hd⟩ := site_of_step h
    have hpc := (frame_step h hd).pc k (Ne.symm ha)
    have hne : a ≠ .advance k := by
      rintro rfl
      exact ha rfl
    exact .inr ⟨⟨i, by rw [hpc]; exact hp⟩, fun _ => by simp [hpc, hne]⟩

/-- Where no core holds it up the writer returns by its own steps. -/
theorem finish_of_turns {as : List (Act C)} {k : C} {m : Nat} (h : run (step n) s as = some t)
    (hm : Meets (step n) Room s as) (hs : v ≤ s.sequencer) (hv : v ≤ DONE)
    (hp : AtSync v m (s.pc k)) (hc : ∀ c, c < n → c ≠ m → Clear c v s)
    (hleft : (s.pc k).left n ≤ as.count (.advance k)) :
    .finish k ∈ trace (step n) (grace n) s as := by
  induction as generalizing s with
  | nil =>
    obtain ⟨i, hp | hp | ⟨d, hp⟩⟩ := hp <;> simp [hp, Pc.left] at hleft
  | cons a as ih =>
    obtain ⟨u, hu, hrun⟩ := (run_cons s t a as).mp h
    obtain ⟨hr, hms⟩ := (meets_cons Room s a as).mp hm
    rw [trace_cons hu]
    rcases sync_step hp hu with he | ⟨hpu, hlu⟩
    · exact List.mem_append_left _ (by simp [he])
    · refine List.mem_append_right _ (ih hrun (hms u hu) (hs.trans (sequencer_mono hr hu)) hpu
        (fun c hcn hcm => clear_step (hc c hcn hcm) hv hs hu) ?_)
      have hstep := hlu fun c hcn hcm => (hc c hcn hcm).version
      rw [← List.singleton_append, List.count_append] at hleft
      omega

theorem sync_run {as : List (Act C)} {k : C} {m : Nat} (h : run (step n) s as = some t)
    (hp : AtSync v m (s.pc k)) :
    .finish k ∈ trace (step n) (grace n) s as ∨ AtSync v m (t.pc k) := by
  induction as generalizing s with
  | nil => exact .inr ((run_nil s t).mp h ▸ hp)
  | cons a as ih =>
    obtain ⟨u, hu, hrun⟩ := (run_cons s t a as).mp h
    rw [trace_cons hu]
    rcases sync_step hp hu with he | ⟨hpu, -⟩
    · exact .inl (List.mem_append_left _ (by simp [he]))
    · exact (ih hrun hpu).imp_left (List.mem_append_right _)

/-- Let `k` call `synchronize_rcu` on core `m`. Once each other core went offline or had 1024 calls
of `rcu_read_lock`, none of which is still running, `k` returns within `n + 2` of its own steps,
whatever happens in between. -/
theorem synchronize_returns (n : Nat) (heads : Addr → RcuHead) (pointers : Addr → Addr)
    (a₁ a₂ a₃ : List (Act C)) (k : C) (m : Nat) (s₁ s₂ s₃ : State C)
    (h₁ : run (step n) (init heads pointers) a₁ = some s₁) (hk : s₁.top k = some m)
    (h₂ : run (step n) s₁ (.synchronize k :: a₂) = some s₂)
    (hpass : ∀ c, c < n → c ≠ m → c ∈ trace (step n) offlineAt s₁ (.synchronize k :: a₂) ∨
      1024 ≤ (trace (step n) lockAt s₁ (.synchronize k :: a₂)).count c)
    (hlock : ∀ j c g, c ≠ m → s₂.core j = some c → ¬ (s₂.pc j).InLock g)
    (h₃ : run (step n) s₂ a₃ = some s₃) (hturns : n + 2 ≤ a₃.count (.advance k))
    (ht : tickets (a₁ ++ .synchronize k :: a₂ ++ a₃) < 2 ^ 63 - 1) :
    .finish k ∈ trace (step n) (grace n) s₁ (.synchronize k :: a₂ ++ a₃) := by
  have hcount : tickets (a₁ ++ .synchronize k :: a₂ ++ a₃) =
      tickets a₁ + (tickets a₂ + 1) + tickets a₃ := by
    simp only [tickets, List.countP_append, List.countP_cons, Act.isTicket, if_true]
  obtain ⟨-, hseq⟩ := inv_erase_run h₁ (inv_erase (inv_init heads pointers))
    (by simp only [init]; omega)
  replace hseq : s₁.sequencer = tickets a₁ := hseq.trans (Nat.zero_add _)
  obtain ⟨u, hu, hrun⟩ := (run_cons s₁ s₂ _ a₂).mp h₂
  obtain ⟨d, hd, -, rfl⟩ := (call_eq_some s₁ u k _).mp hu
  obtain rfl : d = m := Option.some.inj (hd.symm.trans hk)
  -- the ticket, which the versions of offline cores have reached
  have hticket : ticket s₁ = tickets a₁ + 1 := by
    rw [ticket_eq (by omega), hseq]
  have hv : ticket s₁ ≤ DONE := by
    simp only [DONE]
    omega
  have hl : Located s₁ :=
    run_invariant Located (fun _ _ _ hl h => located_step hl h) h₁ (located_init heads pointers)
  have hcounted : Counted s₁ :=
    run_invariant Counted (fun _ _ _ hs h => counted_step hs h) h₁ fun c => Nat.le_refl _
  have hg : Going (ticket s₁) (synchronizeRcu s₁ d k) :=
    ⟨located_step hl hu, counted_step hcounted hu, Nat.le_refl _⟩
  have hroom : Meets (step n) Room (synchronizeRcu s₁ d k) (a₂ ++ a₃) := by
    have hs : (synchronizeRcu s₁ d k).sequencer = tickets a₁ + 1 := hticket
    have ha : tickets (a₂ ++ a₃) = tickets a₂ + tickets a₃ := List.countP_append
    exact meets_room (by omega)
  obtain ⟨hr₂, hr₃⟩ := meets_append Room hroom hrun
  have hp : AtSync (ticket s₁) d ((synchronizeRcu s₁ d k).pc k) := ⟨0, .inl (pc_goto _ k _)⟩
  rw [trace_append h₂ a₃, trace_cons hu]
  rcases sync_run hrun hp with hfin | hp₂
  · exact List.mem_append_left _ (List.mem_append_right _ hfin)
  · refine List.mem_append_right _ (finish_of_turns h₃ hr₃ ?_ hv hp₂ (fun c hcn hcd => ?_) ?_)
    · exact (run_invariant_of_meets Room (Going (ticket s₁)) (fun _ _ _ hg hr h => going_step hg hr h)
        hrun hr₂ hg).taken
    · have hc := hpass c hcn hcd
      rw [trace_cons hu, trace_cons hu] at hc
      obtain hclear | ⟨j, g, hj, hjg, -⟩ := caught_run hrun hr₂ hg hv hc
      · exact hclear
      · exact absurd hjg (hlock j c g hcd ((top_eq_some s₂ j c).mp hj).1)
    · obtain ⟨i, hp | hp | ⟨e, hp⟩⟩ := hp₂ <;> simp only [hp, Pc.left] <;> omega

theorem synchronize_returns_offline : ∃ s₁ s₂ s₃ : State (Fin 2),
    run (step 2) (init (fun _ => ⟨none, 0, 0⟩) id)
      [.resume 0 0, .readLock 0, .advance 0, .advance 0, .resume 1 1] = some s₁ ∧
    run (step 2) s₁ [.synchronize 1, .advance 1, .readUnlock 0, .suspend 0, .offline 0] = some s₂ ∧
    run (step 2) s₂ [.advance 1, .deliver 1, .advance 1, .advance 1, .advance 1] = some s₃ ∧
    .finish 1 ∈ trace (step 2) (grace 2) s₁ [.synchronize 1, .advance 1, .readUnlock 0, .suspend 0,
      .offline 0, .advance 1, .deliver 1, .advance 1, .advance 1, .advance 1] := by
  refine ⟨_, _, _, rfl, rfl, rfl, synchronize_returns 2 (fun _ => ⟨none, 0, 0⟩) id
    [.resume 0 0, .readLock 0, .advance 0, .advance 0, .resume 1 1]
    [.advance 1, .readUnlock 0, .suspend 0, .offline 0]
    [.advance 1, .deliver 1, .advance 1, .advance 1, .advance 1] 1 1 _ _ _ rfl rfl rfl ?_ ?_ rfl
    (by decide) (by decide)⟩
  · intro c hc hc1
    obtain rfl : c = 0 := by omega
    exact .inl (by decide)
  · intro j c g _ _ hg
    match j with
    | 0 | 1 => rcases hg with hg | hg <;> cases hg

end LibCoro.Rcu
