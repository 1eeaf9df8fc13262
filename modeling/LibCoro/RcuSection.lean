import LibCoro.CallRcu
import Mathlib.Data.List.TakeWhile

namespace LibCoro.Rcu

open Machine

variable {C : Type} [DecidableEq C] {n : Nat} {s t : State C} {a : Act C} {c v : Nat}

def Pc.isYield : Pc → Bool
  | .syncYield _ _ _ => true
  | _ => false

/-- What may happen on core `c` while it stands for a section that was entered at version `v`:
nobody goes offline there, and no `rcu_read_lock` publishes a later version. -/
def Keeps (c v : Nat) (s : State C) : Act C → Prop
  | .offline d => d ≠ c
  | .readLock k => s.top k = some c → s.rcuCount c + 1 = 1024 → s.sequencer ≤ v
  | .advance k => (s.pc k).isYield = true → s.top k ≠ some c
  | _ => True

instance (c v : Nat) (s : State C) : (a : Act C) → Decidable (Keeps c v s a)
  | .offline d => inferInstanceAs (Decidable (d ≠ c))
  | .readLock k =>
    inferInstanceAs (Decidable (s.top k = some c → s.rcuCount c + 1 = 1024 → s.sequencer ≤ v))
  | .advance k => inferInstanceAs (Decidable ((s.pc k).isYield = true → s.top k ≠ some c))
  | .resume _ _ | .deliver _ | .suspend _ | .readUnlock _ | .dereference _ _ | .assign _ _ _
  | .synchronize _ | .callRcu _ _ _ | .threadCallRcu _ => .isTrue trivial

/-- A coroutine in the middle of an rcu function is the one that runs on its core. -/
def Located (s : State C) : Prop :=
  ∀ k, s.pc k ≠ .idle → ¬ (s.pc k).Yielded → ∃ c, s.top k = some c

theorem stack_advances {k : C} (h : Advances n s c k t) (hy : ¬ (t.pc k).Yielded) :
    t.stack = s.stack ∧ t.core = s.core := by
  cases h with
  | yield w m i _ =>
    rw [pc_goto] at hy
    exact absurd trivial hy
  | _ => exact ⟨rfl, rfl⟩

theorem located_step (hl : Located s) (h : step n s a = some t) : Located t := by
  obtain ⟨d, hd⟩ := site_of_step h
  have hframe := frame_step h hd
  intro k hk hy
  by_cases hact : a.actor = some k
  · cases moves_of_step h with
    | offline e _ _ => cases hact
    | resume e j _ _ hpc _ =>
      cases hact
      exact absurd hpc hk
    | deliver j w m i e _ _ =>
      cases hact
      exact ⟨e, top_enter_self s e k⟩
    | call e j he hpc h =>
      cases h.actor.symm.trans hact
      by_cases hs : a = .suspend k
      · subst hs
        cases h
        exact absurd hpc hk
      · exact ⟨e, (congrFun (h.top hs) k).trans he⟩
    | advance e j he h =>
      cases hact
      obtain ⟨hst, hco⟩ := stack_advances h hy
      exact ⟨e, (top_of_same hst hco).trans he⟩
  · have hne : some k ≠ a.actor := Ne.symm hact
    rw [hframe.pc k hne] at hk hy
    obtain ⟨e, he⟩ := hl k hk hy
    have hed : e ≠ d := by
      rintro rfl
      exact hact (congrArg Act.actor (advance_of_busy h he hk hd))
    exact ⟨e, hframe.top k e he hed hne⟩

theorem located_init (heads : Addr → RcuHead) (pointers : Addr → Addr) :
    Located (init heads pointers : State C) := fun _ h => absurd rfl h

structure Bounded (c v : Nat) (s : State C) : Prop where
  version : s.versions c ≤ v
  locking : ∀ k g, s.core k = some c → (s.pc k).InLock g → g ≤ v

theorem bounded_of_same {k : C} (hb : Bounded c v s) (hpc : ∀ j, j ≠ k → t.pc j = s.pc j)
    (hcore : ∀ j, j ≠ k → t.core j = s.core j) (hv : t.versions c ≤ v)
    (hk : ∀ g, t.core k = some c → (t.pc k).InLock g → g ≤ v) : Bounded c v t := by
  refine ⟨hv, fun j g hj hg => ?_⟩
  by_cases hjk : j = k
  · exact hk g (hjk ▸ hj) (hjk ▸ hg)
  · rw [hcore j hjk] at hj
    rw [hpc j hjk] at hg
    exact hb.locking j g hj hg

theorem not_inLock_goto {g : Nat} {p : Pc} (s : State C) (k : C) (hp : ∀ g, ¬ p.InLock g) :
    ¬ ((s.goto k p).pc k).InLock g := by
  rw [pc_goto]
  exact hp g

theorem bounded_advances {k : C} {d : Nat} (hb : Bounded c v s) (hk : Keeps c v s (.advance k))
    (hd : s.top k = some d) (h : Advances n s d k t) : Bounded c v t := by
  have hcore := ((top_eq_some s k d).mp hd).1
  have hne : ∀ j, j ≠ k → t.pc j = s.pc j := fun j hj =>
    (frame_advances hd h).pc j fun e => hj (Option.some.inj e)
  cases h with
  | other g hpc _ =>
    refine bounded_of_same hb hne (fun j _ => rfl) hb.version fun g' hc hg => ?_
    rw [pc_goto] at hg
    obtain hg | hg := hg <;> cases hg
    exact hb.locking k g hc (.inl hpc)
  | store g hpc =>
    refine bounded_of_same hb hne (fun j _ => rfl) ?_ fun g' _ hg =>
      absurd hg (not_inLock_goto _ k not_inLock_idle)
    by_cases hcd : c = d
    · have hg := hb.locking k g (hcd ▸ hcore) (.inr hpc)
      simpa [State.goto, State.setDepth, hcd] using hg
    · simpa [State.goto, State.setDepth, hcd] using hb.version
  | yield w m i hpc =>
    simp only [Keeps, hpc, Pc.isYield, true_implies] at hk
    have hdc : c ≠ d := fun e => hk (e ▸ hd)
    refine bounded_of_same hb hne (fun j hj => Function.update_of_ne hj _ _) ?_ fun g' _ hg => ?_
    · simpa [rcuOffline, State.goto, State.leave, hdc] using hb.version
    · exact absurd hg (not_inLock_goto _ k (by simp [Pc.InLock]))
  | same | pass | wait | synced | look | looked | leave | callback =>
    refine bounded_of_same hb hne (fun j _ => rfl) hb.version fun g' _ hg => ?_
    exact absurd hg (not_inLock_goto _ k (by simp [Pc.InLock]))

theorem bounded_calls {k : C} {d : Nat} (hb : Bounded c v s) (hk : Keeps c v s a)
    (hd : s.top k = some d) (hpc : s.pc k = .idle) (h : Calls s d k a t) : Bounded c v t := by
  have hne : ∀ j, j ≠ k → t.pc j = s.pc j := fun j hj =>
    (frame_calls hd h).pc j fun e => hj (Option.some.inj e)
  cases h with
  | suspend =>
    refine bounded_of_same hb hne (fun j hj => Function.update_of_ne hj _ _) hb.version fun g _ hg => ?_
    change (s.pc k).InLock g at hg
    exact absurd (hpc ▸ hg) (not_inLock_idle g)
  | load hcount =>
    refine bounded_of_same hb hne (fun j _ => rfl) hb.version fun g hc hg => ?_
    rw [pc_goto] at hg
    obtain hg | hg := hg <;> cases hg
    have hcd : d = c := Option.some.inj (((top_eq_some s k d).mp hd).1.symm.trans hc)
    exact hk (hcd ▸ hd) (hcd ▸ hcount)
  | synchronize | threadCallRcu =>
    exact bounded_of_same hb hne (fun j _ => rfl) hb.version fun g _ hg =>
      absurd hg (not_inLock_goto _ k (by simp [Pc.InLock]))
  | callRcu head func =>
    refine bounded_of_same hb hne (fun j _ => by simp) (by simpa using hb.version) fun g _ hg => ?_
    rw [pc_callRcu_self, hpc] at hg
    split_ifs at hg <;> simp [Pc.InLock] at hg
  | count _ | readUnlock _ | dereference _ | assign _ _ => exact ⟨hb.version, hb.locking⟩

theorem bounded_step (hb : Bounded c v s) (hk : Keeps c v s a) (h : step n s a = some t) :
    Bounded c v t := by
  cases moves_of_step h with
  | resume d k _ _ hpc _ =>
    refine bounded_of_same hb (fun j _ => rfl) (fun j hj => Function.update_of_ne hj _ _) hb.version
      fun g _ hg => ?_
    change (s.pc k).InLock g at hg
    exact absurd (hpc ▸ hg) (not_inLock_idle g)
  | offline d _ _ =>
    refine ⟨?_, hb.locking⟩
    simpa [rcuOffline, Ne.symm hk] using hb.version
  | deliver k w m i d hpc _ =>
    exact bounded_of_same hb (fun j hj => Function.update_of_ne hj _ _)
      (fun j hj => Function.update_of_ne hj _ _) hb.version fun g _ hg =>
        absurd hg (not_inLock_goto _ k (by simp [Pc.InLock]))
  | call d k hd hpc h => exact bounded_calls hb hk hd hpc h
  | advance d k hd h => exact bounded_advances hb hk hd h

theorem bounded_run {as : List (Act C)} (hb : Bounded c v s) (h : run (step n) s as = some t)
    (hm : Meets (step n) (Keeps c v) s as) : Bounded c v t :=
  run_invariant_of_meets (Keeps c v) (Bounded c v) (fun _ _ _ hb hk hs => bounded_step hb hk hs) h hm hb

/-- The state without its sections: what the code itself keeps. -/
def State.erase (s : State C) : State C := { s with depth := fun _ => 0 }

theorem erase_advance {k : C} : (advance n s.erase c k).map State.erase =
    (advance n s c k).map State.erase := by
  have hpk : s.erase.pc k = s.pc k := rfl
  have hve : s.erase.versions = s.versions := rfl
  have hhe : s.erase.heads = s.heads := rfl
  cases hpc : s.pc k with
  | idle | syncYielded w m i d => simp [advance, hpk, hpc]
  | lockStore g | syncYield w m i =>
    simp only [advance, hpk, hpc]
    rfl
  | lockCompare g =>
    simp only [advance, hpk, hpc, hve]
    by_cases hg : g = s.versions c
    · simp only [hg, if_true]
      rfl
    · simp only [hg, if_false]
      rfl
  | sync w m i | drainScan m i =>
    simp only [advance, hpk, hpc, hve]
    split_ifs <;> rfl
  | drainLoop m node =>
    cases node with
    | none =>
      simp only [advance, hpk, hpc]
      rfl
    | some x =>
      simp only [advance, hpk, hpc, hhe]
      by_cases hm : m < (s.heads x).version
      · simp only [hm, if_true]
        rfl
      · simp only [hm, if_false]
        rfl

omit [DecidableEq C] in
theorem erase_enqueue (s : State C) (d : Nat) (head : Addr) :
    rcuDataEnqueue s.erase d head = (rcuDataEnqueue s d head).erase := by
  have hda : s.erase.data = s.data := rfl
  simp only [rcuDataEnqueue, hda]
  split <;> rfl

/-- Nothing the code does depends on the sections that are open. -/
theorem erase_step (ha : ∀ k, a ≠ .readUnlock k) :
    (step n s.erase a).map State.erase = (step n s a).map State.erase := by
  have hcall : ∀ (k : C) (f g : Nat → State C), (∀ d, (f d).erase = (g d).erase) →
      (call s.erase k f).map State.erase = (call s k g).map State.erase := by
    intro k f g hfg
    change Option.map _ ((s.top k).bind _) = Option.map _ ((s.top k).bind _)
    cases s.top k with
    | none => rfl
    | some d =>
      by_cases hpc : s.pc k = .idle
      · simpa [when, hpc, State.erase] using hfg d
      · simp [when, hpc, State.erase]
  cases a with
  | resume d k =>
    change Option.map _ (when (d < n ∧ s.core k = none ∧ s.pc k = .idle ∧ s.calm d) _) = _
    simp only [step, when]
    split_ifs <;> rfl
  | offline d =>
    change Option.map _ (when (d < n ∧ s.calm d) _) = _
    simp only [step, when]
    split_ifs <;> rfl
  | deliver k =>
    have hpk : s.erase.pc k = s.pc k := rfl
    cases hpc : s.pc k with
    | syncYielded w m i d =>
      simp only [step, hpk, hpc]
      change Option.map _ (when (s.stack d = []) _) = _
      simp only [when]
      split_ifs <;> rfl
    | _ => simp [step, hpk, hpc]
  | readUnlock k => exact absurd rfl (ha k)
  | readLock k =>
    refine hcall k _ _ fun d => ?_
    unfold rcuReadLock
    change State.erase (if s.rcuCount d + 1 = 1024 then _ else _) = _
    split_ifs <;> rfl
  | callRcu k head func =>
    refine hcall k _ _ fun d => ?_
    let u : State C := { s with
      sequencer := ticket s
      heads := Function.update s.heads head { s.heads head with version := ticket s, func := func } }
    change State.erase (if 1024 ≤ ((rcuDataEnqueue u.erase d head).data d).count then
      (rcuDataEnqueue u.erase d head).goto k _ else rcuDataEnqueue u.erase d head) =
      State.erase (if 1024 ≤ ((rcuDataEnqueue u d head).data d).count then _ else _)
    rw [erase_enqueue]
    change State.erase (if 1024 ≤ ((rcuDataEnqueue u d head).data d).count then _ else _) = _
    split_ifs <;> rfl
  | suspend k | dereference k p | assign k p w | synchronize k | threadCallRcu k =>
    exact hcall k _ _ fun d => rfl
  | advance k =>
    change Option.map _ ((s.top k).bind _) = Option.map _ ((s.top k).bind _)
    cases s.top k with
    | none => rfl
    | some d => exact erase_advance

theorem inv_erase (hi : Inv s) : Inv s.erase :=
  ⟨hi.running, hi.yielded, fun k g hk => ⟨(hi.locking k g hk).1, rfl⟩,
    fun _ hk => absurd hk (Nat.lt_irrefl 0), hi.fresh⟩

theorem inv_erase_step (hi : Inv s.erase) (hw : a.isTicket = true → s.sequencer + 1 < 2 ^ 64)
    (h : step n s a = some t) : Inv t.erase := by
  by_cases ha : ∀ k, a ≠ .readUnlock k
  · have he := erase_step (n := n) (s := s) ha
    rw [h, Option.map_some, Option.map_eq_some_iff] at he
    obtain ⟨u, hu, hut⟩ := he
    rw [← hut]
    refine inv_erase (inv_step s.erase a u hi ⟨?_, hw⟩ hu)
    cases a <;> simp [Disciplined, Quiet, State.erase]
  · push Not at ha
    obtain ⟨k, rfl⟩ := ha
    simp only [step] at h
    split_ifs at h
    obtain ⟨d, -, -, rfl⟩ := (call_eq_some s t k _).mp h
    exact hi

theorem inv_erase_run {as : List (Act C)} (h : run (step n) s as = some t) (hi : Inv s.erase)
    (hw : s.sequencer + tickets as < 2 ^ 64) :
    Inv t.erase ∧ t.sequencer = s.sequencer + tickets as := by
  induction as generalizing s with
  | nil =>
    rw [(run_nil s t).mp h]
    exact ⟨hi, rfl⟩
  | cons a as ih =>
    obtain ⟨u, hu, hrun⟩ := (run_cons s t a as).mp h
    simp only [tickets, List.countP_cons] at hw ih ⊢
    have hseq : u.sequencer = s.sequencer + if a.isTicket then 1 else 0 := by
      rw [sequencer_step hu]
      split_ifs with ha
      · simp only [ha, if_true] at hw
        exact ticket_eq (by omega)
      · rfl
    have hiu := inv_erase_step hi (fun ha => by simp only [ha, if_true] at hw; omega) hu
    obtain ⟨hit, heq⟩ := ih hrun hiu (by omega)
    exact ⟨hit, by omega⟩

theorem entry_of_step {r : C} (h : step n s a = some t) (hd : s.depth r < t.depth r) :
    t.sequencer = s.sequencer ∧ t.pc r = .idle ∧ ∃ c, s.top r = some c ∧ t.top r = some c ∧
      ((s.pc r).InLock (t.versions c) ∨
        (s.pc r = .idle ∧ s.rcuCount c + 1 ≠ 1024 ∧ t.versions c = s.versions c)) := by
  have hact : a.actor = some r := by
    by_contra hact
    obtain ⟨e, he⟩ := site_of_step h
    rw [(frame_step h he).depth r (Ne.symm hact)] at hd
    exact Nat.lt_irrefl _ hd
  cases moves_of_step h with
  | offline e _ _ => cases hact
  | resume e j _ _ _ _ | deliver j w m i e _ _ => exact absurd hd (Nat.lt_irrefl _)
  | call e j he hpc h =>
    cases h.actor.symm.trans hact
    cases h with
    | count hcount => exact ⟨rfl, hpc, e, he, he, .inr ⟨hpc, hcount, rfl⟩⟩
    | readUnlock _ =>
      simp [State.setDepth] at hd
      omega
    | callRcu head func =>
      rw [depth_callRcu] at hd
      exact absurd hd (Nat.lt_irrefl _)
    | _ => exact absurd hd (Nat.lt_irrefl _)
  | advance e j he h =>
    cases hact
    cases h with
    | same g hpc hg =>
      refine ⟨rfl, pc_goto s r .idle, e, he, he, .inl (.inl ?_)⟩
      exact hpc.trans (congrArg Pc.lockCompare hg)
    | store g hpc =>
      refine ⟨rfl, pc_goto _ r .idle, e, he, he, .inl (.inr ?_)⟩
      simp [State.goto, State.setDepth, hpc]
    | _ => exact absurd hd (Nat.lt_irrefl _)

/-- The version a section is entered at has been reached by the sequencer. -/
theorem version_of_entry {r : C} (hi : Inv s.erase) (h : step n s a = some t)
    (hd : s.depth r < t.depth r) (hc : t.top r = some c) : t.versions c ≤ t.sequencer := by
  obtain ⟨hseq, -, e, hs, ht, hver⟩ := entry_of_step h hd
  obtain rfl : e = c := Option.some.inj (ht.symm.trans hc)
  rw [hseq]
  obtain hver | ⟨hpc, hcount, hver⟩ := hver
  · exact (hi.locking r _ hver).1
  · rw [hver]
    refine (fresh_of_top hi (k := r) hs fun g hg => ?_).resolve_right fun hr => ?_
    · exact not_inLock_idle g (hpc ▸ hg)
    · exact hcount (congrArg (· + 1) hr)

theorem bounded_of_entry {r : C} (hl : Located t) (h : step n s a = some t)
    (hd : s.depth r < t.depth r) (hc : t.top r = some c) : Bounded c (t.versions c) t := by
  refine ⟨Nat.le_refl _, fun k g hk hg => ?_⟩
  obtain ⟨-, hidle, -⟩ := entry_of_step h hd
  have hne : t.pc k ≠ .idle := fun e => not_inLock_idle g (e ▸ hg)
  have hy : ¬ (t.pc k).Yielded := by
    obtain hg | hg := hg <;> simp [hg, Pc.Yielded]
  obtain ⟨e, he⟩ := hl k hne hy
  obtain rfl : e = c := Option.some.inj (((top_eq_some t k e).mp he).1.symm.trans hk)
  exact absurd (top_unique he hc ▸ hidle) hne

theorem polls_of_bounded {k : C} {w : Nat} {as : List (Act C)} (hcn : c < n) (hvw : v < w)
    (hb : Bounded c v s) (hp : Polls k c w s) (h : run (step n) s as = some t)
    (hm : Meets (step n) (Keeps c v) s as) : Polls k c w t := by
  induction as generalizing s with
  | nil => rwa [(run_nil s t).mp h]
  | cons a as ih =>
    obtain ⟨u, hu, hrun⟩ := (run_cons s t a as).mp h
    obtain ⟨hk, hks⟩ := (meets_cons (Keeps c v) s a as).mp hm
    have hlt : s.versions c < w := Nat.lt_of_le_of_lt hb.version hvw
    exact ih (bounded_step hb hk hu) (polls_step hcn hp hlt hu) hrun (hks u hu)

omit [DecidableEq C] in
theorem not_returns_of_polls {k : C} {w : Nat} (hcn : c < n) (hp : Polls k c w s) :
    ¬ Returns n s k := by
  rintro ⟨w', m', i', hpc', hni⟩
  obtain ⟨m, i, -, hic, hpc⟩ := hp
  obtain hpc | hpc | ⟨d, hpc⟩ := hpc <;> rw [hpc'] at hpc <;> cases hpc
  omega

theorem synchronize_waits {k : C} {d : Nat} {as : List (Act C)} {u : State C} (hcn : c < n)
    (hb : Bounded c v s) (hv : v ≤ s.sequencer) (hw : s.sequencer + 1 < 2 ^ 64)
    (hk : s.top k = some d) (hdc : d ≠ c) (hu : step n s (.synchronize k) = some u)
    (h : run (step n) u as = some t) (hm : Meets (step n) (Keeps c v) u as) : ¬ Returns n t k := by
  have hbu := bounded_step (a := .synchronize k) hb trivial hu
  obtain ⟨e, he, -, rfl⟩ := (call_eq_some s u k _).mp hu
  obtain rfl : d = e := Option.some.inj (hk.symm.trans he)
  have hp : Polls k c (ticket s) (synchronizeRcu s d k) :=
    ⟨d, 0, hdc, Nat.zero_le c, .inl (pc_goto _ k _)⟩
  have hvt : v < ticket s := by
    rw [ticket_eq hw]
    omega
  exact not_returns_of_polls hcn (polls_of_bounded hcn hvt hbu hp h hm)

theorem publish {k : C} {g : Nat} (hk : s.top k = some c) (hpc : s.pc k = .lockCompare g)
    (hg : g ≠ s.versions c) : ∃ u, run (step n) s [.advance k, .advance k] = some u ∧
      u.versions c = g ∧ u.depth k = s.depth k + 1 ∧ ∀ j, j ≠ k → u.depth j = s.depth j := by
  have hone : step n s (.advance k) = some (s.goto k (.lockStore g)) := by
    simp [step, hk, advance, hpc, hg]
  have htwo : step n (s.goto k (.lockStore g)) (.advance k) =
      some (({ s.goto k (.lockStore g) with versions := Function.update s.versions c g }.goto k
        .idle).setDepth k (s.depth k + 1)) := by
    have hk' : (s.goto k (.lockStore g)).top k = some c := hk
    simp only [step, hk', Option.bind_some, advance, pc_goto]
    rfl
  refine ⟨_, (run_cons _ _ _ _).mpr ⟨_, hone, (run_cons _ _ _ _).mpr ⟨_, htwo, rfl⟩⟩, ?_, ?_, ?_⟩
  · exact Function.update_self _ _ _
  · exact Function.update_self _ _ _
  · exact fun j hj => Function.update_of_ne hj _ _

/-- Each step that is ruled out raises the version, if only two steps later. -/
theorem rises_of_not_keeps (hb : Bounded c v s) (hv : v < DONE) (hk : ¬ Keeps c v s a)
    (h : step n s a = some t) :
    ∃ as u, run (step n) t as = some u ∧ v < u.versions c ∧ ∀ j, s.depth j ≤ u.depth j := by
  cases a with
  | offline d =>
    obtain ⟨-, rfl⟩ := (when_eq_some _ _ _).mp h
    obtain rfl : d = c := not_not.mp hk
    refine ⟨[], _, rfl, ?_, fun j => Nat.le_refl _⟩
    simpa [rcuOffline] using hv
  | advance k =>
    simp only [Keeps, not_forall, not_not] at hk
    obtain ⟨hyield, hd⟩ := hk
    cases hpc : s.pc k <;> simp [hpc, Pc.isYield] at hyield
    simp only [step, hd, Option.bind_some, advance, hpc, Option.some.injEq] at h
    subst h
    refine ⟨[], _, rfl, ?_, fun j => Nat.le_refl _⟩
    simpa [rcuOffline, State.goto] using hv
  | readLock k =>
    simp only [Keeps, not_forall, Nat.not_le] at hk
    obtain ⟨hd, hcount, hseq⟩ := hk
    obtain ⟨e, he, -, rfl⟩ := (call_eq_some s t k _).mp h
    obtain rfl : c = e := Option.some.inj (hd.symm.trans he)
    have ht : rcuReadLock s c k = { s with rcuCount := Function.update s.rcuCount c 0 }.goto k
        (.lockCompare s.sequencer) := if_pos hcount
    have hver : (rcuReadLock s c k).versions = s.versions := by rw [ht]; rfl
    have hne : s.sequencer ≠ (rcuReadLock s c k).versions c := by
      have := hb.version
      rw [hver]
      omega
    have hpc : (rcuReadLock s c k).pc k = .lockCompare s.sequencer := by rw [ht, pc_goto]
    have htop : (rcuReadLock s c k).top k = some c := by
      rw [ht]
      exact hd
    have hdepth : (rcuReadLock s c k).depth = s.depth := by rw [ht]; rfl
    obtain ⟨u, hu, hvu, hku, hju⟩ := publish (n := n) htop hpc hne
    refine ⟨_, u, hu, hvu ▸ hseq, fun j => ?_⟩
    rw [hdepth] at hku hju
    by_cases hj : j = k
    · rw [hj, hku]
      exact Nat.le_succ _
    · exact Nat.le_of_eq (hju j hj).symm
  | _ => exact absurd trivial hk

/-- Let `r` return from its outermost `rcu_read_lock` on core `c`. As long as every step meets
`Keeps`, the version of the core does not rise, and no `synchronize_rcu` of another core that
starts in between returns; the first step that does not meet it leads to a higher version
before the section has ended. -/
theorem section_protected (n : Nat) (heads : Addr → RcuHead) (pointers : Addr → Addr)
    (as bs : List (Act C)) (a : Act C) (r : C) (c : Nat) (s s₁ s₂ : State C)
    (hs : run (step n) (init heads pointers) as = some s) (hout : s.depth r = 0)
    (h₁ : step n s a = some s₁) (hin : 0 < s₁.depth r) (hc : s₁.top r = some c)
    (h₂ : run (step n) s₁ bs = some s₂) (hm : Meets (step n) (Keeps c (s₁.versions c)) s₁ bs) :
    s₂.versions c ≤ s₁.versions c ∧
      (tickets (as ++ a :: bs) < 2 ^ 63 - 1 →
        (∀ k d cs u t, s₂.top k = some d → d ≠ c → step n s₂ (.synchronize k) = some u →
          run (step n) u cs = some t → Meets (step n) (Keeps c (s₁.versions c)) u cs →
          ¬ Returns n t k) ∧
        ∀ b u, ¬ Keeps c (s₁.versions c) s₂ b → step n s₂ b = some u →
          ∃ cs t, run (step n) u cs = some t ∧ s₁.versions c < t.versions c ∧
            s₂.depth r ≤ t.depth r) := by
  have hl : Located s₁ := located_step
    (run_invariant Located (fun _ _ _ hl h => located_step hl h) hs (located_init heads pointers)) h₁
  have hb₁ := bounded_of_entry hl h₁ (hout ▸ hin) hc
  have hb₂ := bounded_run hb₁ h₂ hm
  refine ⟨hb₂.version, fun ht => ?_⟩
  have hcn : c < n := by
    have hp : Placed n s₁ := run_invariant (Placed n) placed_step
      ((run_append _ _ as [a]).mpr ⟨s, hs, (run_cons _ _ _ _).mpr ⟨s₁, h₁, rfl⟩⟩)
      ⟨fun j d hj => by simp [init] at hj, fun j w m i d hj => by simp [init] at hj⟩
    exact hp.core r c ((top_eq_some s₁ r c).mp hc).1
  simp only [tickets, List.countP_append, List.countP_cons] at ht
  obtain ⟨his, hseq⟩ := inv_erase_run hs (inv_erase (inv_init heads pointers))
    (by simp only [init, tickets]; omega)
  obtain ⟨his₁, hseq₁⟩ := inv_erase_run ((run_cons s s₁ a []).mpr ⟨s₁, h₁, rfl⟩) his
    (by simp only [hseq, init, tickets, List.countP_cons, List.countP_nil]; omega)
  simp only [hseq, init, tickets, List.countP_cons, List.countP_nil] at hseq₁
  obtain ⟨-, hseq₂⟩ := inv_erase_run h₂ his₁ (by simp only [tickets]; omega)
  simp only [tickets] at hseq₂
  have hv : s₁.versions c ≤ s₁.sequencer := version_of_entry his h₁ (hout ▸ hin) hc
  refine ⟨fun k d cs u t hk hdc hu hcs hmcs => ?_, fun b u hk hu => ?_⟩
  · exact synchronize_waits hcn hb₂ (by omega) (by omega) hk hdc hu hcs hmcs
  · obtain ⟨cs, t, hcs, hver, hdep⟩ := rises_of_not_keeps hb₂ (by simp only [DONE]; omega) hk hu
    exact ⟨cs, t, hcs, hver, hdep r⟩

theorem section_protected_writer : ∃ s s₁ s₂ u t : State (Fin 2),
    run (step 2) (init (fun _ => ⟨none, 0, 0⟩) id) [.resume 0 0, .readLock 0, .advance 0] = some s ∧
      step 2 s (.advance 0) = some s₁ ∧
      run (step 2) s₁ [.dereference 0 7, .readLock 0, .readUnlock 0, .resume 1 1] = some s₂ ∧
      step 2 s₂ (.synchronize 1) = some u ∧
      run (step 2) u [.advance 1, .advance 1, .dereference 0 7, .deliver 1] = some t ∧
      s₂.versions 0 ≤ s₁.versions 0 ∧ 0 < t.depth 0 ∧ ¬ Returns 2 t 1 := by
  refine ⟨_, _, _, _, _, rfl, rfl, rfl, rfl, rfl, ?_⟩
  obtain ⟨hver, hrest⟩ := section_protected 2 (fun _ => ⟨none, 0, 0⟩) id
    [.resume 0 0, .readLock 0, .advance 0] [.dereference 0 7, .readLock 0, .readUnlock 0, .resume 1 1]
    (.advance 0) (0 : Fin 2) 0 _ _ _ rfl rfl rfl (by decide) rfl rfl (by decide)
  have hreturns := (hrest (by decide)).1 1 1 [.advance 1, .advance 1, .dereference 0 7, .deliver 1] _ _
    rfl (by decide) rfl rfl (by decide)
  exact ⟨hver, by decide, hreturns⟩

/-- Inside the section of 0 a lock hand-off resumes 1 on the same core, which parks at once:
the core is offline, and the writer 2 does not wait for the section. -/
theorem section_lost : ∃ s₁ s₂ s₃ : State (Fin 3),
    run (step 2) (init (fun _ => ⟨none, 0, 0⟩) id)
      [.resume 0 0, .readLock 0, .advance 0, .advance 0] = some s₁ ∧ s₁.depth 0 = 1 ∧
    run (step 2) s₁ [.dereference 0 7, .resume 0 1, .offline 0, .suspend 1] = some s₂ ∧
    s₁.versions 0 < s₂.versions 0 ∧
    run (step 2) s₂ [.resume 1 2, .synchronize 2, .advance 2, .advance 2] = some s₃ ∧
    Returns 2 s₃ 2 ∧ s₃.depth 0 = 1 :=
  ⟨_, _, _, rfl, rfl, rfl, by decide, rfl, ⟨1, 1, 2, rfl, Nat.le_refl 2⟩, rfl⟩

/-- Nothing interrupts the section of `r`: it contains no `co_await` and no second
`rcu_read_lock`, and nobody else gets to run on its core. -/
def Undisturbed (r : C) (s : State C) : Act C → Prop
  | .resume c _ | .offline c => s.core r ≠ some c
  | .suspend k | .readLock k | .synchronize k => k ≠ r
  | _ => True

instance (r : C) (s : State C) : (a : Act C) → Decidable (Undisturbed r s a)
  | .resume c _ | .offline c => inferInstanceAs (Decidable (s.core r ≠ some c))
  | .suspend k | .readLock k | .synchronize k => inferInstanceAs (Decidable (k ≠ r))
  | .deliver _ | .readUnlock _ | .dereference _ _ | .assign _ _ _ | .callRcu _ _ _
  | .threadCallRcu _ | .advance _ => .isTrue trivial

structure Holds (c : Nat) (r : C) (s : State C) : Prop where
  top : s.top r = some c
  inside : (s.pc r).Inside

theorem holds_calls {r k : C} {d : Nat} (hh : Holds c r s) (hu : Undisturbed r s a)
    (hk : s.top k = some d) (hpc : s.pc k = .idle) (h : Calls s d k a t) : Holds c r t := by
  by_cases hkr : k = r
  · subst hkr
    obtain rfl : d = c := Option.some.inj (hk.symm.trans hh.top)
    cases h with
    | suspend | load _ | count _ | synchronize => exact absurd rfl hu
    | readUnlock _ | dereference _ | assign _ _ => exact ⟨hk, hpc ▸ trivial⟩
    | callRcu head func =>
      refine ⟨by simpa using hk, ?_⟩
      rw [pc_callRcu_self, hpc]
      split_ifs <;> trivial
    | threadCallRcu => exact ⟨hk, by simp [Pc.Inside]⟩
  · have hne : some r ≠ some k := fun e => hkr (Option.some.inj e).symm
    have hdc : c ≠ d := by
      rintro rfl
      exact hkr (top_unique hk hh.top)
    have hframe := frame_calls hk h
    exact ⟨hframe.top r c hh.top hdc hne, hframe.pc r hne ▸ hh.inside⟩

theorem holds_advances {r k : C} {d : Nat} (hh : Holds c r s) (hk : s.top k = some d)
    (h : Advances n s d k t) : Holds c r t := by
  by_cases hkr : k = r
  · subst hkr
    obtain rfl : d = c := Option.some.inj (hk.symm.trans hh.top)
    have hin := hh.inside
    cases h with
    | look | looked | leave | callback => exact ⟨hk, by simp [Pc.Inside]⟩
    | same g hpc | other g hpc | store g hpc | pass w m i hpc | wait w m i hpc | synced w m i hpc
    | yield w m i hpc => simp [hpc, Pc.Inside] at hin
  · have hne : some r ≠ some k := fun e => hkr (Option.some.inj e).symm
    have hdc : c ≠ d := by
      rintro rfl
      exact hkr (top_unique hk hh.top)
    have hframe := frame_advances hk h
    exact ⟨hframe.top r c hh.top hdc hne, hframe.pc r hne ▸ hh.inside⟩

theorem holds_step {r : C} (hh : Holds c r s) (hu : Undisturbed r s a) (h : step n s a = some t) :
    Holds c r t := by
  have hcore := ((top_eq_some s r c).mp hh.top).1
  have hin := hh.inside
  cases moves_of_step h with
  | resume d k _ hk _ _ =>
    have hdc : c ≠ d := fun e => hu (e ▸ hcore)
    have hkr : r ≠ k := by
      rintro rfl
      rw [hk] at hcore
      cases hcore
    exact ⟨(top_enter_ne hkr hdc).mpr hh.top, hin⟩
  | deliver k w m i d hpc hst =>
    have hdc : c ≠ d := by
      rintro rfl
      have hmem := mem_stack_of_top hh.top
      rw [hst] at hmem
      cases hmem
    have hkr : r ≠ k := by
      rintro rfl
      simp [hpc, Pc.Inside] at hin
    refine ⟨(top_enter_ne hkr hdc).mpr hh.top, ?_⟩
    rw [pc_goto_ne _ _ hkr]
    exact hin
  | offline d _ _ => exact ⟨hh.top, hin⟩
  | call d k hk hpc h => exact holds_calls hh hu hk hpc h
  | advance d k hk h => exact holds_advances hh hk h

theorem keeps_of_undisturbed {r : C} (hh : Holds c r s) (hu : Undisturbed r s a) : Keeps c v s a := by
  have hcore := ((top_eq_some s r c).mp hh.top).1
  cases a with
  | offline d =>
    rintro rfl
    exact hu hcore
  | readLock k => exact fun hk => absurd (top_unique hk hh.top) hu
  | advance k =>
    intro hy hk
    obtain rfl := top_unique hk hh.top
    have hin := hh.inside
    cases hpc : s.pc k <;> simp [hpc, Pc.isYield, Pc.Inside] at hy hin
  | _ => trivial

theorem keeps_run {r : C} {as : List (Act C)} (hh : Holds c r s)
    (hm : Meets (step n) (Undisturbed r) s as) (h : run (step n) s as = some t) :
    Meets (step n) (Keeps c v) s as ∧ Holds c r t := by
  induction as generalizing s with
  | nil =>
    rw [(run_nil s t).mp h]
    exact ⟨trivial, hh⟩
  | cons a as ih =>
    obtain ⟨u, hu, hrun⟩ := (run_cons s t a as).mp h
    obtain ⟨ha, has⟩ := (meets_cons (Undisturbed r) s a as).mp hm
    obtain ⟨hks, ht⟩ := ih (holds_step hh ha hu) (has u hu) hrun
    refine ⟨(meets_cons _ s a as).mpr ⟨keeps_of_undisturbed hh ha, fun w hw => ?_⟩, ht⟩
    obtain rfl : u = w := Option.some.inj (hu.symm.trans hw)
    exact hks

/-- Let `r` return from its outermost `rcu_read_lock` and load a pointer before it leaves that
section, and let nothing interrupt the section. If `k` then overwrites the pointer and
afterwards runs `synchronize_rcu` to its end, `r` has left the section. -/
theorem synchronize_grace_period (n : Nat) (heads : Addr → RcuHead) (pointers : Addr → Addr)
    (a₀ a₁ a₂ a₃ a₄ : List (Act C)) (a : Act C) (r k : C) (p v : Addr) (s₀ s₁ s₂ s₃ s₄ s₅ : State C)
    (h₀ : run (step n) (init heads pointers) a₀ = some s₀) (hout : s₀.depth r = 0)
    (h₁ : step n s₀ a = some s₁) (hin : 0 < s₁.depth r)
    (h₂ : run (step n) s₁ a₁ = some s₂) (ha₁ : .readUnlock r ∉ a₁)
    (h₃ : run (step n) s₂ (.dereference r p :: a₂) = some s₃)
    (h₄ : run (step n) s₃ (.assign k p v :: a₃) = some s₄)
    (h₅ : run (step n) s₄ (.synchronize k :: a₄) = some s₅) (hret : Returns n s₅ k)
    (hd : Meets (step n) (Undisturbed r) s₁
      ((a₁ ++ .dereference r p :: (a₂ ++ .assign k p v :: (a₃ ++ .synchronize k :: a₄))).takeWhile
        (· ≠ .readUnlock r)))
    (ht : tickets (a₀ ++ a :: (a₁ ++ .dereference r p ::
      (a₂ ++ .assign k p v :: (a₃ ++ .synchronize k :: a₄)))) < 2 ^ 63 - 1) :
    .readUnlock r ∈ a₂ ++ a₃ ++ a₄ := by
  by_contra hn
  simp only [List.mem_append, not_or] at hn
  obtain ⟨⟨hn₂, hn₃⟩, hn₄⟩ := hn
  obtain ⟨-, hidle, c, -, hc, -⟩ := entry_of_step h₁ (hout ▸ hin)
  have hh₁ : Holds c r s₁ := ⟨hc, hidle ▸ trivial⟩
  have hcn : c < n := by
    have hp : Placed n s₁ := run_invariant (Placed n) placed_step
      ((run_append _ _ a₀ [a]).mpr ⟨s₀, h₀, (run_cons _ _ _ _).mpr ⟨s₁, h₁, rfl⟩⟩)
      ⟨fun j d hj => by simp [init] at hj, fun j w m i d hj => by simp [init] at hj⟩
    exact hp.core r c ((top_eq_some s₁ r c).mp hc).1
  -- the section would last to the end of the run, so nothing interrupts it
  have hall : (a₁ ++ .dereference r p :: (a₂ ++ .assign k p v ::
      (a₃ ++ .synchronize k :: a₄))).takeWhile (· ≠ .readUnlock r) = a₁ ++ .dereference r p ::
        (a₂ ++ .assign k p v :: (a₃ ++ .synchronize k :: a₄)) := by
    refine List.takeWhile_eq_self_iff.mpr fun b hb => ?_
    rw [decide_eq_true_eq]
    rintro rfl
    simp [ha₁, hn₂, hn₃, hn₄] at hb
  rw [hall] at hd
  obtain ⟨hd₁, hd⟩ := meets_append _ hd h₂
  rw [← List.cons_append] at hd
  obtain ⟨hd₂, hd⟩ := meets_append _ hd h₃
  rw [← List.cons_append] at hd
  obtain ⟨hd₃, hd₄⟩ := meets_append _ hd h₄
  obtain ⟨hk₁, hh₂⟩ := keeps_run (v := s₁.versions c) hh₁ hd₁ h₂
  obtain ⟨hk₂, hh₃⟩ := keeps_run (v := s₁.versions c) hh₂ hd₂ h₃
  obtain ⟨hk₃, hh₄⟩ := keeps_run (v := s₁.versions c) hh₃ hd₃ h₄
  have hl : Located s₁ := located_step
    (run_invariant Located (fun _ _ _ hl h => located_step hl h) h₀ (located_init heads pointers)) h₁
  have hb₁ := bounded_of_entry hl h₁ (hout ▸ hin) hc
  have hb₄ := bounded_run (bounded_run (bounded_run hb₁ h₂ hk₁) h₃ hk₂) h₄ hk₃
  -- the ticket is above the version at which the section was entered
  simp only [tickets, List.countP_append, List.countP_cons] at ht
  obtain ⟨hi₀, hseq₀⟩ := inv_erase_run h₀ (inv_erase (inv_init heads pointers))
    (by simp only [init, tickets]; omega)
  obtain ⟨hi₁, hseq₁⟩ := inv_erase_run ((run_cons s₀ s₁ a []).mpr ⟨s₁, h₁, rfl⟩) hi₀
    (by simp only [hseq₀, init, tickets, List.countP_cons, List.countP_nil]; omega)
  have hrun : run (step n) s₁ (a₁ ++ (.dereference r p :: a₂ ++ .assign k p v :: a₃)) = some s₄ :=
    (run_append _ _ _ _).mpr ⟨s₂, h₂, (run_append _ _ _ _).mpr ⟨s₃, h₃, h₄⟩⟩
  simp only [hseq₀, init, tickets, List.countP_cons, List.countP_nil] at hseq₁
  obtain ⟨-, hseq₄⟩ := inv_erase_run hrun hi₁ (by
    simp only [tickets, List.countP_append, List.countP_cons]; omega)
  simp only [tickets, List.countP_append, List.countP_cons] at hseq₄
  have hv : s₁.versions c ≤ s₁.sequencer := version_of_entry hi₀ h₁ (hout ▸ hin) hc
  obtain ⟨u, hu, hrest⟩ := (run_cons s₄ s₅ _ a₄).mp h₅
  obtain ⟨hku, hd₅⟩ := (meets_cons _ s₄ _ a₄).mp hd₄
  obtain ⟨d, hk, -, -⟩ := (call_eq_some s₄ u k _).mp hu
  have hdc : d ≠ c := by
    rintro rfl
    exact hku (top_unique hk hh₄.top)
  obtain ⟨hk₅, -⟩ := keeps_run (v := s₁.versions c) (holds_step hh₄ hku hu) (hd₅ u hu) hrest
  exact synchronize_waits hcn hb₄ (by omega) (by omega) hk hdc hu hrest hk₅ hret

theorem synchronize_grace_period_yields : ∃ s₀ s₁ s₂ s₃ s₄ s₅ : State (Fin 3),
    run (step 2) (init (fun _ => ⟨none, 0, 0⟩) id)
      [.resume 0 2, .readLock 2, .advance 2, .advance 2, .readLock 2, .offline 0, .suspend 2,
        .resume 0 0, .readLock 0, .advance 0] = some s₀ ∧
    step 2 s₀ (.advance 0) = some s₁ ∧ run (step 2) s₁ [] = some s₂ ∧
    run (step 2) s₂ [.dereference 0 7, .resume 1 1] = some s₃ ∧
    run (step 2) s₃ [.assign 1 7 9] = some s₄ ∧
    run (step 2) s₄ [.synchronize 1, .advance 1, .advance 1, .readUnlock 0, .offline 0, .suspend 0,
      .deliver 1, .advance 1, .advance 1] = some s₅ ∧ s₅.depth 2 = 2 ∧
    .readUnlock 0 ∈ [Act.resume 1 1] ++ [] ++ [.advance 1, .advance 1, .readUnlock 0, .offline 0,
      .suspend 0, .deliver 1, .advance 1, .advance (1 : Fin 3)] :=
  ⟨_, _, _, _, _, _, rfl, rfl, rfl, rfl, rfl, rfl, rfl,
    synchronize_grace_period 2 (fun _ => ⟨none, 0, 0⟩) id
      [.resume 0 2, .readLock 2, .advance 2, .advance 2, .readLock 2, .offline 0, .suspend 2,
        .resume 0 0, .readLock 0, .advance 0] [] [.resume 1 1] []
      [.advance 1, .advance 1, .readUnlock 0, .offline 0, .suspend 0, .deliver 1, .advance 1,
        .advance 1] (.advance 0) 0 1 7 9 _ _ _ _ _ _ rfl rfl rfl (by decide) rfl (by decide) rfl rfl
      rfl ⟨1, 1, 2, rfl, Nat.le_refl 2⟩ (by decide) (by decide)⟩

end LibCoro.Rcu
