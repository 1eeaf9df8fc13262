import LibCoro.CondWaitInvariant
import LibCoro.MutexLock
import Mathlib.Algebra.GroupWithZero.Nat

namespace LibCoro.CondWait

open Machine
open ConditionVariable (Signal signal)

variable {C P σ : Type} {L : Lock (C × Bool)} {eval : P → σ → Bool}

def Pc.waits : Pc P → Option P
  | .waitTest pred | .waitSuspend pred | .waiting pred | .waitLock pred => some pred
  | _ => none

def State.owns (s : State L P σ) (i : C × Bool) : Nat := if (L.status s.lock i).Owns then 1 else 0

structure Effect where
  parked : Nat
  released : Nat
  acquired : Nat

def effect [DecidableEq C] [DecidableEq P] (eval : P → σ → Bool) (k : C) (s : State L P σ)
    (a : Act L P σ) : Option Effect :=
  (step eval s a).map fun t =>
    { parked := if emit eval s a = some (.registered k) then 1 else 0
      released := (s.owns (k, false) - t.owns (k, false)) + (s.owns (k, true) - t.owns (k, true))
      acquired := (t.owns (k, false) - s.owns (k, false)) + (t.owns (k, true) - s.owns (k, true)) }

/-- A wait that has parked so many times holds the lock again, or is about to take it, and the
hold before is given up, or about to be. -/
structure Tally (k : C) (es : List Effect) (s : State L P σ) : Prop where
  acquired : (es.map Effect.parked).sum + s.owns (k, s.hold k) = (es.map Effect.acquired).sum + 1
  released : (es.map Effect.released).sum + s.owns (k, !s.hold k) = (es.map Effect.parked).sum

structure Stays (k : C) (s t : State L P σ) : Prop where
  hold : t.hold k = s.hold k
  gains : s.owns (k, s.hold k) ≤ t.owns (k, s.hold k)
  loses : t.owns (k, !s.hold k) ≤ s.owns (k, !s.hold k)

variable {es : List (Signal C)} {s t : State L P σ} {d : C → List C} {k : C}

theorem owns_le_one (s : State L P σ) (i : C × Bool) : s.owns i ≤ 1 := by
  unfold State.owns
  split_ifs <;> omega

theorem owns_of_holding {i : C × Bool} (h : L.status s.lock i = .holding) : s.owns i = 1 :=
  if_pos (.inl h)

theorem owns_le {i : C × Bool} (h : (L.status s.lock i).Owns → (L.status t.lock i).Owns) :
    s.owns i ≤ t.owns i := by
  unfold State.owns
  split_ifs with hs ht
  · exact Nat.le_refl 1
  · exact absurd (h hs) ht
  · exact Nat.zero_le 1
  · exact Nat.le_refl 0

theorem owns_congr {i : C × Bool} (h : L.status t.lock i = L.status s.lock i) :
    t.owns i = s.owns i := by
  rw [State.owns, State.owns, h]

theorem stays_of_same (hh : t.hold k = s.hold k)
    (hst : ∀ b, L.status t.lock (k, b) = L.status s.lock (k, b)) : Stays k s t :=
  ⟨hh, Nat.le_of_eq (owns_congr (hst _)).symm, Nat.le_of_eq (owns_congr (hst _))⟩

theorem not_releasing_of_waits (hi : Inv eval es s d) (hw : (s.pc k).waits ≠ none) :
    s.status k ≠ .releasing := by
  have hk := hi.place k
  cases hpc : s.pc k with
  | waitTest pred | waitSuspend pred | waiting pred =>
    rw [hpc] at hk
    simp [hk.1]
  | waitLock pred =>
    rw [hpc] at hk
    obtain hst | hst := hk.1 <;> simp [hst]
  | _ => simp [hpc, Pc.waits] at hw

theorem other_not_acquiring (hi : Inv eval es s d) (k : C) :
    L.status s.lock (k, !s.hold k) ≠ .acquiring := by
  have hk := hi.other k
  unfold Other at hk
  split_ifs at hk
  · simp [hk]
  · obtain hk | hk := hk <;> simp [hk]

theorem owns_of_drifts {i : C × Bool} (h : Drifts (L.status s.lock i) (L.status t.lock i)) :
    (L.status s.lock i ≠ .releasing → s.owns i ≤ t.owns i) ∧
      (L.status s.lock i ≠ .acquiring → t.owns i ≤ s.owns i) := by
  refine ⟨fun hne => owns_le fun ho => ?_, fun hne => owns_le fun ho => ?_⟩
  · obtain hs | hs := ho
    · rw [hs] at h
      exact .inl h.of_holding
    · exact absurd hs hne
  · obtain h | ⟨h, -⟩ | ⟨h, h'⟩ := h
    · rwa [← h]
    · exact absurd h hne
    · exact .inr h

theorem owns_other (hi : Inv eval es s d) (hk : s.status k = .holding) :
    s.owns (k, !s.hold k) = 0 := by
  refine if_neg fun ho => ?_
  have he := congrArg Prod.snd (place_unique hi hk ho)
  simp at he

variable [DecidableEq C]

/-- In `await_suspend` the awaiter is published by the step that parks the coroutine. -/
theorem signal_of_pushing {v w : ConditionVariable.State C} {spurious : Bool}
    (hp : (v.pc k).Pushing) (h : ConditionVariable.step v (.advance k spurious) = some w) :
    signal v (.advance k spurious) = if w.pc k = .parked then some (.registered k) else none := by
  simp only [ConditionVariable.step] at h
  cases hpc : v.pc k with
  | suspendLoad | suspendNext aw =>
    simp only [ConditionVariable.advance, hpc] at h
    cases h
    simp [signal, hpc, ConditionVariable.State.goto]
  | suspendCas aw =>
    simp only [ConditionVariable.advance, hpc] at h
    split_ifs at h with hc <;> cases h <;> simp [signal, hpc, hc, ConditionVariable.State.goto]
  | _ => simp [hpc, ConditionVariable.Pc.Pushing] at hp

theorem stays_of_lockStep {j : C} {f : L.State → C × Bool → Option L.State} {p : Pc P} (hj : j ≠ k)
    (hf : ∀ u, f s.lock (j, s.hold j) = some u →
      ∀ i, i ≠ (j, s.hold j) → L.status u i = L.status s.lock i)
    (h : lockStep s j f p = some t) : Stays k s t := by
  obtain ⟨u, hu, rfl⟩ := Option.map_eq_some_iff.mp h
  exact stays_of_same rfl fun b => hf u hu _ fun e => hj (congrArg Prod.fst e).symm

variable [DecidableEq P] {a : Act L P σ}

theorem waits_step (hi : Inv eval es s d) (hw : (s.pc k).waits ≠ none) (h : step eval s a = some t) :
    (emit eval s a ≠ some (.registered k) ∧ Stays k s t) ∨
    (emit eval s a = some (.registered k) ∧ s.status k = .holding ∧ t.hold k = !s.hold k ∧
      t.lock = s.lock) := by
  have hidle : ∀ j, s.pc j = .idle → j ≠ k := by
    rintro j hj rfl
    simp [hj, Pc.waits] at hw
  have hquiet : emit eval s a = none → emit eval s a ≠ some (.registered k) := by
    intro he
    simp [he]
  cases a with
  | tryLock j =>
    simp only [step] at h
    split_ifs at h with hj
    exact .inl ⟨hquiet rfl, stays_of_lockStep (hidle j hj) (fun u hu => (L.tryLock_status _ _ _ hu).2.2) h⟩
  | coLock j =>
    simp only [step] at h
    split_ifs at h with hj
    exact .inl ⟨hquiet rfl, stays_of_lockStep (hidle j hj) (fun u hu => (L.coLock_status _ _ _ hu).2.2) h⟩
  | unlock j =>
    simp only [step] at h
    split_ifs at h with hj
    exact .inl ⟨hquiet rfl, stays_of_lockStep (hidle j hj) (fun u hu => (L.unlock_status _ _ _ hu).2.2) h⟩
  | write j mem notifies | wait j pred =>
    obtain ⟨-, rfl⟩ := (when_eq_some _ _ _).mp h
    exact .inl ⟨hquiet rfl, stays_of_same rfl fun _ => rfl⟩
  | notifyAll j =>
    simp only [step] at h
    split_ifs at h
    obtain ⟨v, -, rfl⟩ := Option.map_eq_some_iff.mp h
    exact .inl ⟨hquiet rfl, stays_of_same rfl fun _ => rfl⟩
  | move m =>
    obtain ⟨u, hu, rfl⟩ := Option.map_eq_some_iff.mp h
    refine .inl ⟨hquiet rfl, rfl, ?_, ?_⟩
    · exact (owns_of_drifts (drifts_of_move hi.lock hu _)).1 (not_releasing_of_waits hi hw)
    · exact (owns_of_drifts (drifts_of_move hi.lock hu _)).2 (other_not_acquiring hi k)
  | release j =>
    simp only [step] at h
    split_ifs at h
    obtain ⟨u, hu, rfl⟩ := Option.map_eq_some_iff.mp h
    obtain ⟨hst, -, hkeep⟩ := L.unlock_status _ _ _ hu
    refine .inl ⟨hquiet rfl, rfl, Nat.le_of_eq (owns_congr (hkeep _ ?_)).symm, ?_⟩
    · intro e
      obtain ⟨rfl, he⟩ := Prod.mk.inj e
      simp at he
    · by_cases hj : k = j
      · subst hj
        rw [owns_of_holding hst]
        exact owns_le_one _ _
      · exact Nat.le_of_eq (owns_congr (hkeep _ fun e => hj (congrArg Prod.fst e)))
  | advance j spurious =>
    have hplace := hi.place j
    simp only [step] at h
    cases hpc : s.pc j with
    | idle | overlap => simp [advance, hpc] at h
    | acquire | waitLock pred | returning =>
      simp only [advance, hpc] at h
      obtain ⟨-, rfl⟩ := (when_eq_some _ _ _).mp h
      exact .inl ⟨hquiet (by simp [emit, cvAct, hpc]), stays_of_same rfl fun _ => rfl⟩
    | waitTest pred =>
      simp only [advance, hpc] at h
      split_ifs at h with heval
      · cases h
        exact .inl ⟨hquiet (by simp [emit, cvAct, hpc, heval]), stays_of_same rfl fun _ => rfl⟩
      · obtain ⟨v, -, rfl⟩ := Option.map_eq_some_iff.mp h
        refine .inl ⟨hquiet ?_, stays_of_same rfl fun _ => rfl⟩
        simp [emit, cvAct, hpc, heval, signal]
    | waiting pred =>
      simp only [advance, hpc] at h
      have hem : emit eval s (.advance j spurious) = none := by simp [emit, cvAct, hpc]
      split_ifs at h with hparked hst
      · by_cases hj : j = k
        · subst hj
          obtain ⟨u, hu, rfl⟩ := Option.map_eq_some_iff.mp h
          obtain ⟨-, -, hkeep⟩ := L.coLock_status _ _ _ hu
          refine .inl ⟨hquiet hem, rfl, owns_le fun ho => ?_, Nat.le_of_eq (owns_congr (hkeep _ ?_))⟩
          · change (s.status j).Owns at ho
            simp [hst, Status.Owns] at ho
          · simp
        · exact .inl ⟨hquiet hem, stays_of_lockStep hj (fun u hu => (L.coLock_status _ _ _ hu).2.2) h⟩
      · cases h
        exact .inl ⟨hquiet hem, stays_of_same rfl fun _ => rfl⟩
    | notifying =>
      simp only [advance, hpc] at h
      split_ifs at h with hcv
      · cases h
        exact .inl ⟨hquiet (by simp [emit, cvAct, hpc, hcv]), stays_of_same rfl fun _ => rfl⟩
      · obtain ⟨v, -, rfl⟩ := Option.map_eq_some_iff.mp h
        refine .inl ⟨fun he => ?_, stays_of_same rfl fun _ => rfl⟩
        simp only [emit, cvAct, hpc, if_neg hcv, Option.bind_some] at he
        obtain rfl : j = k := congrArg ConditionVariable.Act.actor (ConditionVariable.of_registered he).1
        simp [hpc, Pc.waits] at hw
    | waitSuspend pred =>
      simp only [advance, hpc] at h
      rw [hpc] at hplace
      obtain ⟨v, hv, rfl⟩ := Option.map_eq_some_iff.mp h
      have hem : emit eval s (.advance j spurious) =
          if v.pc j = .parked then some (.registered j) else none := by
        simpa only [emit, cvAct, hpc, Option.bind_some] using signal_of_pushing hplace.2.2 hv
      by_cases hparked : v.pc j = .parked
      · rw [if_pos hparked] at hem ⊢
        by_cases hj : j = k
        · subst hj
          exact .inr ⟨hem, hplace.1, by simp [State.park, State.goto], rfl⟩
        · refine .inl ⟨?_, stays_of_same ?_ fun _ => rfl⟩
          · rw [hem]
            exact fun e => hj (Signal.registered.inj (Option.some.inj e))
          · simp [State.park, State.goto, Ne.symm hj]
      · rw [if_neg hparked] at hem ⊢
        exact .inl ⟨hquiet hem, stays_of_same rfl fun _ => rfl⟩

theorem pc_of_waits {pred : P} (hi : Inv eval es s d) (hw : (s.pc k).waits = some pred)
    (h : step eval s a = some t) : (t.pc k).waits = some pred ∨
      (t.pc k = .idle ∧ s.pc k = .waitTest pred ∧ eval pred s.mem = true ∧ t.mem = s.mem ∧
        t.lock = s.lock ∧ t.hold = s.hold) := by
  by_cases hact : a.actor = some k
  · have hidle : s.pc k ≠ .idle := by
      intro hk
      simp [hk, Pc.waits] at hw
    obtain ⟨spurious, rfl⟩ := advance_of_step h hact hidle
    have hplace := hi.place k
    simp only [step] at h
    cases hpc : s.pc k with
    | waitTest pred' =>
      rw [hpc] at hw
      cases hw
      simp only [advance, hpc] at h
      split_ifs at h with heval
      · cases h
        exact .inr ⟨pc_goto_self s k .idle, rfl, heval, rfl, rfl, rfl⟩
      · obtain ⟨v, -, rfl⟩ := Option.map_eq_some_iff.mp h
        simp [Pc.waits]
    | waitSuspend pred' =>
      rw [hpc] at hw
      cases hw
      simp only [advance, hpc] at h
      obtain ⟨v, -, rfl⟩ := Option.map_eq_some_iff.mp h
      split_ifs <;> simp [State.park, Pc.waits]
    | waiting pred' =>
      rw [hpc] at hw hplace
      cases hw
      simp only [advance, hpc] at h
      split_ifs at h with hparked hst
      · obtain ⟨u, -, rfl⟩ := Option.map_eq_some_iff.mp h
        simp [Pc.waits]
      · exact absurd hplace.1 hst
    | waitLock pred' =>
      rw [hpc] at hw
      cases hw
      simp only [advance, hpc] at h
      obtain ⟨-, rfl⟩ := (when_eq_some _ _ _).mp h
      simp [Pc.waits]
    | _ => simp [hpc, Pc.waits] at hw
  · rw [(frame_step h).pc k hact]
    exact .inl hw

/-- The counts go with the step: what `k` gains is an acquisition, what it loses a release. -/
theorem tally_step {cs : List Effect} (hi : Inv eval es s d) (hw : (s.pc k).waits ≠ none)
    (hc : Tally k cs s) (h : step eval s a = some t) :
    Tally k (cs ++ (effect eval k s a).toList) t := by
  obtain ⟨hacq, hrel⟩ := hc
  simp only [effect, h, Option.map_some, Option.toList_some]
  constructor <;> simp only [List.map_append, List.sum_append, List.map_cons, List.map_nil,
    List.sum_cons, List.sum_nil]
  all_goals
    obtain ⟨hem, hh, hgain, hlose⟩ | ⟨hem, hst, hh, hl⟩ := waits_step hi hw h
    · rw [if_neg hem, hh]
      cases hb : s.hold k <;> simp only [hb, Bool.not_false, Bool.not_true] at * <;> omega
    · have hsame : ∀ i, t.owns i = s.owns i := fun i => owns_congr (by rw [hl])
      have hown : s.owns (k, s.hold k) = 1 := owns_of_holding hst
      have hfree : s.owns (k, !s.hold k) = 0 := owns_other hi hst
      rw [if_pos hem, hh]
      simp only [hsame]
      cases hb : s.hold k <;> simp only [hb, Bool.not_false, Bool.not_true] at * <;> omega

theorem tally_run {bs : List (Act L P σ)} {cs : List Effect} {pred : P} (hi : Inv eval es s d)
    (hc : Tally k cs s) (hpred : ∀ q, (s.pc k).waits = some q → q = pred)
    (hin : Meets (step eval) (fun s _ => (s.pc k).waits ≠ none) s bs)
    (h : run (step eval) s bs = some t) :
    ∃ es' d', Inv eval es' t d' ∧ Tally k (cs ++ trace (step eval) (effect eval k) s bs) t ∧
      ∀ q, (t.pc k).waits = some q → q = pred := by
  induction bs generalizing s es d cs with
  | nil =>
    rw [(run_nil s t).mp h]
    exact ⟨es, d, hi, by simpa [trace] using hc, hpred⟩
  | cons b bs ih =>
    obtain ⟨u, hu, hr⟩ := (run_cons s t b bs).mp h
    obtain ⟨hw, hin⟩ := (meets_cons _ s b bs).mp hin
    obtain ⟨d₁, hi₁, -⟩ := inv_step hi hu
    have hpred₁ : ∀ q, (u.pc k).waits = some q → q = pred := by
      intro q hq
      obtain ⟨q', hq'⟩ := Option.ne_none_iff_exists'.mp hw
      obtain hw' | ⟨hidle, -⟩ := pc_of_waits hi hq' hu
      · rw [hw'] at hq
        exact Option.some.inj hq ▸ hpred q' hq'
      · simp [hidle, Pc.waits] at hq
    obtain ⟨es', d', hi', hc', hp'⟩ := ih hi₁ (tally_step hi hw hc hu) hpred₁ (hin u hu) hr
    refine ⟨es', d', hi', ?_, hp'⟩
    rwa [trace_cons hu, ← List.append_assoc]

/-- When a wait of `k` is over, `k` holds the lock, its predicate is true, and the lock has been
given up and taken again once for each time that `k` parked; all the time at most one coroutine
has owned the lock. -/
theorem wait_returns (kind : LockKind) (eval : P → σ → Bool) (mem : σ)
    (as bs : List (Act (kind.lock : Lock (C × Bool)) P σ)) (k : C) (pred : P) (spurious : Bool)
    (s s₁ t u : State (kind.lock : Lock (C × Bool)) P σ)
    (hs : run (step eval) (init mem) as = some s) (h₁ : step eval s (.wait k pred) = some s₁)
    (ht : run (step eval) s₁ bs = some t) (hu : step eval t (.advance k spurious) = some u)
    (hin : Meets (step eval) (fun s _ => (s.pc k).waits ≠ none) s₁ (bs ++ [.advance k spurious]))
    (hret : u.pc k = .idle) :
    u.status k = .holding ∧ eval pred u.mem = true ∧
      (let es := trace (step eval) (effect eval k) s₁ (bs ++ [.advance k spurious])
       (es.map Effect.released).sum = (es.map Effect.parked).sum ∧
         (es.map Effect.acquired).sum = (es.map Effect.parked).sum) ∧
      ∀ cs ds v, as ++ .wait k pred :: (bs ++ [.advance k spurious]) = cs ++ ds →
        run (step eval) (init mem) cs = some v → ∀ i j : C × Bool,
          ((kind.lock : Lock (C × Bool)).status v.lock i).Owns →
          ((kind.lock : Lock (C × Bool)).status v.lock j).Owns → i = j := by
  obtain ⟨d, hi⟩ := inv_run hs
  obtain ⟨d₁, hi₁, -⟩ := inv_step hi h₁
  obtain ⟨⟨-, hst⟩, rfl⟩ := (when_eq_some _ _ _).mp h₁
  have hwaits : ((s.goto k (.waitTest pred)).pc k).waits = some pred := by simp [Pc.waits]
  have hc₁ : Tally k [] (s.goto k (.waitTest pred)) := by
    have hown : s.owns (k, s.hold k) = 1 := owns_of_holding hst
    have hfree : s.owns (k, !s.hold k) = 0 := owns_other hi hst
    constructor
    · change 0 + s.owns (k, s.hold k) = 0 + 1
      omega
    · change 0 + s.owns (k, !s.hold k) = 0
      omega
  obtain ⟨hin₁, hin₂⟩ := meets_append _ hin ht
  obtain ⟨hwt, -⟩ := (meets_cons _ t _ _).mp hin₂
  obtain ⟨es₂, d₂, hi₂, hc₂, hpred⟩ := tally_run hi₁ hc₁
    (fun q hq => Option.some.inj (hq.symm.trans hwaits)) hin₁ ht
  obtain ⟨q, hq⟩ := Option.ne_none_iff_exists'.mp hwt
  obtain rfl := hpred q hq
  have hc₃ := tally_step hi₂ hwt hc₂ hu
  have hdone : (u.pc k).waits = none := by rw [hret]; rfl
  obtain ⟨-, hpc, heval, hmem, hlock, hhold⟩ := (pc_of_waits hi₂ hq hu).resolve_left (by simp [hdone])
  have hplace := hi₂.place k
  rw [hpc] at hplace
  have hholding : u.status k = .holding := by
    rw [State.status, hlock, hhold]
    exact hplace.1
  refine ⟨hholding, hmem ▸ heval, ?_, fun cs ds v he hv i j hoi hoj => ?_⟩
  · obtain ⟨d₃, hi₃, -⟩ := inv_step hi₂ hu
    have htrace : trace (step eval) (effect eval k) (s.goto k (.waitTest q)) (bs ++ [.advance k spurious]) =
        [] ++ trace (step eval) (effect eval k) (s.goto k (.waitTest q)) bs ++
          (effect eval k t (.advance k spurious)).toList := by
      rw [trace_append ht, trace_cons hu]
      simp [trace]
    obtain ⟨hacq, hrel⟩ := hc₃
    rw [← htrace] at hacq hrel
    rw [owns_of_holding hholding] at hacq
    rw [owns_other hi₃ hholding] at hrel
    exact ⟨by omega, by omega⟩
  · obtain ⟨d', hv'⟩ := inv_run hv
    exact (kind.lock : Lock (C × Bool)).exclusive _ _ _ hv'.lock hoi hoj

def waitTwice (a b : C) :
    List (Act ((LockKind.spinLock 4).lock : Lock (C × Bool)) Unit Bool) :=
  [.advance a false, .advance a false, .advance a false, .advance a false, .notifyAll b,
    .advance b false, .advance b false, .advance b false, .advance b false, .advance b false,
    .advance b false, .advance a false, .release a, .move ((a, true) : C × Bool),
    .advance a false, .advance a false, .advance a false, .advance a false, .advance a false,
    .release a, .coLock b, .move ((b, false) : C × Bool), .advance b false,
    .write b true true, .notifyAll b, .advance b false, .advance b false, .advance b false,
    .advance b false, .advance b false, .advance b false, .unlock b, .advance b false,
    .advance a false, .move ((a, false) : C × Bool), .advance a false]

theorem wait_returns_twice :
    ∃ s s₁ t u : State ((LockKind.spinLock 4).lock : Lock (Fin 2 × Bool)) Unit Bool,
      run (step fun _ m => m) (init false)
        [.coLock 0, .move ((0, false) : Fin 2 × Bool), .advance 0 false] = some s ∧
      step (fun _ m => m) s (.wait 0 ()) = some s₁ ∧
      run (step fun _ m => m) s₁ (waitTwice 0 1) = some t ∧
      step (fun _ m => m) t (.advance 0 false) = some u ∧
      u.status 0 = .holding ∧
      ((trace (step fun _ m => m) (effect (fun _ m => m) 0) s₁ (waitTwice 0 1 ++ [.advance 0 false])).map
        Effect.parked).sum = 2 := by
  refine ⟨_, _, _, _, rfl, rfl, rfl, rfl, ?_, by decide +kernel⟩
  exact (wait_returns (.spinLock 4) (fun _ m => m) false
    [.coLock 0, .move ((0, false) : Fin 2 × Bool), .advance 0 false] (waitTwice 0 1) 0 () false _ _ _ _
    rfl rfl rfl rfl (by decide +kernel) rfl).1

end LibCoro.CondWait
