import LibCoro.CallRcu

namespace LibCoro.Rcu

open Machine Chain

variable {C : Type} [DecidableEq C]

def emitCallback (s : State C) : Act C → Option Addr
  | .advance k =>
    match s.pc k with
    | .drainLoop min_version (some head) =>
      if min_version < (s.heads head).version then none else some head
    | _ => none
  | _ => none

/-- No core but the caller's can still be in a read-side section that saw the object. -/
def Reclaimable (n : Nat) (s : State C) (c : Nat) (a : Addr) : Prop :=
  ∀ i < n, i ≠ c → (s.heads a).version ≤ s.versions i

instance (n : Nat) (s : State C) (c : Nat) (a : Addr) : Decidable (Reclaimable n s c a) :=
  inferInstanceAs (Decidable (∀ i < n, i ≠ c → _))

structure Queue (s : State C) (c : Nat) (l : List Addr) : Prop where
  linked : Linked s.links (s.data c).head l
  tail : (s.data c).tail = l.getLast?

def Works (n : Nat) (k : C) (s : State C) (es : List Addr) (t : State C) : Prop :=
  ∃ j, run (step n) s (List.replicate j (.advance k)) = some t ∧
    trace (step n) emitCallback s (List.replicate j (.advance k)) = es

variable {n : Nat} {s t u : State C} {c : Nat} {k : C} {es es' : List Addr}

theorem Works.refl (n : Nat) (k : C) (s : State C) : Works n k s [] s := ⟨0, rfl, rfl⟩

theorem Works.cons {p : Pc} {e : Option Addr} (hk : s.top k = some c)
    (hs : advance n (s.goto k p) c k = some t) (he : emitCallback (s.goto k p) (.advance k) = e)
    (h : Works n k t es u) : Works n k (s.goto k p) (e.toList ++ es) u := by
  obtain ⟨j, hr, rfl⟩ := h
  have hstep : step n (s.goto k p) (.advance k) = some t := by
    have htop : (s.goto k p).top k = some c := hk
    simp [step, htop, hs]
  refine ⟨j + 1, (run_cons ..).mpr ⟨t, hstep, hr⟩, ?_⟩
  rw [List.replicate_succ, trace_cons hstep, he]

theorem Works.trans (h : Works n k s es t) (h' : Works n k t es' u) :
    Works n k s (es ++ es') u := by
  obtain ⟨i, hr, rfl⟩ := h
  obtain ⟨j, hr', rfl⟩ := h'
  refine ⟨i + j, ?_, ?_⟩
  · rw [List.replicate_add]
    exact (run_append ..).mpr ⟨t, hr, hr'⟩
  · rw [List.replicate_add, trace_append hr]

theorem goto_goto (s : State C) (k : C) (p q : Pc) : (s.goto k p).goto k q = s.goto k q := by
  simp [State.goto]

theorem emit_scan (s : State C) (k : C) (m i : Nat) :
    emitCallback (s.goto k (.drainScan m i)) (.advance k) = none := by
  simp only [emitCallback, pc_goto]

theorem drainScan_works (hk : s.top k = some c) (m i : Nat) :
    ∃ m', Works n k (s.goto k (.drainScan m i)) [] (s.goto k (.drainLoop m' (s.data c).head)) ∧
      ∀ v, v ≤ m' ↔ v ≤ m ∧ ∀ d, i ≤ d → d < n → d ≠ c → v ≤ s.versions d := by
  induction hi : n - i generalizing m i with
  | zero =>
    have hni : ¬ i < n := by omega
    have hs : advance n (s.goto k (.drainScan m i)) c k =
        some (s.goto k (.drainLoop m (s.data c).head)) := by
      simp only [advance, pc_goto, if_neg hni, goto_goto]
      rfl
    refine ⟨m, (Works.refl ..).cons hk hs (emit_scan s k m i), fun v => ⟨fun hv => ⟨hv, fun d hd hdn => ?_⟩, And.left⟩⟩
    exact absurd (Nat.lt_of_le_of_lt hd hdn) hni
  | succ r ih =>
    have hin : i < n := by omega
    by_cases hic : i = c
    · obtain ⟨m', hw, hm⟩ := ih m (i + 1) (by omega)
      have hs : advance n (s.goto k (.drainScan m i)) c k =
          some (s.goto k (.drainScan m (i + 1))) := by
        simp only [advance, pc_goto, if_pos hin, if_pos hic, goto_goto]
      refine ⟨m', hw.cons hk hs (emit_scan s k m i), fun v => ?_⟩
      rw [hm v]
      refine and_congr_right fun _ => ⟨fun h d hd hdn hdc => ?_, fun h d hd => h d (by omega)⟩
      exact h d (Nat.lt_of_le_of_ne hd fun e => hdc (e ▸ hic)) hdn hdc
    · obtain ⟨m', hw, hm⟩ := ih (min m (s.versions i)) (i + 1) (by omega)
      have hs : advance n (s.goto k (.drainScan m i)) c k =
          some (s.goto k (.drainScan (min m (s.versions i)) (i + 1))) := by
        simp only [advance, pc_goto, if_pos hin, if_neg hic, goto_goto]
        rfl
      refine ⟨m', hw.cons hk hs (emit_scan s k m i), fun v => ?_⟩
      rw [hm v, Nat.le_min, and_assoc]
      refine and_congr_right fun _ => ⟨?_, fun h => ?_⟩
      · rintro ⟨hvi, h⟩ d hd hdn hdc
        by_cases hdi : d = i
        · exact hdi ▸ hvi
        · exact h d (Nat.lt_of_le_of_ne hd (Ne.symm hdi)) hdn hdc
      · exact ⟨h i (Nat.le_refl i) hin hic, fun d hd => h d (by omega)⟩

def Increasing (s : State C) (l : List Addr) : Prop :=
  l.Pairwise fun a b => (s.heads a).version < (s.heads b).version

omit [DecidableEq C] in
theorem filter_of_newer {l : List Addr} {a : Addr} {m : Nat} (h : Increasing s (a :: l))
    (ha : m < (s.heads a).version) :
    (a :: l).filter (fun b => (s.heads b).version ≤ m) = [] ∧
      (a :: l).filter (fun b => m < (s.heads b).version) = a :: l := by
  have hall : ∀ b ∈ a :: l, m < (s.heads b).version := by
    intro b hb
    cases List.mem_cons.mp hb with
    | inl hb => exact hb ▸ ha
    | inr hb => exact Nat.lt_trans ha ((List.pairwise_cons.mp h).1 b hb)
  refine ⟨List.filter_eq_nil_iff.mpr fun b hb => ?_, List.filter_eq_self.mpr fun b hb => ?_⟩
  · simpa using hall b hb
  · simpa using hall b hb

theorem drainLoop_works {l : List Addr} (hk : s.top k = some c) (m : Nat) (hq : Queue s c l)
    (hl : Increasing s l) :
    ∃ t, Works n k (s.goto k (.drainLoop m (s.data c).head))
        (l.filter fun a => (s.heads a).version ≤ m) t ∧ t.pc k = .idle ∧ t.heads = s.heads ∧
      Queue t c (l.filter fun a => m < (s.heads a).version) := by
  induction l generalizing s with
  | nil =>
    have hn : (s.data c).head = none := (linked_nil _).mp hq.linked
    have hs : advance n (s.goto k (.drainLoop m none)) c k = some (s.goto k .idle) := by
      simp only [advance, pc_goto, goto_goto]
    have he : emitCallback (s.goto k (.drainLoop m none)) (.advance k) = none := by
      simp only [emitCallback, pc_goto]
    rw [hn]
    exact ⟨s.goto k .idle, (Works.refl ..).cons hk hs he, pc_goto .., rfl, hq.linked, hq.tail⟩
  | cons a l ih =>
    obtain ⟨hhead, hlinked⟩ := hq.linked
    rw [hhead]
    by_cases ha : m < (s.heads a).version
    · have hs : advance n (s.goto k (.drainLoop m (some a))) c k = some (s.goto k .idle) := by
        simp only [advance, pc_goto, goto_goto]
        exact if_pos ha
      have he : emitCallback (s.goto k (.drainLoop m (some a))) (.advance k) = none := by
        simp only [emitCallback, pc_goto]
        exact if_pos ha
      obtain ⟨hnone, hall⟩ := filter_of_newer hl ha
      rw [hnone, hall]
      exact ⟨s.goto k .idle, (Works.refl ..).cons hk hs he, pc_goto .., rfl, hq.linked, hq.tail⟩
    · have hle : (s.heads a).version ≤ m := Nat.le_of_not_lt ha
      have hs : advance n (s.goto k (.drainLoop m (some a))) c k =
          some ((runCallback s c a).goto k (.drainLoop m (s.heads a).next)) := by
        simp only [advance, pc_goto]
        refine (if_neg ha).trans ?_
        simp only [runCallback, State.goto, Function.update_idem]
        rfl
      have he : emitCallback (s.goto k (.drainLoop m (some a))) (.advance k) = some a := by
        simp only [emitCallback, pc_goto]
        exact if_neg ha
      have hdata : ((runCallback s c a).data c).head = (s.heads a).next := by
        simp [runCallback]
      have hrest := (TailQueue.mk hq.linked hq.tail).dequeue.2
      have htail : ((runCallback s c a).data c).tail =
          if (s.heads a).next = none then none else (s.data c).tail := by
        simp [runCallback]
      have hq' : Queue (runCallback s c a) c l := ⟨hdata ▸ hrest.linked, htail.trans hrest.last⟩
      obtain ⟨t, hw, hpc, hheads, ht⟩ := ih (s := runCallback s c a) hk hq' (List.pairwise_cons.mp hl).2
      rw [hdata] at hw
      have hcons : (a :: l).filter (fun b => (s.heads b).version ≤ m) =
          a :: l.filter fun b => (s.heads b).version ≤ m := List.filter_cons_of_pos (by simpa using hle)
      have hskip : (a :: l).filter (fun b => m < (s.heads b).version) =
          l.filter fun b => m < (s.heads b).version := List.filter_cons_of_neg (by simpa using hle)
      rw [hcons, hskip]
      exact ⟨t, hw.cons hk hs he, hpc, hheads, ht⟩

/-- What a call of `thread_call_rcu` on core `c` owes: it runs the callbacks `es` and leaves the
state `t`, where the queue was `l`. -/
structure Drained (n : Nat) (s : State C) (c : Nat) (l es : List Addr) (t : State C) : Prop where
  ran : es = l.filter fun a => Reclaimable n s c a
  queue : Queue t c (l.filter fun a => ¬ Reclaimable n s c a)
  offline : (∀ i < n, i ≠ c → s.versions i = DONE) →
    es = l ∧ (t.data c).head = none ∧ (t.data c).tail = none

/-- `thread_call_rcu` runs what is reclaimable and was registered while the version still fitted
into an `unsigned`. -/
theorem threadCallRcu_works {l : List Addr} (hk : s.top k = some c) (hpc : s.pc k = .idle)
    (hq : Queue s c l) (hl : Increasing s l) :
    ∃ j t, run (step n) s (.threadCallRcu k :: List.replicate j (.advance k)) = some t ∧
      t.pc k = .idle ∧
      trace (step n) emitCallback s (.threadCallRcu k :: List.replicate j (.advance k)) =
        (l.filter fun a => Reclaimable n s c a ∧ (s.heads a).version ≤ uintMax) ∧
      Queue t c (l.filter fun a => ¬ (Reclaimable n s c a ∧ (s.heads a).version ≤ uintMax)) := by
  obtain ⟨m, hscan, hm⟩ := drainScan_works (n := n) hk uintMax 0
  obtain ⟨t, hloop, hidle, -, ht⟩ := drainLoop_works (n := n) hk m hq hl
  obtain ⟨j, hr, htr⟩ := hscan.trans hloop
  have hcall : step n s (.threadCallRcu k) = some (s.goto k (.drainScan uintMax 0)) :=
    (call_eq_some ..).mpr ⟨c, hk, hpc, rfl⟩
  have hmin : ∀ a, Reclaimable n s c a ∧ (s.heads a).version ≤ uintMax ↔
      (s.heads a).version ≤ m := by
    intro a
    rw [hm]
    exact ⟨fun ⟨h, hu⟩ => ⟨hu, fun d _ => h d⟩, fun ⟨hu, h⟩ => ⟨fun d => h d (Nat.zero_le d), hu⟩⟩
  refine ⟨j, t, (run_cons ..).mpr ⟨_, hcall, hr⟩, hidle, ?_, ?_⟩
  · rw [trace_cons hcall, htr]
    simp only [hmin]
    rfl
  · simpa only [hmin, Nat.not_le] using ht

/-- `thread_call_rcu` drains exactly the reclaimable callbacks, and all of them when the other
cores are offline, if and only if none of those has a version above `UINT_MAX`. -/
theorem drains_reclaimable_iff (n : Nat) (s : State C) (c : Nat) (k : C) (l : List Addr)
    (hk : s.top k = some c) (hpc : s.pc k = .idle) (hq : Queue s c l) (hl : Increasing s l)
    (hlt : ∀ a ∈ l, (s.heads a).version < 2 ^ 63) :
    ∃ j t, run (step n) s (.threadCallRcu k :: List.replicate j (.advance k)) = some t ∧
      t.pc k = .idle ∧
      (Drained n s c l
          (trace (step n) emitCallback s (.threadCallRcu k :: List.replicate j (.advance k))) t ↔
        ∀ a ∈ l, Reclaimable n s c a → (s.heads a).version ≤ uintMax) := by
  obtain ⟨j, t, hr, hidle, htr, ht⟩ := threadCallRcu_works (n := n) hk hpc hq hl
  refine ⟨j, t, hr, hidle, ?_⟩
  rw [htr]
  constructor
  · intro hd a ha hrec
    have hmem : a ∈ l.filter fun a => Reclaimable n s c a := List.mem_filter.mpr ⟨ha, by simpa using hrec⟩
    rw [← hd.ran] at hmem
    simp only [List.mem_filter, decide_eq_true_eq] at hmem
    exact hmem.2.2
  · intro hu
    have hsame : ∀ a ∈ l, (Reclaimable n s c a ∧ (s.heads a).version ≤ uintMax) ↔
        Reclaimable n s c a := fun a ha => ⟨And.left, fun h => ⟨h, hu a ha h⟩⟩
    have hran : (l.filter fun a => Reclaimable n s c a ∧ (s.heads a).version ≤ uintMax) =
        l.filter fun a => Reclaimable n s c a :=
      List.filter_congr fun a ha => decide_eq_decide.mpr (hsame a ha)
    have hleft : (l.filter fun a => ¬ (Reclaimable n s c a ∧ (s.heads a).version ≤ uintMax)) =
        l.filter fun a => ¬ Reclaimable n s c a :=
      List.filter_congr fun a ha => decide_eq_decide.mpr (not_congr (hsame a ha))
    rw [hleft] at ht
    refine ⟨hran, ht, fun hoff => ?_⟩
    have hall : ∀ a ∈ l, Reclaimable n s c a := by
      intro a ha i hi hic
      rw [hoff i hi hic, DONE]
      exact Nat.le_sub_one_of_lt (hlt a ha)
    have hnil : (l.filter fun a => ¬ Reclaimable n s c a) = [] :=
      List.filter_eq_nil_iff.mpr fun a ha => by simpa using hall a ha
    rw [hnil] at ht
    refine ⟨hran.trans (List.filter_eq_self.mpr fun a ha => by simpa using hall a ha), ?_, ht.tail⟩
    exact (linked_nil _).mp ht.linked

def registered (versions : Nat → Nat) (data : CallRcuData) (heads : Addr → RcuHead) : State Nat :=
  { init heads id with
    versions := versions
    data := Function.update (fun _ => ⟨none, none, 0⟩) 0 data
    stack := Function.update (fun _ => []) 0 [0]
    core := Function.update (fun _ => none) 0 (some 0) }

theorem drains_reclaimable_iff_mixed :
    ∃ j t es, run (step 2) (registered (fun _ => 4) ⟨some 0, some 1, 2⟩
        fun a => if a = 0 then ⟨some 1, 3, 0⟩ else ⟨none, 5, 0⟩)
        (.threadCallRcu 0 :: List.replicate j (.advance 0)) = some t ∧
      Drained 2 (registered (fun _ => 4) ⟨some 0, some 1, 2⟩
        fun a => if a = 0 then ⟨some 1, 3, 0⟩ else ⟨none, 5, 0⟩) 0 [0, 1] es t := by
  obtain ⟨j, t, hr, -, hiff⟩ := drains_reclaimable_iff 2 (registered (fun _ => 4) ⟨some 0, some 1, 2⟩
    fun a => if a = 0 then ⟨some 1, 3, 0⟩ else ⟨none, 5, 0⟩) 0 0 [0, 1] rfl rfl
    ⟨⟨rfl, rfl, rfl⟩, rfl⟩ (by simp [Increasing, registered, init]) (by simp [registered, init])
  exact ⟨j, t, _, hr, hiff.mpr (by simp [registered, init, uintMax])⟩

/-- A callback with version `2 ^ 32` stays in the queue although nobody is online. -/
theorem late_callback_kept :
    ∃ s : State Nat, s.top 0 = some 0 ∧ s.pc 0 = .idle ∧ Queue s 0 [0] ∧ Increasing s [0] ∧
      (s.heads 0).version = 2 ^ 32 ∧ (∀ i, s.versions i = DONE) ∧
      ∃ j t, run (step 2) s (.threadCallRcu 0 :: List.replicate j (.advance 0)) = some t ∧
        t.pc 0 = .idle ∧ ¬ Drained 2 s 0 [0]
          (trace (step 2) emitCallback s (.threadCallRcu 0 :: List.replicate j (.advance 0))) t := by
  let s := registered (fun _ => DONE) ⟨some 0, some 0, 1⟩ fun _ => ⟨none, 2 ^ 32, 0⟩
  have hq : Queue s 0 [0] := ⟨⟨rfl, rfl⟩, rfl⟩
  have hl : Increasing s [0] := List.pairwise_singleton ..
  have hk : s.top 0 = some 0 := rfl
  obtain ⟨j, t, hr, hidle, htr, ht⟩ := threadCallRcu_works (n := 2) hk rfl hq hl
  refine ⟨s, hk, rfl, hq, hl, rfl, fun _ => rfl, j, t, hr, hidle, fun hd => ?_⟩
  have hran := (hd.offline fun _ _ _ => rfl).1
  rw [htr] at hran
  have hmem : 0 ∈ [0].filter fun a => Reclaimable 2 s 0 a ∧ (s.heads a).version ≤ uintMax := by
    rw [hran]
    exact List.mem_singleton_self 0
  simp only [List.mem_filter, decide_eq_true_eq] at hmem
  have hver : (s.heads 0).version = 2 ^ 32 := rfl
  rw [hver, uintMax] at hmem
  omega

end LibCoro.Rcu
