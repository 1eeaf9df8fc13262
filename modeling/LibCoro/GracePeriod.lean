import LibCoro.RcuInvariant

namespace LibCoro.Rcu

open Machine

variable {C : Type} [DecidableEq C]

structure Placed (n : Nat) (s : State C) : Prop where
  core : ∀ k c, s.core k = some c → c < n
  yielded : ∀ k w m i c, s.pc k = .syncYielded w m i c → c < n

omit [DecidableEq C] in
theorem placed_of_same {n : Nat} {s t : State C} (hp : Placed n s) {k : C}
    (hcore : t.core = s.core) (hpc : ∀ j, j ≠ k → t.pc j = s.pc j) (hk : ¬ (t.pc k).Yielded) :
    Placed n t := by
  refine ⟨fun j c hj => hp.core j c (by rwa [← hcore]), fun j w m i c hj => ?_⟩
  have hjk : j ≠ k := by
    rintro rfl
    rw [hj] at hk
    exact hk trivial
  rw [hpc j hjk] at hj
  exact hp.yielded j w m i c hj

theorem placed_advances {n : Nat} {s t : State C} {c : Nat} {k : C} (hp : Placed n s)
    (hk : s.top k = some c) (h : Advances n s c k t) : Placed n t := by
  have hne : ∀ j, j ≠ k → t.pc j = s.pc j := fun j hj =>
    (frame_advances hk h).pc j fun e => hj (Option.some.inj e)
  cases h with
  | yield w m i hpc =>
    refine ⟨fun j d hj => ?_, fun j w' m' i' d hj => ?_⟩
    · by_cases hjk : j = k
      · simp [rcuOffline, State.goto, State.leave, hjk] at hj
      · simp only [rcuOffline, State.goto, State.leave, Function.update_of_ne hjk] at hj
        exact hp.core j d hj
    · by_cases hjk : j = k
      · rw [hjk, pc_goto] at hj
        cases hj
        exact hp.core k c ((top_eq_some s k c).mp hk).1
      · rw [hne j hjk] at hj
        exact hp.yielded j w' m' i' d hj
  | _ =>
    refine placed_of_same hp rfl hne ?_
    simp [State.goto, State.setDepth, Pc.Yielded]

theorem placed_calls {n : Nat} {s t : State C} {c : Nat} {k : C} {a : Act C} (hp : Placed n s)
    (hk : s.top k = some c) (hpc : s.pc k = .idle) (h : Calls s c k a t) : Placed n t := by
  have hne : ∀ j, j ≠ k → t.pc j = s.pc j := fun j hj =>
    (frame_calls hk h).pc j fun e => hj (Option.some.inj e)
  cases h with
  | suspend =>
    refine ⟨fun j e hj => ?_, hp.yielded⟩
    by_cases hjk : j = k
    · simp [State.leave, hjk] at hj
    · simp only [State.leave, Function.update_of_ne hjk] at hj
      exact hp.core j e hj
  | callRcu head func =>
    refine placed_of_same hp (core_callRcu s c k head func) hne ?_
    rw [pc_callRcu_self]
    split_ifs <;> simp [hpc, Pc.Yielded]
  | load _ | synchronize | threadCallRcu =>
    refine placed_of_same hp rfl hne ?_
    simp [synchronizeRcu, Pc.Yielded]
  | count _ | readUnlock _ | dereference _ | assign _ _ => exact ⟨hp.core, hp.yielded⟩

theorem placed_step {n : Nat} (s : State C) (a : Act C) (t : State C) (hp : Placed n s)
    (h : step n s a = some t) : Placed n t := by
  have hcore : ∀ (c : Nat) (k : C), c < n → ∀ j e, (s.enter c k).core j = some e → e < n := by
    intro c k hc j e hj
    by_cases hjk : j = k
    · simp only [State.enter, hjk, Function.update_self, Option.some.injEq] at hj
      exact hj ▸ hc
    · simp only [State.enter, Function.update_of_ne hjk] at hj
      exact hp.core j e hj
  cases moves_of_step h with
  | resume c k hc _ _ _ => exact ⟨hcore c k hc, hp.yielded⟩
  | deliver k w m i c hpc _ =>
    refine ⟨hcore c k (hp.yielded k w m i c hpc), fun j w' m' i' e hj => ?_⟩
    by_cases hjk : j = k
    · rw [hjk, pc_goto] at hj
      cases hj
    · rw [pc_goto_ne _ _ hjk] at hj
      exact hp.yielded j w' m' i' e hj
  | offline c _ _ => exact ⟨hp.core, hp.yielded⟩
  | call c k hk hpc h => exact placed_calls hp hk hpc h
  | advance c k hk h => exact placed_advances hp hk h

/-- The writer `k` has yet to see core `c` at a version that reaches its ticket. -/
def Polls (k : C) (c w : Nat) (s : State C) : Prop :=
  ∃ m i, m ≠ c ∧ i ≤ c ∧ (s.pc k = .sync w m i ∨ s.pc k = .syncYield w m i ∨
    ∃ d, s.pc k = .syncYielded w m i d)

theorem polls_step {n : Nat} {s t : State C} {a : Act C} {k : C} {c w : Nat} (hcn : c < n)
    (hp : Polls k c w s) (hv : s.versions c < w) (h : step n s a = some t) : Polls k c w t := by
  obtain ⟨m, i, hm, hi, hpc⟩ := hp
  have hidle : s.pc k ≠ .idle := by
    obtain hpc | hpc | ⟨d, hpc⟩ := hpc <;> simp [hpc]
  by_cases hact : a.actor = some k
  · cases moves_of_step h with
    | offline d _ _ => cases hact
    | resume d j _ _ hj _ =>
      cases hact
      exact absurd hj hidle
    | call d j _ hj h =>
      cases h.actor.symm.trans hact
      exact absurd hj hidle
    | deliver j w' m' i' d hj _ =>
      cases hact
      obtain hpc | hpc | ⟨e, hpc⟩ := hpc <;> rw [hj] at hpc <;> cases hpc
      exact ⟨m, i, hm, hi, .inl (pc_goto _ k _)⟩
    | advance d j hd h =>
      cases hact
      cases h with
      | pass w' m' i' hj _ hvi =>
        obtain hpc | hpc | ⟨e, hpc⟩ := hpc <;> rw [hj] at hpc <;> cases hpc
        have hic : i ≠ c := by
          rintro rfl
          exact hvi.elim hm.symm fun hle => absurd hv (Nat.not_lt.mpr hle)
        exact ⟨m, i + 1, hm, by omega, .inl (pc_goto s k _)⟩
      | wait w' m' i' hj _ _ _ =>
        obtain hpc | hpc | ⟨e, hpc⟩ := hpc <;> rw [hj] at hpc <;> cases hpc
        exact ⟨m, i, hm, hi, .inr (.inl (pc_goto s k _))⟩
      | synced w' m' i' hj hni =>
        obtain hpc | hpc | ⟨e, hpc⟩ := hpc <;> rw [hj] at hpc <;> cases hpc
        omega
      | yield w' m' i' hj =>
        obtain hpc | hpc | ⟨e, hpc⟩ := hpc <;> rw [hj] at hpc <;> cases hpc
        exact ⟨m, i, hm, hi, .inr (.inr ⟨d, pc_goto _ k _⟩)⟩
      | same g hj | other g hj | store g hj | look m' m'' i' hj | looked m' i' hj | leave m' node hj
      | callback m' x hj => simp [hj] at hpc
  · obtain ⟨d, hd⟩ := site_of_step h
    rw [← (frame_step h hd).pc k (Ne.symm hact)] at hpc
    exact ⟨m, i, hm, hi, hpc⟩

def Returns (n : Nat) (s : State C) (k : C) : Prop := ∃ w m i, s.pc k = .sync w m i ∧ n ≤ i

end LibCoro.Rcu
