import LibCoro.ExclusiveNotify

namespace LibCoro.ConditionVariable

open Machine Chain

variable {C : Type}

/-- The awaiter is on the stack, where the next notification finds it. -/
def Registered (s : State C) (a : C) : Prop := ∃ l, Linked s.next s.awaiters l ∧ a ∈ l

def Pc.Sweeping : Pc C → Prop
  | .allLoad | .allCas _ => True
  | _ => False

def Pc.Picking : Pc C → Prop
  | .oneLoad | .oneNext _ | .oneCas _ _ => True
  | _ => False

theorem Pc.Sweeping.awake {p : Pc C} (h : p.Sweeping) : p ≠ .idle ∧ p ≠ .parked := by
  cases p <;> simp [Pc.Sweeping] at h ⊢

theorem Pc.Picking.awake {p : Pc C} (h : p.Picking) : p ≠ .idle ∧ p ≠ .parked := by
  cases p <;> simp [Pc.Picking] at h ⊢

variable {s t : State C} {l : List C} {d : C → List C}

theorem registered_iff (hi : Inv s l d) (a : C) : Registered s a ↔ a ∈ l := by
  constructor
  · intro h
    obtain ⟨l', hl, ha⟩ := h
    rwa [linked_unique hi.linked hl]
  · intro ha
    exact ⟨l, hi.linked, ha⟩

theorem parked_of_registered (hi : ∃ l d, Inv s l d) {a : C} (ha : Registered s a) :
    s.pc a = .parked := by
  obtain ⟨l, d, hi⟩ := hi
  exact (hi.parked a).mpr (.inl ((registered_iff hi a).mp ha))

/-- While nobody notifies, every awaiter that waits is on the stack. -/
theorem registered_of_parked (hi : ∃ l d, Inv s l d) (hc : ∀ k, (s.pc k).Calm) {a : C}
    (ha : s.pc a = .parked) : Registered s a := by
  obtain ⟨l, d, hi⟩ := hi
  obtain hl | ⟨k, hk⟩ := (hi.parked a).mp ha
  · exact (registered_iff hi a).mpr hl
  · have hd := hi.detached k
    obtain hidle | hparked := hc k
    · rw [hidle] at hd
      simp [show d k = [] from hd] at hk
    · rw [hparked] at hd
      simp [show d k = [] from hd] at hk

theorem not_registered_of_null (hs : s.awaiters = none) (a : C) : ¬ Registered s a := by
  intro h
  obtain ⟨l, hl, ha⟩ := h
  rw [hs, linked_none] at hl
  simp [hl] at ha

variable [DecidableEq C] {a : Act C} {k : C} {spurious : Bool}

theorem registered_step (hi : ∃ l d, Inv s l d) (hs : OneSafe s a) (h : step s a = some t) {c : C}
    (hc : Registered t c) :
    Registered s c ∨ (a.actor = c ∧ (s.pc c).Pushing ∧ t.pc c = .parked) := by
  have hpark := parked_of_registered (inv_step hi hs h) hc
  obtain ⟨l, d, hi⟩ := hi
  cases a with
  | suspend k | notifyAll k | notifyOne k =>
    have ht := inv_call hi (by simp) h
    rw [registered_iff ht] at hc
    exact .inl ((registered_iff hi c).mpr hc)
  | advance k spurious =>
    obtain ⟨l', d', ht, -, hself⟩ := inv_advance hi hs (advances_of_step h)
    rw [registered_iff ht] at hc
    have hsame : l' = l → Registered s c := by
      intro hl
      rw [hl] at hc
      exact (registered_iff hi c).mpr hc
    cases hpc : s.pc k with
    | suspendCas w =>
      rw [hpc] at hself
      obtain ⟨hl, -⟩ := hself
      split_ifs at hl with hcas
      · rw [hl, List.mem_cons] at hc
        obtain rfl | hc := hc
        · exact .inr ⟨rfl, by simp [hpc, Pc.Pushing], hpark⟩
        · exact .inl ((registered_iff hi c).mpr hc)
      · exact .inl (hsame hl)
    | allCas w =>
      simp only [hpc] at hself
      split_ifs at hself with hcas
      · simp [hself.1] at hc
      · exact .inl (hsame hself.1)
    | oneCas b n =>
      simp only [hpc] at hself
      split_ifs at hself with hcas
      · refine .inl ((registered_iff hi c).mpr ?_)
        rw [hself.1]
        exact List.mem_cons_of_mem b hc
      · exact .inl (hsame hself.1)
    | _ =>
      rw [hpc] at hself
      exact .inl (hsame hself.1)

theorem sweeping_step (hk : (s.pc k).Sweeping) (h : step s (.advance k spurious) = some t) :
    (t.pc k).Sweeping ∨ ∀ c, ¬ Registered t c := by
  cases advances_of_step h with
  | allLoad _ | allAgain w _ _ => exact .inl (by simp [State.goto, Pc.Sweeping])
  | takeAll w _ _ => exact .inr (not_registered_of_null rfl)
  | suspendLoad hpc | suspendNext w hpc | push w hpc _ | pushAgain w hpc _ | nobody hpc _
  | oneLoad hpc _ | oneNext b hpc | nullDeref hpc | takeOne b n hpc _ | oneAgain b n hpc _
  | oneClear b hpc | loop b hpc | finish hpc | resume b w hpc _ | strayResume b w hpc _ =>
    rw [hpc] at hk
    exact hk.elim

theorem picking_step (hi : ∃ l d, Inv s l d) (hs : OneSafe s (.advance k spurious))
    (hk : (s.pc k).Picking) (h : step s (.advance k spurious) = some t) :
    (t.pc k).Picking ∨ (∀ c, ¬ Registered t c) ∨ ∃ a, Registered s a ∧ ¬ Registered t a := by
  obtain ⟨l, d, hi⟩ := hi
  have hsound := hi.sound k
  obtain ⟨l', d', ht, -, hself⟩ := inv_advance hi hs (advances_of_step h)
  cases advances_of_step h with
  | nobody _ hn => exact .inr (.inl (not_registered_of_null hn))
  | oneLoad _ _ | oneNext b _ | oneAgain b n _ _ => exact .inl (by simp [State.goto, Pc.Picking])
  | nullDeref hpc =>
    rw [hpc] at hsound
    exact hsound.elim
  | takeOne b n hpc hc =>
    simp only [hpc, if_pos hc] at hself
    have hnodup := linked_nodup hi.linked
    rw [hself.1, List.nodup_cons] at hnodup
    refine .inr (.inr ⟨b, (registered_iff hi b).mpr ?_, fun hb => ?_⟩)
    · simp [hself.1]
    · exact hnodup.1 ((registered_iff ht b).mp hb)
  | suspendLoad hpc | suspendNext w hpc | push w hpc _ | pushAgain w hpc _ | allLoad hpc
  | takeAll w hpc _ | allAgain w hpc _ | oneClear b hpc | loop b hpc | finish hpc | resume b w hpc _
  | strayResume b w hpc _ =>
    rw [hpc] at hk
    exact hk.elim

end LibCoro.ConditionVariable
