import LibCoro.WaiterStack

namespace LibCoro.ConditionVariable

open Machine Chain

variable {C : Type}

inductive Pc.Resuming : Pc C → Prop where
  | idle : Resuming .idle
  | loop (awaiters : Option C) : Resuming (.resumeWaiters awaiters)
  | resume (prev : C) (awaiters : Option C) : Resuming (.resume prev awaiters)

variable [DecidableEq C] {s t : State C} {l : List C} {d : C → List C} {k : C} {spurious : Bool}

theorem resuming_advances (hi : Inv s l d) (hk : (s.pc k).Resuming) (h : Advances s k spurious t) :
    (t.pc k).Resuming ∧ ∃ d', Inv t l d' ∧
      ((∃ a w, s.pc k = .resume a w ∧ d k = a :: d' k) ∨
        (∀ a w, s.pc k ≠ .resume a w) ∧ d' k = d k) := by
  have hsafe : OneSafe s (.advance k spurious) := by
    generalize hpc : s.pc k = p at hk
    cases hk <;> simp [OneSafe, SafeCas, hpc]
  obtain ⟨l', d', hi', -, hself⟩ := inv_advance hi hsafe h
  cases h with
  | loop a hpc =>
    rw [hpc] at hself
    rw [pc_goto]
    exact ⟨.resume _ _, d', hself.1 ▸ hi', .inr ⟨by simp [hpc], hself.2⟩⟩
  | finish hpc =>
    rw [hpc] at hself
    rw [pc_goto]
    exact ⟨.idle, d', hself.1 ▸ hi', .inr ⟨by simp [hpc], hself.2⟩⟩
  | resume a w hpc ha =>
    rw [hpc] at hself
    rw [pc_goto]
    exact ⟨.loop w, d', hself.1 ▸ hi', .inl ⟨a, w, hpc, hself.2⟩⟩
  | strayResume a w hpc ha => exact absurd (hi.parked_of_resume hpc) ha
  | suspendLoad hpc | suspendNext w hpc | push w hpc _ | pushAgain w hpc _ | allLoad hpc
  | takeAll w hpc _ | allAgain w hpc _ | nobody hpc _ | oneLoad hpc _ | oneNext a hpc | nullDeref hpc
  | takeOne a n hpc _ | oneAgain a n hpc _ | oneClear a hpc =>
    rw [hpc] at hk
    cases hk

theorem resuming_step {a : Act C} (hi : Inv s l d) (h : step s a = some t)
    (hc : a.actor = k → ∃ spurious, a = .advance k spurious) (hk : (s.pc k).Resuming) :
    (t.pc k).Resuming := by
  by_cases hact : a.actor = k
  · obtain ⟨spurious, rfl⟩ := hc hact
    exact (resuming_advances hi hk (advances_of_step h)).1
  · obtain hsame | ⟨hparked, -⟩ := pc_of_step h (Ne.symm hact)
    · rwa [hsame]
    · rw [hparked] at hk
      cases hk

theorem resuming_finishes (hi : Inv s l d) (hk : (s.pc k).Resuming) :
    ∃ j u, run step s (List.replicate j (.advance k false)) = some u ∧ u.pc k = .idle := by
  have hloop : ∀ (e : List C) (s : State C) (d : C → List C) (w : Option C), Inv s l d → d k = e →
      s.pc k = .resumeWaiters w →
      ∃ j u, run step s (List.replicate j (.advance k false)) = some u ∧ u.pc k = .idle := by
    intro e
    induction e with
    | nil =>
      intro s d w hi he hpc
      have hdk := hi.detached k
      rw [hpc, he] at hdk
      obtain rfl : w = none := hdk
      refine ⟨1, s.goto k .idle, (run_cons ..).mpr ⟨_, ?_, rfl⟩, pc_goto ..⟩
      simp [step, advance, hpc]
    | cons b e ih =>
      intro s d w hi he hpc
      have hdk := hi.detached k
      rw [hpc, he] at hdk
      obtain rfl : w = some b := hdk.1
      have hs₁ : step s (.advance k false) = some (s.goto k (.resume b (s.next b))) := by
        simp [step, advance, hpc]
      have hpc₁ := pc_goto s k (.resume b (s.next b))
      obtain ⟨hk₁, d₁, hi₁, hd₁⟩ := resuming_advances hi (hpc ▸ .loop _) (advances_of_step hs₁)
      have hs₂ : step (s.goto k (.resume b (s.next b))) (.advance k false) =
          some (((s.goto k (.resume b (s.next b))).goto b .idle).goto k
            (.resumeWaiters (s.next b))) := by
        simp only [step, advance, hpc₁, if_pos (hi₁.parked_of_resume hpc₁)]
      obtain ⟨-, d₂, hi₂, hd₂⟩ := resuming_advances hi₁ hk₁ (advances_of_step hs₂)
      obtain ⟨a, w, ha, -⟩ | ⟨-, hd₁⟩ := hd₁
      · rw [hpc] at ha
        cases ha
      obtain ⟨a, w, ha, hd₂⟩ | ⟨hno, -⟩ := hd₂
      · rw [hd₁, he, List.cons.injEq] at hd₂
        obtain ⟨j, u, hr, hu⟩ := ih _ _ _ hi₂ hd₂.2.symm (pc_goto ..)
        exact ⟨j + 2, u, (run_cons ..).mpr ⟨_, hs₁, (run_cons ..).mpr ⟨_, hs₂, hr⟩⟩, hu⟩
      · exact absurd hpc₁ (hno _ _)
  generalize hpc : s.pc k = p at hk
  cases hk with
  | idle => exact ⟨0, s, rfl, hpc⟩
  | loop w => exact hloop (d k) s d w hi rfl hpc
  | resume b w =>
    have hs₁ : step s (.advance k false) = some ((s.goto b .idle).goto k (.resumeWaiters w)) := by
      simp only [step, advance, hpc, if_pos (hi.parked_of_resume hpc)]
    obtain ⟨-, d₁, hi₁, -⟩ := resuming_advances hi (hpc ▸ .resume b w) (advances_of_step hs₁)
    obtain ⟨j, u, hr, hu⟩ := hloop _ _ _ w hi₁ rfl (pc_goto ..)
    exact ⟨j + 1, u, (run_cons ..).mpr ⟨_, hs₁, hr⟩, hu⟩

end LibCoro.ConditionVariable
