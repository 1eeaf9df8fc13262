import LibCoro.MutexLock
import LibCoro.SectionsProgress

namespace LibCoro

open Machine Sections

variable {C : Type}

def Status.place : Status → Place
  | .idle => .outside
  | .acquiring => .entering
  | .holding => .inside
  | .releasing => .leaving

theorem Status.place_outside (st : Status) : st.place = .outside ↔ st = .idle := by
  cases st <;> simp [Status.place]

theorem Status.place_inside (st : Status) : st.place = .inside ↔ st = .holding := by
  cases st <;> simp [Status.place]

def Lock.guard (L : Lock C) (mode : C → Mode) : Guard mode where
  State := L.State
  Move := L.Move
  init := L.init
  enter := L.coLock
  leave := L.unlock
  move := L.move
  place s k := (L.status s k).place
  Inv := L.Inv
  inv_init := L.inv_init
  place_init k := congrArg Status.place (L.status_init k)
  inv_enter := L.inv_coLock
  inv_leave := L.inv_unlock
  inv_move := L.inv_move
  alone s j k hi hj hk _ := by
    rw [Status.place_inside] at hj hk
    exact L.exclusive s j k hi (.inl hj) (.inl hk)
  enter_place s k t h := by
    obtain ⟨hs, ht, hother⟩ := L.coLock_status s k t h
    refine ⟨by rw [hs]; rfl, ?_, fun j hj => by rw [hother j hj]⟩
    obtain ht | ht := ht <;> simp [ht, Status.place]
  leave_place s k t h := by
    obtain ⟨hs, ht, hother⟩ := L.unlock_status s k t h
    refine ⟨by rw [hs]; rfl, ?_, fun j hj => by rw [hother j hj]⟩
    obtain ht | ht := ht <;> simp [ht, Status.place]
  move_place s m t hi h j := by
    obtain hj | ⟨hs, ht⟩ | ⟨hs, ht⟩ := L.move_status s m t hi h j
    · exact .inl (by rw [hj])
    · exact .inr (.inl (by simp [hs, ht, Status.place]))
    · exact .inr (.inr (by simp [hs, ht, Status.place]))

variable [DecidableEq C]

namespace SpinLock

def Kept (s : State C) : Prop := s.locked = true → ∃ k, s.pc k = .holding

theorem kept_goto {s u : State C} {k : C} {p : Pc} (h : Kept s) (hk : s.pc k ≠ .holding)
    (hl : u.locked = s.locked) (hu : u.pc = s.pc) : Kept (u.goto k p) := by
  intro ht
  obtain ⟨j, hj⟩ := h (hl.symm.trans ht)
  have hjk : j ≠ k := by
    rintro rfl
    exact hk hj
  exact ⟨j, by simpa [State.goto, hjk, hu] using hj⟩

theorem kept_exchange {s : State C} {k : C} {fail : Pc} (h : Kept s) (hk : s.pc k ≠ .holding) :
    Kept (exchange s k fail) := by
  cases hl : s.locked with
  | true =>
    have he : exchange s k fail = s.goto k fail := by simp [exchange, State.goto, hl]
    rw [he]
    exact kept_goto h hk rfl rfl
  | false =>
    intro _
    exact ⟨k, by simp [exchange, State.goto, hl]⟩

theorem kept_advance {s t : State C} {spinCount : Int} {k : C} (h : Kept s)
    (ht : advance spinCount s k = some t) : Kept t := by
  unfold advance at ht
  cases hpc : s.pc k with
  | idle | holding => simp [hpc] at ht
  | tryLoop counter =>
    simp only [hpc, Option.some.injEq] at ht
    exact ht ▸ kept_exchange h (by simp [hpc])
  | yielded =>
    simp only [hpc, Option.some.injEq] at ht
    exact ht ▸ kept_goto h (by simp [hpc]) rfl rfl
  | spin counter =>
    simp only [hpc] at ht
    split_ifs at ht <;> cases ht <;> exact kept_goto h (by simp [hpc]) rfl rfl

theorem runs_holding {s : State C} (spinCount : Int) {k : C} (hl : s.locked = false)
    (hk : status s k = .acquiring) :
    ∃ ms t, run (advance spinCount) s ms = some t ∧ t.pc k = .holding := by
  have htry : ∀ (u : State C) (counter : Int), u.locked = false → u.pc k = .tryLoop counter →
      ∃ ms t, run (advance spinCount) u ms = some t ∧ t.pc k = .holding := by
    intro u counter hu hpc
    refine ⟨[k], exchange u k (.spin counter), ?_, by simp [exchange, State.goto, hu]⟩
    simp [run, advance, hpc]
  have hspin : ∀ (u : State C) (counter : Int), u.locked = false → u.pc k = .spin counter →
      ∃ ms t, run (advance spinCount) u ms = some t ∧ t.pc k = .holding := by
    intro u counter hu hpc
    obtain ⟨ms, t, hr, ht⟩ := htry (u.goto k (.tryLoop counter)) counter hu (by simp [State.goto])
    refine ⟨k :: ms, t, (run_cons _ _ _ _).mpr ⟨_, ?_, hr⟩, ht⟩
    simp [advance, hpc, hu]
  cases hpc : s.pc k with
  | idle | holding => simp [status, hpc] at hk
  | tryLoop counter => exact htry s counter hl hpc
  | spin counter => exact hspin s counter hl hpc
  | yielded =>
    obtain ⟨ms, t, hr, ht⟩ := hspin (s.goto k (.spin spinCount)) spinCount hl (by simp [State.goto])
    refine ⟨k :: ms, t, (run_cons _ _ _ _).mpr ⟨_, ?_, hr⟩, ht⟩
    simp [advance, hpc]

omit [DecidableEq C] in
theorem idle_of_status {s : State C} {k : C} (h : status s k = .idle) : s.pc k = .idle := by
  unfold status at h
  cases hpc : s.pc k <;> simp [hpc] at h
  rfl

theorem settles {s : State C} (spinCount : Int) (hg : Kept s) (hno : ∀ k, status s k ≠ .holding) :
    ∃ ms t, run (advance spinCount) s ms = some t ∧
      ((∃ k, status t k = .holding) ∨ ∀ k, status t k = .idle) := by
  have hfree : s.locked = false := by
    by_contra hl
    obtain ⟨k, hk⟩ := hg (by simpa using hl)
    exact hno k (by simp [status, hk])
  by_cases hacq : ∃ k, status s k = .acquiring
  · obtain ⟨k, hk⟩ := hacq
    obtain ⟨ms, t, hr, ht⟩ := runs_holding spinCount hfree hk
    exact ⟨ms, t, hr, .inl ⟨k, by simp [status, ht]⟩⟩
  · refine ⟨[], s, rfl, .inr fun k => ?_⟩
    have hk := not_exists.mp hacq k
    have hk' := hno k
    unfold status at hk hk' ⊢
    cases hpc : s.pc k <;> simp [hpc] at hk hk' ⊢

theorem live (spinCount : Int) (mode : C → Mode) :
    Live ((spinLock spinCount : Lock C).guard mode) Kept where
  init h := by cases h
  enter s k t _ hg h := by
    obtain ⟨hk, rfl⟩ := (when_eq_some _ _ _).mp h
    exact kept_goto hg (by simp [hk]) rfl rfl
  leave s k t _ _ h := by
    obtain ⟨-, rfl⟩ := (when_eq_some _ _ _).mp h
    intro ht
    cases ht
  move s m t _ hg h := kept_advance hg h
  enters s k _ _ hk := ⟨_, if_pos (idle_of_status ((Status.place_outside _).mp hk))⟩
  leaves s k _ _ hk := ⟨_, if_pos (holding_of_owns (.inl ((Status.place_inside _).mp hk)))⟩
  settles s _ hg hno := by
    have hnot : ∀ k, status s k ≠ .holding := fun k hk => hno k ((Status.place_inside _).mpr hk)
    obtain ⟨ms, t, hr, ht⟩ := settles spinCount hg hnot
    refine ⟨ms, t, hr, ht.imp ?_ ?_⟩
    · rintro ⟨k, hk⟩
      exact ⟨k, (Status.place_inside _).mpr hk⟩
    · exact fun hk k => (Status.place_outside _).mpr (hk k)

end SpinLock

namespace Mutex

def Drives (s t : State C) : Prop := ∃ ms, run (mutex : Lock C).move s ms = some t

theorem drives_refl (s : State C) : Drives s s := ⟨[], rfl⟩

theorem drives_step {s t u : State C} (k : C) (h : advance s k false = some t) (ht : Drives t u) :
    Drives s u := by
  obtain ⟨ms, hms⟩ := ht
  exact ⟨(k, false) :: ms, (run_cons _ _ _ _).mpr ⟨t, h, hms⟩⟩

def Open (s : State C) (a : FifoLock.State C) : Prop :=
  Represents s a ∧ ((∃ j, s.pc j = .holding) ∨ a.owner = none)

variable {s : State C} {a : FifoLock.State C} {k : C}

theorem resume_opens {b : C} (h : Represents s a) (hk : s.pc k = .unlockResume b) :
    ∃ t a', Drives s t ∧ Open t a' := by
  obtain ⟨-, -, -, hr⟩ := represents_resume h hk
  have hstep : advance s k false = some ((s.goto k .idle).goto b .holding) := by
    simp [advance, hk]
  exact ⟨_, _, drives_step k hstep (drives_refl _), hr, .inl ⟨b, goto_pc_self _ b _⟩⟩

theorem pop_opens {head : Option C} (h : Represents s a) (hk : s.pc k = .unlockPop head) :
    ∃ t a', Drives s t ∧ Open t a' := by
  obtain ⟨b, rfl, hr⟩ := represents_pop h hk
  obtain ⟨t, a', ht, ho⟩ := resume_opens hr (goto_pc_self _ k _)
  exact ⟨t, a', drives_step k (by simp [advance, hk]) ht, ho⟩

theorem reverse_opens {w : C} {head : Option C} (h : Represents s a)
    (hk : s.pc k = .unlockReverse w head) : ∃ t a', Drives s t ∧ Open t a' := by
  obtain ⟨front, stack, -, -, hfront⟩ := h.lists
  have hf := hfront k ((h.holds k).mp (by simp [hk, Pc.Holds]))
  rw [hk] at hf
  obtain ⟨-, rest, -, hrest, -⟩ := hf
  clear hfront
  -- the list that is still to be reversed gets shorter
  induction rest generalizing s a w head with
  | nil => cases hrest
  | cons x rest ih =>
    have hnot : x ∉ rest := (List.nodup_cons.mp (Chain.linked_nodup hrest)).1
    obtain ⟨hx, hlink⟩ := hrest
    obtain rfl : w = x := Option.some.inj hx
    have hr := represents_reverse h hk
    cases hn : s.next w with
    | some temp =>
      rw [hn] at hr hlink
      obtain ⟨t, a', ht, ho⟩ := ih hr (goto_pc_self _ k _) ((Chain.linked_update head hnot).mpr hlink)
      exact ⟨t, a', drives_step k (by simp [advance, hk, hn]) ht, ho⟩
    | none =>
      rw [hn] at hr
      obtain ⟨t, a', ht, ho⟩ := pop_opens hr (goto_pc_self _ k _)
      exact ⟨t, a', drives_step k (by simp [advance, hk, hn]) ht, ho⟩

theorem exchange_opens (h : Represents s a) (hk : s.pc k = .unlockExchange) :
    ∃ t a', Drives s t ∧ Open t a' := by
  obtain ⟨b, hb, hr⟩ := represents_exchange h hk
  obtain ⟨t, a', ht, ho⟩ := reverse_opens hr (goto_pc_self _ k _)
  exact ⟨t, a', drives_step k (by simp [advance, hk, hb]) ht, ho⟩

theorem cas_opens (h : Represents s a) (hk : s.pc k = .unlockCas) :
    ∃ t a', Drives s t ∧ Open t a' := by
  by_cases hs : s.state = .nullptr
  · obtain ⟨-, -, hr⟩ := represents_release h hk hs
    exact ⟨_, _, drives_step k (by simp [advance, hk, hs]) (drives_refl _), hr, .inr rfl⟩
  · have hstep : advance s k false = some (s.goto k .unlockExchange) := by simp [advance, hk, hs]
    obtain ⟨b, -, hr⟩ := represents_step s a (.advance k false) _ h hstep
    obtain ⟨t, a', ht, ho⟩ := exchange_opens hr (goto_pc_self _ k _)
    exact ⟨t, a', drives_step k hstep ht, ho⟩

theorem load_opens (h : Represents s a) (hk : s.pc k = .unlockLoad) :
    ∃ t a', Drives s t ∧ Open t a' := by
  by_cases hs : s.state = .nullptr
  · have hstep : advance s k false = some (s.goto k .unlockCas) := by simp [advance, hk, hs]
    obtain ⟨b, -, hr⟩ := represents_step s a (.advance k false) _ h hstep
    obtain ⟨t, a', ht, ho⟩ := cas_opens hr (goto_pc_self _ k _)
    exact ⟨t, a', drives_step k hstep ht, ho⟩
  · have hstep : advance s k false = some (s.goto k .unlockExchange) := by simp [advance, hk, hs]
    obtain ⟨b, -, hr⟩ := represents_step s a (.advance k false) _ h hstep
    obtain ⟨t, a', ht, ho⟩ := exchange_opens hr (goto_pc_self _ k _)
    exact ⟨t, a', drives_step k hstep ht, ho⟩

theorem owner_opens (h : Represents s a) (hk : (s.pc k).Holds) : ∃ t a', Drives s t ∧ Open t a' := by
  cases hpc : s.pc k with
  | holding => exact ⟨s, a, drives_refl s, h, .inl ⟨k, hpc⟩⟩
  | unlockLoad => exact load_opens h hpc
  | unlockCas => exact cas_opens h hpc
  | unlockExchange => exact exchange_opens h hpc
  | unlockReverse w head => exact reverse_opens h hpc
  | unlockPop head => exact pop_opens h hpc
  | unlockResume b => exact resume_opens h hpc
  | _ => simp [hpc, Pc.Holds] at hk

theorem free_taken (h : Represents s a) (ho : a.owner = none) (hk : status s k = .acquiring) :
    ∃ t, Drives s t ∧ t.pc k = .holding := by
  have hs : s.state = .unlockedState := h.free.mpr ho
  have htake : ∀ u : State C, u.state = .unlockedState → u.pc k = .lockLoop .unlockedState →
      ∃ t, Drives u t ∧ t.pc k = .holding := by
    intro u hu hpc
    exact ⟨{ u with state := .nullptr }.goto k .holding,
      drives_step k (by simp [advance, hpc, hu]) (drives_refl _), goto_pc_self _ k _⟩
  have hretry : ∀ (u : State C) (w : Word C), u.state = .unlockedState → u.pc k = .lockEnqueue w →
      w ≠ .unlockedState → ∃ t, Drives u t ∧ t.pc k = .holding := by
    intro u w hu hpc hw
    obtain ⟨t, ht, hhold⟩ := htake (u.goto k (.lockLoop u.state)) hu (by simp [hu])
    exact ⟨t, drives_step k (by simp [advance, hpc, hu, Ne.symm hw]) ht, hhold⟩
  cases hpc : s.pc k with
  | lockAsyncImpl =>
    obtain ⟨t, ht, hhold⟩ := htake (s.goto k (.lockLoop s.state)) hs (by simp [hs])
    exact ⟨t, drives_step k (by simp [advance, hpc]) ht, hhold⟩
  | lockLoop w =>
    by_cases hw : w = .unlockedState
    · exact htake s hs (hw ▸ hpc)
    · obtain ⟨t, ht, hhold⟩ := hretry
        ({ s with next := Function.update s.next k w.toAwaiter }.goto k (.lockEnqueue w)) w hs
        (goto_pc_self _ k _) hw
      exact ⟨t, drives_step k (by simp [advance, hpc, hw]) ht, hhold⟩
  | lockEnqueue w => exact hretry s w hs hpc (h.linked k w hpc).1
  | parked =>
    have hq := (h.parked k).mp hpc
    rw [(h.empty ho).2] at hq
    cases hq
  | _ => simp [status, hpc, Pc.status] at hk

theorem free_settles (h : Represents s a) (ho : a.owner = none) :
    ∃ t, Drives s t ∧ ((∃ k, status t k = .holding) ∨ ∀ k, status t k = .idle) := by
  by_cases hacq : ∃ k, status s k = .acquiring
  · obtain ⟨k, hk⟩ := hacq
    obtain ⟨t, ht, hhold⟩ := free_taken h ho hk
    exact ⟨t, ht, .inl ⟨k, congrArg Pc.status hhold⟩⟩
  · refine ⟨s, drives_refl s, .inr fun k => ?_⟩
    have hk : ¬ (status s k).Owns := fun hown => by
      have := (h.holds k).mp (holds_of_owns h hown)
      simp [ho] at this
    have hk' := not_exists.mp hacq k
    cases hst : status s k <;> simp [hst, Status.Owns] at hk hk' ⊢

theorem settles (h : Represents s a) :
    ∃ t, Drives s t ∧ ((∃ k, status t k = .holding) ∨ ∀ k, status t k = .idle) := by
  cases ho : a.owner with
  | none => exact free_settles h ho
  | some k =>
    obtain ⟨t, a', ⟨ms, hms⟩, hr, ⟨j, hj⟩ | hfree⟩ := owner_opens h ((h.holds k).mpr ho)
    · exact ⟨t, ⟨ms, hms⟩, .inl ⟨j, congrArg Pc.status hj⟩⟩
    · obtain ⟨u, ⟨ms', hms'⟩, hu⟩ := free_settles hr hfree
      exact ⟨u, ⟨ms ++ ms', (run_append _ _ _ _).mpr ⟨t, hms, hms'⟩⟩, hu⟩

theorem live (mode : C → Mode) : Live ((mutex : Lock C).guard mode) fun _ => True where
  init := trivial
  enter _ _ _ _ _ _ := trivial
  leave _ _ _ _ _ _ := trivial
  move _ _ _ _ _ _ := trivial
  enters s k _ _ hk := by
    have hst : status s k = .idle := (Status.place_outside _).mp hk
    have hpc : s.pc k = .idle := by
      unfold status at hst
      cases hpc : s.pc k <;> simp [hpc, Pc.status] at hst
      rfl
    exact ⟨_, if_pos hpc⟩
  leaves s k _ _ hk := by
    have hst : status s k = .holding := (Status.place_inside _).mp hk
    have hpc : s.pc k = .holding := by
      unfold status at hst
      cases hpc : s.pc k <;> simp [hpc, Pc.status] at hst
      rfl
    exact ⟨_, if_pos hpc⟩
  settles s hi _ _ := by
    obtain ⟨a, ha⟩ := hi
    obtain ⟨t, ⟨ms, hr⟩, ht⟩ := settles ha
    refine ⟨ms, t, hr, ht.imp ?_ ?_⟩
    · rintro ⟨k, hk⟩
      exact ⟨k, (Status.place_inside _).mpr hk⟩
    · exact fun hk k => (Status.place_outside _).mpr (hk k)

end Mutex

theorem LockKind.live (kind : LockKind) (mode : C → Mode) :
    ∃ Good, Live ((kind.lock : Lock C).guard mode) Good := by
  cases kind with
  | spinLock spinCount => exact ⟨_, SpinLock.live spinCount mode⟩
  | mutex => exact ⟨_, Mutex.live mode⟩

end LibCoro
