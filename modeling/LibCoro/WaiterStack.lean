import LibCoro.ConditionVariableStep
import Mathlib.Data.List.Count

namespace LibCoro.ConditionVariable

open Machine Chain

variable {C : Type} [DecidableEq C]

/-- The compare-exchange of `notifyOne` succeeds only with the current link of the head,
and fails only while the stack is not empty. -/
def SafeCas (s : State C) (spurious : Bool) : Pc C → Prop
  | .oneCas awaitings next =>
    if s.awaiters = some awaitings ∧ spurious = false then next = s.next awaitings
    else s.awaiters ≠ none
  | _ => True

instance (s : State C) (spurious : Bool) (p : Pc C) : Decidable (SafeCas s spurious p) := by
  cases p <;> unfold SafeCas <;> infer_instance

def OneSafe (s : State C) : Act C → Prop
  | .advance k spurious => SafeCas s spurious (s.pc k)
  | _ => True

instance (s : State C) (a : Act C) : Decidable (OneSafe s a) := by
  cases a <;> unfold OneSafe <;> infer_instance

def Detached (next : C → Option C) : Pc C → List C → Prop
  | .oneClear a, l => l = [a]
  | .resumeWaiters p, l => Linked next p l
  | .resume prev p, l => ∃ l', l = prev :: l' ∧ Linked next p l'
  | _, l => l = []

def Pc.Sound : Pc C → Prop
  | .nullDeref | .strayResume | .oneNext none => False
  | _ => True

/-- Every parked awaiter is on the stack or in the list of one notifier. -/
structure Inv (s : State C) (l : List C) (d : C → List C) : Prop where
  linked : Linked s.next s.awaiters l
  detached : ∀ k, Detached s.next (s.pc k) (d k)
  own : ∀ k w, s.pc k = .suspendCas w → s.next k = w
  parked : ∀ a, s.pc a = .parked ↔ a ∈ l ∨ ∃ k, a ∈ d k
  nodup : ∀ k, (d k).Nodup
  apart : ∀ k, ∀ a ∈ d k, a ∉ l
  disjoint : ∀ j k, j ≠ k → ∀ a ∈ d j, a ∉ d k
  sound : ∀ k, (s.pc k).Sound

omit [DecidableEq C] in
theorem inv_init : Inv (init : State C) [] (fun _ => []) := by
  constructor <;> simp [init, Detached, Pc.Sound]

theorem detached_update {next : C → Option C} {p : Pc C} {l : List C} {a : C} (q : Option C)
    (ha : a ∉ l) (h : Detached next p l) : Detached (Function.update next a q) p l := by
  cases p with
  | resumeWaiters p => exact (linked_update q ha).mpr h
  | resume prev p =>
    obtain ⟨l', rfl, hl⟩ := h
    exact ⟨l', rfl, (linked_update q fun hm => ha (List.mem_cons_of_mem prev hm)).mpr hl⟩
  | _ => exact h

omit [DecidableEq C] in
theorem not_mem_of_not_parked {s : State C} {l : List C} {d : C → List C} (hi : Inv s l d) {a : C}
    (ha : s.pc a ≠ .parked) : a ∉ l ∧ ∀ k, a ∉ d k :=
  ⟨fun h => ha ((hi.parked a).mpr (.inl h)), fun k h => ha ((hi.parked a).mpr (.inr ⟨k, h⟩))⟩

theorem inv_goto {s : State C} {l : List C} {d : C → List C} {k : C} {p : Pc C} (hi : Inv s l d)
    (hd : Detached s.next p (d k)) (hp : p = .parked ↔ s.pc k = .parked) (hs : p.Sound)
    (ho : ∀ w, p = .suspendCas w → s.next k = w) : Inv (s.goto k p) l d := by
  refine ⟨hi.linked, fun j => ?_, fun j w hj => ?_, fun a => ?_, hi.nodup, hi.apart, hi.disjoint,
    fun j => ?_⟩
  · by_cases hjk : j = k
    · subst hjk
      simpa [State.goto] using hd
    · simpa [State.goto, hjk] using hi.detached j
  · by_cases hjk : j = k
    · subst hjk
      exact ho w (by simpa [State.goto] using hj)
    · exact hi.own j w (by simpa [State.goto, hjk] using hj)
  · rw [← hi.parked a]
    by_cases hak : a = k
    · subst hak
      simpa [State.goto] using hp
    · simp [State.goto, hak]
  · by_cases hjk : j = k
    · subst hjk
      simpa [State.goto] using hs
    · simpa [State.goto, hjk] using hi.sound j

theorem inv_setNext {s : State C} {l : List C} {d : C → List C} {a : C} (q : Option C)
    (hi : Inv s l d) (ha : s.pc a ≠ .parked) (hc : ∀ w, s.pc a ≠ .suspendCas w) :
    Inv (s.setNext a q) l d := by
  obtain ⟨hl, hd⟩ := not_mem_of_not_parked hi ha
  refine ⟨(linked_update q hl).mpr hi.linked, fun k => detached_update q (hd k) (hi.detached k),
    fun k w hk => ?_, hi.parked, hi.nodup, hi.apart, hi.disjoint, hi.sound⟩
  have hka : k ≠ a := by
    rintro rfl
    exact hc w hk
  exact (Function.update_of_ne hka _ _).trans (hi.own k w hk)

omit [DecidableEq C] in
theorem Inv.parked_of_resume {s : State C} {l : List C} {d : C → List C} {k a : C} {w : Option C}
    (hi : Inv s l d) (hpc : s.pc k = .resume a w) : s.pc a = .parked := by
  have hdk := hi.detached k
  rw [hpc] at hdk
  obtain ⟨e, hd, -⟩ := hdk
  exact (hi.parked a).mpr (.inr ⟨k, by simp [hd]⟩)

theorem inv_push {s : State C} {l : List C} {d : C → List C} {k : C} {w : Option C} (hi : Inv s l d)
    (hpc : s.pc k = .suspendCas w) (hw : s.awaiters = w) :
    Inv ({ s with awaiters := some k }.goto k .parked) (k :: l) d := by
  obtain ⟨hkl, hkd⟩ := not_mem_of_not_parked hi (a := k) (by simp [hpc])
  have hdk : d k = [] := by simpa [hpc, Detached] using hi.detached k
  refine ⟨⟨rfl, ?_⟩, fun j => ?_, fun j w' hj => ?_, fun a => ?_, hi.nodup, fun j a ha => ?_,
    hi.disjoint, fun j => ?_⟩
  · have hnext : s.next k = s.awaiters := (hi.own k w hpc).trans hw.symm
    simpa [State.goto, hnext] using hi.linked
  · by_cases hjk : j = k
    · subst hjk
      simpa [State.goto, Detached] using hdk
    · simpa [State.goto, hjk] using hi.detached j
  · have hjk : j ≠ k := by
      rintro rfl
      simp [State.goto] at hj
    exact hi.own j w' (by simpa [State.goto, hjk] using hj)
  · by_cases hak : a = k
    · subst hak
      simp [State.goto]
    · simpa [State.goto, hak] using hi.parked a
  · rw [List.mem_cons, not_or]
    refine ⟨?_, hi.apart j a ha⟩
    rintro rfl
    exact hkd j ha
  · by_cases hjk : j = k
    · subst hjk
      simp [State.goto, Pc.Sound]
    · simpa [State.goto, hjk] using hi.sound j

/-- A notifier without a list takes a part of the stack off: `e` of `e ++ l`. -/
theorem inv_take {s : State C} {e l : List C} {d : C → List C} {k : C} {w : Option C} {p : Pc C}
    (hi : Inv s (e ++ l) d) (hdk : d k = []) (hk : s.pc k ≠ .parked) (hl : Linked s.next w l)
    (hp : Detached s.next p e) (hpp : p ≠ .parked) (hpc : ∀ w, p ≠ .suspendCas w) (hs : p.Sound) :
    Inv ({ s with awaiters := w }.goto k p) l (Function.update d k e) := by
  have hnodup : (e ++ l).Nodup := linked_nodup hi.linked
  have hmem : ∀ j a, a ∈ Function.update d k e j ↔ a ∈ d j ∨ j = k ∧ a ∈ e := by
    intro j a
    by_cases hjk : j = k
    · subst hjk
      simp [hdk]
    · simp [hjk]
  refine ⟨hl, fun j => ?_, fun j w' hj => ?_, fun a => ?_, fun j => ?_, fun j a ha => ?_,
    fun i j hij a ha => ?_, fun j => ?_⟩
  · by_cases hjk : j = k
    · subst hjk
      simpa [State.goto] using hp
    · simpa [State.goto, hjk] using hi.detached j
  · by_cases hjk : j = k
    · subst hjk
      exact absurd (by simpa [State.goto] using hj) (hpc w')
    · exact hi.own j w' (by simpa [State.goto, hjk] using hj)
  · have hgoto : (({ s with awaiters := w } : State C).goto k p).pc a = .parked ↔ s.pc a = .parked := by
      by_cases hak : a = k
      · subst hak
        simp [State.goto, hpp, hk]
      · simp [State.goto, hak]
    rw [hgoto, hi.parked a]
    simp only [hmem, List.mem_append]
    constructor
    · rintro ((ha | ha) | ⟨j, ha⟩)
      · exact .inr ⟨k, .inr ⟨rfl, ha⟩⟩
      · exact .inl ha
      · exact .inr ⟨j, .inl ha⟩
    · rintro (ha | ⟨j, ha | ⟨-, ha⟩⟩)
      · exact .inl (.inr ha)
      · exact .inr ⟨j, ha⟩
      · exact .inl (.inl ha)
  · by_cases hjk : j = k
    · subst hjk
      simpa using (List.nodup_append.mp hnodup).1
    · simpa [hjk] using hi.nodup j
  · obtain ha | ⟨-, ha⟩ := (hmem j a).mp ha
    · exact fun hal => hi.apart j a ha (List.mem_append_right e hal)
    · exact fun hal => (List.nodup_append.mp hnodup).2.2 a ha a hal rfl
  · rw [hmem, not_or]
    obtain ha | ⟨hik, ha⟩ := (hmem i a).mp ha
    · exact ⟨hi.disjoint i j hij a ha,
        fun hj => hi.apart i a ha (List.mem_append_left l hj.2)⟩
    · exact ⟨fun hj => hi.apart j a hj (List.mem_append_left l ha),
        fun hj => hij (hik.trans hj.1.symm)⟩
  · by_cases hjk : j = k
    · subst hjk
      simpa [State.goto] using hs
    · simpa [State.goto, hjk] using hi.sound j

theorem inv_resume {s : State C} {l e : List C} {d : C → List C} {k a : C} {w : Option C}
    (hi : Inv s l d) (hpc : s.pc k = .resume a w) (hd : d k = a :: e) (he : Linked s.next w e) :
    Inv ((s.goto a .idle).goto k (.resumeWaiters w)) l (Function.update d k e) := by
  have ha : s.pc a = .parked := (hi.parked a).mpr (.inr ⟨k, by simp [hd]⟩)
  have hak : a ≠ k := by
    rintro rfl
    rw [hpc] at ha
    cases ha
  have hnd := hi.nodup k
  rw [hd, List.nodup_cons] at hnd
  have hmem : ∀ j b, b ∈ Function.update d k e j ↔ b ∈ d j ∧ b ≠ a := by
    intro j b
    by_cases hjk : j = k
    · subst hjk
      rw [Function.update_self, hd, List.mem_cons]
      constructor
      · intro hb
        refine ⟨.inr hb, ?_⟩
        rintro rfl
        exact hnd.1 hb
      · rintro ⟨rfl | hb, hne⟩
        · exact absurd rfl hne
        · exact hb
    · rw [Function.update_of_ne hjk]
      refine ⟨fun hb => ⟨hb, ?_⟩, And.left⟩
      rintro rfl
      exact hi.disjoint k j (Ne.symm hjk) b (by simp [hd]) hb
  have hpcs : ∀ j, j ≠ k → j ≠ a →
      ((s.goto a .idle).goto k (.resumeWaiters w)).pc j = s.pc j := by
    intro j hjk hja
    simp [State.goto, hjk, hja]
  have hpcs' : ((s.goto a .idle).goto k (.resumeWaiters w)).pc k = .resumeWaiters w ∧
      ((s.goto a .idle).goto k (.resumeWaiters w)).pc a = .idle := by
    simp [State.goto, hak]
  refine ⟨hi.linked, fun j => ?_, fun j w' hj => ?_, fun b => ?_, fun j => ?_, fun j b hb => ?_,
    fun i j hij b hb => ?_, fun j => ?_⟩
  · by_cases hjk : j = k
    · subst hjk
      rw [hpcs'.1, Function.update_self]
      exact he
    · rw [Function.update_of_ne hjk]
      by_cases hja : j = a
      · subst hja
        have hdj := hi.detached j
        rw [ha] at hdj
        rw [hpcs'.2]
        exact hdj
      · rw [hpcs j hjk hja]
        exact hi.detached j
  · by_cases hjk : j = k
    · subst hjk
      rw [hpcs'.1] at hj
      cases hj
    · by_cases hja : j = a
      · subst hja
        rw [hpcs'.2] at hj
        cases hj
      · rw [hpcs j hjk hja] at hj
        exact hi.own j w' hj
  · simp only [hmem]
    by_cases hba : b = a
    · subst hba
      have hnl : b ∉ l := hi.apart k b (by simp [hd])
      simp [hpcs'.2, hnl]
    · by_cases hbk : b = k
      · subst hbk
        obtain ⟨hbl, hbd⟩ := not_mem_of_not_parked hi (a := b) (by simp [hpc])
        simp [hpcs'.1, hbl, hbd]
      · rw [hpcs b hbk hba, hi.parked b]
        simp [hba]
  · by_cases hjk : j = k
    · subst hjk
      rw [Function.update_self]
      exact hnd.2
    · rw [Function.update_of_ne hjk]
      exact hi.nodup j
  · exact hi.apart j b ((hmem j b).mp hb).1
  · rw [hmem]
    exact fun hbj => hi.disjoint i j hij b ((hmem i b).mp hb).1 hbj.1
  · by_cases hjk : j = k
    · subst hjk
      rw [hpcs'.1]
      exact trivial
    · by_cases hja : j = a
      · subst hja
        rw [hpcs'.2]
        exact trivial
      · rw [hpcs j hjk hja]
        exact hi.sound j

theorem inv_clear {s : State C} {l : List C} {d : C → List C} {k a : C} (hi : Inv s l d)
    (hpc : s.pc k = .oneClear a) :
    Inv ((s.setNext a none).goto k (.resumeWaiters (some a))) l d := by
  have hdk : d k = [a] := by
    have h := hi.detached k
    rwa [hpc] at h
  have hal : a ∉ l := hi.apart k a (by simp [hdk])
  have had : ∀ j, j ≠ k → a ∉ d j := fun j hj => hi.disjoint k j (Ne.symm hj) a (by simp [hdk])
  have ha : s.pc a = .parked := (hi.parked a).mpr (.inr ⟨k, by simp [hdk]⟩)
  refine ⟨(linked_update none hal).mpr hi.linked, fun j => ?_, fun j w hj => ?_, fun b => ?_, hi.nodup,
    hi.apart, hi.disjoint, fun j => ?_⟩
  · by_cases hjk : j = k
    · subst hjk
      simp [State.goto, State.setNext, Detached, hdk]
    · simpa [State.goto, State.setNext, hjk] using detached_update none (had j hjk) (hi.detached j)
  · have hjk : j ≠ k := by
      rintro rfl
      simp [State.goto] at hj
    have hj' : s.pc j = .suspendCas w := by simpa [State.goto, State.setNext, hjk] using hj
    have hja : j ≠ a := by
      rintro rfl
      rw [ha] at hj'
      cases hj'
    exact (Function.update_of_ne hja _ _).trans (hi.own j w hj')
  · rw [← hi.parked b]
    by_cases hbk : b = k
    · subst hbk
      simp [State.goto, hpc]
    · simp [State.goto, State.setNext, hbk]
  · by_cases hjk : j = k
    · subst hjk
      simp [State.goto, Pc.Sound]
    · simpa [State.goto, State.setNext, hjk] using hi.sound j

def Hands (s : State C) (k : C) (spurious : Bool) (l l' : List C) (d d' : C → List C) : Prop :=
  (∀ j, j ≠ k → d' j = d j) ∧
    match s.pc k with
    | .suspendCas w =>
      l' = (if s.awaiters = w ∧ spurious = false then k :: l else l) ∧ d' k = d k
    | .allCas w =>
      if s.awaiters = w ∧ spurious = false then l' = [] ∧ d' k = l else l' = l ∧ d' k = d k
    | .oneCas a _ =>
      if s.awaiters = some a ∧ spurious = false then l = a :: l' ∧ d' k = [a]
      else l' = l ∧ d' k = d k
    | .resume prev _ => l' = l ∧ d k = prev :: d' k
    | _ => l' = l ∧ d' k = d k

theorem inv_advance {s t : State C} {l : List C} {d : C → List C} {k : C} {spurious : Bool}
    (hi : Inv s l d) (hsafe : OneSafe s (.advance k spurious)) (h : Advances s k spurious t) :
    ∃ l' d', Inv t l' d' ∧ Hands s k spurious l l' d d' := by
  have hdk := hi.detached k
  have hself := hi.sound k
  have hne : ∀ (e : List C) (j : C), j ≠ k → Function.update d k e j = d j :=
    fun e j hj => Function.update_of_ne hj _ _
  have hsome : s.awaiters ≠ none → (Pc.oneNext s.awaiters).Sound := by
    intro hn
    obtain ⟨a, ha⟩ := Option.ne_none_iff_exists'.mp hn
    rw [ha]
    trivial
  unfold Hands
  cases h with
  | suspendLoad hpc | allLoad hpc | nobody hpc _ =>
    rw [hpc] at hdk ⊢
    exact ⟨l, d, inv_goto hi hdk (by simp [hpc]) trivial (by simp), fun _ _ => rfl, rfl, rfl⟩
  | suspendNext w hpc =>
    rw [hpc] at hdk ⊢
    refine ⟨l, d, inv_goto (inv_setNext w hi (by simp [hpc]) (by simp [hpc])) hdk ?_ trivial ?_,
      fun _ _ => rfl, rfl, rfl⟩
    · simp [State.setNext, hpc]
    · simp [State.setNext]
  | push w hpc hc =>
    rw [hpc]
    exact ⟨k :: l, d, inv_push hi hpc hc.1, fun _ _ => rfl, (if_pos hc).symm, rfl⟩
  | pushAgain w hpc hc =>
    rw [hpc] at hdk ⊢
    exact ⟨l, d, inv_goto hi hdk (by simp [hpc]) trivial (by simp), fun _ _ => rfl,
      (if_neg hc).symm, rfl⟩
  | takeAll w hpc hc =>
    rw [hpc] at hdk ⊢
    have hi' : Inv s (l ++ []) d := by rwa [List.append_nil]
    refine ⟨[], _, inv_take hi' hdk (by simp [hpc]) rfl ?_ (by simp) (by simp) trivial, hne _, ?_⟩
    · exact hc.1 ▸ hi.linked
    · simp [hc]
  | allAgain w hpc hc =>
    rw [hpc] at hdk ⊢
    refine ⟨l, d, inv_goto hi hdk (by simp [hpc]) trivial (by simp), fun _ _ => rfl, ?_⟩
    simp [hc]
  | oneLoad hpc hn =>
    rw [hpc] at hdk ⊢
    exact ⟨l, d, inv_goto hi hdk (by simp [hpc]) (hsome hn) (by simp), fun _ _ => rfl, rfl, rfl⟩
  | oneNext a hpc =>
    rw [hpc] at hdk ⊢
    exact ⟨l, d, inv_goto hi hdk (by simp [hpc]) trivial (by simp), fun _ _ => rfl, rfl, rfl⟩
  | nullDeref hpc =>
    rw [hpc] at hself
    exact hself.elim
  | takeOne a n hpc hc =>
    -- the head is still `a`, and its link is the rest of the stack
    simp only [OneSafe, hpc, SafeCas, if_pos hc] at hsafe
    rw [hpc] at hdk ⊢
    have hl := hi.linked
    rw [hc.1, linked_some] at hl
    obtain ⟨l', rfl, hl'⟩ := hl
    have hi' : Inv s ([a] ++ l') d := hi
    refine ⟨l', _, inv_take hi' hdk (by simp [hpc]) ?_ rfl (by simp) (by simp) trivial, hne _, ?_⟩
    · rw [hsafe]
      exact hl'
    · simp [hc]
  | oneAgain a n hpc hc =>
    simp only [OneSafe, hpc, SafeCas, if_neg hc] at hsafe
    rw [hpc] at hdk ⊢
    refine ⟨l, d, inv_goto hi hdk (by simp [hpc]) (hsome hsafe) (by simp), fun _ _ => rfl, ?_⟩
    simp [hc]
  | oneClear a hpc =>
    rw [hpc]
    exact ⟨l, d, inv_clear hi hpc, fun _ _ => rfl, rfl, rfl⟩
  | loop a hpc =>
    rw [hpc] at hdk ⊢
    obtain ⟨l', hl', hn⟩ := (linked_some a (d k)).mp hdk
    exact ⟨l, d, inv_goto hi ⟨l', hl', hn⟩ (by simp [hpc]) trivial (by simp), fun _ _ => rfl,
      rfl, rfl⟩
  | finish hpc =>
    rw [hpc] at hdk ⊢
    exact ⟨l, d, inv_goto hi ((linked_none _).mp hdk) (by simp [hpc]) trivial (by simp),
      fun _ _ => rfl, rfl, rfl⟩
  | resume a w hpc ha =>
    rw [hpc] at hdk ⊢
    obtain ⟨e, hd, he⟩ := hdk
    exact ⟨l, _, inv_resume hi hpc hd he, hne _, rfl, by simpa using hd⟩
  | strayResume a w hpc ha => exact absurd (hi.parked_of_resume hpc) ha

theorem inv_call {s t : State C} {l : List C} {d : C → List C} {a : Act C} (hi : Inv s l d)
    (ha : ∀ k spurious, a ≠ .advance k spurious) (h : step s a = some t) : Inv t l d := by
  have hstart : ∀ (k : C) (p : Pc C), s.pc k = .idle → p.Sound → p ≠ .parked →
      (∀ w, p ≠ .suspendCas w) → (∀ n, Detached n p (d k)) → Inv (s.goto k p) l d :=
    fun k p hk hp hpp hpc hd => inv_goto hi (hd s.next) (by simp [hk, hpp]) hp
      (fun w hw => absurd hw (hpc w))
  cases a with
  | suspend k =>
    obtain ⟨hk, rfl⟩ := (when_eq_some _ _ _).mp h
    have hdk : d k = [] := by simpa [hk, Detached] using hi.detached k
    have hn := inv_setNext (a := k) none hi (by simp [hk]) (by simp [hk])
    exact inv_goto hn hdk (by simp [State.setNext, hk]) trivial (by simp)
  | notifyAll k | notifyOne k =>
    obtain ⟨hk, rfl⟩ := (when_eq_some _ _ _).mp h
    have hdk : d k = [] := by simpa [hk, Detached] using hi.detached k
    exact hstart k _ hk trivial (by simp) (by simp) (fun _ => hdk)
  | advance k spurious => exact absurd rfl (ha k spurious)

theorem inv_step {s t : State C} {a : Act C} (hi : ∃ l d, Inv s l d) (hsafe : OneSafe s a)
    (h : step s a = some t) : ∃ l d, Inv t l d := by
  obtain ⟨l, d, hi⟩ := hi
  cases a with
  | advance k spurious =>
    obtain ⟨l', d', hi', -⟩ := inv_advance hi hsafe (advances_of_step h)
    exact ⟨l', d', hi'⟩
  | _ => exact ⟨l, d, inv_call hi (by simp) h⟩

def Balanced (es : List (Event C)) (s : State C) (a : C) : Prop :=
  es.count (.registered a) = es.count (.resumed a) + if s.pc a = .parked then 1 else 0

theorem balanced_goto {es : List (Event C)} {s t : State C} {k : C} {p : Pc C}
    (hb : ∀ a, Balanced es s a) (ht : t.pc = Function.update s.pc k p) (hk : s.pc k ≠ .parked)
    (hp : p ≠ .parked) (a : C) : Balanced es t a := by
  have hpc : t.pc a = .parked ↔ s.pc a = .parked := by
    rw [ht]
    by_cases hak : a = k
    · subst hak
      simp [hk, hp]
    · simp [hak]
  unfold Balanced
  simp only [hpc]
  exact hb a

theorem balanced_registered {es : List (Event C)} {s t : State C} {k : C}
    (hb : ∀ a, Balanced es s a) (ht : t.pc = Function.update s.pc k .parked) (hk : s.pc k ≠ .parked)
    (a : C) : Balanced (es ++ [.registered k]) t a := by
  have ha := hb a
  unfold Balanced at ha ⊢
  rw [ht]
  by_cases hak : a = k
  · subst hak
    simp [hk] at ha
    simp [List.count_append, ha]
  · simpa [List.count_append, hak, Ne.symm hak] using ha

theorem balanced_resumed {es : List (Event C)} {s t : State C} {k b : C} {p : Pc C}
    (hb : ∀ a, Balanced es s a) (ht : t.pc = Function.update (Function.update s.pc b .idle) k p)
    (hk : s.pc k ≠ .parked) (hp : p ≠ .parked) (hbp : s.pc b = .parked) (a : C) :
    Balanced (es ++ [.resumed b]) t a := by
  have ha := hb a
  have hbk : b ≠ k := by
    rintro rfl
    exact hk hbp
  unfold Balanced at ha ⊢
  rw [ht]
  by_cases hab : a = b
  · subst hab
    simp [hbp] at ha
    simp [List.count_append, hbk, ha]
  · by_cases hak : a = k
    · subst hak
      simpa [List.count_append, hk, hp, Ne.symm hab] using ha
    · simpa [List.count_append, hak, hab, Ne.symm hab] using ha

theorem balanced_step {es : List (Event C)} {s t : State C} {a : Act C} (hi : ∃ l d, Inv s l d)
    (hb : ∀ b, Balanced es s b) (h : step s a = some t) (b : C) :
    Balanced (es ++ (emit s a).toList) t b := by
  have hsilent : ∀ {k : C} {p : Pc C}, emit s a = none → t.pc = Function.update s.pc k p →
      s.pc k ≠ .parked → p ≠ .parked → Balanced (es ++ (emit s a).toList) t b := by
    intro k p he ht hk hp
    rw [he, Option.toList_none, List.append_nil]
    exact balanced_goto hb ht hk hp b
  cases moves_of_step h with
  | suspend k hk | notifyAll k hk | notifyOne k hk =>
    exact hsilent rfl rfl (by simp [hk]) (by simp)
  | advance k spurious h =>
    cases h with
    | push w hpc hc =>
      simp only [emit, hpc, if_pos hc, Option.toList_some]
      exact balanced_registered hb rfl (by simp [hpc]) b
    | pushAgain w hpc hc =>
      refine hsilent ?_ rfl (by simp [hpc]) (by simp)
      simp only [emit, hpc, if_neg hc]
    | resume c w hpc hc =>
      simp only [emit, hpc, Option.toList_some]
      exact balanced_resumed hb rfl (by simp [hpc]) (by simp) hc b
    | strayResume c w hpc hc =>
      obtain ⟨l, d, hi⟩ := hi
      exact absurd (hi.parked_of_resume hpc) hc
    | suspendLoad hpc | suspendNext w hpc | allLoad hpc | takeAll w hpc _ | allAgain w hpc _
    | nobody hpc _ | oneLoad hpc _ | oneNext c hpc | nullDeref hpc | takeOne c n hpc _
    | oneAgain c n hpc _ | oneClear c hpc | loop c hpc | finish hpc =>
      exact hsilent (by simp [emit, hpc]) rfl (by simp [hpc]) (by simp)

/-- No notifier follows a null awaiter or resumes a coroutine that does not wait; every
registered awaiter is on the stack or in the list of one notifier until it is resumed,
once for each registration. -/
theorem waiters_intact (as : List (Act C)) (s : State C) (h : run step init as = some s)
    (hs : Meets step OneSafe init as) :
    (∀ k, s.pc k ≠ .nullDeref ∧ s.pc k ≠ .strayResume) ∧ (∃ l d, Inv s l d) ∧
      ∀ a, Balanced (trace step emit init as) s a := by
  have hinit : (∃ l d, Inv (init : State C) l d) ∧ ∀ a, Balanced [] (init : State C) a :=
    ⟨⟨_, _, inv_init⟩, fun a => by simp [Balanced, init]⟩
  obtain ⟨hi, hb⟩ := trace_invariant_of_meets emit OneSafe
    (fun es s => (∃ l d, Inv s l d) ∧ ∀ a, Balanced es s a)
    (fun es s a t hr ha ht => ⟨inv_step hr.1 ha ht, balanced_step hr.1 hr.2 ht⟩) h hs hinit
  rw [List.nil_append] at hb
  refine ⟨fun k => ?_, hi, hb⟩
  obtain ⟨l, d, hi⟩ := hi
  have hk := hi.sound k
  constructor <;> intro hpc <;> rw [hpc] at hk <;> exact hk

theorem waiters_intact_two : ∃ s : State (Fin 3),
    run step init [.suspend 1, .advance 1 false, .advance 1 false, .advance 1 true, .advance 1 false,
      .advance 1 false, .notifyOne 2, .advance 2 false, .suspend 0, .advance 0 false, .advance 0 false,
      .advance 2 false, .advance 0 false, .advance 2 false, .advance 2 false, .advance 2 false,
      .advance 2 false, .advance 2 false, .advance 2 false] = some s ∧
    ((∀ k, s.pc k ≠ .nullDeref ∧ s.pc k ≠ .strayResume) ∧ (∃ l d, Inv s l d) ∧
      ∀ a, Balanced (trace step emit init [.suspend 1, .advance 1 false, .advance 1 false,
        .advance 1 true, .advance 1 false, .advance 1 false, .notifyOne 2, .advance 2 false, .suspend 0,
        .advance 0 false, .advance 0 false, .advance 2 false, .advance 0 false, .advance 2 false,
        .advance 2 false, .advance 2 false, .advance 2 false, .advance 2 false, .advance 2 false]) s a) :=
  ⟨_, rfl, waiters_intact _ _ rfl (by decide)⟩

/-- The stack becomes empty between the load and the compare-exchange of `notifyOne`; or
its head is taken, resumed and registered again there, and an awaiter that was resumed
long ago comes back as the head. -/
theorem waiters_broken :
    (∃ s : State (Fin 3), run step init [.suspend 0, .advance 0 false, .advance 0 false,
      .advance 0 false, .notifyOne 1, .advance 1 false, .advance 1 false, .notifyAll 2,
      .advance 2 false, .advance 2 false, .advance 1 false, .advance 1 false] = some s ∧
      s.pc 1 = .nullDeref) ∧
    ∃ s : State (Fin 4), run step init [.suspend 0, .advance 0 false, .advance 0 false,
      .advance 0 false, .suspend 1, .advance 1 false, .advance 1 false, .advance 1 false,
      .notifyOne 2, .advance 2 false, .advance 2 false, .notifyAll 3, .advance 3 false,
      .advance 3 false, .advance 3 false, .advance 3 false, .advance 3 false, .advance 3 false,
      .advance 3 false, .suspend 1, .advance 1 false, .advance 1 false, .advance 1 false,
      .advance 2 false, .notifyAll 3, .advance 3 false, .advance 3 false, .advance 3 false,
      .advance 3 false] = some s ∧ s.pc 3 = .strayResume :=
  ⟨⟨_, rfl, rfl⟩, ⟨_, rfl, rfl⟩⟩

end LibCoro.ConditionVariable
