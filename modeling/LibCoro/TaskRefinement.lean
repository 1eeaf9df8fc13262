import LibCoro.Task

namespace LibCoro.Task

open Machine Calls

variable {L X V R : Type} {j k c : Kind}

abbrev Heap (L X V : Type) : Type := Handle → Option (Frame L X V)

def slot : (k : Kind) → Result V k → Option V
  | .void, _ => none
  | .value, r => some r

theorem takeValue_slot (r : Result V k) : takeValue k (slot k r) = some r := by
  cases k <;> rfl

theorem returnValue_none (r : Result V k) : returnValue k none r = some (slot k r) := by
  cases k <;> rfl

/-- The frames `ps` below `h`, newest first: each waits for the one above it, whose `_caller` it
is, and goes on as the call stack says. -/
def Awaits (F : Heap L X V) : {k : Kind} → Stack L X V j k → Handle → Option Handle → List Handle → Prop
  | _, .nil, h, caller, ps => h = root ∧ caller = none ∧ ps = []
  | _, .cons rest callers, h, caller, ps =>
    ∃ p caller' ps', caller = some p ∧ ps = p :: ps' ∧ p < h ∧
      F p = some ⟨_, caller', none, .awaitTask none (some h) rest⟩ ∧
      Awaits F callers p caller' ps'

structure OnTop (F : Heap L X V) (callers : Stack L X V j k) (h : Handle) (caller : Option Handle)
    (ps : List Handle) (point : Point L X V k) : Prop where
  frame : F h = some ⟨k, caller, none, point⟩
  awaits : Awaits F callers h caller ps

/-- All frames that exist are among `hs`. -/
structure Live (F : Heap L X V) (next : Handle) (hs : List Handle) : Prop where
  bound : ∀ h ∈ hs, h < next
  only : ∀ h, F h ≠ none → h ∈ hs

theorem awaits_congr {F G : Heap L X V} {callers : Stack L X V j k} {h : Handle}
    {caller : Option Handle} {ps : List Handle} (ha : Awaits F callers h caller ps)
    (hg : ∀ p < h, G p = F p) : Awaits G callers h caller ps := by
  induction callers generalizing h caller ps with
  | nil => exact ha
  | cons rest callers ih =>
    obtain ⟨p, caller', ps', hc, hps, hp, hf, hr⟩ := ha
    refine ⟨p, caller', ps', hc, hps, hp, (hg p hp).trans hf, ih hr fun q hq => ?_⟩
    exact hg q (Nat.lt_trans hq hp)

section Heap

variable {F : Heap L X V} {next : Handle} {callers : Stack L X V j k} {h : Handle}
  {caller : Option Handle} {ps : List Handle} {point : Point L X V k}

theorem OnTop.put (ht : OnTop F callers h caller ps point) (point' : Point L X V k) :
    OnTop (Function.update F h (some ⟨k, caller, none, point'⟩)) callers h caller ps point' := by
  refine ⟨Function.update_self h _ F, awaits_congr ht.awaits fun p hp => ?_⟩
  exact Function.update_of_ne (Nat.ne_of_lt hp) _ F

theorem Live.put {hs : List Handle} (hl : Live F next hs) (hm : h ∈ hs) (f : Frame L X V) :
    Live (Function.update F h (some f)) next hs := by
  refine ⟨hl.bound, fun p hp => ?_⟩
  by_cases hph : p = h
  · exact hph ▸ hm
  · rw [Function.update_of_ne hph] at hp
    exact hl.only p hp

theorem Live.push {hs : List Handle} (hl : Live F next hs) (f : Frame L X V) :
    Live (Function.update F next (some f)) (next + 1) (next :: hs) := by
  refine ⟨fun p hp => ?_, fun p hp => ?_⟩
  · cases List.mem_cons.mp hp with
    | inl hp => exact hp ▸ Nat.lt_succ_self next
    | inr hp => exact Nat.lt_succ_of_lt (hl.bound p hp)
  · by_cases hpn : p = next
    · exact hpn ▸ List.mem_cons_self
    · rw [Function.update_of_ne hpn] at hp
      exact List.mem_cons_of_mem _ (hl.only p hp)

theorem Live.pop {hs : List Handle} (hl : Live F next (h :: hs)) :
    Live (Function.update F h none) next hs := by
  refine ⟨fun p hp => hl.bound p (List.mem_cons_of_mem _ hp), fun p hp => ?_⟩
  by_cases hph : p = h
  · rw [hph, Function.update_self] at hp
    exact absurd rfl hp
  · rw [Function.update_of_ne hph] at hp
    exact (List.mem_cons.mp (hl.only p hp)).resolve_left hph

theorem OnTop.push (ht : OnTop F callers h caller ps point) (hn : h < next) (child : Body L X V c)
    (rest : Result V c → Body L X V k) :
    OnTop (Function.update (Function.update F h
        (some ⟨k, caller, none, .awaitTask none (some next) rest⟩)) next
        (some ⟨c, some h, none, .code child⟩))
      (.cons rest callers) next (some h) (h :: ps) (.code child) := by
  refine ⟨Function.update_self next _ _, h, caller, ps, rfl, rfl, hn, ?_, ?_⟩
  · rw [Function.update_of_ne (Nat.ne_of_lt hn), Function.update_self]
  · refine awaits_congr ht.awaits fun p hp => ?_
    rw [Function.update_of_ne (Nat.ne_of_lt (Nat.lt_trans hp hn)),
      Function.update_of_ne (Nat.ne_of_lt hp)]

theorem OnTop.pop {top : Handle} (ht : OnTop F callers h caller ps point) (hn : h < top)
    (point' : Point L X V k) :
    OnTop (Function.update (Function.update F h (some ⟨k, caller, none, point'⟩)) top none)
      callers h caller ps point' := by
  have hp := ht.put point'
  refine ⟨?_, awaits_congr hp.awaits fun p hp => ?_⟩
  · rw [Function.update_of_ne (Nat.ne_of_lt hn)]
    exact hp.frame
  · exact Function.update_of_ne (Nat.ne_of_lt (Nat.lt_trans hp hn)) _ _

end Heap

def Represents (s : State L X V R) : Config L X V j → Prop
  | .entry b =>
    s.started = false ∧ s.stored = [] ∧ (∃ r, s.control = .resumer r) ∧
      s.frames root = some (.fresh b) ∧ Live s.frames s.next [root]
  | .running callers b =>
    s.started = true ∧ s.stored = [] ∧ ∃ h r caller ps, s.control = .coroutine h r ∧
      OnTop s.frames callers h caller ps (.code b) ∧ Live s.frames s.next (h :: ps)
  | .blocked callers x rest =>
    s.started = true ∧ ∃ h r caller ps, s.stored = [h] ∧ s.control = .resumer r ∧
      OnTop s.frames callers h caller ps (.external x rest) ∧ Live s.frames s.next (h :: ps)
  | .unblocked callers x rest =>
    s.started = true ∧ s.stored = [] ∧ ∃ h r caller ps, s.control = .coroutine h r ∧
      OnTop s.frames callers h caller ps (.external x rest) ∧ Live s.frames s.next (h :: ps)
  | .returning (c := c) callers rest result =>
    s.started = true ∧ s.stored = [] ∧ ∃ h p r caller ps, s.control = .coroutine p r ∧ p < h ∧
      s.frames h = some ⟨c, some p, slot c result, .finalSuspend⟩ ∧
      OnTop s.frames callers p caller ps (.awaitTask none (some h) rest) ∧
      Live s.frames s.next (h :: p :: ps)
  | .returned result =>
    s.started = true ∧ s.stored = [] ∧ (∃ r, s.control = .resumer r) ∧
      s.frames root = some ⟨j, none, slot j result, .finalSuspend⟩ ∧
      Live s.frames s.next [root]

def Act.answer : Act V R → Option V
  | .advance v => some v
  | _ => none

theorem represents_init (body : Body L X V j) (r : R) : Represents (init body r) (.entry body) := by
  have hroot : (init body r).frames root = some (.fresh body) := by
    simp only [init, Function.update_self]
  refine ⟨rfl, rfl, ⟨r, rfl⟩, hroot, fun h hh => ?_, fun h hh => ?_⟩
  · rw [List.mem_singleton.mp hh]
    exact Nat.zero_lt_one
  · by_contra hr
    have h0 : h ≠ root := fun h0 => hr (List.mem_singleton.mpr h0)
    simp only [init, Function.update_of_ne h0, ne_eq, not_true_eq_false] at hh

theorem step_resumer {s t : State L X V R} {a : Act V R} {r : R} (hc : s.control = .resumer r)
    (ht : step s a = some t) :
    (∃ r', a = .start r' ∧ s.started = false ∧
      t = { s with started := true, control := .coroutine root r' }) ∨
    ∃ r' h, a = .resume r' h ∧ h ∈ s.stored ∧
      t = { s with stored := s.stored.erase h, control := .coroutine h r' } := by
  cases a with
  | start r' =>
    simp only [step, hc, when_eq_some] at ht
    exact .inl ⟨r', rfl, ht.1, ht.2.symm⟩
  | resume r' h =>
    simp only [step, hc, when_eq_some] at ht
    exact .inr ⟨r', h, rfl, ht.1, ht.2.symm⟩
  | advance v => simp [step, hc] at ht

theorem step_coroutine {s t : State L X V R} {a : Act V R} {h : Handle} {r : R}
    (hc : s.control = .coroutine h r) (ht : step s a = some t) :
    ∃ v, a = .advance v ∧ t = advance s h r v := by
  cases a with
  | start r' => simp [step, hc] at ht
  | resume r' h => simp [step, hc] at ht
  | advance v =>
    simp only [step, hc, Option.some.injEq] at ht
    exact ⟨v, rfl, ht.symm⟩

theorem simulates_resumer {s t : State L X V R} {n : Config L X V j} {a : Act V R} {r : R}
    (hn : Represents s n) (hc : s.control = .resumer r) (ht : step s a = some t) :
    ∃ n', Calls.step n a.answer = some n' ∧ Represents t n' ∧
      emit s a = Calls.emit n a.answer := by
  cases n with
  | entry b =>
    obtain ⟨_, hst, _, hf, hl⟩ := hn
    obtain ⟨r', rfl, _, rfl⟩ | ⟨r', h, _, hm, _⟩ := step_resumer hc ht
    · exact ⟨_, rfl, ⟨rfl, hst, root, r', none, [], rfl, ⟨hf, rfl, rfl, rfl⟩, hl⟩, rfl⟩
    · simp [hst] at hm
  | blocked callers x rest =>
    obtain ⟨hs, h, _, caller, ps, hst, _, hf, hl⟩ := hn
    obtain ⟨_, _, hns, _⟩ | ⟨r', h', rfl, hm, rfl⟩ := step_resumer hc ht
    · simp [hs] at hns
    · obtain rfl : h' = h := by simpa [hst] using hm
      refine ⟨_, rfl, ⟨hs, ?_, h', r', caller, ps, rfl, hf, hl⟩, rfl⟩
      simp [hst]
  | returned result =>
    obtain ⟨hs, hst, _⟩ := hn
    obtain ⟨_, _, hns, _⟩ | ⟨r', h, _, hm, _⟩ := step_resumer hc ht
    · simp [hs] at hns
    · simp [hst] at hm
  | running callers b =>
    obtain ⟨_, _, h, r', caller, ps, hc', _⟩ := hn
    simp [hc] at hc'
  | unblocked callers x rest =>
    obtain ⟨_, _, h, r', caller, ps, hc', _⟩ := hn
    simp [hc] at hc'
  | returning callers rest result =>
    obtain ⟨_, _, h, p, r', caller, ps, hc', _⟩ := hn
    simp [hc] at hc'

/-- `co_return` of the coroutine on top hands control to the frame below, or to the resumer. -/
theorem represents_coReturn {s : State L X V R} {callers : Stack L X V j k} {h : Handle} {r : R}
    {caller : Option Handle} {ps : List Handle} {result : Result V k} (hs : s.started = true)
    (hst : s.stored = []) (hf : OnTop s.frames callers h caller ps (.code (.coReturn result)))
    (hl : Live s.frames s.next (h :: ps)) :
    Represents (coReturn s h r caller none result) (callers.ret result) := by
  have hself := Function.update_self h (some ⟨k, caller, slot k result, .finalSuspend⟩) s.frames
  have hl' := hl.put List.mem_cons_self ⟨k, caller, slot k result, .finalSuspend⟩
  rw [coReturn, returnValue_none]
  cases callers with
  | nil =>
    obtain ⟨rfl, rfl, rfl⟩ := hf.awaits
    exact ⟨hs, hst, ⟨r, rfl⟩, hself, hl'⟩
  | cons rest callers =>
    obtain ⟨p, caller', ps', rfl, rfl, hp, hfp, hr⟩ := hf.awaits
    refine ⟨hs, hst, h, p, r, caller', ps', rfl, hp, hself, ⟨?_, ?_⟩, hl'⟩
    · exact (Function.update_of_ne (Nat.ne_of_lt hp) _ _).trans hfp
    · exact awaits_congr hr fun q hq =>
        Function.update_of_ne (Nat.ne_of_lt (Nat.lt_trans hq hp)) _ _

theorem represents_coAwaitTask {s : State L X V R} {callers : Stack L X V j k} {h : Handle} {r : R}
    {caller : Option Handle} {ps : List Handle} {child : Body L X V c}
    {rest : Result V c → Body L X V k} (hs : s.started = true) (hst : s.stored = [])
    (hf : OnTop s.frames callers h caller ps (.code (.coAwaitTask child rest)))
    (hl : Live s.frames s.next (h :: ps)) :
    Represents (coAwaitTask s h r caller none child rest)
      (.running (.cons rest callers) child) := by
  have hn : h < s.next := hl.bound h List.mem_cons_self
  have hh := Nat.ne_of_lt hn
  set waiting : Frame L X V := ⟨k, caller, none, .awaitTask none (some s.next) rest⟩
  have hF : Function.update (Function.update (Function.update s.frames s.next
      (some (.fresh child))) h (some waiting)) s.next (some ⟨c, some h, none, .code child⟩) =
      Function.update (Function.update s.frames h (some waiting)) s.next
        (some ⟨c, some h, none, .code child⟩) := by
    rw [Function.update_comm hh.symm, Function.update_idem]
  have ht : coAwaitTask s h r caller none child rest =
      ⟨Function.update (Function.update s.frames h (some waiting)) s.next
        (some ⟨c, some h, none, .code child⟩), s.next + 1, s.stored, s.started,
        .coroutine s.next r⟩ := by
    rw [← hF]
    simp [coAwaitTask, operatorCoAwait, awaitSuspend, State.put, Function.update_of_ne hh.symm,
      Frame.fresh, waiting]
  rw [ht]
  exact ⟨hs, hst, s.next, r, some h, h :: ps, rfl, hf.push hn child rest,
    (hl.put List.mem_cons_self waiting).push _⟩

theorem represents_awaitResume {s : State L X V R} {callers : Stack L X V j k} {h p : Handle}
    {r : R} {caller : Option Handle} {ps : List Handle} {rest : Result V c → Body L X V k}
    {result : Result V c} (hs : s.started = true) (hst : s.stored = [])
    (hc : s.control = .coroutine p r) (hp : p < h)
    (hf : s.frames h = some ⟨c, some p, slot c result, .finalSuspend⟩)
    (ht : OnTop s.frames callers p caller ps (.awaitTask none (some h) rest))
    (hl : Live s.frames s.next (h :: p :: ps)) :
    Represents (awaitResume s p caller none none (some h) rest)
      (.running callers (rest result)) := by
  have hfp : Function.update s.frames p (some ⟨k, caller, none, .code (rest result)⟩) h =
      some ⟨c, some p, slot c result, .finalSuspend⟩ :=
    (Function.update_of_ne (Nat.ne_of_gt hp) _ _).trans hf
  have he : awaitResume s p caller none none (some h) rest =
      { s with frames := Function.update (Function.update s.frames p
        (some ⟨k, caller, none, .code (rest result)⟩)) h none } := by
    simp [awaitResume, hf, takeValue_slot, State.put, State.destroy, State.dropTask, hfp]
  rw [he]
  refine ⟨hs, hst, p, r, caller, ps, hc, ht.pop hp _, ?_⟩
  exact (hl.put (List.mem_cons_of_mem _ List.mem_cons_self) _).pop

inductive Inside (s : State L X V R) (h : Handle) : Config L X V j → Prop where
  | running {k : Kind} {callers : Stack L X V j k} {b : Body L X V k} {caller : Option Handle}
      {ps : List Handle} (top : OnTop s.frames callers h caller ps (.code b))
      (live : Live s.frames s.next (h :: ps)) : Inside s h (.running callers b)
  | unblocked {k : Kind} {callers : Stack L X V j k} {x : X} {rest : V → Body L X V k}
      {caller : Option Handle} {ps : List Handle}
      (top : OnTop s.frames callers h caller ps (.external x rest))
      (live : Live s.frames s.next (h :: ps)) : Inside s h (.unblocked callers x rest)
  | returning {k c : Kind} {callers : Stack L X V j k} {rest : Result V c → Body L X V k}
      {result : Result V c} {caller : Option Handle} {ps : List Handle} {child : Handle}
      (below : h < child)
      (finished : s.frames child = some ⟨c, some h, slot c result, .finalSuspend⟩)
      (top : OnTop s.frames callers h caller ps (.awaitTask none (some child) rest))
      (live : Live s.frames s.next (child :: h :: ps)) :
      Inside s h (.returning callers rest result)

theorem Represents.inside {s : State L X V R} {n : Config L X V j} {h : Handle} {r : R}
    (hn : Represents s n) (hc : s.control = .coroutine h r) :
    s.started = true ∧ s.stored = [] ∧ Inside s h n := by
  cases n with
  | entry b =>
    obtain ⟨_, _, ⟨r', hc'⟩, _⟩ := hn
    simp [hc] at hc'
  | blocked callers x rest =>
    obtain ⟨_, _, _, _, _, _, hc', _⟩ := hn
    simp [hc] at hc'
  | returned result =>
    obtain ⟨_, _, ⟨r', hc'⟩, _⟩ := hn
    simp [hc] at hc'
  | running callers b =>
    obtain ⟨hs, hst, h', r', caller, ps, hc', hf, hl⟩ := hn
    obtain ⟨rfl, rfl⟩ := Control.coroutine.inj (hc.symm.trans hc')
    exact ⟨hs, hst, .running hf hl⟩
  | unblocked callers x rest =>
    obtain ⟨hs, hst, h', r', caller, ps, hc', hf, hl⟩ := hn
    obtain ⟨rfl, rfl⟩ := Control.coroutine.inj (hc.symm.trans hc')
    exact ⟨hs, hst, .unblocked hf hl⟩
  | returning callers rest result =>
    obtain ⟨hs, hst, child, p, r', caller, ps, hc', hp, hfc, hf, hl⟩ := hn
    obtain ⟨rfl, rfl⟩ := Control.coroutine.inj (hc.symm.trans hc')
    exact ⟨hs, hst, .returning hp hfc hf hl⟩

theorem simulates_coroutine {s : State L X V R} {n : Config L X V j} {h : Handle} {r : R}
    (hn : Represents s n) (hc : s.control = .coroutine h r) (v : V) :
    ∃ n', Calls.step n (some v) = some n' ∧ Represents (advance s h r v) n' ∧
      emit s (.advance v) = Calls.emit n (some v) := by
  obtain ⟨hs, hst, hin⟩ := hn.inside hc
  cases hin with
  | @running k callers b caller ps hf hl =>
    cases b with
    | coReturn result =>
      refine ⟨_, rfl, ?_, by simp [emit, Calls.emit, hc, hf.frame]⟩
      simpa only [advance, hf.frame] using represents_coReturn hs hst hf hl
    | localStep l rest =>
      refine ⟨_, rfl, ?_, by simp [emit, Calls.emit, hc, hf.frame]⟩
      simp only [advance, hf.frame]
      exact ⟨hs, hst, h, r, caller, ps, hc, hf.put _, hl.put List.mem_cons_self _⟩
    | coAwaitTask child rest =>
      refine ⟨_, rfl, ?_, by simp [emit, Calls.emit, hc, hf.frame]⟩
      simpa only [advance, hf.frame] using represents_coAwaitTask hs hst hf hl
    | coAwait x rest =>
      refine ⟨_, rfl, ?_, by simp [emit, Calls.emit, hc, hf.frame]⟩
      simp only [advance, hf.frame]
      exact ⟨hs, h, r, caller, ps, by simp [hst], rfl, hf.put _, hl.put List.mem_cons_self _⟩
  | @unblocked k callers x rest caller ps hf hl =>
    refine ⟨_, rfl, ?_, by simp [emit, Calls.emit, hc, hf.frame]⟩
    simp only [advance, hf.frame]
    exact ⟨hs, hst, h, r, caller, ps, hc, hf.put _, hl.put List.mem_cons_self _⟩
  | returning hp hfc hf hl =>
    refine ⟨_, rfl, ?_, by simp [emit, Calls.emit, hc, hf.frame]⟩
    simpa only [advance, hf.frame] using represents_awaitResume hs hst hc hp hfc hf hl

/-- The coroutines perform the steps of the nested call and nothing else. -/
theorem simulates {s t : State L X V R} {n : Config L X V j} {a : Act V R} (hn : Represents s n)
    (ht : step s a = some t) :
    ∃ n', Calls.step n a.answer = some n' ∧ Represents t n' ∧
      emit s a = Calls.emit n a.answer := by
  cases hc : s.control with
  | resumer r => exact simulates_resumer hn hc ht
  | coroutine h r =>
    obtain ⟨v, rfl, rfl⟩ := step_coroutine hc ht
    exact simulates_coroutine hn hc v
  | failed e => cases a <;> simp [step, hc] at ht

end LibCoro.Task
