import LibCoro.Launch

namespace LibCoro.Launch

open Machine Calls Outcome
open LibCoro.Task (Handle root)

variable {L X V R : Type}

def Pc.left : Pc → Nat
  | .start => 3
  | .started => 3
  | .pushBack => 2
  | .pushing => 1
  | .destroy => 2
  | .kept => 0
  | .destroyed => 1

def Final.left : Final R → Nat
  | .before | .awaitSuspend _ => 1
  | .after => 0

def State.left (s : State L X V R) : Nat := s.pc.left + s.final.left + 2 * s.waiting + s.inside

/-- How the task object and what its owner does stand to the nested call of the body. -/
inductive Owned (s : State L X V R) : Config L X V .void → Prop
  | unstarted (b : Body L X V .void) (hpc : s.pc = .start) (hn : Task.Represents s.task (.entry b))
      (hf : s.final = .before) : Owned s (.entry b)
  | held (n : Config L X V .void) (hpc : s.pc ≠ .start) (hlive : s.pc ≠ .destroyed)
      (hb : ∀ b, n ≠ .entry b) (hn : Task.Represents s.task n)
      (hd : s.pc = .destroy → s.path = .serviceThreadRun → s.task.done = true)
      (hf : s.final = .before ↔ s.task.done = false) : Owned s n
  | freed (hpc : s.pc = .destroyed) (hst : s.task.stored = [])
      (hc : ∃ r, s.task.control = .resumer r) (hf : s.final = .after) : Owned s (.returned ())

section Task

variable {S : Type} {s t : Task.State L X V S} {n : Config L X V .void} {a : Task.Act V S}

theorem onTop_root {j k : Kind} {F : Task.Heap L X V} {callers : Stack L X V j k} {h : Handle}
    {caller : Option Handle} {ps : List Handle} {point : Task.Point L X V k}
    (ht : Task.OnTop F callers h caller ps point) : F root ≠ none := by
  induction callers generalizing h caller ps with
  | nil =>
    obtain ⟨rfl, -, -⟩ := ht.awaits
    rw [ht.frame]
    exact Option.some_ne_none _
  | cons rest callers ih =>
    obtain ⟨p, caller', ps', -, -, -, hf, hr⟩ := ht.awaits
    exact ih ⟨hf, hr⟩

theorem represents_root (hn : Task.Represents s n) : s.frames root ≠ none := by
  cases n with
  | entry b =>
    obtain ⟨-, -, -, hf, -⟩ := hn
    simp [hf]
  | running callers b =>
    obtain ⟨-, -, _, _, _, _, -, ht, -⟩ := hn
    exact onTop_root ht
  | blocked callers x rest =>
    obtain ⟨-, _, _, _, _, -, -, ht, -⟩ := hn
    exact onTop_root ht
  | unblocked callers x rest =>
    obtain ⟨-, -, _, _, _, _, -, ht, -⟩ := hn
    exact onTop_root ht
  | returning callers rest result =>
    obtain ⟨-, -, _, _, _, _, _, -, -, -, ht, -⟩ := hn
    exact onTop_root ht
  | returned result =>
    obtain ⟨-, -, -, hf, -⟩ := hn
    simp [hf]

theorem represents_handles (hn : Task.Represents s n) : ∀ h ∈ s.stored, s.frames h ≠ none := by
  intro h hm
  cases n with
  | entry b => simp [hn.2.1] at hm
  | running callers b => simp [hn.2.1] at hm
  | blocked callers x rest =>
    obtain ⟨-, h', _, _, _, hst, -, ht, -⟩ := hn
    obtain rfl : h = h' := by simpa [hst] using hm
    simp [ht.frame]
  | unblocked callers x rest => simp [hn.2.1] at hm
  | returning callers rest result => simp [hn.2.1] at hm
  | returned result => simp [hn.2.1] at hm

theorem not_entry_of_step {m m' : Config L X V .void} {v : Option V} (h : Calls.step m v = some m')
    (b : Body L X V .void) : m' ≠ .entry b := by
  rintro rfl
  cases m with
  | entry b => cases v <;> cases h
  | running callers b' =>
    cases v with
    | none => cases b' <;> cases h
    | some v =>
      cases b' with
      | coReturn r => cases callers <;> cases h
      | localStep l rest => cases h
      | coAwaitTask child rest => cases h
      | coAwait x rest => cases h
  | blocked callers x rest => cases v <;> cases h
  | unblocked callers x rest => cases v <;> cases h
  | returning callers rest r => cases v <;> cases h
  | returned r => cases v <;> cases h

theorem emit_none (m : Config L X V .void) : Calls.emit m none = none := by
  cases m with
  | running callers b => cases b <;> rfl
  | entry b => rfl
  | blocked callers x rest => rfl
  | unblocked callers x rest => rfl
  | returning callers rest r => rfl
  | returned r => rfl

theorem start_of_entry {b : Body L X V .void} (hn : Task.Represents s (.entry b))
    (h : Task.step s a = some t) : ∃ r, a = .start r := by
  obtain ⟨-, hst, ⟨r, hc⟩, -⟩ := hn
  obtain ⟨r', rfl, -⟩ | ⟨r', h', -, hm, -⟩ := Task.step_resumer hc h
  · exact ⟨r', rfl⟩
  · simp [hst] at hm

theorem not_step_of_done (hn : Task.Represents s n) (hd : s.done = true) :
    Task.step s a = none := by
  obtain ⟨r, rfl⟩ := hn.returned_of_finished ((Task.done_iff s).mp hd)
  by_contra hne
  obtain ⟨t, ht⟩ := Option.ne_none_iff_exists'.mp hne
  obtain ⟨n', hstep, -⟩ := Task.simulates hn ht
  revert hstep
  cases a.answer <;> simp [Calls.step]

end Task

section Owned

variable {s t : State L X V R} {n : Config L X V .void} {a : Act V R}

theorem Owned.congr (ho : Owned s n) (hpc : t.pc = s.pc) (hpath : t.path = s.path)
    (htask : t.task = s.task) (hfinal : t.final = s.final) : Owned t n := by
  cases ho with
  | unstarted b hs hn hf => exact .unstarted b (hpc ▸ hs) (htask ▸ hn) (hfinal ▸ hf)
  | held n hs hlive hb hn hd hf =>
    refine .held n (hpc ▸ hs) (hpc ▸ hlive) hb (htask ▸ hn) ?_ ?_
    · rw [hpc, hpath, htask]
      exact hd
    · rw [hfinal, htask]
      exact hf
  | freed hs hst hc hf => exact .freed (hpc ▸ hs) (htask ▸ hst) (htask ▸ hc) (hfinal ▸ hf)

theorem finalOf_eq_before {task : Task.State L X V (Option R)} {h : Handle} {r : Option R}
    (hf : s.final = .before ↔ s.task.done = false) (hc : s.task.control = .coroutine h r)
    (hd : s.task.done = false) : s.finalOf task = .before ↔ task.done = false := by
  simp only [State.finalOf, hc, hd]
  cases htd : task.done with
  | true => simp
  | false => simpa using hf.mpr hd

theorem left_finalOf (s : State L X V R) (task : Task.State L X V (Option R))
    (hf : s.final = .before ↔ s.task.done = false) : (s.finalOf task).left = s.final.left := by
  unfold State.finalOf
  split
  · split_ifs with hd
    · rw [hf.mpr (by simpa using hd.2)]
      rfl
    · rfl
  · rfl

theorem owned_resume (ho : Owned s n) {r : R} {h : Handle} {task : Task.State L X V (Option R)}
    (hstep : Task.step s.task (.resume (some r) h) = some task) :
    ∃ n', Calls.step n none = some n' ∧ Owned { s with task := task } n' := by
  cases ho with
  | unstarted body hpc hn hf =>
    obtain ⟨r', hr⟩ := start_of_entry hn hstep
    cases hr
  | held n hpc hlive hne hn hd hf =>
    obtain ⟨n', hn', hr, -⟩ := Task.simulates hn hstep
    have hno : s.task.done = false := by
      rw [← Bool.not_eq_true]
      exact fun hdone => by simp [not_step_of_done hn hdone] at hstep
    have hdone : task.done = s.task.done := by
      cases hc : s.task.control with
      | resumer r' =>
        simp only [Task.step, hc, when_eq_some] at hstep
        obtain ⟨-, rfl⟩ := hstep
        rfl
      | coroutine h' r' => simp [Task.step, hc] at hstep
      | failed e => simp [Task.step, hc] at hstep
    refine ⟨n', hn', .held n' hpc hlive (not_entry_of_step hn') hr (fun hpc' hpath => ?_) ?_⟩
    · simp [hno] at hd
      exact absurd hpath (hd hpc')
    · change s.final = .before ↔ task.done = false
      rw [hdone]
      exact hf
  | freed hpc hst hc hf =>
    obtain ⟨r', hc⟩ := hc
    obtain ⟨r'', hr, -⟩ | ⟨r'', h', -, hm, -⟩ := Task.step_resumer hc hstep
    · cases hr
    · simp [hst] at hm

theorem owned_advance (ho : Owned s n) {v : V} {task : Task.State L X V (Option R)}
    (hstep : Task.step s.task (.advance v) = some task) :
    ∃ n', Calls.step n (some v) = some n' ∧
      Owned { s with task := task, final := s.finalOf task } n' ∧
      (s.finalOf task).left = s.final.left ∧ Task.emit s.task (.advance v) = Calls.emit n (some v) := by
  cases ho with
  | unstarted body hpc hn hf =>
    obtain ⟨r, hr⟩ := start_of_entry hn hstep
    cases hr
  | held n hpc hlive hne hn hd hf =>
    obtain ⟨n', hn', hr, hemit⟩ := Task.simulates hn hstep
    have hno : s.task.done = false := by
      rw [← Bool.not_eq_true]
      exact fun hdone => by simp [not_step_of_done hn hdone] at hstep
    refine ⟨n', hn', ?_, left_finalOf s task hf, hemit⟩
    refine .held n' hpc hlive (not_entry_of_step hn') hr (fun hpc' hpath => ?_) ?_
    · simp [hno] at hd
      exact absurd hpath (hd hpc')
    · cases hc : s.task.control with
      | resumer r => simp [Task.step, hc] at hstep
      | failed e => simp [Task.step, hc] at hstep
      | coroutine h r => exact finalOf_eq_before hf hc hno
  | freed hpc hst hc hf =>
    obtain ⟨r', hc⟩ := hc
    obtain ⟨r'', hr, -⟩ | ⟨r'', h', hr, -, -⟩ := Task.step_resumer hc hstep <;> cases hr

theorem owned_awaitSuspend (ho : Owned s n) (h : step s (.awaitSuspend : Act V R) = some t) :
    Owned t n ∧ t.left + 1 = s.left := by
  cases hfs : s.final with
  | before => simp [step, hfs] at h
  | after => simp [step, hfs] at h
  | awaitSuspend r =>
    cases ho with
    | unstarted b hpc hn hf => simp [hfs] at hf
    | freed hpc hst hc hf => simp [hfs] at hf
    | held n hpc hlive hne hn hd hf =>
      obtain ⟨f, hroot⟩ := Option.ne_none_iff_exists'.mp (represents_root hn)
      simp only [step, hfs, hroot, Option.some.injEq] at h
      subst h
      refine ⟨.held n hpc hlive hne hn hd ?_, ?_⟩
      · simpa [hfs] using hf
      · simp only [State.left, hfs, Final.left]
        omega

theorem dropTask_root {task : Task.State L X V (Option R)} (h : task.frames root ≠ none) :
    task.dropTask (some root) = { task with frames := Function.update task.frames root none } := by
  obtain ⟨f, hf⟩ := Option.ne_none_iff_exists'.mp h
  simp [Task.State.dropTask, Task.State.destroy, hf]

theorem owned_launcher (ho : Owned s n) (hok : DropsFinished s (.launcher : Act V R))
    (h : launcher s = some t) :
    (t.left = s.left ∧ ∃ n', Calls.step n none = some n' ∧ Owned t n') ∨
      t.left + 1 = s.left ∧ Owned t n := by
  cases ho with
  | unstarted body hpc hn hf =>
    simp only [launcher, hpc] at h
    obtain ⟨task, hstep, rfl⟩ := Option.map_eq_some_iff.mp h
    obtain ⟨n', hn', hr, -⟩ := Task.simulates hn hstep
    have hnot : task.done = false := by
      obtain ⟨-, -, ⟨r, hc⟩, hroot, -⟩ := hn
      simp only [Task.step, hc, when_eq_some] at hstep
      obtain ⟨-, rfl⟩ := hstep
      simp [Task.State.done, hroot, Task.Frame.fresh]
    refine Or.inl ⟨by simp [State.left, hpc, Pc.left], n', hn', ?_⟩
    exact .held n' (by simp) (by simp) (not_entry_of_step hn') hr (by simp) (by simp [hf, hnot])
  | freed hpc hst hc hf => simp [launcher, hpc] at h
  | held n hpc hlive hne hn hd hf =>
    refine Or.inr ?_
    cases hpcs : s.pc with
    | start => exact absurd hpcs hpc
    | started =>
      simp only [launcher, hpcs] at h
      split at h
      · cases hpath : s.path with
        | launchTaskOnFire =>
          simp only [hpath, Option.some.injEq] at h
          subst h
          refine ⟨?_, .held n (by simp) (by simp) hne hn (by simp) hf⟩
          simp only [State.left, hpcs, Pc.left]
          omega
        | serviceThreadRun =>
          simp only [hpath, Option.some.injEq] at h
          subst h
          have hleft : (if s.task.done = true then Pc.destroy else .pushBack).left = 2 := by
            split_ifs <;> rfl
          refine ⟨?_, .held n ?_ ?_ hne hn (fun hpc' _ => ?_) hf⟩
          · simp only [State.left, hpcs, hleft]
            change _ = 3 + _ + _ + _
            omega
          · split_ifs <;> simp
          · split_ifs <;> simp
          · by_contra hno
            simp [hno] at hpc'
      · cases h
    | pushBack =>
      simp only [launcher, hpcs, Option.some.injEq] at h
      subst h
      refine ⟨?_, .held n (by simp) (by simp) hne hn (by simp) hf⟩
      simp only [State.left, hpcs, Pc.left]
      omega
    | pushing =>
      simp only [launcher, hpcs, Option.some.injEq] at h
      subst h
      refine ⟨?_, .held n (by simp) (by simp) hne hn (by simp) hf⟩
      simp only [State.left, hpcs, Pc.left]
      omega
    | destroy =>
      have hfinal : s.final = .after := hok hpcs
      have hdone : s.task.done = true := by
        rw [← Bool.not_eq_false]
        exact fun hno => by simp [hf.mpr hno] at hfinal
      obtain ⟨r, rfl⟩ := hn.returned_of_finished ((Task.done_iff s.task).mp hdone)
      simp only [launcher, hpcs, Option.some.injEq, dropTask_root (represents_root hn)] at h
      subst h
      obtain ⟨-, hst, hc, -, -⟩ := hn
      refine ⟨?_, .freed rfl hst hc hfinal⟩
      simp only [State.left, hpcs, Pc.left]
      omega
    | kept => simp [launcher, hpcs] at h
    | destroyed => exact absurd hpcs hlive

/-- One step either belongs to the nested calls or is one of those that are left beside them. -/
theorem owned_cases (ho : Owned s n) (hok : DropsFinished s a) (h : step s a = some t) :
    (∃ v n', Calls.step n v = some n' ∧ Owned t n' ∧ t.left = s.left ∧ emit s a = Calls.emit n v) ∨
      (Owned t n ∧ t.left + 1 = s.left ∧ emit s a = none) := by
  cases a with
  | launcher =>
    obtain ⟨hleft, n', hn', ho'⟩ | ⟨hleft, ho'⟩ := owned_launcher ho hok h
    · exact .inl ⟨none, n', hn', ho', hleft, (emit_none n).symm⟩
    · exact .inr ⟨ho', hleft, rfl⟩
  | resume r h' =>
    obtain ⟨task, hstep, rfl⟩ := Option.map_eq_some_iff.mp h
    obtain ⟨n', hn', ho'⟩ := owned_resume ho hstep
    exact .inl ⟨none, n', hn', ho', rfl, (emit_none n).symm⟩
  | advance v =>
    obtain ⟨task, hstep, rfl⟩ := Option.map_eq_some_iff.mp h
    obtain ⟨n', hn', ho', hleft, hemit⟩ := owned_advance ho hstep
    exact .inl ⟨some v, n', hn', ho', by simp only [State.left, hleft], hemit⟩
  | awaitSuspend =>
    obtain ⟨ho', hleft⟩ := owned_awaitSuspend ho h
    exact .inr ⟨ho', hleft, rfl⟩
  | otherPushBack =>
    obtain ⟨hw, rfl⟩ := (when_eq_some _ _ _).mp h
    refine .inr ⟨ho.congr rfl rfl rfl rfl, ?_, rfl⟩
    simp only [State.left]
    omega
  | otherPushed =>
    obtain ⟨hw, rfl⟩ := (when_eq_some _ _ _).mp h
    refine .inr ⟨ho.congr rfl rfl rfl rfl, ?_, rfl⟩
    simp only [State.left]
    omega

theorem owned_step (ho : Owned s n) (hok : DropsFinished s a) (h : step s a = some t)
    {body : Body L X V .void} {es : List (Event L X V)}
    (hp : Performed Event.answer (call body) es n.call) :
    ∃ n', Owned t n' ∧ Performed Event.answer (call body) (es ++ (emit s a).toList) n'.call := by
  obtain ⟨v, n', hn', ho', -, hemit⟩ | ⟨ho', -, hemit⟩ := owned_cases ho hok h
  · rw [hemit]
    exact ⟨n', ho', performed_step hp hn'⟩
  · rw [hemit]
    exact ⟨n, ho', hp.silent rfl⟩

theorem owned_returned (ho : Owned s n) (v : V) (r : R) (hstuck : ∀ a, step s a = none) :
    n = .returned () := by
  cases ho with
  | freed hpc hst hc hf => rfl
  | unstarted body hpc hn hf =>
    obtain ⟨hs, -, ⟨r', hc⟩, -⟩ := hn
    have hnone := hstuck .launcher
    simp [step, launcher, hpc, Task.step, hc, hs, Machine.when] at hnone
  | held n hpc hlive hne hn hd hf =>
    obtain ⟨h, r', hc⟩ | ⟨h, r', hst, hc⟩ | ⟨_, _, hret, -⟩ := hn.started_cases hne
    · have hadvance := hstuck (.advance v)
      simp [step, Task.step, hc] at hadvance
    · have hresume := hstuck (.resume r h)
      simp [step, Task.step, hc, hst, Machine.when] at hresume
    · exact hret

theorem Owned.alive (ho : Owned s n) (hrace : s.raced = false) {body : Body L X V .void}
    {es : List (Event L X V)} (hp : Performed Event.answer (call body) es n.call) :
    Alive body es s := by
  have hended : ∀ (_ : V) (_ : R), (∀ a, step s a = none) →
      call body (es.map Event.answer) = (es, some ((), [])) := by
    intro v r hstuck
    obtain rfl := owned_returned ho v r hstuck
    exact hp.result
  refine ⟨?_, ?_, ?_, hp.events n.prompted, hended, hrace⟩
  · intro hr
    cases ho with
    | unstarted b hpc hn hf => exact represents_root hn
    | held n hpc hlive hne hn hd hf => exact represents_root hn
    | freed hpc hst hc hf =>
      obtain ⟨r, hc⟩ := hc
      simp [State.InUse, hst, hc, hf] at hr
  · cases ho with
    | unstarted b hpc hn hf => exact represents_handles hn
    | held n hpc hlive hne hn hd hf => exact represents_handles hn
    | freed hpc hst hc hf => simp [hst]
  · cases ho with
    | unstarted b hpc hn hf => exact hn.safe
    | held n hpc hlive hne hn hd hf => exact hn.safe
    | freed hpc hst hc hf =>
      obtain ⟨r, hc⟩ := hc
      simp [hc]

theorem finished_of_alive (ho : Owned s n) {body : Body L X V .void} {es : List (Event L X V)}
    (h : launcher s = some t) (halive : Alive body es t) :
    DropsFinished s (.launcher : Act V R) := by
  intro hpc
  simp only [launcher, hpc, Option.some.injEq] at h
  subst h
  cases ho with
  | unstarted b hpc' hn hf => simp [hpc] at hpc'
  | freed hpc' hst hc hf => simp [hpc] at hpc'
  | held n hpc' hlive hne hn hd hf =>
    have hgone := halive.frame
    rw [dropTask_root (represents_root hn)] at hgone
    have hdead : ¬ s.InUse := fun hr => hgone hr (by simp)
    obtain ⟨h, r', hc⟩ | ⟨h, r', hst, -⟩ | ⟨_, _, -, hdone, -⟩ := hn.started_cases hne
    · exact absurd (Or.inr (Or.inl ⟨h, r', hc⟩)) hdead
    · exact absurd (Or.inl (by simp [hst])) hdead
    · cases hfs : s.final with
      | after => rfl
      | awaitSuspend r => exact absurd (Or.inr (Or.inr ⟨r, hfs⟩)) hdead
      | before => simp [hf.mp hfs] at hdone

theorem raced_step (h : step s a = some t) :
    t.raced = false ↔ s.raced = false ∧ OneByOne s a := by
  cases a with
  | launcher =>
    change launcher s = some t at h
    unfold launcher at h
    cases hpc : s.pc with
    | start =>
      simp only [hpc] at h
      obtain ⟨task, -, rfl⟩ := Option.map_eq_some_iff.mp h
      simp [OneByOne, hpc]
    | started =>
      simp only [hpc] at h
      split at h
      · split at h <;> obtain rfl := Option.some.inj h <;> simp [OneByOne, hpc]
      · cases h
    | pushBack =>
      simp only [hpc, Option.some.injEq] at h
      subst h
      simp [OneByOne, hpc]
    | pushing | destroy =>
      simp only [hpc, Option.some.injEq] at h
      subst h
      simp [OneByOne, hpc]
    | kept | destroyed => simp [hpc] at h
  | resume r h' =>
    obtain ⟨task, -, rfl⟩ := Option.map_eq_some_iff.mp h
    simp [OneByOne]
  | advance v =>
    obtain ⟨task, -, rfl⟩ := Option.map_eq_some_iff.mp h
    simp [OneByOne]
  | awaitSuspend =>
    simp only [step] at h
    split at h
    · split at h <;> obtain rfl := Option.some.inj h <;> simp [OneByOne]
    · cases h
  | otherPushBack =>
    obtain ⟨-, rfl⟩ := (when_eq_some _ _ _).mp h
    simp [OneByOne, and_assoc]
  | otherPushed =>
    obtain ⟨-, rfl⟩ := (when_eq_some _ _ _).mp h
    simp [OneByOne]

end Owned

theorem owned_init (path : Path) (body : Body L X V .void) (others : Nat) :
    Owned (init path body others : State L X V R) (.entry body) :=
  .unstarted body rfl (Task.represents_init body none) rfl

theorem owned_run {path : Path} {body : Body L X V .void} {others : Nat} {as : List (Act V R)}
    {t : State L X V R} (h : run step (init path body others) as = some t)
    (hm : Meets step DropsFinished (init path body others) as) :
    ∃ n, Owned t n ∧
      Performed Event.answer (call body) (trace step emit (init path body others) as) n.call := by
  have hr := trace_invariant_of_meets emit DropsFinished
    (fun es s => ∃ n, Owned s n ∧ Performed Event.answer (call body) es n.call)
    (fun es s a t ⟨n, ho, hp⟩ hok hstep => owned_step ho hok hstep hp) h hm
    ⟨.entry body, owned_init path body others, performed_nil _⟩
  simpa using hr

/-- Nothing goes on for ever while the task object lives as long as the task. -/
theorem halts_init (path : Path) (body : Body L X V .void) (others : Nat) :
    Halts (guarded step DropsFinished) (init path body others : State L X V R) := by
  have hcalls := (halts_entry body).countdown (init path body others : State L X V R).left
  refine Halts.of_simulation (fun s c => Owned s c.1 ∧ s.left = c.2) ?_ hcalls
    ⟨owned_init path body others, rfl⟩
  rintro s ⟨n, k⟩ a t ⟨ho, rfl⟩ ht
  obtain ⟨hok, ht⟩ := (guarded_eq_some _ s t a).mp ht
  obtain ⟨v, n', hn', ho', hleft, -⟩ | ⟨ho', hleft, -⟩ := owned_cases ho hok ht
  · exact ⟨some v, (n', s.left), by simp [countdown, hn'], ho', hleft⟩
  · exact ⟨none, (n, t.left), by simp [countdown, ← hleft], ho', rfl⟩

theorem step_path {s t : State L X V R} {a : Act V R} (h : step s a = some t) :
    t.path = s.path ∧ (s.pc = .destroyed → t.pc = .destroyed) := by
  cases a with
  | launcher =>
    change launcher s = some t at h
    unfold launcher at h
    cases hpc : s.pc with
    | start =>
      simp only [hpc] at h
      obtain ⟨task, -, rfl⟩ := Option.map_eq_some_iff.mp h
      simp
    | started =>
      simp only [hpc] at h
      split at h
      · split at h <;> obtain rfl := Option.some.inj h <;> simp
      · cases h
    | pushBack | pushing | destroy =>
      simp only [hpc, Option.some.injEq] at h
      subst h
      simp
    | kept | destroyed => simp [hpc] at h
  | resume r h' =>
    obtain ⟨task, -, rfl⟩ := Option.map_eq_some_iff.mp h
    exact ⟨rfl, id⟩
  | advance v =>
    obtain ⟨task, -, rfl⟩ := Option.map_eq_some_iff.mp h
    exact ⟨rfl, id⟩
  | awaitSuspend =>
    simp only [step] at h
    split at h
    · split at h <;> obtain rfl := Option.some.inj h <;> exact ⟨rfl, id⟩
    · cases h
  | otherPushBack | otherPushed =>
    obtain ⟨-, rfl⟩ := (when_eq_some _ _ _).mp h
    exact ⟨rfl, id⟩

/-- The task object is destroyed once, so until then it has not been destroyed too early. -/
theorem meets_of_not_destroyed {s t : State L X V R} {as : List (Act V R)} (h : run step s as = some t)
    (hpc : t.pc ≠ .destroyed) : Meets step DropsFinished s as := by
  induction as generalizing s with
  | nil => trivial
  | cons a as ih =>
    obtain ⟨u, hu, hrun⟩ := (run_cons s t a as).mp h
    refine (meets_cons _ s a as).mpr ⟨?_, fun u' hu' => ?_⟩
    · cases a with
      | launcher =>
        intro hdestroy
        simp only [step, launcher, hdestroy, Option.some.injEq] at hu
        subst hu
        exact absurd (run_invariant (fun s => s.pc = .destroyed)
          (fun _ _ _ hi hstep => (step_path hstep).2 hi) hrun rfl) hpc
      | resume | advance | awaitSuspend | otherPushBack | otherPushed => trivial
    · obtain rfl : u = u' := Option.some.inj (hu.symm.trans hu')
      exact ih hrun

theorem service_drops_done {body : Body L X V .void} {others : Nat} {as : List (Act V R)}
    {s : State L X V R} (hr : run step (init .serviceThreadRun body others) as = some s)
    (hpc : s.pc = .destroy) : s.task.done = true := by
  obtain ⟨n, ho, -⟩ := owned_run hr (meets_of_not_destroyed hr (by simp [hpc]))
  have hpath : s.path = .serviceThreadRun :=
    run_invariant (fun s => s.path = .serviceThreadRun)
      (fun _ _ _ hi hstep => (step_path hstep).1.trans hi) hr rfl
  cases ho with
  | unstarted b hpc' hn hf => simp [hpc] at hpc'
  | held n hpc' hlive hne hn hd hf => exact hd hpc hpath
  | freed hpc' hst hc hf => simp [hpc] at hpc'

theorem raced_run {path : Path} {body : Body L X V .void} {others : Nat} {as : List (Act V R)}
    {t : State L X V R} (h : run step (init path body others) as = some t)
    (hm : Meets step OneByOne (init path body others) as) : t.raced = false :=
  run_invariant_of_meets OneByOne (fun s => s.raced = false)
    (fun _ _ _ hi hok hstep => (raced_step hstep).mpr ⟨hi, hok⟩) h hm rfl

/-- A started task lives until it has finished, whoever resumes it and however often it suspends,
if and only if its owner destroys it behind its `final_suspend` and one core at a time is inside
`push_back`. -/
theorem launched_alive (path : Path) (body : Body L X V .void) (others : Nat) :
    Halts (guarded step DropsFinished) (init path body others : State L X V R) ∧
      ∀ (as : List (Act V R)) (t : State L X V R), run step (init path body others) as = some t →
        (Throughout step emit (Alive body) (init path body others : State L X V R) as ↔
          Meets step (fun s a => DropsFinished s a ∧ OneByOne s a)
            (init path body others : State L X V R) as) ∧
        (path = .serviceThreadRun → t.pc = .destroy → t.task.done = true) := by
  refine ⟨halts_init path body others, fun as t h => ⟨⟨?_, ?_⟩, ?_⟩⟩
  · apply meets_of_throughout (fun _ _ => True) (fun s a => DropsFinished s a ∧ OneByOne s a) _ h
      (meets_of_first _ (by simp))
    intro as₁ a u v hr hm _ hstep halive
    refine ⟨?_, ((raced_step hstep).mp halive.raced).2⟩
    obtain ⟨n, ho, -⟩ := owned_run hr (meets_mono (fun _ _ hok => hok.2.1) hm)
    cases a with
    | launcher => exact finished_of_alive ho hstep halive
    | resume | advance | awaitSuspend | otherPushBack | otherPushed => trivial
  · intro hm
    refine throughout_of_meets _ _ (fun as t h hm => ?_) hm
    obtain ⟨hdrops, hone⟩ := (meets_and DropsFinished OneByOne).mp hm
    obtain ⟨n, ho, hp⟩ := owned_run h hdrops
    exact ho.alive (raced_run h hone) hp
  · rintro rfl hpc
    exact service_drops_done h hpc

section NeverSuspends

variable {S : Type}

theorem dropTask_control {s : Task.State L X V S} {o : Option Handle} {h : Handle} {r : S}
    (hd : (s.dropTask o).control = .coroutine h r) : s.control = .coroutine h r := by
  cases o with
  | none => exact hd
  | some p =>
    simp only [Task.State.dropTask, Task.State.destroy] at hd
    split at hd
    · cases hd
    · exact hd

theorem advance_resumer {s : Task.State L X V S} {h h' : Handle} {r r' : S} {v : V}
    (hc : s.control = .coroutine h r) (ha : (Task.advance s h r v).control = .coroutine h' r') :
    r' = r := by
  unfold Task.advance at ha
  cases hf : s.frames h with
  | none => simp [hf, Task.State.fail] at ha
  | some f =>
    obtain ⟨k, caller, value, point⟩ := f
    simp only [hf] at ha
    cases point with
    | code b =>
      cases b with
      | coReturn result =>
        simp only [Task.coReturn] at ha
        split at ha
        · cases ha
        · cases caller with
          | none => cases ha
          | some p => exact (Task.Control.coroutine.inj ha).2.symm
      | localStep l rest => exact (Task.Control.coroutine.inj (hc.symm.trans ha)).2.symm
      | coAwaitTask child rest =>
        simp only [Task.coAwaitTask, Task.operatorCoAwait, Task.awaitSuspend] at ha
        split at ha
        · cases ha
        · exact (Task.Control.coroutine.inj ha).2.symm
      | coAwait x rest => cases ha
    | awaitTask task awaiter rest =>
      simp only [Task.awaitResume] at ha
      cases awaiter with
      | none => cases ha
      | some child =>
        simp only at ha
        split at ha
        · cases ha
        · split at ha
          · cases ha
          · have hdrop := dropTask_control ha
            have hput := dropTask_control (o := some child) hdrop
            exact (Task.Control.coroutine.inj (hc.symm.trans hput)).2.symm
    | external x rest => exact (Task.Control.coroutine.inj (hc.symm.trans ha)).2.symm
    | finalSuspend => cases ha

def NeverSuspends (body : Body L X V .void) : Prop :=
  ∀ vs x v, Event.external x v ∉ (call body vs).1

structure Unbroken (s : State L X V R) (n : Config L X V .void) : Prop where
  owned : Owned s n
  alone : ∀ h r, s.task.control = .coroutine h r → r = none
  last : ∀ r, s.final = .awaitSuspend r → r = none
  finished : s.pc = .destroy → s.final = .after

variable {s t : State L X V R} {n : Config L X V .void} {a : Act V R} {body : Body L X V .void}
  {es : List (Event L X V)}

theorem not_blocked (hb : NeverSuspends body) (v : V)
    (hp : Performed Event.answer (call body) es n.call) {k : Kind} (callers : Stack L X V .void k)
    (x : X) (rest : V → Body L X V k) : n ≠ .blocked callers x rest := by
  rintro rfl
  have hv := hp [v]
  rw [Config.call, ask_bind_cons] at hv
  apply hb (es.map Event.answer ++ [v]) x v
  rw [hv]
  simp

theorem stored_nil (hu : Owned s n) (hb : NeverSuspends body) (v : V)
    (hp : Performed Event.answer (call body) es n.call) : s.task.stored = [] := by
  cases hu with
  | unstarted b hpc hn hf => exact hn.2.1
  | freed hpc hst hc hf => exact hst
  | held n hpc hlive hne hn hd hf =>
    cases n with
    | entry b => exact hn.2.1
    | running callers b => exact hn.2.1
    | blocked callers x rest => exact absurd rfl (not_blocked hb v hp callers x rest)
    | unblocked callers x rest => exact hn.2.1
    | returning callers rest r => exact hn.2.1
    | returned r => exact hn.2.1

theorem finished_of_returned (hu : Unbroken s n) (hb : NeverSuspends body) (v : V)
    (hp : Performed Event.answer (call body) es n.call) (hpc : s.pc = .started)
    (hr : s.returned = true) : s.final = .after := by
  have hnil := stored_nil hu.owned hb v hp
  cases hu.owned with
  | unstarted b hpc' hn hf => simp [hpc] at hpc'
  | freed hpc' hst hc hf => simp [hpc] at hpc'
  | held n hpc' hlive hne hn hd hf =>
    obtain ⟨h, r, hc⟩ | ⟨h, r, hst, -⟩ | ⟨_, _, -, hdone, -⟩ := hn.started_cases hne
    · obtain rfl := hu.alone h r hc
      cases hfs : s.final with
      | after => rfl
      | before => simp [State.returned, hfs, hc] at hr
      | awaitSuspend r => cases r <;> simp [State.returned, hfs, hc] at hr
    · simp [hst] at hnil
    · cases hfs : s.final with
      | after => rfl
      | before => simp [hf.mp hfs] at hdone
      | awaitSuspend r =>
        obtain rfl := hu.last r hfs
        simp [State.returned, hfs] at hr

theorem unbroken_launcher (hu : Unbroken s n) (hb : NeverSuspends body) (v : V)
    (hp : Performed Event.answer (call body) es n.call) (h : launcher s = some t) :
    (∀ h r, t.task.control = .coroutine h r → r = none) ∧ t.final = s.final ∧
      (t.pc = .destroy → s.final = .after) := by
  unfold launcher at h
  cases hpc : s.pc with
  | start =>
    simp only [hpc] at h
    obtain ⟨task, hstep, rfl⟩ := Option.map_eq_some_iff.mp h
    refine ⟨fun h r hc => ?_, rfl, by simp⟩
    cases hcs : s.task.control with
    | resumer r' =>
      simp only [Task.step, hcs, when_eq_some] at hstep
      obtain ⟨-, rfl⟩ := hstep
      exact (Task.Control.coroutine.inj hc).2.symm
    | coroutine h' r' => simp [Task.step, hcs] at hstep
    | failed e => simp [Task.step, hcs] at hstep
  | started =>
    simp only [hpc] at h
    split at h
    case isTrue hr =>
      have hfinal := finished_of_returned hu hb v hp hpc hr
      split at h <;> obtain rfl := Option.some.inj h <;> exact ⟨hu.alone, rfl, fun _ => hfinal⟩
    case isFalse => cases h
  | pushBack | pushing =>
    simp only [hpc, Option.some.injEq] at h
    subst h
    exact ⟨hu.alone, rfl, by simp⟩
  | destroy =>
    simp only [hpc, Option.some.injEq] at h
    subst h
    exact ⟨fun h r hc => hu.alone h r (dropTask_control hc), rfl, by simp⟩
  | kept | destroyed => simp [hpc] at h

theorem unbroken_advance (hu : Unbroken s n) {v : V} {task : Task.State L X V (Option R)}
    (hstep : Task.step s.task (.advance v) = some task) :
    (∀ h r, task.control = .coroutine h r → r = none) ∧
      (∀ r, s.finalOf task = .awaitSuspend r → r = none) ∧ s.final ≠ .after := by
  cases hc : s.task.control with
  | resumer r' => simp [Task.step, hc] at hstep
  | failed e => simp [Task.step, hc] at hstep
  | coroutine h r =>
    obtain rfl := hu.alone h r hc
    refine ⟨fun h' r' hc' => ?_, fun r' hr' => ?_, fun hafter => ?_⟩
    · simp only [Task.step, hc, Option.some.injEq] at hstep
      exact advance_resumer hc (hstep ▸ hc')
    · simp only [State.finalOf, hc] at hr'
      split_ifs at hr'
      · exact (Final.awaitSuspend.inj hr').symm
      · exact hu.last r' hr'
    · cases hu.owned with
      | unstarted b hpc hn hf => simp [hafter] at hf
      | freed hpc hst hcr hf =>
        obtain ⟨r', hcr⟩ := hcr
        simp [hc] at hcr
      | held n hpc hlive hne hn hd hf =>
        have hdone : s.task.done = true := by
          rw [← Bool.not_eq_false]
          exact fun hno => by simp [hf.mpr hno] at hafter
        simp [not_step_of_done hn hdone] at hstep

theorem unbroken_step (hu : Unbroken s n) (hb : NeverSuspends body) (v : V)
    (hp : Performed Event.answer (call body) es n.call) (h : step s a = some t) :
    ∃ n', Unbroken t n' ∧ Performed Event.answer (call body) (es ++ (emit s a).toList) n'.call := by
  have hok : DropsFinished s a := by
    cases a with
    | launcher => exact hu.finished
    | resume | advance | awaitSuspend | otherPushBack | otherPushed => trivial
  obtain ⟨n', ho', hp'⟩ := owned_step hu.owned hok h hp
  refine ⟨n', ?_, hp'⟩
  cases a with
  | launcher =>
    obtain ⟨halone, hfinal, hfin⟩ := unbroken_launcher hu hb v hp h
    exact ⟨ho', halone, hfinal ▸ hu.last, hfinal ▸ hfin⟩
  | resume r h' =>
    obtain ⟨task, hstep, rfl⟩ := Option.map_eq_some_iff.mp h
    have hnil := stored_nil hu.owned hb v hp
    cases hc : s.task.control with
    | resumer r' => simp [Task.step, hc, hnil, Machine.when] at hstep
    | coroutine h'' r' => simp [Task.step, hc] at hstep
    | failed e => simp [Task.step, hc] at hstep
  | advance v' =>
    obtain ⟨task, hstep, rfl⟩ := Option.map_eq_some_iff.mp h
    obtain ⟨halone, hlast, hnot⟩ := unbroken_advance hu hstep
    exact ⟨ho', halone, hlast, fun hpc => absurd (hu.finished hpc) hnot⟩
  | awaitSuspend =>
    simp only [step] at h
    split at h
    · split at h <;> obtain rfl := Option.some.inj h
      · exact ⟨ho', by simp [Task.State.fail], by simp, fun _ => rfl⟩
      · exact ⟨ho', hu.alone, by simp, fun _ => rfl⟩
    · cases h
  | otherPushBack | otherPushed =>
    obtain ⟨-, rfl⟩ := (when_eq_some _ _ _).mp h
    exact ⟨ho', hu.alone, hu.last, hu.finished⟩

theorem alive_of_neverSuspends {path : Path} (hb : NeverSuspends body) (v : V) {others : Nat}
    {as : List (Act V R)} (h : run step (init path body others) as = some t)
    (hm : Meets step OneByOne (init path body others) as) :
    Alive body (trace step emit (init path body others) as) t := by
  have hr := trace_invariant emit
    (fun es s => ∃ n, Unbroken s n ∧ Performed Event.answer (call body) es n.call)
    (fun es s a t ⟨n, hu, hp⟩ hstep => unbroken_step hu hb v hp hstep) h
    ⟨.entry body, ⟨owned_init path body others, by simp [init, Task.init], by simp [init],
      by simp [init]⟩, performed_nil _⟩
  obtain ⟨n, hu, hp⟩ := hr
  exact hu.owned.alive (raced_run h hm) (by simpa using hp)

end NeverSuspends

def yieldOnce : Body String String Nat .void :=
  .localStep "before" fun _ => .coAwait "yield" fun _ => .localStep "after" fun _ =>
    .coReturn (k := .void) ()

theorem launched_alive_yield : ∃ t,
    run step (init .serviceThreadRun yieldOnce 1) [.launcher, .advance 0, .advance 0, .launcher,
      .launcher, .launcher, .otherPushBack, .resume "yield" 0, .advance 0, .otherPushed, .advance 0,
      .advance 0, .awaitSuspend] = some t ∧
    t.pc = .kept ∧ t.final = .after ∧
    Throughout step emit (Alive yieldOnce) (init .serviceThreadRun yieldOnce 1 : State _ _ _ String)
      [.launcher, .advance 0, .advance 0, .launcher, .launcher, .launcher, .otherPushBack,
        .resume "yield" 0, .advance 0, .otherPushed, .advance 0, .advance 0, .awaitSuspend] := by
  refine ⟨_, rfl, rfl, rfl, ?_⟩
  refine ((launched_alive (R := String) .serviceThreadRun yieldOnce 1).2 [.launcher, .advance 0,
    .advance 0, .launcher, .launcher, .launcher, .otherPushBack, .resume "yield" 0, .advance 0,
    .otherPushed, .advance 0, .advance 0, .awaitSuspend] _ rfl).1.mpr ?_
  decide

/-- `launch_task_on_fire` returns, and the message of the yield finds no frame. -/
theorem fired_task_destroyed :
    ¬ ∀ (path : Path) (body : Body String String Nat .void) (others : Nat) (as : List (Act Nat String))
      (t : State String String Nat String), run step (init path body others) as = some t →
      Throughout step emit (Alive body) (init path body others : State _ _ _ String) as := by
  intro H
  have hP := H .launchTaskOnFire yieldOnce 0 [.launcher, .advance 0, .advance 0, .launcher, .launcher,
    .resume "yield" 0, .advance 0] _ rfl _ [] _ (List.append_nil _).symm rfl
  exact hP.safe .destroyed rfl

/-- In `service_thread_run`, the task is `done()` on another core, which then reads `_caller` in a
frame that is gone. -/
theorem done_task_destroyed : ∃ s t : State String String Nat String,
    run step (init .serviceThreadRun yieldOnce 0) [.launcher, .advance 0, .advance 0, .resume "yield" 0,
      .advance 0, .advance 0, .advance 0, .launcher] = some s ∧ s.task.done = true ∧
    s.final = .awaitSuspend (some "yield") ∧ run step s [.launcher, .awaitSuspend] = some t ∧
    t.task.control = .failed .destroyed :=
  ⟨_, _, rfl, rfl, rfl, rfl, rfl⟩

end LibCoro.Launch
