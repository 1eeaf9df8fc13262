import LibCoro.ReclaimQueue

namespace LibCoro.Reclaim

open Machine Chain Rcu

/-- `q` is what was registered and did not run, and outside the callbacks it is the queue. -/
structure Exact (es : List Event) (s : State) (q : List (Addr × Addr)) : Prop where
  due : due es = some q
  queue : s.running = [] → TailQueue s.links s.data.head s.data.tail (q.map Prod.fst)

theorem Stage.waiting {links : Addr → Option Addr} {data : CallRcuData} {l : List Addr} {s : State}
    (h : Stage links data l s.frames) (hr : s.running = []) : Waiting links data l := by
  unfold State.running at hr
  generalize s.frames = frames at h hr
  cases h with
  | out h => exact h
  | scan m i h => exact h
  | loop m h => exact h
  | callback m head node h => cases hr
  | nestedScan m' i m head node h => cases hr
  | nestedLoop m' m head node h => cases hr

section Inv

variable {n c : Nat} {es : List Event} {s t : State} {q : List (Addr × Addr)}

theorem Inv.exact (h : Inv es s q) : Exact es s q :=
  ⟨h.due, fun hr => h.registered ▸ h.stage.waiting hr⟩

/-- A nested drain starts at the head whose callback is running. -/
theorem Inv.nested (h : Inv es s q) (hlen : 2 ≤ s.frames.length) {a : Addr} (hc : calls s = some a) :
    a ∉ q.map Prod.fst := by
  have hst := h.stage
  rw [h.registered] at hst
  unfold calls at hc
  generalize s.frames = frames at hst hlen hc
  cases hst with
  | out h => cases hc
  | scan m i h => cases hc
  | loop m h => simp at hlen
  | callback m head node h => cases hc
  | nestedScan m' i m head node h => cases hc
  | nestedLoop m' m head node h =>
    change (if m' < (s.heads head).version then none else some head) = some a at hc
    split at hc
    · cases hc
    · obtain rfl := Option.some.inj hc
      exact h.gone

theorem Inv.not_due (h : Inv es s q) (hlen : 2 ≤ s.frames.length) {a : Addr} (hc : calls s = some a)
    (func : Addr) : Reclaim.due (es ++ [.ran a func]) = none := by
  have ha := h.nested hlen hc
  rw [due_snoc h.due]
  cases q with
  | nil => rfl
  | cons p q =>
    have hp : p ≠ (a, func) := by
      rintro rfl
      exact ha (by simp)
    simp [serve, Machine.when, hp]

theorem Registers.link {head func : Addr} (ht : Registers s head func t) (hw : Waiting s.links s.data
    s.registered) (ha : head ∉ s.registered) : t.links head = s.links head := by
  rw [ht.links, hw.last]
  cases hl : s.registered.getLast? with
  | none => rfl
  | some b =>
    have hb : head ≠ b := by
      rintro rfl
      exact ha (List.mem_of_getLast? hl)
    rw [enqueueLink, Function.update_of_ne hb]

theorem Inv.null_of_exact (h : Inv es s q) (hf : s.frames = []) {head func : Addr}
    (ht : Registers s head func t) (ha : head ∉ s.registered) {es' : List Event}
    {q' : List (Addr × Addr)} (he : Exact es' t q') : s.links head = none := by
  have hw : Waiting s.links s.data s.registered := by
    apply h.stage.waiting
    rw [State.running, hf]
    rfl
  have hrun : t.running = [] := by
    rw [State.running, ht.frames, hf]
    split <;> rfl
  have hq := he.queue hrun
  have htail : t.data.tail = some head := by rw [ht.data]
  rw [htail] at hq
  rw [← ht.link hw ha]
  exact hq.link_last

theorem Inv.notNested_of_due (h : Inv es s q) {a : Act} {q' : List (Addr × Addr)}
    (he : Reclaim.due (es ++ (emit s a).toList) = some q') : NotNested s a := by
  apply notNested_of_silent
  intro hlen head func hran
  rw [hran] at he
  exact absurd he (by simp [h.not_due hlen (emit_ran hran).2])

end Inv

theorem Outside.notLast {s : State} {a : Act} (h : Outside s a) : NotLast s a := by
  intro ha
  rw [State.inLast, h ha]

theorem inv_run_outside {n c : Nat} {heads : Addr → RcuHead} {as : List Act} {t : State}
    (h : run (step n c) (init heads) as = some t)
    (hm : Meets (step n c) (fun s a => (Disciplined s a ∧ Outside s a) ∧ NullNext s a ∧ NotNested s a)
      (init heads) as) : ∃ q, Inv (trace (step n c) emit (init heads) as) t q := by
  apply inv_run h
  refine meets_mono (fun s a hok => ?_) hm
  exact ⟨hok.1.1, hok.2.1, hok.1.2.notLast, hok.2.2⟩

/-- Along a run whose callbacks do not call `call_rcu`, the queue is exactly what is due if and
only if every appended head has a null link and no drain within a callback calls one. -/
theorem enqueue_exact {n c : Nat} {heads : Addr → RcuHead} {as : List Act} {t : State}
    (h : run (step n c) (init heads) as = some t)
    (hd : Meets (step n c) (fun s a => Disciplined s a ∧ Outside s a) (init heads) as) :
    Throughout (step n c) emit (fun es s => ∃ q, Exact es s q) (init heads) as ↔
      Meets (step n c) (fun s a => NullNext s a ∧ NotNested s a) (init heads) as := by
  constructor
  · apply meets_of_throughout _ _ _ h hd
    intro as₁ a u v hr hm hda hstep ⟨q', he⟩
    obtain ⟨q, hi⟩ := inv_run_outside hr hm
    refine ⟨fun head ha => ?_, hi.notNested_of_due he.due⟩
    obtain ⟨-, func, ht, -⟩ := step_head hstep ha
    have hf : u.frames = [] := hda.2 (by rw [ha]; simp)
    exact hi.null_of_exact hf ht (disciplined_head hda.1 ha).1 he
  · intro hm
    refine throughout_of_meets _ _ (fun as t h hm => ?_) ((meets_and _ _).mpr ⟨hd, hm⟩)
    obtain ⟨q, hi⟩ := inv_run_outside h hm
    exact ⟨q, hi.exact⟩

def zeroed : Addr → RcuHead := fun _ => ⟨none, 0, 0⟩

def drainTwo : List Act :=
  [.threadCallRcu, .advance, .advance, .advance, .ret, .advance, .ret, .advance]

theorem enqueue_exact_reset :
    Throughout (step 1 0) emit (fun es s => ∃ q, Exact es s q) (init zeroed)
      (.callRcu 1 5 :: .freeRcu 2 :: drainTwo ++
        .write 1 ⟨none, 0, 0⟩ :: .callRcu 1 5 :: drainTwo.take 6) := by
  obtain ⟨t, ht⟩ : ∃ t, run (step 1 0) (init zeroed) (.callRcu 1 5 :: .freeRcu 2 :: drainTwo ++
      .write 1 ⟨none, 0, 0⟩ :: .callRcu 1 5 :: drainTwo.take 6) = some t :=
    Option.isSome_iff_exists.mp (by decide)
  exact (enqueue_exact ht (by decide)).mpr (by decide)

/-- A head that is registered again as its first life left it leads to the one behind it then. -/
theorem reused_head_runs_neighbour :
    ¬ ∀ (n c : Nat) (heads : Addr → RcuHead) (as : List Act) (t : State),
      run (step n c) (init heads) as = some t →
      Meets (step n c) (fun s a => Disciplined s a ∧ Outside s a) (init heads) as →
      Throughout (step n c) emit (fun es s => ∃ q, Exact es s q) (init heads) as := by
  intro H
  let as : List Act := .callRcu 1 5 :: .callRcu 2 5 :: drainTwo ++ .callRcu 1 5 :: drainTwo
  obtain ⟨t, ht⟩ : ∃ t, run (step 1 0) (init zeroed) as = some t :=
    Option.isSome_iff_exists.mp (by decide)
  have hm : Meets (step 1 0) (fun s a => Disciplined s a ∧ Outside s a) (init zeroed) as := by decide
  obtain ⟨q, hq⟩ := H 1 0 zeroed as t ht hm as [] t (List.append_nil as).symm ht
  have hnone : due (trace (step 1 0) emit (init zeroed) as) = none := by decide
  exact absurd hq.due (by simp [hnone])

end LibCoro.Reclaim
