import LibCoro.Sections
import LibCoro.SharedMutexGates
import LibCoro.SharedMutexRefinement

namespace LibCoro.SharedMutex

open Machine
open Sections (Mode Place Guard)

variable {C : Type} {L : Lock C}

def Held (s : State L) (k : C) : Option Mode → Prop
  | none => s.exclusive k = false ∧ s.shared k = 0
  | some .shared => s.exclusive k = false ∧ s.shared k = 1
  | some .exclusive => s.exclusive k = true ∧ s.shared k = 0

def lockOp : Mode → Op
  | .shared => .coLockShared
  | .exclusive => .coLock

def unlockOp : Mode → Op
  | .shared => .unlockShared
  | .exclusive => .unlock

def Pc.Acquires (mode : Mode) : Pc → Prop
  | .acquire o => o = lockOp mode
  | .lockTest | .lockSetFlag | .lockTestReaders | .lockDone => mode = .exclusive
  | .sharedTest | .sharedIncrement => mode = .shared
  | .waitTest w | .waitSuspend w | .waitUnlock w | .waiting w | .waitLock w =>
    mode = .shared ↔ w = .maxReaders
  | _ => False

/-- The place is one of `unlock` or `unlockShared` before the lock is given up. -/
def Pc.Keeps (mode : Mode) : Pc → Prop
  | .acquire o => o = unlockOp mode
  | .unlockAssert | .unlockClear => mode = .exclusive
  | .unsharedAssert | .unsharedDecrement => mode = .shared
  | _ => False

def Pc.Releases : Pc → Prop
  | .unsharedTest _ | .unsharedTestReaders | .notifyAll _ | .notifyOne _ | .notifying _ | .release
  | .returning | .idle => True
  | _ => False

def Pc.Returns (p : Pc) : Prop := p = .release ∨ p = .returning ∨ p = .idle

def At (mode : Mode) (s : State L) (k : C) : Place → Prop
  | .outside => s.pc k = .idle ∧ Held s k none
  | .entering => (s.pc k).Acquires mode ∧ Held s k none ∨ (s.pc k).Returns ∧ Held s k (some mode)
  | .inside => s.pc k = .idle ∧ Held s k (some mode)
  | .leaving => (s.pc k).Keeps mode ∧ Held s k (some mode) ∨ (s.pc k).Releases ∧ Held s k none

def Pc.Next : Pc → Pc → Prop
  | .acquire o, q => q = o.entry
  | .lockTest, q => q = .waitTest .writeEntered ∨ q = .lockSetFlag
  | .lockSetFlag, q => q = .lockTestReaders
  | .lockTestReaders, q => q = .waitTest .readers ∨ q = .lockDone
  | .unlockAssert, q => q = .unlockClear ∨ q = .assertFailed
  | .unlockClear, q => q = .notifyAll .gate1
  | .sharedTest, q => q = .waitTest .maxReaders ∨ q = .sharedIncrement
  | .unsharedAssert, q => q = .unsharedDecrement ∨ q = .assertFailed
  | .unsharedDecrement, q => ∃ prev, q = .unsharedTest prev
  | .unsharedTest _, q => q = .unsharedTestReaders ∨ q = .notifyOne .gate1 ∨ q = .release
  | .unsharedTestReaders, q => q = .notifyOne .gate2 ∨ q = .release
  | .waitTest w, q => q = w.next ∨ q = .waitSuspend w
  | .waitSuspend w, q => q = .waitSuspend w ∨ q = .waitUnlock w
  | .waitUnlock w, q => q = .waiting w ∨ q = .overlap
  | .waiting w, q => q = .waitLock w ∨ q = .overlap
  | .waitLock w, q => q = .waitTest w
  | .notifyAll g, q | .notifyOne g, q => q = .notifying g
  | .notifying g, q => q = .notifying g ∨ q = .release
  | .lockDone, q | .trySet, q | .sharedIncrement, q => q = .release
  | .release, q => q = .returning
  | .returning, q => q = .idle
  | _, _ => True

def Pc.exclusive (b : Bool) : Pc → Bool
  | .lockDone | .trySet => true
  | .unlockClear => false
  | _ => b

def Pc.shared (n : Nat) : Pc → Nat
  | .sharedIncrement => n + 1
  | .unsharedDecrement => n - 1
  | _ => n

variable [DecidableEq C] {mode : Mode} {s t : State L} {a : Act L} {k j : C} {spurious : Bool}
  {own : Option Mode} {w : Place}

structure Advances (s t : State L) (k : C) : Prop where
  next : (s.pc k).Next (t.pc k)
  exclusive : t.exclusive = Function.update s.exclusive k ((s.pc k).exclusive (s.exclusive k))
  shared : t.shared = Function.update s.shared k ((s.pc k).shared (s.shared k))

theorem goto_pc (u : State L) (k : C) (p : Pc) : (u.goto k p).pc k = p := Function.update_self _ _ _

theorem advances_goto {u : State L} {p : Pc} (hp : (s.pc k).Next p)
    (he : u.exclusive = Function.update s.exclusive k ((s.pc k).exclusive (s.exclusive k)))
    (hs : u.shared = Function.update s.shared k ((s.pc k).shared (s.shared k))) :
    Advances s (u.goto k p) k where
  next := by rwa [goto_pc]
  exclusive := he
  shared := hs

theorem advances_of_step (h : step s (.advance k spurious) = some t) : Advances s t k := by
  have hlock : ∀ {f : L.State → C → Option L.State} {p : Pc}, lockStep s k f (fun _ => p) = some t →
      (s.pc k).Next p → (s.pc k).exclusive (s.exclusive k) = s.exclusive k →
      (s.pc k).shared (s.shared k) = s.shared k → Advances s t k := by
    intro f p hs hp he hsh
    obtain ⟨m, -, rfl⟩ := Option.map_eq_some_iff.mp hs
    exact advances_goto hp (by simp [he]) (by simp [hsh])
  have hgate : ∀ {g : Gate} {b : ConditionVariable.Act C} {p : ConditionVariable.State C → Pc},
      gateStep s g k b p = some t → (∀ v, (s.pc k).Next (p v)) →
      (s.pc k).exclusive (s.exclusive k) = s.exclusive k →
      (s.pc k).shared (s.shared k) = s.shared k → Advances s t k := by
    intro g b p hs hp he hsh
    obtain ⟨v, -, rfl⟩ := Option.map_eq_some_iff.mp hs
    exact advances_goto (hp v) (by simp [he]) (by simp [hsh])
  simp only [step] at h
  cases hpc : s.pc k with
  | idle | assertFailed | overlap => simp [advance, hpc] at h
  | release =>
    simp only [advance, hpc] at h
    exact hlock h (by simp [hpc, Pc.Next]) (by simp [hpc, Pc.exclusive]) (by simp [hpc, Pc.shared])
  | notifyAll g | notifyOne g =>
    simp only [advance, hpc] at h
    exact hgate h (by simp [hpc, Pc.Next]) (by simp [hpc, Pc.exclusive]) (by simp [hpc, Pc.shared])
  | waitSuspend v =>
    simp only [advance, hpc] at h
    refine hgate h (fun u => ?_) (by simp [hpc, Pc.exclusive]) (by simp [hpc, Pc.shared])
    split_ifs <;> simp [hpc, Pc.Next]
  | waitTest v | waitUnlock v | waiting v | notifying v =>
    simp only [advance, hpc] at h
    split_ifs at h
    all_goals first
      | cases h; exact advances_goto (by simp [hpc, Pc.Next]) (by simp [hpc, Pc.exclusive]) (by simp [hpc, Pc.shared])
      | exact hlock h (by simp [hpc, Pc.Next]) (by simp [hpc, Pc.exclusive]) (by simp [hpc, Pc.shared])
      | exact hgate h (by simp [hpc, Pc.Next]) (by simp [hpc, Pc.exclusive]) (by simp [hpc, Pc.shared])
  | acquire o | waitLock v | returning =>
    simp only [advance, hpc, when_eq_some] at h
    obtain ⟨-, rfl⟩ := h
    exact advances_goto (by simp [hpc, Pc.Next]) (by simp [hpc, Pc.exclusive]) (by simp [hpc, Pc.shared])
  | _ =>
    simp only [advance, hpc, Option.some.injEq] at h
    subst h
    refine advances_goto ?_ (by simp [hpc, Pc.exclusive]) (by simp [hpc, Pc.shared])
    try split_ifs
    all_goals simp [hpc, Pc.Next]

theorem held_frame (h : step s a = some t) (hj : a.actor ≠ some j) :
    t.exclusive j = s.exclusive j ∧ t.shared j = s.shared j := by
  have hlock : ∀ {k : C} {f : L.State → C → Option L.State} {p : L.State → Pc},
      lockStep s k f p = some t → t.exclusive j = s.exclusive j ∧ t.shared j = s.shared j := by
    intro k f p hs
    obtain ⟨m, -, rfl⟩ := Option.map_eq_some_iff.mp hs
    exact ⟨rfl, rfl⟩
  cases a with
  | advance k spurious =>
    have hjk : j ≠ k := fun hjk => hj (congrArg some hjk.symm)
    obtain ⟨-, he, hs⟩ := advances_of_step h
    rw [he, hs, Function.update_of_ne hjk, Function.update_of_ne hjk]
    exact ⟨rfl, rfl⟩
  | move m =>
    obtain ⟨v, -, rfl⟩ := Option.map_eq_some_iff.mp h
    exact ⟨rfl, rfl⟩
  | _ =>
    simp only [step] at h
    split_ifs at h
    exact hlock h

omit [DecidableEq C] in
theorem held_congr (he : t.exclusive k = s.exclusive k) (hs : t.shared k = s.shared k) :
    Held t k own ↔ Held s k own := by
  cases own with
  | none => rw [Held, Held, he, hs]
  | some mode => cases mode <;> rw [Held, Held, he, hs]

omit [DecidableEq C] in
theorem at_congr (hpc : t.pc k = s.pc k) (he : t.exclusive k = s.exclusive k)
    (hs : t.shared k = s.shared k) : At mode t k w ↔ At mode s k w := by
  cases w <;> simp only [At, hpc, held_congr he hs]

theorem Advances.held (h : Advances s t k) (he : ∀ b, (s.pc k).exclusive b = b)
    (hs : ∀ n, (s.pc k).shared n = n) : Held t k own ↔ Held s k own :=
  held_congr (by rw [h.exclusive, Function.update_self, he]) (by rw [h.shared, Function.update_self, hs])

theorem acquires_step (h : Advances s t k) (ho : t.pc k ≠ .overlap) (hk : (s.pc k).Acquires mode)
    (hh : Held s k none) : At mode t k .entering := by
  have hnext := h.next
  cases hpc : s.pc k with
  | lockDone | sharedIncrement =>
    rw [hpc] at hk hnext
    obtain rfl := hk
    refine .inr ⟨.inl hnext, ?_⟩
    simp [Held, h.exclusive, h.shared, hpc, Pc.exclusive, Pc.shared, hh.1, hh.2]
  | acquire o =>
    refine .inl ⟨?_, (h.held (by simp [hpc, Pc.exclusive]) (by simp [hpc, Pc.shared])).mpr hh⟩
    rw [hpc] at hk hnext
    obtain rfl : o = lockOp mode := hk
    rw [show t.pc k = _ from hnext]
    cases mode <;> rfl
  | waitTest v =>
    refine .inl ⟨?_, (h.held (by simp [hpc, Pc.exclusive]) (by simp [hpc, Pc.shared])).mpr hh⟩
    rw [hpc] at hk hnext
    obtain hnext | hnext := hnext <;> rw [hnext]
    · cases mode <;> cases v <;> simp [Pc.Acquires, Wait.next] at hk ⊢
    · exact hk
  | lockTest | lockSetFlag | lockTestReaders | sharedTest =>
    refine .inl ⟨?_, (h.held (by simp [hpc, Pc.exclusive]) (by simp [hpc, Pc.shared])).mpr hh⟩
    rw [hpc] at hk hnext
    obtain rfl := hk
    first
      | rw [show t.pc k = _ from hnext]; rfl
      | obtain hnext | hnext := hnext <;> rw [hnext] <;> simp [Pc.Acquires]
  | waitSuspend v | waitUnlock v | waiting v | waitLock v =>
    refine .inl ⟨?_, (h.held (by simp [hpc, Pc.exclusive]) (by simp [hpc, Pc.shared])).mpr hh⟩
    rw [hpc] at hk hnext
    first
      | rw [show t.pc k = _ from hnext]; exact hk
      | obtain hnext | hnext := hnext
        · rw [hnext]
          exact hk
        · first
            | exact absurd hnext ho
            | rw [hnext]; exact hk
  | _ =>
    rw [hpc] at hk
    exact hk.elim

theorem keeps_step (h : Advances s t k) (ho : t.pc k ≠ .assertFailed) (hk : (s.pc k).Keeps mode)
    (hh : Held s k (some mode)) : At mode t k .leaving := by
  have hnext := h.next
  cases hpc : s.pc k with
  | acquire o =>
    refine .inl ⟨?_, (h.held (by simp [hpc, Pc.exclusive]) (by simp [hpc, Pc.shared])).mpr hh⟩
    rw [hpc] at hk hnext
    obtain rfl : o = unlockOp mode := hk
    rw [show t.pc k = _ from hnext]
    cases mode <;> rfl
  | unlockAssert | unsharedAssert =>
    refine .inl ⟨?_, (h.held (by simp [hpc, Pc.exclusive]) (by simp [hpc, Pc.shared])).mpr hh⟩
    rw [hpc] at hk hnext
    obtain hnext | hnext := hnext
    · rw [hnext]
      exact hk
    · exact absurd hnext ho
  | unlockClear =>
    rw [hpc] at hk hnext
    obtain rfl := hk
    refine .inr ⟨?_, ?_⟩
    · rw [show t.pc k = _ from hnext]
      trivial
    · simp [Held, h.exclusive, h.shared, hpc, Pc.exclusive, Pc.shared, hh.2]
  | unsharedDecrement =>
    rw [hpc] at hk hnext
    obtain rfl := hk
    obtain ⟨prev, hnext⟩ := hnext
    refine .inr ⟨?_, ?_⟩
    · rw [hnext]
      trivial
    · simp [Held, h.exclusive, h.shared, hpc, Pc.exclusive, Pc.shared, hh.1, hh.2]
  | _ =>
    rw [hpc] at hk
    exact hk.elim

/-- Behind the step that takes or releases the lock, a call only returns. -/
theorem releases_step (own : Option Mode) (h : Advances s t k) (hk : (s.pc k).Releases) (hidle : s.pc k ≠ .idle) :
    (t.pc k).Releases ∧ (Held t k own ↔ Held s k own) ∧ ((s.pc k).Returns → (t.pc k).Returns) := by
  have hnext := h.next
  cases hpc : s.pc k with
  | idle => exact absurd hpc hidle
  | release | returning =>
    rw [hpc] at hnext
    refine ⟨?_, h.held (by simp [hpc, Pc.exclusive]) (by simp [hpc, Pc.shared]), fun _ => ?_⟩ <;>
      rw [show t.pc k = _ from hnext]
    · trivial
    · simp [Pc.Returns]
  | unsharedTest prev | unsharedTestReaders | notifyAll g | notifyOne g | notifying g =>
    rw [hpc] at hnext
    refine ⟨?_, h.held (by simp [hpc, Pc.exclusive]) (by simp [hpc, Pc.shared]), by simp [Pc.Returns]⟩
    revert hnext
    cases t.pc k <;> simp [Pc.Next, Pc.Releases]
  | _ =>
    rw [hpc] at hk
    exact hk.elim

theorem at_step (ho : t.pc k ≠ .assertFailed ∧ t.pc k ≠ .overlap) (hk : At mode s k w)
    (ha : a.actor = some k → ∃ spurious, a = .advance k spurious) (h : step s a = some t) :
    At mode t k w := by
  by_cases hact : a.actor = some k
  · obtain ⟨spurious, rfl⟩ := ha hact
    have hadv := advances_of_step h
    have hidle : s.pc k ≠ .idle := fun hpc => by simp [step, advance, hpc] at h
    cases w with
    | outside | inside => exact absurd hk.1 hidle
    | entering =>
      obtain ⟨hacq, hh⟩ | ⟨hret, hh⟩ := hk
      · exact acquires_step hadv ho.2 hacq hh
      · have hrel : (s.pc k).Releases := by
          obtain hpc | hpc | hpc := hret <;> rw [hpc] <;> trivial
        obtain ⟨-, hheld, hnext⟩ := releases_step (some mode) hadv hrel hidle
        exact .inr ⟨hnext hret, hheld.mpr hh⟩
    | leaving =>
      obtain ⟨hkeep, hh⟩ | ⟨hrel, hh⟩ := hk
      · exact keeps_step hadv ho.1 hkeep hh
      · obtain ⟨hnext, hheld, -⟩ := releases_step none hadv hrel hidle
        exact .inr ⟨hnext, hheld.mpr hh⟩
  · obtain ⟨he, hs⟩ := held_frame h hact
    exact (at_congr (pc_of_step h hact) he hs).mpr hk

/-- The places of the clients, which call `coLock` or `coLockShared`, use what the shared mutex
guards, and call `unlock` or `unlockShared`. -/
structure Client (L : Lock C) where
  sharedMutex : State L
  place : C → Place

inductive Move (L : Lock C) where
  | advance (k : C) (spurious : Bool)
  | lock (m : L.Move)
  | ret (k : C)

namespace Client

variable (mode : C → Mode)

def enter (s : Client L) (k : C) : Option (Client L) :=
  if s.place k = .outside then
    (step s.sharedMutex (match mode k with | .shared => .coLockShared k | .exclusive => .coLock k)).map
      fun t => ⟨t, Function.update s.place k .entering⟩
  else none

def leave (s : Client L) (k : C) : Option (Client L) :=
  if s.place k = .inside then
    (step s.sharedMutex (match mode k with | .shared => .unlockShared k | .exclusive => .unlock k)).map
      fun t => ⟨t, Function.update s.place k .leaving⟩
  else none

def move (s : Client L) : Move L → Option (Client L)
  | .advance k spurious => (step s.sharedMutex (.advance k spurious)).map fun t => { s with sharedMutex := t }
  | .lock m => (step s.sharedMutex (.move m)).map fun t => { s with sharedMutex := t }
  | .ret k =>
    if s.sharedMutex.pc k = .idle then
      match s.place k with
      | .entering => some { s with place := Function.update s.place k .inside }
      | .leaving => some { s with place := Function.update s.place k .outside }
      | _ => none
    else none

variable [Fintype C]

structure Inv (s : Client L) : Prop where
  sharedMutex : SharedMutex.Inv s.sharedMutex
  places : ∀ k, At (mode k) s.sharedMutex k (s.place k)

variable {mode}

variable {s t : Client L} {k : C}

theorem at_inner {u : State L} {a : Act L} (hi : Inv mode s) (h : step s.sharedMutex a = some u) {j : C}
    (ha : a.actor = some j → ∃ spurious, a = .advance j spurious) : At (mode j) u j (s.place j) :=
  at_step ((excludes_of_inv (inv_step _ a u hi.sharedMutex h)).noAssert j) (hi.places j) ha h

theorem inv_call {u : State L} {a : Act L} {w : Place} (hi : Inv mode s)
    (h : step s.sharedMutex a = some u) (ha : a.actor = some k) (hk : At (mode k) u k w) :
    Inv mode ⟨u, Function.update s.place k w⟩ := by
  refine ⟨inv_step _ a u hi.sharedMutex h, (Function.forall_update_iff s.place
    fun j q => At (mode j) u j q).mpr ⟨hk, fun j hj => at_inner hi h fun hact => ?_⟩⟩
  exact absurd (Option.some.inj (ha.symm.trans hact)).symm hj

theorem inv_inner {u : State L} {a : Act L} (hi : Inv mode s) (h : step s.sharedMutex a = some u)
    (ha : ∀ k, a.actor = some k → ∃ spurious, a = .advance k spurious) :
    Inv mode { s with sharedMutex := u } where
  sharedMutex := inv_step _ a u hi.sharedMutex h
  places k := at_inner hi h (ha k)

omit [Fintype C] in
theorem held_of_call {u v : State L} {o : Op} {own : Option Mode}
    (h : lockStep u k L.coLock (fun _ => .acquire o) = some v) (hk : Held u k own) :
    v.pc k = .acquire o ∧ Held v k own := by
  obtain ⟨l, -, rfl⟩ := Option.map_eq_some_iff.mp h
  exact ⟨goto_pc .., hk⟩

theorem inv_enter (hi : Inv mode s) (h : enter mode s k = some t) : Inv mode t := by
  unfold enter at h
  split_ifs at h with hp
  obtain ⟨u, hu, rfl⟩ := Option.map_eq_some_iff.mp h
  have hk := hi.places k
  rw [hp] at hk
  cases hm : mode k with
  | shared | exclusive =>
    simp only [hm] at hu
    refine inv_call hi hu rfl ?_
    simp only [step] at hu
    split_ifs at hu
    obtain ⟨hpc, hh⟩ := held_of_call hu hk.2
    exact .inl ⟨by rw [hpc, hm]; rfl, hh⟩

theorem inv_leave (hi : Inv mode s) (h : leave mode s k = some t) : Inv mode t := by
  unfold leave at h
  split_ifs at h with hp
  obtain ⟨u, hu, rfl⟩ := Option.map_eq_some_iff.mp h
  have hk := hi.places k
  rw [hp] at hk
  cases hm : mode k with
  | shared | exclusive =>
    simp only [hm] at hu
    refine inv_call hi hu rfl ?_
    simp only [step] at hu
    split_ifs at hu
    obtain ⟨hpc, hh⟩ := held_of_call hu hk.2
    exact .inl ⟨by rw [hpc, hm]; rfl, hh⟩

omit [DecidableEq C] [Fintype C] in
theorem at_ret {u : State L} {m : Mode} (hpc : u.pc k = .idle) :
    (At m u k .entering → At m u k .inside) ∧ (At m u k .leaving → At m u k .outside) := by
  constructor
  · rintro (⟨hacq, -⟩ | ⟨-, hh⟩)
    · rw [hpc] at hacq
      exact hacq.elim
    · exact ⟨hpc, hh⟩
  · rintro (⟨hkeep, -⟩ | ⟨-, hh⟩)
    · rw [hpc] at hkeep
      exact hkeep.elim
    · exact ⟨hpc, hh⟩

theorem inv_move {m : Move L} (hi : Inv mode s) (h : move s m = some t) : Inv mode t := by
  cases m with
  | advance k spurious =>
    obtain ⟨u, hu, rfl⟩ := Option.map_eq_some_iff.mp h
    exact inv_inner hi hu fun j hj => ⟨spurious, congrArg (Act.advance · spurious) (Option.some.inj hj)⟩
  | lock m =>
    obtain ⟨u, hu, rfl⟩ := Option.map_eq_some_iff.mp h
    exact inv_inner hi hu fun j hj => by cases hj
  | ret k =>
    simp only [move] at h
    split_ifs at h with hpc
    have hk := hi.places k
    have hset : ∀ w, At (mode k) s.sharedMutex k w →
        Inv mode { s with place := Function.update s.place k w } := fun w hw =>
      ⟨hi.sharedMutex, (Function.forall_update_iff s.place fun j q => At (mode j) _ j q).mpr
        ⟨hw, fun j _ => hi.places j⟩⟩
    cases hp : s.place k with
    | outside | inside => simp [hp] at h
    | entering =>
      simp only [hp, Option.some.injEq] at h
      subst h
      exact hset .inside ((at_ret hpc).1 (hp ▸ hk))
    | leaving =>
      simp only [hp, Option.some.injEq] at h
      subst h
      exact hset .outside ((at_ret hpc).2 (hp ▸ hk))

theorem alone {j : C} (hi : Inv mode s) (hj : s.place j = .inside) (hk : s.place k = .inside)
    (hm : mode j = .exclusive) : j = k := by
  have hpj := hi.places j
  have hpk := hi.places k
  rw [hj, hm] at hpj
  rw [hk] at hpk
  have hex := excludes_of_inv hi.sharedMutex
  cases hmk : mode k with
  | exclusive =>
    rw [hmk] at hpk
    exact hex.writers j k hpj.2.1 hpk.2.1
  | shared =>
    rw [hmk] at hpk
    have hz := hex.readers j k hpj.2.1
    have hone : s.sharedMutex.shared k = 1 := hpk.2.2
    omega

omit [Fintype C] in
theorem place_update {w w' : Place} (hs : s.place k = w) (ht : t.place = Function.update s.place k w') :
    s.place k = w ∧ t.place k = w' ∧ ∀ j, j ≠ k → t.place j = s.place j := by
  rw [ht]
  exact ⟨hs, Function.update_self _ _ _, fun j hj => Function.update_of_ne hj _ _⟩

end Client

def guard [Fintype C] (L : Lock C) (mode : C → Mode) : Guard mode where
  State := Client L
  Move := Move L
  init := ⟨init, fun _ => .outside⟩
  enter := Client.enter mode
  leave := Client.leave mode
  move := Client.move
  place := Client.place
  Inv := Client.Inv mode
  inv_init := ⟨inv_init, fun _ => ⟨rfl, rfl, rfl⟩⟩
  place_init _ := rfl
  inv_enter _ _ _ hi h := Client.inv_enter hi h
  inv_leave _ _ _ hi h := Client.inv_leave hi h
  inv_move _ _ _ hi h := Client.inv_move hi h
  alone _ _ _ hi hj hk hm := Client.alone hi hj hk hm
  enter_place s k t h := by
    unfold Client.enter at h
    split_ifs at h with hk
    obtain ⟨u, -, rfl⟩ := Option.map_eq_some_iff.mp h
    obtain ⟨hs, ht, hother⟩ := Client.place_update (t := ⟨u, _⟩) hk rfl
    exact ⟨hs, .inl ht, hother⟩
  leave_place s k t h := by
    unfold Client.leave at h
    split_ifs at h with hk
    obtain ⟨u, -, rfl⟩ := Option.map_eq_some_iff.mp h
    obtain ⟨hs, ht, hother⟩ := Client.place_update (t := ⟨u, _⟩) hk rfl
    exact ⟨hs, .inl ht, hother⟩
  move_place s m t _ h j := by
    cases m with
    | advance k spurious | lock m =>
      obtain ⟨u, -, rfl⟩ := Option.map_eq_some_iff.mp h
      exact .inl rfl
    | ret k =>
      simp only [Client.move] at h
      split_ifs at h
      by_cases hj : j = k
      · subst hj
        cases hp : s.place j <;> simp [hp] at h <;> subst h <;> simp
      · cases hp : s.place k <;> simp [hp] at h <;> subst h <;> simp [hj]

end LibCoro.SharedMutex
