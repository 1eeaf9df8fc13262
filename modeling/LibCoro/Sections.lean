import LibCoro.Machine
import Mathlib.Data.Fintype.BigOperators

namespace LibCoro.Sections

open Machine

variable {C σ ρ : Type}

inductive Mode where
  | shared
  | exclusive
  deriving DecidableEq, Repr

inductive Place where
  | outside
  | entering
  | inside
  | leaving
  deriving DecidableEq, Repr

/-- A guard of sections: who is inside in exclusive mode is there alone. -/
structure Guard (mode : C → Mode) where
  State : Type
  Move : Type
  init : State
  enter : State → C → Option State
  leave : State → C → Option State
  move : State → Move → Option State
  place : State → C → Place
  Inv : State → Prop
  inv_init : Inv init
  place_init : ∀ k, place init k = .outside
  inv_enter : ∀ s k t, Inv s → enter s k = some t → Inv t
  inv_leave : ∀ s k t, Inv s → leave s k = some t → Inv t
  inv_move : ∀ s m t, Inv s → move s m = some t → Inv t
  alone : ∀ s j k, Inv s → place s j = .inside → place s k = .inside → mode j = .exclusive → j = k
  enter_place : ∀ s k t, enter s k = some t → place s k = .outside ∧
    (place t k = .entering ∨ place t k = .inside) ∧ ∀ j, j ≠ k → place t j = place s j
  leave_place : ∀ s k t, leave s k = some t → place s k = .inside ∧
    (place t k = .leaving ∨ place t k = .outside) ∧ ∀ j, j ≠ k → place t j = place s j
  move_place : ∀ s m t, Inv s → move s m = some t → ∀ j, place t j = place s j ∨
    (place s j = .entering ∧ place t j = .inside) ∨ (place s j = .leaving ∧ place t j = .outside)

/-- What each client does in a section: a list of accesses to the memory, which compute with
the client's registers. A client in shared mode only reads. -/
structure Program (mode : C → Mode) (σ ρ : Type) where
  start : ρ
  body : C → List (σ × ρ → σ × ρ)
  reads : ∀ k, mode k = .shared → ∀ f ∈ body k, ∀ x, (f x).1 = x.1

namespace Program

variable {mode : C → Mode} (p : Program mode σ ρ)

def exec (fs : List (σ × ρ → σ × ρ)) (m : σ) : σ × ρ := fs.foldl (fun x f => f x) (m, p.start)

def serial (m : σ) (es : List C) : σ := es.foldl (fun m k => (p.exec (p.body k) m).1) m

theorem serial_snoc (m : σ) (es : List C) (k : C) :
    p.serial m (es ++ [k]) = (p.exec (p.body k) (p.serial m es)).1 := by
  simp [serial]

theorem exec_succ {k : C} {n : Nat} {f : σ × ρ → σ × ρ} (hf : (p.body k)[n]? = some f) (m : σ) :
    p.exec ((p.body k).take (n + 1)) m = f (p.exec ((p.body k).take n) m) := by
  simp [exec, List.take_add_one, hf]

theorem exec_shared {k : C} (hk : mode k = .shared) (m : σ) : (p.exec (p.body k) m).1 = m := by
  suffices h : ∀ (fs : List (σ × ρ → σ × ρ)) (x : σ × ρ),
      (∀ f ∈ fs, ∀ x, (f x).1 = x.1) →
      (fs.foldl (fun x f => f x) x).1 = x.1 from h (p.body k) (m, p.start) (p.reads k hk)
  intro fs
  induction fs with
  | nil => intro x _; rfl
  | cons f fs ih =>
    intro x hfs
    rw [List.foldl_cons, ih (f x) fun g hg => hfs g (List.mem_cons_of_mem f hg)]
    exact hfs f List.mem_cons_self x

end Program

inductive Pc (ρ : Type) where
  | head
  | entering
  | inside (n : Nat) (r : ρ)
  | leaving
  deriving DecidableEq, Repr

variable {mode : C → Mode}

structure State (G : Guard mode) (σ ρ : Type) where
  guard : G.State
  mem : σ
  pc : C → Pc ρ
  rounds : C → Nat

variable {G : Guard mode}

def init (G : Guard mode) (m : σ) : State G σ ρ where
  guard := G.init
  mem := m
  pc _ := .head
  rounds _ := 0

inductive Act (G : Guard mode) where
  | begin (k : C)
  | advance (k : C)
  | move (m : G.Move)

def PlaceAt : Pc ρ → Place → Prop
  | .head, w => w = .outside
  | .entering, w => w = .entering ∨ w = .inside
  | .inside _ _, w => w = .inside
  | .leaving, w => w = .leaving ∨ w = .outside

/-- The sections that have ended, in their order, explain the memory and the registers. -/
structure Serial (p : Program mode σ ρ) (m : σ) (es : List C) (s : State G σ ρ) : Prop where
  guard : G.Inv s.guard
  place : ∀ k, PlaceAt (s.pc k) (G.place s.guard k)
  inside : ∀ k n r, s.pc k = .inside n r → (s.mem, r) = p.exec ((p.body k).take n) (p.serial m es)
  still : (∀ k n r, s.pc k = .inside n r → mode k = .shared) → s.mem = p.serial m es

variable {p : Program mode σ ρ} {nRound : Nat} {m : σ} {es : List C} {s t : State G σ ρ} {a : Act G}
  {j k : C} {n : Nat} {r : ρ}

theorem serial_init (p : Program mode σ ρ) (m : σ) : Serial p m [] (init G m : State G σ ρ) where
  guard := G.inv_init
  place := G.place_init
  inside k n r h := by cases h
  still _ := rfl

theorem Serial.place_inside (h : Serial p m es s) (hj : s.pc j = .inside n r) :
    G.place s.guard j = .inside := by
  simpa [PlaceAt, hj] using h.place j

theorem Serial.shared (h : Serial p m es s) (hj : s.pc j = .inside n r)
    (hk : G.place s.guard k = .inside) (hjk : j ≠ k) : mode j = .shared ∧ mode k = .shared := by
  have hpj := h.place_inside hj
  constructor
  · cases hm : mode j with
    | shared => rfl
    | exclusive => exact absurd (G.alone _ j k h.guard hpj hk hm) hjk
  · cases hm : mode k with
    | shared => rfl
    | exclusive => exact absurd (G.alone _ k j h.guard hk hpj hm).symm hjk

theorem placeAt_move {q : Pc ρ} {w w' : Place} (h : PlaceAt q w)
    (hw : w' = w ∨ (w = .entering ∧ w' = .inside) ∨ (w = .leaving ∧ w' = .outside)) :
    PlaceAt q w' := by
  obtain rfl | ⟨rfl, rfl⟩ | ⟨rfl, rfl⟩ := hw
  · exact h
  · cases q <;> simp [PlaceAt] at h ⊢
  · cases q <;> simp [PlaceAt] at h ⊢

theorem serial_move {mv : G.Move} {g : G.State} (h : Serial p m es s) (hg : G.move s.guard mv = some g) :
    Serial p m es { s with guard := g } where
  guard := G.inv_move _ _ _ h.guard hg
  place k := placeAt_move (h.place k) (G.move_place _ _ _ h.guard hg k)
  inside := h.inside
  still := h.still

variable [DecidableEq C]

def State.goto (s : State G σ ρ) (k : C) (p : Pc ρ) : State G σ ρ :=
  { s with pc := Function.update s.pc k p }

@[simp] theorem pc_goto (s : State G σ ρ) (k : C) (p : Pc ρ) : (s.goto k p).pc k = p :=
  Function.update_self _ _ _

theorem pc_goto_ne (s : State G σ ρ) {j k : C} (p : Pc ρ) (h : j ≠ k) :
    (s.goto k p).pc j = s.pc j := Function.update_of_ne h _ _

def step (p : Program mode σ ρ) (nRound : Nat) (s : State G σ ρ) : Act G → Option (State G σ ρ)
  | .begin k =>
    match s.pc k with
    | .head =>
      if s.rounds k < nRound then
        (G.enter s.guard k).map fun g => { s with guard := g }.goto k .entering
      else none
    | _ => none
  | .advance k =>
    match s.pc k with
    | .head => none
    | .entering => when (G.place s.guard k = .inside) (s.goto k (.inside 0 p.start))
    | .inside n r =>
      match (p.body k)[n]? with
      | some f =>
        some ({ s with mem := (f (s.mem, r)).1 }.goto k (.inside (n + 1) (f (s.mem, r)).2))
      | none => (G.leave s.guard k).map fun g => { s with guard := g }.goto k .leaving
    | .leaving =>
      when (G.place s.guard k = .outside)
        ({ s with rounds := Function.update s.rounds k (s.rounds k + 1) }.goto k .head)
  | .move m => (G.move s.guard m).map fun g => { s with guard := g }

/-- The sections in the order in which they end, with the call that unlocks. -/
def emit (p : Program mode σ ρ) (s : State G σ ρ) : Act G → Option C
  | .advance k =>
    match s.pc k with
    | .inside n _ => if (p.body k).length ≤ n then some k else none
    | _ => none
  | _ => none

theorem serial_goto (h : Serial p m es s) {u : State G σ ρ} {q : Pc ρ} (hu : G.Inv u.guard)
    (hmem : u.mem = s.mem) (hpc : u.pc = s.pc)
    (hother : ∀ j, j ≠ k → G.place u.guard j = G.place s.guard j) (hk : PlaceAt q (G.place u.guard k))
    (hs : ∀ n r, s.pc k ≠ .inside n r) (hq : ∀ n r, q ≠ .inside n r) :
    Serial p m es (u.goto k q) where
  guard := hu
  place j := by
    by_cases hj : j = k
    · subst hj
      rwa [pc_goto]
    · rw [pc_goto_ne u q hj, hpc]
      exact (hother j hj).symm ▸ h.place j
  inside j n r hj := by
    by_cases hjk : j = k
    · subst hjk
      rw [pc_goto] at hj
      exact absurd hj (hq n r)
    · rw [pc_goto_ne u q hjk, hpc] at hj
      exact hmem.symm ▸ h.inside j n r hj
  still hsh := by
    refine hmem.trans (h.still fun j n r hj => hsh j n r ?_)
    have hjk : j ≠ k := by
      rintro rfl
      exact hs n r hj
    rwa [pc_goto_ne u q hjk, hpc]

theorem serial_enter (h : Serial p m es s) (hk : G.place s.guard k = .inside)
    (hs : ∀ n r, s.pc k ≠ .inside n r) : Serial p m es (s.goto k (.inside 0 p.start)) := by
  have hne : ∀ j n r, s.pc j = .inside n r → j ≠ k := by
    rintro j n r hj rfl
    exact hs n r hj
  have hmem : s.mem = p.serial m es :=
    h.still fun j n r hj => (h.shared hj hk (hne j n r hj)).1
  refine ⟨h.guard, fun j => ?_, fun j n r hj => ?_, fun _ => hmem⟩
  · by_cases hjk : j = k
    · subst hjk
      rw [pc_goto]
      exact hk
    · rw [pc_goto_ne s _ hjk]
      exact h.place j
  · by_cases hjk : j = k
    · subst hjk
      rw [pc_goto] at hj
      cases hj
      simp [Program.exec, State.goto, hmem]
    · rw [pc_goto_ne s _ hjk] at hj
      exact h.inside j n r hj

theorem serial_access {f : σ × ρ → σ × ρ} (h : Serial p m es s) (hk : s.pc k = .inside n r)
    (hf : (p.body k)[n]? = some f) :
    Serial p m es ({ s with mem := (f (s.mem, r)).1 }.goto k (.inside (n + 1) (f (s.mem, r)).2)) := by
  have hpk := h.place_inside hk
  have hsame : mode k = .shared → (f (s.mem, r)).1 = s.mem := fun hm =>
    p.reads k hm f (List.mem_of_getElem? hf) (s.mem, r)
  refine ⟨h.guard, fun j => ?_, fun j n' r' hj => ?_, fun hsh => ?_⟩
  · by_cases hjk : j = k
    · subst hjk
      rw [pc_goto]
      exact hpk
    · rw [pc_goto_ne _ _ hjk]
      exact h.place j
  · by_cases hjk : j = k
    · subst hjk
      rw [pc_goto] at hj
      cases hj
      rw [p.exec_succ hf, ← h.inside j n r hk]
      rfl
    · rw [pc_goto_ne _ _ hjk] at hj
      have hm := (h.shared hj hpk hjk).2
      rw [← h.inside j n' r' hj]
      exact congrArg (·, r') (hsame hm)
  · have hm : mode k = .shared := hsh k (n + 1) (f (s.mem, r)).2 (pc_goto ..)
    refine (hsame hm).trans (h.still fun j n' r' hj => ?_)
    by_cases hjk : j = k
    · exact hjk ▸ hm
    · exact hsh j n' r' (by rwa [pc_goto_ne _ _ hjk])

theorem serial_leave {g : G.State} (h : Serial p m es s) (hk : s.pc k = .inside n r)
    (hn : (p.body k).length ≤ n) (hg : G.leave s.guard k = some g) :
    Serial p m (es ++ [k]) ({ s with guard := g }.goto k .leaving) := by
  obtain ⟨hpk, hleft, hother⟩ := G.leave_place _ _ _ hg
  have hend : (s.mem, r) = p.exec (p.body k) (p.serial m es) := by
    rw [h.inside k n r hk, List.take_of_length_le hn]
  have hmem : s.mem = p.serial m (es ++ [k]) := by
    rw [p.serial_snoc, ← hend]
  refine ⟨G.inv_leave _ _ _ h.guard hg, fun j => ?_, fun j n' r' hj => ?_, fun _ => hmem⟩
  · by_cases hjk : j = k
    · subst hjk
      rw [pc_goto]
      exact hleft
    · rw [pc_goto_ne _ _ hjk]
      exact (hother j hjk).symm ▸ h.place j
  · have hjk : j ≠ k := by
      rintro rfl
      simp at hj
    rw [pc_goto_ne _ _ hjk] at hj
    have hm := (h.shared hj hpk hjk).2
    have hser : p.serial m (es ++ [k]) = p.serial m es := by
      rw [p.serial_snoc, p.exec_shared hm]
    rw [hser]
    exact h.inside j n' r' hj

theorem serial_step (h : Serial p m es s) (ht : step p nRound s a = some t) :
    Serial p m (es ++ (emit p s a).toList) t := by
  cases a with
  | begin k =>
    have he : es ++ (emit p s (.begin k)).toList = es := by simp [emit]
    rw [he]
    cases hpc : s.pc k with
    | head =>
      simp only [step, hpc] at ht
      split_ifs at ht
      obtain ⟨g, hg, rfl⟩ := Option.map_eq_some_iff.mp ht
      obtain ⟨-, hin, hother⟩ := G.enter_place _ _ _ hg
      exact serial_goto h (G.inv_enter _ _ _ h.guard hg) rfl rfl hother hin (by simp [hpc]) (by simp)
    | _ => simp [step, hpc] at ht
  | move mv =>
    have he : es ++ (emit p s (.move mv)).toList = es := by simp [emit]
    rw [he]
    obtain ⟨g, hg, rfl⟩ := Option.map_eq_some_iff.mp ht
    exact serial_move h hg
  | advance k =>
    simp only [step] at ht
    cases hpc : s.pc k with
    | head => simp [hpc] at ht
    | entering =>
      simp only [hpc, when_eq_some] at ht
      obtain ⟨hk, rfl⟩ := ht
      simpa [emit, hpc] using serial_enter h hk (by simp [hpc])
    | inside n r =>
      cases hf : (p.body k)[n]? with
      | some f =>
        simp only [hpc, hf, Option.some.injEq] at ht
        subst ht
        have hlt : ¬ (p.body k).length ≤ n := Nat.not_le.mpr (List.getElem?_eq_some_iff.mp hf).1
        simpa [emit, hpc, hlt] using serial_access h hpc hf
      | none =>
        simp only [hpc, hf] at ht
        obtain ⟨g, hg, rfl⟩ := Option.map_eq_some_iff.mp ht
        have hle : (p.body k).length ≤ n := List.getElem?_eq_none_iff.mp hf
        simpa [emit, hpc, hle] using serial_leave h hpc hle hg
    | leaving =>
      simp only [hpc, when_eq_some] at ht
      obtain ⟨hk, rfl⟩ := ht
      have hround : Serial p m es { s with rounds := Function.update s.rounds k (s.rounds k + 1) } :=
        ⟨h.guard, h.place, h.inside, h.still⟩
      have hg : Serial p m es
          ({ s with rounds := Function.update s.rounds k (s.rounds k + 1) }.goto k .head) :=
        serial_goto hround hround.guard rfl rfl (fun _ _ => rfl) hk (by simp [hpc]) (by simp)
      simpa [emit, hpc] using hg

/-- Every run is explained by the sections one after another, in the order of their ends. -/
theorem serial_run {as : List (Act G)} (h : run (step p nRound) (init G m) as = some s) :
    Serial p m (trace (step p nRound) (emit p) (init G m) as) s := by
  simpa using trace_invariant (emit p) (Serial p m) (fun _ _ _ _ => serial_step) h (serial_init p m)

def Pc.left : Pc ρ → Nat
  | .leaving => 1
  | _ => 0

structure Counted (nRound : Nat) (es : List C) (s : State G σ ρ) : Prop where
  count : ∀ k, es.count k = s.rounds k + (s.pc k).left
  head : ∀ k, s.pc k = .head → s.rounds k ≤ nRound
  busy : ∀ k, s.pc k ≠ .head → s.rounds k < nRound

theorem counted_init (nRound : Nat) : Counted nRound [] (init G m : State G σ ρ) where
  count _ := rfl
  head _ _ := Nat.zero_le nRound
  busy _ h := absurd rfl h

theorem counted_goto (h : Counted nRound es s) {u : State G σ ρ} {q : Pc ρ} {es' : List C}
    (hpc : u.pc = s.pc) (hrounds : ∀ j, j ≠ k → u.rounds j = s.rounds j)
    (hes : ∀ j, j ≠ k → es'.count j = es.count j) (hcount : es'.count k = u.rounds k + q.left)
    (hle : u.rounds k ≤ nRound) (hlt : q ≠ .head → u.rounds k < nRound) :
    Counted nRound es' (u.goto k q) := by
  refine ⟨fun j => ?_, fun j => ?_, fun j => ?_⟩ <;> by_cases hj : j = k
  · subst hj
    rw [pc_goto]
    exact hcount
  · rw [pc_goto_ne u q hj, hes j hj, hpc]
    exact (hrounds j hj).symm ▸ h.count j
  · subst hj
    exact fun _ => hle
  · rw [pc_goto_ne u q hj, hpc]
    exact (hrounds j hj).symm ▸ h.head j
  · subst hj
    rw [pc_goto]
    exact hlt
  · rw [pc_goto_ne u q hj, hpc]
    exact (hrounds j hj).symm ▸ h.busy j

theorem counted_step (h : Counted nRound es s) (ht : step p nRound s a = some t) :
    Counted nRound (es ++ (emit p s a).toList) t := by
  cases a with
  | begin k =>
    have hcount := h.count k
    cases hpc : s.pc k with
    | head =>
      simp only [step, hpc] at ht
      split_ifs at ht with hlt
      obtain ⟨g, hg, rfl⟩ := Option.map_eq_some_iff.mp ht
      rw [hpc] at hcount
      exact counted_goto h rfl (fun _ _ => rfl) (by simp [emit]) (by simpa [emit, Pc.left] using hcount)
        (Nat.le_of_lt hlt) fun _ => hlt
    | _ => simp [step, hpc] at ht
  | move mv =>
    obtain ⟨g, hg, rfl⟩ := Option.map_eq_some_iff.mp ht
    simpa [emit] using (⟨h.count, h.head, h.busy⟩ : Counted nRound es { s with guard := g })
  | advance k =>
    have hcount := h.count k
    have hbusy := h.busy k
    simp only [step] at ht
    cases hpc : s.pc k with
    | head => simp [hpc] at ht
    | entering =>
      simp only [hpc, when_eq_some] at ht
      obtain ⟨-, rfl⟩ := ht
      rw [hpc] at hcount hbusy
      have hlt := hbusy (by simp)
      exact counted_goto h rfl (fun _ _ => rfl) (by simp [emit, hpc])
        (by simpa [emit, hpc, Pc.left] using hcount) (Nat.le_of_lt hlt) fun _ => hlt
    | inside n r =>
      rw [hpc] at hcount hbusy
      have hlt := hbusy (by simp)
      cases hf : (p.body k)[n]? with
      | some f =>
        simp only [hpc, hf, Option.some.injEq] at ht
        subst ht
        have hn : ¬ (p.body k).length ≤ n := Nat.not_le.mpr (List.getElem?_eq_some_iff.mp hf).1
        exact counted_goto h rfl (fun _ _ => rfl) (by simp [emit, hpc, hn])
          (by simpa [emit, hpc, hn, Pc.left] using hcount) (Nat.le_of_lt hlt) fun _ => hlt
      | none =>
        simp only [hpc, hf] at ht
        obtain ⟨g, hg, rfl⟩ := Option.map_eq_some_iff.mp ht
        have hn : (p.body k).length ≤ n := List.getElem?_eq_none_iff.mp hf
        refine counted_goto h rfl (fun _ _ => rfl) (fun j hj => ?_) ?_ (Nat.le_of_lt hlt) fun _ => hlt
        · simp [emit, hpc, hn, Ne.symm hj]
        · simpa [emit, hpc, hn, Pc.left] using hcount
    | leaving =>
      simp only [hpc, when_eq_some] at ht
      obtain ⟨-, rfl⟩ := ht
      rw [hpc] at hcount hbusy
      have hlt := hbusy (by simp)
      refine counted_goto h rfl (fun j hj => Function.update_of_ne hj _ _) (by simp [emit, hpc]) ?_ ?_
        (by simp)
      · simpa [emit, hpc, Pc.left] using hcount
      · simpa [Nat.succ_le_iff] using hlt

theorem counted_run {as : List (Act G)} (h : run (step p nRound) (init G m) as = some s) :
    Counted nRound (trace (step p nRound) (emit p) (init G m) as) s := by
  simpa using trace_invariant (emit p) (Counted nRound) (fun _ _ _ _ => counted_step) h
    (counted_init nRound)

theorem Counted.length [Fintype C] (h : Counted nRound es s) :
    es.length = ∑ k, (s.rounds k + (s.pc k).left) := by
  have hsum := Multiset.sum_count_eq_card (s := Finset.univ) (m := (es : Multiset C))
    fun k _ => Finset.mem_univ k
  simp only [Multiset.coe_count, Multiset.coe_card] at hsum
  rw [← hsum]
  exact Finset.sum_congr rfl fun k _ => h.count k

end LibCoro.Sections
