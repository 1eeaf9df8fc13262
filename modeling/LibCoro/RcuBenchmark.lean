import LibCoro.MutexLock
import LibCoro.RcuGrace

namespace LibCoro.RcuBenchmark

open Machine Grace

inductive Pc where
  | idle
  | locking
  | flipped
  | filled (newp : Bool)
  | loaded (newp oldp : Bool)
  | assigned (oldp : Bool)
  | synchronizing (oldp : Bool)
  | synchronized (oldp : Bool)
  | cleared
  deriving DecidableEq, Repr

variable {C : Type} {M : Lock C}

/-- `rcuData` has the field `a` of the two objects; a reader has its `p` and the value that it
asserts to be 8. -/
structure State (M : Lock C) where
  lock : M.State
  rcuData : Bool → Nat
  cur : Bool
  gp : Bool
  pc : C → Pc
  reading : C → Option (Bool × Option Nat)
  custody : Custody C Bool

/-- `volatile test_obj rcu_data[2] = {8, 0x3fffffff}`, `gp = &rcu_data[0]`. -/
def init (M : Lock C) : State M where
  lock := M.init
  rcuData slot := if slot then 0x3fffffff else 8
  cur := false
  gp := false
  pc _ := .idle
  reading _ := none
  custody := ⟨fun slot => if slot then .free else .used, fun _ => ∅⟩

inductive Act (M : Lock C) where
  | coLock (k : C)
  | move (m : M.Move)
  | flip (k : C)
  | fill (k : C)
  | load (k : C)
  | assign (k : C)
  | clear (k : C)
  | unlock (k : C)
  | dereference (r : C)
  | read (r : C)

def Act.actor : Act M → Option C
  | .coLock k | .flip k | .fill k | .load k | .assign k | .clear k | .unlock k => some k
  | .dereference r | .read r => some r
  | .move _ => none

variable [DecidableEq C]

def State.goto (s : State M) (k : C) (p : Pc) : State M := { s with pc := Function.update s.pc k p }

@[simp] theorem pc_goto (s : State M) (k : C) (p : Pc) : (s.goto k p).pc k = p :=
  Function.update_self _ _ _

theorem pc_goto_ne (s : State M) {j k : C} (p : Pc) (h : j ≠ k) : (s.goto k p).pc j = s.pc j :=
  Function.update_of_ne h _ _

def State.write (s : State M) (slot : Bool) (v : Nat) : State M :=
  { s with rcuData := Function.update s.rcuData slot v }

def State.assign (inside : C → Bool) (s : State M) (k : C) (newp oldp : Bool) : State M :=
  { s with
    gp := newp
    custody := { s.custody with phase := Function.update s.custody.phase newp .used }.retire inside k oldp }

def State.release (s : State M) (oldp : Bool) : State M :=
  { s with custody := { s.custody with phase := Function.update s.custody.phase oldp .free } }

def act (inside : C → Bool) (s : State M) : Act M → Option (State M)
  | .coLock k =>
    if s.pc k = .idle then (M.coLock s.lock k).map fun l => { s.goto k .locking with lock := l }
    else none
  | .move m => (M.move s.lock m).map fun l => { s with lock := l }
  | .flip k =>
    when (s.pc k = .locking ∧ M.status s.lock k = .holding) ({ s with cur := !s.cur }.goto k .flipped)
  | .fill k => when (s.pc k = .flipped) ((s.write s.cur 8).goto k (.filled s.cur))
  | .load k =>
    match s.pc k with
    | .filled newp => some (s.goto k (.loaded newp s.gp))
    | _ => none
  | .assign k =>
    match s.pc k with
    | .loaded newp oldp => some ((s.assign inside k newp oldp).goto k (.assigned oldp))
    | _ => none
  | .clear k =>
    match s.pc k with
    | .synchronized oldp => some (((s.write oldp 0).release oldp).goto k .cleared)
    | _ => none
  | .unlock k =>
    if s.pc k = .cleared then (M.unlock s.lock k).map fun l => { s.goto k .idle with lock := l }
    else none
  | .dereference r =>
    when (inside r) { s with reading := Function.update s.reading r (some (s.gp, none)) }
  | .read r =>
    (s.reading r).map fun (p, _) =>
      { s with reading := Function.update s.reading r (some (p, some (s.rcuData p))) }

/-- The call of `synchronize_rcu` behind the assignment, and its return. -/
def Pc.hear (k : C) : Pc → Event C → Pc
  | .assigned q, .begin j => if j = k then .synchronizing q else .assigned q
  | .synchronizing q, .finish j => if j = k then .synchronized q else .synchronizing q
  | p, _ => p

/-- What a reader got does not outlive its section. -/
def hear (s : State M) (e : Event C) : State M :=
  { s with
    pc := fun k => (s.pc k).hear k e
    reading := fun r => if e = .enter r ∨ e = .leave r then none else s.reading r
    custody := s.custody.hear e }

def client (M : Lock C) : Client C (State M) (Act M) where
  actor := Act.actor
  act := act
  hear := hear

def Pc.Critical : Pc → Prop
  | .idle | .locking => False
  | _ => True

def Spare (s : State M) (cur : Bool) : Prop := s.cur = cur ∧ s.custody.phase (!s.gp) = .free

/-- What the place of the writer `k` says about the slots. -/
def Stage (s : State M) (k : C) : Pc → Prop
  | .idle | .locking => True
  | .flipped => Spare s (!s.gp)
  | .filled newp => Spare s (!s.gp) ∧ newp = !s.gp ∧ s.rcuData newp = 8
  | .loaded newp oldp => Spare s (!s.gp) ∧ newp = !s.gp ∧ s.rcuData newp = 8 ∧ oldp = s.gp
  | .assigned oldp => s.cur = s.gp ∧ oldp = !s.gp ∧ s.custody.phase oldp = .removed k
  | .synchronizing oldp => s.cur = s.gp ∧ oldp = !s.gp ∧ s.custody.phase oldp = .covered k
  | .synchronized oldp => s.cur = s.gp ∧ oldp = !s.gp ∧ s.custody.phase oldp = .passed k
  | .cleared => Spare s s.gp

structure Inv (g : Grace.State C) (s : State M) : Prop where
  custody : Custody.Inv g s.custody
  lock : M.Inv s.lock
  used : s.custody.phase s.gp = .used
  eight : s.rcuData s.gp = 8
  critical : ∀ k, (s.pc k).Critical → M.status s.lock k = .holding
  rest : (∀ k, ¬ (s.pc k).Critical) → Spare s s.gp
  stage : ∀ k, Stage s k (s.pc k)
  inside : ∀ r p v, s.reading r = some (p, v) → r ∈ g.inside
  reading : ∀ r p v, s.reading r = some (p, v) → (p = s.gp ∨ p ∈ s.custody.gone r) ∧
    s.rcuData p = 8 ∧ ∀ x ∈ v, x = 8

variable {g : Grace.State C} {s t : State M}

omit [DecidableEq C] in
theorem inv_init : Inv g (init M) where
  custody := Custody.inv_init _
  lock := M.inv_init
  used := rfl
  eight := rfl
  critical _ h := h.elim
  rest _ := ⟨rfl, rfl⟩
  stage _ := trivial
  inside _ _ _ h := by cases h
  reading _ _ _ h := by cases h

omit [DecidableEq C] in
theorem Inv.alone (h : Inv g s) {j k : C} (hk : M.status s.lock k = .holding) (hj : j ≠ k) :
    ¬ (s.pc j).Critical := fun hc => hj (M.exclusive s.lock j k h.lock (.inl (h.critical j hc)) (.inl hk))

omit [DecidableEq C] in
theorem stage_of_not_critical {k : C} {p : Pc} (hp : ¬ p.Critical) : Stage s k p := by
  cases p <;> first | trivial | exact absurd trivial hp

omit [DecidableEq C] in
theorem stage_congr {u : State M} {k : C} {p : Pc} (hcur : u.cur = s.cur) (hgp : u.gp = s.gp)
    (hdata : u.rcuData = s.rcuData) (hphase : u.custody.phase = s.custody.phase) (h : Stage s k p) :
    Stage u k p := by
  cases p <;> simp only [Stage, Spare, hcur, hgp, hdata, hphase] at h ⊢ <;> exact h

theorem Inv.goto (h : Inv g s) {k : C} {c : Pc} {u : State M} (hk : M.status s.lock k = .holding)
    (hlock : u.lock = s.lock) (hpc : u.pc = s.pc) (hread : u.reading = s.reading)
    (hc : c.Critical) (hstage : Stage u k c) (hcustody : Custody.Inv g u.custody)
    (hused : u.custody.phase u.gp = .used) (height : u.rcuData u.gp = 8)
    (hreading : ∀ r p v, s.reading r = some (p, v) → (p = u.gp ∨ p ∈ u.custody.gone r) ∧
      u.rcuData p = 8) : Inv g (u.goto k c) where
  custody := hcustody
  lock := hlock.symm ▸ h.lock
  used := hused
  eight := height
  critical j hj := by
    by_cases hjk : j = k
    · subst hjk
      exact hlock.symm ▸ hk
    · rw [pc_goto_ne u c hjk, hpc] at hj
      exact absurd hj (h.alone hk hjk)
  rest hno := absurd ((pc_goto u k c).symm ▸ hc) (hno k)
  stage j := by
    by_cases hjk : j = k
    · subst hjk
      rw [pc_goto]
      exact stage_congr rfl rfl rfl rfl hstage
    · rw [pc_goto_ne u c hjk, hpc]
      exact stage_of_not_critical (h.alone hk hjk)
  inside r p v hr := h.inside r p v (hread ▸ hr)
  reading r p v hr := by
    have hr' : s.reading r = some (p, v) := hread ▸ hr
    obtain ⟨hp, hd⟩ := hreading r p v hr'
    exact ⟨hp, hd, (h.reading r p v hr').2.2⟩

theorem Inv.away (h : Inv g s) {k : C} {c : Pc} {l : M.State} (hl : M.Inv l) (hc : ¬ c.Critical)
    (hkeep : ∀ j, j ≠ k → M.status s.lock j = .holding → M.status l j = .holding)
    (hrest : (∀ j, j ≠ k → ¬ (s.pc j).Critical) → Spare s s.gp) :
    Inv g { s.goto k c with lock := l } where
  custody := h.custody
  lock := hl
  used := h.used
  eight := h.eight
  critical j hj := by
    have hjk : j ≠ k := by
      rintro rfl
      exact hc ((pc_goto s j c) ▸ hj)
    have hj' : (s.pc j).Critical := (pc_goto_ne s c hjk) ▸ hj
    exact hkeep j hjk (h.critical j hj')
  rest hno := hrest fun j hj => (pc_goto_ne s c hj) ▸ hno j
  stage j := by
    by_cases hjk : j = k
    · subst hjk
      exact stage_of_not_critical ((pc_goto s j c).symm ▸ hc)
    · have hs := h.stage j
      rw [← pc_goto_ne s c hjk] at hs
      exact stage_congr rfl rfl rfl rfl hs
  inside := h.inside
  reading := h.reading

omit [DecidableEq C] in
theorem Inv.reading_ne (h : Inv g s) {r : C} {p x : Bool} {v : Option Nat}
    (hr : s.reading r = some (p, v))
    (hx : s.custody.phase x = .free ∨ ∃ k, s.custody.phase x = .passed k) :
    p ≠ x := by
  rintro rfl
  rcases (h.reading r p v hr).1 with rfl | hp
  · rw [h.used] at hx
    simp at hx
  · obtain ⟨k, hk | ⟨hk, -⟩⟩ := h.custody.ahead r p hp <;> rw [hk] at hx <;> simp at hx

theorem Inv.look (h : Inv g s) {r : C} {p : Bool} {v : Option Nat} (hr : r ∈ g.inside)
    (hp : p = s.gp ∨ p ∈ s.custody.gone r) (hd : s.rcuData p = 8) (hv : ∀ x ∈ v, x = 8) :
    Inv g { s with reading := Function.update s.reading r (some (p, v)) } where
  custody := h.custody
  lock := h.lock
  used := h.used
  eight := h.eight
  critical := h.critical
  rest := h.rest
  stage k := stage_congr rfl rfl rfl rfl (h.stage k)
  inside j q w hj := by
    by_cases hjr : j = r
    · exact hjr ▸ hr
    · exact h.inside j q w (by simpa [hjr] using hj)
  reading j q w hj := by
    by_cases hjr : j = r
    · simp only [hjr, Function.update_self, Option.some.injEq, Prod.mk.injEq] at hj
      obtain ⟨rfl, rfl⟩ := hj
      exact ⟨hjr ▸ hp, hd, hv⟩
    · exact h.reading j q w (by simpa [hjr] using hj)

theorem Inv.assign {k : C} {newp oldp : Bool} (h : Inv g s) (hk : s.pc k = .loaded newp oldp) :
    Inv g ((s.assign (fun r => decide (r ∈ g.inside)) k newp oldp).goto k (.assigned oldp)) := by
  have hs : M.status s.lock k = .holding := h.critical k (by rw [hk]; trivial)
  have hst := h.stage k
  rw [hk] at hst
  obtain ⟨⟨hcur, hfree⟩, rfl, height, rfl⟩ := hst
  have hne : s.gp ≠ !s.gp := (Bool.not_ne_self s.gp).symm
  have hu := h.custody.update (a := !s.gp) .used fun j => by simp [hfree]
  have hgp : Function.update s.custody.phase (!s.gp) .used s.gp = .used :=
    (Function.update_of_ne hne _ _).trans h.used
  refine h.goto (u := s.assign _ k (!s.gp) s.gp) hs rfl rfl rfl trivial ⟨hcur, ?_, ?_⟩
    (Custody.inv_retire hu hgp) ?_ height fun r p v hr => ⟨?_, (h.reading r p v hr).2.1⟩
  · exact (Bool.not_not s.gp).symm
  · exact Function.update_self _ _ _
  · exact (Function.update_of_ne hne.symm _ _).trans (Function.update_self _ _ _)
  · have hin : decide (r ∈ g.inside) = true := decide_eq_true (h.inside r p v hr)
    refine .inr ?_
    simp only [State.assign, Custody.retire, hin, if_true]
    exact Finset.mem_insert.mpr (h.reading r p v hr).1

theorem Inv.clear {k : C} {oldp : Bool} (h : Inv g s) (hk : s.pc k = .synchronized oldp) :
    Inv g (((s.write oldp 0).release oldp).goto k .cleared) := by
  have hs : M.status s.lock k = .holding := h.critical k (by rw [hk]; trivial)
  have hst := h.stage k
  rw [hk] at hst
  obtain ⟨hcur, rfl, hpassed⟩ := hst
  have hne : s.gp ≠ !s.gp := (Bool.not_ne_self s.gp).symm
  refine h.goto (u := (s.write (!s.gp) 0).release (!s.gp)) hs rfl rfl rfl trivial ⟨hcur, ?_⟩
    (h.custody.update .free fun j => by simp [hpassed]) ?_ ?_ fun r p v hr => ⟨?_, ?_⟩
  · exact Function.update_self _ _ _
  · exact (Function.update_of_ne hne _ _).trans h.used
  · exact (Function.update_of_ne hne _ _).trans h.eight
  · exact (h.reading r p v hr).1
  · have hp : p ≠ !s.gp := h.reading_ne hr (.inr ⟨k, hpassed⟩)
    exact (Function.update_of_ne hp _ _).trans (h.reading r p v hr).2.1

theorem Inv.act (h : Inv g s) {a : Act M} (ha : act (fun r => decide (r ∈ g.inside)) s a = some t) :
    Inv g t := by
  cases a with
  | coLock k =>
    simp only [RcuBenchmark.act] at ha
    split_ifs at ha with hk
    obtain ⟨l, hl, rfl⟩ := Option.map_eq_some_iff.mp ha
    refine h.away (M.inv_coLock _ _ _ h.lock hl) id (fun j hj hs => ?_) fun hno => h.rest fun j => ?_
    · exact ((M.coLock_status _ _ _ hl).2.2 j hj).trans hs
    · by_cases hj : j = k
      · rw [hj, hk]
        exact id
      · exact hno j hj
  | move m =>
    obtain ⟨l, hl, rfl⟩ := Option.map_eq_some_iff.mp ha
    refine ⟨h.custody, M.inv_move _ _ _ h.lock hl, h.used, h.eight, fun k hk => ?_, h.rest, fun k => ?_,
      h.inside, h.reading⟩
    · have hs := h.critical k hk
      rcases M.move_status _ _ _ h.lock hl k with he | ⟨he, -⟩ | ⟨he, -⟩
      · exact he.trans hs
      · rw [hs] at he
        cases he
      · rw [hs] at he
        cases he
    · exact stage_congr rfl rfl rfl rfl (h.stage k)
  | flip k =>
    obtain ⟨⟨hk, hs⟩, rfl⟩ := (when_eq_some _ _ _).mp ha
    have hrest : Spare s s.gp := h.rest fun j => by
      by_cases hj : j = k
      · rw [hj, hk]
        exact id
      · exact h.alone hs hj
    exact h.goto hs rfl rfl rfl trivial ⟨congrArg (!·) hrest.1, hrest.2⟩ h.custody h.used h.eight
      fun r p v hr => ⟨(h.reading r p v hr).1, (h.reading r p v hr).2.1⟩
  | fill k =>
    obtain ⟨hk, rfl⟩ := (when_eq_some _ _ _).mp ha
    have hs : M.status s.lock k = .holding := h.critical k (by rw [hk]; trivial)
    have hst := h.stage k
    rw [hk] at hst
    obtain ⟨hcur, hfree⟩ := hst
    have hne : s.gp ≠ s.cur := by
      rw [hcur]
      exact (Bool.not_ne_self s.gp).symm
    refine h.goto (u := s.write s.cur 8) hs rfl rfl rfl trivial ⟨⟨hcur, hfree⟩, hcur, ?_⟩
      h.custody h.used ((Function.update_of_ne hne _ _).trans h.eight) fun r p v hr => ⟨(h.reading r p v hr).1, ?_⟩
    · exact Function.update_self _ _ _
    · have hp : p ≠ s.cur := h.reading_ne hr (.inl (hcur ▸ hfree))
      exact (Function.update_of_ne hp _ _).trans (h.reading r p v hr).2.1
  | load k =>
    simp only [RcuBenchmark.act] at ha
    cases hk : s.pc k with
    | filled newp =>
      simp only [hk, Option.some.injEq] at ha
      subst ha
      have hs : M.status s.lock k = .holding := h.critical k (by rw [hk]; trivial)
      have hst := h.stage k
      rw [hk] at hst
      exact h.goto hs rfl rfl rfl trivial ⟨hst.1, hst.2.1, hst.2.2, rfl⟩ h.custody h.used h.eight
        fun r p v hr => ⟨(h.reading r p v hr).1, (h.reading r p v hr).2.1⟩
    | _ => simp [hk] at ha
  | assign k =>
    simp only [RcuBenchmark.act] at ha
    cases hk : s.pc k with
    | loaded newp oldp =>
      simp only [hk, Option.some.injEq] at ha
      exact ha ▸ h.assign hk
    | _ => simp [hk] at ha
  | clear k =>
    simp only [RcuBenchmark.act] at ha
    cases hk : s.pc k with
    | synchronized oldp =>
      simp only [hk, Option.some.injEq] at ha
      exact ha ▸ h.clear hk
    | _ => simp [hk] at ha
  | unlock k =>
    simp only [RcuBenchmark.act] at ha
    split_ifs at ha with hk
    obtain ⟨l, hl, rfl⟩ := Option.map_eq_some_iff.mp ha
    refine h.away (M.inv_unlock _ _ _ h.lock hl) id (fun j hj hs => ?_) fun _ => ?_
    · exact ((M.unlock_status _ _ _ hl).2.2 j hj).trans hs
    · have hst := h.stage k
      rwa [hk] at hst
  | dereference r =>
    obtain ⟨hr, rfl⟩ := (when_eq_some _ _ _).mp ha
    exact h.look (of_decide_eq_true hr) (.inl rfl) h.eight (by simp)
  | read r =>
    obtain ⟨⟨p, v⟩, hr, rfl⟩ := Option.map_eq_some_iff.mp ha
    obtain ⟨hp, hd, -⟩ := h.reading r p v hr
    exact h.look (h.inside r p v hr) hp hd fun x hx => (Option.some.inj hx).symm.trans hd

theorem critical_hear (k : C) (p : Pc) (e : Event C) :
    (p.hear k e).Critical ↔ p.Critical := by
  unfold Pc.hear
  split <;> try split_ifs
  all_goals rfl

theorem spare_hear (e : Event C) {cur : Bool} (h : Spare s cur) : Spare (hear s e) cur :=
  ⟨h.1, by simp [hear, Custody.hear, Phase.hear, h.2]⟩

theorem stage_hear {k : C} {p : Pc} (e : Event C) (h : Stage s k p) :
    Stage (hear s e) k (p.hear k e) := by
  cases p with
  | idle | locking => trivial
  | flipped | cleared => exact spare_hear e h
  | filled newp => exact ⟨spare_hear e h.1, h.2⟩
  | loaded newp oldp => exact ⟨spare_hear e h.1, h.2⟩
  | assigned oldp =>
    obtain ⟨hcur, rfl, hq⟩ := h
    cases e with
    | begin j =>
      by_cases hj : j = k <;> simpa [hear, Pc.hear, hj, Stage, Custody.hear, hq, Phase.hear] using hcur
    | _ => simpa [hear, Pc.hear, Stage, Custody.hear, hq, Phase.hear] using hcur
  | synchronizing oldp =>
    obtain ⟨hcur, rfl, hq⟩ := h
    cases e with
    | finish j =>
      by_cases hj : j = k <;> simpa [hear, Pc.hear, hj, Stage, Custody.hear, hq, Phase.hear] using hcur
    | _ => simpa [hear, Pc.hear, Stage, Custody.hear, hq, Phase.hear] using hcur
  | synchronized oldp =>
    obtain ⟨hcur, rfl, hq⟩ := h
    exact ⟨hcur, rfl, by simp [hear, Custody.hear, hq, Phase.hear]⟩

theorem Inv.hear (h : Inv g s) {g' : Grace.State C} {e : Event C} (he : Grace.step g e = some g') :
    Inv g' (hear s e) := by
  have hr : ∀ r x, (RcuBenchmark.hear s e).reading r = some x →
      (e ≠ .enter r ∧ e ≠ .leave r) ∧ s.reading r = some x := by
    intro r x hx
    simp only [RcuBenchmark.hear] at hx
    split_ifs at hx with hcur
    exact ⟨not_or.mp hcur, hx⟩
  refine ⟨Custody.inv_hear h.custody he, h.lock, ?_, h.eight, fun k hk => ?_, fun hno => ?_,
    fun k => stage_hear e (h.stage k), fun r p v hx => ?_, fun r p v hx => ?_⟩
  · simp [RcuBenchmark.hear, Custody.hear, Phase.hear, h.used]
  · exact h.critical k ((critical_hear k _ e).mp hk)
  · exact spare_hear e (h.rest fun k hk => hno k ((critical_hear k _ e).mpr hk))
  · obtain ⟨⟨-, hl⟩, hx⟩ := hr r _ hx
    exact inside_of_step he (h.inside r p v hx) hl
  · obtain ⟨⟨hne, hnl⟩, hx⟩ := hr r _ hx
    obtain ⟨hp, hv⟩ := h.reading r p v hx
    refine ⟨hp.imp_right fun hp => ?_, hv⟩
    simp only [RcuBenchmark.hear, Custody.hear, if_neg (not_or.mpr ⟨hne, hnl⟩)]
    exact hp

theorem inv_step (p q : Grace.State C × State M) (x : Event C ⊕ Act M) (h : Inv p.1 p.2)
    (hq : (client M).step p x = some q) : Inv q.1 q.2 := by
  cases x with
  | inl e =>
    obtain ⟨g', hg, rfl⟩ := Option.map_eq_some_iff.mp hq
    exact h.hear hg
  | inr a =>
    obtain ⟨t, ht, rfl⟩ := Option.map_eq_some_iff.mp hq
    exact h.act ht

theorem inv_run {n : Nat} {heads : Rcu.Addr → Rcu.RcuHead} {pointers : Rcu.Addr → Rcu.Addr}
    {xs : List (Rcu.Act C ⊕ Act M)} {p : Rcu.State C × State M}
    (h : run (Rcu.withClient n (client M)) (Rcu.init heads pointers, init M) xs = some p)
    (hd : Meets (Rcu.step n) Rcu.Disciplined (Rcu.init heads pointers) (Rcu.rcuActs xs))
    (ht : Rcu.tickets (Rcu.rcuActs xs) < 2 ^ 64) : ∃ g, Inv g p.2 := by
  obtain ⟨g, hg, -⟩ := Rcu.client_run h hd ht
  exact ⟨g, run_invariant (fun p => Inv p.1 p.2) (fun p x q hp hq => inv_step p q x hp hq) hg inv_init⟩

/-- The `assert` of every reader holds, also when `gp` has left it behind: the slot it has still
contains 8, and neither `newp->a = 8` nor `oldp->a = 0` of a writer is about to hit that slot. -/
theorem readers_read_eight (n : Nat) (M : Lock C) (heads : Rcu.Addr → Rcu.RcuHead)
    (pointers : Rcu.Addr → Rcu.Addr) (xs : List (Rcu.Act C ⊕ Act M)) (p : Rcu.State C × State M)
    (r : C) (slot : Bool) (v : Option Nat)
    (h : run (Rcu.withClient n (client M)) (Rcu.init heads pointers, init M) xs = some p)
    (hd : Meets (Rcu.step n) Rcu.Disciplined (Rcu.init heads pointers) (Rcu.rcuActs xs))
    (ht : Rcu.tickets (Rcu.rcuActs xs) < 2 ^ 64) (hr : p.2.reading r = some (slot, v)) :
    p.2.rcuData slot = 8 ∧ (∀ x ∈ v, x = 8) ∧
      ∀ k, (p.2.pc k = .flipped → p.2.cur ≠ slot) ∧
        ∀ oldp, p.2.pc k = .synchronized oldp → oldp ≠ slot := by
  obtain ⟨g, hi⟩ := inv_run h hd ht
  obtain ⟨-, hdata, hv⟩ := hi.reading r slot v hr
  refine ⟨hdata, hv, fun k => ⟨fun hk => ?_, fun oldp hk => ?_⟩⟩
  · have hst := hi.stage k
    rw [hk] at hst
    rw [hst.1]
    exact (hi.reading_ne hr (.inl hst.2)).symm
  · have hst := hi.stage k
    rw [hk] at hst
    exact (hi.reading_ne hr (.inr ⟨k, hst.2.2⟩)).symm

theorem readers_read_eight_replaced :
    ∃ p : Rcu.State (Fin 2) × State (mutex : Lock (Fin 2)),
    run (Rcu.withClient 2 (client mutex)) (Rcu.init (fun _ => ⟨none, 0, 0⟩) id, init mutex)
      [.inl (.resume 0 0), .inl (.readLock 0), .inl (.advance 0), .inl (.advance 0),
        .inr (.dereference 0), .inl (.resume 1 1), .inr (.coLock 1), .inr (.flip 1), .inr (.fill 1),
        .inr (.load 1), .inr (.assign 1), .inl (.synchronize 1), .inr (.read 0)] = some p ∧
      p.2.gp = true ∧ p.2.reading 0 = some (false, some 8) ∧ p.2.rcuData false = 8 :=
  ⟨_, rfl, rfl, rfl, (readers_read_eight 2 mutex (fun _ => ⟨none, 0, 0⟩) id
    [.inl (.resume 0 0), .inl (.readLock 0), .inl (.advance 0), .inl (.advance 0),
      .inr (.dereference 0), .inl (.resume 1 1), .inr (.coLock 1), .inr (.flip 1), .inr (.fill 1),
      .inr (.load 1), .inr (.assign 1), .inl (.synchronize 1), .inr (.read 0)]
    _ 0 false (some 8) rfl (by decide) (by decide) rfl).1⟩

end LibCoro.RcuBenchmark
