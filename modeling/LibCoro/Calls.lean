import LibCoro.Machine
import LibCoro.Outcome

namespace LibCoro.Calls

open Machine Outcome

/-- The two class templates: `task<void>` and `task<T>`. -/
inductive Kind where
  | void
  | value
  deriving DecidableEq, Repr

/-- What a `co_await` of a task of this kind evaluates to. -/
abbrev Result (V : Type) : Kind → Type
  | .void => Unit
  | .value => V

/-- The rest of a task body: local steps `L`, child tasks, external awaitables `X` and
`co_return`. Local steps and awaitables answer with a value `V` of their own. -/
inductive Body (L X V : Type) : Kind → Type where
  | coReturn {k : Kind} (r : Result V k) : Body L X V k
  | localStep {k : Kind} (l : L) (rest : V → Body L X V k) : Body L X V k
  | coAwaitTask {k c : Kind} (child : Body L X V c) (rest : Result V c → Body L X V k) :
      Body L X V k
  | coAwait {k : Kind} (x : X) (rest : V → Body L X V k) : Body L X V k

inductive Event (L X V : Type) where
  | localStep (l : L) (v : V)
  | external (x : X) (v : V)
  deriving DecidableEq, Repr

variable {L X V : Type} {j k c : Kind}

def Event.answer : Event L X V → V
  | .localStep _ v | .external _ v => v

def call : {k : Kind} → Body L X V k → Outcome (Event L X V) V (Result V k)
  | _, .coReturn r => pure r
  | _, .localStep l rest => bind (ask (.localStep l)) fun v => call (rest v)
  | _, .coAwaitTask child rest => bind (call child) fun r => call (rest r)
  | _, .coAwait x rest => bind (ask (.external x)) fun v => call (rest v)

inductive Stack (L X V : Type) (j : Kind) : Kind → Type where
  | nil : Stack L X V j j
  | cons {k c : Kind} (rest : Result V c → Body L X V k) (callers : Stack L X V j k) :
      Stack L X V j c

def Stack.call : {k : Kind} → Stack L X V j k → Result V k → Outcome (Event L X V) V (Result V j)
  | _, .nil, r => pure r
  | _, .cons rest callers, r => bind (Calls.call (rest r)) callers.call

/-- A nested call in progress: between two steps of the body on top of the stack, blocked in
an external awaitable, about to leave it, or on the way back into a caller. -/
inductive Config (L X V : Type) (j : Kind) where
  | entry (b : Body L X V j)
  | running {k : Kind} (callers : Stack L X V j k) (b : Body L X V k)
  | blocked {k : Kind} (callers : Stack L X V j k) (x : X) (rest : V → Body L X V k)
  | unblocked {k : Kind} (callers : Stack L X V j k) (x : X) (rest : V → Body L X V k)
  | returning {k c : Kind} (callers : Stack L X V j k) (rest : Result V c → Body L X V k)
      (r : Result V c)
  | returned (r : Result V j)

def Stack.ret : {k : Kind} → Stack L X V j k → Result V k → Config L X V j
  | _, .nil, r => .returned r
  | _, .cons rest callers, r => .returning callers rest r

def step : Config L X V j → Option V → Option (Config L X V j)
  | .entry b, none => some (.running .nil b)
  | .blocked callers x rest, none => some (.unblocked callers x rest)
  | .running callers (.coReturn r), some _ => some (callers.ret r)
  | .running callers (.localStep _ rest), some v => some (.running callers (rest v))
  | .running callers (.coAwaitTask child rest), some _ => some (.running (.cons rest callers) child)
  | .running callers (.coAwait x rest), some _ => some (.blocked callers x rest)
  | .unblocked callers _ rest, some v => some (.running callers (rest v))
  | .returning callers rest r, some _ => some (.running callers (rest r))
  | _, _ => none

def emit : Config L X V j → Option V → Option (Event L X V)
  | .running _ (.localStep l _), some v => some (.localStep l v)
  | .unblocked _ x _, some v => some (.external x v)
  | _, _ => none

def Config.call : Config L X V j → Outcome (Event L X V) V (Result V j)
  | .entry b => Calls.call b
  | .running callers b => bind (Calls.call b) callers.call
  | .blocked callers x rest | .unblocked callers x rest =>
      bind (ask (.external x)) fun v => bind (Calls.call (rest v)) callers.call
  | .returning callers rest r => bind (Calls.call (rest r)) callers.call
  | .returned r => pure r

theorem Stack.call_ret (callers : Stack L X V j k) (r : Result V k) :
    (callers.ret r).call = callers.call r := by
  cases callers <;> rfl

theorem prompted_call (b : Body L X V k) : Prompted (call b) := by
  induction b with
  | coReturn r => exact prompted_pure r
  | localStep l rest ih => exact prompted_bind (prompted_ask _) ih
  | coAwaitTask child rest ihc ihr => exact prompted_bind ihc ihr
  | coAwait x rest ih => exact prompted_bind (prompted_ask _) ih

theorem Stack.prompted (callers : Stack L X V j k) (r : Result V k) :
    Prompted (callers.call r) := by
  induction callers with
  | nil => exact prompted_pure r
  | cons rest callers ih => exact prompted_bind (prompted_call _) ih

theorem Config.prompted (c : Config L X V j) : Prompted c.call := by
  cases c with
  | entry b => exact prompted_call b
  | running callers b => exact prompted_bind (prompted_call b) callers.prompted
  | blocked callers x rest | unblocked callers x rest =>
    exact prompted_bind (prompted_ask _) fun v =>
      prompted_bind (prompted_call (rest v)) callers.prompted
  | returning callers rest r => exact prompted_bind (prompted_call _) callers.prompted
  | returned r => exact prompted_pure r

theorem performed_step {whole : Outcome (Event L X V) V (Result V j)} {es : List (Event L X V)}
    {s t : Config L X V j} {a : Option V} (h : Performed Event.answer whole es s.call)
    (ht : step s a = some t) :
    Performed Event.answer whole (es ++ (emit s a).toList) t.call := by
  cases s with
  | entry b =>
    cases a with
    | none =>
      obtain rfl := Option.some.inj ht
      exact h.silent (bind_pure (call b)).symm
    | some v => cases ht
  | running callers b =>
    cases a with
    | none => cases b <;> cases ht
    | some v =>
      cases b with
      | coReturn r =>
        obtain rfl := Option.some.inj ht
        rw [callers.call_ret]
        exact h.silent (pure_bind r callers.call)
      | localStep l rest =>
        obtain rfl := Option.some.inj ht
        exact (h.congr (bind_assoc _ _ _)).ask v rfl
      | coAwaitTask child rest =>
        obtain rfl := Option.some.inj ht
        exact h.silent (bind_assoc _ _ _)
      | coAwait x rest =>
        obtain rfl := Option.some.inj ht
        exact h.silent (bind_assoc _ _ _)
  | blocked callers x rest =>
    cases a with
    | none =>
      obtain rfl := Option.some.inj ht
      exact h.silent rfl
    | some v => cases ht
  | unblocked callers x rest =>
    cases a with
    | none => cases ht
    | some v =>
      obtain rfl := Option.some.inj ht
      exact h.ask v rfl
  | returning callers rest r =>
    cases a with
    | none => cases ht
    | some v =>
      obtain rfl := Option.some.inj ht
      exact h.silent rfl
  | returned r => cases a <;> cases ht

theorem halts_running (b : Body L X V k) (callers : Stack L X V j k)
    (h : ∀ r, Halts step (callers.ret r)) : Halts step (.running callers b) := by
  induction b with
  | coReturn r =>
    refine halts_of_step fun a t ht => ?_
    cases a with
    | none => cases ht
    | some v => exact Option.some.inj ht ▸ h r
  | localStep l rest ih =>
    refine halts_of_step fun a t ht => ?_
    cases a with
    | none => cases ht
    | some v => exact Option.some.inj ht ▸ ih v callers h
  | coAwaitTask child rest ihc ihr =>
    refine halts_of_step fun a t ht => ?_
    cases a with
    | none => cases ht
    | some v =>
      refine Option.some.inj ht ▸ ihc (.cons rest callers) fun r => ?_
      refine halts_of_step fun a t ht => ?_
      cases a with
      | none => cases ht
      | some v => exact Option.some.inj ht ▸ ihr r callers h
  | coAwait x rest ih =>
    refine halts_of_step fun a t ht => ?_
    cases a with
    | none => cases ht
    | some v =>
      refine Option.some.inj ht ▸ halts_of_step fun a t ht => ?_
      cases a with
      | none =>
        refine Option.some.inj ht ▸ halts_of_step fun a t ht => ?_
        cases a with
        | none => cases ht
        | some v => exact Option.some.inj ht ▸ ih v callers h
      | some v => cases ht

/-- Every call of a finite body ends, whatever the answers. -/
theorem halts_entry (b : Body L X V j) : Halts step (.entry b) := by
  refine halts_of_step fun a t ht => ?_
  cases a with
  | none =>
    refine Option.some.inj ht ▸ halts_running b .nil fun r => ?_
    exact halts_of_step fun a t ht => by cases a <;> cases ht
  | some v => cases ht

end LibCoro.Calls
