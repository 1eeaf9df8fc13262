import LibCoro.Machine
import Mathlib.Data.List.Basic
import Mathlib.Logic.Function.Basic
import Mathlib.Algebra.Order.BigOperators.Group.Finset

namespace LibCoro.Service

open Machine

def ENOMEM : Int := 12

inductive Direction where
  | read
  | write
  deriving DecidableEq, Repr

structure Request where
  core : Nat
  direction : Direction
  buf : Nat
  len : Int
  offset : Nat
  deriving DecidableEq, Repr

/-- A call of `spdk_bdev_read` or `spdk_bdev_write` on `channels[core]`, whose callback
argument is the result slot of the request `res`. -/
structure Submission (R : Type) extends Request where
  res : R
  deriving DecidableEq, Repr

/-- `cbFn` is `spdk_retry_read` or `spdk_retry_write`, `cbArg` the address of
`retry_contexts[cbArg]`. -/
structure WaitEntry where
  cbFn : Direction
  cbArg : Nat
  deriving DecidableEq, Repr

structure RetryContext (R : Type) where
  buf : Nat
  len : Int
  offset : Nat
  res : R
  deriving DecidableEq, Repr

/-- What SPDK queues is the address of `wait_entries[entry]`; `owner` is the request that
queued it, which the program does not record. -/
structure Waiting (R : Type) where
  entry : Nat
  owner : R
  deriving DecidableEq, Repr

/-- The coroutine handle of a result is named by the request that its coroutine awaits. -/
structure Result (R : Type) where
  coro : Option R
  res : Int

inductive Phase where
  | fresh
  | created
  | suspended
  | done (value : Int)
  deriving DecidableEq, Repr

/-- The last three fields record what happened to the requests; no step reads them. -/
structure State (R : Type) where
  waitEntries : Nat → Option WaitEntry
  retryContexts : Nat → Option (RetryContext R)
  ioWait : Nat → List (Waiting R)
  pending : List (Submission R)
  results : R → Result R
  ready : R → Bool
  phase : R → Phase
  fault : Bool
  submitted : List (R × Submission R)
  codes : R → List Int
  resumed : R → List Int

variable {R : Type}

def init : State R where
  waitEntries _ := none
  retryContexts _ := none
  ioWait _ := []
  pending := []
  results _ := ⟨none, 0⟩
  ready _ := false
  phase _ := .fresh
  fault := false
  submitted := []
  codes _ := []
  resumed _ := []

/-- The calls of `read` and `write`, their `co_await`, and the callbacks of SPDK; `rc` is
what the submission returns. -/
inductive Act (R : Type) where
  | issue (r : R) (rc : Int)
  | await (r : R)
  | complete (submission : Submission R) (success : Bool)
  | retry (c : Nat) (waiting : Waiting R) (rc : Int)
  deriving DecidableEq, Repr

variable [DecidableEq R]

def State.record (s : State R) (r : R) (submission : Submission R) (rc : Int) : State R :=
  { s with
    submitted := s.submitted ++ [(r, submission)]
    codes := Function.update s.codes r (s.codes r ++ [rc]) }

def State.accept (s : State R) (submission : Submission R) : State R :=
  { s with pending := s.pending ++ [submission] }

def setFailure (s : State R) (r : R) (rc : Int) : State R :=
  { s with
    results := Function.update s.results r ⟨(s.results r).coro, rc⟩
    ready := Function.update s.ready r true }

/-- `spdk_bdev_queue_io_wait`, after the entry and the context of the core are filled in. -/
def queueIoWait (s : State R) (c : Nat) (r : R) (cbFn : Direction) (buf : Nat) (len : Int)
    (offset : Nat) : State R :=
  { s with
    waitEntries := Function.update s.waitEntries c (some ⟨cbFn, c⟩)
    retryContexts := Function.update s.retryContexts c (some ⟨buf, len, offset, r⟩)
    ioWait := Function.update s.ioWait c (s.ioWait c ++ [⟨c, r⟩]) }

/-- The common body of `read` and `write`, which differ in the submission and the callback. -/
def submit (direction : Direction) (s : State R) (c : Nat) (r : R) (buf : Nat) (len : Int)
    (offset : Nat) (rc : Int) : State R :=
  let submission : Submission R := ⟨⟨c, direction, buf, len, offset⟩, r⟩
  let s := { s with phase := Function.update s.phase r .created }.record r submission rc
  if rc = -ENOMEM then queueIoWait s c r direction buf len offset
  else if rc ≠ 0 then setFailure s r rc
  else s.accept submission

def read (s : State R) (c : Nat) (r : R) (buf : Nat) (len : Int) (offset : Nat) (rc : Int) :
    State R := submit .read s c r buf len offset rc

def write (s : State R) (c : Nat) (r : R) (buf : Nat) (len : Int) (offset : Nat) (rc : Int) :
    State R := submit .write s c r buf len offset rc

/-- `res->coro.resume()`; the coroutine then reads `res.res` in `await_resume`. -/
def resume (s : State R) (r : R) : State R :=
  match (s.results r).coro with
  | some k =>
    if s.phase k = .suspended then
      { s with
        phase := Function.update s.phase k (.done (s.results k).res)
        resumed := Function.update s.resumed k (s.resumed k ++ [(s.results k).res]) }
    else { s with fault := true }
  | none => { s with fault := true }

def State.setRes (s : State R) (r : R) (res : Int) : State R :=
  { s with results := Function.update s.results r ⟨(s.results r).coro, res⟩ }

def spdkIoCompleteCb (s : State R) (success : Bool) (cbArg : R) : State R :=
  resume (s.setRes cbArg (if success then 0 else 1)) cbArg

/-- The common body of `spdk_retry_read` and `spdk_retry_write`; the branch for `-ENOMEM`
holds only a comment. -/
def spdkRetry (direction : Direction) (s : State R) (currentCore : Nat) (owner : R)
    (ctx : RetryContext R) (rc : Int) : State R :=
  let submission : Submission R := ⟨⟨currentCore, direction, ctx.buf, ctx.len, ctx.offset⟩, ctx.res⟩
  let s := s.record owner submission rc
  if rc = -ENOMEM then s
  else if rc ≠ 0 then resume (s.setRes ctx.res rc) ctx.res
  else s.accept submission

def spdkRetryRead (s : State R) (currentCore : Nat) (owner : R) (ctx : RetryContext R) (rc : Int) :
    State R := spdkRetry .read s currentCore owner ctx rc

def spdkRetryWrite (s : State R) (currentCore : Nat) (owner : R) (ctx : RetryContext R) (rc : Int) :
    State R := spdkRetry .write s currentCore owner ctx rc

/-- SPDK calls `cb_fn(cb_arg)` of a queued entry, as the entry is at that moment. -/
def callWaiting (s : State R) (c : Nat) (waiting : Waiting R) (rc : Int) : Option (State R) :=
  (s.waitEntries waiting.entry).bind fun entry =>
    (s.retryContexts entry.cbArg).map fun ctx =>
      match entry.cbFn with
      | .read => spdkRetryRead s c waiting.owner ctx rc
      | .write => spdkRetryWrite s c waiting.owner ctx rc

def await (s : State R) (r : R) : State R :=
  if s.ready r then { s with phase := Function.update s.phase r (.done (s.results r).res) }
  else
    { s with
      results := Function.update s.results r ⟨some r, (s.results r).res⟩
      phase := Function.update s.phase r .suspended }

/-- The request `r` is issued at most once, with the arguments `args r`. -/
def step (args : R → Request) (s : State R) : Act R → Option (State R)
  | .issue r rc =>
    when (s.phase r = .fresh) <| match (args r).direction with
      | .read => read s (args r).core r (args r).buf (args r).len (args r).offset rc
      | .write => write s (args r).core r (args r).buf (args r).len (args r).offset rc
  | .await r => when (s.phase r = .created) (await s r)
  | .complete submission success =>
    when (submission ∈ s.pending) <|
      spdkIoCompleteCb { s with pending := s.pending.erase submission } success submission.res
  | .retry c waiting rc =>
    if waiting ∈ s.ioWait c then
      callWaiting { s with ioWait := Function.update s.ioWait c ((s.ioWait c).erase waiting) } c waiting rc
    else none

end LibCoro.Service
