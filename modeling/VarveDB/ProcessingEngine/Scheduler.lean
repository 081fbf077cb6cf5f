import VarveDB.Catalog.Database
import VarveDB.Library.Runs

/-! The scheduler of trigger invocations: a queue for each registration of a trigger, attempts and retries. -/
namespace VarveDB.Scheduler
open Library Runs Catalog

/-- A trigger as it was registered once. Synchronous triggers have a maximal concurrency of one. -/
structure TriggerRuntime where
  id : Nat
  key : Nat × Nat
  maxConcurrency : Nat
  errorBehavior : ErrorBehavior
  maxAttempts : Nat
  deriving DecidableEq

structure Invocation where
  runtime : TriggerRuntime
  number : Nat
  request : Bool
  deriving DecidableEq

structure QueuedInvocation where
  invocation : Invocation
  attempt : Nat
  deriving DecidableEq

structure RunningInvocation where
  invocation : Invocation
  attempt : Nat
  workerNodeId : String
  deriving DecidableEq

structure TriggerState where
  runtime : TriggerRuntime
  queue : List QueuedInvocation
  inFlight : Nat
  shuttingDown : Bool
  shutdownWaiters : List Nat
  deriving DecidableEq

def TriggerState.new (runtime : TriggerRuntime) : TriggerState := ⟨runtime, [], 0, false, []⟩

structure TriggerResponse where
  statusCode : Nat
  body : String

inductive TriggerWorkOutput where
  | complete
  | requestResponse (response : TriggerResponse)

structure TriggerExecutionError where
  message : String
  cancelled : Bool

inductive Response where
  | work (status : Nat) (body : String)
  | error (status : Nat) (message : String)
  deriving DecidableEq

/-- The scheduler with what has happened: answers, invocations that have left, attempts in the order of their
submission, and the waiters that were released. -/
structure State where
  workers : List String
  nextWorkerIndex : Nat
  states : IndexMap Nat TriggerState
  running : IndexMap Nat RunningInvocation
  delayedRetries : IndexMap Nat QueuedInvocation
  autoDisables : List RunningInvocation
  nextWorkId : Nat
  nextRetryDelayId : Nat
  runtimes : List TriggerRuntime
  cancelled : List Nat
  next : Nat
  responses : List (Nat × Response)
  finished : List Invocation
  submitted : List QueuedInvocation
  released : List (Nat × Nat)

namespace State

variable (s : State) (invocation : Invocation) (id : Nat) (runtime : TriggerRuntime) (r : RunningInvocation)
  (e : TriggerExecutionError) (st : TriggerState) (order : List Nat)

def sendResponse (response : Response) : State :=
  if invocation.request = true ∧ invocation.number ∉ s.responses.map Prod.fst then
    { s with responses := s.responses ++ [(invocation.number, response)] }
  else s

def sendCancelled : State :=
  s.sendResponse invocation (.error 503 "server is shutting down")

def sendFailure : State :=
  s.sendResponse invocation (.error 500 e.message)

def finish : State := { s with finished := s.finished ++ [invocation] }

def setState : State := { s with states := s.states.put id st }

def releaseInFlight : State :=
  (s.states.lookup id).elim s fun st => s.setState id { st with inFlight := st.inFlight - 1 }

def leave : State := (s.finish invocation).releaseInFlight invocation.runtime.id

def isCancelled : Bool := runtime.id ∈ s.cancelled

def isStopping : Bool := st.shuttingDown || s.isCancelled st.runtime

def cancelQueued (queue : List QueuedInvocation) : State :=
  queue.foldl (fun s q => (s.sendCancelled q.invocation).finish q.invocation) s

def drainCancelled : State :=
  (s.states.lookup id).elim s fun st => (s.cancelQueued st.queue).setState id { st with queue := [] }

def setShuttingDown : State :=
  (s.states.lookup id).elim s fun st => s.setState id { st with shuttingDown := true }

def enqueue (request : Bool) : State :=
  let invocation : Invocation := ⟨runtime, s.next, request⟩
  let s := { s with next := s.next + 1 }
  if s.isCancelled runtime then (s.sendCancelled invocation).finish invocation
  else
    let st := (s.states.lookup runtime.id).getD (.new runtime)
    if s.isStopping st then ((s.sendCancelled invocation).finish invocation).setState runtime.id st
    else s.setState runtime.id { st with queue := st.queue ++ [⟨invocation, 1⟩] }

def shutdownTrigger (waiter : Nat) : State :=
  match s.states.lookup id with
  | none => { s with released := s.released ++ [(waiter, id)] }
  | some st =>
    let s := (s.setState id { st with shutdownWaiters := st.shutdownWaiters ++ [waiter] }).drainCancelled id
    s.setShuttingDown id

def submitWorker (q : QueuedInvocation) : State :=
  let worker := s.workers.getD s.nextWorkerIndex ""
  { s with
    running := s.running.put s.nextWorkId ⟨q.invocation, q.attempt, worker⟩
    nextWorkId := s.nextWorkId + 1
    nextWorkerIndex := (s.nextWorkerIndex + 1) % s.workers.length
    submitted := s.submitted ++ [q] }

def handleWorkOutput : TriggerWorkOutput → State
  | .requestResponse r =>
    s.sendResponse invocation (.work (if 100 ≤ r.statusCode ∧ r.statusCode < 1000 then r.statusCode else 500) r.body)
  | .complete => s.sendResponse invocation (.error 500 "request trigger worker completed without a response")

def handleAttemptError : State :=
  match r.invocation.runtime.errorBehavior with
  | .log => (s.sendFailure r.invocation e).leave r.invocation
  | .disable =>
    let s := s.sendFailure r.invocation e
    { s with autoDisables := s.autoDisables ++ [r] }
  | .retry =>
    if r.invocation.runtime.maxAttempts ≤ r.attempt then (s.sendFailure r.invocation e).leave r.invocation
    else { s with
      delayedRetries := s.delayedRetries.put s.nextRetryDelayId ⟨r.invocation, r.attempt + 1⟩
      nextRetryDelayId := s.nextRetryDelayId + 1 }

def handleAttemptResult (result : Except TriggerExecutionError TriggerWorkOutput) : State :=
  if s.isCancelled r.invocation.runtime then (s.sendCancelled r.invocation).leave r.invocation
  else match result with
    | .ok output => (s.handleWorkOutput r.invocation output).leave r.invocation
    | .error e => if e.cancelled then (s.sendCancelled r.invocation).leave r.invocation else s.handleAttemptError r e

def handleWorkerResult (workerNodeId : String) (workId : Nat)
    (result : Except TriggerExecutionError TriggerWorkOutput) : State :=
  (s.running.lookup workId).elim s fun r =>
    if workerNodeId ≠ r.workerNodeId then s
    else { s with running := s.running.remove workId }.handleAttemptResult r result

def handleRetryDelay (cancelled : Bool) : State :=
  (s.delayedRetries.lookup id).elim s fun q =>
    let s := { s with delayedRetries := s.delayedRetries.remove id }
    if cancelled || s.isCancelled q.invocation.runtime ||
      (s.states.lookup q.invocation.runtime.id).all s.isStopping then
      (s.sendCancelled q.invocation).leave q.invocation
    else s.submitWorker q

def handleAutoDisableResult (i : Nat) (disabled : Option Bool) : State :=
  s.autoDisables[i]?.elim s fun r =>
    let id := r.invocation.runtime.id
    let s := { s with autoDisables := s.autoDisables.eraseIdx i }
    let s := if disabled = some true then
      ({ s with cancelled := id :: s.cancelled }.drainCancelled id).setShuttingDown id else s
    s.leave r.invocation

def detachWork (workId : Nat) : State :=
  (s.running.lookup workId).elim s fun r =>
    ({ s with running := s.running.remove workId }.sendCancelled r.invocation).leave r.invocation

def detachRunningForRuntime : State :=
  ((s.running.entries.filter fun e => e.2.invocation.runtime.id = id).map Prod.fst).foldl detachWork s

def detachCancelledRuntimes : State :=
  let runtimeIds := s.states.keys.filter fun id => (s.states.lookup id).any s.isStopping
  runtimeIds.foldl detachRunningForRuntime (runtimeIds.foldl (fun s id => (s.drainCancelled id).setShuttingDown id) s)

def popReady (max : Nat) : Nat → List QueuedInvocation → List QueuedInvocation × Nat × List QueuedInvocation
  | inFlight, [] => ([], inFlight, [])
  | inFlight, q :: queue =>
    if inFlight < max then
      let (ready, inFlight, rest) := popReady max (inFlight + 1) queue
      (q :: ready, inFlight, rest)
    else ([], inFlight, q :: queue)

def takeReady (acc : State × List QueuedInvocation) (id : Nat) : State × List QueuedInvocation :=
  (acc.1.states.lookup id).elim acc fun st =>
    if acc.1.isStopping st then ((acc.1.drainCancelled id).setShuttingDown id, acc.2)
    else
      let (ready, inFlight, queue) := popReady st.runtime.maxConcurrency st.inFlight st.queue
      (acc.1.setState id { st with inFlight, queue }, acc.2 ++ ready)

def dispatchReady : State :=
  let (s, ready) := order.foldl takeReady (s, [])
  ready.foldl submitWorker s

def removeStopped : State :=
  (s.states.lookup id).elim s fun st =>
    if st.shuttingDown ∧ st.inFlight = 0 then
      { s with states := s.states.remove id, released := s.released ++ st.shutdownWaiters.map (·, id) }
    else s

def removeStoppedStates : State := s.states.keys.foldl removeStopped s

def driveStates : State :=
  (s.detachCancelledRuntimes.dispatchReady order).removeStoppedStates

end State

inductive Event where
  | enqueue (id : Nat) (request : Bool)
  | workerFinished (workerNodeId : String) (workId : Nat) (result : Except TriggerExecutionError TriggerWorkOutput)
  | workerProgressed
  | shutdown (id waiter : Nat)
  | retryDelay (id : Nat) (cancelled : Bool)
  | autoDisable (i : Nat) (disabled : Option Bool)

inductive Action where
  | register (runtime : TriggerRuntime)
  | cancel (id : Nat)
  | event (e : Event) (order : List Nat)

namespace State

/-- A shutdown is asked for after the token was cancelled; the wait for a trigger to disable itself ends
without a result only if the token is cancelled. -/
def handle (s : State) : Event → Option State
  | .enqueue id request => (s.runtimes.find? fun r => r.id = id).map fun runtime => s.enqueue runtime request
  | .workerFinished workerNodeId workId result => some (s.handleWorkerResult workerNodeId workId result)
  | .workerProgressed => some s
  | .shutdown id waiter => if id ∈ s.cancelled then some (s.shutdownTrigger id waiter) else none
  | .retryDelay id cancelled => some (s.handleRetryDelay id cancelled)
  | .autoDisable i disabled =>
    if disabled = none → (s.autoDisables[i]?).all fun r => s.isCancelled r.invocation.runtime then
      some (s.handleAutoDisableResult i disabled)
    else none

def step (s : State) : Action → Option State
  | .register runtime =>
    if ∀ r ∈ s.runtimes, r.id < runtime.id then some { s with runtimes := s.runtimes ++ [runtime] } else none
  | .cancel id => some { s with cancelled := id :: s.cancelled }
  | .event e order => (s.handle e).bind fun s =>
    if order.Perm s.states.keys then some (s.driveStates order) else none

end State

def start (workers : List String) : State :=
  ⟨workers, 0, .empty _, .empty _, .empty _, [], 0, 0, [], [], 0, [], [], [], []⟩

end VarveDB.Scheduler
