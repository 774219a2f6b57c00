import Mathlib.Logic.Function.Basic
import Mathlib.Data.List.Basic

/-!
# The caching lock client

`lock_client_cache` guards a table of cached locks with one mutex and drops the
mutex around every RPC and every wait.  A thread is therefore always between two
sections of code that run under the mutex, and its position says which RPC or
which wait it has to come back from.  The sections are translated one by one;
what a thread does between them does not touch the table.

A thread is one call of `acquire` with the `release` that follows it, or one run
of a handler.  A program thread that holds several locks is several threads here.
-/

namespace Ctgfs.Lock

/-- `lock_protocol::lockid_t`, which is only compared. -/
abbrev LockId := Nat

abbrev ThreadId := Nat

inductive LockState where
  | none
  | free
  | locked
  | acquiring
  | releasing
  deriving DecidableEq, Repr

/-- `lock_cache`.  The condition variable is the list of the threads that are
blocked on it. -/
structure LockCache where
  state : LockState := .none
  isRevoked : Bool := false
  cond : List ThreadId := []
  deriving DecidableEq, Repr

/-- The value `r` that the lock server's `acquire` answers with. -/
inductive Answer where
  | ok
  | retry
  | retire
  deriving DecidableEq, Repr

inductive Pc where
  | outside
  /-- `acquire` waits for its RPC. -/
  | acquireCall (lid : LockId)
  /-- `acquire` is blocked in `pthread_cond_wait`. -/
  | acquireWait (lid : LockId)
  /-- `acquire` was woken and waits for the mutex. -/
  | acquireWoken (lid : LockId)
  /-- `acquire` has returned `OK` and `release` was not called yet. -/
  | holding (lid : LockId)
  /-- `release` waits for its release RPC. -/
  | releaseCall (lid : LockId)
  /-- `release` waits for the acquire RPC that it makes when `need_send`. -/
  | reacquireCall (lid : LockId)
  /-- `revoke_handler` waits for its release RPC. -/
  | revokeCall (lid : LockId)
  /-- `retry_handler` waits for its acquire RPC. -/
  | retryCall (lid : LockId)
  deriving DecidableEq, Repr

/-- The two functions with an `assert(0)`. -/
inductive AssertSite where
  | release
  | retryHandler
  deriving DecidableEq, Repr

/-- `lock_client_cache` with the positions of all threads; `aborted` records an
`assert` that has ended the process. -/
structure LockClient where
  lsm : LockId → Option LockCache
  waitingThreads : Int
  thread : ThreadId → Pc
  aborted : Option AssertSite

namespace LockClient

def initial : LockClient := ⟨fun _ => none, 0, fun _ => .outside, none⟩

variable (client : LockClient)

/-- `lsm_[lid]`, which is a default entry when the key is missing. -/
def cache (lid : LockId) : LockCache :=
  (client.lsm lid).getD {}

def put (t : ThreadId) (lid : LockId) (cache : LockCache) (pc : Pc) : LockClient :=
  { client with
    lsm := Function.update client.lsm lid (some cache)
    thread := Function.update client.thread t pc }

/-- `waiting_threads++; pthread_cond_wait(..)`. -/
def wait (t : ThreadId) (lid : LockId) (cache : LockCache) : LockClient :=
  { client.put t lid { cache with cond := t :: cache.cond } (.acquireWait lid) with
    waitingThreads := client.waitingThreads + 1 }

/-- `pthread_cond_signal(lsm_[lid].cond)`: one blocked thread is woken, if there
is any.  Which one is not specified and is chosen by the event. -/
def signal (lid : LockId) : Option ThreadId → Option LockClient
  | none => if (client.cache lid).cond = [] then some client else none
  | some t =>
      let cache := client.cache lid
      if t ∈ cache.cond then
        some (client.put t lid { cache with cond := cache.cond.erase t } (.acquireWoken lid))
      else none

/-- The top of the loop of `acquire`. -/
def acquireLoop (t : ThreadId) (lid : LockId) : LockClient :=
  let cache := client.cache lid
  match cache.state with
  | .none | .releasing => client.put t lid { cache with state := .acquiring } (.acquireCall lid)
  | .free => client.put t lid { cache with state := .locked } (.holding lid)
  | .locked | .acquiring => client.wait t lid cache

/-- `acquire` after its RPC. -/
def acquireReturn (t : ThreadId) (lid : LockId) (r : Answer) : LockClient :=
  let cache := client.cache lid
  if cache.state ≠ .acquiring then client.acquireLoop t lid
  else if r = .retry then client.wait t lid { cache with state := .none }
  else if cache.isRevoked then
    (client.put t lid { cache with state := .none, isRevoked := false }
      (.acquireCall lid)).acquireLoop t lid
  else
    client.put t lid { cache with state := .locked, isRevoked := decide (r = .retire) }
      (.holding lid)

/-- `release` up to its RPC.  A lock that is not `LOCKED` runs into `assert(0)`. -/
def release (client : LockClient) (t : ThreadId) (lid : LockId) (woken : Option ThreadId) :
    Option LockClient :=
  let cache := client.cache lid
  if cache.state ≠ .locked then some { client with aborted := some .release }
  else if cache.isRevoked then
    some (client.put t lid { cache with state := .releasing, isRevoked := false }
      (.releaseCall lid))
  else (client.put t lid { cache with state := .free } .outside).signal lid woken

/-- `release` after its release RPC; `need_send` asks for the lock again when any
thread of the client waits for any lock. -/
def releaseReturn (t : ThreadId) (lid : LockId) : LockClient :=
  let cache := client.cache lid
  if cache.state = .releasing then
    if client.waitingThreads ≠ 0 then
      client.put t lid { cache with state := .acquiring } (.reacquireCall lid)
    else client.put t lid { cache with state := .none } .outside
  else client.put t lid cache .outside

/-- `release` after the acquire RPC of `need_send`. -/
def reacquireReturn (t : ThreadId) (lid : LockId) (r : Answer) (woken : Option ThreadId) :
    Option LockClient :=
  let cache := client.cache lid
  if cache.state = .acquiring then
    if r = .retry then some (client.put t lid { cache with state := .none } .outside)
    else
      (client.put t lid
        { cache with state := .free, isRevoked := cache.isRevoked || decide (r = .retire) }
        .outside).signal lid woken
  else some (client.put t lid cache .outside)

/-- `revoke_handler` up to its RPC. -/
def revokeHandler (t : ThreadId) (lid : LockId) : LockClient :=
  let cache := client.cache lid
  match cache.state with
  | .none | .releasing => client.put t lid cache .outside
  | .free => client.put t lid { cache with state := .releasing } (.revokeCall lid)
  | .locked | .acquiring => client.put t lid { cache with isRevoked := true } .outside

/-- `revoke_handler` after its RPC. -/
def revokeReturn (t : ThreadId) (lid : LockId) : LockClient :=
  let cache := client.cache lid
  if cache.state = .releasing then client.put t lid { cache with state := .none } .outside
  else client.put t lid cache .outside

/-- The top of the loop of `retry_handler`. -/
def retryLoop (t : ThreadId) (lid : LockId) : LockClient :=
  let cache := client.cache lid
  match cache.state with
  | .none | .acquiring | .releasing =>
      client.put t lid { cache with state := .acquiring } (.retryCall lid)
  | .free | .locked => client.put t lid cache .outside

/-- `retry_handler` up to its RPC; a lock without an entry runs into `assert(0)`. -/
def retryHandler (client : LockClient) (t : ThreadId) (lid : LockId) : LockClient :=
  if client.lsm lid = none then { client with aborted := some .retryHandler }
  else client.retryLoop t lid

/-- `retry_handler` after its RPC. -/
def retryReturn (t : ThreadId) (lid : LockId) (r : Answer) (woken : Option ThreadId) :
    Option LockClient :=
  let cache := client.cache lid
  if cache.state ≠ .acquiring then some (client.retryLoop t lid)
  else
    (client.put t lid
      { cache with
        state := .free
        isRevoked := cache.isRevoked || decide (r = .retire ∨ r = .retry) }
      .outside).signal lid woken

end LockClient

/-- One section of one thread, with the answers of the lock server as they come
and the scheduler's choices. -/
inductive ClientEvent where
  | acquire (t : ThreadId) (lid : LockId)
  | acquireReturn (t : ThreadId) (r : Answer)
  /-- A woken thread gets the mutex back and leaves `pthread_cond_wait`. -/
  | wake (t : ThreadId)
  /-- A blocked thread wakes without a signal, as POSIX permits. -/
  | spurious (t : ThreadId)
  | release (t : ThreadId) (woken : Option ThreadId)
  | releaseReturn (t : ThreadId)
  | reacquireReturn (t : ThreadId) (r : Answer) (woken : Option ThreadId)
  | revokeHandler (t : ThreadId) (lid : LockId)
  | revokeReturn (t : ThreadId)
  | retryHandler (t : ThreadId) (lid : LockId)
  | retryReturn (t : ThreadId) (r : Answer) (woken : Option ThreadId)
  deriving DecidableEq, Repr

def ClientEvent.actor : ClientEvent → ThreadId
  | .acquire t _ | .acquireReturn t _ | .wake t | .spurious t | .release t _ | .releaseReturn t
  | .reacquireReturn t _ _ | .revokeHandler t _ | .revokeReturn t | .retryHandler t _
  | .retryReturn t _ _ => t

namespace LockClient

/-- One section of the client; `none` when the thread is not at its beginning. -/
def step (client : LockClient) (event : ClientEvent) : Option LockClient :=
  if client.aborted.isSome then none
  else
    match event, client.thread event.actor with
    | .acquire t lid, .outside => some (client.acquireLoop t lid)
    | .acquireReturn t r, .acquireCall lid => some (client.acquireReturn t lid r)
    | .wake t, .acquireWoken lid =>
        some ({ client with waitingThreads := client.waitingThreads - 1 }.acquireLoop t lid)
    | .spurious t, .acquireWait lid => client.signal lid (some t)
    | .release t woken, .holding lid => client.release t lid woken
    | .releaseReturn t, .releaseCall lid => some (client.releaseReturn t lid)
    | .reacquireReturn t r woken, .reacquireCall lid => client.reacquireReturn t lid r woken
    | .revokeHandler t lid, .outside => some (client.revokeHandler t lid)
    | .revokeReturn t, .revokeCall lid => some (client.revokeReturn t lid)
    | .retryHandler t lid, .outside => some (client.retryHandler t lid)
    | .retryReturn t r woken, .retryCall lid => client.retryReturn t lid r woken
    | _, _ => none

end LockClient

end Ctgfs.Lock
