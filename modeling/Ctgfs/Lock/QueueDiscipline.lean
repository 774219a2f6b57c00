import Ctgfs.Foundation.Runs
import Ctgfs.Lock.System

/-!
# The queues of the lock server

The lock server on its own, under requests from any clients.  A handler decides everything
in its first section under the mutex; when it calls a client back, its second section does
nothing, however the callback ends.  The clients that were told to retry are granted the lock
in the order in which they were told so.
-/

namespace Ctgfs.Lock

open Foundation

/-- How the callback of a handler ends: `safebind` gave no client, the RPC failed, or it
was answered. -/
inductive CallbackEnd where
  | unbound
  | failed
  | answered
  deriving DecidableEq, Repr

inductive ServStatus where
  | ok
  | ioerr
  | rpcerr
  deriving DecidableEq, Repr

def CallbackEnd.status : CallbackEnd → ServStatus
  | .unbound => .ioerr
  | .failed => .rpcerr
  | .answered => .ok

/-- `lock_server_cache`, with the handlers that have dropped the mutex for a callback.  A lock
without an entry in `lsm_` is as one with a new entry. -/
structure LockServer where
  lsm : LockId → ServState := fun _ => {}
  callbacks : List (Request × ClientId) := []

namespace LockServer

def handle (server : LockServer) (request : Request) (id : ClientId) : LockServer where
  lsm := Function.update server.lsm request.lid
    (request.serve (server.lsm request.lid) id).state
  callbacks :=
    match (request.serve (server.lsm request.lid) id).callback with
    | none => server.callbacks
    | some _ => server.callbacks ++ [(request, id)]

def finish (server : LockServer) (handler : Request × ClientId) : LockServer :=
  { server with callbacks := server.callbacks.erase handler }

end LockServer

inductive ServerEvent where
  /-- The first section of a handler, with what it decided. -/
  | handle (request : Request) (id : ClientId) (served : Served)
  /-- A callback ends, and its handler returns a status. -/
  | finish (handler : Request × ClientId) (status : ServStatus)
  deriving DecidableEq, Repr

inductive ServerStep : LockServer → ServerEvent → LockServer → Prop where
  | handle (server : LockServer) (request : Request) (id : ClientId) :
      ServerStep server (.handle request id (request.serve (server.lsm request.lid) id))
        (server.handle request id)
  | finish {server : LockServer} {handler : Request × ClientId} (ended : CallbackEnd) :
      handler ∈ server.callbacks →
      ServerStep server (.finish handler ended.status) (server.finish handler)

/-- The client that an event puts into the queue of a lock: it is answered `RETRY`. -/
def ServerEvent.queued (lid : LockId) : ServerEvent → Option ClientId
  | .handle (.acquire other) id served =>
      if other = lid ∧ served.r = .retry then some id else none
  | .handle (.release _) _ _ | .finish _ _ => none

def ServerEvent.handed (lid : LockId) : ServerEvent → Option ClientId
  | .handle (.release other) _ served =>
      match served.callback with
      | some (.retry, next) => if other = lid then some next else none
      | _ => none
  | .handle (.acquire _) _ _ | .finish _ _ => none

inductive Disciplined (lid : LockId) (serv : ServState) : ServerEvent → ServState → Prop where
  /-- A client that finds the lock with another one is told to retry and queued last. -/
  | queue {id holder served} : serv.holded = true → serv.holder = some holder → holder ≠ id →
      served.r = .retry →
      Disciplined lid serv (.handle (.acquire lid) id served)
        { serv with pendingers := serv.pendingers ++ [id] }
  | again {id served} : serv.holded = true → serv.holder = some id → served.r ≠ .retry →
      Disciplined lid serv (.handle (.acquire lid) id served) serv
  | grant {id served} : serv.holded = false → served.r ≠ .retry →
      Disciplined lid serv (.handle (.acquire lid) id served) ⟨some id, true, []⟩
  /-- The holder gives the lock to the first client of the queue. -/
  | handOver {id next rest served} : serv.holded = true → serv.holder = some id →
      serv.pendingers = next :: rest → served.callback = some (.retry, next) →
      Disciplined lid serv (.handle (.release lid) id served) ⟨some next, true, rest⟩
  | free {id served} : serv.holded = true → serv.holder = some id → serv.pendingers = [] →
      served.callback = none → Disciplined lid serv (.handle (.release lid) id served) {}
  | ignore {id served} : ¬ (serv.holded = true ∧ serv.holder = some id) →
      served.callback = none → Disciplined lid serv (.handle (.release lid) id served) serv
  | other {request id served} : request.lid ≠ lid →
      Disciplined lid serv (.handle request id served) serv
  | finish {handler status} : Disciplined lid serv (.finish handler status) serv

section Step

variable {lid : LockId} {serv next : ServState} {event : ServerEvent}

theorem disciplined_acquire (valid : serv.Valid) (id : ClientId) :
    Disciplined lid serv (.handle (.acquire lid) id (serv.acquire id)) (serv.acquire id).state := by
  have spec := valid.acquire id
  generalize serv.acquire id = served at spec
  obtain ⟨owner, holded, pendingers⟩ := serv
  cases spec with
  | first held mine different empty =>
      cases held
      cases mine
      cases empty
      exact .queue rfl rfl different rfl
  | later held mine different queue =>
      cases held
      cases mine
      exact .queue rfl rfl different rfl
  | again held mine =>
      refine .again held mine ?_
      split
      · exact Answer.noConfusion
      · exact Answer.noConfusion
  | fresh idle empty => exact .grant idle Answer.noConfusion

theorem disciplined_release (serv : ServState) (id : ClientId) :
    Disciplined lid serv (.handle (.release lid) id (serv.release id)) (serv.release id).state := by
  by_cases mine : serv.holded = true ∧ serv.holder = some id
  · have spec := ServState.release_released mine.1 mine.2
    generalize serv.release id = served at spec
    cases spec with
    | handed queue => exact .handOver mine.1 mine.2 queue rfl
    | freed empty => exact .free mine.1 mine.2 empty rfl
  · rw [ServState.release_ignored mine]
    exact .ignore mine rfl

theorem disciplined_of_step {server later : LockServer} (valid : ∀ lid, (server.lsm lid).Valid)
    (step : ServerStep server event later) (lid : LockId) :
    Disciplined lid (server.lsm lid) event (later.lsm lid) := by
  cases step with
  | handle request id =>
      by_cases same : request.lid = lid
      · cases request with
        | acquire other =>
            obtain rfl : other = lid := same
            rw [LockServer.handle]
            simp only [Request.lid, Function.update_self]
            exact disciplined_acquire (valid other) id
        | release other =>
            obtain rfl : other = lid := same
            rw [LockServer.handle]
            simp only [Request.lid, Function.update_self]
            exact disciplined_release (server.lsm other) id
      · have kept : (server.handle request id).lsm lid = server.lsm lid :=
          Function.update_of_ne (Ne.symm same) _ _
        rw [kept]
        exact .other same
  | finish ended waiting => exact .finish

/-- A disciplined event moves clients from the front of the queue to the lock, and puts others
at its end. -/
theorem Disciplined.queue_eq (disciplined : Disciplined lid serv event next)
    (valid : serv.Valid) :
    serv.pendingers ++ (event.queued lid).toList =
      (event.handed lid).toList ++ next.pendingers := by
  cases disciplined with
  | queue held owner different retry => simp [ServerEvent.queued, ServerEvent.handed, retry]
  | again held owner answer => simp [ServerEvent.queued, ServerEvent.handed, answer]
  | grant idle answer =>
      simp [ServerEvent.queued, ServerEvent.handed, answer, (valid.idle idle).2]
  | handOver held owner queue callback =>
      simp [ServerEvent.queued, ServerEvent.handed, queue, callback]
  | free held owner empty callback =>
      simp [ServerEvent.queued, ServerEvent.handed, empty, callback]
  | ignore notMine callback => simp [ServerEvent.queued, ServerEvent.handed, callback]
  | @other request id served different =>
      cases request with
      | acquire other =>
          have apart : other ≠ lid := different
          simp [ServerEvent.queued, ServerEvent.handed, apart]
      | release other =>
          have apart : other ≠ lid := different
          simp only [ServerEvent.queued, ServerEvent.handed]
          split
          · simp [apart]
          · simp
  | finish => simp [ServerEvent.queued, ServerEvent.handed]

theorem Disciplined.valid (disciplined : Disciplined lid serv event next) (valid : serv.Valid) :
    next.Valid := by
  cases disciplined with
  | queue held owner different retry =>
      exact ⟨fun idle => absurd (held.symm.trans idle) Bool.noConfusion, valid.holder⟩
  | again held owner answer => exact valid
  | grant idle answer => exact ⟨Bool.noConfusion, fun _ => Option.some_ne_none _⟩
  | handOver held owner queue callback => exact ⟨Bool.noConfusion, fun _ => Option.some_ne_none _⟩
  | free held owner empty callback => exact ⟨fun _ => ⟨rfl, rfl⟩, Bool.noConfusion⟩
  | ignore notMine callback => exact valid
  | other different => exact valid
  | finish => exact valid

end Step

def queuedIn (lid : LockId) (events : List ServerEvent) : List ClientId :=
  events.filterMap (ServerEvent.queued lid)

def handedIn (lid : LockId) (events : List ServerEvent) : List ClientId :=
  events.filterMap (ServerEvent.handed lid)

theorem filterMap_concat {α β : Type} (f : α → Option β) (events : List α) (event : α) :
    (events ++ [event]).filterMap f = events.filterMap f ++ (f event).toList := by
  rw [List.filterMap_append]
  cases answer : f event with
  | none => simp [answer]
  | some value => simp [answer]

/-- The locks are valid, and whoever was told to retry was granted the lock, or is in its
queue, in order. -/
structure Queues (events : List ServerEvent) (server : LockServer) : Prop where
  valid : ∀ lid, (server.lsm lid).Valid
  order : ∀ lid, queuedIn lid events = handedIn lid events ++ (server.lsm lid).pendingers

theorem Queues.step {events : List ServerEvent} {server later : LockServer} {event : ServerEvent}
    (queues : Queues events server) (step : ServerStep server event later) :
    Queues (events ++ [event]) later := by
  constructor
  · intro lid
    exact (disciplined_of_step queues.valid step lid).valid (queues.valid lid)
  · intro lid
    have moved := (disciplined_of_step queues.valid step lid).queue_eq (queues.valid lid)
    calc queuedIn lid (events ++ [event])
        = queuedIn lid events ++ (event.queued lid).toList := filterMap_concat _ _ _
      _ = handedIn lid events ++ ((server.lsm lid).pendingers ++ (event.queued lid).toList) := by
          rw [queues.order, List.append_assoc]
      _ = handedIn lid events ++ (event.handed lid).toList ++ (later.lsm lid).pendingers := by
          rw [moved, List.append_assoc]
      _ = handedIn lid (events ++ [event]) ++ (later.lsm lid).pendingers := by
          rw [handedIn, handedIn, filterMap_concat]

theorem queues_of_run {events : List ServerEvent} {server : LockServer}
    (run : Run ServerStep {} events server) : Queues events server := by
  refine run.history Queues ⟨?_, fun _ => rfl⟩ fun events server event later queues => queues.step
  intro lid
  exact ⟨fun _ => ⟨rfl, rfl⟩, Bool.noConfusion⟩

/-- In every run, a lock that is not held has no queue, the clients that were told to retry
are granted the lock one after the other in that order, and every further step keeps to the
discipline, for every lock. -/
theorem queue_discipline {events : List ServerEvent} {server : LockServer}
    (run : Run ServerStep {} events server) (lid : LockId) :
    ((server.lsm lid).holded = false → (server.lsm lid).pendingers = []) ∧
    queuedIn lid events = handedIn lid events ++ (server.lsm lid).pendingers ∧
    ∀ event later, ServerStep server event later →
      Disciplined lid (server.lsm lid) event (later.lsm lid) := by
  have queues := queues_of_run run
  refine ⟨fun idle => ((queues.valid lid).idle idle).2, queues.order lid, ?_⟩
  intro event later step
  exact disciplined_of_step queues.valid step lid

/-- Two clients are queued behind a third one, the callback to it fails, and then it releases
the lock: the first of the two holds it, and the second one is still queued. -/
theorem queue_discipline_two_queued :
    ∃ events server, Run ServerStep {} events server ∧ queuedIn 7 events = [1, 2] ∧
      handedIn 7 events = [1] ∧ (server.lsm 7).holder = some 1 ∧ (server.lsm 7).pendingers = [2] ∧
      [1, 2] = [1] ++ (server.lsm 7).pendingers := by
  have one := Run.refl.tail (ServerStep.handle {} (.acquire 7) 0)
  have two := one.tail (.handle _ (.acquire 7) 1)
  have three := two.tail (.handle _ (.acquire 7) 2)
  have four := three.tail (.finish .failed (by decide : (Request.acquire 7, 1) ∈ _))
  have five := four.tail (.handle _ (.release 7) 0)
  refine ⟨_, _, five, by decide, by decide, by decide, by decide, ?_⟩
  exact (queue_discipline five 7).2.1

end Ctgfs.Lock
