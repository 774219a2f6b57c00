import Ctgfs.Lock.QueueDiscipline

/-!
# Calls of the lock server that fail

A handler changes the queue or the holder first, and calls a client back afterwards.  When the
callback fails the handler returns an error, and the change stays.
-/

namespace Ctgfs.Lock

open Foundation

/-- The queue and the holder of a lock, each client with the number of the call that put it
there. -/
structure CallRecord where
  queue : List (ClientId × Nat) := []
  owner : Option (ClientId × Nat) := none
  deriving DecidableEq, Repr

def CallRecord.after (lid : LockId) (record : CallRecord) (number : Nat) :
    ServerEvent → CallRecord
  | .handle (.acquire other) id served =>
      if other = lid then
        if served.r = .retry then { record with queue := record.queue ++ [(id, number)] }
        else { record with owner := record.owner.or (some (id, number)) }
      else record
  | .handle (.release other) _ served =>
      if other = lid then
        match served.callback with
        | some (_, next) => ⟨record.queue.tail, some (next, number)⟩
        | none => if served.state.holded then record else { record with owner := none }
      else record
  | .finish _ _ => record

def callRecord (lid : LockId) (events : List ServerEvent) : CallRecord :=
  events.zipIdx.foldl (fun record event => record.after lid event.2 event.1) {}

def CallRecord.Undone (record : CallRecord) (number : Nat) : Request → Prop
  | .acquire _ => ∀ entry ∈ record.queue, entry.2 ≠ number
  | .release _ => ∀ entry ∈ record.owner, entry.2 ≠ number

theorem callRecord_concat (lid : LockId) (events : List ServerEvent) (event : ServerEvent) :
    callRecord lid (events ++ [event]) =
      (callRecord lid events).after lid events.length event := by
  rw [callRecord, List.zipIdx_append, List.foldl_append, Nat.zero_add]
  rfl

section Record

variable {lid : LockId} {serv next : ServState} {event : ServerEvent} {record : CallRecord}
  {server later : LockServer} {number : Nat}

structure CallRecord.Matches (record : CallRecord) (serv : ServState) : Prop where
  queue : record.queue.map Prod.fst = serv.pendingers
  owner : record.owner.map Prod.fst = serv.holder

def ServerEvent.Leaves (lid : LockId) (next : ServState) : ServerEvent → Prop
  | .handle request _ served => request.lid = lid → served.state = next
  | .finish _ _ => True

theorem leaves_of_step (step : ServerStep server event later) (lid : LockId) :
    event.Leaves lid (later.lsm lid) := by
  cases step with
  | handle request id =>
      rintro rfl
      simp [LockServer.handle]
  | finish ended waiting => trivial

theorem after_other {request : Request} {id : ClientId} {served : Served}
    (different : request.lid ≠ lid) :
    record.after lid number (.handle request id served) = record := by
  cases request with
  | acquire other => exact if_neg different
  | release other => exact if_neg different

theorem CallRecord.Matches.after (found : record.Matches serv) (valid : serv.Valid)
    (disciplined : Disciplined lid serv event next) (leaves : event.Leaves lid next)
    (number : Nat) : (record.after lid number event).Matches next := by
  cases disciplined with
  | queue held owner different retry =>
      rw [CallRecord.after, if_pos rfl, if_pos retry]
      exact ⟨by simp [found.queue], found.owner⟩
  | again held owner answer =>
      obtain ⟨entry, some, -⟩ := Option.map_eq_some_iff.mp (found.owner.trans owner)
      rw [CallRecord.after, if_pos rfl, if_neg answer, some, Option.some_or, ← some]
      exact found
  | grant idle answer =>
      obtain ⟨nobody, empty⟩ := valid.idle idle
      have none := Option.map_eq_none_iff.mp (found.owner.trans nobody)
      rw [CallRecord.after, if_pos rfl, if_neg answer, none, Option.none_or]
      exact ⟨found.queue.trans empty, rfl⟩
  | handOver held owner queue callback =>
      rw [CallRecord.after, if_pos rfl, callback]
      exact ⟨by rw [List.map_tail, found.queue, queue, List.tail_cons], rfl⟩
  | free held owner empty callback =>
      rw [CallRecord.after, if_pos rfl, callback, leaves rfl]
      exact ⟨found.queue.trans empty, rfl⟩
  | ignore notMine callback =>
      rw [CallRecord.after, if_pos rfl, callback, leaves rfl]
      dsimp only
      split
      · exact found
      next idle =>
        exact ⟨found.queue, (valid.idle ((Bool.not_eq_true _).mp idle)).1.symm⟩
  | @other request id served different =>
      rw [after_other different]
      exact found
  | finish => exact found

theorem matches_of_run {events : List ServerEvent} (run : Run ServerStep {} events server)
    (lid : LockId) : (callRecord lid events).Matches (server.lsm lid) := by
  induction run with
  | refl => exact ⟨rfl, rfl⟩
  | tail run step ih =>
      have valid := (queues_of_run run).valid
      rw [callRecord_concat]
      exact ih.after (valid lid) (disciplined_of_step valid step lid)
        (leaves_of_step step lid) _

end Record

def ServerEvent.ReleasedBy (lid : LockId) (client : ClientId) (event : ServerEvent) : Prop :=
  ∃ served, event = .handle (.release lid) client served

/-- What a call with a callback has done is still there: the callback is for the holder, and the
client of an `acquire` is first in the queue. -/
def CallRecord.Still (record : CallRecord) (serv : ServState) (number : Nat)
    (id target : ClientId) (request : Request) : Prop :=
  serv.holded = true ∧ serv.holder = some target ∧
    match request with
    | .acquire _ => ∃ rest, record.queue = (id, number) :: rest ∧ ∀ entry ∈ rest, entry.2 ≠ number
    | .release _ => record.owner = some (target, number)

section Calls

variable {lid : LockId} {serv next : ServState} {event : ServerEvent} {record : CallRecord}
  {server later : LockServer} {number now : Nat} {id target : ClientId} {request : Request}

theorem CallRecord.Still.not_undone (still : record.Still serv number id target request) :
    ¬ record.Undone number request := by
  intro undone
  obtain ⟨-, -, here⟩ := still
  cases request with
  | acquire lid =>
      obtain ⟨rest, queue, -⟩ := here
      exact undone (id, number) (queue ▸ List.mem_cons_self) rfl
  | release lid => exact undone (target, number) here rfl

theorem mem_queue_after {entry : ClientId × Nat}
    (member : entry ∈ (record.after lid now event).queue) :
    entry ∈ record.queue ∨ entry.2 = now := by
  revert member
  fun_cases CallRecord.after lid record now event with
  | case1 id served retry =>
      intro member
      refine (List.mem_append.mp member).imp_right fun last => ?_
      rw [List.mem_singleton.mp last]
  | case4 id served callback next answered =>
      exact fun member => Or.inl (List.mem_of_mem_tail member)
  | _ => exact Or.inl

theorem mem_owner_after {entry : ClientId × Nat}
    (member : entry ∈ (record.after lid now event).owner) :
    entry ∈ record.owner ∨ entry.2 = now := by
  revert member
  fun_cases CallRecord.after lid record now event with
  | case2 id served granted =>
      intro member
      rcases Option.or_eq_some_iff.mp member with old | ⟨-, new⟩
      · exact Or.inl old
      · rw [← Option.some.inj new]
        exact Or.inr rfl
  | case4 id served callback next answered =>
      intro member
      rw [← Option.some.inj member]
      exact Or.inr rfl
  | case6 id served answered idle => exact fun member => absurd member (by simp)
  | _ => exact Or.inl

theorem CallRecord.Undone.after (undone : record.Undone number request) (other : now ≠ number)
    (event : ServerEvent) : (record.after lid now event).Undone number request := by
  cases request with
  | acquire lid =>
      intro entry member same
      rcases mem_queue_after member with old | new
      · exact undone entry old same
      · exact other (new.symm.trans same)
  | release lid =>
      intro entry member same
      rcases mem_owner_after member with old | new
      · exact undone entry old same
      · exact other (new.symm.trans same)

theorem CallRecord.Still.after (still : record.Still serv number id target request)
    (found : record.Matches serv) (other : now ≠ number)
    (disciplined : Disciplined lid serv event next) (leaves : event.Leaves lid next) :
    (¬ event.ReleasedBy lid target ∧
        (record.after lid now event).Still next number id target request) ∨
      (event.ReleasedBy lid target ∧ (record.after lid now event).Undone number request) := by
  obtain ⟨held, owner, here⟩ := still
  cases disciplined with
  | queue _ _ different retry =>
      refine Or.inl ⟨by rintro ⟨_, ⟨⟩⟩, held, owner, ?_⟩
      rw [CallRecord.after, if_pos rfl, if_pos retry]
      cases request with
      | acquire lid =>
          obtain ⟨rest, queue, others⟩ := here
          refine ⟨rest ++ [_], by rw [queue]; rfl, fun entry member => ?_⟩
          rcases List.mem_append.mp member with old | last
          · exact others entry old
          · rw [List.mem_singleton.mp last]
            exact other
      | release lid => exact here
  | again _ mine answer =>
      obtain ⟨entry, some, -⟩ := Option.map_eq_some_iff.mp (found.owner.trans mine)
      refine Or.inl ⟨by rintro ⟨_, ⟨⟩⟩, held, owner, ?_⟩
      rw [CallRecord.after, if_pos rfl, if_neg answer, some, Option.some_or, ← some]
      exact here
  | grant idle answer => exact absurd (held.symm.trans idle) Bool.noConfusion
  | handOver _ mine queue callback =>
      obtain rfl := Option.some.inj (owner.symm.trans mine)
      refine Or.inr ⟨⟨_, rfl⟩, ?_⟩
      rw [CallRecord.after, if_pos rfl, callback]
      cases request with
      | acquire lid =>
          obtain ⟨rest, queue, others⟩ := here
          simp only [Undone, queue, List.tail_cons]
          exact others
      | release lid =>
          rintro entry ⟨⟩
          exact other
  | free _ mine empty callback =>
      obtain rfl := Option.some.inj (owner.symm.trans mine)
      refine Or.inr ⟨⟨_, rfl⟩, ?_⟩
      rw [CallRecord.after, if_pos rfl, callback, leaves rfl]
      cases request with
      | acquire lid =>
          obtain ⟨rest, queue, -⟩ := here
          have nonempty := found.queue.trans empty
          rw [queue] at nonempty
          exact absurd nonempty (List.cons_ne_nil _ _)
      | release lid => rintro entry ⟨⟩
  | ignore notMine callback =>
      refine Or.inl ⟨?_, held, owner, ?_⟩
      · rintro ⟨_, ⟨⟩⟩
        exact notMine ⟨held, owner⟩
      · rw [CallRecord.after, if_pos rfl, callback, leaves rfl]
        dsimp only
        rw [if_pos held]
        exact here
  | @other request id served different =>
      refine Or.inl ⟨?_, held, owner, ?_⟩
      · rintro ⟨_, ⟨⟩⟩
        exact different rfl
      · rw [after_other different]
        exact here
  | finish => exact Or.inl ⟨by rintro ⟨_, ⟨⟩⟩, held, owner, here⟩

/-- A handler that calls a client back has queued its client first, or has given the lock to the
client that it calls. -/
theorem still_of_handle (found : record.Matches (server.lsm request.lid))
    (valid : (server.lsm request.lid).Valid) {kind : Callback}
    (called : (request.serve (server.lsm request.lid) id).callback = some (kind, target)) :
    (record.after request.lid number
        (.handle request id (request.serve (server.lsm request.lid) id))).Still
      (request.serve (server.lsm request.lid) id).state number id target request := by
  cases request with
  | acquire lid =>
      have spec := valid.acquire id
      simp only [Request.serve, Request.lid] at *
      generalize (server.lsm lid).acquire id = served at spec called
      cases spec with
      | first held mine different empty =>
          obtain ⟨-, rfl⟩ := Prod.mk.inj (Option.some.inj called)
          refine ⟨rfl, rfl, [], ?_, by simp⟩
          have queue := List.map_eq_nil_iff.mp (found.queue.trans empty)
          simp [CallRecord.after, queue]
      | later | again | fresh => exact absurd called (by simp)
  | release lid =>
      simp only [Request.serve, Request.lid] at *
      by_cases mine : (server.lsm lid).holded = true ∧ (server.lsm lid).holder = some id
      · have spec := ServState.release_released mine.1 mine.2
        generalize (server.lsm lid).release id = served at spec called
        cases spec with
        | handed queue =>
            obtain ⟨-, rfl⟩ := Prod.mk.inj (Option.some.inj called)
            exact ⟨rfl, rfl, by simp [CallRecord.after]⟩
        | freed empty => exact absurd called (by simp)
      · rw [ServState.release_ignored mine] at called
        exact absurd called (by simp)

theorem still_or_undone {before after : List ServerEvent} {middle : LockServer}
    (first : Run ServerStep {} before middle) (second : Run ServerStep middle after server)
    (earlier : number < before.length)
    (still : (callRecord lid before).Still (middle.lsm lid) number id target request) :
    ((¬ ∃ event ∈ after, event.ReleasedBy lid target) ∧
        (callRecord lid (before ++ after)).Still (server.lsm lid) number id target request) ∨
      ((∃ event ∈ after, event.ReleasedBy lid target) ∧
        (callRecord lid (before ++ after)).Undone number request) := by
  induction second with
  | refl =>
      rw [List.append_nil]
      exact Or.inl ⟨by simp, still⟩
  | @tail after server event later second step ih =>
      have run := first.trans second
      have valid := (queues_of_run run).valid
      have other : (before ++ after).length ≠ number := by
        rw [List.length_append]
        omega
      rw [← List.append_assoc, callRecord_concat]
      rcases ih with ⟨none, here⟩ | ⟨⟨released, member, byTarget⟩, undone⟩
      · refine (here.after (matches_of_run run lid) other (disciplined_of_step valid step lid)
          (leaves_of_step step lid)).imp ?_ ?_
        · rintro ⟨notNow, there⟩
          refine ⟨?_, there⟩
          rintro ⟨released, member, byTarget⟩
          rcases List.mem_append.mp member with old | last
          · exact none ⟨released, old, byTarget⟩
          · exact notNow (List.mem_singleton.mp last ▸ byTarget)
        · rintro ⟨now, undone⟩
          exact ⟨⟨event, List.mem_append_right _ List.mem_cons_self, now⟩, undone⟩
      · exact Or.inr ⟨⟨released, List.mem_append_left _ member, byTarget⟩, undone.after other event⟩

end Calls

/-- When a handler returns after a callback, in particular when it returns an error, what it has
done is undone if and only if the client of the callback has released the lock meanwhile.  The
record of a lock is about its queue and its holder. -/
theorem failed_call_undone_iff {before between : List ServerEvent} {request : Request}
    {id target : ClientId} {served : Served} {kind : Callback} {status : ServStatus}
    {server : LockServer}
    (run : Run ServerStep {} (before ++ .handle request id served ::
      (between ++ [.finish (request, id) status])) server)
    (called : served.callback = some (kind, target)) :
    let record := callRecord request.lid (before ++ .handle request id served ::
      (between ++ [.finish (request, id) status]))
    record.Matches (server.lsm request.lid) ∧
      (record.Undone before.length request ↔
        ∃ other, .handle (.release request.lid) target other ∈ between) := by
  intro record
  refine ⟨matches_of_run run request.lid, ?_⟩
  obtain ⟨middle, next, first, step, second⟩ := run.split rfl
  have whole : record = callRecord request.lid ((before ++ [.handle request id served]) ++
      (between ++ [.finish (request, id) status])) := by
    rw [List.append_assoc]
    rfl
  have still : (callRecord request.lid (before ++ [.handle request id served])).Still
      (next.lsm request.lid) before.length id target request := by
    rw [callRecord_concat, ← leaves_of_step step request.lid rfl]
    cases step with
    | handle =>
        exact still_of_handle (matches_of_run first request.lid)
          ((queues_of_run first).valid request.lid) called
  have released : (∃ event ∈ between ++ [.finish (request, id) status],
      event.ReleasedBy request.lid target) ↔
      ∃ other, .handle (.release request.lid) target other ∈ between := by
    constructor
    · rintro ⟨event, member, other, rfl⟩
      exact ⟨other, by simpa using member⟩
    · rintro ⟨other, member⟩
      exact ⟨_, List.mem_append_left _ member, other, rfl⟩
  rw [whole, ← released]
  rcases still_or_undone (first.tail step) second (by simp) still with
    ⟨none, there⟩ | ⟨some, undone⟩
  · exact iff_of_false there.not_undone none
  · exact iff_of_true undone some

/-- The revoke that an `acquire` has sent fails, but the holder has released the lock before. -/
theorem failed_call_undone_released :
    ∃ (server : LockServer) (record : CallRecord),
      Run ServerStep {} [.handle (.acquire 7) 0 ⟨⟨some 0, true, []⟩, .ok, none⟩,
        .handle (.acquire 7) 1 ⟨⟨some 0, true, [1]⟩, .retry, some (.revoke, 0)⟩,
        .handle (.release 7) 0 ⟨⟨some 1, true, []⟩, .ok, some (.retry, 1)⟩,
        .finish (.acquire 7, 1) .rpcerr] server ∧
      record.Matches (server.lsm 7) ∧ record.Undone 1 (.acquire 7) := by
  have one := Run.refl.tail (ServerStep.handle {} (.acquire 7) 0)
  have two := one.tail (.handle _ (.acquire 7) 1)
  have three := two.tail (.handle _ (.release 7) 0)
  have run : Run ServerStep {} ([.handle (.acquire 7) 0 _] ++ .handle (.acquire 7) 1 _ ::
      ([.handle (.release 7) 0 _] ++ [.finish (.acquire 7, 1) .rpcerr])) _ :=
    three.tail (.finish .failed (by decide : (Request.acquire 7, 1) ∈ _))
  have undone := failed_call_undone_iff run rfl
  exact ⟨_, _, run, undone.1, undone.2.mpr ⟨_, List.mem_singleton_self _⟩⟩

/-- The holder cannot be bound, and the client stays in the queue.  The next client cannot be
bound, and it stays the holder. -/
theorem failed_calls_kept :
    (∃ server, Run ServerStep {} [.handle (.acquire 7) 0 ⟨⟨some 0, true, []⟩, .ok, none⟩,
        .handle (.acquire 7) 1 ⟨⟨some 0, true, [1]⟩, .retry, some (.revoke, 0)⟩,
        .finish (.acquire 7, 1) .ioerr] server ∧ (server.lsm 7).pendingers = [1]) ∧
      ∃ server, Run ServerStep {} [.handle (.acquire 7) 0 ⟨⟨some 0, true, []⟩, .ok, none⟩,
        .handle (.acquire 7) 1 ⟨⟨some 0, true, [1]⟩, .retry, some (.revoke, 0)⟩,
        .handle (.release 7) 0 ⟨⟨some 1, true, []⟩, .ok, some (.retry, 1)⟩,
        .finish (.release 7, 0) .ioerr] server ∧ (server.lsm 7).holder = some 1 := by
  have one := Run.refl.tail (ServerStep.handle {} (.acquire 7) 0)
  have two := one.tail (.handle _ (.acquire 7) 1)
  have three := two.tail (.handle _ (.release 7) 0)
  exact ⟨⟨_, two.tail (.finish .unbound (by decide : (Request.acquire 7, 1) ∈ _)), rfl⟩,
    _, three.tail (.finish .unbound (by decide : (Request.release 7, 0) ∈ _)), rfl⟩

end Ctgfs.Lock
