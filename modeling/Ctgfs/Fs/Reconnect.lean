import Ctgfs.Foundation.Runs
import Ctgfs.Fs.CacheCalls
import Ctgfs.Placement.SlotCounts

/-!
# Reconnecting to the extent server

An RPC of the extent cache that has failed is made again after a `retry`, which drops the address
that the `Client` has for the extent, asks for it again and connects to what it gets.  A `put` or
`setattr` RPC is never made without a `retry` before it.  So a call depends on the address cache,
and where that has no defined behaviour, neither has the call.
-/

namespace Ctgfs.Fs

open Foundation Placement

/-- Ask the `Client` for the address of an extent, with the answer of the master, and connect to
it.  There is one extent server, so an address that the master gives is one of it.  Without an
address the connection is null, and the RPC that follows crashes. -/
def connect (client : Client) (request : ExtentId × Bytes) : Option Client := do
  let (reply, next) ← client.getKVAddrByInum request.1 request.2
  if reply.returned = [] then none else return next

/-- `extent_client_cache::retry`. -/
def retry (client : Client) (request : ExtentId × Bytes) : Option Client := do
  let (_, failed) ← client.failCache request.1
  connect failed request

/-- The extent for which a step begins with a `retry`. -/
def Task.retries : Task → Option ExtentId
  | .getCall id retried | .getCallAttr id _ retried | .getattrCall id retried
  | .getattrCallGet id _ retried | .setattrCallGet id _ retried | .flushRemove id retried =>
      if retried then some id else none
  | .flushPut id _ _ | .flushSetattr id _ _ => some id
  | .call _ | .getInsert _ _ _ | .getattrInsert _ _ _ | .setattrInsert _ _ _ | .flushErase _ _
  | .done _ => none

/-- An extent cache over its server, with the `Client` that gives the addresses. -/
structure Mount where
  extents : Extents
  client : Client

/-- What a call meets outside at each of its steps: the time, and the answer of the master. -/
structure Outside where
  clock : Nat → UInt32
  answers : Nat → Bytes

namespace Mount

def step (now : UInt32) (answer : Bytes) (mount : Mount) (task : Task) :
    Option (Task × Mount) := do
  let client ← match task.retries with
    | some id => retry mount.client (id, answer)
    | none => some mount.client
  let (next, extents) := task.step now .answered mount.extents
  return (next, ⟨extents, client⟩)

def advance (outside : Outside) (task : Task) (mount : Mount) : Nat → Option (Task × Mount)
  | 0 => some (task, mount)
  | steps + 1 => do
      let (reached, now) ← mount.advance outside task steps
      now.step (outside.clock steps) (outside.answers steps) reached

/-- A call, run to its end; there is no result when it crashes. -/
def perform (mount : Mount) (outside : Outside) (op : Op) : Option (Task × Mount) :=
  mount.advance outside (.call op) 4

end Mount

section Conditions

/-- A `retry` is defined: `FailCache` and the link to the new address are, and there is one. -/
def Reconnects (client : Client) (request : ExtentId × Bytes) : Prop :=
  request.2 ≠ [] ∧ client.FailRuns request.1 ∧
    ∀ failed ∈ client.failCache request.1, failed.2.LinkRuns request.2

/-- The steps of a call that begin with a `retry`, in terms of the entry and the extent of its
number: both RPCs of a write-back, and the second attempt to fetch what is not there. -/
def Op.retriesAt (entry : Option CachedExtent) (extent : Option Extent) : Op → List Nat
  | .put _ _ | .remove _ => []
  | .get _ | .getattr _ | .setattr _ _ => if entry.isNone ∧ extent.isNone then [2] else []
  | .flush _ => if entry.any fun value => value.dirty && !value.deleted then [1, 2] else []

def Mount.requests (mount : Mount) (outside : Outside) (op : Op) : List (ExtentId × Bytes) :=
  (op.retriesAt (mount.extents.cache.find op.id) (mount.extents.server.extentMap op.id)).map
    fun step => (op.id, outside.answers step)

/-- Each `retry` of a call is defined. -/
def Mount.Reconnects (mount : Mount) (outside : Outside) (op : Op) : Prop :=
  Meets retry Fs.Reconnects mount.client (mount.requests outside op)

end Conditions

variable {client : Client}

theorem status_release {slot : Nat} {released : Client.Reply × Client}
    (ran : client.release slot = some released) :
    released.2.kvAddrConnectStatus = client.kvAddrConnectStatus := by
  obtain ⟨ele, -, rest⟩ := Option.bind_eq_some_iff.mp ran
  split at rest
  · cases rest
    rfl
  · obtain ⟨count, -, last⟩ := Option.bind_eq_some_iff.mp rest
    split at last <;> cases last <;> rfl

/-- The master is asked after a `FailCache`. -/
theorem viaCache_failCache {ino : Nat} {failed : Client.Reply × Client}
    (ran : client.failCache ino = some failed) :
    failed.2.getKVAddrByInumViaCache ino = some ([], failed.2) := by
  have status : failed.2.kvAddrConnectStatus.find ino = some 1 := by
    simp only [Client.failCache, Client.slotOf] at ran
    cases found : client.kvAddrIndexList.find ino <;>
      (simp only [found] at ran
       rw [status_release ran]
       exact client.kvAddrConnectStatus.find_insert_self ino 1)
  rw [Client.getKVAddrByInumViaCache, status]
  rfl

theorem isSome_retry (client : Client) (request : ExtentId × Bytes) :
    (retry client request).isSome ↔ Reconnects client request := by
  rw [Reconnects, ← Client.isSome_failCache, retry]
  cases ran : client.failCache request.1 with
  | none => simp
  | some failed =>
      simp only [bind, Option.bind_some, connect, Client.getKVAddrByInum, viaCache_failCache ran,
        if_true, Option.isSome_some, true_and, Option.mem_def, Option.some.injEq, forall_eq',
        ← Client.isSome_linkToKVAddr request.1]
      by_cases silent : request.2 = []
      · simp [silent, pure]
      · cases failed.2.linkToKVAddr request.1 request.2 with
        | none => simp [silent]
        | some linked => simp [silent, pure]

section Advance

variable (extents : Extents) (outside : Outside) (task : Task)

/-- The calls of `retry` in the first steps of a task. -/
def Extents.requested : Nat → List (ExtentId × Bytes)
  | 0 => []
  | steps + 1 => requested steps ++
      ((extents.advance outside.clock task steps).1.retries.map (·, outside.answers steps)).toList

theorem advance_eq (client : Client) (steps : Nat) :
    (Mount.mk extents client).advance outside task steps =
      (exec retry client (extents.requested outside task steps)).map fun client =>
        ((extents.advance outside.clock task steps).1,
          ⟨(extents.advance outside.clock task steps).2, client⟩) := by
  induction steps with
  | zero => rfl
  | succ steps ih =>
      rw [Mount.advance, ih, Extents.requested, exec_append]
      cases exec retry client (extents.requested outside task steps) with
      | none => rfl
      | some reached =>
          simp only [Option.map_some, bind, Option.bind_some, Mount.step]
          cases (extents.advance outside.clock task steps).1.retries with
          | none => rfl
          | some id =>
              simp only [Option.map_some, Option.toList_some, exec]
              cases retry reached (id, outside.answers steps) with
              | none => rfl
              | some client => rfl

theorem requested_fetch {op : Op} (fetches : op.fetches = true) :
    extents.requested outside (.call op) 4 =
      (op.retriesAt (extents.cache.find op.id) (extents.server.extentMap op.id)).map
        fun step => (op.id, outside.answers step) := by
  cases present : extents.cache.find op.id with
  | none =>
      have missed := PointerMap.lookup_of_find_none present
      cases stored : extents.server.extentMap op.id <;> cases op <;> simp_all [Op.id, Op.fetches,
        Op.retriesAt, Extents.requested, Extents.advance, Task.step, Task.start, Task.retries,
        Delivery.deliver, ExtentServer.get, ExtentServer.getattr, Task.afterFetch]
  | some value =>
      obtain ⟨address, -, hit⟩ := PointerMap.lookup_of_find_some present
      cases gone : value.deleted <;> cases op <;> simp_all [Op.id, Op.fetches, Op.retriesAt,
        Extents.requested, Extents.advance, Task.step, Task.start, Task.retries]

theorem requested_flush (id : ExtentId) :
    extents.requested outside (.call (.flush id)) 4 =
      ((Op.flush id).retriesAt (extents.cache.find id) (extents.server.extentMap id)).map
        fun step => (id, outside.answers step) := by
  cases present : extents.cache.find id with
  | none =>
      have missed := PointerMap.lookup_of_find_none present
      simp [Op.retriesAt, Extents.requested, Extents.advance, Task.step, Task.start, Task.retries,
        missed]
  | some value =>
      obtain ⟨address, mapped, hit⟩ := PointerMap.lookup_of_find_some present
      have object : extents.cache.read address = some value := by
        rw [← PointerMap.find_of_map mapped]
        exact present
      have status := (setattr_put id extents.server (outside.clock 1) (outside.clock 2) value).1
      cases dirty : value.dirty <;> cases gone : value.deleted <;>
        simp [Op.retriesAt, Extents.requested, Extents.advance, Task.step, Task.start,
          Task.retries, hit, dirty, gone, object, Delivery.deliver, Task.afterStore, status]

theorem requested_perform (mount : Mount) (op : Op) :
    mount.extents.requested outside (.call op) 4 = mount.requests outside op := by
  cases op with
  | put id buf => rfl
  | remove id => rfl
  | get id => exact requested_fetch mount.extents outside rfl
  | getattr id => exact requested_fetch mount.extents outside rfl
  | setattr id attr => exact requested_fetch mount.extents outside rfl
  | flush id => exact requested_flush mount.extents outside id

end Advance

/-- A call on a mount is the call on its extents, with the calls of `retry` on its `Client`. -/
theorem Mount.perform_eq (mount : Mount) (outside : Outside) (op : Op) :
    mount.perform outside op =
      (exec retry mount.client (mount.requests outside op)).map fun client =>
        ((mount.extents.perform outside.clock op).1,
          ⟨(mount.extents.perform outside.clock op).2, client⟩) := by
  rw [← requested_perform]
  exact advance_eq mount.extents outside (.call op) mount.client 4

theorem Mount.perform_eq_some {mount next : Mount} {outside : Outside} {op : Op} {task : Task} :
    mount.perform outside op = some (task, next) ↔
      mount.extents.perform outside.clock op = (task, next.extents) ∧
        exec retry mount.client (mount.requests outside op) = some next.client := by
  rw [mount.perform_eq, Option.map_eq_some_iff]
  constructor
  · rintro ⟨client, ran, pair⟩
    cases pair
    exact ⟨rfl, ran⟩
  · rintro ⟨returned, ran⟩
    exact ⟨next.client, ran, by rw [returned]⟩

theorem Mount.reconnects_iff (mount : Mount) (outside : Outside) (op : Op) :
    (∃ client, exec retry mount.client (mount.requests outside op) = some client) ↔
      mount.Reconnects outside op := by
  rw [← Option.isSome_iff_exists]
  exact isSome_exec isSome_retry

section Settled

/-- There is one slot, which has the address and two users or more, so that a `FailCache` does
not free it, and which can get some more users. -/
structure Settled (addr : Bytes) (room : Nat) (client : Client) : Prop where
  slot : ∃ count, 2 ≤ count ∧ count + room ≤ intMax ∧ client.kvAddrList = [⟨addr, count⟩]
  used : ∃ ino slot, client.kvAddrIndexList.find ino = some slot
  indexed : ∀ ino slot, client.kvAddrIndexList.find ino = some slot → slot < 1

variable {addr : Bytes} {room : Nat}

theorem Settled.mono {less : Nat} (settled : Settled addr room client) (le : less ≤ room) :
    Settled addr less client := by
  obtain ⟨⟨count, two, top, list⟩, used, indexed⟩ := settled
  exact ⟨⟨count, two, by omega, list⟩, used, indexed⟩

theorem slotFor_single {ele : AddrSlot} {ino slot : Nat} (list : client.kvAddrList = [ele])
    (found : client.kvAddrIndexList.find ino = some slot) (named : ele.addr = addr)
    (used : ele.count ≠ -1) : client.slotFor addr = some ele := by
  have size : client.kvAddrIndexList.size ≠ 0 := by
    have member := (OrderedMap.find_eq_some _).mp found
    exact (List.length_pos_of_mem member).ne'
  obtain ⟨size, same⟩ := Nat.exists_eq_add_one_of_ne_zero size
  rw [Client.slotFor, list, same, List.take_succ_cons, List.find?_cons_of_pos]
  simp [named, used]

theorem settled_of_link (room : Nat) {count : Int} {other place : Nat}
    (list : client.kvAddrList = [⟨addr, count⟩])
    (found : client.kvAddrIndexList.find other = some place)
    (indexed : ∀ ino slot, client.kvAddrIndexList.find ino = some slot → slot < 1)
    (used : 1 ≤ count) (top : count + 1 + room ≤ intMax) (ino : Nat) :
    ∃ slot next, client.linkToKVAddr ino addr = some (slot, next) ∧ Settled addr room next := by
  have stops : client.slotFor addr = some ⟨addr, count⟩ :=
    slotFor_single list found rfl (by dsimp only; omega)
  obtain ⟨slot, present, linked⟩ := Client.linkToKVAddr_of_some stops ino
  have first := (List.getElem?_eq_some_iff.mp present).1
  rw [list, List.length_singleton] at first
  obtain rfl := Nat.lt_one_iff.mp first
  rw [Client.link_eq_some.mpr ⟨_, present, by dsimp only; omega, rfl⟩] at linked
  exact ⟨0, _, linked, ⟨count + 1, by omega, top, by simp [list]⟩,
    ⟨ino, 0, OrderedMap.find_insert_self ..⟩, Client.indexed_insert indexed Nat.one_pos⟩

theorem connect_of_link {next : Client} {id slot : Nat}
    (missed : client.getKVAddrByInumViaCache id = some ([], client))
    (linked : client.linkToKVAddr id addr = some (slot, next)) (nonempty : addr ≠ []) :
    connect client (id, addr) = some next := by
  simp only [connect, bind, Option.bind_some, Client.getKVAddrByInum, missed, if_true,
    if_neg nonempty, linked]
  exact if_neg nonempty

theorem Settled.connect (settled : Settled addr (room + 1) client)
    (nonempty : addr ≠ []) (id : ExtentId) :
    ∃ next, Fs.connect client (id, addr) = some next ∧ Settled addr room next := by
  obtain ⟨⟨count, two, top, list⟩, ⟨ino, slot, found⟩, indexed⟩ := settled
  rw [Nat.cast_succ] at top
  by_cases served : client.kvAddrConnectStatus.find id = some 0
  · -- the number is that of the slot, whose address is the one
    have present : client.kvAddrList[0]? = some ⟨addr, count⟩ := by
      rw [list]
      rfl
    have slot : ∃ count, 2 ≤ count ∧ count + (room : Int) ≤ intMax ∧
        client.kvAddrList = [⟨addr, count⟩] := ⟨count, two, by omega, list⟩
    cases here : client.kvAddrIndexList.find id with
    | some slot' =>
        obtain rfl := Nat.lt_one_iff.mp (indexed id slot' here)
        refine ⟨client, ?_, slot, ⟨ino, _, found⟩, indexed⟩
        simp [Fs.connect, Client.getKVAddrByInum, Client.getKVAddrByInumViaCache, served,
          Client.slotOf, here, present, nonempty]
    | none =>
        refine ⟨{ client with kvAddrIndexList := client.kvAddrIndexList.insert id 0 }, ?_, slot,
          ⟨id, 0, OrderedMap.find_insert_self ..⟩, Client.indexed_insert indexed Nat.one_pos⟩
        simp [Fs.connect, Client.getKVAddrByInum, Client.getKVAddrByInumViaCache, served,
          Client.slotOf, here, present, nonempty]
  · obtain ⟨slot, next, linked, settled⟩ :=
      settled_of_link room list found indexed (by omega) (by omega) id
    exact ⟨next, connect_of_link (if_neg served) linked nonempty, settled⟩

theorem Settled.retry (settled : Settled addr room client) (nonempty : addr ≠ []) (id : ExtentId) :
    ∃ next, Fs.retry client (id, addr) = some next ∧ Settled addr room next := by
  obtain ⟨⟨count, two, top, list⟩, -, indexed⟩ := settled
  have more : (1 : Int) < (⟨addr, count⟩ : AddrSlot).count := by
    dsimp only
    omega
  -- the slot has one user less for a moment, and the index has the inode in any case
  obtain ⟨failed, ran, list', ⟨slot, here⟩, indexed'⟩ : ∃ failed,
      client.failCache id = some failed ∧ failed.2.kvAddrList = [⟨addr, count - 1⟩] ∧
      (∃ slot, failed.2.kvAddrIndexList.find id = some slot) ∧
      ∀ ino slot, failed.2.kvAddrIndexList.find ino = some slot → slot < 1 := by
    have present : client.kvAddrList[0]? = some ⟨addr, count⟩ := by
      rw [list]
      rfl
    simp only [Client.failCache, Client.slotOf]
    cases found : client.kvAddrIndexList.find id with
    | some slot =>
        obtain rfl := Nat.lt_one_iff.mp (indexed id slot found)
        exact ⟨_, Client.release_more present more, by simp [list], ⟨0, found⟩, indexed⟩
    | none =>
        exact ⟨_, Client.release_more present more, by simp [list],
          ⟨0, OrderedMap.find_insert_self ..⟩, Client.indexed_insert indexed Nat.one_pos⟩
  obtain ⟨slot, next, linked, settled⟩ :=
    settled_of_link room list' here indexed' (by omega) (by omega) id
  refine ⟨next, ?_, settled⟩
  rw [Fs.retry, ran]
  exact connect_of_link (viaCache_failCache ran) linked nonempty

theorem Settled.exec (settled : Settled addr room client) (nonempty : addr ≠ [])
    {requests : List (ExtentId × Bytes)} (answers : ∀ request ∈ requests, request.2 = addr) :
    ∃ next, Foundation.exec Fs.retry client requests = some next ∧ Settled addr room next := by
  induction requests generalizing client with
  | nil => exact ⟨client, rfl, settled⟩
  | cons request rest ih =>
      obtain ⟨id, answer⟩ := request
      obtain ⟨rfl, answers⟩ := List.forall_mem_cons.mp answers
      obtain ⟨middle, ran, settled⟩ := settled.retry nonempty id
      rw [Foundation.exec, ran]
      exact ih settled answers

end Settled

end Ctgfs.Fs
