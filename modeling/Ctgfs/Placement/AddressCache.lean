import Mathlib.Data.List.Induction
import Mathlib.Data.List.Nodup
import Ctgfs.Foundation.File
import Ctgfs.Foundation.OrderedMap
import Ctgfs.Foundation.Runs

/-!
# The address cache of a client

`Client` remembers which address the master gave for an inode.  The addresses lie in slots
with a count of their users, and a map gives the slot of an inode.  The second map says
which inodes may be served from the cache.  It is read with inode numbers, but a new link
writes it with the number of the slot.  So an inode is served from the cache only when its
number is that of a slot, and the address may then be one that was given for another inode.
-/

namespace Ctgfs.Placement

open Foundation

/-- An element of `kv_addr_list_`: an address and the count of its users. -/
structure AddrSlot where
  addr : Bytes
  count : Int
  deriving DecidableEq, Repr

/-- The members of `Client` that make up its cache. -/
structure Client where
  kvAddrIndexList : OrderedMap Nat Nat
  kvAddrConnectStatus : OrderedMap Nat Nat
  kvAddrList : List AddrSlot
  reusedQueue : List Nat

def intMax : Int := 2147483647

def intMin : Int := -2147483648

/-- `count++`, which is not defined for the greatest `int`. -/
def increment (count : Int) : Option Int :=
  if count < intMax then some (count + 1) else none

def decrement (count : Int) : Option Int :=
  if intMin < count then some (count - 1) else none

namespace Client

def new : Client := ⟨.empty, .empty, [], []⟩

variable (client : Client)

/-- `kv_addr_index_list_[ino]`, which makes an entry for a new inode. -/
def slotOf (ino : Nat) : Nat × Client :=
  match client.kvAddrIndexList.find ino with
  | some slot => (slot, client)
  | none => (0, { client with kvAddrIndexList := client.kvAddrIndexList.insert ino 0 })

/-- `Client::getKVAddrByInumViaCache`.  There is no result when an access is outside of
`kv_addr_list_`. -/
def getKVAddrByInumViaCache (ino : Nat) : Option (Bytes × Client) :=
  if client.kvAddrConnectStatus.find ino = some 0 then do
    let (slot, client) := client.slotOf ino
    let ele ← client.kvAddrList[slot]?
    return (ele.addr, client)
  else some ([], client)

/-- The loop of `linkToKVAddr` for some further steps from an index.  It runs up to the size
of the map of inodes. -/
def scan (list : List AddrSlot) (addr : Bytes) : Nat → Nat → Option (Option Nat)
  | 0, _ => some none
  | left + 1, i => do
      let ele ← list[i]?
      if ele.addr = addr ∧ ele.count ≠ -1 then return some i else scan list addr left (i + 1)

def getNextId : Nat × Client :=
  match client.reusedQueue with
  | [] => (client.kvAddrList.length, { client with kvAddrList := client.kvAddrList ++ [⟨[], 0⟩] })
  | id :: rest => (id, { client with reusedQueue := rest })

def link (ino slot : Nat) (addr : Bytes) : Option Client := do
  let ele ← client.kvAddrList[slot]?
  let count ← increment ele.count
  return { client with
    kvAddrIndexList := client.kvAddrIndexList.insert ino slot
    kvAddrConnectStatus := client.kvAddrConnectStatus.insert slot 0
    kvAddrList := client.kvAddrList.set slot ⟨addr, count⟩ }

/-- `Client::linkToKVAddr`, with the slot. -/
def linkToKVAddr (ino : Nat) (addr : Bytes) : Option (Nat × Client) := do
  match ← scan client.kvAddrList addr client.kvAddrIndexList.size 0 with
  | some i => do
      let linked ← client.link ino i addr
      return (i, linked)
  | none => do
      let (id, client) := client.getNextId
      let linked ← client.link ino id addr
      return (id, linked)

structure Reply where
  asked : Bool
  returned : Bytes
  linked : Option Nat
  freed : Option Nat
  deriving DecidableEq, Repr

/-- `Client::GetKVAddrByInum`, with the answer of the master if it is asked, which is empty
when the master is not reached. -/
def getKVAddrByInum (ino : Nat) (answer : Bytes) : Option (Reply × Client) := do
  let (ele, client) ← client.getKVAddrByInumViaCache ino
  if ele = [] then
    if answer = [] then return (⟨true, [], none, none⟩, client)
    else
      let (slot, client) ← client.linkToKVAddr ino answer
      return (⟨true, answer, some slot, none⟩, client)
  else return (⟨false, ele, none, none⟩, client)

/-- `FailCache` behind the lookup of the slot: it has one user less. -/
def release (id : Nat) : Option (Reply × Client) := do
  let ele ← client.kvAddrList[id]?
  if ele.count = 0 then return (⟨false, [], none, none⟩, client)
  else
    let count ← decrement ele.count
    if count = 0 then
      return (⟨false, [], none, some id⟩,
        { client with
          kvAddrList := client.kvAddrList.set id ⟨[], -1⟩
          reusedQueue := client.reusedQueue ++ [id] })
    else
      return (⟨false, [], none, none⟩,
        { client with kvAddrList := client.kvAddrList.set id ⟨ele.addr, count⟩ })

def failCache (ino : Nat) : Option (Reply × Client) :=
  let client := { client with kvAddrConnectStatus := client.kvAddrConnectStatus.insert ino 1 }
  let (id, client) := client.slotOf ino
  client.release id

/-- The element at which the loop of `linkToKVAddr` stops. -/
def slotFor (addr : Bytes) : Option AddrSlot :=
  (client.kvAddrList.take client.kvAddrIndexList.size).find? fun ele =>
    ele.addr = addr ∧ ele.count ≠ -1

/-- The loop of `linkToKVAddr` stays in `kv_addr_list_`, and the count of the slot that the
address gets does not overflow. -/
def LinkRuns (addr : Bytes) : Prop :=
  match client.slotFor addr with
  | some ele => ele.count < intMax
  | none => client.kvAddrIndexList.size ≤ client.kvAddrList.length ∧
      ∀ id ∈ client.reusedQueue.head?, ∃ ele, client.kvAddrList[id]? = some ele ∧
        ele.count < intMax

/-- `FailCache` finds the slot of the inode, and its count does not overflow. -/
def FailRuns (ino : Nat) : Prop :=
  ∃ ele, client.kvAddrList[(client.kvAddrIndexList.find ino).getD 0]? = some ele ∧
    intMin < ele.count

end Client

inductive ClientCall where
  | get (ino : Nat) (answer : Bytes)
  | failCache (ino : Nat)
  deriving DecidableEq, Repr

def Client.call (client : Client) : ClientCall → Option (Client.Reply × Client)
  | .get ino answer => client.getKVAddrByInum ino answer
  | .failCache ino => client.failCache ino

abbrev ClientEvent := ClientCall × Client.Reply

structure ClientSession where
  client : Client
  past : List ClientEvent

namespace ClientSession

def new : ClientSession := ⟨.new, []⟩

def step (session : ClientSession) (call : ClientCall) : Option ClientSession := do
  let (reply, client) ← session.client.call call
  return ⟨client, session.past ++ [(call, reply)]⟩

end ClientSession

section Specification

variable (past : List ClientEvent)

def lastAnswer (ino : Nat) : Option Bytes :=
  past.reverse.findSome? fun event =>
    match event.1 with
    | .get other answer => if other = ino ∧ event.2.asked then some answer else none
    | .failCache _ => none

def failedLast (ino : Nat) : Bool :=
  past.foldl (fun failed event =>
    match event.1 with
    | .get other _ => if other = ino then false else failed
    | .failCache other => if other = ino then true else failed) false

def holdAfter (ino : Nat) (held : Option Nat) (event : ClientEvent) : Option Nat :=
  match event.1 with
  | .get other _ => if other = ino ∧ event.2.asked then event.2.linked else held
  | .failCache other => if other = ino ∨ event.2.freed = held then none else held

/-- The slot that an inode holds: it was linked to it when the master was asked last, and
since then neither was the inode failed nor the slot freed. -/
def heldSlot (ino : Nat) : Option Nat :=
  past.foldl (holdAfter ino) none

/-- What the cache is for: an address that is returned is the last one that the master gave
for the inode, and after a `FailCache` the master is asked. -/
def Coherent : ClientEvent → Prop
  | (.get ino answer, reply) =>
      (reply.returned ≠ [] →
        lastAnswer (past ++ [(.get ino answer, reply)]) ino = some reply.returned) ∧
      (failedLast past ino = true → reply.asked = true)
  | (.failCache _, _) => True

namespace ClientSession

/-- The loop of `linkToKVAddr` stays in `kv_addr_list_`, and no count overflows. -/
def LinkDefined (client : Client) (addr : Bytes) : Prop :=
  (client.kvAddrIndexList.size ≤ client.kvAddrList.length ∨
    ∃ i < client.kvAddrIndexList.size, ∃ ele, client.kvAddrList[i]? = some ele ∧
      ele.addr = addr ∧ ele.count ≠ -1) ∧
  ∀ ele ∈ client.kvAddrList, ele.count < intMax

def Safe (session : ClientSession) : ClientCall → Prop
  | .get ino answer =>
      (session.client.kvAddrConnectStatus.find ino = some 0 →
        (heldSlot session.past ino).isSome) ∧
      (session.client.kvAddrConnectStatus.find ino ≠ some 0 → answer ≠ [] →
        LinkDefined session.client answer)
  | .failCache _ =>
      session.client.kvAddrList ≠ [] ∧ ∀ ele ∈ session.client.kvAddrList, intMin < ele.count

end ClientSession

end Specification

section Histories

variable {past : List ClientEvent} {event : ClientEvent} {ino : Nat}

@[simp]
theorem heldSlot_concat :
    heldSlot (past ++ [event]) ino = holdAfter ino (heldSlot past ino) event := by
  rw [heldSlot, List.foldl_concat]
  rfl

theorem heldSlot_of_failedLast (failed : failedLast past ino = true) :
    heldSlot past ino = none := by
  induction past using List.reverseRecOn with
  | nil => rfl
  | append_singleton past event ih =>
      obtain ⟨call, reply⟩ := event
      rw [failedLast, List.foldl_concat] at failed
      rw [heldSlot_concat]
      cases call with
      | get other answer =>
          simp only at failed
          split at failed
          · cases failed
          next different =>
            rw [holdAfter]
            simp only [different, false_and, if_false]
            exact ih failed
      | failCache other =>
          simp only at failed
          rw [holdAfter]
          split at failed
          next same => simp only [same, true_or, if_true]
          next different =>
            simp only [ih failed]
            split
            · rfl
            · rfl

theorem lastAnswer_asked {answer : Bytes} {reply : Client.Reply} (asked : reply.asked = true) :
    lastAnswer (past ++ [(.get ino answer, reply)]) ino = some answer := by
  simp [lastAnswer, asked]

theorem lastAnswer_other {call : ClientCall} {reply : Client.Reply}
    (other : ∀ answer, call = .get ino answer → reply.asked = false) :
    lastAnswer (past ++ [(call, reply)]) ino = lastAnswer past ino := by
  cases call with
  | failCache failed => simp [lastAnswer]
  | get requested answer =>
      by_cases same : requested = ino
      · subst same
        simp [lastAnswer, other answer rfl]
      · simp [lastAnswer, same]

end Histories

namespace Client

variable {client next : Client} {ino slot : Nat} {addr answer : Bytes}

theorem indexed_insert {index : OrderedMap Nat Nat} {bound place : Nat}
    (indexed : ∀ other slot, index.find other = some slot → slot < bound) (inside : place < bound)
    (other slot : Nat) (found : (index.insert ino place).find other = some slot) :
    slot < bound := by
  by_cases same : other = ino
  · rw [same, OrderedMap.find_insert_self] at found
    obtain rfl := Option.some.inj found
    exact inside
  · rw [OrderedMap.find_insert_of_ne _ same] at found
    exact indexed other slot found

/-- The queue holds slots without an address, each once, and inodes have slots that exist. -/
structure Sound (client : Client) : Prop where
  indexed : ∀ ino slot, client.kvAddrIndexList.find ino = some slot →
    slot < client.kvAddrList.length
  free : ∀ id ∈ client.reusedQueue, ∃ ele, client.kvAddrList[id]? = some ele ∧
    ele.addr = [] ∧ ele.count < 0
  once : client.reusedQueue.Nodup

structure Linked (client : Client) (ino : Nat) (addr : Bytes) (slot : Nat) (next : Client) :
    Prop where
  index : next.kvAddrIndexList = client.kvAddrIndexList.insert ino slot
  gets : ∃ count, next.kvAddrList[slot]? = some ⟨addr, count⟩
  others : ∀ other ele, other ≠ slot → client.kvAddrList[other]? = some ele →
    next.kvAddrList[other]? = some ele
  held : ∀ ele, client.kvAddrList[slot]? = some ele → ele.addr = [] ∨ ele.addr = addr
  queue : next.reusedQueue.Sublist client.reusedQueue
  taken : slot ∉ next.reusedQueue

theorem scan_spec (list : List AddrSlot) (addr : Bytes) (left i : Nat) :
    match ((list.drop i).take left).find? fun ele => ele.addr = addr ∧ ele.count ≠ -1 with
    | some ele => ∃ slot, scan list addr left i = some (some slot) ∧ list[slot]? = some ele
    | none =>
        scan list addr left i = if left ≤ (list.drop i).length then some none else none := by
  induction left generalizing i with
  | zero => simp [scan]
  | succ left ih =>
      rcases Nat.lt_or_ge i list.length with inside | outside
      · rw [List.drop_eq_getElem_cons inside, List.take_succ_cons, scan,
          List.getElem?_eq_getElem inside]
        simp only [bind, Option.bind_some, List.length_cons, Nat.add_le_add_iff_right]
        by_cases here : list[i].addr = addr ∧ list[i].count ≠ -1
        · rw [List.find?_cons_of_pos (by simpa using here)]
          exact ⟨i, if_pos here, List.getElem?_eq_getElem inside⟩
        · rw [List.find?_cons_of_neg (by simpa using here), if_neg here]
          exact ih (i + 1)
      · rw [List.drop_eq_nil_of_le outside, List.take_nil, List.find?_nil, scan,
          List.getElem?_eq_none outside]
        rfl

variable {ele : AddrSlot}

theorem slotFor_spec (found : client.slotFor addr = some ele) :
    ele.addr = addr ∧ ele.count ≠ -1 := by
  have stopped := List.find?_some found
  simpa using stopped

theorem linkToKVAddr_of_some (found : client.slotFor addr = some ele) (ino : Nat) :
    ∃ slot, client.kvAddrList[slot]? = some ele ∧
      client.linkToKVAddr ino addr = (client.link ino slot addr).map (slot, ·) := by
  have scanned := scan_spec client.kvAddrList addr client.kvAddrIndexList.size 0
  rw [List.drop_zero, ← slotFor, found] at scanned
  obtain ⟨slot, stopped, present⟩ := scanned
  refine ⟨slot, present, ?_⟩
  rw [linkToKVAddr, stopped, Option.map_eq_bind]
  rfl

theorem linkToKVAddr_of_none (missing : client.slotFor addr = none) (ino : Nat) :
    client.linkToKVAddr ino addr =
      if client.kvAddrIndexList.size ≤ client.kvAddrList.length then
        (client.getNextId.2.link ino client.getNextId.1 addr).map (client.getNextId.1, ·)
      else none := by
  have scanned := scan_spec client.kvAddrList addr client.kvAddrIndexList.size 0
  rw [List.drop_zero, ← slotFor, missing] at scanned
  rw [linkToKVAddr, scanned]
  split
  · rw [Option.map_eq_bind]
    rfl
  · rfl

theorem link_eq_some :
    client.link ino slot addr = some next ↔
      ∃ ele, client.kvAddrList[slot]? = some ele ∧ ele.count < intMax ∧
        next = { client with
          kvAddrIndexList := client.kvAddrIndexList.insert ino slot
          kvAddrConnectStatus := client.kvAddrConnectStatus.insert slot 0
          kvAddrList := client.kvAddrList.set slot ⟨addr, ele.count + 1⟩ } := by
  refine Option.bind_eq_some_iff.trans (exists_congr fun ele => and_congr_right fun _ => ?_)
  simp only [bind, increment]
  split
  next room => simp [pure, room, eq_comm]
  next full => simp [full]

theorem isSome_link :
    (client.link ino slot addr).isSome ↔
      ∃ ele, client.kvAddrList[slot]? = some ele ∧ ele.count < intMax := by
  simp only [Option.isSome_iff_exists, link_eq_some]
  constructor
  · rintro ⟨next, ele, present, room, -⟩
    exact ⟨ele, present, room⟩
  · rintro ⟨ele, present, room⟩
    exact ⟨_, ele, present, room, rfl⟩

theorem isSome_linkToKVAddr (ino : Nat) :
    (client.linkToKVAddr ino addr).isSome ↔ client.LinkRuns addr := by
  rw [LinkRuns]
  cases stopped : client.slotFor addr with
  | some ele =>
      obtain ⟨slot, present, runs⟩ := linkToKVAddr_of_some stopped ino
      rw [runs, Option.isSome_map, isSome_link]
      simp only [present, Option.some.injEq, exists_eq_left']
  | none =>
      rw [linkToKVAddr_of_none stopped]
      split
      next inside =>
        rw [Option.isSome_map, isSome_link, and_iff_right inside, getNextId]
        cases client.reusedQueue with
        | nil => simpa using (by decide : (0 : Int) < intMax)
        | cons id rest => simp
      next outside => simp [outside]

theorem isSome_release :
    (client.release slot).isSome ↔
      ∃ ele, client.kvAddrList[slot]? = some ele ∧ intMin < ele.count := by
  rw [release]
  cases client.kvAddrList[slot]? with
  | none => simp
  | some ele =>
      have low : intMin < 0 := by decide
      simp only [bind, Option.bind_some, Option.some.injEq, exists_eq_left', decrement]
      split_ifs with zero room
      · simp [zero, low]
      · simp only [Option.bind_some]
        split_ifs <;> simp [room]
      · simp [room]

theorem isSome_failCache : (client.failCache ino).isSome ↔ client.FailRuns ino := by
  rw [failCache, FailRuns]
  simp only [slotOf]
  cases client.kvAddrIndexList.find ino with
  | none => exact isSome_release
  | some slot => exact isSome_release

theorem getElem?_set_other {list : List AddrSlot} {other : Nat} {new : AddrSlot}
    (different : other ≠ slot) (present : list[other]? = some ele) :
    (list.set slot new)[other]? = some ele := by
  rw [List.getElem?_set_ne different.symm]
  exact present

theorem getElem?_set_here {list : List AddrSlot} (present : list[slot]? = some ele)
    (new : AddrSlot) : (list.set slot new)[slot]? = some new := by
  obtain ⟨inside, -⟩ := List.getElem?_eq_some_iff.mp present
  exact List.getElem?_set_self inside

theorem linked_of_link (client middle : Client) (ino : Nat)
    (index : middle.kvAddrIndexList = client.kvAddrIndexList)
    (kept : ∀ (other : Nat) ele, client.kvAddrList[other]? = some ele →
      middle.kvAddrList[other]? = some ele) (present : middle.kvAddrList[slot]? = some ele)
    (room : ele.count < intMax) (held : ele.addr = [] ∨ ele.addr = addr)
    (queue : middle.reusedQueue.Sublist client.reusedQueue) (taken : slot ∉ middle.reusedQueue) :
    ∃ next, middle.link ino slot addr = some next ∧ client.Linked ino addr slot next := by
  refine ⟨_, link_eq_some.mpr ⟨ele, present, room, rfl⟩, ?_, ?_, ?_, ?_, queue, taken⟩
  · rw [index]
  · exact ⟨_, getElem?_set_here present _⟩
  · intro other found different old
    exact getElem?_set_other different (kept other found old)
  · intro found old
    obtain rfl := Option.some.inj ((kept slot found old).symm.trans present)
    exact held

theorem Sound.getNextId_eq (sound : client.Sound) :
    ∃ id middle ele, client.getNextId = (id, middle) ∧
      middle.kvAddrIndexList = client.kvAddrIndexList ∧
      (∀ (other : Nat) ele, client.kvAddrList[other]? = some ele →
        middle.kvAddrList[other]? = some ele) ∧
      middle.kvAddrList[id]? = some ele ∧ ele.count ≤ 0 ∧ ele.addr = [] ∧
      middle.reusedQueue.Sublist client.reusedQueue ∧ id ∉ middle.reusedQueue := by
  have once := sound.once
  have free := sound.free
  rw [getNextId]
  split
  next empty =>
    refine ⟨_, _, ⟨[], 0⟩, rfl, rfl, ?_, by simp, Int.le_refl _, rfl, List.Sublist.refl _, ?_⟩
    · intro other ele old
      rw [List.getElem?_append_left (List.getElem?_eq_some_iff.mp old).1]
      exact old
    · simp only [empty, List.not_mem_nil, not_false_iff]
  next id rest queue =>
    rw [queue] at once free ⊢
    obtain ⟨ele, present, empty, negative⟩ := free id List.mem_cons_self
    exact ⟨id, _, ele, rfl, rfl, fun _ _ old => old, present, Int.le_of_lt negative, empty,
      List.sublist_cons_self _ _, (List.nodup_cons.mp once).1⟩

theorem Sound.linkToKVAddr_eq (sound : client.Sound) (ino : Nat) (nonempty : addr ≠ [])
    (defined : ClientSession.LinkDefined client addr) :
    ∃ slot next, client.linkToKVAddr ino addr = some (slot, next) ∧
      client.Linked ino addr slot next := by
  obtain ⟨inside, room⟩ := defined
  cases found : client.slotFor addr with
  | none =>
      have within : client.kvAddrIndexList.size ≤ client.kvAddrList.length := by
        refine inside.resolve_right ?_
        rintro ⟨i, below, ele, present, matching⟩
        have reached : (client.kvAddrList.take client.kvAddrIndexList.size)[i]? = some ele := by
          rw [List.getElem?_take_of_lt below, present]
        refine List.find?_eq_none.mp found ele (List.mem_of_getElem? reached) ?_
        simpa using matching
      obtain ⟨id, middle, ele, nextId, index, kept, present, low, empty, queue, taken⟩ :=
        sound.getNextId_eq
      obtain ⟨next, made, linked⟩ := linked_of_link client middle ino index kept present
        (lt_of_le_of_lt low (by decide)) (Or.inl empty) queue taken
      refine ⟨id, next, ?_, linked⟩
      rw [linkToKVAddr_of_none found, if_pos within, nextId, made]
      rfl
  | some ele =>
      obtain ⟨slot, present, runs⟩ := linkToKVAddr_of_some found ino
      have named := (slotFor_spec found).1
      have unqueued : slot ∉ client.reusedQueue := by
        intro member
        obtain ⟨free, freePresent, empty, -⟩ := sound.free slot member
        obtain rfl := Option.some.inj (freePresent.symm.trans present)
        exact nonempty (named.symm.trans empty)
      obtain ⟨next, made, linked⟩ := linked_of_link client client ino rfl (fun _ _ old => old)
        present (room ele (List.mem_of_getElem? present)) (Or.inr named) (List.Sublist.refl _)
        unqueued
      refine ⟨slot, next, ?_, linked⟩
      rw [runs, made]
      rfl

theorem Linked.length_le (linked : client.Linked ino addr slot next) {other : Nat}
    (inside : other < client.kvAddrList.length) : other < next.kvAddrList.length := by
  by_cases same : other = slot
  · obtain ⟨count, present⟩ := linked.gets
    rw [same]
    exact (List.getElem?_eq_some_iff.mp present).1
  · have kept := linked.others other _ same (List.getElem?_eq_getElem inside)
    exact (List.getElem?_eq_some_iff.mp kept).1

section

variable (sound : client.Sound)

include sound

theorem Sound.linked (linked : client.Linked ino addr slot next) : next.Sound := by
  refine ⟨?_, ?_, linked.queue.nodup sound.once⟩
  · obtain ⟨count, present⟩ := linked.gets
    rw [linked.index]
    refine indexed_insert (fun other place found => ?_) (List.getElem?_eq_some_iff.mp present).1
    exact linked.length_le (sound.indexed other place found)
  · intro id member
    obtain ⟨ele, present, empty, negative⟩ := sound.free id (linked.queue.subset member)
    have different : id ≠ slot := by
      rintro rfl
      exact linked.taken member
    exact ⟨ele, linked.others id ele different present, empty, negative⟩

theorem Sound.slotOf_eq (nonempty : client.kvAddrList ≠ []) (ino : Nat) :
    ∃ id middle ele, client.slotOf ino = (id, middle) ∧
      (∀ other, other ≠ ino →
        middle.kvAddrIndexList.find other = client.kvAddrIndexList.find other) ∧
      middle.kvAddrList = client.kvAddrList ∧ middle.Sound ∧
      client.kvAddrList[id]? = some ele := by
  have positive : 0 < client.kvAddrList.length := List.length_pos_iff.mpr nonempty
  rw [slotOf]
  split
  next id found =>
    exact ⟨id, client, _, rfl, fun _ _ => rfl, rfl, sound,
      List.getElem?_eq_getElem (sound.indexed ino id found)⟩
  next absent =>
    refine ⟨0, _, _, rfl, fun other different => OrderedMap.find_insert_of_ne _ different _, rfl,
      ⟨indexed_insert sound.indexed positive, sound.free, sound.once⟩,
      List.getElem?_eq_getElem positive⟩

/-- What `FailCache` does: the other inodes keep their slots, and the slots that are not freed
keep their addresses. -/
structure Failed (client : Client) (ino : Nat) (freed : Option Nat) (next : Client) : Prop where
  index : ∀ other, other ≠ ino →
    next.kvAddrIndexList.find other = client.kvAddrIndexList.find other
  slots : ∀ (slot : Nat) ele, client.kvAddrList[slot]? = some ele → freed ≠ some slot →
    ∃ count, next.kvAddrList[slot]? = some ⟨ele.addr, count⟩
  sound : next.Sound

theorem Sound.set {new : AddrSlot} (present : client.kvAddrList[slot]? = some ele)
    (free : slot ∈ client.reusedQueue → new.addr = [] ∧ new.count < 0) :
    ({ client with kvAddrList := client.kvAddrList.set slot new } : Client).Sound := by
  refine ⟨?_, ?_, sound.once⟩
  · intro other place found
    rw [List.length_set]
    exact sound.indexed other place found
  · intro id member
    by_cases same : id = slot
    · subst same
      exact ⟨new, getElem?_set_here present new, free member⟩
    · obtain ⟨old, oldPresent, rest⟩ := sound.free id member
      exact ⟨old, getElem?_set_other same oldPresent, rest⟩

theorem Sound.free_slot (present : client.kvAddrList[slot]? = some ele)
    (used : slot ∉ client.reusedQueue) :
    ({ client with
      kvAddrList := client.kvAddrList.set slot ⟨[], -1⟩
      reusedQueue := client.reusedQueue ++ [slot] } : Client).Sound := by
  have changed : ({ client with
      kvAddrList := client.kvAddrList.set slot ⟨[], -1⟩ } : Client).Sound :=
    sound.set present fun member => absurd member used
  refine ⟨changed.indexed, ?_, ?_⟩
  · intro id member
    rcases List.mem_append.mp member with old | last
    · exact changed.free id old
    · rw [List.mem_singleton.mp last]
      exact ⟨⟨[], -1⟩, getElem?_set_here present _, rfl, by decide⟩
  · rw [← List.concat_eq_append]
    exact (List.nodup_concat _ _).mpr ⟨used, sound.once⟩

theorem Sound.release_eq (present : client.kvAddrList[slot]? = some ele) (room : intMin < ele.count)
    (ino : Nat) :
    ∃ freed next, client.release slot = some (⟨false, [], none, freed⟩, next) ∧
      client.Failed ino freed next := by
  have unchanged : ∀ (new : AddrSlot), new.addr = ele.addr → ∀ (other : Nat) old,
      client.kvAddrList[other]? = some old →
        ∃ count, (client.kvAddrList.set slot new)[other]? = some ⟨old.addr, count⟩ := by
    intro new named other old oldPresent
    by_cases same : other = slot
    · subst same
      obtain rfl := Option.some.inj (oldPresent.symm.trans present)
      exact ⟨new.count, by rw [getElem?_set_here present, ← named]⟩
    · exact ⟨old.count, getElem?_set_other same oldPresent⟩
  rw [release, present]
  simp only [bind, Option.bind, decrement, if_pos room]
  split
  · exact ⟨none, client, rfl, fun _ _ => rfl, fun _ old oldPresent _ => ⟨old.count, oldPresent⟩,
      sound⟩
  next counted =>
    split
    next last =>
      -- the count was one, so the slot is not in the queue
      have used : slot ∉ client.reusedQueue := by
        intro member
        obtain ⟨free, freePresent, -, negative⟩ := sound.free slot member
        obtain rfl := Option.some.inj (freePresent.symm.trans present)
        omega
      refine ⟨some slot, _, rfl, fun _ _ => rfl, ?_, sound.free_slot present used⟩
      intro other old oldPresent different
      exact ⟨old.count, getElem?_set_other (fun same => different (congrArg some same.symm))
        oldPresent⟩
    next more =>
      refine ⟨none, _, rfl, fun _ _ => rfl, ?_, sound.set present ?_⟩
      · intro other old oldPresent _
        exact unchanged ⟨ele.addr, ele.count - 1⟩ rfl other old oldPresent
      · intro member
        obtain ⟨free, freePresent, empty, negative⟩ := sound.free slot member
        obtain rfl := Option.some.inj (freePresent.symm.trans present)
        exact ⟨empty, by simp only; omega⟩

theorem Sound.failCache_eq (nonempty : client.kvAddrList ≠ [])
    (room : ∀ ele ∈ client.kvAddrList, intMin < ele.count) (ino : Nat) :
    ∃ freed next, client.failCache ino = some (⟨false, [], none, freed⟩, next) ∧
      client.Failed ino freed next := by
  let marked : Client :=
    { client with kvAddrConnectStatus := client.kvAddrConnectStatus.insert ino 1 }
  have markedSound : marked.Sound := ⟨sound.indexed, sound.free, sound.once⟩
  obtain ⟨id, middle, ele, lookup, index, list, middleSound, present⟩ :=
    markedSound.slotOf_eq nonempty ino
  have low := room ele (List.mem_of_getElem? present)
  rw [← list] at present
  obtain ⟨freed, next, released, failed⟩ := middleSound.release_eq present low ino
  refine ⟨freed, next, ?_, fun other different => ?_, ?_, failed.sound⟩
  · rw [failCache]
    rw [show Client.slotOf { client with
      kvAddrConnectStatus := client.kvAddrConnectStatus.insert ino 1 } ino = _ from lookup]
    exact released
  · rw [failed.index other different]
    exact index other different
  · intro slot old oldPresent kept
    refine failed.slots slot old ?_ kept
    rw [list]
    exact oldPresent

end

end Client

namespace ClientSession

variable {session : ClientSession} {ino : Nat} {call : ClientCall}

structure Tracks (session : ClientSession) : Prop where
  sound : session.client.Sound
  holds : ∀ ino slot, heldSlot session.past ino = some slot →
    session.client.kvAddrIndexList.find ino = some slot ∧
      ∃ ele, session.client.kvAddrList[slot]? = some ele ∧ ele.addr ≠ [] ∧
        lastAnswer session.past ino = some ele.addr

theorem tracks_new : new.Tracks := by
  refine ⟨⟨?_, ?_, List.nodup_nil⟩, ?_⟩
  · rintro ino slot ⟨⟩
  · rintro id ⟨⟩
  · rintro ino slot ⟨⟩

theorem Tracks.served (tracks : session.Tracks) (answer : Bytes) (returned : Bytes) :
    (⟨session.client, session.past ++
      [(.get ino answer, ⟨false, returned, none, none⟩)]⟩ : ClientSession).Tracks := by
  refine ⟨tracks.sound, ?_⟩
  intro other slot held
  rw [heldSlot_concat] at held
  simp only [holdAfter, Bool.false_eq_true, and_false, if_false] at held
  rw [lastAnswer_other fun _ _ => rfl]
  exact tracks.holds other slot held

theorem Tracks.unanswered (tracks : session.Tracks) (answer : Bytes) :
    (⟨session.client, session.past ++
      [(.get ino answer, ⟨true, [], none, none⟩)]⟩ : ClientSession).Tracks := by
  refine ⟨tracks.sound, ?_⟩
  intro other slot held
  rw [heldSlot_concat] at held
  simp only [holdAfter, and_true] at held
  split at held
  · cases held
  next different =>
    rw [lastAnswer_other fun _ same => absurd (ClientCall.get.inj same).1 different]
    exact tracks.holds other slot held

theorem Tracks.linked (tracks : session.Tracks) {addr : Bytes} {slot : Nat} {next : Client}
    (nonempty : addr ≠ []) (linked : session.client.Linked ino addr slot next) :
    (⟨next, session.past ++
      [(.get ino addr, ⟨true, addr, some slot, none⟩)]⟩ : ClientSession).Tracks := by
  refine ⟨tracks.sound.linked linked, ?_⟩
  intro other place held
  rw [heldSlot_concat] at held
  simp only [holdAfter, and_true] at held
  simp only [linked.index]
  split at held
  next same =>
    subst same
    obtain rfl := Option.some.inj held
    obtain ⟨count, present⟩ := linked.gets
    exact ⟨OrderedMap.find_insert_self .., _, present, nonempty, lastAnswer_asked rfl⟩
  next different =>
    obtain ⟨found, ele, present, named, last⟩ := tracks.holds other place held
    rw [OrderedMap.find_insert_of_ne _ (Ne.symm different),
      lastAnswer_other fun _ same => absurd (ClientCall.get.inj same).1 different]
    refine ⟨found, ?_⟩
    by_cases shared : place = slot
    · subst shared
      obtain ⟨count, given⟩ := linked.gets
      have same := (linked.held ele present).resolve_left named
      exact ⟨_, given, nonempty, by rw [last, same]⟩
    · exact ⟨ele, linked.others place ele shared present, named, last⟩

theorem Tracks.failed (tracks : session.Tracks) {freed : Option Nat} {next : Client}
    (failed : session.client.Failed ino freed next) :
    (⟨next, session.past ++
      [(.failCache ino, ⟨false, [], none, freed⟩)]⟩ : ClientSession).Tracks := by
  refine ⟨failed.sound, ?_⟩
  intro other slot held
  rw [heldSlot_concat] at held
  simp only [holdAfter] at held
  split at held
  · cases held
  next kept =>
    rw [not_or] at kept
    obtain ⟨found, ele, present, named, last⟩ := tracks.holds other slot held
    obtain ⟨count, still⟩ := failed.slots slot ele present (by rw [← held]; exact kept.2)
    simp only [failed.index other (Ne.symm kept.1)]
    rw [lastAnswer_other (by rintro answer ⟨⟩)]
    exact ⟨found, _, still, named, last⟩

theorem Tracks.safe_call (tracks : session.Tracks) (safe : session.Safe call) :
    ∃ reply next, session.client.call call = some (reply, next) ∧
      Coherent session.past (call, reply) ∧
      (⟨next, session.past ++ [(call, reply)]⟩ : ClientSession).Tracks := by
  cases call with
  | failCache ino =>
      obtain ⟨nonempty, room⟩ := safe
      obtain ⟨freed, next, ran, failed⟩ := tracks.sound.failCache_eq nonempty room ino
      exact ⟨_, next, ran, trivial, tracks.failed failed⟩
  | get ino answer =>
      obtain ⟨holds, defined⟩ := safe
      by_cases status : session.client.kvAddrConnectStatus.find ino = some 0
      · obtain ⟨slot, held⟩ := Option.isSome_iff_exists.mp (holds status)
        obtain ⟨found, ele, present, named, last⟩ := tracks.holds ino slot held
        refine ⟨⟨false, ele.addr, none, none⟩, session.client, ?_, ⟨?_, ?_⟩,
          tracks.served answer ele.addr⟩
        · simp only [Client.call, Client.getKVAddrByInum, Client.getKVAddrByInumViaCache, status,
            Client.slotOf, found, present, bind, Option.bind, if_true, pure, if_neg named]
        · intro _
          rw [lastAnswer_other fun _ _ => rfl]
          exact last
        · intro failed
          rw [heldSlot_of_failedLast failed] at held
          cases held
      · by_cases silent : answer = []
        · subst silent
          refine ⟨⟨true, [], none, none⟩, session.client, ?_,
            ⟨fun some => absurd rfl some, fun _ => rfl⟩, tracks.unanswered []⟩
          simp only [Client.call, Client.getKVAddrByInum, Client.getKVAddrByInumViaCache, status,
            bind, Option.bind, if_false, if_true, pure]
        · obtain ⟨slot, next, linkedTo, linked⟩ :=
            tracks.sound.linkToKVAddr_eq ino silent (defined status silent)
          refine ⟨⟨true, answer, some slot, none⟩, next, ?_,
            ⟨fun _ => lastAnswer_asked rfl, fun _ => rfl⟩, tracks.linked silent linked⟩
          simp only [Client.call, Client.getKVAddrByInum, Client.getKVAddrByInumViaCache, status,
            bind, Option.bind, if_false, if_true, pure, if_neg silent, linkedTo]

theorem tracks_of_run {calls : List ClientCall}
    (run : Run (Guarded (StepOf step) Safe) .new calls session) :
    session.Tracks ∧ ∀ before event after, session.past = before ++ event :: after →
      Coherent before event := by
  refine run.invariant (fun session => session.Tracks ∧ ∀ before event after,
    session.past = before ++ event :: after → Coherent before event) ⟨tracks_new, ?_⟩ ?_
  · intro before event after empty
    exact absurd empty.symm (List.append_ne_nil_of_right_ne_nil _ (List.cons_ne_nil _ _))
  · rintro session call next ⟨tracks, coherent⟩ ⟨safe, ran⟩
    obtain ⟨reply, client, called, now, later⟩ := tracks.safe_call safe
    rw [StepOf, step, called] at ran
    obtain rfl := Option.some.inj ran
    refine ⟨later, ?_⟩
    intro before event after split
    rcases List.eq_nil_or_concat after with rfl | ⟨rest, last, rfl⟩
    · obtain ⟨rfl, same⟩ := List.append_inj' split rfl
      obtain rfl := List.singleton_inj.mp same
      exact now
    · rw [List.concat_eq_append, ← List.cons_append, ← List.append_assoc] at split
      exact coherent before event rest (List.append_inj' split rfl).1

/-- While every call is safe, each address that is returned is the last one that the master
gave for the inode, and the master is asked again after a `FailCache`.  A safe call is
defined. -/
theorem address_cache_coherent {calls : List ClientCall}
    (run : Run (Guarded (StepOf step) Safe) .new calls session) :
    (∀ before event after, session.past = before ++ event :: after → Coherent before event) ∧
      ∀ call, session.Safe call → ∃ reply next,
        session.client.call call = some (reply, next) ∧ Coherent session.past (call, reply) := by
  obtain ⟨tracks, coherent⟩ := tracks_of_run run
  refine ⟨coherent, fun call safe => ?_⟩
  obtain ⟨reply, next, called, now, -⟩ := tracks.safe_call safe
  exact ⟨reply, next, called, now⟩

/-- Inode 0 gets slot 0 and is served from it the second time. -/
theorem address_cache_coherent_hit :
    ∃ session, Run (StepOf step) .new [.get 0 [97], .get 0 [98]] session ∧
      ∀ before event after, session.past = before ++ event :: after → Coherent before event := by
  have first : new.Safe (.get 0 [97]) := by
    refine And.intro ?_ fun _ _ => And.intro (Or.inl (Nat.le_refl _)) ?_
    · rintro ⟨⟩
    · rintro ele ⟨⟩
  have safe : Meets step Safe .new [.get 0 [97], .get 0 [98]] := by
    refine ⟨first, ?_⟩
    rintro next ⟨⟩
    exact ⟨And.intro (fun _ => rfl) fun status => absurd rfl status, fun _ _ => trivial⟩
  have run := guarded_of_exec rfl safe
  exact ⟨_, run.mono fun _ _ _ guarded => guarded.2, (address_cache_coherent run).1⟩

/-- The master gave addresses for the inodes 5 and 6 only, and inode 1 is served with the one
of inode 5. -/
theorem slot_number_served :
    ∃ session, Run (StepOf step) .new [.get 5 [97], .get 6 [98], .get 1 [99]] session ∧
      session.past.getLast? = some (.get 1 [99], ⟨false, [97], none, none⟩) ∧
      lastAnswer session.past 1 = none := by
  have run := run_of_exec (rfl : exec step .new [.get 5 [97], .get 6 [98], .get 1 [99]] = some _)
  exact ⟨_, run, rfl, rfl⟩

/-- Two inodes with one address make the loop of the next link leave the list. -/
example : (exec step .new [.get 5 [97], .get 6 [97], .get 7 [98]]).isNone := rfl

end ClientSession

end Ctgfs.Placement
