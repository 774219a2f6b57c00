import Ctgfs.Placement.AddressCache
import Mathlib.Data.List.Count

/-!
# The counts of the address slots

A slot of the address cache counts the inodes that are linked to it.  The count goes down with
every `FailCache`, and with the last one the slot is recycled.
-/

namespace Ctgfs.Placement

open Foundation

section Specification

def linkAfter (linked : List Nat) (event : ClientEvent) : List Nat :=
  match event.1 with
  | .get ino _ => if event.2.linked.isSome then linked.insert ino else linked
  | .failCache ino => linked.erase ino

def linkedInos (past : List ClientEvent) : List Nat :=
  past.foldl linkAfter []

def users (index : OrderedMap Nat Nat) (linked : List Nat) (slot : Nat) : Nat :=
  linked.countP fun ino => index.find ino = some slot

/-- The slots are well counted: an index is one of a slot, a slot that is in use has the count of
its users, and a slot is recycled when it has none. -/
structure Client.WellCounted (client : Client) (linked : List Nat) : Prop where
  indexed : ∀ ino slot, client.kvAddrIndexList.find ino = some slot →
    slot < client.kvAddrList.length
  counted : ∀ slot ele, client.kvAddrList[slot]? = some ele →
    users client.kvAddrIndexList linked slot ≠ 0 →
      ele.count = (users client.kvAddrIndexList linked slot : Int)
  recycled : ∀ slot, slot ∈ client.reusedQueue ↔
    slot < client.kvAddrList.length ∧ users client.kvAddrIndexList linked slot = 0

/-- A link is defined and keeps the counts: the inode is not linked, and an address that has no
slot gets a new one. -/
def Client.LinkKeeps (client : Client) (linked : List Nat) (ino : Nat) (addr : Bytes) : Prop :=
  ino ∉ linked ∧ client.LinkRuns addr ∧
    (client.slotFor addr = none → client.reusedQueue = [])

namespace ClientSession

def WellCounted (session : ClientSession) : Prop :=
  session.client.WellCounted (linkedInos session.past)

/-- `FailCache` is only called for an inode that is linked. -/
def Legal (session : ClientSession) : ClientCall → Prop
  | .get _ _ => True
  | .failCache ino => ino ∈ linkedInos session.past

def Keeps (session : ClientSession) : ClientCall → Prop
  | .get ino answer => answer ≠ [] → ∀ middle,
      session.client.getKVAddrByInumViaCache ino = some ([], middle) →
        middle.LinkKeeps (linkedInos session.past) ino answer
  | .failCache ino => ino ∈ linkedInos session.past

end ClientSession

end Specification

section Users

variable {index : OrderedMap Nat Nat} {linked : List Nat} {ino slot : Nat}

theorem users_ne_zero (member : ino ∈ linked) (here : index.find ino = some slot) :
    users index linked slot ≠ 0 := by
  intro none
  exact List.countP_eq_zero.mp none ino member (decide_eq_true here)

theorem users_insert (unlinked : ino ∉ linked) (place : Nat) :
    users (index.insert ino place) linked slot = users index linked slot := by
  apply List.countP_congr
  intro other member
  have different : other ≠ ino := fun same => unlinked (same ▸ member)
  rw [OrderedMap.find_insert_of_ne _ different]

theorem users_link (unlinked : ino ∉ linked) (place : Nat) :
    users (index.insert ino place) (ino :: linked) slot =
      users index linked slot + if place = slot then 1 else 0 := by
  have others : (linked.countP fun other => (index.insert ino place).find other = some slot) =
      users index linked slot :=
    users_insert unlinked place
  rw [users, List.countP_cons, others, OrderedMap.find_insert_self]
  simp

theorem users_erase (member : ino ∈ linked) (here : index.find ino = some slot) (other : Nat) :
    users index (linked.erase ino) other + (if slot = other then 1 else 0) =
      users index linked other := by
  rw [users, users, (List.perm_cons_erase member).countP_eq, List.countP_cons, here]
  simp

theorem users_relink (once : linked.Nodup) (member : ino ∈ linked)
    (here : index.find ino = some slot) (place other : Nat) :
    users (index.insert ino place) linked other + (if slot = other then 1 else 0) =
      users index linked other + if place = other then 1 else 0 := by
  have before := users_erase member here other
  have after := users_erase member (index.find_insert_self ino place) other
  rw [users_insert once.not_mem_erase] at after
  omega

theorem set_ne_nil {list : List AddrSlot} {new : AddrSlot} (inside : slot < list.length) :
    list.set slot new ≠ [] := by
  apply List.ne_nil_of_length_pos
  rw [List.length_set]
  exact Nat.zero_lt_of_lt inside

end Users

namespace Client

variable {client next : Client} {linked : List Nat} {ino slot : Nat} {addr : Bytes}

/-- The counts with what is needed to keep them: a recycled slot has the count `-1`, and no inode
is served from the cache as long as there is no slot. -/
structure Books (client : Client) (linked : List Nat) : Prop where
  indexed : ∀ ino slot, client.kvAddrIndexList.find ino = some slot →
    slot < client.kvAddrList.length
  once : linked.Nodup
  found : ∀ ino ∈ linked, ∃ slot, client.kvAddrIndexList.find ino = some slot
  used : ∀ slot ele, client.kvAddrList[slot]? = some ele → slot ∉ client.reusedQueue →
    ele.count = (users client.kvAddrIndexList linked slot : Int) ∧
      users client.kvAddrIndexList linked slot ≠ 0
  free : ∀ slot ∈ client.reusedQueue, users client.kvAddrIndexList linked slot = 0 ∧
    ∃ ele, client.kvAddrList[slot]? = some ele ∧ ele.count = -1
  served : ∀ key, client.kvAddrConnectStatus.find key = some 0 → client.kvAddrList ≠ []

theorem Books.wellCounted (books : client.Books linked) : client.WellCounted linked where
  indexed := books.indexed
  counted slot ele present some := by
    by_cases queued : slot ∈ client.reusedQueue
    · exact absurd (books.free slot queued).1 some
    · exact (books.used slot ele present queued).1
  recycled slot := by
    constructor
    · intro queued
      obtain ⟨none, ele, present, -⟩ := books.free slot queued
      exact ⟨(List.getElem?_eq_some_iff.mp present).1, none⟩
    · rintro ⟨inside, none⟩
      by_contra used
      exact (books.used slot _ (List.getElem?_eq_getElem inside) used).2 none

theorem Books.unqueued (books : client.Books linked) (member : ino ∈ linked)
    (found : client.kvAddrIndexList.find ino = some slot) : slot ∉ client.reusedQueue :=
  fun queued => users_ne_zero member found (books.free slot queued).1

variable {ele : AddrSlot}

theorem Books.link (books : client.Books linked) (unlinked : ino ∉ linked) {list : List AddrSlot}
    (long : client.kvAddrList.length ≤ list.length)
    (others : ∀ other old, other ≠ slot → list[other]? = some old →
      client.kvAddrList[other]? = some old)
    (kept : ∀ other ∈ client.reusedQueue, list[other]? = client.kvAddrList[other]?)
    (here : list[slot]? = some ele)
    (count : ele.count = (users client.kvAddrIndexList linked slot : Int))
    (unqueued : slot ∉ client.reusedQueue) :
    ({ client with
      kvAddrIndexList := client.kvAddrIndexList.insert ino slot
      kvAddrConnectStatus := client.kvAddrConnectStatus.insert slot 0
      kvAddrList := list.set slot ⟨addr, ele.count + 1⟩ } : Client).Books (ino :: linked) where
  indexed := by
    rw [List.length_set]
    exact indexed_insert (fun other place found => (books.indexed other place found).trans_le long)
      (List.getElem?_eq_some_iff.mp here).1
  once := List.nodup_cons.mpr ⟨unlinked, books.once⟩
  found other member := by
    by_cases same : other = ino
    · exact ⟨slot, by rw [same, OrderedMap.find_insert_self]⟩
    · obtain ⟨place, found⟩ := books.found other ((List.mem_cons.mp member).resolve_left same)
      exact ⟨place, by rw [OrderedMap.find_insert_of_ne _ same, found]⟩
  used other old present free := by
    rw [users_link unlinked]
    by_cases same : slot = other
    · subst same
      rw [getElem?_set_here here] at present
      obtain rfl := Option.some.inj present
      rw [if_pos rfl, count]
      exact ⟨rfl, Nat.succ_ne_zero _⟩
    · rw [List.getElem?_set_ne same] at present
      rw [if_neg same, Nat.add_zero]
      exact books.used other old (others other old (Ne.symm same) present) free
  free other queued := by
    have different : slot ≠ other := fun same => unqueued (same ▸ queued)
    rw [users_link unlinked, if_neg different, Nat.add_zero, List.getElem?_set_ne different,
      kept other queued]
    exact books.free other queued
  served _ _ := set_ne_nil (List.getElem?_eq_some_iff.mp here).1

theorem Books.not_wellCounted_of_relink (books : client.Books linked) (addr : Bytes)
    (member : ino ∈ linked)
    (index : next.kvAddrIndexList = client.kvAddrIndexList.insert ino slot)
    (others : ∀ other ele, other ≠ slot → client.kvAddrList[other]? = some ele →
      next.kvAddrList[other]? = some ele)
    (here : ∀ ele, client.kvAddrList[slot]? = some ele →
      next.kvAddrList[slot]? = some ⟨addr, ele.count + 1⟩)
    (queue : next.reusedQueue ⊆ client.reusedQueue) : ¬ next.WellCounted linked := by
  intro wellCounted
  obtain ⟨place, found⟩ := books.found ino member
  have present := List.getElem?_eq_getElem (books.indexed ino place found)
  have unqueued := books.unqueued member found
  obtain ⟨count, used⟩ := books.used place _ present unqueued
  have moved := users_relink books.once member found slot place
  rw [← index, if_pos rfl] at moved
  by_cases same : slot = place
  · subst same
    rw [if_pos rfl] at moved
    have counted := wellCounted.counted slot _ (here _ present) (by omega)
    dsimp only at counted
    omega
  · rw [if_neg same] at moved
    have still := others place _ (Ne.symm same) present
    by_cases none : users next.kvAddrIndexList linked place = 0
    · exact unqueued (queue ((wellCounted.recycled place).mpr
        ⟨(List.getElem?_eq_some_iff.mp still).1, none⟩))
    · have counted := wellCounted.counted place _ still none
      omega

theorem getNextId_of_nil (empty : client.reusedQueue = []) :
    client.getNextId = (client.kvAddrList.length,
      { client with kvAddrList := client.kvAddrList ++ [⟨[], 0⟩] }) := by
  rw [getNextId, empty]

theorem Books.linkToKVAddr (books : client.Books linked)
    (keeps : client.LinkKeeps linked ino addr) :
    ∃ slot next, client.linkToKVAddr ino addr = some (slot, next) ∧
      next.Books (linked.insert ino) := by
  obtain ⟨unlinked, runs, empty⟩ := keeps
  rw [List.insert_of_not_mem unlinked]
  rw [LinkRuns] at runs
  cases stopped : client.slotFor addr with
  | none =>
      rw [stopped] at runs
      replace empty := empty stopped
      have none : users client.kvAddrIndexList linked client.kvAddrList.length = 0 := by
        apply List.countP_eq_zero.mpr
        intro other _ found
        exact absurd (books.indexed other _ (of_decide_eq_true found)) (Nat.lt_irrefl _)
      have here : (client.kvAddrList ++ [⟨[], 0⟩])[client.kvAddrList.length]? =
          some (⟨[], 0⟩ : AddrSlot) := List.getElem?_concat_length
      rw [linkToKVAddr_of_none stopped, if_pos runs.1, getNextId_of_nil empty,
        link_eq_some.mpr ⟨_, here, by decide, rfl⟩]
      refine ⟨_, _, rfl, ?_⟩
      apply books.link unlinked (by simp) _ _ here (by rw [none]; rfl) (by simp [empty])
      · intro other old different present
        have inside := (List.getElem?_eq_some_iff.mp present).1
        rw [List.length_append, List.length_singleton] at inside
        rwa [List.getElem?_append_left (by omega)] at present
      · simp [empty]
  | some ele =>
      rw [stopped] at runs
      obtain ⟨slot, present, made⟩ := linkToKVAddr_of_some stopped ino
      have unqueued : slot ∉ client.reusedQueue := by
        intro queued
        obtain ⟨-, free, freePresent, recycled⟩ := books.free slot queued
        obtain rfl := Option.some.inj (present.symm.trans freePresent)
        exact (slotFor_spec stopped).2 recycled
      rw [made, link_eq_some.mpr ⟨_, present, runs, rfl⟩]
      refine ⟨slot, _, rfl, ?_⟩
      exact books.link unlinked (Nat.le_refl _) (fun _ _ _ old => old) (fun _ _ => rfl) present
        (books.used slot ele present unqueued).1 unqueued

theorem Books.empty_of_wellCounted (books : client.Books linked)
    (link : client.getNextId.2.link ino client.getNextId.1 addr = some next)
    (wellCounted : next.WellCounted (linked.insert ino)) : client.reusedQueue = [] := by
  cases queue : client.reusedQueue with
  | nil => rfl
  | cons id rest =>
      rw [getNextId, queue] at link
      obtain ⟨ele, present, -, rfl⟩ := link_eq_some.mp link
      obtain ⟨-, free, freePresent, recycled⟩ := books.free id (queue ▸ List.mem_cons_self)
      obtain rfl := Option.some.inj (freePresent.symm.trans present)
      have used := users_ne_zero (List.mem_insert_self (l := linked))
        (client.kvAddrIndexList.find_insert_self ino id)
      have counted := wellCounted.counted id _ (getElem?_set_here present _) used
      dsimp only at counted
      omega

theorem Books.linkKeeps (books : client.Books linked)
    (made : client.linkToKVAddr ino addr = some (slot, next))
    (wellCounted : next.WellCounted (linked.insert ino)) :
    client.LinkKeeps linked ino addr := by
  have runs : client.LinkRuns addr := (isSome_linkToKVAddr ino).mp (by rw [made]; rfl)
  cases stopped : client.slotFor addr with
  | some ele =>
      obtain ⟨place, present, eq⟩ := linkToKVAddr_of_some stopped ino
      obtain ⟨linked', link, pair⟩ := Option.map_eq_some_iff.mp (eq.symm.trans made)
      cases pair
      obtain ⟨again, here, -, rfl⟩ := link_eq_some.mp link
      obtain rfl := Option.some.inj (present.symm.trans here)
      refine ⟨fun member => ?_, runs, fun missing => absurd (stopped.symm.trans missing) (by simp)⟩
      rw [List.insert_of_mem member] at wellCounted
      refine absurd wellCounted (books.not_wellCounted_of_relink addr member rfl
        (fun other old different before => getElem?_set_other different before)
        (fun old before => ?_) (List.Subset.refl _))
      obtain rfl := Option.some.inj (present.symm.trans before)
      exact getElem?_set_here present _
  | none =>
      rw [linkToKVAddr_of_none stopped] at made
      split at made
      next =>
        obtain ⟨linked', link, pair⟩ := Option.map_eq_some_iff.mp made
        cases pair
        have empty := books.empty_of_wellCounted link wellCounted
        rw [getNextId_of_nil empty] at link
        obtain ⟨ele, -, -, rfl⟩ := link_eq_some.mp link
        refine ⟨fun member => ?_, runs, fun _ => empty⟩
        rw [List.insert_of_mem member] at wellCounted
        refine absurd wellCounted (books.not_wellCounted_of_relink addr member rfl
          (fun other old different before => ?_) (fun old before => ?_) (List.Subset.refl _))
        · apply getElem?_set_other different
          rw [List.getElem?_append_left (List.getElem?_eq_some_iff.mp before).1, before]
        · exact absurd (List.getElem?_eq_some_iff.mp before).1 (Nat.lt_irrefl _)
      next => cases made

theorem Books.viaCache (books : client.Books linked) (ino : Nat) :
    ∃ addr middle, client.getKVAddrByInumViaCache ino = some (addr, middle) ∧
      middle.Books linked := by
  rw [getKVAddrByInumViaCache]
  split
  next status =>
    have positive : 0 < client.kvAddrList.length :=
      List.length_pos_iff.mpr (books.served ino status)
    rw [slotOf]
    cases found : client.kvAddrIndexList.find ino with
    | some slot =>
        have present := List.getElem?_eq_getElem (books.indexed ino slot found)
        exact ⟨_, client, by simp only [present, bind, Option.bind_some]; rfl, books⟩
    | none =>
        have unlinked : ino ∉ linked := by
          intro member
          obtain ⟨slot, indexed⟩ := books.found ino member
          exact absurd (found.symm.trans indexed) (by simp)
        have present := List.getElem?_eq_getElem positive
        refine ⟨_, { client with kvAddrIndexList := client.kvAddrIndexList.insert ino 0 },
          by simp only [present, bind, Option.bind_some]; rfl,
          indexed_insert books.indexed positive, books.once, ?_, ?_, ?_, books.served⟩
        · intro other member
          have different : other ≠ ino := fun same => unlinked (same ▸ member)
          rw [OrderedMap.find_insert_of_ne _ different]
          exact books.found other member
        · intro slot ele here unqueued
          rw [users_insert unlinked]
          exact books.used slot ele here unqueued
        · intro slot queued
          rw [users_insert unlinked]
          exact books.free slot queued
  next => exact ⟨[], client, rfl, books⟩

theorem getKVAddrByInum_eq {middle : Client} {answer : Bytes}
    (cached : client.getKVAddrByInumViaCache ino = some (addr, middle)) :
    client.getKVAddrByInum ino answer =
      if addr = [] then
        if answer = [] then some (⟨true, [], none, none⟩, middle)
        else (middle.linkToKVAddr ino answer).map fun linked =>
          (⟨true, answer, some linked.1, none⟩, linked.2)
      else some (⟨false, addr, none, none⟩, middle) := by
  rw [getKVAddrByInum, cached, Option.map_eq_bind]
  rfl

theorem Books.unlink (books : client.Books linked) (member : ino ∈ linked)
    (found : client.kvAddrIndexList.find ino = some slot) {new : AddrSlot} {queue : List Nat}
    (mem_queue : ∀ other, other ∈ queue ↔ other ∈ client.reusedQueue ∨
      other = slot ∧ users client.kvAddrIndexList (linked.erase ino) slot = 0)
    (count : new.count = if users client.kvAddrIndexList (linked.erase ino) slot = 0 then -1
      else (users client.kvAddrIndexList (linked.erase ino) slot : Int)) :
    ({ client with
      kvAddrConnectStatus := client.kvAddrConnectStatus.insert ino 1
      kvAddrList := client.kvAddrList.set slot new
      reusedQueue := queue } : Client).Books (linked.erase ino) where
  indexed other place indexed := by
    rw [List.length_set]
    exact books.indexed other place indexed
  once := books.once.erase ino
  found other still := books.found other (List.mem_of_mem_erase still)
  used other old present unqueued := by
    rw [mem_queue, not_or] at unqueued
    have fewer := users_erase member found other
    by_cases same : slot = other
    · subst same
      have used : users client.kvAddrIndexList (linked.erase ino) slot ≠ 0 :=
        fun none => unqueued.2 ⟨rfl, none⟩
      rw [List.getElem?_set_self (books.indexed ino slot found)] at present
      obtain rfl := Option.some.inj present
      rw [if_neg used] at count
      exact ⟨count, used⟩
    · rw [if_neg same, Nat.add_zero] at fewer
      rw [List.getElem?_set_ne same] at present
      rw [fewer]
      exact books.used other old present unqueued.1
  free other queued := by
    have fewer := users_erase member found other
    by_cases same : slot = other
    · subst same
      obtain ⟨-, none⟩ :=
        ((mem_queue slot).mp queued).resolve_left (books.unqueued member found)
      rw [if_pos none] at count
      exact ⟨none, new, List.getElem?_set_self (books.indexed ino slot found), count⟩
    · rw [if_neg same, Nat.add_zero] at fewer
      have old := ((mem_queue other).mp queued).resolve_right fun last => same last.1.symm
      rw [fewer, List.getElem?_set_ne same]
      exact books.free other old
  served _ _ := set_ne_nil (books.indexed ino slot found)

theorem release_last (present : client.kvAddrList[slot]? = some ele) (last : ele.count = 1) :
    client.release slot = some (⟨false, [], none, some slot⟩,
      { client with
        kvAddrList := client.kvAddrList.set slot ⟨[], -1⟩
        reusedQueue := client.reusedQueue ++ [slot] }) := by
  rw [release, present]
  simp only [bind, Option.bind_some, last]
  rfl

theorem release_more (present : client.kvAddrList[slot]? = some ele) (more : 1 < ele.count) :
    client.release slot = some (⟨false, [], none, none⟩,
      { client with kvAddrList := client.kvAddrList.set slot ⟨ele.addr, ele.count - 1⟩ }) := by
  have positive : intMin < ele.count := by
    have low : intMin < 0 := by decide
    omega
  rw [release, present]
  simp only [bind, Option.bind_some, decrement, if_pos positive]
  rw [if_neg (by omega), if_neg (by omega)]
  rfl

theorem Books.failCache (books : client.Books linked) (member : ino ∈ linked) :
    ∃ reply next, client.failCache ino = some (reply, next) ∧
      next.Books (linked.erase ino) := by
  obtain ⟨slot, found⟩ := books.found ino member
  obtain ⟨ele, present⟩ : ∃ ele, client.kvAddrList[slot]? = some ele :=
    ⟨_, List.getElem?_eq_getElem (books.indexed ino slot found)⟩
  obtain ⟨count, used⟩ := books.used slot ele present (books.unqueued member found)
  have fewer := users_erase member found slot
  rw [if_pos rfl] at fewer
  have running : client.failCache ino = release { client with
      kvAddrConnectStatus := client.kvAddrConnectStatus.insert ino 1 } slot := by
    rw [Client.failCache, slotOf, found]
  rw [running]
  by_cases last : users client.kvAddrIndexList (linked.erase ino) slot = 0
  · refine ⟨_, _, release_last present (by omega), books.unlink member found (fun other => ?_) ?_⟩
    · rw [List.mem_append, List.mem_singleton, and_iff_left last]
    · rw [if_pos last]
  · refine ⟨_, _, release_more present (by omega), books.unlink member found (fun other => ?_) ?_⟩
    · rw [or_iff_left fun both => last both.2]
    · rw [if_neg last, count]
      dsimp only
      omega

end Client

section Calls

variable {session next : ClientSession}

theorem linkedInos_concat (past : List ClientEvent) (event : ClientEvent) :
    linkedInos (past ++ [event]) = linkAfter (linkedInos past) event :=
  List.foldl_concat ..

namespace ClientSession

def Books (session : ClientSession) : Prop :=
  session.client.Books (linkedInos session.past)

theorem books_new : new.Books where
  indexed := by rintro ino slot ⟨⟩
  once := List.nodup_nil
  found := by rintro ino ⟨⟩
  used := by rintro slot ele ⟨⟩
  free := by rintro slot ⟨⟩
  served := by rintro key ⟨⟩

theorem step_eq (session : ClientSession) (call : ClientCall) :
    session.step call = (session.client.call call).map fun result =>
      ⟨result.2, session.past ++ [(call, result.1)]⟩ := by
  rw [Option.map_eq_bind]
  rfl

theorem books_unlinked {middle : Client} {past : List ClientEvent}
    (books : middle.Books (linkedInos past)) (ino : Nat) (answer : Bytes) {reply : Client.Reply}
    (nothing : reply.linked = none) :
    (⟨middle, past ++ [(.get ino answer, reply)]⟩ : ClientSession).Books := by
  rw [Books, linkedInos_concat, linkAfter, nothing]
  exact books

theorem Books.step (books : session.Books) {call : ClientCall} (keeps : session.Keeps call) :
    ∃ next, session.step call = some next ∧ next.Books := by
  rw [step_eq]
  cases call with
  | failCache ino =>
      obtain ⟨reply, next, called, after⟩ := Client.Books.failCache books keeps
      refine ⟨_, by rw [Client.call, called]; rfl, ?_⟩
      rw [Books, linkedInos_concat]
      exact after
  | get ino answer =>
      obtain ⟨addr, middle, cached, between⟩ := Client.Books.viaCache books ino
      rw [Client.call, Client.getKVAddrByInum_eq cached]
      split
      next empty =>
        split
        next => exact ⟨_, rfl, books_unlinked between ino answer rfl⟩
        next answered =>
          obtain ⟨slot, next, made, after⟩ :=
            between.linkToKVAddr (keeps answered middle (empty ▸ cached))
          rw [made]
          refine ⟨_, rfl, ?_⟩
          rw [Books, linkedInos_concat]
          exact after
      next => exact ⟨_, rfl, books_unlinked between ino answer rfl⟩

theorem Books.keeps_iff (books : session.Books) {call : ClientCall} (legal : session.Legal call) :
    (∃ next, session.step call = some next ∧ next.WellCounted) ↔ session.Keeps call := by
  constructor
  · rintro ⟨next, taken, wellCounted⟩
    cases call with
    | failCache ino => exact legal
    | get ino answer =>
        intro answered middle cached
        obtain ⟨addr, other, again, between⟩ := Client.Books.viaCache books ino
        obtain ⟨rfl, rfl⟩ := Prod.mk.inj (Option.some.inj (cached.symm.trans again))
        rw [step_eq, Client.call, Client.getKVAddrByInum_eq cached, if_pos rfl, if_neg answered,
          Option.map_map] at taken
        obtain ⟨⟨slot, client⟩, made, rfl⟩ := Option.map_eq_some_iff.mp taken
        rw [WellCounted, Function.comp_apply, linkedInos_concat] at wellCounted
        exact between.linkKeeps made wellCounted
  · intro keeps
    obtain ⟨next, taken, after⟩ := books.step keeps
    exact ⟨next, taken, after.wellCounted⟩

end ClientSession

end Calls

/-- When every call so far keeps the counts, the slots are well counted, and a legal call is
defined and leaves them so if and only if it keeps the counts. -/
theorem slots_well_counted_iff {calls : List ClientCall} {session : ClientSession}
    (run : Run (Guarded (StepOf ClientSession.step) ClientSession.Keeps) .new calls session) :
    session.WellCounted ∧ ∀ call, session.Legal call →
      ((∃ next, session.step call = some next ∧ next.WellCounted) ↔ session.Keeps call) := by
  have books : session.Books := by
    apply run.invariant ClientSession.Books ClientSession.books_new
    rintro session call next books ⟨keeps, taken⟩
    obtain ⟨other, again, after⟩ := books.step keeps
    obtain rfl := Option.some.inj (again.symm.trans taken)
    exact after
  exact ⟨Client.Books.wellCounted books, fun call legal => books.keeps_iff legal⟩

/-- Two inodes get a slot each, and one of them is failed. -/
theorem slots_well_counted_two :
    ∃ session, Run (Guarded (StepOf ClientSession.step) ClientSession.Keeps) .new
        [.get 5 [97], .get 6 [98], .failCache 5] session ∧
      session.client.reusedQueue = [0] ∧ session.WellCounted := by
  have keeps : Meets ClientSession.step ClientSession.Keeps .new
      [.get 5 [97], .get 6 [98], .failCache 5] := by
    refine And.intro ?_ ?_
    · rintro - middle ⟨⟩
      exact ⟨by decide, (Client.isSome_linkToKVAddr 5).mp rfl, fun _ => rfl⟩
    rintro _ ⟨⟩
    refine And.intro ?_ ?_
    · rintro - middle ⟨⟩
      exact ⟨by decide, (Client.isSome_linkToKVAddr 6).mp rfl, fun _ => rfl⟩
    rintro _ ⟨⟩
    exact And.intro (by decide : 5 ∈ [6, 5]) fun _ _ => trivial
  have run := guarded_of_exec rfl keeps
  exact ⟨_, run, rfl, (slots_well_counted_iff run).1⟩

/-- The loop leaves the list when two inodes have one address and a third one another, and a
recycled slot that gets a user has the count zero. -/
theorem slots_miscounted :
    (∃ session, Run (Guarded (StepOf ClientSession.step) ClientSession.Legal) .new
        [.get 5 [97], .get 6 [97]] session ∧ session.step (.get 7 [98]) = none) ∧
      ∃ session, Run (Guarded (StepOf ClientSession.step) ClientSession.Legal) .new
        [.get 5 [97], .failCache 5, .get 6 [98]] session ∧ ¬ session.WellCounted := by
  constructor
  · have legal : Meets ClientSession.step ClientSession.Legal .new
        [.get 5 [97], .get 6 [97]] := by
      exact ⟨trivial, fun _ _ => ⟨trivial, fun _ _ => trivial⟩⟩
    exact ⟨_, guarded_of_exec rfl legal, rfl⟩
  · have legal : Meets ClientSession.step ClientSession.Legal .new
        [.get 5 [97], .failCache 5, .get 6 [98]] := by
      refine ⟨trivial, ?_⟩
      rintro _ ⟨⟩
      exact And.intro (by decide : 5 ∈ [5]) fun _ _ => ⟨trivial, fun _ _ => trivial⟩
    refine ⟨_, guarded_of_exec rfl legal, fun wellCounted => ?_⟩
    have counted := wellCounted.counted 0 ⟨[98], 0⟩ rfl (by decide)
    exact absurd counted (by decide)

end Ctgfs.Placement
