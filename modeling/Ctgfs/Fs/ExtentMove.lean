import Ctgfs.Foundation.OrderedMap
import Ctgfs.Fs.ExtentCache

/-!
# Moving extents to another server

`extent_server::move` takes the extents out under the mutex, puts them to the other server
without it, and then erases those whose put was reported to be done.  A put that fails may
have been done.
-/

namespace Ctgfs.Fs

open Foundation

/-- `extent_protocol::status`. -/
inductive ExtentStatus where
  | ok
  | rpcerr
  | noent
  | ioerr
  deriving DecidableEq, Repr

def colon : Byte := ⟨58, by decide⟩

/-- What is behind the last `':'` of an address, or all of it. -/
def portPart (address : Bytes) : Bytes :=
  (address.reverse.takeWhile (· ≠ colon)).reverse

/-- The port of an address; there is none without a `':'`. -/
def portOf (address : Bytes) : Option Bytes :=
  if address.contains colon then some (portPart address) else none

/-- What becomes of the RPCs of a move: which ports can be bound, what happens to the put of an
extent, and the time on the other server then. -/
structure Connection where
  bind : Bytes → Bool
  delivery : ExtentId → Delivery
  now : ExtentId → UInt32

def Connection.Reported (connection : Connection) (address : Bytes) (id : ExtentId) : Prop :=
  ∃ port, portOf address = some port ∧ connection.bind port = true ∧
    connection.delivery id = .answered

namespace ExtentServer

def takeExtent (server : ExtentServer) (extents : OrderedMap ExtentId Extent) (eid : ExtentId) :
    OrderedMap ExtentId Extent :=
  match server.extentMap eid with
  | some extent => extents.insert eid extent
  | none => extents

/-- One put, with the other server and `deleted_ok` after it.  `call` takes the content by a
constant reference, so `std::move` leaves it where it is. -/
def movePut (connection : Connection) (progress : ExtentServer × List ExtentId)
    (entry : ExtentId × Extent) : ExtentServer × List ExtentId :=
  let handled := progress.1.put (connection.now entry.1) entry.1 entry.2.content
  match (connection.delivery entry.1).deliver progress.1 (handled, Except.ok ()) with
  | (dst, .ok ()) => (dst, entry.1 :: progress.2)
  | (dst, .error _) => (dst, progress.2)

/-- Erase an extent that has been moved.  The `InfoCollector` is not told. -/
def eraseMoved (deletedOk : List ExtentId) (server : ExtentServer)
    (entry : ExtentId × Extent) : ExtentServer :=
  if deletedOk.contains entry.1 then server.set entry.1 none else server

/-- `extent_server::move`, with both servers after it. -/
def move (connection : Connection) (server dst : ExtentServer) (ids : List ExtentId)
    (address : Bytes) : ExtentStatus × ExtentServer × ExtentServer :=
  let extents := ids.foldl server.takeExtent .empty
  match portOf address with
  | none => (.ioerr, server, dst)
  | some port =>
      if connection.bind port then
        let moved := extents.entries.foldl (movePut connection) (dst, [])
        (.ok, extents.entries.foldl (eraseMoved moved.2) server, moved.1)
      else (.rpcerr, server, dst)

section Phases

variable (connection : Connection) (server : ExtentServer)

theorem find_takeExtent (ids : List ExtentId) (extents : OrderedMap ExtentId Extent)
    (id : ExtentId) :
    (ids.foldl server.takeExtent extents).find id =
      if id ∈ ids then (server.extentMap id).or (extents.find id) else extents.find id := by
  induction ids generalizing extents with
  | nil => rfl
  | cons eid rest ih =>
      rw [List.foldl_cons, ih, takeExtent]
      by_cases same : id = eid
      · subst same
        cases server.extentMap id with
        | none => simp
        | some extent => simp
      · cases server.extentMap eid with
        | none => simp [same]
        | some extent => simp [same, extents.find_insert_of_ne same]

variable {id : ExtentId}

theorem mem_takeExtent {ids : List ExtentId} {extent : Extent} :
    (id, extent) ∈ (ids.foldl server.takeExtent .empty).entries ↔
      id ∈ ids ∧ server.extentMap id = some extent := by
  rw [← OrderedMap.find_eq_some, find_takeExtent, OrderedMap.find_empty, Option.or_none]
  split
  next named => simp [named]
  next unnamed => simp [unnamed]

variable {entry : ExtentId × Extent}

theorem movePut_answered {connection : Connection}
    (answered : connection.delivery entry.1 = .answered) (progress : ExtentServer × List ExtentId) :
    movePut connection progress entry =
      (progress.1.put (connection.now entry.1) entry.1 entry.2.content, entry.1 :: progress.2) := by
  rw [movePut, answered]
  rfl

theorem movePut_failed {connection : Connection} (failed : connection.delivery entry.1 ≠ .answered)
    (progress : ExtentServer × List ExtentId) :
    (movePut connection progress entry).2 = progress.2 := by
  rw [movePut]
  cases happened : connection.delivery entry.1 with
  | answered => exact absurd happened failed
  | lost => rfl
  | unanswered => rfl

theorem extentMap_movePut_of_ne (different : id ≠ entry.1)
    (progress : ExtentServer × List ExtentId) :
    (movePut connection progress entry).1.extentMap id = progress.1.extentMap id := by
  have kept (now : UInt32) (buf : Bytes) :
      (progress.1.put now entry.1 buf).extentMap id = progress.1.extentMap id := by
    rw [extentMap_put, Function.update_of_ne different]
  rw [movePut]
  cases connection.delivery entry.1 with
  | answered => exact kept _ _
  | lost => rfl
  | unanswered => exact kept _ _

variable {entries : List (ExtentId × Extent)}

theorem extentMap_foldl_movePut_of_absent (absent : ∀ entry ∈ entries, id ≠ entry.1)
    (progress : ExtentServer × List ExtentId) :
    (entries.foldl (movePut connection) progress).1.extentMap id = progress.1.extentMap id := by
  induction entries generalizing progress with
  | nil => rfl
  | cons entry rest ih =>
      obtain ⟨first, later⟩ := List.forall_mem_cons.mp absent
      rw [List.foldl_cons, ih later, extentMap_movePut_of_ne connection first]

theorem copied_of_answered {extent : Extent} (unique : (entries.map Prod.fst).Nodup)
    (member : (id, extent) ∈ entries) (answered : connection.delivery id = .answered)
    (progress : ExtentServer × List ExtentId) :
    ∃ copy, (entries.foldl (movePut connection) progress).1.extentMap id = some copy ∧
      copy.content = extent.content := by
  induction entries generalizing progress with
  | nil => exact absurd member List.not_mem_nil
  | cons entry rest ih =>
      obtain ⟨new, later⟩ := List.nodup_cons.mp unique
      rw [List.foldl_cons]
      rcases List.mem_cons.mp member with rfl | old
      · have absent : ∀ entry ∈ rest, id ≠ entry.1 := by
          intro entry old same
          exact new (List.mem_map.mpr ⟨entry, old, same.symm⟩)
        rw [extentMap_foldl_movePut_of_absent connection absent, movePut_answered answered,
          extentMap_put, Function.update_self]
        exact ⟨_, rfl, rfl⟩
      · exact ih later old _

theorem mem_deletedOk (progress : ExtentServer × List ExtentId) :
    id ∈ (entries.foldl (movePut connection) progress).2 ↔
      id ∈ progress.2 ∨ id ∈ entries.map Prod.fst ∧ connection.delivery id = .answered := by
  induction entries generalizing progress with
  | nil => simp
  | cons entry rest ih =>
      rw [List.foldl_cons, ih, List.map_cons, List.mem_cons]
      by_cases answered : connection.delivery entry.1 = .answered
      · rw [movePut_answered answered, List.mem_cons]
        grind
      · rw [movePut_failed answered]
        grind

theorem extentMap_eraseMoved (deletedOk : List ExtentId) (entry : ExtentId × Extent)
    (id : ExtentId) :
    (eraseMoved deletedOk server entry).extentMap id =
      if id ∈ deletedOk ∧ id = entry.1 then none else server.extentMap id := by
  by_cases same : id = entry.1
  · subst same
    by_cases moved : entry.1 ∈ deletedOk
    · simp [eraseMoved, moved]
    · simp [eraseMoved, moved]
  · rw [if_neg fun erased => same erased.2, eraseMoved]
    split
    · rw [extentMap_set, Function.update_of_ne same]
    · rfl

theorem extentMap_foldl_eraseMoved (deletedOk : List ExtentId)
    (entries : List (ExtentId × Extent)) (id : ExtentId) :
    (entries.foldl (eraseMoved deletedOk) server).extentMap id =
      if id ∈ deletedOk ∧ id ∈ entries.map Prod.fst then none else server.extentMap id := by
  induction entries generalizing server with
  | nil => simp
  | cons entry rest ih =>
      rw [List.foldl_cons, ih, extentMap_eraseMoved, List.map_cons]
      grind

theorem extentMap_moved (dst : ExtentServer) (ids : List ExtentId) (id : ExtentId) :
    let entries := (ids.foldl server.takeExtent .empty).entries
    (entries.foldl (eraseMoved (entries.foldl (movePut connection) (dst, [])).2) server).extentMap
        id =
      if id ∈ ids ∧ connection.delivery id = .answered then none else server.extentMap id := by
  intro entries
  have keys : id ∈ entries.map Prod.fst ↔ id ∈ ids ∧ (server.extentMap id).isSome := by
    simp [entries, mem_takeExtent, Option.isSome_iff_exists]
  simp only [extentMap_foldl_eraseMoved, mem_deletedOk, keys]
  cases server.extentMap id with
  | none => simp
  | some extent => simp [and_right_comm]

end Phases

structure MovesExactly (connection : Connection) (server dst : ExtentServer)
    (ids : List ExtentId) (address : Bytes)
    (result : ExtentStatus × ExtentServer × ExtentServer) : Prop where
  /-- An extent whose put was reported to be done is on the other server only. -/
  moved : ∀ id extent, server.extentMap id = some extent → id ∈ ids →
    connection.Reported address id →
      (∃ copy, result.2.2.extentMap id = some copy ∧ copy.content = extent.content) ∧
        result.2.1.extentMap id = none
  /-- Any other extent is where it was. -/
  kept : ∀ id extent, server.extentMap id = some extent →
    ¬ (id ∈ ids ∧ connection.Reported address id) → result.2.1.extentMap id = some extent
  /-- Neither server sees a change of an extent that was not named, or was not there. -/
  untouched : ∀ id, id ∉ ids ∨ server.extentMap id = none →
    result.2.1.extentMap id = server.extentMap id ∧ result.2.2.extentMap id = dst.extentMap id
  failed : result.1 ≠ .ok → result.2.1 = server

theorem movesExactly_of_unreported {connection : Connection} {ids : List ExtentId}
    {address : Bytes} (unreported : ∀ id, ¬ connection.Reported address id)
    (server dst : ExtentServer) (status : ExtentStatus) :
    MovesExactly connection server dst ids address (status, server, dst) where
  moved id _ _ _ reported := absurd reported (unreported id)
  kept _ _ there _ := there
  untouched _ _ := ⟨rfl, rfl⟩
  failed _ := rfl

/-- Whatever becomes of the puts, every extent is moved or kept. -/
theorem move_moves_exactly (connection : Connection) (server dst : ExtentServer)
    (ids : List ExtentId) (address : Bytes) :
    MovesExactly connection server dst ids address (move connection server dst ids address) := by
  rw [move]
  cases parsed : portOf address with
  | none =>
      apply movesExactly_of_unreported
      rintro id ⟨port, found, -⟩
      exact absurd (parsed.symm.trans found) (by simp)
  | some port =>
      have reported (id : ExtentId) : connection.Reported address id ↔
          connection.bind port = true ∧ connection.delivery id = .answered := by
        simp [Connection.Reported, parsed]
      by_cases bound : connection.bind port = true
      · dsimp only
        rw [if_pos bound]
        have unique := (ids.foldl server.takeExtent .empty).keys_nodup
        exact {
          moved := by
            intro id extent there named done
            have answered := ((reported id).mp done).2
            constructor
            · exact copied_of_answered connection unique
                ((mem_takeExtent server).mpr ⟨named, there⟩) answered (dst, [])
            · rw [extentMap_moved, if_pos ⟨named, answered⟩]
          kept := by
            intro id extent there unmoved
            rw [extentMap_moved, if_neg fun both =>
              unmoved ⟨both.1, (reported id).mpr ⟨bound, both.2⟩⟩, there]
          untouched := by
            intro id none
            constructor
            · rw [extentMap_moved]
              grind
            · apply extentMap_foldl_movePut_of_absent
              rintro entry member rfl
              obtain ⟨named, there⟩ := (mem_takeExtent server).mp member
              rcases none with unnamed | gone
              · exact unnamed named
              · exact absurd (gone.symm.trans there) (by simp)
          failed := fun wrong => absurd rfl wrong }
      · dsimp only
        rw [if_neg bound]
        apply movesExactly_of_unreported
        intro id done
        exact bound ((reported id).mp done).1

end ExtentServer

end Ctgfs.Fs
