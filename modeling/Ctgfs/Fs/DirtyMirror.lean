import Ctgfs.Fs.ExtentMove
import Ctgfs.Fs.InfoCollector

/-!
# The events of an extent server

The events that the server has told the collector, taken together, should be the sizes of the
extents that it has.
-/

namespace Ctgfs.Fs

open Foundation

/-- The requests that change what an extent server has.  A move comes with what becomes of its
RPCs and with the other server. -/
inductive ServerRequest where
  | put (now : UInt32) (id : ExtentId) (buf : Bytes)
  | setattr (now : UInt32) (id : ExtentId) (attr : Attr)
  | remove (id : ExtentId)
  | move (connection : Connection) (dst : ExtentServer) (ids : List ExtentId) (address : Bytes)

namespace ExtentServer

variable (server : ExtentServer)

def handle : ServerRequest → ExtentServer
  | .put now id buf => server.put now id buf
  | .setattr now id attr => (server.setattr now id attr).1
  | .remove id => server.remove id
  | .move connection dst ids address => (move connection server dst ids address).2.1

def started (now : UInt32) : ExtentServer :=
  put ⟨fun _ => none, []⟩ now 1 []

def sizes : ExtentId → Option Nat :=
  fun id => (server.extentMap id).map fun extent => extent.content.length

def told : ExtentId → Option Nat :=
  applyWrites (fun _ => none) (server.dirtyData.map DirtyData.write)

end ExtentServer

def ServerRequest.Puts (id : ExtentId) : ServerRequest → Prop
  | .put _ other _ => other = id
  | .setattr _ _ _ | .remove _ | .move _ _ _ _ => False

def ServerRequest.Erases (server : ExtentServer) (id : ExtentId) : ServerRequest → Prop
  | .move connection _ ids address =>
      id ∈ ids ∧ connection.Reported address id ∧ server.extentMap id ≠ none
  | .put _ _ _ | .setattr _ _ _ | .remove _ => False

namespace ExtentServer

section Updates

variable (server : ExtentServer)

@[simp]
theorem sizes_set (id : ExtentId) (extent : Option Extent) :
    (server.set id extent).sizes =
      Function.update server.sizes id (extent.map fun extent => extent.content.length) := by
  funext other
  rw [sizes, extentMap_set]
  by_cases same : other = id
  · subst same
    rw [Function.update_self, Function.update_self]
  · rw [Function.update_of_ne same, Function.update_of_ne same, sizes]

@[simp]
theorem sizes_addDirtyData (data : DirtyData) : (server.addDirtyData data).sizes = server.sizes :=
  rfl

@[simp]
theorem told_set (id : ExtentId) (extent : Option Extent) :
    (server.set id extent).told = server.told :=
  rfl

@[simp]
theorem told_addDirtyData (data : DirtyData) :
    (server.addDirtyData data).told = Function.update server.told data.inum data.effect := by
  rw [told, addDirtyData, List.map_append, List.map_singleton, applyWrites_concat]
  rfl

end Updates

section Steps

variable (server : ExtentServer) (connection : Connection)

theorem told_move (dst : ExtentServer) (ids : List ExtentId) (address : Bytes) :
    (move connection server dst ids address).2.1.told = server.told := by
  have erased (deletedOk : List ExtentId) (entries : List (ExtentId × Extent)) :
      (entries.foldl (eraseMoved deletedOk) server).told = server.told := by
    induction entries using List.reverseRecOn with
    | nil => rfl
    | append_singleton entries entry ih =>
        rw [List.foldl_concat, eraseMoved]
        split
        · rw [told_set, ih]
        · exact ih
  rw [move]
  split
  · rfl
  split
  · exact erased _ _
  · rfl

theorem extentMap_move (dst : ExtentServer) (ids : List ExtentId) (address : Bytes)
    (id : ExtentId) :
    (id ∈ ids ∧ connection.Reported address id ∧
        (move connection server dst ids address).2.1.extentMap id = none) ∨
      (¬ (id ∈ ids ∧ connection.Reported address id) ∧
        (move connection server dst ids address).2.1.extentMap id = server.extentMap id) := by
  rw [move]
  cases parsed : portOf address with
  | none => exact Or.inr ⟨by simp [Connection.Reported, parsed], rfl⟩
  | some port =>
      dsimp only
      split
      next bound =>
        rw [extentMap_moved]
        split
        next moved => exact Or.inl ⟨moved.1, ⟨port, parsed, bound, moved.2⟩, rfl⟩
        next kept =>
          refine Or.inr ⟨?_, rfl⟩
          rintro ⟨named, _, _, _, answered⟩
          exact kept ⟨named, answered⟩
      next unbound => exact Or.inr ⟨by simp [Connection.Reported, parsed, unbound], rfl⟩

def Agrees (server : ExtentServer) (id : ExtentId) : Prop :=
  server.told id = server.sizes id

def Honest (server : ExtentServer) : Prop :=
  ∀ id, server.sizes id ≠ none → server.Agrees id

inductive Effect (server next : ExtentServer) (request : ServerRequest) (id : ExtentId) :
    Prop where
  | put : request.Puts id → next.Agrees id → Effect server next request id
  | erased : request.Erases server id → server.sizes id ≠ none → next.sizes id = none →
      next.told id = server.told id → Effect server next request id
  | changed : ¬ request.Puts id → ¬ request.Erases server id → server.sizes id ≠ none →
      next.Agrees id → Effect server next request id
  | unchanged : ¬ request.Puts id → ¬ request.Erases server id →
      next.sizes id = server.sizes id → next.told id = server.told id →
      Effect server next request id

theorem effect_put (now : UInt32) (other : ExtentId) (buf : Bytes) (id : ExtentId) :
    Effect server (server.put now other buf) (.put now other buf) id := by
  have both : (server.put now other buf).sizes = Function.update server.sizes other buf.length ∧
      (server.put now other buf).told = Function.update server.told other buf.length := by
    rw [put]
    split
    · simp [DirtyData.effect, DirtyType.effect]
    · simp [DirtyData.effect, DirtyType.effect]
  by_cases same : other = id
  · subst same
    refine .put rfl ?_
    rw [Agrees, both.1, both.2, Function.update_self, Function.update_self]
  · refine .unchanged same not_false ?_ ?_
    · rw [both.1, Function.update_of_ne (Ne.symm same)]
    · rw [both.2, Function.update_of_ne (Ne.symm same)]

theorem effect_write (request : ServerRequest) (other : ExtentId) {next : ExtentServer}
    {size : Option Nat} (there : server.extentMap other ≠ none) (noPut : ∀ id, ¬ request.Puts id)
    (noMove : ∀ id, ¬ request.Erases server id)
    (sizes : next.sizes = Function.update server.sizes other size)
    (told : next.told = Function.update server.told other size) (id : ExtentId) :
    Effect server next request id := by
  by_cases same : id = other
  · subst same
    refine .changed (noPut id) (noMove id) (mt Option.map_eq_none_iff.mp there) ?_
    rw [Agrees, sizes, told, Function.update_self, Function.update_self]
  · refine .unchanged (noPut id) (noMove id) ?_ ?_
    · rw [sizes, Function.update_of_ne same]
    · rw [told, Function.update_of_ne same]

theorem effect_setattr (now : UInt32) (other : ExtentId) (attr : Attr) (id : ExtentId) :
    Effect server (server.setattr now other attr).1 (.setattr now other attr) id := by
  rw [setattr]
  cases stored : server.extentMap other with
  | none => exact .unchanged not_false not_false rfl rfl
  | some extent =>
      dsimp only
      split
      · exact .unchanged not_false not_false rfl rfl
      · apply server.effect_write (.setattr now other attr) other (by simp [stored])
          (fun _ => not_false) (fun _ => not_false)
        · rw [sizes_addDirtyData, sizes_set, Option.map_some, length_resize]
        · exact told_addDirtyData _ ⟨other, attr.size.toNat, .update⟩

theorem effect_remove (other id : ExtentId) :
    Effect server (server.remove other) (.remove other) id := by
  rw [remove]
  cases stored : server.extentMap other with
  | none => exact .unchanged not_false not_false rfl rfl
  | some extent =>
      apply server.effect_write (.remove other) other (by simp [stored]) (fun _ => not_false)
        (fun _ => not_false)
      · exact server.sizes_set other none
      · exact told_addDirtyData _ ⟨other, 0, .delete⟩

theorem effect_move (dst : ExtentServer) (ids : List ExtentId) (address : Bytes) (id : ExtentId) :
    Effect server (move connection server dst ids address).2.1
      (.move connection dst ids address) id := by
  have told := congrFun (server.told_move connection dst ids address) id
  rcases server.extentMap_move connection dst ids address id with
    ⟨named, reported, gone⟩ | ⟨kept, same⟩
  · cases stored : server.extentMap id with
    | none =>
        refine .unchanged not_false (fun erases => erases.2.2 stored) ?_ told
        rw [sizes, sizes, gone, stored]
    | some extent =>
        refine .erased ⟨named, reported, by simp [stored]⟩ (by simp [sizes, stored]) ?_ told
        rw [sizes, gone, Option.map_none]
  · refine .unchanged not_false
      (fun erases => kept ⟨erases.1, erases.2.1⟩) ?_ told
    rw [sizes, sizes, same]

theorem effect_handle (request : ServerRequest) (id : ExtentId) :
    Effect server (server.handle request) request id := by
  cases request with
  | put now other buf => exact server.effect_put now other buf id
  | setattr now other attr => exact server.effect_setattr now other attr id
  | remove other => exact server.effect_remove other id
  | move connection dst ids address => exact server.effect_move connection dst ids address id

variable {server}

/-- The collector knows an extent after a request if it was put, or if it was known and is not
moved away. -/
theorem agrees_handle (honest : server.Honest) (request : ServerRequest) (id : ExtentId) :
    (server.handle request).Agrees id ↔
      ¬ request.Erases server id ∧ (request.Puts id ∨ server.Agrees id) := by
  cases server.effect_handle request id with
  | put puts agrees =>
      have kept : ¬ request.Erases server id := by
        intro erases
        cases request with
        | put | setattr | remove => exact erases
        | move => exact puts
      exact iff_of_true agrees ⟨kept, Or.inl puts⟩
  | erased erases there gone told =>
      refine iff_of_false (fun agrees => there ?_) fun both => both.1 erases
      rw [← honest id there, ← told, agrees, gone]
  | changed other kept there agrees =>
      exact iff_of_true agrees ⟨kept, Or.inr (honest id there)⟩
  | unchanged other kept sizes told =>
      rw [Agrees, sizes, told]
      simp [other, kept, Agrees]

theorem honest_handle (honest : server.Honest) (request : ServerRequest) :
    (server.handle request).Honest := by
  intro id there
  cases server.effect_handle request id with
  | put _ agrees => exact agrees
  | erased _ _ gone _ => exact absurd gone there
  | changed _ _ _ agrees => exact agrees
  | unchanged _ _ sizes told =>
      rw [Agrees, sizes, told]
      exact honest id (sizes ▸ there)

end Steps

theorem honest_empty : (⟨fun _ => none, []⟩ : ExtentServer).Honest :=
  fun _ there => absurd rfl there

theorem honest_foldl (now : UInt32) (requests : List ServerRequest) :
    (requests.foldl handle (started now)).Honest := by
  induction requests using List.reverseRecOn with
  | nil => exact honest_handle honest_empty (.put now 1 [])
  | append_singleton requests request ih =>
      rw [List.foldl_concat]
      exact honest_handle ih request

theorem agrees_foldl_iff (now : UInt32) (requests : List ServerRequest) (id : ExtentId) :
    (requests.foldl handle (started now)).Agrees id ↔
      ∀ before request after, requests = before ++ request :: after →
        request.Erases (before.foldl handle (started now)) id →
          ∃ later ∈ after, later.Puts id := by
  induction requests using List.reverseRecOn with
  | nil =>
      apply iff_of_true
      · exact (agrees_handle honest_empty (.put now 1 []) id).mpr ⟨not_false, Or.inr rfl⟩
      · intro before request after position
        exact absurd position (by simp)
  | append_singleton requests last ih =>
      rw [List.foldl_concat, agrees_handle (honest_foldl now requests), forall_split_concat,
        ih]
      apply and_congr
      · simp
      · constructor
        · rintro (puts | known) before request after position erases
          · exact ⟨last, List.mem_append_right _ List.mem_cons_self, puts⟩
          · obtain ⟨later, member, puts⟩ := known before request after position erases
            exact ⟨later, List.mem_append_left _ member, puts⟩
        · intro known
          by_cases puts : last.Puts id
          · exact Or.inl puts
          · refine Or.inr fun before request after position erases => ?_
            obtain ⟨later, member, again⟩ := known before request after position erases
            rcases List.mem_append.mp member with old | new
            · exact ⟨later, old, again⟩
            · obtain rfl := List.mem_singleton.mp new
              exact absurd again puts

/-- What the collector was told is what the server has, if and only if every extent that was
moved away has been put again. -/
theorem dirty_data_mirrors_iff (now : UInt32) (requests : List ServerRequest) :
    (requests.foldl handle (started now)).told = (requests.foldl handle (started now)).sizes ↔
      ∀ before request after, requests = before ++ request :: after → ∀ id,
        request.Erases (before.foldl handle (started now)) id →
          ∃ later ∈ after, later.Puts id := by
  rw [funext_iff]
  constructor
  · intro same before request after position id
    exact (agrees_foldl_iff now requests id).mp (same id) before request after position
  · intro again id
    exact (agrees_foldl_iff now requests id).mpr fun before request after position =>
      again before request after position id

def answeringConnection : Connection where
  bind _ := true
  delivery _ := .answered
  now _ := 0

/-- The collector is not told that an extent is moved. -/
theorem moved_extent_untold :
    let server := [ServerRequest.put 0 5 [], .move answeringConnection ⟨fun _ => none, []⟩ [5]
      [colon]].foldl handle (started 0)
    server.told 5 = some 0 ∧ server.sizes 5 = none :=
  ⟨rfl, rfl⟩

end ExtentServer

end Ctgfs.Fs
