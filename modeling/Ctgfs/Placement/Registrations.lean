import Ctgfs.Placement.DomainPartition

/-!
# Registrations in the prefix tree

`RegistNewKV` puts a new KV into the list of the tree.  From the third KV on it scans the list
for the place, with one iterator a step ahead of the other, so that the last turn of the scan
looks at the position past the end.  Whatever stands there, every KV that was registered is in
the list once, and a registration leaves the other KVs as they are and in their order.
-/

namespace Ctgfs.Placement

open Foundation

def KVInfo.registration (kv : KVInfo) : Int × UInt64 := (kv.id, kv.sumMemory)

def TreeCall.registration : TreeCall → Option (Int × UInt64)
  | .registNewKV _ id sumMemory => some (id, sumMemory)
  | .create _ _ _ _ | .remove _ | .adjust _ _ => none

/-! ## The positions of the scan -/

namespace PrefixTree

/-- The positions that `nxt_pos` takes while the other iterator goes from `place` to the end. -/
def scanPositions : List KVInfo → Nat → List Nat
  | [], _ => []
  | _ :: rest, place => (place + 1) :: scanPositions rest (place + 1)

/-- The positions of `kv_list_` that a registration inspects. -/
def inspected (tree : PrefixTree) : List Nat :=
  match tree.kvList with
  | [] => []
  | [_] => []
  | kvs => scanPositions kvs 0

def inspect (pastEnd : Int) (kvs : List KVInfo) (best : Int × Option Nat) (position : Nat) :
    Int × Option Nat :=
  let count := (kvs[position]?.map KVInfo.overweighedTagCnt).getD pastEnd
  if count > best.1 then (count, some (position - 1)) else best

theorem scanTags_eq_foldl (pastEnd : Int) {kvs rest : List KVInfo} {place : Nat}
    (tail : kvs.drop place = rest) (best : Int × Option Nat) :
    scanTags pastEnd rest place best =
      (scanPositions rest place).foldl (inspect pastEnd kvs) best := by
  have look : kvs[place + 1]? = rest[1]? := by
    rw [← tail, List.getElem?_drop]
  fun_induction scanTags pastEnd rest place best with
  | case1 => rfl
  | case2 only place maxRes solvePos higher =>
      simp [scanPositions, inspect, look, higher]
  | case3 only place maxRes solvePos lower =>
      simp [scanPositions, inspect, look, lower]
  | case4 first following rest place maxRes solvePos ih =>
      have next : kvs.drop (place + 1) = following :: rest := by
        rw [← List.tail_drop, tail]
        rfl
      have lookNext : kvs[place + 1 + 1]? = (following :: rest)[1]? := by
        rw [← next, List.getElem?_drop]
      have first : inspect pastEnd kvs (maxRes, solvePos) (place + 1) =
          if following.overweighedTagCnt > maxRes then (following.overweighedTagCnt, some place)
          else (maxRes, solvePos) := by
        simp [inspect, look]
      rw [ih next lookNext, ← first]
      rfl

theorem mem_scanPositions {kvs : List KVInfo} {place position : Nat} :
    position ∈ scanPositions kvs place ↔ place < position ∧ position ≤ place + kvs.length := by
  induction kvs generalizing place with
  | nil =>
      simp only [scanPositions, List.not_mem_nil, List.length_nil, false_iff]
      omega
  | cons kv rest ih =>
      rw [scanPositions, List.mem_cons, ih, List.length_cons]
      omega

theorem inspected_inside_iff (tree : PrefixTree) :
    (∀ position ∈ tree.inspected, position < tree.kvList.length) ↔ tree.kvList.length ≤ 1 := by
  rw [inspected]
  split
  next none => simp [none]
  next only shape => simp [shape]
  next none notOne =>
    constructor
    · intro inside
      have last := inside tree.kvList.length (mem_scanPositions.mpr ⟨?_, by omega⟩)
      · exact absurd last (Nat.lt_irrefl _)
      · exact List.length_pos_of_ne_nil none
    · intro short
      obtain ⟨only, shape⟩ := List.length_eq_one_iff.mp
        (Nat.le_antisymm short (List.length_pos_of_ne_nil none))
      exact absurd shape (notOne only)

/-! ## The list of the KVs -/

/-- A registration keeps the KVs that are there, in their order and as they are.  The first KV
gets the root and tags it, and a later one starts with nothing. -/
structure KeepsKvs (tree : PrefixTree) (id : Int) (sumMemory : UInt64) (after : PrefixTree) :
    Prop where
  inserted : ∃ before behind new, tree.kvList = before ++ behind ∧
    after.kvList = before ++ new :: behind ∧ new.registration = (id, sumMemory) ∧
    new.domainNodeList = if tree.kvList = [] then [tree.root.info.address] else []
  tagged : tree.kvList = [] → after.root.info.domainId = id

variable {tree after : PrefixTree} {id : Int} {sumMemory : UInt64}

theorem Registers.keepsKvs (registers : tree.Registers id sumMemory after) :
    tree.KeepsKvs id sumMemory after := by
  cases registers with
  | first none =>
      refine ⟨⟨[], [], _, none, rfl, rfl, ?_⟩, fun _ => ?_⟩
      · rw [if_pos none]
      · rw [TreeNode.setDomainId, TreeNode.info_mapInfo, if_pos rfl]
  | @later before behind others split =>
      refine ⟨⟨before, behind, _, split, rfl, rfl, ?_⟩, fun none => absurd none others⟩
      rw [if_neg others]

end PrefixTree

/-! ## Runs -/

variable {tree after : PrefixTree}

theorem registrations_adjust {turns : Nat} {targetScore : Int} {moves : List Move}
    (adjusted : tree.adjust turns targetScore = some (after, moves)) :
    after.kvList.map KVInfo.registration = tree.kvList.map KVInfo.registration := by
  refine @PrefixTree.adjust_invariant (fun after => after.kvList.map KVInfo.registration =
    tree.kvList.map KVInfo.registration) _ _ _ _ _ (fun state next same turn => ?_) rfl adjusted
  exact (turn.map_eq fun _ _ _ => rfl).trans same

theorem registrations_call {call : TreeCall} (returned : tree.call call = some after) :
    (after.kvList.map KVInfo.registration).Perm
      (tree.kvList.map KVInfo.registration ++ call.registration.toList) := by
  cases PrefixTree.called_of_call returned with
  | registNewKV pastEnd id sumMemory =>
      obtain ⟨before, behind, new, split, inserted, same, -⟩ :=
        (tree.registers_registNewKV pastEnd id sumMemory).keepsKvs.inserted
      rw [inserted, split, List.map_append, List.map_cons, List.map_append, same]
      refine List.perm_middle.trans ?_
      exact (List.perm_append_singleton _ _).symm
  | create path ino isDir nodeSz =>
      rw [map_create fun _ _ => rfl]
      exact (List.append_nil _).symm ▸ List.Perm.refl _
  | remove path => exact (List.append_nil _).symm ▸ List.Perm.refl _
  | adjust adjusted =>
      rw [registrations_adjust adjusted]
      exact (List.append_nil _).symm ▸ List.Perm.refl _

theorem registrations_run {calls : List TreeCall}
    (run : Run (StepOf PrefixTree.call) .initial calls tree) :
    (tree.kvList.map KVInfo.registration).Perm (calls.filterMap TreeCall.registration) := by
  refine run.history (fun calls tree => (tree.kvList.map KVInfo.registration).Perm
    (calls.filterMap TreeCall.registration)) (List.Perm.refl _) ?_
  intro calls tree call after perm returned
  rw [List.filterMap_append]
  have last : [call].filterMap TreeCall.registration = call.registration.toList := by
    cases call <;> rfl
  rw [last]
  exact (registrations_call returned).trans (perm.append_right _)

/-- After every run with distinct ids the list has each registered KV once, a further
registration keeps the KVs that are there, and its scan inspects only elements of the list
exactly when there is at most one KV. -/
theorem registrations_keep_kvs {calls : List TreeCall}
    (run : Run (StepOf PrefixTree.call) .initial calls tree)
    (distinct : ((calls.filterMap TreeCall.registration).map Prod.fst).Nodup) :
    (tree.kvList.map KVInfo.registration).Perm (calls.filterMap TreeCall.registration) ∧
      (tree.kvList.map KVInfo.id).Nodup ∧
      (∀ pastEnd id sumMemory,
        tree.KeepsKvs id sumMemory (tree.registNewKV pastEnd id sumMemory)) ∧
      ((∀ position ∈ tree.inspected, position < tree.kvList.length) ↔
        tree.kvList.length ≤ 1) := by
  have perm := registrations_run run
  refine ⟨perm, ?_, fun pastEnd id sumMemory => ?_, tree.inspected_inside_iff⟩
  · have ids : tree.kvList.map KVInfo.id =
        (tree.kvList.map KVInfo.registration).map Prod.fst := by
      rw [List.map_map]
      rfl
    rw [ids]
    exact (perm.map Prod.fst).nodup_iff.mpr distinct
  · exact (tree.registers_registNewKV pastEnd id sumMemory).keepsKvs

/-- Two KVs, each registered while there is at most one, and a file that `Adjust` moves. -/
theorem registrations_keep_kvs_two :
    ∃ tree, Run (StepOf PrefixTree.call) .initial
        [.registNewKV 0 1 10, .registNewKV 0 2 10, .create [97] 1 false 5, .adjust 20 40] tree ∧
      (tree.kvList.map KVInfo.registration).Perm [(1, 10), (2, 10)] ∧
      (tree.kvList.map KVInfo.id).Nodup := by
  obtain ⟨tree, run⟩ : ∃ tree, Run (StepOf PrefixTree.call) .initial
      [.registNewKV 0 1 10, .registNewKV 0 2 10, .create [97] 1 false 5, .adjust 20 40] tree :=
    ⟨_, run_of_exec rfl⟩
  have kept := registrations_keep_kvs run (by decide)
  exact ⟨tree, run, kept.1, kept.2.1⟩

/-- With two KVs the scan of a third registration inspects the position past the end, and what
is read there decides where the KV is put. -/
theorem scan_inspects_past_end :
    ∃ tree, Run (StepOf PrefixTree.call) .initial [.registNewKV 0 1 10, .registNewKV 0 2 10] tree ∧
      tree.kvList.length = 2 ∧ tree.inspected = [1, 2] ∧
      (tree.registNewKV 0 3 10).kvList.map KVInfo.id = [1, 2, 3] ∧
      (tree.registNewKV 7 3 10).kvList.map KVInfo.id = [1, 3, 2] :=
  ⟨_, run_of_exec rfl, rfl, rfl, rfl, rfl⟩

end Ctgfs.Placement
