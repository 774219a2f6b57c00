import Ctgfs.Foundation.LittleEndian
import Mathlib.Data.List.Basic

/-!
# Nodes of the prefix tree

`PrefixTreeNode` is a file or a directory.  A directory keeps its children in a set that is
ordered by their names.  Nodes are shared objects, and the lists of domains point to them, so
a node has an address beside what the source keeps in it.
-/

namespace Ctgfs.Placement

open Foundation

abbrev Address := Nat

/-- `domain_id_` of a node that no KV has been given. -/
def noDomain : Int := -1

/-- The fields of a `PrefixTreeNode`. -/
structure NodeInfo where
  address : Address
  path : Bytes
  ino : UInt64
  sz : UInt64
  domainId : Int := noDomain
  deriving DecidableEq, Repr

inductive TreeNode where
  | file (info : NodeInfo)
  | dir (info : NodeInfo) (list : List TreeNode)

namespace TreeNode

def info : TreeNode → NodeInfo
  | .file info | .dir info _ => info

def isDir : TreeNode → Bool
  | .file _ => false
  | .dir _ _ => true

def getList : TreeNode → List TreeNode
  | .file _ => []
  | .dir _ list => list

/-- The node that `lower_bound` gives for a name. -/
def lowerBound (list : List TreeNode) (path : Bytes) : Option TreeNode :=
  list.find? fun child => ¬ child.info.path < path

/-- The child with a name.  The caller of `lower_bound` compares the names. -/
def childAt (list : List TreeNode) (path : Bytes) : Option TreeNode :=
  (lowerBound list path).filter fun child => child.info.path = path

/-- `InsertNode` of a node whose name is new. -/
def insertNode (list : List TreeNode) (node : TreeNode) : List TreeNode :=
  list.takeWhile (fun child => child.info.path < node.info.path) ++
    node :: list.dropWhile fun child => child.info.path < node.info.path

def eraseNode (list : List TreeNode) (node : TreeNode) : List TreeNode :=
  list.filter fun child => child.info.path ≠ node.info.path

def replaceNode (list : List TreeNode) (node : TreeNode) : List TreeNode :=
  list.map fun child => if child.info.path = node.info.path then node else child

def pushUp (info : NodeInfo) (list : List TreeNode) : TreeNode :=
  .dir { info with sz := list.foldl (fun sz child => sz + child.info.sz) 0 } list

mutual

def nodes : TreeNode → List TreeNode
  | .file info => [.file info]
  | .dir info list => .dir info list :: nodesIn list

def nodesIn : List TreeNode → List TreeNode
  | [] => []
  | child :: rest => child.nodes ++ nodesIn rest

end

mutual

def mapInfo (change : NodeInfo → NodeInfo) : TreeNode → TreeNode
  | .file info => .file (change info)
  | .dir info list => .dir (change info) (mapInfoIn change list)

def mapInfoIn (change : NodeInfo → NodeInfo) : List TreeNode → List TreeNode
  | [] => []
  | child :: rest => child.mapInfo change :: mapInfoIn change rest

end

def retag (domain : Address → Int → Int) : TreeNode → TreeNode :=
  mapInfo fun info => { info with domainId := domain info.address info.domainId }

def nodeAt : TreeNode → List Bytes → Option TreeNode
  | node, [] => some node
  | node, name :: rest =>
      (node.getList.find? fun child => child.info.path = name).bind fun child => child.nodeAt rest

@[elab_as_elim, induction_eliminator]
theorem induction {motive : TreeNode → Prop} (file : ∀ info, motive (.file info))
    (dir : ∀ info list, (∀ child ∈ list, motive child) → motive (.dir info list))
    (node : TreeNode) : motive node :=
  @TreeNode.rec motive (fun list => ∀ child ∈ list, motive child) file dir (by simp)
    (fun _ _ head tail => by simpa using ⟨head, tail⟩) node

theorem nodesIn_eq (list : List TreeNode) : nodesIn list = list.flatMap nodes := by
  induction list with
  | nil => rfl
  | cons child rest ih => rw [nodesIn, ih, List.flatMap_cons]

theorem mapInfoIn_eq (change : NodeInfo → NodeInfo) (list : List TreeNode) :
    mapInfoIn change list = list.map (mapInfo change) := by
  induction list with
  | nil => rfl
  | cons child rest ih => rw [mapInfoIn, ih, List.map_cons]

variable {list : List TreeNode}

theorem mem_insertNode {node child : TreeNode} :
    child ∈ insertNode list node ↔ child = node ∨ child ∈ list := by
  have parts := congrArg (child ∈ ·)
    (list.takeWhile_append_dropWhile (p := fun child => child.info.path < node.info.path))
  simp only [List.mem_append, eq_iff_iff] at parts
  rw [insertNode, List.mem_append, List.mem_cons, ← parts]
  tauto

theorem find_insertNode {node : TreeNode}
    (absent : ∀ child ∈ list, child.info.path ≠ node.info.path) :
    (insertNode list node).find? (fun child => child.info.path = node.info.path) = some node := by
  have before : (list.takeWhile fun child => child.info.path < node.info.path).find?
      (fun child => child.info.path = node.info.path) = none := by
    rw [List.find?_eq_none]
    intro child member
    simpa using absent child (List.takeWhile_subset _ member)
  rw [insertNode, List.find?_append, before, Option.none_or, List.find?_cons_of_pos]
  simp

theorem paths_replaceNode (list : List TreeNode) (node : TreeNode) :
    (replaceNode list node).map (fun child => child.info.path) =
      list.map fun child => child.info.path := by
  rw [replaceNode, List.map_map]
  apply List.map_congr_left
  intro child _
  simp only [Function.comp_apply]
  split
  next same => exact same.symm
  next different => rfl

theorem childAt_eq_none {path : Bytes} (absent : ∀ child ∈ list, child.info.path ≠ path) :
    childAt list path = none := by
  rw [childAt, Option.filter_eq_none_iff]
  intro child found
  simpa using absent child (List.mem_of_find?_eq_some found)

section MapInfo

variable {change : NodeInfo → NodeInfo} (node : TreeNode)

@[simp]
theorem info_mapInfo : (node.mapInfo change).info = change node.info := by
  cases node <;> rfl

@[simp]
theorem isDir_mapInfo : (node.mapInfo change).isDir = node.isDir := by
  cases node <;> rfl

@[simp]
theorem getList_mapInfo : (node.mapInfo change).getList = node.getList.map (mapInfo change) := by
  cases node with
  | file info => rfl
  | dir info list => exact mapInfoIn_eq change list

theorem mapInfo_id : node.mapInfo id = node := by
  induction node with
  | file info => rfl
  | dir info list ih =>
      rw [mapInfo, mapInfoIn_eq, List.map_congr_left ih, List.map_id']
      rfl

theorem nodeAt_mapInfo (named : ∀ info, (change info).path = info.path) (node : TreeNode)
    (names : List Bytes) :
    (node.mapInfo change).nodeAt names = (node.nodeAt names).map (mapInfo change) := by
  induction names generalizing node with
  | nil => rfl
  | cons name rest ih =>
      rw [nodeAt, nodeAt, getList_mapInfo, List.find?_map, Option.bind_map, Option.map_bind]
      have same : ((fun child : TreeNode => decide (child.info.path = name)) ∘ mapInfo change) =
          fun child : TreeNode => decide (child.info.path = name) := by
        funext child
        simp [named]
      rw [same]
      congr 1
      funext child
      exact ih child

end MapInfo

end TreeNode

end Ctgfs.Placement
