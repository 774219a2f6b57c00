import Ctgfs.Foundation.Ancestry
import Ctgfs.Placement.PrefixTree
import Mathlib.Data.List.Nodup

/-!
# The lines of a prefix tree

The line of a node says what the node is and what is above it, and leaves the sizes out.  It
is the abstract view of a tree: an insertion adds one line, a removal takes one away, and a
new domain changes a mark on the lines that go through the node.
-/

namespace Ctgfs.Placement

open Foundation

structure Mark where
  address : Address
  path : Bytes
  ino : UInt64
  isDir : Bool
  domainId : Int
  deriving DecidableEq, Repr

def Mark.tagged (mark : Mark) : Bool := decide (mark.domainId ≠ noDomain)

def Mark.retag (domain : Address → Int → Int) (mark : Mark) : Mark :=
  { mark with domainId := domain mark.address mark.domainId }

namespace TreeNode

variable (node : TreeNode)

def mark : Mark :=
  ⟨node.info.address, node.info.path, node.info.ino, node.isDir, node.info.domainId⟩

mutual

def lines : TreeNode → List (List Mark)
  | .file info => [[mark (.file info)]]
  | .dir info list => [mark (.dir info list)] ::
      (linesIn list).map fun line => line ++ [mark (.dir info list)]

def linesIn : List TreeNode → List (List Mark)
  | [] => []
  | child :: rest => child.lines ++ linesIn rest

end

def addresses : List Address := node.nodes.map fun node => node.info.address

def InOrder (list : List TreeNode) : Prop :=
  list.Pairwise fun child other => child.info.path < other.info.path

def Ordered : Prop := ∀ dir ∈ node.nodes, InOrder dir.getList

theorem linesIn_eq (list : List TreeNode) : linesIn list = list.flatMap lines := by
  induction list with
  | nil => rfl
  | cons child rest ih => rw [linesIn, ih, List.flatMap_cons]

@[elab_as_elim]
theorem children_induction {motive : TreeNode → Prop}
    (step : ∀ node, (∀ child ∈ node.getList, motive child) → motive node) : motive node := by
  induction node with
  | file info => exact step _ (by rintro child ⟨⟩)
  | dir info list ih => exact step _ ih

theorem lines_eq :
    node.lines = [node.mark] ::
      (node.getList.flatMap lines).map fun line => line ++ [node.mark] := by
  cases node with
  | file info => rfl
  | dir info list => rw [lines, linesIn_eq]; rfl

theorem nodes_eq : node.nodes = node :: node.getList.flatMap nodes := by
  cases node with
  | file info => rfl
  | dir info list => rw [nodes, nodesIn_eq]; rfl

theorem mem_lines {node : TreeNode} {line : List Mark} :
    line ∈ node.lines ↔ line = [node.mark] ∨
      ∃ child ∈ node.getList, ∃ below ∈ child.lines, below ++ [node.mark] = line := by
  rw [lines_eq, List.mem_cons, List.mem_map]
  simp only [List.mem_flatMap]
  tauto

theorem mem_nodes {node other : TreeNode} :
    other ∈ node.nodes ↔ other = node ∨ ∃ child ∈ node.getList, other ∈ child.nodes := by
  rw [nodes_eq, List.mem_cons, List.mem_flatMap]

theorem self_mem_nodes : node ∈ node.nodes := mem_nodes.mpr (.inl rfl)

theorem self_mem_lines : [node.mark] ∈ node.lines := mem_lines.mpr (.inl rfl)

theorem nil_notMem_lines : [] ∉ node.lines := by
  intro member
  obtain root | ⟨child, -, below, -, line⟩ := mem_lines.mp member
  · cases root
  · simp at line

theorem head_lines : node.lines.map List.head? = node.nodes.map fun node => some node.mark := by
  induction node using children_induction with
  | step node ih =>
      rw [lines_eq, nodes_eq, List.map_cons, List.map_cons, List.map_map, List.map_flatMap,
        List.map_flatMap]
      congr 1
      apply List.flatMap_congr
      intro child member
      rw [← ih child member]
      apply List.map_congr_left
      intro line below
      obtain ⟨mark, up, rfl⟩ := List.exists_cons_of_ne_nil
        (ne_of_mem_of_not_mem below (nil_notMem_lines child))
      rfl

variable {mark : Mark} {up : List Mark}

theorem node_of_line {node : TreeNode} (member : mark :: up ∈ node.lines) :
    ∃ other ∈ node.nodes, other.mark = mark := by
  have head : some mark ∈ node.lines.map List.head? := List.mem_map.mpr ⟨_, member, rfl⟩
  rw [head_lines] at head
  simpa using head

theorem line_of_child {node parent : TreeNode} (member : parent ∈ node.nodes) :
    ∃ up, parent.mark :: up ∈ node.lines ∧
      ∀ child ∈ parent.getList, child.mark :: parent.mark :: up ∈ node.lines := by
  induction node using children_induction with
  | step node ih =>
      obtain rfl | ⟨child, listed, inside⟩ := mem_nodes.mp member
      · refine ⟨[], self_mem_lines _, fun child listed => ?_⟩
        exact mem_lines.mpr (.inr ⟨child, listed, _, self_mem_lines child, rfl⟩)
      · obtain ⟨up, here, children⟩ := ih child listed inside
        refine ⟨up ++ [node.mark], ?_, fun other below => ?_⟩
        · exact mem_lines.mpr (.inr ⟨child, listed, _, here, rfl⟩)
        · exact mem_lines.mpr (.inr ⟨child, listed, _, children other below, rfl⟩)

theorem root_of_line {node : TreeNode} (member : [mark] ∈ node.lines) : mark = node.mark := by
  obtain root | ⟨child, -, below, here, line⟩ := mem_lines.mp member
  · simpa using root
  · obtain rfl : below = [] := by simpa using congrArg List.length line
    exact absurd here (nil_notMem_lines child)

theorem parent_of_line {node : TreeNode} {above : Mark}
    (member : mark :: above :: up ∈ node.lines) :
    above :: up ∈ node.lines ∧
      ∃ parent ∈ node.nodes, parent.mark = above ∧ ∃ child ∈ parent.getList, child.mark = mark := by
  induction node using children_induction generalizing up with
  | step node ih =>
      obtain root | ⟨child, listed, below, here, line⟩ := mem_lines.mp member
      · simp at root
      · match below, here with
        | [], here => exact absurd here (nil_notMem_lines child)
        | [only], here =>
            obtain ⟨rfl, rfl, rfl⟩ : only = mark ∧ node.mark = above ∧ [] = up := by
              simpa using line
            exact ⟨self_mem_lines _, _, self_mem_nodes _, rfl, child, listed,
              (root_of_line here).symm⟩
        | first :: second :: more, here =>
            obtain ⟨rfl, rfl, rfl⟩ : first = mark ∧ second = above ∧ more ++ [node.mark] = up := by
              simpa using line
            obtain ⟨higher, parent, inside, same, found⟩ := ih child listed here
            refine ⟨mem_lines.mpr (.inr ⟨child, listed, _, higher, rfl⟩), parent, ?_, same, found⟩
            exact mem_nodes.mpr (.inr ⟨child, listed, inside⟩)

theorem mark_mem_line {node : TreeNode} {line : List Mark} (member : line ∈ node.lines) :
    node.mark ∈ line := by
  obtain rfl | ⟨child, -, below, -, rfl⟩ := mem_lines.mp member
  · exact List.mem_singleton_self _
  · exact List.mem_append_right _ (List.mem_singleton_self _)

variable {root : TreeNode}

theorem nodes_sublist {node : TreeNode} (inside : node ∈ root.nodes) :
    node.nodes.Sublist root.nodes := by
  induction root using children_induction with
  | step root ih =>
      obtain rfl | ⟨child, listed, below⟩ := mem_nodes.mp inside
      · exact List.Sublist.refl _
      · rw [nodes_eq root]
        refine (ih child listed below).trans (List.Sublist.cons _ ?_)
        rw [List.flatMap_def]
        exact List.sublist_flatten_of_mem (List.mem_map_of_mem listed)

theorem line_through {node other : TreeNode} (inside : node ∈ root.nodes)
    (below : other ∈ node.nodes) :
    ∃ up, other.mark :: up ∈ root.lines ∧ node.mark ∈ other.mark :: up := by
  induction root using children_induction with
  | step root ih =>
      obtain rfl | ⟨child, listed, deeper⟩ := mem_nodes.mp inside
      · obtain ⟨up, line, -⟩ := line_of_child below
        exact ⟨up, line, mark_mem_line line⟩
      · obtain ⟨up, line, through⟩ := ih child listed deeper
        refine ⟨up ++ [root.mark], ?_, ?_⟩
        · exact mem_lines.mpr (.inr ⟨child, listed, _, line, rfl⟩)
        · exact List.mem_append_left [root.mark] through

theorem below_of_line {above : Mark} (member : mark :: up ∈ root.lines) (on : above ∈ mark :: up) :
    ∃ node ∈ root.nodes, node.mark = above ∧ ∃ other ∈ node.nodes, other.mark = mark := by
  induction root using children_induction generalizing up with
  | step root ih =>
      by_cases top : above = root.mark
      · exact ⟨root, self_mem_nodes root, top.symm, node_of_line member⟩
      obtain only | ⟨child, listed, below, here, line⟩ := mem_lines.mp member
      · rw [only] at on
        exact absurd (List.mem_singleton.mp on) top
      · obtain ⟨first, rest, rfl⟩ := List.exists_cons_of_ne_nil
          (ne_of_mem_of_not_mem here (nil_notMem_lines child))
        obtain ⟨rfl, rfl⟩ := List.cons.inj line
        have lower : above ∈ first :: rest := by
          change above ∈ (first :: rest) ++ [root.mark] at on
          rcases List.mem_append.mp on with lower | root
          · exact lower
          · exact absurd (List.mem_singleton.mp root) top
        obtain ⟨node, inside, same, found⟩ := ih child listed here lower
        exact ⟨node, mem_nodes.mpr (.inr ⟨child, listed, inside⟩), same, found⟩

section Distinct

variable {node : TreeNode}

theorem eq_of_address (distinct : node.addresses.Nodup) {first second : TreeNode}
    (firstMember : first ∈ node.nodes) (secondMember : second ∈ node.nodes)
    (same : first.info.address = second.info.address) : first = second :=
  List.inj_on_of_nodup_map distinct firstMember secondMember same

theorem addresses_eq (node : TreeNode) :
    node.addresses = node.info.address :: node.getList.flatMap addresses := by
  rw [addresses, nodes_eq, List.map_cons, List.map_flatMap]
  rfl

theorem children_nodup (distinct : node.addresses.Nodup) {parent : TreeNode}
    (member : parent ∈ node.nodes) :
    (parent.getList.map fun child => child.info.address).Nodup := by
  induction node using children_induction with
  | step node ih =>
      rw [addresses_eq] at distinct
      obtain ⟨below, apart⟩ := List.nodup_flatMap.mp (List.nodup_cons.mp distinct).2
      obtain rfl | ⟨child, listed, inside⟩ := mem_nodes.mp member
      · refine List.pairwise_map.mpr (apart.imp fun {first second} disjoint same => ?_)
        refine disjoint (a := first.info.address) ?_ ?_
        · rw [addresses_eq]
          exact List.mem_cons_self
        · rw [addresses_eq, same]
          exact List.mem_cons_self
      · exact ih child listed (below child listed) inside

theorem address_lines (node : TreeNode) :
    (node.lines.map fun line => line.head?.map Mark.address) = node.addresses.map some := by
  have heads := congrArg (List.map (Option.map Mark.address)) (head_lines node)
  rw [List.map_map, List.map_map] at heads
  rw [addresses, List.map_map]
  exact heads

theorem ancestry (distinct : node.addresses.Nodup) : Ancestry Mark.address node.lines where
  proper := nil_notMem_lines node
  parent := fun member => (parent_of_line member).1
  unique := by
    intro mark other up up' first second same
    have heads : (node.lines.map fun line => line.head?.map Mark.address).Nodup := by
      rw [address_lines]
      exact distinct.map (Option.some_injective _)
    have lines := List.inj_on_of_nodup_map heads first second (congrArg some same)
    simpa using lines

end Distinct

section Retag

variable {domain : Address → Int → Int}

theorem mark_retag (domain : Address → Int → Int) (node : TreeNode) :
    (node.retag domain).mark = node.mark.retag domain := by
  simp [mark, retag, Mark.retag]

theorem setDomainId_eq_retag (address : Address) (domainId : Int) :
    setDomainId address domainId =
      retag fun other old => if other = address then domainId else old := by
  rw [setDomainId, retag]
  congr 1
  funext info
  split <;> rfl

theorem getList_retag (domain : Address → Int → Int) (node : TreeNode) :
    (node.retag domain).getList = node.getList.map (retag domain) :=
  getList_mapInfo node

theorem nodes_retag (node : TreeNode) :
    (node.retag domain).nodes = node.nodes.map (retag domain) := by
  induction node using children_induction with
  | step node ih =>
      rw [nodes_eq, nodes_eq, getList_retag, List.map_cons, List.flatMap_map, List.map_flatMap]
      congr 1
      exact List.flatMap_congr ih

theorem lines_retag (node : TreeNode) :
    (node.retag domain).lines = node.lines.map (List.map (Mark.retag domain)) := by
  induction node using children_induction with
  | step node ih =>
      rw [lines_eq, lines_eq, getList_retag, mark_retag, List.map_cons, List.flatMap_map,
        List.map_map, List.flatMap_congr ih, List.map_flatMap, List.map_flatMap]
      congr 1
      apply List.flatMap_congr
      intro child _
      simp

theorem addresses_retag (node : TreeNode) : (node.retag domain).addresses = node.addresses := by
  rw [addresses, nodes_retag, List.map_map, addresses]
  apply List.map_congr_left
  intro other _
  rw [Function.comp_apply, retag, info_mapInfo]

theorem Ordered.retag {node : TreeNode} (ordered : node.Ordered) : (node.retag domain).Ordered := by
  rw [Ordered, nodes_retag]
  intro dir member
  obtain ⟨dir, old, rfl⟩ := List.mem_map.mp member
  rw [getList_retag, InOrder, List.pairwise_map]
  exact (ordered dir old).imp fun before => by simpa [TreeNode.retag] using before

end Retag

end TreeNode

end Ctgfs.Placement
