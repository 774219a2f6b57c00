import Ctgfs.Foundation.Relocation
import Ctgfs.Placement.AdjustPartition

/-!
# The placement of the files

A file belongs to the KV whose domain is on its path.  A node that is given to another KV takes
the files below it along, and `doMove` lists a move for each of them; a directory that is split
leaves all files where they are.
-/

namespace Ctgfs.Placement

open Foundation

def TreeNode.placement (root : TreeNode) (ino : UInt64) : Int :=
  ((root.lines.find? fun line => line.head?.any fun mark => !mark.isDir && mark.ino == ino).map
    (ownerOf noDomain)).getD noDomain

def TreeNode.files (root : TreeNode) : List TreeNode := root.nodes.filter fun node => !node.isDir

/-- The files have numbers of their own, also when they are cut to `int`s. -/
def TreeNode.Numbered (root : TreeNode) : Prop :=
  (root.files.map fun file => file.info.ino.toUInt32).Nodup

instance (root : TreeNode) : Decidable root.Numbered :=
  inferInstanceAs (Decidable (root.files.map fun file => file.info.ino.toUInt32).Nodup)

variable {mark : Mark} {up : List Mark}

section Owners

variable {root : TreeNode} {line : List Mark}

theorem ownerOf_of_tagged (once : line.countP Mark.tagged ≤ 1) (on : mark ∈ line)
    (tagged : mark.tagged = true) : TreeNode.ownerOf noDomain line = mark.domainId := by
  induction line with
  | nil => cases on
  | cons first up ih =>
      rw [List.countP_cons] at once
      rw [TreeNode.ownerOf, List.foldr_cons, ← TreeNode.ownerOf]
      obtain rfl | higher := List.mem_cons.mp on
      · rw [if_pos tagged] at once
        rw [if_pos ((ownerOf_eq_noDomain up).mpr (by omega))]
      · rw [ih (by omega) higher, if_neg (of_decide_eq_true tagged)]

theorem eq_of_number (distinct : root.addresses.Nodup) (numbered : root.Numbered) {other : Mark}
    {up' : List Mark} (first : mark :: up ∈ root.lines) (second : other :: up' ∈ root.lines)
    (file : mark.isDir = false) (file' : other.isDir = false)
    (same : mark.ino.toUInt32 = other.ino.toUInt32) : mark = other ∧ up = up' := by
  obtain ⟨node, inside, rfl⟩ := TreeNode.node_of_line first
  obtain ⟨node', inside', rfl⟩ := TreeNode.node_of_line second
  have isFile : ∀ node ∈ root.nodes, node.isDir = false → node ∈ root.files := by
    intro node inside file
    exact List.mem_filter.mpr ⟨inside, by rw [file]; rfl⟩
  obtain rfl := List.inj_on_of_nodup_map numbered (isFile node inside file)
    (isFile node' inside' file') same
  exact (TreeNode.ancestry distinct).unique first second rfl

theorem placement_of_line (distinct : root.addresses.Nodup) (numbered : root.Numbered)
    (member : mark :: up ∈ root.lines) (file : mark.isDir = false) :
    root.placement mark.ino = TreeNode.ownerOf noDomain (mark :: up) := by
  rw [TreeNode.placement]
  cases found : root.lines.find? fun line =>
      line.head?.any fun other => !other.isDir && other.ino == mark.ino with
  | none =>
      rw [List.find?_eq_none] at found
      exact absurd (by simp [file]) (found _ member)
  | some line =>
      have inside := List.mem_of_find?_eq_some found
      have fits := List.find?_some found
      obtain ⟨other, up', rfl⟩ := List.exists_cons_of_ne_nil
        (ne_of_mem_of_not_mem inside root.nil_notMem_lines)
      simp only [List.head?_cons, Option.any_some, Bool.and_eq_true, Bool.not_eq_true',
        beq_iff_eq] at fits
      obtain ⟨rfl, rfl⟩ := eq_of_number distinct numbered inside member fits.1 file
        (congrArg UInt64.toUInt32 fits.2)
      rfl

end Owners

section Edits

variable {root node : TreeNode} {tree : PrefixTree} {domain : Address → Int → Int} {file : TreeNode}

theorem line_of_file (inside : file ∈ root.files) :
    ∃ up, file.mark :: up ∈ root.lines ∧ file.mark.isDir = false := by
  obtain ⟨member, isFile⟩ := List.mem_filter.mp inside
  obtain ⟨up, line, -⟩ := TreeNode.line_of_child member
  exact ⟨up, line, (Bool.not_eq_true' _).mp isFile⟩

theorem numbers_retag (root : TreeNode) :
    (root.retag domain).files.map (fun file => file.info.ino) =
      root.files.map fun file => file.info.ino := by
  have kept : (fun node : TreeNode => !node.isDir) ∘ TreeNode.retag domain =
      fun node : TreeNode => !node.isDir := by
    funext node
    rw [Function.comp_apply, TreeNode.retag, TreeNode.isDir_mapInfo]
  rw [TreeNode.files, TreeNode.nodes_retag, List.filter_map, kept, List.map_map]
  apply List.map_congr_left
  intro file _
  rw [Function.comp_apply, TreeNode.retag, TreeNode.info_mapInfo]

theorem numbered_iff (root : TreeNode) :
    root.Numbered ↔ ((root.files.map fun file => file.info.ino).map UInt64.toUInt32).Nodup := by
  rw [TreeNode.Numbered, List.map_map]
  rfl

theorem TreeNode.Numbered.retag (numbered : root.Numbered) : (root.retag domain).Numbered := by
  rw [numbered_iff, numbers_retag]
  exact (numbered_iff root).mp numbered

theorem mem_lines_retag {line : List Mark} (member : line ∈ root.lines)
    (domain : Address → Int → Int) :
    line.map (Mark.retag domain) ∈ (root.retag domain).lines := by
  rw [TreeNode.lines_retag]
  exact List.mem_map_of_mem member

theorem placement_file (distinct : root.addresses.Nodup) (numbered : root.Numbered)
    (line : file.mark :: up ∈ root.lines) (isFile : file.mark.isDir = false)
    (domain : Address → Int → Int) :
    root.placement file.info.ino = TreeNode.ownerOf noDomain (file.mark :: up) ∧
      (root.retag domain).placement file.info.ino =
        TreeNode.ownerOf noDomain ((file.mark :: up).map (Mark.retag domain)) := by
  have sameAddresses : (root.retag domain).addresses.Nodup := by
    rw [TreeNode.addresses_retag]
    exact distinct
  exact ⟨placement_of_line distinct numbered line isFile,
    placement_of_line sameAddresses numbered.retag (mem_lines_retag line domain) isFile⟩

theorem mark_mem_of_address (distinct : root.addresses.Nodup) (inside : node ∈ root.nodes)
    {line : List Mark} (member : line ∈ root.lines) (on : mark ∈ line)
    (same : mark.address = node.info.address) : node.mark ∈ line := by
  obtain ⟨up, here⟩ := (TreeNode.ancestry distinct).line_of_mem member on
  obtain ⟨above, there, -⟩ := TreeNode.line_of_child inside
  obtain ⟨rfl, -⟩ := (TreeNode.ancestry distinct).unique here there same
  exact on

theorem stepsOf_doMove (distinct : root.addresses.Nodup) (numbered : root.Numbered)
    (inside : node ∈ root.nodes) (member : mark :: up ∈ root.lines) (file : mark.isDir = false)
    (addr : Int × Int) :
    stepsOf mark.ino (doMove node addr) = if node.mark ∈ mark :: up then [addr] else [] := by
  have sublist : (node.files.map fun file => file.info.ino).Sublist
      (root.files.map fun file => file.info.ino) :=
    ((TreeNode.nodes_sublist inside).filter _).map _
  have nodup := (((numbered_iff root).mp numbered).of_map _).sublist sublist
  have moves : doMove node addr =
      (node.files.map fun file => file.info.ino).map fun ino => (ino, addr) := by
    rw [List.map_map]
    rfl
  have below : mark.ino ∈ node.files.map (fun file => file.info.ino) ↔
      node.mark ∈ mark :: up := by
    constructor
    · intro listed
      obtain ⟨other, found, same⟩ := List.mem_map.mp listed
      obtain ⟨deeper, isFile⟩ := List.mem_filter.mp found
      obtain ⟨up', line, through⟩ := TreeNode.line_through inside deeper
      obtain ⟨rfl, rfl⟩ := eq_of_number distinct numbered line member
        ((Bool.not_eq_true' _).mp isFile) file (congrArg UInt64.toUInt32 same)
      exact through
    · intro through
      obtain ⟨same, there, equal, other, deeper, rfl⟩ := TreeNode.below_of_line member through
      obtain rfl := TreeNode.eq_of_address distinct there inside (congrArg Mark.address equal)
      refine List.mem_map.mpr ⟨other, List.mem_filter.mpr ⟨deeper, ?_⟩, rfl⟩
      change (!other.mark.isDir) = true
      rw [file]
      rfl
  rw [moves, stepsOf_map nodup]
  simp only [below]

def assigned (address : Address) (domainId : Int) (other : Address) (old : Int) : Int :=
  if other = address then domainId else old

theorem placement_assigned (distinct : root.addresses.Nodup) (numbered : root.Numbered)
    (covered : ∀ line ∈ root.lines, Covered line) (inside : node ∈ root.nodes)
    (real : node.info.domainId ≠ noDomain) {domainId : Int} (known : domainId ≠ noDomain)
    (after : ∀ line ∈ (root.retag (assigned node.info.address domainId)).lines, Covered line)
    (listed : file ∈ root.files) (addr : Int × Int) :
    (stepsOf file.info.ino (doMove node addr) = [addr] ∧
        root.placement file.info.ino = node.info.domainId ∧
        (root.retag (assigned node.info.address domainId)).placement file.info.ino = domainId) ∨
      (stepsOf file.info.ino (doMove node addr) = [] ∧
        (root.retag (assigned node.info.address domainId)).placement file.info.ino =
          root.placement file.info.ino) := by
  obtain ⟨up, line, isFile⟩ := line_of_file listed
  have steps : stepsOf file.info.ino (doMove node addr) = _ :=
    stepsOf_doMove distinct numbered inside line isFile addr
  obtain ⟨old, new⟩ :=
    placement_file distinct numbered line isFile (assigned node.info.address domainId)
  rw [steps, old, new]
  by_cases through : node.mark ∈ file.mark :: up
  · left
    rw [if_pos through]
    refine ⟨rfl, ownerOf_of_tagged (covered _ line).once through (decide_eq_true real), ?_⟩
    have retagged := mem_lines_retag line (assigned node.info.address domainId)
    have tagged : node.mark.retag (assigned node.info.address domainId) =
        { node.mark with domainId := domainId } := by
      rw [Mark.retag]
      simp only [TreeNode.mark, assigned, if_true]
    have on := List.mem_map_of_mem (f := Mark.retag (assigned node.info.address domainId)) through
    rw [tagged] at on
    exact ownerOf_of_tagged (after _ retagged).once on (decide_eq_true known)
  · right
    rw [if_neg through]
    refine ⟨rfl, congrArg _ ?_⟩
    refine (List.map_congr_left fun mark on => ?_).trans (List.map_id _)
    have elsewhere : mark.address ≠ node.info.address := fun same =>
      through (mark_mem_of_address distinct inside line on same)
    rw [Mark.retag, assigned, if_neg elsewhere]
    rfl

theorem placement_pushedDown (distinct : root.addresses.Nodup) (numbered : root.Numbered)
    (covered : ∀ line ∈ root.lines, Covered line) (inside : node ∈ root.nodes)
    (real : node.info.domainId ≠ noDomain)
    (after : ∀ line ∈ (root.retag (PrefixTree.pushedDown node)).lines, Covered line)
    (listed : file ∈ root.files) :
    (root.retag (PrefixTree.pushedDown node)).placement file.info.ino =
      root.placement file.info.ino := by
  obtain ⟨up, line, isFile⟩ := line_of_file listed
  obtain ⟨old, new⟩ := placement_file distinct numbered line isFile (PrefixTree.pushedDown node)
  rw [old, new]
  have retagged := mem_lines_retag line (PrefixTree.pushedDown node)
  -- The tag that is on the line after the split.
  have one := (after _ retagged).file _ rfl isFile
  obtain ⟨tagged, on, tag⟩ := List.countP_pos_iff.mp (one ▸ Nat.zero_lt_one)
  obtain ⟨mark, before, rfl⟩ := List.mem_map.mp on
  rw [ownerOf_of_tagged (after _ retagged).once on tag]
  have once := (covered _ line).once
  have domain : (mark.retag (PrefixTree.pushedDown node)).domainId =
      PrefixTree.pushedDown node mark.address mark.domainId := rfl
  rw [Mark.tagged, domain, decide_eq_true_eq] at tag
  rw [domain]
  rw [PrefixTree.pushedDown] at tag ⊢
  split at tag
  · exact absurd rfl tag
  next other =>
    rw [if_neg other]
    split at tag
    next child =>
      rw [if_pos child]
      -- The child has the node above it on the line.
      obtain ⟨below, deeper, same⟩ := List.mem_map.mp child
      obtain ⟨above, -, children⟩ := TreeNode.line_of_child inside
      obtain ⟨rest, here, ends⟩ := (TreeNode.ancestry distinct).suffix_of_mem line before
      obtain ⟨-, rfl⟩ := (TreeNode.ancestry distinct).unique here (children below deeper) same.symm
      have through := ends.subset (List.mem_cons_of_mem _ List.mem_cons_self)
      exact (ownerOf_of_tagged once through (decide_eq_true real)).symm
    next elsewhere =>
      rw [if_neg elsewhere]
      exact (ownerOf_of_tagged once before (decide_eq_true tag)).symm

end Edits

end Ctgfs.Placement
