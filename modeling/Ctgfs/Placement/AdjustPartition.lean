import Ctgfs.Placement.Partition

/-!
# `Adjust` keeps the partition

A node that goes from one end of a list to an end of another, and a directory at the end of a
list that is split, keep the partition.  The pull loop may split a directory at the front and
take another node off the list, but then it never ends.
-/

namespace Ctgfs.Placement

open Foundation

variable {tree : PrefixTree}

section Lists

def endOf (forward : Bool) (list : List Address) : Option Address :=
  if forward then list.getLast? else list.head?

theorem popped_perm {forward : Bool} {list : List Address} {address : Address}
    (here : endOf forward list = some address) :
    (PrefixTree.popped forward list).Perm (list.erase address) := by
  cases forward with
  | true =>
      obtain ⟨before, rfl⟩ := List.getLast?_eq_some_iff.mp here
      have last : (before ++ [address]).Perm (address :: before) :=
        List.perm_append_singleton address before
      rw [PrefixTree.popped, if_pos rfl, List.dropLast_concat]
      refine List.Perm.symm ((last.erase address).trans ?_)
      rw [List.erase_cons_head]
  | false =>
      obtain ⟨rest, rfl⟩ := List.head?_eq_some_iff.mp here
      rw [List.erase_cons_head]
      exact List.Perm.refl _

theorem pushed_perm (forward : Bool) (address : Address) (list : List Address) :
    (PrefixTree.pushed forward address list).Perm (address :: list) := by
  cases forward with
  | true => exact List.Perm.refl _
  | false => exact List.perm_append_singleton address list

theorem mem_of_endOf {forward : Bool} {list : List Address} {address : Address}
    (here : endOf forward list = some address) : address ∈ list := by
  cases forward with
  | true => exact List.mem_of_getLast? here
  | false => exact List.mem_of_head? here

end Lists

variable {kv : KVInfo}

theorem Partitioned.find_listed (part : Partitioned tree) (member : kv ∈ tree.kvList)
    {address : Address} (listed : address ∈ kv.domainNodeList) {node : TreeNode}
    (found : tree.find address = some node) :
    node ∈ tree.root.nodes ∧ node.info.address = address ∧ node.info.domainId = kv.id := by
  obtain ⟨mark, up, line, rfl, domain⟩ := (part.indexed.lists kv member address).mp listed
  obtain ⟨other, inside, rfl⟩ := TreeNode.node_of_line line
  rw [PrefixTree.find, List.find?_append] at found
  cases first : tree.root.nodes.find? fun node => node.info.address = other.mark.address with
  | none =>
      rw [List.find?_eq_none] at first
      exact absurd (decide_eq_true rfl) (first other inside)
  | some there =>
      rw [first, Option.some_or] at found
      obtain rfl := Option.some.inj found
      have same := List.find?_some first
      rw [decide_eq_true_eq] at same
      obtain rfl := TreeNode.eq_of_address part.distinct (List.mem_of_find?_eq_some first) inside
        same
      exact ⟨inside, rfl, domain⟩

theorem find_retag (tree : PrefixTree) (domain : Address → Int → Int) (address : Address) :
    (tree.retag domain).find address = (tree.find address).map (TreeNode.retag domain) := by
  have same : (fun node : TreeNode => decide (node.info.address = address)) ∘
      TreeNode.retag domain = fun node : TreeNode => decide (node.info.address = address) := by
    funext node
    simp [TreeNode.retag]
  rw [PrefixTree.find, PrefixTree.retag, TreeNode.nodes_retag, ← List.map_append, List.find?_map,
    same]
  rfl

theorem find_splitFileNode {address : Address} {other : TreeNode}
    (found : tree.find address = some other) (place : Nat) (node : TreeNode) :
    ∃ after, (tree.splitFileNode place node).find address = some after ∧
      after.isDir = other.isDir ∧ after.info.sz = other.info.sz ∧
      after.getList.length = other.getList.length := by
  by_cases untagged : node.info.domainId = noDomain
  · refine ⟨other, ?_, rfl, rfl, rfl⟩
    simp only [PrefixTree.splitFileNode, PrefixTree.pushDownDomainTag, if_pos untagged]
    exact found
  · refine ⟨other.retag (PrefixTree.pushedDown node), ?_, ?_, ?_, ?_⟩
    · simp only [PrefixTree.splitFileNode, PrefixTree.pushDownDomainTag, if_neg untagged]
      exact (find_retag tree _ address).trans (congrArg _ found)
    · exact TreeNode.isDir_mapInfo other
    · simp [TreeNode.retag]
    · rw [TreeNode.getList_retag, List.length_map]

section Retag

variable {other : PrefixTree} {domain : Address → Int → Int}

theorem Partitioned.retag (part : Partitioned tree) (root : other.root = tree.root.retag domain)
    (indexed : Indexed (tree.root.lines.map (List.map (Mark.retag domain))) other.kvList other.next)
    (covered : ∀ line ∈ tree.root.lines, Covered (line.map (Mark.retag domain))) :
    Partitioned other := by
  have lines : other.root.lines = tree.root.lines.map (List.map (Mark.retag domain)) := by
    rw [root, TreeNode.lines_retag]
  refine ⟨root ▸ part.ordered.retag, lines ▸ indexed, ?_⟩
  rw [lines]
  intro _ member
  obtain ⟨line, old, rfl⟩ := List.mem_map.mp member
  exact covered line old

theorem Covered.retag {line : List Mark} (covered : Covered line)
    (same : (line.map (Mark.retag domain)).countP Mark.tagged = line.countP Mark.tagged) :
    Covered (line.map (Mark.retag domain)) := by
  refine ⟨same ▸ covered.once, fun mark head file => ?_⟩
  rw [List.head?_map] at head
  obtain ⟨old, first, rfl⟩ := Option.map_eq_some_iff.mp head
  rw [same]
  exact covered.file old first file

end Retag

theorem Partitioned.handOver (part : Partitioned tree) {src dst : Nat} (apart : src ≠ dst)
    {source sink : KVInfo} (first : tree.kvList[src]? = some source)
    (second : tree.kvList[dst]? = some sink) {forward : Bool} {address : Address}
    (here : endOf forward source.domainNodeList = some address) :
    Partitioned (tree.handOver src dst address sink.id forward) := by
  have indexed := part.indexed
  have sourceMember := List.mem_of_getElem? first
  have sinkMember := List.mem_of_getElem? second
  obtain ⟨mark, up, line, rfl, domain⟩ :=
    (indexed.lists source sourceMember address).mp (mem_of_endOf here)
  refine part.retag (tree.root_handOver src dst mark.address sink.id forward) ?_
    fun other member => (part.covered other member).retag ?_
  · -- the node is in no list but the first one
    have absent : ∀ kv ∈ tree.kvList, kv.id ≠ source.id → mark.address ∉ kv.domainNodeList := by
      intro kv member other listed
      obtain ⟨same, above, there, equal, owner⟩ := (indexed.lists kv member _).mp listed
      obtain ⟨rfl, -⟩ := indexed.eq_of_address there line equal
      exact other (owner.symm.trans domain)
    have different : sink.id ≠ source.id :=
      fun same => apart (place_of_id indexed.ids first second same.symm)
    have ids : ∀ {kvs : List KVInfo} {place : Nat} {change : List Address → List Address},
        (kvs.modify place fun kv => { kv with domainNodeList := change kv.domainNodeList }).map
          KVInfo.id = kvs.map KVInfo.id := map_modify_of_same (by intro kv; rfl) _ _
    refine indexed.give line (List.mem_map_of_mem sinkMember) (ids.trans ids) fun kv member => ?_
    have later : (tree.kvList.modify src fun kv => { kv with
        domainNodeList := PrefixTree.popped forward kv.domainNodeList })[dst]? = some sink := by
      rw [List.getElem?_modify, second]
      simp [apart]
    obtain rfl | ⟨member, other⟩ := mem_modify (ids.symm ▸ indexed.ids) later member
    · refine ⟨sink, sinkMember, rfl, ?_⟩
      rw [if_pos rfl, List.erase_of_not_mem (absent sink sinkMember different)]
      exact pushed_perm _ _ _
    · obtain rfl | ⟨member, another⟩ := mem_modify indexed.ids first member
      · refine ⟨source, sourceMember, rfl, ?_⟩
        rw [if_neg different.symm]
        exact popped_perm here
      · refine ⟨kv, member, rfl, ?_⟩
        rw [if_neg other, List.erase_of_not_mem (absent kv member another)]
  · refine (TreeNode.ancestry part.distinct).countP_kept (fun node above there => ?_) member
    by_cases same : node.address = mark.address
    · obtain ⟨rfl, -⟩ := indexed.eq_of_address there line same
      simp [Mark.tagged, Mark.retag, domain, indexed.ne_noDomain sourceMember,
        indexed.ne_noDomain sinkMember]
    · simp [Mark.tagged, Mark.retag, same]

theorem mem_children {root node : TreeNode} (distinct : root.addresses.Nodup)
    (inside : node ∈ root.nodes) {up : List Mark}
    (below : ∀ child ∈ node.getList, child.mark :: node.mark :: up ∈ root.lines) {child : Mark} :
    child :: node.mark :: up ∈ root.lines ↔ ∃ other ∈ node.getList, other.mark = child := by
  constructor
  · intro line
    obtain ⟨-, parent, member, same, found⟩ := TreeNode.parent_of_line line
    obtain rfl := TreeNode.eq_of_address distinct member inside (congrArg Mark.address same)
    exact found
  · rintro ⟨other, listed, rfl⟩
    exact below other listed

section Split

variable {node : TreeNode} {up : List Mark}

theorem Partitioned.untagged_child (part : Partitioned tree) (real : node.info.domainId ≠ noDomain)
    {child : Mark} (line : child :: node.mark :: up ∈ tree.root.lines) :
    child.domainId = noDomain := by
  have tagged : node.mark.tagged = true := decide_eq_true real
  have once := (part.covered _ line).once
  rw [List.countP_cons, List.countP_cons, tagged] at once
  have clear : child.tagged ≠ true := by
    intro set
    simp [set] at once
  simpa [Mark.tagged] using clear

theorem Partitioned.countP_pushedDown (part : Partitioned tree)
    (real : node.info.domainId ≠ noDomain) (line : node.mark :: up ∈ tree.root.lines)
    (children : ∀ {child : Mark}, child :: node.mark :: up ∈ tree.root.lines ↔
      ∃ other ∈ node.getList, other.mark = child)
    {other : List Mark} (there : other ∈ tree.root.lines) :
    (other = node.mark :: up →
        (other.map (Mark.retag (PrefixTree.pushedDown node))).countP Mark.tagged = 0) ∧
      (other ≠ node.mark :: up →
        (other.map (Mark.retag (PrefixTree.pushedDown node))).countP Mark.tagged =
          other.countP Mark.tagged) := by
  have ancestry := TreeNode.ancestry part.distinct
  refine ancestry.countP_pushDown (fun line member => (part.covered line member).once) line
    (decide_eq_true real) ?_ ?_ ?_ there
  · simp [Mark.tagged, Mark.retag, PrefixTree.pushedDown, TreeNode.mark]
  · intro child there
    have lower : child.address ≠ node.info.address := by
      intro same
      have lengths := congrArg List.length (ancestry.unique there line same).2
      simp at lengths
    obtain ⟨child, listed, rfl⟩ := children.mp there
    have given : child.mark.address ∈ node.getList.map fun child => child.info.address :=
      List.mem_map_of_mem listed
    simp [Mark.tagged, Mark.retag, PrefixTree.pushedDown, lower, given, real]
  · intro mark above there different elsewhere
    have outside : mark.address ∉ node.getList.map fun child => child.info.address := by
      intro listed
      obtain ⟨child, listed, same⟩ := List.mem_map.mp listed
      have below := children.mpr ⟨child, listed, rfl⟩
      exact elsewhere (ancestry.unique there below same.symm).2
    have other : mark.address ≠ node.info.address := different
    simp [Mark.tagged, Mark.retag, PrefixTree.pushedDown, other, outside]

theorem mem_splitFileNode (ids : (tree.kvList.map KVInfo.id).Nodup) {place : Nat}
    (here : tree.kvList[place]? = some kv) (owner : node.info.domainId = kv.id)
    (last : kv.domainNodeList.getLast? = some node.info.address) {other : KVInfo}
    (changed : other ∈ (tree.splitFileNode place node).kvList) :
    ∃ old ∈ tree.kvList, old.id = other.id ∧
      other.domainNodeList.Perm (if other.id = node.mark.domainId then
        (node.getList.map fun child => child.info.address) ++
          old.domainNodeList.erase node.mark.address
        else old.domainNodeList) := by
  obtain rfl | ⟨old, different⟩ := mem_modify ids here changed
  · refine ⟨kv, List.mem_of_getElem? here, rfl, ?_⟩
    have own : kv.id = node.mark.domainId := owner.symm
    rw [if_pos own]
    exact List.perm_append_comm.trans (List.Perm.append_left _ (@popped_perm true _ _ last))
  · refine ⟨other, old, rfl, ?_⟩
    rw [if_neg fun same => different (same.trans owner)]

theorem Partitioned.splitFileNode (part : Partitioned tree) {place : Nat}
    (here : tree.kvList[place]? = some kv) {node : TreeNode} (inside : node ∈ tree.root.nodes)
    (owner : node.info.domainId = kv.id) (isDir : node.isDir = true)
    (last : kv.domainNodeList.getLast? = some node.info.address) :
    Partitioned (tree.splitFileNode place node) := by
  have indexed := part.indexed
  have real : node.info.domainId ≠ noDomain :=
    owner ▸ indexed.ne_noDomain (List.mem_of_getElem? here)
  obtain ⟨up, line, below⟩ := TreeNode.line_of_child inside
  have children : ∀ {child : Mark}, child :: node.mark :: up ∈ tree.root.lines ↔
      ∃ other ∈ node.getList, other.mark = child := mem_children part.distinct inside below
  refine part.retag (tree.root_splitFileNode place real) ?_ fun other there => ?_
  · have below : ∀ address, address ∈ node.getList.map (fun child => child.info.address) ↔
        ∃ child, child :: node.mark :: up ∈ tree.root.lines ∧ child.address = address := by
      intro address
      rw [List.mem_map]
      constructor
      · rintro ⟨child, listed, rfl⟩
        exact ⟨child.mark, children.mpr ⟨child, listed, rfl⟩, rfl⟩
      · rintro ⟨_, there, rfl⟩
        obtain ⟨child, listed, rfl⟩ := children.mp there
        exact ⟨child, listed, rfl⟩
    rw [tree.next_splitFileNode]
    exact indexed.pushDown line (TreeNode.children_nodup part.distinct inside) below
      (fun child there => part.untagged_child real there)
      (map_modify_of_same (by intro kv; rfl) _ _)
      fun other changed => mem_splitFileNode indexed.ids here owner last changed
  · obtain ⟨cleared, kept⟩ := part.countP_pushedDown real line children there
    by_cases self : other = node.mark :: up
    · refine ⟨(cleared self).le.trans (Nat.zero_le 1), ?_⟩
      subst self
      rintro _ ⟨⟩ file
      exact absurd (file.symm.trans isDir) Bool.false_ne_true
    · exact (part.covered other there).retag (kept self)

end Split

end Ctgfs.Placement
