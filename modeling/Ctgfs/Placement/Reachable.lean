import Ctgfs.Placement.DomainPartition

/-!
# What holds of every prefix tree

In any run of `RegistNewKV`, `Create`, `Remove` and `Adjust`, orderly or not, siblings stay in
order, no two nodes share an address, the lists point to nodes that exist, and every domain is
the id of a KV.  `Adjust` changes nothing in a tree but domains and lists.
-/

namespace Ctgfs.Placement

open Foundation

variable {node : TreeNode}

namespace TreeNode

theorem retag_old (node : TreeNode) : (node.retag fun _ old => old) = node :=
  mapInfo_id node

theorem marks_eq (node : TreeNode) : node.nodes.map mark = node.lines.filterMap List.head? := by
  have heads := congrArg (List.filterMap id) (head_lines node)
  rw [List.filterMap_map, List.filterMap_map, Function.id_comp, Function.id_comp] at heads
  rw [heads, ← List.filterMap_eq_map]
  rfl

theorem marks_retag (domain : Address → Int → Int) (nodes : List TreeNode) :
    (nodes.map (retag domain)).map mark = (nodes.map mark).map (Mark.retag domain) := by
  rw [List.map_map, List.map_map]
  exact List.map_congr_left fun node _ => mark_retag domain node

theorem retag_of_bare {domain : Address → Int → Int} (bare : node.getList = [])
    (same : domain node.info.address node.info.domainId = node.info.domainId) :
    node.retag domain = node := by
  cases node with
  | file info =>
      change TreeNode.file { info with domainId := domain info.address info.domainId } = _
      rw [show domain info.address info.domainId = info.domainId from same]
  | dir info list =>
      obtain rfl : list = [] := bare
      change TreeNode.dir { info with domainId := domain info.address info.domainId } [] = _
      rw [show domain info.address info.domainId = info.domainId from same]

end TreeNode

def PrefixTree.marks (tree : PrefixTree) : List Mark :=
  (tree.root.nodes ++ tree.removed).map TreeNode.mark

structure Sound (tree : PrefixTree) : Prop where
  ordered : tree.root.Ordered
  isDir : tree.root.isDir = true
  distinct : (tree.marks.map Mark.address).Nodup
  fresh : ∀ mark ∈ tree.marks, mark.address < tree.next
  known : ∀ mark ∈ tree.marks,
    mark.domainId = noDomain ∨ mark.domainId ∈ tree.kvList.map KVInfo.id
  bare : ∀ node ∈ tree.removed, node.getList = []
  listed : ∀ kv ∈ tree.kvList, ∀ address ∈ kv.domainNodeList,
    address ∈ tree.marks.map Mark.address

structure RetaggedBy (domain : Address → Int → Int) (tree after : PrefixTree) : Prop where
  root : after.root = tree.root.retag domain
  removed : after.removed = tree.removed.map (TreeNode.retag domain)
  next : after.next = tree.next

variable {tree after : PrefixTree} {domain : Address → Int → Int}

theorem RetaggedBy.marks (retagged : RetaggedBy domain tree after) :
    after.marks = tree.marks.map (Mark.retag domain) := by
  rw [PrefixTree.marks, retagged.root, retagged.removed, TreeNode.nodes_retag, ← List.map_append,
    TreeNode.marks_retag]
  rfl

theorem RetaggedBy.addresses (retagged : RetaggedBy domain tree after) :
    after.marks.map Mark.address = tree.marks.map Mark.address := by
  rw [retagged.marks, List.map_map]
  rfl

theorem RetaggedBy.find (retagged : RetaggedBy domain tree after) (address : Address) :
    after.find address = (tree.find address).map (TreeNode.retag domain) := by
  rw [← find_retag]
  simp only [PrefixTree.find, PrefixTree.retag, retagged.root, retagged.removed]

theorem RetaggedBy.unchanged (root : after.root = tree.root)
    (removed : after.removed = tree.removed) (next : after.next = tree.next) :
    RetaggedBy (fun _ old => old) tree after where
  root := root.trans (TreeNode.retag_old _).symm
  removed := by
    rw [removed, List.map_congr_left fun node _ => TreeNode.retag_old node, List.map_id']
  next := next

theorem Sound.retagged (sound : Sound tree) (retagged : RetaggedBy domain tree after)
    (ids : ∀ id ∈ tree.kvList.map KVInfo.id, id ∈ after.kvList.map KVInfo.id)
    (values : ∀ mark ∈ tree.marks, domain mark.address mark.domainId = mark.domainId ∨
      domain mark.address mark.domainId = noDomain ∨
      domain mark.address mark.domainId ∈ after.kvList.map KVInfo.id)
    (listed : ∀ kv ∈ after.kvList, ∀ address ∈ kv.domainNodeList,
      address ∈ tree.marks.map Mark.address) : Sound after where
  ordered := retagged.root ▸ sound.ordered.retag
  isDir := by
    rw [retagged.root, TreeNode.retag, TreeNode.isDir_mapInfo]
    exact sound.isDir
  distinct := retagged.addresses ▸ sound.distinct
  fresh := by
    rw [retagged.marks, retagged.next]
    intro mark member
    obtain ⟨old, before, rfl⟩ := List.mem_map.mp member
    exact sound.fresh old before
  known := by
    rw [retagged.marks]
    intro mark member
    obtain ⟨old, before, rfl⟩ := List.mem_map.mp member
    change domain old.address old.domainId = noDomain ∨
      domain old.address old.domainId ∈ after.kvList.map KVInfo.id
    rcases values old before with same | value
    · rw [same]
      exact (sound.known old before).imp_right (ids _)
    · exact value
  bare := by
    rw [retagged.removed]
    intro node member
    obtain ⟨old, before, rfl⟩ := List.mem_map.mp member
    rw [TreeNode.getList_retag, sound.bare old before]
    rfl
  listed := by
    rw [retagged.addresses]
    exact listed

theorem Sound.setDomainId (sound : Sound tree) (inside : node ∈ tree.root.nodes) {domainId : Int}
    (root : after.root = tree.root.setDomainId node.info.address domainId)
    (removed : after.removed = tree.removed) (next : after.next = tree.next) :
    RetaggedBy (fun other old => if other = node.info.address then domainId else old) tree
      after where
  root := by rw [root, TreeNode.setDomainId_eq_retag]
  removed := by
    rw [removed]
    refine ((List.map_congr_left fun other outside => ?_).trans (List.map_id _)).symm
    refine TreeNode.retag_of_bare (sound.bare other outside) (if_neg fun same => ?_)
    have distinct := sound.distinct
    rw [PrefixTree.marks, List.map_map, List.map_append] at distinct
    refine (List.nodup_append'.mp distinct).2.2 (List.mem_map_of_mem inside) ?_
    exact List.mem_map.mpr ⟨other, outside, same⟩
  next := next

theorem Sound.initial : Sound .initial where
  ordered := TreeNode.ordered_create 0 [] 0 true 0
  isDir := rfl
  distinct := List.nodup_singleton _
  fresh := by
    intro mark member
    obtain rfl := List.mem_singleton.mp member
    exact Nat.zero_lt_one
  known := by
    intro mark member
    obtain rfl := List.mem_singleton.mp member
    exact .inl rfl
  bare := by rintro node ⟨⟩
  listed := by rintro kv ⟨⟩

theorem root_mem_marks (tree : PrefixTree) :
    tree.root.info.address ∈ tree.marks.map Mark.address :=
  List.mem_map.mpr ⟨tree.root.mark, List.mem_map_of_mem
    (List.mem_append_left _ tree.root.self_mem_nodes), rfl⟩

theorem Sound.registNewKV (sound : Sound tree) (pastEnd id : Int) (sumMemory : UInt64) :
    Sound (tree.registNewKV pastEnd id sumMemory) := by
  have registers := tree.registers_registNewKV pastEnd id sumMemory
  generalize tree.registNewKV pastEnd id sumMemory = after at registers ⊢
  cases registers with
  | first none =>
      refine sound.retagged (sound.setDomainId tree.root.self_mem_nodes rfl rfl rfl) ?_ ?_ ?_
      · rw [none]
        rintro other ⟨⟩
      · intro mark member
        dsimp only
        split
        · exact .inr (.inr List.mem_cons_self)
        · exact .inl rfl
      · intro kv member address here
        obtain rfl := List.mem_singleton.mp member
        obtain rfl := List.mem_singleton.mp here
        exact root_mem_marks tree
  | @later before behind _ split =>
      -- the new KV has an empty list, wherever it is put
      have perm : (before ++ { id, sumMemory } :: behind).Perm
          ({ id, sumMemory } :: tree.kvList) := by
        rw [split]
        exact List.perm_middle
      refine sound.retagged (.unchanged rfl rfl rfl) ?_ (fun _ _ => .inl rfl) ?_
      · intro other member
        exact (perm.map KVInfo.id).mem_iff.mpr (List.mem_cons_of_mem _ member)
      · intro kv member address here
        rcases List.mem_cons.mp (perm.mem_iff.mp member) with rfl | old
        · cases here
        · exact sound.listed kv old address here

variable {address : Address}

section Edits

theorem marks_congr (lines : after.root.lines = tree.root.lines)
    (removed : after.removed = tree.removed) : after.marks = tree.marks := by
  rw [PrefixTree.marks, PrefixTree.marks, List.map_append, List.map_append, TreeNode.marks_eq,
    lines, ← TreeNode.marks_eq, removed]

theorem Sound.congr (sound : Sound tree) (ordered : after.root.Ordered)
    (mark : after.root.mark = tree.root.mark) (marks : after.marks.Perm tree.marks)
    (kvs : after.kvList = tree.kvList) (next : after.next = tree.next)
    (bare : ∀ node ∈ after.removed, node.getList = []) : Sound after where
  ordered := ordered
  isDir := (congrArg Mark.isDir mark).trans sound.isDir
  distinct := (marks.map _).nodup_iff.mpr sound.distinct
  fresh other member := next ▸ sound.fresh other (marks.mem_iff.mp member)
  known other member := kvs ▸ sound.known other (marks.mem_iff.mp member)
  bare := bare
  listed := by
    rw [kvs]
    intro kv member address here
    exact (marks.map _).mem_iff.mpr (sound.listed kv member address here)

theorem Sound.grown (sound : Sound tree) (ordered : after.root.Ordered)
    (mark : after.root.mark = tree.root.mark) {new : Mark}
    (marks : after.marks.Perm (new :: tree.marks)) (address : new.address = tree.next)
    (untagged : new.domainId = noDomain) (kvs : after.kvList = tree.kvList)
    (removed : after.removed = tree.removed) (next : after.next = tree.next + 1) : Sound after where
  ordered := ordered
  isDir := (congrArg Mark.isDir mark).trans sound.isDir
  distinct := by
    rw [(marks.map _).nodup_iff, List.map_cons, List.nodup_cons]
    refine ⟨fun old => ?_, sound.distinct⟩
    obtain ⟨other, member, same⟩ := List.mem_map.mp old
    exact (sound.fresh other member).ne (same.trans address)
  fresh other member := by
    rw [next]
    obtain rfl | old := List.mem_cons.mp (marks.mem_iff.mp member)
    · rw [address]
      exact Nat.lt_succ_self _
    · exact (sound.fresh other old).trans (Nat.lt_succ_self _)
  known other member := by
    rw [kvs]
    obtain rfl | old := List.mem_cons.mp (marks.mem_iff.mp member)
    · exact .inl untagged
    · exact sound.known other old
  bare := removed ▸ sound.bare
  listed := by
    rw [kvs]
    intro kv member address here
    rw [(marks.map _).mem_iff, List.map_cons]
    exact List.mem_cons_of_mem _ (sound.listed kv member address here)

theorem Sound.near_known (sound : Sound tree) (address : Address) :
    (tree.root.getNearByDomainID address).domainId = noDomain ∨
      (tree.root.getNearByDomainID address).domainId ∈ tree.kvList.map KVInfo.id := by
  obtain none | ⟨node, inside, domain⟩ := tree.root.getNearByDomainID_mem address
  · exact .inl none
  · rw [← domain]
    exact sound.known node.mark (List.mem_map_of_mem (List.mem_append_left _ inside))

theorem mem_insertNearBy {list : List Address} {near : Option Address} {other : Address} :
    other ∈ insertNearBy list near address ↔ other = address ∨ other ∈ list := by
  rw [(insertNearBy_perm list near address).mem_iff, List.mem_cons]

theorem mem_of_mem_updateKV {kvs : List KVInfo} {id : Int} {change : KVInfo → KVInfo} {kv : KVInfo}
    (member : kv ∈ updateKV id change kvs) : kv ∈ kvs ∨ ∃ old ∈ kvs, kv = change old := by
  induction kvs with
  | nil => cases member
  | cons first rest ih =>
      rw [updateKV] at member
      split at member
      · obtain rfl | later := List.mem_cons.mp member
        · exact .inr ⟨first, List.mem_cons_self, rfl⟩
        · exact .inl (List.mem_cons_of_mem _ later)
      · obtain rfl | later := List.mem_cons.mp member
        · exact .inl List.mem_cons_self
        · refine (ih later).imp (List.mem_cons_of_mem _) ?_
          rintro ⟨old, member, same⟩
          exact ⟨old, List.mem_cons_of_mem _ member, same⟩

theorem ids_tagNode (tree : PrefixTree) (address : Address) :
    (tree.tagNode address).1.kvList.map KVInfo.id = tree.kvList.map KVInfo.id :=
  map_updateKV_of_same (by intro kv; rfl) _ _

theorem Sound.tagNode (sound : Sound tree) (inside : node ∈ tree.root.nodes) :
    Sound (tree.tagNode node.info.address).1 := by
  refine sound.retagged (sound.setDomainId inside rfl rfl rfl) ?_ ?_ ?_
  · intro id member
    rw [ids_tagNode]
    exact member
  · intro mark member
    rw [ids_tagNode]
    split
    · exact .inr (sound.near_known node.info.address)
    · exact .inl rfl
  · intro kv member address here
    have own : node.info.address ∈ tree.marks.map Mark.address :=
      List.mem_map.mpr ⟨node.mark, List.mem_map_of_mem (List.mem_append_left _ inside), rfl⟩
    rcases mem_of_mem_updateKV member with old | ⟨old, listed, rfl⟩
    · exact sound.listed kv old address here
    · obtain rfl | before := mem_insertNearBy.mp here
      · exact own
      · exact sound.listed old listed address before

theorem Sound.create (sound : Sound tree) (path : Bytes) (ino : UInt64) (isDir : Bool)
    (nodeSz : UInt64) : Sound (tree.create path ino isDir nodeSz).2.1 := by
  have inserts := @TreeNode.doInsert_inserts tree.next ino isDir nodeSz (path.length + 1) tree.root
    sound.ordered path noDomain
  simp only [PrefixTree.create]
  generalize tree.root.doInsert tree.next ino isDir nodeSz (path.length + 1) path noDomain =
    inserted at inserts ⊢
  cases made : inserted.created with
  | false =>
      exact sound.congr inserts.ordered inserts.mark
        (.of_eq (marks_congr (inserts.same made) rfl)) rfl rfl sound.bare
  | true =>
      obtain ⟨name, up, -, lines, -⟩ := inserts.grown made
      have marks : (inserted.node.nodes.map TreeNode.mark).Perm
          (⟨tree.next, name, ino, isDir, noDomain⟩ :: tree.root.nodes.map TreeNode.mark) := by
        rw [TreeNode.marks_eq, TreeNode.marks_eq]
        exact lines.filterMap List.head?
      have more : { tree with root := inserted.node, next := tree.next + 1 : PrefixTree }.marks.Perm
          (⟨tree.next, name, ino, isDir, noDomain⟩ :: tree.marks) := by
        rw [PrefixTree.marks, PrefixTree.marks, List.map_append, List.map_append,
          ← List.cons_append]
        exact marks.append_right _
      have grown : Sound { tree with root := inserted.node, next := tree.next + 1 } :=
        sound.grown inserts.ordered inserts.mark more rfl rfl rfl rfl rfl
      simp only [if_true]
      split
      · obtain ⟨node, inside, same⟩ := List.mem_map.mp (marks.mem_iff.mpr List.mem_cons_self)
        have address : node.info.address = tree.next := congrArg Mark.address same
        exact address ▸ grown.tagNode inside
      · exact grown

theorem Sound.remove (sound : Sound tree) (path : Bytes) : Sound (tree.remove path).2 := by
  have removes := TreeNode.doRemove_removes (path.length + 1) sound.ordered path
  have bare := @TreeNode.nodeAt_of_doRemove (path.length + 1) _ sound.ordered path
  simp only [PrefixTree.remove]
  generalize tree.root.doRemove (path.length + 1) path = result at removes bare ⊢
  obtain ⟨status, root, taken⟩ := result
  cases taken with
  | none =>
      exact sound.congr removes.ordered removes.mark
        (.of_eq (marks_congr (removes.same rfl) rfl)) rfl rfl sound.bare
  | some node =>
      obtain ⟨up, lines⟩ := removes.shrunk node rfl
      have marks : (tree.root.nodes.map TreeNode.mark).Perm
          (node.mark :: root.nodes.map TreeNode.mark) := by
        rw [TreeNode.marks_eq, TreeNode.marks_eq]
        exact lines.filterMap List.head?
      refine sound.congr removes.ordered removes.mark ?_ rfl rfl fun other member => ?_
      · simp only [PrefixTree.marks, Option.toList_some, List.singleton_append, List.map_append,
          List.map_cons]
        exact List.perm_middle.trans (marks.symm.append_right _)
      · obtain rfl | old := List.mem_cons.mp member
        · exact (bare rfl).2
        · exact sound.bare other old

end Edits

section Turns

theorem mem_of_find (found : tree.find address = some node) :
    node ∈ tree.root.nodes ++ tree.removed ∧ node.info.address = address :=
  ⟨List.mem_of_find?_eq_some found, by simpa using List.find?_some found⟩

theorem mark_mem_of_find (found : tree.find address = some node) : node.mark ∈ tree.marks :=
  List.mem_map_of_mem (mem_of_find found).1

theorem Sound.child_mem (sound : Sound tree) {child : TreeNode}
    (found : tree.find address = some node) (listed : child ∈ node.getList) :
    child ∈ tree.root.nodes := by
  obtain inside | outside := List.mem_append.mp (mem_of_find found).1
  · refine (TreeNode.nodes_sublist inside).subset ?_
    exact TreeNode.mem_nodes.mpr (.inr ⟨child, listed, child.self_mem_nodes⟩)
  · rw [sound.bare node outside] at listed
    cases listed

theorem mem_modify_or {kvs : List KVInfo} {place : Nat} {change : KVInfo → KVInfo} {kv : KVInfo}
    (member : kv ∈ kvs.modify place change) : kv ∈ kvs ∨ ∃ old ∈ kvs, kv = change old := by
  obtain ⟨index, found⟩ := List.mem_iff_getElem?.mp member
  rw [List.getElem?_modify, Option.map_eq_map, Option.map_eq_some_iff] at found
  obtain ⟨old, there, rfl⟩ := found
  split
  · exact .inr ⟨old, List.mem_of_getElem? there, rfl⟩
  · exact .inl (List.mem_of_getElem? there)

theorem retaggedBy_handOver (tree : PrefixTree) (src dst : Nat) (address : Address) (domainId : Int)
    (forward : Bool) : RetaggedBy (fun other old => if other = address then domainId else old) tree
      (tree.handOver src dst address domainId forward) :=
  ⟨rfl, rfl, rfl⟩

theorem retaggedBy_splitFileNode (tree : PrefixTree) (place : Nat) (node : TreeNode) :
    RetaggedBy (if node.info.domainId = noDomain then fun _ old => old
      else PrefixTree.pushedDown node) tree (tree.splitFileNode place node) := by
  simp only [PrefixTree.splitFileNode, PrefixTree.pushDownDomainTag]
  split
  · exact .unchanged rfl rfl rfl
  · exact ⟨rfl, rfl, rfl⟩

theorem popped_subset (forward : Bool) (list : List Address) :
    PrefixTree.popped forward list ⊆ list := by
  cases forward with
  | true => exact List.dropLast_subset list
  | false => exact (List.tail_sublist list).subset

variable {src dst : Nat}

theorem Sound.handOver (sound : Sound tree) (found : tree.find address = some node) {sink : KVInfo}
    (member : sink ∈ tree.kvList) (forward : Bool) :
    Sound (tree.handOver src dst node.info.address sink.id forward) := by
  have ids : (tree.handOver src dst node.info.address sink.id forward).kvList.map KVInfo.id =
      tree.kvList.map KVInfo.id :=
    (map_modify_of_same (by intro kv; rfl) _ _).trans (map_modify_of_same (by intro kv; rfl) _ _)
  have own : node.info.address ∈ tree.marks.map Mark.address :=
    List.mem_map.mpr ⟨node.mark, mark_mem_of_find found, rfl⟩
  -- what is left of the list that the node is taken from
  have rest : ∀ kv ∈ tree.kvList.modify src fun kv => { kv with
      domainNodeList := PrefixTree.popped forward kv.domainNodeList },
      ∀ other ∈ kv.domainNodeList, other ∈ tree.marks.map Mark.address := by
    intro kv member other here
    rcases mem_modify_or member with old | ⟨old, listed, rfl⟩
    · exact sound.listed kv old other here
    · exact sound.listed old listed other (popped_subset forward _ here)
  refine sound.retagged (retaggedBy_handOver tree src dst node.info.address sink.id forward)
    (fun id old => ids.symm ▸ old) (fun mark _ => ?_) fun kv listed other here => ?_
  · split
    · exact .inr (.inr (ids.symm ▸ List.mem_map_of_mem member))
    · exact .inl rfl
  · rcases mem_modify_or listed with old | ⟨old, before, rfl⟩
    · exact rest kv old other here
    · obtain rfl | later := List.mem_cons.mp ((pushed_perm forward _ _).mem_iff.mp here)
      · exact own
      · exact rest old before other later

theorem Sound.splitFileNode (sound : Sound tree) (place : Nat)
    (found : tree.find address = some node) : Sound (tree.splitFileNode place node) := by
  have ids : (tree.splitFileNode place node).kvList.map KVInfo.id = tree.kvList.map KVInfo.id :=
    map_modify_of_same (by intro kv; rfl) _ _
  refine sound.retagged (retaggedBy_splitFileNode tree place node) (fun id old => ids.symm ▸ old)
    (fun mark _ => ?_) fun kv listed other here => ?_
  · rw [ids]
    split
    · exact .inl rfl
    · rw [PrefixTree.pushedDown]
      split
      · exact .inr (.inl rfl)
      · split
        · exact .inr (sound.known node.mark (mark_mem_of_find found))
        · exact .inl rfl
  · rcases mem_modify_or listed with old | ⟨old, before, rfl⟩
    · exact sound.listed kv old other here
    · obtain kept | below := List.mem_append.mp here
      · exact sound.listed old before other (List.dropLast_subset _ kept)
      · obtain ⟨child, inside, rfl⟩ := List.mem_map.mp below
        refine List.mem_map.mpr ⟨child.mark, List.mem_map_of_mem ?_, rfl⟩
        exact List.mem_append_left _ (sound.child_mem found inside)

namespace Adjusting

variable {state next : Adjusting} {targetScore : Int}

theorem sound_setTagCnt (sound : Sound state.tree) (place : Nat) (count : Int → Int) :
    Sound (state.setTagCnt place count).tree := by
  have ids : (state.setTagCnt place count).tree.kvList.map KVInfo.id =
      state.tree.kvList.map KVInfo.id := map_modify_of_same (by intro kv; rfl) _ _
  refine sound.retagged (.unchanged rfl rfl rfl) (fun id old => ids.symm ▸ old)
    (fun _ _ => .inl rfl) fun kv listed other here => ?_
  rcases mem_modify_or listed with old | ⟨old, before, rfl⟩
  · exact sound.listed kv old other here
  · exact sound.listed old before other here

theorem Moved.sound {forward : Bool} (moved : Moved state src dst node forward next)
    (sound : Sound state.tree) (found : state.tree.find address = some node) : Sound next.tree := by
  cases moved with
  | mk _ sinkAt => exact sound.handOver found (List.mem_of_getElem? sinkAt) forward

theorem Moved.retagged {forward : Bool} (moved : Moved state src dst node forward next) :
    ∃ domain, RetaggedBy domain state.tree next.tree := by
  cases moved
  exact ⟨_, retaggedBy_handOver _ _ _ _ _ _⟩

theorem Turn.retagged (turn : Turn targetScore state next) :
    ∃ domain, RetaggedBy domain state.tree next.tree := by
  cases turn with
  | overweighed | visited | refused | beginPull | noPull | endPull | pushedOver | endPush =>
      exact ⟨_, .unchanged rfl rfl rfl⟩
  | transferred transfer =>
      cases transfer with
      | taken _ _ _ _ _ move =>
          obtain ⟨domain, root, removed, same⟩ := move.retagged
          refine ⟨domain, ?_⟩
          split
          · exact ⟨root, removed, same⟩
          · exact ⟨root, removed, same⟩
      | pulled _ _ _ _ _ _ _ _ move =>
          obtain ⟨domain, root, removed, same⟩ := move.retagged
          refine ⟨domain, ?_⟩
          split
          · exact ⟨root, removed, same⟩
          · exact ⟨root, removed, same⟩
      | pushed _ _ _ _ _ _ _ _ _ _ move => exact move.retagged
  | takenApart =>
      obtain ⟨root, removed, same⟩ := retaggedBy_splitFileNode
        (state.setTagCnt state.i (· - 1)).tree (state.i - 1) _
      exact ⟨_, root, removed, same⟩
  | pulledApart =>
      split
      · exact ⟨_, retaggedBy_splitFileNode _ _ _⟩
      · exact ⟨_, retaggedBy_splitFileNode _ _ _⟩
  | pushedApart => exact ⟨_, retaggedBy_splitFileNode _ _ _⟩

theorem Turn.sound (turn : Turn targetScore state next) (sound : Sound state.tree) :
    Sound next.tree := by
  cases turn with
  | overweighed | visited | beginPull | noPull | endPull | endPush => exact sound
  | transferred transfer =>
      cases transfer with
      | taken _ _ _ found _ move =>
          have moved := move.sound (sound_setTagCnt sound _ _) found
          split
          · exact sound_setTagCnt moved state.i fun _ => 0
          · exact moved
      | pulled _ _ _ _ _ found _ _ move =>
          have moved := move.sound sound found
          split
          · exact moved
          · exact moved
      | pushed _ _ _ _ _ _ _ found _ _ move => exact move.sound sound found
  | takenApart _ _ found => exact (sound_setTagCnt sound _ _).splitFileNode _ found
  | refused =>
      exact sound_setTagCnt (sound_setTagCnt sound state.i (· - 1)) state.i fun _ => 0
  | pulledApart _ _ _ _ _ found =>
      split
      · exact sound.splitFileNode _ found
      · exact sound.splitFileNode _ found
  | pushedApart _ _ _ _ _ found => exact sound.splitFileNode _ found
  | pushedOver => exact sound_setTagCnt sound (state.i + 1) (· + 1)

end Adjusting

theorem Sound.adjust {turns : Nat} {targetScore : Int} {moves : List Move} (sound : Sound tree)
    (adjusted : tree.adjust turns targetScore = some (after, moves)) : Sound after :=
  PrefixTree.adjust_invariant (fun _ _ sound turn => turn.sound sound) sound adjusted

end Turns

theorem Sound.call {call : TreeCall} (sound : Sound tree) (returned : tree.call call = some after) :
    Sound after := by
  cases PrefixTree.called_of_call returned with
  | registNewKV pastEnd id sumMemory => exact sound.registNewKV pastEnd id sumMemory
  | create path ino isDir nodeSz => exact sound.create path ino isDir nodeSz
  | remove path => exact sound.remove path
  | adjust adjusted => exact sound.adjust adjusted

theorem sound_of_run {calls : List TreeCall}
    (run : Run (StepOf PrefixTree.call) .initial calls tree) : Sound tree :=
  run.invariant Sound Sound.initial fun _ _ _ sound returned => sound.call returned

end Ctgfs.Placement
