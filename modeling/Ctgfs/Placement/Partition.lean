import Ctgfs.Placement.DomainIndex
import Ctgfs.Placement.NearBy

/-!
# The partition of the tree

The nodes with a domain cut the tree into the parts of the KVs.  `RegistNewKV`, `Create` and
`Remove` keep the partition, as long as no node with a domain is removed.
-/

namespace Ctgfs.Placement

open Foundation

structure Covered (line : List Mark) : Prop where
  once : line.countP Mark.tagged ≤ 1
  file : ∀ mark ∈ line.head?, mark.isDir = false → line.countP Mark.tagged = 1

structure Partitioned (tree : PrefixTree) : Prop where
  ordered : tree.root.Ordered
  indexed : Indexed tree.root.lines tree.kvList tree.next
  covered : ∀ line ∈ tree.root.lines, Covered line

variable {kv : KVInfo} {id : Int}

section Lists

variable {kvs : List KVInfo} {change : KVInfo → KVInfo}

theorem map_modify_of_same {Value : Type} {view : KVInfo → Value}
    (same : ∀ kv, view (change kv) = view kv) (place : Nat) (kvs : List KVInfo) :
    (kvs.modify place change).map view = kvs.map view := by
  apply List.ext_getElem?
  intro index
  rw [List.getElem?_map, List.getElem?_map, List.getElem?_modify]
  cases kvs[index]? with
  | none => rfl
  | some kv =>
      simp only [Option.map_eq_map, Option.map_some]
      split
      · rw [same]
      · rfl

variable {other : KVInfo}

theorem place_of_id (ids : (kvs.map KVInfo.id).Nodup) {first second : Nat}
    (here : kvs[first]? = some kv) (there : kvs[second]? = some other) (same : kv.id = other.id) :
    first = second := by
  have firstId : (kvs.map KVInfo.id)[first]? = some kv.id := by rw [List.getElem?_map, here]; rfl
  have secondId : (kvs.map KVInfo.id)[second]? = some kv.id := by
    rw [List.getElem?_map, there, same]
    rfl
  have inside : first < (kvs.map KVInfo.id).length := (List.getElem?_eq_some_iff.mp firstId).1
  exact (List.getElem?_inj inside ids).mp (firstId.trans secondId.symm)

theorem mem_modify (ids : (kvs.map KVInfo.id).Nodup) {place : Nat} (here : kvs[place]? = some kv)
    (member : other ∈ kvs.modify place change) :
    other = change kv ∨ other ∈ kvs ∧ other.id ≠ kv.id := by
  obtain ⟨index, found⟩ := List.mem_iff_getElem?.mp member
  rw [List.getElem?_modify, Option.map_eq_map, Option.map_eq_some_iff] at found
  obtain ⟨old, there, rfl⟩ := found
  split
  next same =>
    rw [← same, here] at there
    exact .inl (congrArg change (Option.some.inj there).symm)
  next different =>
    refine .inr ⟨List.mem_of_getElem? there, fun equal => different ?_⟩
    exact place_of_id ids here there equal.symm

theorem mem_updateKV (ids : (kvs.map KVInfo.id).Nodup) (member : other ∈ updateKV id change kvs) :
    (∃ kv ∈ kvs, kv.id = id ∧ other = change kv) ∨ other ∈ kvs ∧ other.id ≠ id := by
  induction kvs with
  | nil => cases member
  | cons first rest ih =>
      obtain ⟨unique, ids⟩ := List.nodup_cons.mp ids
      rw [updateKV] at member
      split at member
      next here =>
        obtain rfl | later := List.mem_cons.mp member
        · exact .inl ⟨first, List.mem_cons_self, here, rfl⟩
        · refine .inr ⟨List.mem_cons_of_mem _ later, fun same => unique ?_⟩
          exact here.trans same.symm ▸ List.mem_map_of_mem later
      next elsewhere =>
        obtain rfl | later := List.mem_cons.mp member
        · exact .inr ⟨List.mem_cons_self, elsewhere⟩
        · obtain ⟨kv, old, found⟩ | ⟨old, different⟩ := ih ids later
          · exact .inl ⟨kv, List.mem_cons_of_mem _ old, found⟩
          · exact .inr ⟨List.mem_cons_of_mem _ old, different⟩

theorem map_updateKV_of_same {Value : Type} {view : KVInfo → Value}
    (same : ∀ kv, view (change kv) = view kv) (id : Int) (kvs : List KVInfo) :
    (updateKV id change kvs).map view = kvs.map view := by
  induction kvs with
  | nil => rfl
  | cons first rest ih =>
      rw [updateKV]
      split
      · rw [List.map_cons, List.map_cons, same]
      · rw [List.map_cons, List.map_cons, ih]

theorem insertNearBy_perm (list : List Address) (near : Option Address) (address : Address) :
    (insertNearBy list near address).Perm (address :: list) := by
  have shape := list.takeWhile_append_dropWhile (p := fun other => some other ≠ near)
  simp only [insertNearBy]
  generalize list.takeWhile (fun other => some other ≠ near) = before at shape ⊢
  split
  · exact List.Perm.refl _
  · have front : before.dropLast = list.take (before.length - 1) := by
      rw [← shape, List.take_append_of_le_length (Nat.sub_le _ _), List.dropLast_eq_take]
    rw [front]
    refine List.perm_middle.trans ?_
    rw [List.take_append_drop]

end Lists

variable {tree : PrefixTree}

theorem Partitioned.congr (part : Partitioned tree) {other : PrefixTree}
    (ordered : other.root.Ordered) (lines : other.root.lines = tree.root.lines)
    (kvs : other.kvList = tree.kvList) (next : other.next = tree.next) : Partitioned other where
  ordered := ordered
  indexed := by
    rw [lines, kvs, next]
    exact part.indexed
  covered := by
    rw [lines]
    exact part.covered

variable {next : Address}

theorem Indexed.addresses_nodup {root : TreeNode} {kvs : List KVInfo}
    (indexed : Indexed root.lines kvs next) : root.addresses.Nodup := by
  have heads := indexed.distinct
  rw [TreeNode.address_lines] at heads
  exact heads.of_map _

theorem Partitioned.distinct (part : Partitioned tree) : tree.root.addresses.Nodup :=
  part.indexed.addresses_nodup

theorem Partitioned.initial : Partitioned .initial where
  ordered := TreeNode.ordered_create 0 [] 0 true 0
  indexed := by
    refine ⟨?_, List.nodup_singleton _, List.nodup_nil, by rintro ⟨⟩, ?_, by rintro kv ⟨⟩,
      by rintro kv ⟨⟩⟩
    · intro mark up member
      obtain ⟨rfl, rfl⟩ := List.cons.inj (List.mem_singleton.mp member)
      exact Nat.zero_lt_one
    · intro mark up member
      obtain ⟨rfl, rfl⟩ := List.cons.inj (List.mem_singleton.mp member)
      exact .inl rfl
  covered := by
    intro line member
    obtain rfl := List.mem_singleton.mp member
    refine ⟨by decide, ?_⟩
    rintro mark ⟨⟩ ⟨⟩

theorem Partitioned.remove (part : Partitioned tree) (path : Bytes)
    (untagged : ∀ node, tree.root.nodeAt (components path) = some node → node.getList = [] →
      node.info.domainId = noDomain) : Partitioned (tree.remove path).2 := by
  have removes := TreeNode.doRemove_removes (path.length + 1) part.ordered path
  cases taken : (tree.root.doRemove (path.length + 1) path).2.2 with
  | none => exact part.congr removes.ordered (removes.same taken) rfl rfl
  | some node =>
      obtain ⟨up, perm⟩ := removes.shrunk node taken
      obtain ⟨there, bare⟩ := TreeNode.nodeAt_of_doRemove part.ordered taken
      refine ⟨removes.ordered, (part.indexed.perm perm.symm).shrink (untagged node there bare), ?_⟩
      intro line member
      exact part.covered line (perm.mem_iff.mpr (List.mem_cons_of_mem _ member))

section Regist

theorem untagged_of_unregistered {lines : List (List Mark)} (indexed : Indexed lines [] next)
    {mark : Mark} {up : List Mark} (member : mark :: up ∈ lines) : mark.domainId = noDomain := by
  obtain none | registered := indexed.known mark up member
  · exact none
  · cases registered

theorem Partitioned.registFirst (part : Partitioned tree) (none : tree.kvList = []) (pastEnd : Int)
    (real : id ≠ noDomain) (sumMemory : UInt64) :
    Partitioned (tree.registNewKV pastEnd id sumMemory) := by
  have indexed := part.indexed
  rw [none] at indexed
  have untagged : ∀ mark up, mark :: up ∈ tree.root.lines → mark.domainId = noDomain :=
    fun mark up => untagged_of_unregistered indexed
  have ancestry := TreeNode.ancestry part.distinct
  have root := tree.root.self_mem_lines
  have empty : Indexed tree.root.lines [{ id, sumMemory }] tree.next :=
    indexed.register (by rintro ⟨⟩) real rfl
  simp only [PrefixTree.registNewKV, none, TreeNode.setDomainId_eq_retag]
  refine ⟨?_, ?_, ?_⟩
  · dsimp only
    exact part.ordered.retag
  · rw [TreeNode.lines_retag]
    refine empty.give root List.mem_cons_self rfl fun kv member => ?_
    obtain rfl := List.mem_singleton.mp member
    refine ⟨_, List.mem_cons_self, rfl, ?_⟩
    rw [if_pos rfl]
    exact List.Perm.refl _
  · rw [TreeNode.lines_retag]
    intro _ member
    obtain ⟨line, old, rfl⟩ := List.mem_map.mp member
    suffices one : (line.map (Mark.retag fun other old =>
        if other = tree.root.info.address then id else old)).countP Mark.tagged = 1 from
      ⟨one.le, fun _ _ _ => one⟩
    refine ancestry.countP_root (fun mark line => ?_) (fun mark above up line => ?_) old
    · rw [TreeNode.root_of_line line]
      simpa [Mark.tagged, Mark.retag, TreeNode.mark] using real
    · have below : mark.address ≠ tree.root.info.address := by
        intro same
        obtain ⟨-, ⟨⟩⟩ := ancestry.unique line root same
      simp [Mark.tagged, Mark.retag, below, untagged mark _ line]

theorem Partitioned.registNext (part : Partitioned tree) {kvs : List KVInfo}
    (fresh : kv.id ∉ tree.kvList.map KVInfo.id) (real : kv.id ≠ noDomain)
    (empty : kv.domainNodeList = []) (perm : kvs.Perm (kv :: tree.kvList)) :
    Partitioned { tree with kvList := kvs } where
  ordered := part.ordered
  indexed := (part.indexed.register fresh real empty).kvPerm perm
  covered := part.covered

theorem Partitioned.registNewKV (part : Partitioned tree) (pastEnd : Int)
    (fresh : id ∉ tree.kvList.map KVInfo.id) (real : id ≠ noDomain) (sumMemory : UInt64) :
    Partitioned (tree.registNewKV pastEnd id sumMemory) := by
  by_cases none : tree.kvList = []
  · exact part.registFirst none pastEnd real sumMemory
  · have registers := tree.registers_registNewKV pastEnd id sumMemory
    generalize tree.registNewKV pastEnd id sumMemory = after at registers ⊢
    cases registers with
    | first empty => exact absurd empty none
    | @later before behind _ split =>
        have perm : (before ++ { id, sumMemory } :: behind).Perm
            ({ id, sumMemory } :: tree.kvList) := by
          rw [split]
          exact List.perm_middle
        exact part.registNext fresh real rfl perm

end Regist

section Create

theorem ownerOf_eq_noDomain (line : List Mark) :
    TreeNode.ownerOf noDomain line = noDomain ↔ line.countP Mark.tagged = 0 := by
  induction line with
  | nil => exact ⟨fun _ => rfl, fun _ => rfl⟩
  | cons mark up ih =>
      rw [List.countP_cons, TreeNode.ownerOf, List.foldr_cons, ← TreeNode.ownerOf]
      split
      next above =>
        rw [ih.mp above]
        by_cases domain : mark.domainId = noDomain <;> simp [Mark.tagged, domain]
      next above =>
        have some := mt ih.mpr above
        simp [above, some]

theorem updateKV_of_notMem {kvs : List KVInfo} (change : KVInfo → KVInfo)
    (absent : id ∉ kvs.map KVInfo.id) : updateKV id change kvs = kvs := by
  induction kvs with
  | nil => rfl
  | cons first rest ih =>
      rw [List.map_cons, List.mem_cons, not_or] at absent
      rw [updateKV, if_neg fun same => absent.1 same.symm, ih absent.2]

theorem Partitioned.retag_line (part : Partitioned tree) {line : List Mark}
    (member : line ∈ tree.root.lines) (domainId : Int) :
    line.map (Mark.retag fun other old => if other = tree.next then domainId else old) = line := by
  refine (List.map_congr_left fun mark on => ?_).trans (List.map_id line)
  obtain ⟨up, here⟩ := (TreeNode.ancestry part.distinct).line_of_mem member on
  have old : mark.address ≠ tree.next := (part.indexed.fresh mark up here).ne
  simp [Mark.retag, old]

theorem Partitioned.notMem_list (part : Partitioned tree) (member : kv ∈ tree.kvList) :
    tree.next ∉ kv.domainNodeList := by
  intro listed
  obtain ⟨mark, up, line, here, -⟩ := (part.indexed.lists kv member _).mp listed
  exact (part.indexed.fresh mark up line).ne here

theorem Partitioned.grown (part : Partitioned tree) {other : PrefixTree}
    (ordered : other.root.Ordered) (indexed : Indexed other.root.lines other.kvList other.next)
    {line : List Mark} (covered : Covered line)
    (perm : other.root.lines.Perm (line :: tree.root.lines)) : Partitioned other := by
  refine ⟨ordered, indexed, fun another member => ?_⟩
  obtain rfl | old := List.mem_cons.mp (perm.mem_iff.mp member)
  · exact covered
  · exact part.covered another old

theorem known_of_getNearByDomainID {root : TreeNode} {kvs : List KVInfo}
    (indexed : Indexed root.lines kvs next) {address : Address}
    (real : (root.getNearByDomainID address).domainId ≠ noDomain) :
    (root.getNearByDomainID address).domainId ∈ kvs.map KVInfo.id := by
  obtain none | ⟨node, inside, domain⟩ := root.getNearByDomainID_mem address
  · exact absurd none real
  · obtain ⟨above, line, -⟩ := TreeNode.line_of_child inside
    have domain : node.mark.domainId = _ := domain
    exact domain ▸ (indexed.known _ _ line).resolve_left (domain ▸ real)

theorem Partitioned.noDomain_of_getNearByDomainID (part : Partitioned tree) {grown : TreeNode}
    (distinct : grown.addresses.Nodup) (old : ∀ line ∈ tree.root.lines, line ∈ grown.lines)
    (nothing : (grown.getNearByDomainID tree.next).domainId = noDomain) {address : Address}
    {domainId : Int} (tagged : Tagged tree.root.lines address domainId) : domainId = noDomain := by
  obtain ⟨mark, above, line, -, rfl⟩ := tagged
  by_contra real
  obtain ⟨stop, on, here⟩ := TreeNode.stop_of_getNearByDomainID distinct nothing (old _ line)
    List.mem_cons_self (decide_eq_true real)
  obtain ⟨higher, old⟩ := (TreeNode.ancestry part.distinct).line_of_mem line on
  exact (part.indexed.fresh stop higher old).ne here

theorem Partitioned.tagNode (part : Partitioned tree) {grown : PrefixTree} {new : Mark}
    {up : List Mark} (ordered : grown.root.Ordered) (kvs : grown.kvList = tree.kvList)
    (next : grown.next = tree.next + 1) (address : new.address = tree.next)
    (untagged : new.domainId = noDomain) (uncovered : up.countP Mark.tagged = 0)
    (member : up ∈ tree.root.lines)
    (perm : grown.root.lines.Perm ((new :: up) :: tree.root.lines))
    (careful : new.isDir = false → ∃ address domainId, domainId ≠ noDomain ∧
      Tagged tree.root.lines address domainId) :
    Partitioned (grown.tagNode tree.next).1 := by
  have proper := tree.root.nil_notMem_lines
  have indexed : Indexed grown.root.lines grown.kvList grown.next := by
    rw [kvs, next]
    exact (part.indexed.grow proper up address untagged).perm perm
  simp only [PrefixTree.tagNode, TreeNode.setDomainId_eq_retag]
  generalize found : grown.root.getNearByDomainID tree.next = near
  -- the new line is the only one that the new domain is on
  have lines : (grown.root.retag fun other old =>
      if other = tree.next then near.domainId else old).lines.Perm
        (({ new with domainId := near.domainId } :: up) :: tree.root.lines) := by
    rw [TreeNode.lines_retag]
    refine (perm.map _).trans ?_
    rw [List.map_cons, List.map_cons, part.retag_line member,
      (List.map_congr_left fun line old => part.retag_line old _).trans (List.map_id _)]
    simp [Mark.retag, address]
  have retagged : (grown.root.retag fun other old =>
      if other = tree.next then near.domainId else old).Ordered := ordered.retag
  by_cases nothing : near.domainId = noDomain
  · -- nothing in the tree has a domain
    have untouched : updateKV near.domainId (fun kv => { kv with
        domainNodeList := insertNearBy kv.domainNodeList near.node tree.next }) grown.kvList =
        grown.kvList := by
      apply updateKV_of_notMem
      rw [nothing]
      exact indexed.real
    have isDir : new.isDir ≠ false := by
      intro file
      obtain ⟨_, _, real, tagged⟩ := careful file
      exact real (part.noDomain_of_getNearByDomainID indexed.addresses_nodup
        (fun line old => perm.mem_iff.mpr (List.mem_cons_of_mem _ old)) (found ▸ nothing) tagged)
    have same : { new with domainId := near.domainId } = new := by rw [nothing, ← untagged]
    rw [same] at lines
    refine part.grown retagged ?_ ⟨?_, ?_⟩ lines
    · rw [untouched, kvs, next]
      exact (part.indexed.grow proper up address untagged).perm lines
    · simp [uncovered, Mark.tagged, untagged]
    · rintro mark ⟨⟩ file
      exact absurd file isDir
  · have tagged : ({ new with domainId := near.domainId } : Mark).tagged = true :=
      decide_eq_true nothing
    have one : ({ new with domainId := near.domainId } :: up).countP Mark.tagged = 1 := by
      rw [List.countP_cons, uncovered, tagged]
      rfl
    have known : near.domainId ∈ grown.kvList.map KVInfo.id := by
      subst found
      exact known_of_getNearByDomainID indexed nothing
    refine part.grown retagged ?_ ⟨one.le, fun _ _ _ => one⟩ lines
    rw [TreeNode.lines_retag, ← address]
    refine indexed.give (perm.mem_iff.mpr List.mem_cons_self) known ?_ fun kv member => ?_
    · exact map_updateKV_of_same (by intro kv; rfl) _ _
    have absent : ∀ old ∈ grown.kvList, new.address ∉ old.domainNodeList := by
      rw [kvs, address]
      exact fun old => part.notMem_list
    obtain ⟨old, listed, owner, rfl⟩ | ⟨listed, other⟩ := mem_updateKV indexed.ids member
    · refine ⟨old, listed, rfl, ?_⟩
      rw [if_pos owner, List.erase_of_not_mem (absent old listed)]
      exact insertNearBy_perm _ _ _
    · refine ⟨kv, listed, rfl, ?_⟩
      rw [if_neg other, List.erase_of_not_mem (absent kv listed)]

theorem Partitioned.create (part : Partitioned tree) (path : Bytes) (ino : UInt64) {isDir : Bool}
    (nodeSz : UInt64)
    (careful : isDir = false → ∃ address domainId, domainId ≠ noDomain ∧
      Tagged tree.root.lines address domainId) :
    Partitioned (tree.create path ino isDir nodeSz).2.1 := by
  have inserts := @TreeNode.doInsert_inserts tree.next ino isDir nodeSz (path.length + 1) _
    part.ordered path noDomain
  simp only [PrefixTree.create]
  generalize tree.root.doInsert tree.next ino isDir nodeSz (path.length + 1) path noDomain =
    inserted at inserts
  split
  next created =>
    obtain ⟨name, up, member, perm, owner⟩ := inserts.grown created
    split
    next alone =>
      exact part.tagNode inserts.ordered rfl rfl rfl rfl
        ((ownerOf_eq_noDomain up).mp (owner ▸ alone)) member perm careful
    next owned =>
      have count : up.countP Mark.tagged = 1 := by
        have some := mt (ownerOf_eq_noDomain up).mpr (owner ▸ owned)
        have once := (part.covered up member).once
        omega
      have one : (⟨tree.next, name, ino, isDir, noDomain⟩ :: up : List Mark).countP Mark.tagged =
          1 := by
        rw [List.countP_cons, count]
        rfl
      refine part.grown inserts.ordered ?_ ⟨one.le, fun _ _ _ => one⟩ perm
      exact (part.indexed.grow tree.root.nil_notMem_lines up rfl rfl).perm perm
  next kept =>
    exact part.congr inserts.ordered (inserts.same (Bool.eq_false_iff.mpr kept)) rfl rfl

end Create

end Ctgfs.Placement
