import Ctgfs.Placement.Adjust
import Ctgfs.Placement.TreeEdits

/-!
# The lists of domains as an index of the tags

Which KV a node is given to is kept twice: as a tag of the node, and in the list of the KV.
Here the lists are related to the lines of the tree, and followed through what happens to a
line: it is added or taken away, its node is given to a KV, or gives its domain to its
children.
-/

namespace Ctgfs.Placement

open Foundation

variable {lines : List (List Mark)} {kvs changed : List KVInfo} {next : Address}

def Tagged (lines : List (List Mark)) (address : Address) (domainId : Int) : Prop :=
  ∃ mark up, mark :: up ∈ lines ∧ mark.address = address ∧ mark.domainId = domainId

structure Indexed (lines : List (List Mark)) (kvs : List KVInfo) (next : Address) : Prop where
  fresh : ∀ mark up, mark :: up ∈ lines → mark.address < next
  distinct : (lines.map fun line => line.head?.map Mark.address).Nodup
  ids : (kvs.map KVInfo.id).Nodup
  real : noDomain ∉ kvs.map KVInfo.id
  known : ∀ mark up, mark :: up ∈ lines →
    mark.domainId = noDomain ∨ mark.domainId ∈ kvs.map KVInfo.id
  nodup : ∀ kv ∈ kvs, kv.domainNodeList.Nodup
  lists : ∀ kv ∈ kvs, ∀ address, address ∈ kv.domainNodeList ↔ Tagged lines address kv.id

namespace Indexed

theorem ne_noDomain (indexed : Indexed lines kvs next) {kv : KVInfo} (member : kv ∈ kvs) :
    kv.id ≠ noDomain := by
  intro same
  exact indexed.real (same ▸ List.mem_map_of_mem member)

variable {up : List Mark} {mark : Mark}

theorem eq_of_address (indexed : Indexed lines kvs next) {other : Mark} {up' : List Mark}
    (first : mark :: up ∈ lines) (second : other :: up' ∈ lines)
    (same : mark.address = other.address) : mark = other ∧ up = up' := by
  have equal := List.inj_on_of_nodup_map indexed.distinct first second (congrArg some same)
  simpa using equal

theorem perm {other : List (List Mark)} (indexed : Indexed lines kvs next)
    (perm : other.Perm lines) : Indexed other kvs next where
  fresh mark up member := indexed.fresh mark up (perm.mem_iff.mp member)
  distinct := ((perm.map _).nodup_iff).mpr indexed.distinct
  ids := indexed.ids
  real := indexed.real
  known mark up member := indexed.known mark up (perm.mem_iff.mp member)
  nodup := indexed.nodup
  lists kv member address := by
    rw [indexed.lists kv member address, Tagged, Tagged]
    simp only [perm.mem_iff]

variable {domainId : Int}

theorem tagged_cons {address : Address} (untagged : mark.domainId = noDomain)
    (real : domainId ≠ noDomain) :
    Tagged ((mark :: up) :: lines) address domainId ↔ Tagged lines address domainId := by
  constructor
  · rintro ⟨other, above, member, here, domain⟩
    obtain new | old := List.mem_cons.mp member
    · obtain ⟨rfl, rfl⟩ := List.cons.inj new
      exact absurd (domain.symm.trans untagged) real
    · exact ⟨other, above, old, here, domain⟩
  · rintro ⟨other, above, member, here⟩
    exact ⟨other, above, List.mem_cons_of_mem _ member, here⟩

theorem grow (indexed : Indexed lines kvs next) (proper : [] ∉ lines) (up : List Mark)
    (address : mark.address = next) (untagged : mark.domainId = noDomain) :
    Indexed ((mark :: up) :: lines) kvs (next + 1) where
  fresh other above member := by
    obtain new | old := List.mem_cons.mp member
    · obtain ⟨rfl, rfl⟩ := List.cons.inj new
      exact address ▸ Nat.lt_succ_self _
    · exact (indexed.fresh other above old).trans (Nat.lt_succ_self next)
  distinct := by
    refine List.nodup_cons.mpr ⟨fun member => ?_, indexed.distinct⟩
    obtain ⟨line, member, same⟩ := List.mem_map.mp member
    obtain ⟨other, above, rfl⟩ := List.exists_cons_of_ne_nil (ne_of_mem_of_not_mem member proper)
    have equal : other.address = mark.address := by simpa using same
    exact (indexed.fresh other above member).ne (equal.trans address)
  ids := indexed.ids
  real := indexed.real
  known other above member := by
    obtain new | old := List.mem_cons.mp member
    · obtain ⟨rfl, rfl⟩ := List.cons.inj new
      exact .inl untagged
    · exact indexed.known other above old
  nodup := indexed.nodup
  lists kv member address := by
    rw [tagged_cons untagged (indexed.ne_noDomain member), indexed.lists kv member]

theorem shrink (indexed : Indexed ((mark :: up) :: lines) kvs next)
    (untagged : mark.domainId = noDomain) : Indexed lines kvs next where
  fresh other above member := indexed.fresh other above (List.mem_cons_of_mem _ member)
  distinct := (List.nodup_cons.mp indexed.distinct).2
  ids := indexed.ids
  real := indexed.real
  known other above member := indexed.known other above (List.mem_cons_of_mem _ member)
  nodup := indexed.nodup
  lists kv member address := by
    rw [← tagged_cons untagged (indexed.ne_noDomain member), indexed.lists kv member]

theorem relist (indexed : Indexed lines kvs next)
    (ids : changed.map KVInfo.id = kvs.map KVInfo.id)
    (same : ∀ kv ∈ changed, ∃ old ∈ kvs, old.id = kv.id ∧ old.domainNodeList = kv.domainNodeList) :
    Indexed lines changed next where
  fresh := indexed.fresh
  distinct := indexed.distinct
  ids := ids ▸ indexed.ids
  real := ids ▸ indexed.real
  known := ids ▸ indexed.known
  nodup kv member := by
    obtain ⟨old, listed, -, list⟩ := same kv member
    exact list ▸ indexed.nodup old listed
  lists kv member address := by
    obtain ⟨old, listed, id, list⟩ := same kv member
    rw [← list, ← id, indexed.lists old listed]

theorem kvPerm (indexed : Indexed lines kvs next) (perm : changed.Perm kvs) :
    Indexed lines changed next where
  fresh := indexed.fresh
  distinct := indexed.distinct
  ids := ((perm.map _).nodup_iff).mpr indexed.ids
  real := fun member => indexed.real ((perm.map _).mem_iff.mp member)
  known mark up member := (indexed.known mark up member).imp_right (perm.map _).mem_iff.mpr
  nodup kv member := indexed.nodup kv (perm.mem_iff.mp member)
  lists kv member := indexed.lists kv (perm.mem_iff.mp member)

theorem register (indexed : Indexed lines kvs next) {kv : KVInfo}
    (fresh : kv.id ∉ kvs.map KVInfo.id) (real : kv.id ≠ noDomain)
    (empty : kv.domainNodeList = []) : Indexed lines (kv :: kvs) next where
  fresh := indexed.fresh
  distinct := indexed.distinct
  ids := List.nodup_cons.mpr ⟨fresh, indexed.ids⟩
  real := by
    rw [List.map_cons, List.mem_cons, not_or]
    exact ⟨real.symm, indexed.real⟩
  known mark up member := (indexed.known mark up member).imp_right (List.mem_cons_of_mem _)
  nodup other member := by
    obtain rfl | old := List.mem_cons.mp member
    · rw [empty]
      exact List.nodup_nil
    · exact indexed.nodup other old
  lists other member address := by
    obtain rfl | old := List.mem_cons.mp member
    · rw [empty]
      refine ⟨by rintro ⟨⟩, ?_⟩
      rintro ⟨mark, up, line, -, domain⟩
      obtain none | id := indexed.known mark up line
      · exact absurd (domain.symm.trans none) real
      · exact absurd (domain ▸ id) fresh
    · exact indexed.lists other old address

section Retag

variable {domain : Address → Int → Int}

theorem mem_retag :
    mark :: up ∈ lines.map (List.map (Mark.retag domain)) ↔
      ∃ old above, old :: above ∈ lines ∧ old.retag domain = mark ∧
        above.map (Mark.retag domain) = up := by
  rw [List.mem_map]
  constructor
  · rintro ⟨line, member, shape⟩
    obtain ⟨old, above, rfl, first, rest⟩ := List.map_eq_cons_iff.mp shape
    exact ⟨old, above, member, first, rest⟩
  · rintro ⟨old, above, member, rfl, rfl⟩
    exact ⟨_, member, rfl⟩

theorem tagged_retag {address : Address} :
    Tagged (lines.map (List.map (Mark.retag domain))) address domainId ↔
      ∃ mark up, mark :: up ∈ lines ∧ mark.address = address ∧
        domain address mark.domainId = domainId := by
  constructor
  · rintro ⟨_, _, member, here, same⟩
    obtain ⟨old, above, line, rfl, rfl⟩ := mem_retag.mp member
    exact ⟨old, above, line, here, here ▸ same⟩
  · rintro ⟨mark, up, member, rfl, same⟩
    exact ⟨_, _, mem_retag.mpr ⟨mark, up, member, rfl, rfl⟩, rfl, same⟩

theorem retag (indexed : Indexed lines kvs next)
    (ids : changed.map KVInfo.id = kvs.map KVInfo.id)
    (known : ∀ mark up, mark :: up ∈ lines → domain mark.address mark.domainId = noDomain ∨
      domain mark.address mark.domainId ∈ kvs.map KVInfo.id)
    (lists : ∀ kv ∈ changed, kv.domainNodeList.Nodup ∧
      ∀ address, address ∈ kv.domainNodeList ↔ ∃ mark up, mark :: up ∈ lines ∧
        mark.address = address ∧ domain address mark.domainId = kv.id) :
    Indexed (lines.map (List.map (Mark.retag domain))) changed next where
  fresh mark up member := by
    obtain ⟨old, above, line, rfl, rfl⟩ := mem_retag.mp member
    exact indexed.fresh old above line
  distinct := by
    rw [List.map_map]
    convert indexed.distinct using 2
    funext line
    cases line <;> rfl
  ids := ids ▸ indexed.ids
  real := ids ▸ indexed.real
  known mark up member := by
    obtain ⟨old, above, line, rfl, rfl⟩ := mem_retag.mp member
    rw [ids]
    exact known old above line
  nodup kv member := (lists kv member).1
  lists kv member address := by
    rw [tagged_retag, (lists kv member).2]

theorem give (indexed : Indexed lines kvs next) (here : mark :: up ∈ lines)
    (id : domainId ∈ kvs.map KVInfo.id) (ids : changed.map KVInfo.id = kvs.map KVInfo.id)
    (lists : ∀ kv ∈ changed, ∃ old ∈ kvs, old.id = kv.id ∧
      kv.domainNodeList.Perm (if kv.id = domainId then
        mark.address :: old.domainNodeList.erase mark.address
        else old.domainNodeList.erase mark.address)) :
    Indexed (lines.map (List.map (Mark.retag fun other old =>
      if other = mark.address then domainId else old))) changed next := by
  refine indexed.retag ids (fun other above member => ?_) fun kv member => ?_
  · split
    · exact .inr id
    · exact indexed.known other above member
  · obtain ⟨old, listed, same, perm⟩ := lists kv member
    have nodup := indexed.nodup old listed
    have without : (old.domainNodeList.erase mark.address).Nodup := nodup.erase _
    refine ⟨?_, fun address => ?_⟩
    · rw [perm.nodup_iff]
      split
      · exact List.nodup_cons.mpr ⟨nodup.not_mem_erase, without⟩
      · exact without
    · have member : address ∈ kv.domainNodeList ↔ (kv.id = domainId ∧ address = mark.address) ∨
          (address ≠ mark.address ∧ address ∈ old.domainNodeList) := by
        rw [perm.mem_iff]
        split
        next given => rw [List.mem_cons, nodup.mem_erase_iff]; simp [given]
        next other => rw [nodup.mem_erase_iff]; simp [other]
      rw [member, indexed.lists old listed, same]
      by_cases this : address = mark.address
      · subst this
        simp only [if_true, ne_eq, not_true_eq_false, false_and, or_false, and_true]
        constructor
        · intro given
          exact ⟨mark, up, here, rfl, given.symm⟩
        · rintro ⟨-, -, -, -, given⟩
          exact given.symm
      · simp only [this, if_false, and_false, ne_eq, not_false_eq_true, true_and, false_or]
        rfl

theorem pushDown (indexed : Indexed lines kvs next) (here : mark :: up ∈ lines)
    {children : List Address} (distinct : children.Nodup) (below : ∀ address, address ∈ children ↔
      ∃ child, child :: mark :: up ∈ lines ∧ child.address = address)
    (untagged : ∀ child, child :: mark :: up ∈ lines → child.domainId = noDomain)
    (ids : changed.map KVInfo.id = kvs.map KVInfo.id)
    (lists : ∀ kv ∈ changed, ∃ old ∈ kvs, old.id = kv.id ∧
      kv.domainNodeList.Perm (if kv.id = mark.domainId then
        children ++ old.domainNodeList.erase mark.address else old.domainNodeList)) :
    Indexed (lines.map (List.map (Mark.retag fun address old =>
      if address = mark.address then noDomain
      else if address ∈ children then mark.domainId else old))) changed next := by
  have child : ∀ {other above}, other :: above ∈ lines → other.address ∈ children →
      other.domainId = noDomain ∧ other.address ≠ mark.address := by
    intro other above member listed
    obtain ⟨child, line, same⟩ := (below _).mp listed
    obtain ⟨rfl, rfl⟩ := indexed.eq_of_address line member same
    refine ⟨untagged child line, fun equal => ?_⟩
    have lengths := congrArg List.length (indexed.eq_of_address line here equal).2
    simp at lengths
  refine indexed.retag ids (fun other above member => ?_) fun kv member => ?_
  · split
    · exact .inl rfl
    · split
      · exact indexed.known mark up here
      · exact indexed.known other above member
  · obtain ⟨old, listed, same, perm⟩ := lists kv member
    have real := same ▸ indexed.ne_noDomain listed
    have nodup := indexed.nodup old listed
    -- the children were in no list before
    have apart : ∀ address ∈ children, address ∉ old.domainNodeList := by
      intro address inside before
      obtain ⟨other, above, line, rfl, domain⟩ := (indexed.lists old listed address).mp before
      exact real ((same.symm.trans domain.symm).trans (child line inside).1)
    refine ⟨?_, fun address => ?_⟩
    · rw [perm.nodup_iff]
      split
      · refine List.nodup_append'.mpr ⟨distinct, nodup.erase _, fun address inside => ?_⟩
        exact mt List.mem_of_mem_erase (apart address inside)
      · exact nodup
    · have member : address ∈ kv.domainNodeList ↔ (kv.id = mark.domainId ∧ address ∈ children) ∨
          (address ≠ mark.address ∧ address ∈ old.domainNodeList) := by
        rw [perm.mem_iff]
        split
        next owner => rw [List.mem_append, nodup.mem_erase_iff]; simp [owner]
        next other =>
          have elsewhere : address ∈ old.domainNodeList → address ≠ mark.address := by
            rintro before rfl
            obtain ⟨mark', up', line, equal, domain⟩ := (indexed.lists old listed _).mp before
            obtain ⟨rfl, -⟩ := indexed.eq_of_address line here equal
            exact other (same.symm.trans domain.symm)
          simp only [other, false_and, false_or]
          exact ⟨fun before => ⟨elsewhere before, before⟩, And.right⟩
      rw [member, indexed.lists old listed, same]
      by_cases this : address = mark.address
      · subst this
        have outside : mark.address ∉ children := fun inside => (child here inside).2 rfl
        simp [outside, real.symm]
      · by_cases inside : address ∈ children
        · obtain ⟨other, line, rfl⟩ := (below address).mp inside
          have before : ¬ Tagged lines other.address kv.id := by
            rw [← same, ← indexed.lists old listed]
            exact apart _ inside
          simp only [inside, before, this, and_true, and_false, or_false, if_false, if_true]
          constructor
          · intro owner
            exact ⟨other, _, line, rfl, owner.symm⟩
          · rintro ⟨-, -, -, -, owner⟩
            exact owner.symm
        · simp only [this, inside, if_false, and_false, ne_eq, not_false_eq_true, true_and,
            false_or]
          rfl

end Retag

end Indexed

end Ctgfs.Placement
