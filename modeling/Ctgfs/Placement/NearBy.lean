import Ctgfs.Placement.Lines
import Mathlib.Algebra.Order.BigOperators.Group.List

/-!
# The search for a domain nearby

A walk through the tree meets the nodes with a domain that have none above them, and stops at
the node it was started for.  What it meets is a list, and the walk in the other direction
reads the same list from the end.
-/

namespace Ctgfs.Placement

open Foundation

namespace TreeNode

mutual

/-- What a walk meets: the domains, and `none` for the node it was started for. -/
def frontier (target : Address) : TreeNode → List (Option Nearby)
  | .file info =>
      if info.address = target then [none]
      else if info.domainId ≠ noDomain then [some ⟨info.domainId, some info.address⟩]
      else []
  | .dir info list =>
      if info.address = target then [none]
      else if info.domainId ≠ noDomain then [some ⟨info.domainId, some info.address⟩]
      else frontierIn target list

def frontierIn (target : Address) : List TreeNode → List (Option Nearby)
  | [] => []
  | child :: rest => child.frontier target ++ frontierIn target rest

end

def scan : List (Option Nearby) → Nearby → Bool × Nearby
  | [], found => (true, found)
  | none :: _, found => (false, found)
  | some next :: rest, _ => scan rest next

theorem scan_append (first second : List (Option Nearby)) (found : Nearby) :
    scan (first ++ second) found =
      if (scan first found).1 then scan second (scan first found).2
      else (false, (scan first found).2) := by
  induction first generalizing found with
  | nil => rfl
  | cons entry rest ih =>
      cases entry with
      | none => rfl
      | some next => exact ih next

def met (isReverse : Bool) (entries : List (Option Nearby)) : List (Option Nearby) :=
  if isReverse then entries.reverse else entries

theorem nearByIn_eq_scan {target : Address} {isReverse : Bool} {list : List TreeNode}
    (children : ∀ child ∈ list, ∀ found, child.doGetNearByDomainID target isReverse found =
      scan (met isReverse (child.frontier target)) found) (found : Nearby) :
    nearByIn target isReverse list found = scan (met isReverse (frontierIn target list)) found := by
  induction list generalizing found with
  | nil => cases isReverse <;> rfl
  | cons child rest ih =>
      have first := children child List.mem_cons_self
      have others := ih fun other member =>
        children other (List.mem_cons_of_mem _ member)
      rw [nearByIn, frontierIn]
      cases isReverse with
      | false => simp only [met, scan_append, first, others, Bool.false_eq_true, if_false]
      | true =>
          simp only [met, List.reverse_append, scan_append, first, others, if_true]

variable (target : Address)

theorem frontierIn_eq (list : List TreeNode) :
    frontierIn target list = list.flatMap (frontier target) := by
  induction list with
  | nil => rfl
  | cons child rest ih => rw [frontierIn, ih, List.flatMap_cons]

theorem frontier_eq (node : TreeNode) :
    node.frontier target =
      if node.info.address = target then [none]
      else if node.info.domainId ≠ noDomain then
        [some ⟨node.info.domainId, some node.info.address⟩]
      else node.getList.flatMap (frontier target) := by
  cases node with
  | file info => rfl
  | dir info list => rw [frontier, frontierIn_eq]; rfl

theorem doGetNearByDomainID_eq (isReverse : Bool) (node : TreeNode) (found : Nearby) :
    node.doGetNearByDomainID target isReverse found =
      if node.info.address = target then (false, found)
      else if node.info.domainId ≠ noDomain then
        (true, ⟨node.info.domainId, some node.info.address⟩)
      else nearByIn target isReverse node.getList found := by
  cases node with
  | file info => rfl
  | dir info list => rfl

theorem doGetNearByDomainID_eq_scan (isReverse : Bool) (node : TreeNode) (found : Nearby) :
    node.doGetNearByDomainID target isReverse found =
      scan (met isReverse (node.frontier target)) found := by
  induction node using children_induction generalizing found with
  | step node ih =>
      rw [doGetNearByDomainID_eq, frontier_eq]
      split
      · cases isReverse <;> rfl
      · split
        · cases isReverse <;> rfl
        · rw [← frontierIn_eq]
          exact nearByIn_eq_scan ih found

section Frontier

variable {target : Address} {node : TreeNode}

theorem node_of_frontier {near : Nearby} (member : some near ∈ node.frontier target) :
    near.domainId ≠ noDomain ∧ ∃ other ∈ node.nodes, other.info.domainId = near.domainId := by
  induction node using children_induction with
  | step node ih =>
      rw [frontier_eq] at member
      split at member
      · simp at member
      · split at member
        next tagged =>
          obtain rfl : near = _ := by simpa using member
          exact ⟨tagged, node, self_mem_nodes node, rfl⟩
        · obtain ⟨child, listed, inside⟩ := List.mem_flatMap.mp member
          obtain ⟨tagged, other, below, same⟩ := ih child listed inside
          exact ⟨tagged, other, mem_nodes.mpr (.inr ⟨child, listed, below⟩), same⟩

theorem count_frontier (target : Address) (node : TreeNode) :
    (node.frontier target).count none ≤ node.addresses.count target := by
  induction node using children_induction with
  | step node ih =>
      rw [frontier_eq, addresses, nodes_eq, List.map_cons, List.count_cons, List.map_flatMap]
      split
      next here => simp [here]
      · split
        · simp
        · rw [List.count_flatMap, List.count_flatMap]
          exact (List.sum_le_sum ih).trans (Nat.le_add_right _ _)

theorem stop_of_tagged (free : ∀ near, some near ∉ node.frontier target) {line : List Mark}
    (member : line ∈ node.lines) {mark : Mark} (on : mark ∈ line) (tagged : mark.tagged = true) :
    ∃ stop ∈ line, stop.address = target := by
  induction node using children_induction generalizing line with
  | step node ih =>
      simp only [frontier_eq] at free
      split at free
      next here =>
        refine ⟨node.mark, ?_, here⟩
        obtain rfl | ⟨child, -, below, -, rfl⟩ := mem_lines.mp member
        · exact List.mem_singleton_self _
        · exact List.mem_append_right _ (List.mem_singleton_self _)
      · split at free
        · exact absurd (List.mem_singleton_self _) (free _)
        next untagged =>
          have other : mark ≠ node.mark := by
            rintro rfl
            exact untagged (of_decide_eq_true tagged)
          obtain rfl | ⟨child, listed, below, inside, rfl⟩ := mem_lines.mp member
          · exact absurd (List.mem_singleton.mp on) other
          · have lower : mark ∈ below := by simpa [other] using on
            obtain ⟨stop, before, here⟩ := ih child listed
              (fun near met => free near (List.mem_flatMap.mpr ⟨child, listed, met⟩)) inside lower
            exact ⟨stop, List.mem_append_left _ before, here⟩

end Frontier

section Scan

variable {entries : List (Option Nearby)} {found : Nearby}

theorem scan_mem (entries : List (Option Nearby)) (found : Nearby) :
    (scan entries found).2 = found ∨ some (scan entries found).2 ∈ entries := by
  induction entries generalizing found with
  | nil => exact .inl rfl
  | cons entry rest ih =>
      cases entry with
      | none => exact .inl rfl
      | some next =>
          obtain kept | read := ih next
          · exact .inr (by rw [scan, kept]; exact List.mem_cons_self)
          · exact .inr (List.mem_cons_of_mem _ read)

theorem scan_untagged (real : ∀ near, some near ∈ entries → near.domainId ≠ noDomain)
    (result : (scan entries found).2.domainId = noDomain) :
    found.domainId = noDomain ∧ (entries = [] ∨ ∃ rest, entries = none :: rest) := by
  cases entries with
  | nil => exact ⟨result, .inl rfl⟩
  | cons entry rest =>
      cases entry with
      | none => exact ⟨result, .inr ⟨rest, rfl⟩⟩
      | some next =>
          exfalso
          rw [scan] at result
          obtain kept | read := scan_mem rest next
          · exact real next List.mem_cons_self (kept ▸ result)
          · exact real _ (List.mem_cons_of_mem _ read) result

end Scan

section Search

variable {root : TreeNode} {target : Address}

theorem getNearByDomainID_eq (root : TreeNode) (target : Address) :
    root.getNearByDomainID target =
      if ¬ (scan (root.frontier target).reverse {}).1 ∧
          (scan (root.frontier target).reverse {}).2.domainId ≠ noDomain then
        (scan (root.frontier target).reverse {}).2
      else (scan (root.frontier target) (scan (root.frontier target).reverse {}).2).2 := by
  simp only [getNearByDomainID, doGetNearByDomainID_eq_scan]
  rfl

theorem getNearByDomainID_mem (root : TreeNode) (target : Address) :
    (root.getNearByDomainID target).domainId = noDomain ∨
      ∃ node ∈ root.nodes, node.info.domainId = (root.getNearByDomainID target).domainId := by
  have back := scan_mem (root.frontier target).reverse {}
  have forth := scan_mem (root.frontier target) (scan (root.frontier target).reverse {}).2
  have read : root.getNearByDomainID target = {} ∨
      some (root.getNearByDomainID target) ∈ root.frontier target := by
    rw [List.mem_reverse] at back
    rw [getNearByDomainID_eq]
    split
    · exact back
    · obtain kept | read := forth
      · rwa [kept]
      · exact .inr read
  obtain nothing | read := read
  · exact .inl (by rw [nothing])
  · exact .inr (node_of_frontier read).2

theorem stop_of_getNearByDomainID (distinct : root.addresses.Nodup)
    (nothing : (root.getNearByDomainID target).domainId = noDomain) {line : List Mark}
    (member : line ∈ root.lines) {mark : Mark} (on : mark ∈ line) (tagged : mark.tagged = true) :
    ∃ stop ∈ line, stop.address = target := by
  refine stop_of_tagged (fun near read => ?_) member on tagged
  have real : ∀ near, some near ∈ root.frontier target → near.domainId ≠ noDomain :=
    fun near read => (node_of_frontier read).1
  rw [getNearByDomainID_eq] at nothing
  split at nothing
  next found => exact found.2 nothing
  · obtain ⟨back, first⟩ := scan_untagged real nothing
    obtain ⟨-, last⟩ := scan_untagged (fun near read => real near (List.mem_reverse.mp read)) back
    have once := (count_frontier target root).trans (List.nodup_iff_count_le_one.mp distinct target)
    -- both walks stop at once, and there is one place to stop
    obtain empty | ⟨rest, shape⟩ := first
    · simp [empty] at read
    · obtain rfl : rest = [] := by
        by_contra more
        have again : none ∈ rest := by
          rw [shape, List.reverse_cons] at last
          obtain empty | ⟨others, turned⟩ := last
          · simp at empty
          · obtain ⟨final, before, shape⟩ := List.exists_cons_of_ne_nil
              (List.reverse_ne_nil_iff.mpr more)
            rw [shape, List.cons_append, List.cons.injEq] at turned
            rw [← List.mem_reverse, shape, turned.1]
            exact List.mem_cons_self
        rw [shape, List.count_cons_self] at once
        exact absurd (List.count_pos_iff.mpr again) (by omega)
      simp [shape] at read

end Search

end TreeNode

end Ctgfs.Placement
