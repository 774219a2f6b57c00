import Ctgfs.Placement.NearBy

/-!
# The neighbour of a node

The lines of a tree stand in the order of a walk that goes through a directory before its
children.  The topmost domains are the nodes with a domain that have none above them.  For a
node without a domain on its line, `getNearByDomainID` finds the next of these after the node,
or else the last one before it.  What is below the node itself does not count: the walk stops
at the node, which is new and has nothing below it when `createNode` starts the search.
-/

namespace Ctgfs.Placement

open Foundation

namespace TreeNode

def topmost : List Mark → Bool
  | [] => false
  | mark :: up => mark.tagged && up.all fun above => !above.tagged

def avoids (target : Address) (line : List Mark) : Bool :=
  line.all fun mark => decide (mark.address ≠ target)

def nearbyOf : List Mark → Nearby
  | [] => {}
  | mark :: _ => ⟨mark.domainId, some mark.address⟩

def beside (target : Address) (line : List Mark) : Bool := topmost line && avoids target line

def topmostBeside (target : Address) (lines : List (List Mark)) : List Nearby :=
  (lines.filter (beside target)).map nearbyOf

theorem topmostBeside_cons (target : Address) (line : List Mark) (lines : List (List Mark)) :
    topmostBeside target (line :: lines) =
      if beside target line then nearbyOf line :: topmostBeside target lines
      else topmostBeside target lines := by
  rw [topmostBeside, List.filter_cons]
  split <;> rfl

theorem topmostBeside_append (target : Address) (first second : List (List Mark)) :
    topmostBeside target (first ++ second) =
      topmostBeside target first ++ topmostBeside target second := by
  rw [topmostBeside, List.filter_append, List.map_append]
  rfl

variable {target : Address} {lines : List (List Mark)}

theorem domainId_ne_of_topmostBeside {near : Nearby} (member : near ∈ topmostBeside target lines) :
    near.domainId ≠ noDomain := by
  obtain ⟨line, kept, rfl⟩ := List.mem_map.mp member
  have found := (List.mem_filter.mp kept).2
  cases line with
  | nil => cases found
  | cons mark up =>
      have tagged : mark.tagged = true := by
        simp only [beside, topmost, Bool.and_eq_true] at found
        exact found.1.1
      exact of_decide_eq_true tagged

/-! ## What a walk meets -/

def meeting (target : Address) : List Mark → Option (Option Nearby)
  | [] => none
  | mark :: up =>
      if up.all fun above => !above.tagged && decide (above.address ≠ target) then
        if mark.address = target then some none
        else if mark.tagged then some (some ⟨mark.domainId, some mark.address⟩)
        else none
      else none

theorem meeting_append {line : List Mark} (proper : line ≠ []) (root : Mark) :
    meeting target (line ++ [root]) =
      if !root.tagged && decide (root.address ≠ target) then meeting target line else none := by
  obtain ⟨mark, up, rfl⟩ := List.exists_cons_of_ne_nil proper
  cases passed : !root.tagged && decide (root.address ≠ target) with
  | true => simp only [List.cons_append, meeting, List.all_append, List.all_cons, List.all_nil,
      passed, Bool.and_true, if_true]
  | false => simp only [List.cons_append, meeting, List.all_append, List.all_cons, List.all_nil,
      passed, Bool.false_and, Bool.and_false, Bool.false_eq_true, if_false]

theorem filterMap_meeting_below (proper : [] ∉ lines) (root : Mark) :
    (lines.map fun line => line ++ [root]).filterMap (meeting target) =
      if !root.tagged && decide (root.address ≠ target) then lines.filterMap (meeting target)
      else [] := by
  rw [List.filterMap_map]
  split
  next passed =>
    apply List.filterMap_congr
    intro line member
    rw [Function.comp_apply, meeting_append (ne_of_mem_of_not_mem member proper), if_pos passed]
  next stopped =>
    apply List.filterMap_eq_nil_iff.mpr
    intro line member
    rw [Function.comp_apply, meeting_append (ne_of_mem_of_not_mem member proper), if_neg stopped]

theorem frontier_eq_filterMap (target : Address) (node : TreeNode) :
    node.frontier target = node.lines.filterMap (meeting target) := by
  induction node using children_induction with
  | step node ih =>
      have proper : [] ∉ node.getList.flatMap lines := by
        intro member
        obtain ⟨child, -, here⟩ := List.mem_flatMap.mp member
        exact nil_notMem_lines child here
      have children : (node.getList.flatMap lines).filterMap (meeting target) =
          node.getList.flatMap (frontier target) := by
        rw [List.filterMap_flatMap]
        exact List.flatMap_congr fun child member => (ih child member).symm
      rw [frontier_eq, lines_eq, List.filterMap_cons, filterMap_meeting_below proper, children]
      by_cases here : node.info.address = target
      · simp [meeting, mark, here]
      · by_cases tagged : node.info.domainId = noDomain
        · simp [meeting, mark, Mark.tagged, here, tagged]
        · simp [meeting, mark, Mark.tagged, here, tagged]

/-! ## The two walks -/

theorem scan_stop (nears : List Nearby) (rest : List (Option Nearby)) (found : Nearby) :
    scan (nears.map some ++ none :: rest) found = (false, nears.getLast?.getD found) := by
  induction nears generalizing found with
  | nil => rfl
  | cons near nears ih =>
      rw [List.map_cons, List.cons_append, scan, ih, List.getLast?_cons]
      rfl

variable {root : TreeNode}

theorem getNearByDomainID_of_frontier {before after : List Nearby}
    (met : root.frontier target = before.map some ++ none :: after.map some)
    (real : ∀ near ∈ after, near.domainId ≠ noDomain) :
    root.getNearByDomainID target = (after.head?.or before.getLast?).getD {} := by
  have turned : (root.frontier target).reverse =
      after.reverse.map some ++ none :: before.reverse.map some := by
    simp [met]
  rw [getNearByDomainID_eq, turned, scan_stop, met, scan_stop, List.getLast?_reverse]
  cases after with
  | nil => simp
  | cons near rest =>
      have tagged := real near List.mem_cons_self
      simp [tagged]

/-! ## The neighbour -/

variable {mark : Mark}

theorem meeting_of_ne (up : List Mark) (apart : mark.address ≠ target) :
    meeting target (mark :: up) =
      if beside target (mark :: up) then some (some (nearbyOf (mark :: up))) else none := by
  have both : (up.all fun above => !above.tagged && decide (above.address ≠ target)) =
      (up.all (fun above => !above.tagged) &&
        up.all fun above => decide (above.address ≠ target)) := by
    induction up with
    | nil => rfl
    | cons above up ih =>
        simp only [List.all_cons, ih]
        ac_rfl
  rw [meeting, both, if_neg apart, beside, topmost, avoids, List.all_cons, decide_eq_true apart]
  cases mark.tagged <;> cases up.all fun above => !above.tagged <;> simp [nearbyOf]

theorem filterMap_meeting_of_apart (proper : [] ∉ lines)
    (apart : ∀ mark up, mark :: up ∈ lines → mark.address ≠ target) :
    lines.filterMap (meeting target) = (topmostBeside target lines).map some := by
  induction lines with
  | nil => rfl
  | cons line lines ih =>
      obtain ⟨mark, up, rfl⟩ := List.exists_cons_of_ne_nil
        (ne_of_mem_of_not_mem List.mem_cons_self proper)
      have others := ih (fun member => proper (List.mem_cons_of_mem _ member))
        fun other above member => apart other above (List.mem_cons_of_mem _ member)
      have first := meeting_of_ne up (apart mark up List.mem_cons_self)
      rw [topmostBeside_cons]
      split
      next found =>
        rw [if_pos found] at first
        rw [List.filterMap_cons_some first, others, List.map_cons]
      next missing =>
        rw [if_neg missing] at first
        rw [List.filterMap_cons_none first, others]

variable {up : List Mark}

theorem address_ne_of_above (distinct : root.addresses.Nodup) {above : Mark}
    (line : mark :: up ∈ root.lines) (on : above ∈ up) : above.address ≠ mark.address := by
  intro same
  have tree := ancestry distinct
  obtain ⟨parent, higher, rfl⟩ := List.exists_cons_of_ne_nil (List.ne_nil_of_mem on)
  obtain ⟨rest, there, ends⟩ := tree.suffix_of_mem (tree.parent line) on
  obtain ⟨-, rfl⟩ := tree.unique there line same
  have length := ends.length_le
  simp at length

theorem address_ne_of_split (distinct : root.addresses.Nodup) {before after : List (List Mark)}
    (here : root.lines = before ++ (mark :: up) :: after) {other : Mark} {above : List Mark}
    (member : other :: above ∈ before ++ after) : other.address ≠ mark.address := by
  intro same
  have heads : (root.lines.map fun line => line.head?.map Mark.address).Nodup := by
    rw [address_lines]
    exact distinct.map (Option.some_injective _)
  rw [here, List.map_append, List.map_cons, List.nodup_middle, ← List.map_append,
    List.nodup_cons] at heads
  apply heads.1
  exact List.mem_map.mpr ⟨_, member, congrArg some same⟩

/-- The walks for a node with no domain on its line meet the topmost domains on both sides of
the node and stop at it. -/
theorem frontier_of_split (distinct : root.addresses.Nodup) {before after : List (List Mark)}
    (here : root.lines = before ++ (mark :: up) :: after)
    (untagged : ∀ above ∈ mark :: up, above.tagged = false) :
    root.frontier mark.address = (topmostBeside mark.address before).map some ++
      none :: (topmostBeside mark.address after).map some := by
  have line : mark :: up ∈ root.lines := by
    rw [here]
    exact List.mem_append_right _ List.mem_cons_self
  have stop : meeting mark.address (mark :: up) = some none := by
    have passed : (up.all fun above =>
        !above.tagged && decide (above.address ≠ mark.address)) = true := by
      rw [List.all_eq_true]
      intro above on
      rw [untagged above (List.mem_cons_of_mem _ on),
        decide_eq_true (address_ne_of_above distinct line on)]
      rfl
    rw [meeting, if_pos passed, if_pos rfl]
  have proper := nil_notMem_lines root
  rw [here, List.mem_append, List.mem_cons, not_or, not_or] at proper
  rw [frontier_eq_filterMap, here, List.filterMap_append, List.filterMap_cons_some stop,
    filterMap_meeting_of_apart proper.1 fun other above member =>
      address_ne_of_split distinct here (List.mem_append_left _ member),
    filterMap_meeting_of_apart proper.2.2 fun other above member =>
      address_ne_of_split distinct here (List.mem_append_right _ member)]

theorem neighbour_missing_iff {before after : List Nearby}
    (real : ∀ near ∈ before ++ after, near.domainId ≠ noDomain) :
    ((after.head?.or before.getLast?).getD {}).domainId = noDomain ↔ before ++ after = [] := by
  constructor
  · intro nothing
    cases after with
    | cons near rest => exact absurd nothing (real near (by simp))
    | nil =>
        cases last : before.getLast? with
        | none => simpa using last
        | some near =>
            rw [last] at nothing
            have member := List.mem_append_left [] (List.mem_of_getLast? last)
            exact absurd nothing (real near member)
  · intro nothing
    obtain ⟨rfl, rfl⟩ := List.append_eq_nil_iff.mp nothing
    rfl

/-- Neighbour search finds the adjacent domain: for a node with no domain on its line, the next
topmost domain behind it that is not below it, or else the last one before it; and nothing
exactly when there is no topmost domain but below the node. -/
theorem getNearByDomainID_adjacent (root : TreeNode) (mark : Mark) (up : List Mark)
    (before after : List (List Mark)) (distinct : root.addresses.Nodup)
    (here : root.lines = before ++ (mark :: up) :: after)
    (untagged : ∀ above ∈ mark :: up, above.tagged = false) :
    root.getNearByDomainID mark.address =
        ((topmostBeside mark.address after).head?.or
          (topmostBeside mark.address before).getLast?).getD {} ∧
      ((root.getNearByDomainID mark.address).domainId = noDomain ↔
        topmostBeside mark.address root.lines = []) := by
  have found := getNearByDomainID_of_frontier (frontier_of_split distinct here untagged)
    fun near => domainId_ne_of_topmostBeside
  have all : topmostBeside mark.address root.lines =
      topmostBeside mark.address before ++ topmostBeside mark.address after := by
    have own : ¬ beside mark.address (mark :: up) = true := by
      simp [beside, topmost, untagged mark List.mem_cons_self]
    rw [here, topmostBeside_append, topmostBeside_cons, if_neg own]
  refine ⟨found, ?_⟩
  rw [found, all]
  apply neighbour_missing_iff
  intro near member
  rw [← all] at member
  exact domainId_ne_of_topmostBeside member

/-- A new file between two files of KVs: it gets the domain of the second one. -/
theorem getNearByDomainID_adjacent_between :
    TreeNode.getNearByDomainID (.dir ⟨0, [], 0, 0, noDomain⟩
        [.file ⟨1, [97], 1, 5, 4⟩, .file ⟨3, [98], 3, 5, noDomain⟩, .file ⟨2, [99], 2, 5, 8⟩]) 3 =
      ⟨8, some 2⟩ :=
  (getNearByDomainID_adjacent _ ⟨3, [98], 3, false, noDomain⟩ [⟨0, [], 0, true, noDomain⟩]
    [[⟨0, [], 0, true, noDomain⟩], [⟨1, [97], 1, false, 4⟩, ⟨0, [], 0, true, noDomain⟩]]
    [[⟨2, [99], 2, false, 8⟩, ⟨0, [], 0, true, noDomain⟩]] (by decide) rfl (by decide)).1

/-- The root itself has no domain and its file has one: the file is the only topmost domain and
comes after the root, but the search from the root finds nothing. -/
theorem domain_below_node_missed :
    (TreeNode.dir ⟨0, [], 0, 0, noDomain⟩ [.file ⟨1, [97], 1, 5, 4⟩]).addresses.Nodup ∧
      (TreeNode.dir ⟨0, [], 0, 0, noDomain⟩ [.file ⟨1, [97], 1, 5, 4⟩]).lines =
        [[⟨0, [], 0, true, noDomain⟩], [⟨1, [97], 1, false, 4⟩, ⟨0, [], 0, true, noDomain⟩]] ∧
      topmost [⟨1, [97], 1, false, 4⟩, ⟨0, [], 0, true, noDomain⟩] = true ∧
      TreeNode.getNearByDomainID (.dir ⟨0, [], 0, 0, noDomain⟩ [.file ⟨1, [97], 1, 5, 4⟩]) 0 =
        {} :=
  ⟨by decide, rfl, rfl, rfl⟩

/-- A node with nothing below it, as `createNode` has made it, sees every topmost domain. -/
theorem topmostBeside_of_bare {node : TreeNode} (distinct : root.addresses.Nodup)
    (inside : node ∈ root.nodes) (bare : node.getList = []) (untagged : node.mark.tagged = false) :
    topmostBeside node.info.address root.lines = (root.lines.filter topmost).map nearbyOf := by
  rw [topmostBeside]
  congr 1
  apply List.filter_congr
  intro line member
  rw [beside]
  cases top : topmost line with
  | false => rfl
  | true =>
      obtain ⟨mark, up, rfl⟩ := List.exists_cons_of_ne_nil
        (ne_of_mem_of_not_mem member (nil_notMem_lines root))
      rw [Bool.true_and, avoids, List.all_eq_true]
      intro above on
      rw [decide_eq_true_eq]
      intro same
      obtain ⟨stop, there, rfl, other, below, rfl⟩ := below_of_line member on
      obtain rfl := eq_of_address distinct there inside same
      -- nothing is below the node, so the line is its own
      rw [nodes_eq, bare, List.flatMap_nil, List.mem_singleton] at below
      simp [topmost, below, untagged] at top

end TreeNode

end Ctgfs.Placement
