import Mathlib.Data.List.Basic

/-!
# Trees as lists of lines

The line of a node is the node itself, then its parent, and so on up to the root.  A tree is
given by the lines of its nodes, in any order.  Some nodes of a tree are marked; a change of
the nodes may move the marks, and the lemmas below count the marks on a line afterwards.
-/

namespace Ctgfs.Foundation

universe u v

variable {Node : Type u} {Key : Type v}

/-- The lines of a tree whose nodes have distinct keys. -/
structure Ancestry (key : Node → Key) (lines : List (List Node)) : Prop where
  proper : [] ∉ lines
  parent : ∀ {node above up}, node :: above :: up ∈ lines → above :: up ∈ lines
  unique : ∀ {node other up up'}, node :: up ∈ lines → other :: up' ∈ lines →
    key node = key other → node = other ∧ up = up'

namespace Ancestry

variable {key : Node → Key} {lines : List (List Node)} {marked : Node → Bool}
  {change : Node → Node} {line : List Node}

section

variable (tree : Ancestry key lines)

include tree

@[elab_as_elim]
theorem line_induction {motive : List Node → Prop} (root : ∀ node, [node] ∈ lines → motive [node])
    (below : ∀ node above up, node :: above :: up ∈ lines → motive (above :: up) →
      motive (node :: above :: up)) (member : line ∈ lines) : motive line := by
  induction line with
  | nil => exact absurd member tree.proper
  | cons node up ih =>
      cases up with
      | nil => exact root node member
      | cons above up => exact below node above up member (ih (tree.parent member))

variable {node : Node}

theorem suffix_of_mem (member : line ∈ lines) (on : node ∈ line) :
    ∃ up, node :: up ∈ lines ∧ node :: up <:+ line := by
  induction line with
  | nil => exact absurd member tree.proper
  | cons first up ih =>
      obtain rfl | higher := List.mem_cons.mp on
      · exact ⟨up, member, List.suffix_refl _⟩
      · obtain ⟨above, up, rfl⟩ := List.exists_cons_of_ne_nil (List.ne_nil_of_mem higher)
        obtain ⟨rest, line, ends⟩ := ih (tree.parent member) higher
        exact ⟨rest, line, ends.trans (List.suffix_cons _ _)⟩

theorem line_of_mem (member : line ∈ lines) (on : node ∈ line) : ∃ up, node :: up ∈ lines := by
  obtain ⟨up, here, -⟩ := tree.suffix_of_mem member on
  exact ⟨up, here⟩

theorem countP_kept (kept : ∀ node up, node :: up ∈ lines → marked (change node) = marked node)
    (member : line ∈ lines) : (line.map change).countP marked = line.countP marked := by
  rw [List.countP_map]
  apply List.countP_congr
  intro node on
  obtain ⟨up, here⟩ := tree.line_of_mem member on
  rw [Function.comp_apply, kept node up here]

theorem countP_root (root : ∀ node, [node] ∈ lines → marked (change node) = true)
    (below : ∀ node above up, node :: above :: up ∈ lines → marked (change node) = false)
    (member : line ∈ lines) : (line.map change).countP marked = 1 := by
  refine tree.line_induction ?_ ?_ member
  · intro node here
    simp [root node here]
  · intro node above up here ih
    rw [List.map_cons, List.countP_cons, ih, below node above up here]
    rfl

theorem countP_pushDown {up : List Node} (once : ∀ line ∈ lines, line.countP marked ≤ 1)
    (here : node :: up ∈ lines) (had : marked node = true) (cleared : marked (change node) = false)
    (passed : ∀ child, child :: node :: up ∈ lines → marked (change child) = true)
    (kept : ∀ other above, other :: above ∈ lines → key other ≠ key node → above ≠ node :: up →
      marked (change other) = marked other) (member : line ∈ lines) :
    (line = node :: up → (line.map change).countP marked = 0) ∧
      (line ≠ node :: up → (line.map change).countP marked = line.countP marked) := by
  have none : up.countP marked = 0 := by
    have bound := once _ here
    rw [List.countP_cons, had] at bound
    simpa using bound
  have different : ∀ {other above}, other :: above ∈ lines → other :: above ≠ node :: up →
      key other ≠ key node := by
    intro other above line elsewhere same
    obtain ⟨rfl, rfl⟩ := tree.unique line here same
    exact elsewhere rfl
  refine tree.line_induction ?_ ?_ member
  · intro root line
    constructor
    · rintro ⟨⟩
      simp [cleared]
    · intro elsewhere
      have keep := kept root [] line (different line elsewhere) (List.cons_ne_nil _ _).symm
      simp [List.countP_cons, keep]
  · intro other above rest line ih
    rw [List.map_cons, List.countP_cons, List.countP_cons]
    constructor
    · rintro ⟨⟩
      rw [ih.2 (List.cons_ne_self _ _).symm, none, cleared]
      rfl
    · intro elsewhere
      by_cases child : above :: rest = node :: up
      · have one : (node :: up).countP marked = 1 := by simp [none, had]
        have bound := once _ line
        rw [List.countP_cons, child, one] at bound
        rw [ih.1 child, child, one, passed other (child ▸ line), if_pos rfl]
        omega
      · rw [ih.2 child,
          kept other _ line (different line elsewhere) child]

end

end Ancestry

end Ctgfs.Foundation
