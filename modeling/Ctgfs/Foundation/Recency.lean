import Mathlib.Data.List.Basic
import Mathlib.Data.List.Nodup

/-!
# Recency of use

Events use keys.  The last use of a key is the number of the last event in a history that
uses it, and a list of keys is ordered by recency when every key was used after those that
follow it.
-/

namespace Ctgfs.Foundation

universe u v

variable {Key : Type u} {Event : Type v} {uses : Event → Key → Bool} {history : List Event}
  {event : Event} {key : Key}

/-- The number of the last event that uses a key, counted from one, and zero without such an
event. -/
def lastUse (uses : Event → Key → Bool) (history : List Event) (key : Key) : Nat :=
  history.length - history.reverse.findIdx fun event => uses event key

theorem lastUse_le : lastUse uses history key ≤ history.length :=
  Nat.sub_le _ _

theorem lastUse_concat_of_uses (used : uses event key = true) :
    lastUse uses (history ++ [event]) key = history.length + 1 := by
  simp [lastUse, List.findIdx_cons, used]

theorem lastUse_concat_of_not (unused : uses event key = false) :
    lastUse uses (history ++ [event]) key = lastUse uses history key := by
  simp [lastUse, List.findIdx_cons, unused]

/-- The keys are ordered by the time of their last use, the most recent one first. -/
def ByRecency (stamp : Key → Nat) (keys : List Key) : Prop :=
  keys.Pairwise fun newer older => stamp older < stamp newer

namespace ByRecency

variable {stamp later : Key → Nat} {keys : List Key}

section

variable (sorted : ByRecency stamp keys)

include sorted

theorem nodup : keys.Nodup :=
  sorted.imp fun less same => by
    subst same
    exact Nat.lt_irrefl _ less

theorem congr (same : ∀ key ∈ keys, later key = stamp key) : ByRecency later keys := by
  refine List.Pairwise.imp_of_mem ?_ sorted
  intro newer older newerIn olderIn less
  rw [same newer newerIn, same older olderIn]
  exact less

theorem cons (newest : ∀ other ∈ keys, stamp other < stamp key) : ByRecency stamp (key :: keys) :=
  List.pairwise_cons.mpr ⟨newest, sorted⟩

theorem sublist {fewer : List Key} (part : fewer.Sublist keys) : ByRecency stamp fewer :=
  List.Pairwise.sublist part sorted

theorem oldest {last : Key} (isLast : keys.getLast? = some last) {other : Key}
    (member : other ∈ keys) (different : other ≠ last) : stamp last < stamp other := by
  obtain ⟨start, rfl⟩ := List.getLast?_eq_some_iff.mp isLast
  have before : other ∈ start := by
    rcases List.mem_append.mp member with early | late
    · exact early
    · exact absurd (List.mem_singleton.mp late) different
  exact (List.pairwise_append.mp sorted).2.2 other before last (List.mem_singleton_self last)

end

end ByRecency

end Ctgfs.Foundation
