import Mathlib.Data.List.Induction
import Mathlib.Data.List.Nodup
import Mathlib.Logic.Function.Basic

/-!
# Writes to a map

A write gives a key a value or takes its value away.  What a list of writes does to a map depends
on the last write of every key only.
-/

namespace Ctgfs.Foundation

universe u v

variable {Key : Type u} {Value : Type v} [DecidableEq Key] (map : Key → Option Value)

def applyWrites (writes : List (Key × Option Value)) : Key → Option Value :=
  writes.foldl (fun map write => Function.update map write.1 write.2) map

def lastWrite (writes : List (Key × Option Value)) (key : Key) : Option (Option Value) :=
  (writes.reverse.find? (·.1 = key)).map Prod.snd

theorem applyWrites_concat (writes : List (Key × Option Value)) (write : Key × Option Value) :
    applyWrites map (writes ++ [write]) =
      Function.update (applyWrites map writes) write.1 write.2 :=
  List.foldl_concat ..

theorem lastWrite_concat (writes : List (Key × Option Value)) (write : Key × Option Value)
    (key : Key) :
    lastWrite (writes ++ [write]) key =
      if write.1 = key then some write.2 else lastWrite writes key := by
  rw [lastWrite, List.reverse_concat, List.find?_cons]
  by_cases same : write.1 = key
  · simp [same]
  · simp [same, lastWrite]

theorem applyWrites_apply (writes : List (Key × Option Value)) (key : Key) :
    applyWrites map writes key = (lastWrite writes key).getD (map key) := by
  induction writes using List.reverseRecOn with
  | nil => rfl
  | append_singleton writes write ih =>
      rw [applyWrites_concat, lastWrite_concat]
      by_cases same : write.1 = key
      · subst same
        rw [Function.update_self, if_pos rfl, Option.getD_some]
      · rw [Function.update_of_ne (Ne.symm same), ih, if_neg same]

theorem applyWrites_eq_iff [Nonempty Value] {first second : List (Key × Option Value)} :
    (∀ map, applyWrites map first = applyWrites map second) ↔
      ∀ key, lastWrite first key = lastWrite second key := by
  constructor
  · intro same key
    have values (value : Option Value) :
        (lastWrite first key).getD value = (lastWrite second key).getD value := by
      have applied := congrFun (same fun _ => value) key
      rwa [applyWrites_apply, applyWrites_apply] at applied
    -- A key that only one of them writes would have to be written with every value.
    obtain ⟨value⟩ := ‹Nonempty Value›
    cases written : lastWrite first key with
    | none =>
        cases again : lastWrite second key with
        | none => rfl
        | some last =>
            simp only [written, again, Option.getD_none, Option.getD_some] at values
            exact absurd ((values none).trans (values (some value)).symm) (by simp)
    | some last =>
        cases again : lastWrite second key with
        | none =>
            simp only [written, again, Option.getD_none, Option.getD_some] at values
            exact absurd ((values none).symm.trans (values (some value))) (by simp)
        | some other =>
            simp only [written, again, Option.getD_some] at values
            rw [values none]
  · intro same map
    funext key
    rw [applyWrites_apply, applyWrites_apply, same]

theorem lastWrite_of_nodup {writes : List (Key × Option Value)}
    (once : (writes.map Prod.fst).Nodup) (key : Key) :
    lastWrite writes key = (writes.find? (·.1 = key)).map Prod.snd := by
  induction writes using List.reverseRecOn with
  | nil => rfl
  | append_singleton writes write ih =>
      rw [List.map_append, List.nodup_append] at once
      rw [lastWrite_concat, List.find?_append, ih once.1]
      by_cases same : write.1 = key
      · have new : writes.find? (·.1 = key) = none := by
          apply List.find?_eq_none.mpr
          intro other member found
          exact once.2.2 other.1 (List.mem_map_of_mem member) write.1 (by simp)
            ((of_decide_eq_true found).trans same.symm)
        simp [same, new]
      · simp [same]

end Ctgfs.Foundation
