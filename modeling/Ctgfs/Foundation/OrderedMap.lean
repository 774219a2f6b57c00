import Mathlib.Order.Lattice

/-!
# Ordered maps

A `std::map` as its entries in the order of the keys.  Filling a map in that order appends
the entries one after the other.
-/

namespace Ctgfs.Foundation

universe u v

variable {Key : Type u} {Value : Type v} [LinearOrder Key]

/-- `std::map`. -/
@[ext]
structure OrderedMap (Key : Type u) (Value : Type v) [LinearOrder Key] where
  entries : List (Key × Value)
  sorted : entries.Pairwise fun first second => first.1 < second.1

/-- `d[key] = value`, on the entries. -/
def insertEntry (key : Key) (value : Value) : List (Key × Value) → List (Key × Value)
  | [] => [(key, value)]
  | head :: rest =>
      if head.1 < key then head :: insertEntry key value rest
      else if key < head.1 then (key, value) :: head :: rest
      else (key, value) :: rest

variable {entries : List (Key × Value)} {key : Key} {value : Value}

theorem fst_mem_insertEntry {entry : Key × Value} (member : entry ∈ insertEntry key value entries) :
    entry.1 = key ∨ entry ∈ entries := by
  induction entries with
  | nil =>
      rw [List.mem_singleton.mp member]
      exact .inl rfl
  | cons head rest ih =>
      rw [insertEntry] at member
      split at member
      · rcases List.mem_cons.mp member with rfl | later
        · exact .inr List.mem_cons_self
        · exact (ih later).imp_right (List.mem_cons_of_mem head)
      split at member
      · rcases List.mem_cons.mp member with rfl | later
        · exact .inl rfl
        · exact .inr later
      · rcases List.mem_cons.mp member with rfl | later
        · exact .inl rfl
        · exact .inr (List.mem_cons_of_mem head later)

theorem insertEntry_sorted (key : Key) (value : Value)
    (sorted : entries.Pairwise fun first second => first.1 < second.1) :
    (insertEntry key value entries).Pairwise fun first second => first.1 < second.1 := by
  induction entries with
  | nil => exact List.pairwise_singleton _ _
  | cons head rest ih =>
      obtain ⟨first, later⟩ := List.pairwise_cons.mp sorted
      rw [insertEntry]
      split
      next below =>
        refine List.pairwise_cons.mpr ⟨fun entry member => ?_, ih later⟩
        rcases fst_mem_insertEntry member with same | old
        · rwa [same]
        · exact first entry old
      split
      next above =>
        refine List.pairwise_cons.mpr ⟨fun entry member => ?_, sorted⟩
        rcases List.mem_cons.mp member with rfl | old
        · exact above
        · exact above.trans (first entry old)
      next notBelow notAbove =>
        have same : head.1 = key := le_antisymm (not_lt.mp notAbove) (not_lt.mp notBelow)
        exact List.pairwise_cons.mpr ⟨fun entry member => same ▸ first entry member, later⟩

theorem insertEntry_of_lt (value : Value) (last : ∀ entry ∈ entries, entry.1 < key) :
    insertEntry key value entries = entries ++ [(key, value)] := by
  induction entries with
  | nil => rfl
  | cons head rest ih =>
      rw [insertEntry, if_pos (last head List.mem_cons_self),
        ih fun entry member => last entry (List.mem_cons_of_mem head member)]
      rfl

def findEntry (key : Key) : List (Key × Value) → Option Value
  | [] => none
  | head :: rest => if head.1 = key then some head.2 else findEntry key rest

theorem findEntry_eq_find? (key : Key) (entries : List (Key × Value)) :
    findEntry key entries = (entries.find? (·.1 = key)).map Prod.snd := by
  induction entries with
  | nil => rfl
  | cons head rest ih =>
      rw [findEntry, ih, List.find?_cons]
      by_cases here : head.1 = key
      · simp [here]
      · simp [here]

theorem findEntry_map {Other : Type v} (forget : Value → Other) (key : Key)
    (entries : List (Key × Value)) :
    findEntry key (entries.map (Prod.map id forget)) = (findEntry key entries).map forget := by
  rw [findEntry_eq_find?, findEntry_eq_find?, List.find?_map, Option.map_map, Option.map_map]
  rfl

theorem findEntry_insertEntry_self (key : Key) (value : Value) (entries : List (Key × Value)) :
    findEntry key (insertEntry key value entries) = some value := by
  induction entries with
  | nil => exact if_pos rfl
  | cons head rest ih =>
      rw [insertEntry]
      split
      next below => rw [findEntry, if_neg below.ne, ih]
      split
      next above => exact if_pos rfl
      next notBelow notAbove => exact if_pos rfl

theorem findEntry_insertEntry_of_ne {other : Key} (different : other ≠ key) (value : Value)
    (entries : List (Key × Value)) :
    findEntry other (insertEntry key value entries) = findEntry other entries := by
  induction entries with
  | nil => exact if_neg different.symm
  | cons head rest ih =>
      rw [insertEntry]
      split
      next below => rw [findEntry, findEntry, ih]
      split
      next above => exact if_neg different.symm
      next notBelow notAbove =>
        have same : head.1 = key := le_antisymm (not_lt.mp notAbove) (not_lt.mp notBelow)
        rw [findEntry, findEntry, if_neg different.symm, if_neg (same ▸ different.symm)]

theorem findEntry_eq_some (sorted : entries.Pairwise fun first second => first.1 < second.1) :
    findEntry key entries = some value ↔ (key, value) ∈ entries := by
  induction entries with
  | nil => simp [findEntry]
  | cons head rest ih =>
      obtain ⟨first, later⟩ := List.pairwise_cons.mp sorted
      rw [findEntry, List.mem_cons]
      split
      next here =>
        have gone : (key, value) ∉ rest := fun member => (first _ member).ne here
        constructor
        · intro found
          exact .inl (Prod.ext here.symm (Option.some.inj found).symm)
        · rintro (rfl | member)
          · rfl
          · exact absurd member gone
      next elsewhere =>
        rw [ih later]
        constructor
        · exact .inr
        · rintro (rfl | member)
          · exact absurd rfl elsewhere
          · exact member

namespace OrderedMap

def empty : OrderedMap Key Value := ⟨[], List.Pairwise.nil⟩

variable (map : OrderedMap Key Value)

def insert (key : Key) (value : Value) : OrderedMap Key Value :=
  ⟨insertEntry key value map.entries, insertEntry_sorted key value map.sorted⟩

def find (key : Key) : Option Value :=
  findEntry key map.entries

def size : Nat :=
  map.entries.length

@[simp]
theorem find_empty (key : Key) : (empty : OrderedMap Key Value).find key = none :=
  rfl

@[simp]
theorem find_insert_self (key : Key) (value : Value) :
    (map.insert key value).find key = some value :=
  findEntry_insertEntry_self key value map.entries

theorem find_insert_of_ne {other : Key} (different : other ≠ key) (value : Value) :
    (map.insert key value).find other = map.find other :=
  findEntry_insertEntry_of_ne different value map.entries

theorem find_eq_some : map.find key = some value ↔ (key, value) ∈ map.entries :=
  findEntry_eq_some map.sorted

theorem keys_nodup : (map.entries.map Prod.fst).Nodup :=
  List.pairwise_map.mpr (map.sorted.imp fun before => before.ne)

theorem entries_nodup : map.entries.Nodup :=
  map.sorted.imp fun before same => before.ne (congrArg Prod.fst same)

theorem foldl_insert (others : List (Key × Value))
    (sorted : (map.entries ++ others).Pairwise fun first second => first.1 < second.1) :
    others.foldl (fun filled entry => filled.insert entry.1 entry.2) map =
      ⟨map.entries ++ others, sorted⟩ := by
  induction others generalizing map with
  | nil => simp
  | cons entry rest ih =>
      have last : ∀ other ∈ map.entries, other.1 < entry.1 := by
        intro other member
        exact (List.pairwise_append.mp sorted).2.2 other member entry List.mem_cons_self
      have inserted : (map.insert entry.1 entry.2).entries = map.entries ++ [entry] :=
        insertEntry_of_lt entry.2 last
      have appended : (map.insert entry.1 entry.2).entries ++ rest =
          map.entries ++ entry :: rest := by
        rw [inserted, List.append_assoc, List.singleton_append]
      rw [List.foldl_cons, ih _ (appended ▸ sorted)]
      exact OrderedMap.ext appended

theorem foldl_insert_empty :
    map.entries.foldl (fun filled entry => filled.insert entry.1 entry.2) empty = map :=
  foldl_insert empty map.entries map.sorted

theorem ext_find {first second : OrderedMap Key Value}
    (same : ∀ key, first.find key = second.find key) : first = second := by
  have members : first.entries.Perm second.entries := by
    apply (List.perm_ext_iff_of_nodup first.entries_nodup second.entries_nodup).mpr
    rintro ⟨key, value⟩
    rw [← find_eq_some, ← find_eq_some, same]
  apply OrderedMap.ext
  exact members.eq_of_pairwise (fun _ _ _ _ before after => absurd before after.asymm)
    first.sorted second.sorted

/-- `d.insert(...)`, which keeps the value of a key that is there. -/
def insertNew (entry : Key × Value) : OrderedMap Key Value :=
  if (map.find entry.1).isSome then map else map.insert entry.1 entry.2

theorem find_insertNew (entry : Key × Value) (key : Key) :
    (map.insertNew entry).find key =
      (map.find key).or (if entry.1 = key then some entry.2 else none) := by
  rw [insertNew]
  by_cases same : entry.1 = key
  · subst same
    cases present : map.find entry.1 with
    | none => simp
    | some value => simp [present]
  · rw [if_neg same, Option.or_none]
    split
    · rfl
    · exact find_insert_of_ne map (Ne.symm same) entry.2

theorem find_foldl_insertNew (entries : List (Key × Value)) (key : Key) :
    (entries.foldl insertNew map).find key =
      (map.find key).or ((entries.find? (·.1 = key)).map Prod.snd) := by
  induction entries generalizing map with
  | nil => simp
  | cons entry rest ih =>
      rw [List.foldl_cons, ih, find_insertNew, List.find?_cons]
      by_cases same : entry.1 = key
      · simp [same]
      · simp [same]

theorem foldl_insertNew_entries : map.entries.foldl insertNew empty = map := by
  apply ext_find
  intro key
  rw [find_foldl_insertNew, find_empty, Option.none_or, ← findEntry_eq_find?, find]

end OrderedMap

end Ctgfs.Foundation
