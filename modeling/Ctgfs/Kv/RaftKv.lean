import Ctgfs.Kv.MockKv

/-!
# Queries of the replicated store

`RaftKV::Query` seeks the key in the local database and copies every entry from there to
the end whose key has an underscore anywhere.  `MockKV::Query` copies the versions of the
key only.  The two agree when no other key with an underscore sorts after the key.
-/

namespace Ctgfs.Kv

open Foundation

/-- `values.insert({key, value})`, which keeps an entry that is there already. -/
def insertNew (values : List Entry) (entry : Entry) : List Entry :=
  if values.any fun other => decide (other.1 = entry.1) then values
  else assign entry.1 entry.2 values

/-- The entries of a map or of a database, in the order of their keys. -/
def Ascending (entries : List Entry) : Prop :=
  entries.Pairwise fun first second => first.1 < second.1

/-- An iterator of the database enumerates, after `Seek`, the entries with the keys from there on
in bytewise order. -/
structure Seeks (seek : List Entry → Bytes → List Entry) : Prop where
  ascending : ∀ db key, Ascending db → Ascending (seek db key)
  mem_iff : ∀ db key, Ascending db → ∀ entry, entry ∈ seek db key ↔ entry ∈ db ∧ key ≤ entry.1

namespace RaftKv

section Query

variable (seek : List Entry → Bytes → List Entry)

/-- `RocksFSM::LocalQuery` into a map. -/
def localQuery (db : List Entry) (key : Bytes) (values : List Entry) : List Entry :=
  (seek db key).foldl insertNew values

/-- `find("_")` finds something. -/
def findsUnderscore (text : Bytes) : Bool :=
  text.any fun byte => decide (byte = underscore)

/-- `RaftKV::Query` into a map; it returns true. -/
def query (db : List Entry) (key : Bytes) (values : List Entry) : List Entry :=
  (localQuery seek db key []).foldl
    (fun values entry => if findsUnderscore entry.1 then insertNew values entry else values)
    values

end Query

theorem findsUnderscore_iff (text : Bytes) : findsUnderscore text = true ↔ underscore ∈ text := by
  simp [findsUnderscore]

end RaftKv

section Insertion

theorem assign_of_lt {key : Bytes} (value : Bytes) {entries : List Entry}
    (last : ∀ entry ∈ entries, entry.1 < key) :
    assign key value entries = entries ++ [(key, value)] := by
  induction entries with
  | nil => rfl
  | cons head rest ih =>
      have before := last head List.mem_cons_self
      rw [assign, if_neg (lt_asymm before), if_neg before.ne',
        ih fun entry member => last entry (List.mem_cons_of_mem _ member)]
      rfl

theorem foldl_insertNew (values entries : List Entry)
    (sorted : Ascending (values ++ entries)) :
    entries.foldl insertNew values = values ++ entries := by
  induction entries generalizing values with
  | nil => exact (List.append_nil _).symm
  | cons entry rest ih =>
      have last : ∀ other ∈ values, other.1 < entry.1 := by
        intro other member
        exact (List.pairwise_append.mp sorted).2.2 other member entry List.mem_cons_self
      have absent : ¬ values.any (fun other => decide (other.1 = entry.1)) = true := by
        rw [List.any_eq_true]
        rintro ⟨other, member, same⟩
        exact (last other member).ne (of_decide_eq_true same)
      have moved : values ++ entry :: rest = values ++ [entry] ++ rest := by simp
      rw [moved] at sorted ⊢
      rw [List.foldl_cons, insertNew, if_neg absent, assign_of_lt entry.2 last]
      exact ih _ sorted

end Insertion

section Agreement

variable {seek : List Entry → Bytes → List Entry} {db : List Entry} {key : Bytes}

theorem Ascending.nodup (sorted : Ascending db) : db.Nodup :=
  sorted.imp fun before same => before.ne (congrArg Prod.fst same)

theorem Seeks.seek_eq (seeks : Seeks seek) (sorted : Ascending db) (key : Bytes) :
    seek db key = db.filter fun entry => decide (key ≤ entry.1) := by
  have sought := seeks.ascending db key sorted
  have filtered : Ascending (db.filter fun entry => decide (key ≤ entry.1)) :=
    List.Pairwise.filter _ sorted
  have perm : (seek db key).Perm (db.filter fun entry => decide (key ≤ entry.1)) := by
    refine (List.perm_ext_iff_of_nodup sought.nodup filtered.nodup).mpr fun entry => ?_
    rw [seeks.mem_iff db key sorted, List.mem_filter, decide_eq_true_iff]
  exact perm.eq_of_pairwise (fun _ _ _ _ before after => absurd after (lt_asymm before)) sought
    filtered

theorem RaftKv.query_eq (seeks : Seeks seek) (sorted : Ascending db) (key : Bytes) :
    query seek db key [] =
      db.filter fun entry => decide (key ≤ entry.1 ∧ underscore ∈ entry.1) := by
  have sought := seeks.ascending db key sorted
  have filtered : Ascending ((seek db key).filter fun entry => findsUnderscore entry.1) :=
    List.Pairwise.filter _ sought
  have found : localQuery seek db key [] = seek db key := foldl_insertNew [] _ sought
  calc query seek db key []
      = ((seek db key).filter fun entry => findsUnderscore entry.1).foldl insertNew [] := by
        rw [query, found, List.foldl_filter]
    _ = (seek db key).filter fun entry => findsUnderscore entry.1 :=
        foldl_insertNew [] _ filtered
    _ = _ := by
        rw [seeks.seek_eq sorted, List.filter_filter]
        apply List.filter_congr
        intro entry _
        rw [Bool.eq_iff_iff, Bool.and_eq_true, findsUnderscore_iff, decide_eq_true_iff,
          decide_eq_true_iff, and_comm]

theorem VersionOf.after {name : Bytes} (version : VersionOf key name) :
    key ≤ name ∧ underscore ∈ name := by
  obtain ⟨rest, -, rfl⟩ := version
  refine ⟨not_lt.mp fun before => ?_, by simp⟩
  rw [← List.append_nil key, List.append_assoc, append_lt_append_left_iff] at before
  exact List.not_lt_nil _ before

/-- The two stores agree on a query, and find the versions of the key, exactly when every
stored key with an underscore that sorts at the query key or after it is one of its
versions. -/
theorem query_agree_iff (seeks : Seeks seek) (kv : MockKv) (key : Bytes) :
    (RaftKv.query seek kv.kvs key [] = kv.query key ∧
      ∀ entry, entry ∈ kv.query key ↔ entry ∈ kv.kvs ∧ VersionOf key entry.1) ↔
    ∀ entry ∈ kv.kvs, key ≤ entry.1 → underscore ∈ entry.1 → VersionOf key entry.1 := by
  have versions : ∀ entry, entry ∈ kv.query key ↔ entry ∈ kv.kvs ∧ VersionOf key entry.1 := by
    intro entry
    rw [MockKv.query, List.mem_filter, MockKv.queryMatches_iff]
  rw [RaftKv.query_eq seeks kv.sorted, and_iff_left versions]
  constructor
  · intro same entry stored from_ separated
    have copied : entry ∈ kv.query key := by
      rw [← same, List.mem_filter, decide_eq_true_iff]
      exact ⟨stored, from_, separated⟩
    exact ((versions entry).mp copied).2
  · intro only
    apply List.filter_congr
    intro entry stored
    rw [Bool.eq_iff_iff, decide_eq_true_iff, MockKv.queryMatches_iff]
    exact ⟨fun copied => only entry stored copied.1 copied.2, VersionOf.after⟩

def seekFrom (db : List Entry) (key : Bytes) : List Entry :=
  db.filter fun entry => decide (key ≤ entry.1)

theorem seeks_seekFrom : Seeks seekFrom where
  ascending _ _ sorted := List.Pairwise.filter _ sorted
  mem_iff db key _ entry := by rw [seekFrom, List.mem_filter, decide_eq_true_iff]

/-- A version of the key that is asked for, alone in the store. -/
theorem query_agree_version :
    RaftKv.query seekFrom (MockKv.empty.put [97, underscore, 49] [120]).kvs [97] [] =
      (MockKv.empty.put [97, underscore, 49] [120]).query [97] := by
  refine ((query_agree_iff seeks_seekFrom _ _).mpr fun entry stored _ _ => ?_).1
  obtain rfl := List.mem_singleton.mp stored
  exact ⟨[49], by simp, rfl⟩

/-- The key `b_1` is copied for the query `a`. -/
theorem query_copies_later_key :
    RaftKv.query seekFrom [([98, underscore, 49], [120])] [97] [] =
        [([98, underscore, 49], [120])] ∧
      (MockKv.empty.put [98, underscore, 49] [120]).kvs = [([98, underscore, 49], [120])] ∧
      (MockKv.empty.put [98, underscore, 49] [120]).query [97] = [] := by
  decide

end Agreement

end Ctgfs.Kv
