import Ctgfs.Foundation.OrderedMap
import Ctgfs.Foundation.Runs
import Ctgfs.Foundation.Writes
import Ctgfs.Fs.ExtentServer
import Mathlib.Data.List.Perm.Subperm

/-!
# The collector of dirty data

`InfoCollector` keeps what the extent server has told it in three vectors.  `Get` leaves one entry
for every inum in them, and a heartbeat sends these to the master.  The loop of the heartbeats
and the server run at the same time.
-/

namespace Ctgfs.Fs

open Foundation

/-- `InfoCollector::ServerInfo`, as `AddDirtyData` and `Get` build it. -/
@[ext]
structure ServerInfo where
  inum : List ExtentId
  sz : List Nat
  type : List DirtyType
  sizes : sz.length = inum.length
  types : type.length = inum.length

/-- The number of turns of a loop up to `(int)size`; there are none when it is negative. -/
def intTurns (size : Nat) : Nat :=
  if size % 4294967296 < 2147483648 then size % 4294967296 else 0

/-- One entry for every key, as a `std::map` is filled: the first one stays. -/
def coalesce {Value : Type} (entries : List (ExtentId × Value)) : List (ExtentId × Value) :=
  ((entries.take (intTurns entries.length)).foldl OrderedMap.insertNew .empty).entries

namespace ServerInfo

variable (info : ServerInfo)

def entries : List (ExtentId × Nat × DirtyType) :=
  info.inum.zip (info.sz.zip info.type)

def ofEntries (entries : List (ExtentId × Nat × DirtyType)) : ServerInfo where
  inum := entries.map fun entry => entry.1
  sz := entries.map fun entry => entry.2.1
  type := entries.map fun entry => entry.2.2
  sizes := by rw [List.length_map, List.length_map]
  types := by rw [List.length_map, List.length_map]

def clear : ServerInfo := ⟨[], [], [], rfl, rfl⟩

def addDirtyData (data : DirtyData) : ServerInfo where
  inum := info.inum ++ [data.inum]
  sz := info.sz ++ [data.size]
  type := info.type ++ [data.type]
  sizes := by rw [List.length_append, List.length_append, info.sizes]; rfl
  types := by rw [List.length_append, List.length_append, info.types]; rfl

/-- `InfoCollector::Get`: what it leaves behind and returns. -/
def get : ServerInfo :=
  ofEntries (coalesce info.entries)

end ServerInfo

def DirtyType.effect (type : DirtyType) (size : Nat) : Option Nat :=
  match type with
  | .delete => none
  | .add | .update => some size

def DirtyData.effect (data : DirtyData) : Option Nat :=
  data.type.effect data.size

def DirtyData.write (data : DirtyData) : ExtentId × Option Nat :=
  (data.inum, data.effect)

def ServerInfo.writes (info : ServerInfo) : List (ExtentId × Option Nat) :=
  info.entries.map fun entry => (entry.1, entry.2.2.effect entry.2.1)

section Coalescing

variable {Value : Type} (rows : List (ExtentId × Value))

theorem intTurns_lt (size : Nat) : intTurns size < 2147483648 := by
  rw [intTurns]
  split
  next positive => exact positive
  next => decide

theorem intTurns_of_lt {size : Nat} (small : size < 2147483648) : intTurns size = size := by
  have same : size % 4294967296 = size := Nat.mod_eq_of_lt (by omega)
  rw [intTurns, same, if_pos small]

theorem find_coalesce (key : ExtentId) :
    findEntry key (coalesce rows) =
      ((rows.take (intTurns rows.length)).find? (·.1 = key)).map Prod.snd :=
  (OrderedMap.find_foldl_insertNew _ _ key).trans (Option.none_or ..)

theorem coalesce_nodup : ((coalesce rows).map Prod.fst).Nodup :=
  OrderedMap.keys_nodup _

theorem mem_of_mem_coalesce {row : ExtentId × Value} (member : row ∈ coalesce rows) :
    row ∈ rows.take (intTurns rows.length) := by
  have found := (findEntry_eq_some (OrderedMap.sorted _)).mpr member
  have first := (find_coalesce rows row.1).symm.trans found
  obtain ⟨other, here, same⟩ := Option.map_eq_some_iff.mp first
  have key := List.find?_some here
  rw [← Prod.ext (of_decide_eq_true key) same]
  exact List.mem_of_find?_eq_some here

theorem length_coalesce_lt : (coalesce rows).length < 2147483648 := by
  have subset : coalesce rows ⊆ rows.take (intTurns rows.length) :=
    fun _ => mem_of_mem_coalesce rows
  calc (coalesce rows).length
      ≤ (rows.take (intTurns rows.length)).length :=
        (List.Nodup.subperm (OrderedMap.entries_nodup _) subset).length_le
    _ ≤ intTurns rows.length := List.length_take_le _ _
    _ < 2147483648 := intTurns_lt _

theorem coalesce_coalesce : coalesce (coalesce rows) = coalesce rows := by
  have all : (coalesce rows).take (intTurns (coalesce rows).length) = coalesce rows := by
    rw [intTurns_of_lt (length_coalesce_lt rows), List.take_length]
  exact congrArg OrderedMap.entries
    ((congrArg (List.foldl OrderedMap.insertNew .empty) all).trans
      (OrderedMap.foldl_insertNew_entries _))

theorem mem_coalesce_of_nodup {rows : List (ExtentId × Value)} (short : rows.length < 2147483648)
    (once : (rows.map Prod.fst).Nodup) {row : ExtentId × Value} (member : row ∈ rows) :
    row ∈ coalesce rows := by
  have first : rows.find? (·.1 = row.1) = some row := by
    cases found : rows.find? (·.1 = row.1) with
    | none =>
        exact absurd (decide_eq_true rfl) (List.find?_eq_none.mp found row member)
    | some other =>
        have same := List.find?_some found
        have here := List.mem_of_find?_eq_some found
        rw [List.inj_on_of_nodup_map once here member (of_decide_eq_true same)]
  apply (findEntry_eq_some (OrderedMap.sorted _)).mp
  refine (find_coalesce rows row.1).trans ?_
  rw [intTurns_of_lt short, List.take_length, first, Option.map_some]

theorem coalesce_map {Other : Type} (forget : Value → Other) :
    coalesce (rows.map (Prod.map id forget)) = (coalesce rows).map (Prod.map id forget) := by
  have sorted : ((coalesce rows).map (Prod.map id forget)).Pairwise
      fun first second => first.1 < second.1 :=
    List.pairwise_map.mpr (OrderedMap.sorted _)
  suffices same : ((rows.map (Prod.map id forget)).take (intTurns _)).foldl
      OrderedMap.insertNew .empty = ⟨_, sorted⟩ from congrArg OrderedMap.entries same
  apply OrderedMap.ext_find
  intro key
  refine (find_coalesce _ key).trans ((findEntry_map forget key _).trans ?_).symm
  rw [find_coalesce, List.length_map, ← List.map_take, List.find?_map, Option.map_map,
    Option.map_map]
  rfl

end Coalescing

namespace ServerInfo

variable (info : ServerInfo)

theorem entries_ofEntries (entries : List (ExtentId × Nat × DirtyType)) :
    (ofEntries entries).entries = entries := by
  simp only [ServerInfo.entries, ofEntries, List.zip_map', Prod.mk.eta, List.map_id_fun', id]

theorem length_values : (info.sz.zip info.type).length = info.inum.length := by
  rw [List.length_zip, info.sizes, info.types, Nat.min_self]

theorem ofEntries_entries : ofEntries info.entries = info := by
  have pairs : info.entries.map Prod.snd = info.sz.zip info.type :=
    List.map_snd_zip info.length_values.le
  apply ServerInfo.ext
  · exact List.map_fst_zip info.length_values.ge
  · change info.entries.map (Prod.fst ∘ Prod.snd) = info.sz
    rw [← List.map_map, pairs]
    exact List.map_fst_zip (info.sizes.trans info.types.symm).le
  · change info.entries.map (Prod.snd ∘ Prod.snd) = info.type
    rw [← List.map_map, pairs]
    exact List.map_snd_zip (info.types.trans info.sizes.symm).le

theorem ext_entries {info other : ServerInfo} (same : info.entries = other.entries) :
    info = other := by
  rw [← info.ofEntries_entries, same, other.ofEntries_entries]

theorem entries_addDirtyData (data : DirtyData) :
    (info.addDirtyData data).entries = info.entries ++ [(data.inum, data.size, data.type)] := by
  rw [entries, addDirtyData, List.zip_append (info.sizes.trans info.types.symm),
    List.zip_append info.length_values.symm]
  rfl

theorem entries_get : info.get.entries = coalesce info.entries :=
  entries_ofEntries _

theorem get_get : info.get.get = info.get := by
  rw [get, entries_get, coalesce_coalesce]
  rfl

end ServerInfo

variable (events : List DirtyData)

theorem entries_foldl_addDirtyData :
    (events.foldl ServerInfo.addDirtyData .clear).entries =
      events.map fun data => (data.inum, data.size, data.type) := by
  induction events using List.reverseRecOn with
  | nil => rfl
  | append_singleton events data ih =>
      rw [List.foldl_concat, ServerInfo.entries_addDirtyData, ih, List.map_append]
      rfl

theorem lastWrite_events (inum : ExtentId) :
    lastWrite (events.map DirtyData.write) inum =
      (events.reverse.find? (·.inum = inum)).map DirtyData.effect := by
  rw [lastWrite, ← List.map_reverse, List.find?_map, Option.map_map]
  rfl

theorem lastWrite_get (inum : ExtentId) :
    lastWrite (events.foldl ServerInfo.addDirtyData .clear).get.writes inum =
      ((events.take (intTurns events.length)).find? (·.inum = inum)).map DirtyData.effect := by
  have once : ((events.foldl ServerInfo.addDirtyData .clear).get.writes.map Prod.fst).Nodup := by
    rw [ServerInfo.writes, ServerInfo.entries_get, List.map_map]
    exact coalesce_nodup _
  have first := find_coalesce (events.map fun data => (data.inum, data.size, data.type)) inum
  rw [findEntry_eq_find?, List.length_map, ← List.map_take, List.find?_map, Option.map_map] at first
  rw [lastWrite_of_nodup once, ServerInfo.writes, ServerInfo.entries_get,
    entries_foldl_addDirtyData, List.find?_map, Option.map_map]
  have effects := congrArg (Option.map fun value : Nat × DirtyType => value.2.effect value.1) first
  rw [Option.map_map, Option.map_map] at effects
  exact effects

/-- Applying what `Get` returns does the same to every map of sizes as the events do, if and only
if for every inum the first event has the effect of the last one.  A second `Get` returns the
same in any case. -/
theorem get_preserves_effect_iff (events : List DirtyData) :
    ((∀ map, applyWrites map (events.foldl ServerInfo.addDirtyData .clear).get.writes =
          applyWrites map (events.map DirtyData.write)) ∧
        (events.foldl ServerInfo.addDirtyData .clear).get.get =
          (events.foldl ServerInfo.addDirtyData .clear).get) ↔
      ∀ inum, ((events.take (intTurns events.length)).find? (·.inum = inum)).map
          DirtyData.effect = (events.reverse.find? (·.inum = inum)).map DirtyData.effect := by
  rw [and_iff_left (ServerInfo.get_get _), applyWrites_eq_iff]
  simp only [lastWrite_get, lastWrite_events]

/-- A file that is added and then grows is sent with its first size. -/
theorem get_keeps_first_size :
    let events : List DirtyData := [⟨5, 1, .add⟩, ⟨5, 2, .update⟩]
    applyWrites (fun _ => none) (events.foldl ServerInfo.addDirtyData .clear).get.writes 5 =
        some 1 ∧
      applyWrites (fun _ => none) (events.map DirtyData.write) 5 = some 2 :=
  ⟨rfl, rfl⟩

end Ctgfs.Fs
