import Ctgfs.Foundation.Abstraction
import Ctgfs.Fs.FileOps
import Mathlib.Logic.Function.Basic

/-!
# The operations of the client on faithful layers

The layers below are faithful when their extents are a map from numbers to contents, whatever
they consist of: every call returns what it should for the map and leaves a map behind.  A lock
that is held is not granted again, and connections are made as long as the `Client` can count
them.  Each operation of `yfs_client` is then stated by what it does to the map, and returns with
the locks that were held before.  It makes two connections at most.
-/

namespace Ctgfs.Fs

open Foundation Abstraction

abbrev Store := Inum → Option Bytes

/-- The extents, the locks that are held, and how many more connections can be made. -/
abbrev LayerView := Store × List Inum × Nat

/-- What `getattr` tells of an extent. -/
def Measures (tells : Bytes → Attr → Prop) (file : Option Bytes) : Except Failure Attr → Prop
  | .ok info => ∃ content ∈ file, tells content info
  | .error _ => file = none

/-- The condition, with some locks held. -/
def Keeping {α : Type} (held : List Inum) (post : α → Store → Prop) : α → LayerView → Prop
  | result, (store, left, _) => left = held ∧ post result store

/-- Locks that are not held are granted, and the extents are those of a map.  The master answers
with the number that the layers are given. -/
structure Faithful {State : Type} {m : Type → Type} [Monad m]
    (sees : State → LayerView → Prop) (tells : Inum → Bytes → Attr → Prop)
    (lower : Inum → Lower (StateT State m)) : Prop where
  initExtentClient : ∀ issued inum store held room,
    Realises sees ((lower issued).initExtentClient inum) (store, held, room + 1)
      fun _ next => next = (store, held, room)
  acquire : ∀ issued inum store held room, inum ∉ held →
    Realises sees ((lower issued).acquire inum) (store, held, room)
      fun granted next => granted = true ∧ next = (store, inum :: held, room)
  release : ∀ issued inum store held room,
    Realises sees ((lower issued).release inum) (store, inum :: held, room)
      fun released next => released = true ∧ next = (store, held, room)
  get : ∀ issued inum store rest, Realises sees ((lower issued).get inum) (store, rest)
    fun result next => result = (store inum).elim (.error .noent) .ok ∧ next = (store, rest)
  put : ∀ issued inum buf store rest, buf.length < indexLimit →
    Realises sees ((lower issued).put inum buf) (store, rest)
      fun done next => done = true ∧ next = (Function.update store inum (some buf), rest)
  getattr : ∀ issued inum store rest, Realises sees ((lower issued).getattr inum) (store, rest)
    fun result next => Measures (tells inum) (store inum) result ∧ next = (store, rest)
  remove : ∀ issued inum store rest, Realises sees ((lower issued).remove inum) (store, rest)
    fun done next => done = true ∧ next = (Function.update store inum none, rest)
  getInumByName : ∀ issued parent name isDir size store rest,
    Realises sees ((lower issued).getInumByName parent name isDir size) (store, rest)
      fun result next => result = issued ∧ next = (store, rest)

/-- `setattr` sets the size of an extent of the map. -/
def Resizes {State : Type} {m : Type → Type} [Monad m] (sees : State → LayerView → Prop)
    (layers : Inum → Layers (StateT State m)) : Prop :=
  ∀ issued inum size store rest, Realises sees ((layers issued).setattr inum size) (store, rest)
    fun done next => done = (store inum).isSome ∧
      next = (Function.update store inum ((store inum).map (resize · size.toNat)), rest)

namespace Faithful

variable {State : Type} {m : Type → Type} [Monad m] [LawfulMonad m]
  {sees : State → LayerView → Prop} {tells : Inum → Bytes → Attr → Prop}
  {lower : Inum → Lower (StateT State m)} {α : Type} {issued inum : Inum} {store : Store}
  {held : List Inum} {room : Nat} {post : Result α → Store → Prop}
  (faithful : Faithful sees tells lower)

include faithful

theorem reaches_finish {result : Result α} (holds : post result store) (locks : List Inum) :
    Reaches sees (finish (lower issued) locks result) (store, locks ++ held, room)
      (Keeping held post) := by
  induction locks with
  | nil => exact .pure ⟨rfl, holds⟩
  | cons inum rest ih =>
      refine .call (faithful.release issued inum store (rest ++ held) room) ?_
      rintro _ _ ⟨rfl, rfl⟩
      exact ih

theorem reaches_locked {body : OptionT (StateT State m) (Result α)}
    {post : Result α → LayerView → Prop} (free : inum ∉ held)
    (reaches : Reaches sees body (store, inum :: held, room) post) :
    Reaches sees (locked (lower issued) inum body) (store, held, room) post := by
  refine .call (faithful.acquire issued inum store held room free) ?_
  rintro _ _ ⟨rfl, rfl⟩
  exact reaches

theorem reaches_connected {body : OptionT (StateT State m) (Result α)}
    {post : Result α → LayerView → Prop} (free : inum ∉ held)
    (reaches : Reaches sees body (store, inum :: held, room) post) :
    Reaches sees (connected (lower issued) inum body) (store, held, room + 1) post := by
  refine .call (faithful.initExtentClient issued inum store held room) ?_
  rintro _ _ rfl
  exact faithful.reaches_locked free reaches

/-- `getfileInfo` and `getdirInfo`. -/
theorem reaches_getInfo (free : inum ∉ held) :
    Reaches sees (getInfo (lower issued) inum) (store, held, room + 1)
      (Keeping held fun result next => next = store ∧ match store inum with
        | none => result = .error .ioerr
        | some content => ∃ info, result = .ok info ∧ tells inum content info) := by
  refine faithful.reaches_connected free (.call (faithful.getattr issued inum _ _) ?_)
  rintro answer _ ⟨measures, rfl⟩
  refine faithful.reaches_finish ⟨rfl, ?_⟩ [inum]
  cases answer with
  | ok info =>
      obtain ⟨content, stored, told⟩ := measures
      rw [Option.mem_def.mp stored]
      exact ⟨info, rfl, told⟩
  | error failure =>
      have absent : _ = none := measures
      rw [absent]
      rfl

theorem reaches_getdirInfo :
    Reaches sees (getdirInfo (lower issued) inum) (store, [], 2) (Keeping [] fun result next =>
      next = store ∧ match store inum with
        | none => result = .error .ioerr
        | some _ => ∃ info, result = .ok info) := by
  refine .bind (faithful.reaches_getInfo List.not_mem_nil) ?_
  rintro result ⟨_, _, _⟩ ⟨rfl, rfl, told⟩
  refine .pure ⟨rfl, rfl, ?_⟩
  split at told
  next absent => rw [told]; rfl
  next content stored =>
    obtain ⟨info, rfl, -⟩ := told
    exact ⟨info.dirInfo, rfl⟩

theorem reaches_read {size : UInt64} {off : Int64}
    (defined : ∀ content ∈ store inum, (readContent content size off).isSome) :
    Reaches sees (read (lower issued) inum size off) (store, [], 2) (Keeping [] fun result next =>
      next = store ∧ match store inum with
        | none => result = .error .ioerr
        | some content => ∃ buf ∈ readContent content size off, result = .ok buf) := by
  refine faithful.reaches_connected List.not_mem_nil (.call (faithful.get issued inum _ _) ?_)
  rintro _ _ ⟨rfl, rfl⟩
  cases stored : store inum with
  | none => exact faithful.reaches_finish ⟨rfl, rfl⟩ [inum]
  | some content =>
      obtain ⟨buf, read⟩ := Option.isSome_iff_exists.mp (defined content stored)
      exact .compute read (faithful.reaches_finish ⟨rfl, buf, read, rfl⟩ [inum])

theorem reaches_write {size : UInt64} {off : Int64}
    {buf : Bytes} (defined : ∀ content ∈ store inum, ∃ next,
      writeContent content size off buf = some next ∧ next.length < indexLimit) :
    Reaches sees (write (lower issued) inum size off buf) (store, [], 2)
      (Keeping [] fun result next => match store inum with
        | none => result = .error .ioerr ∧ next = store
        | some content => ∃ written ∈ writeContent content size off buf, result = .ok () ∧
            next = Function.update store inum (some written)) := by
  refine faithful.reaches_connected List.not_mem_nil (.call (faithful.get issued inum _ _) ?_)
  rintro _ _ ⟨rfl, rfl⟩
  cases stored : store inum with
  | none => exact faithful.reaches_finish ⟨rfl, rfl⟩ [inum]
  | some content =>
      obtain ⟨written, made, small⟩ := defined content stored
      refine .compute made (.call (faithful.put issued inum written _ _ small) ?_)
      rintro _ _ ⟨rfl, rfl⟩
      exact faithful.reaches_finish ⟨written, made, rfl, rfl⟩ [inum]

section Directories

variable {dir : Inum} {name content : Bytes} {entries : List Dirent}
  {post : Result α → LayerView → Prop}

theorem reaches_entries {failed unparsed : OptionT (StateT State m) (Result α)}
    {body : List Dirent → OptionT (StateT State m) (Result α)}
    (stored : store dir = some content) (parses : parseDir content = some (some entries))
    (rest : Reaches sees (body entries) (store, [dir], 1) post) :
    Reaches sees
      (connected (lower issued) dir do
        let .ok data ← (lower issued).get dir | failed
        let some files ← parsed data | unparsed
        body files) (store, [], 2) post := by
  refine faithful.reaches_connected List.not_mem_nil (.call (faithful.get issued dir _ _) ?_)
  rintro _ _ ⟨rfl, rfl⟩
  rw [stored]
  exact .compute parses rest

theorem reaches_absent {unparsed : OptionT (StateT State m) (Result α)}
    {body : List Dirent → OptionT (StateT State m) (Result α)} (absent : store dir = none) :
    Reaches sees
      (connected (lower issued) dir do
        let .ok data ← (lower issued).get dir | finish (lower issued) [dir] (.error .ioerr)
        let some files ← parsed data | unparsed
        body files) (store, [], 2)
      (Keeping [] fun result next => result = .error .ioerr ∧ next = store) := by
  refine faithful.reaches_connected List.not_mem_nil (.call (faithful.get issued dir _ _) ?_)
  rintro _ _ ⟨rfl, rfl⟩
  rw [absent]
  exact faithful.reaches_finish ⟨rfl, rfl⟩ [dir]

/-- `create` and `mkdir`. -/
theorem reaches_makeNode (stored : store dir = some content)
    (parses : parseDir content = some (some entries))
    (apart : ¬ entries.any (·.name = name) → issued ≠ dir ∧
      (encodeDir (entries ++ [⟨name, issued⟩])).length < indexLimit)
    (isDir : Bool) (size : UInt64) (undo : Inum → List Inum) :
    Reaches sees (makeNode (lower issued) dir name isDir size undo) (store, [], 2)
      (Keeping [] fun result next =>
        if entries.any (·.name = name) then result = .error .exist ∧ next = store
        else ∃ info : Attr, result = .ok (issued, info) ∧ tells issued [] info ∧
          next = Function.update (Function.update store issued (some [])) dir
            (some (encodeDir (entries ++ [⟨name, issued⟩])))) := by
  refine faithful.reaches_entries stored parses ?_
  split
  next present => exact faithful.reaches_finish ⟨rfl, rfl⟩ [dir]
  next absent =>
    obtain ⟨distinct, fits⟩ := apart absent
    refine .call (faithful.getInumByName issued dir name isDir size _ _) ?_
    rintro _ _ ⟨rfl, rfl⟩
    refine faithful.reaches_locked (by simpa using distinct)
      (.call (faithful.put _ _ [] _ _ (by decide)) ?_)
    rintro _ _ ⟨rfl, rfl⟩
    refine .call (faithful.put _ _ _ _ _ fits) ?_
    rintro _ _ ⟨rfl, rfl⟩
    refine .call (faithful.getattr _ _ _ _) ?_
    rintro answer _ ⟨measures, rfl⟩
    rw [Function.update_of_ne distinct, Function.update_self] at measures
    cases answer with
    | error failure => cases measures
    | ok info =>
        obtain ⟨_, ⟨⟩, told⟩ := measures
        exact faithful.reaches_finish ⟨info, rfl, told, rfl⟩ [_, dir]

theorem reaches_lookup (stored : store dir = some content)
    (parses : parseDir content = some (some entries))
    (present : ∀ entry, entries.find? (·.name = name) = some entry → entry.inum ≠ dir ∧
      ∃ content, store entry.inum = some content) :
    Reaches sees (lookup (lower issued) dir name) (store, [], 2) (Keeping [] fun result next =>
      next = store ∧ match entries.find? (·.name = name) with
        | none => result = .error .noent
        | some entry => ∃ info content, store entry.inum = some content ∧
            tells entry.inum content info ∧
            result = .ok (some (entry.inum, isdir entry.inum, info))) := by
  refine faithful.reaches_entries stored parses ?_
  cases found : entries.find? (·.name = name) with
  | none => exact faithful.reaches_finish ⟨rfl, rfl⟩ [dir]
  | some entry =>
      obtain ⟨apart, file, here⟩ := present entry found
      refine .bind (faithful.reaches_getInfo (by simpa using apart)) ?_
      rintro answer ⟨_, _, _⟩ ⟨rfl, rfl, told⟩
      rw [here] at told
      obtain ⟨info, rfl, told⟩ := told
      exact faithful.reaches_finish ⟨rfl, info, file, here, told, rfl⟩ [dir]

theorem reaches_readdir (directory : isdir dir = true)
    (stored : store dir = some content) (parses : parseDir content = some (some entries)) :
    Reaches sees (readdir (lower issued) dir) (store, [], 2)
      (Keeping [] fun result next => result = .ok entries ∧ next = store) := by
  rw [readdir, if_pos directory]
  exact faithful.reaches_entries stored parses (faithful.reaches_finish ⟨rfl, rfl⟩ [dir])

theorem reaches_unlink (stored : store dir = some content)
    (parses : parseDir content = some (some entries))
    (fits : (encodeDir (entries.eraseP (cStr ·.name = name))).length < indexLimit) :
    Reaches sees (unlink (lower issued) dir name) (store, [], 2) (Keeping [] fun result next =>
      match entries.find? (cStr ·.name = name) with
      | none => result = .error .noent ∧ next = store
      | some entry =>
          if isdir entry.inum then result = .error .noent ∧ next = store
          else result = .ok () ∧ next = Function.update (Function.update store dir
            (some (encodeDir (entries.eraseP (cStr ·.name = name))))) entry.inum none) := by
  refine faithful.reaches_entries stored parses ?_
  cases entries.find? (cStr ·.name = name) with
  | none => exact faithful.reaches_finish ⟨rfl, rfl⟩ [dir]
  | some entry =>
      dsimp only
      split
      next directory => exact faithful.reaches_finish ⟨rfl, rfl⟩ [dir]
      next file =>
        refine .call (faithful.put _ _ _ _ _ fits) ?_
        rintro _ _ ⟨rfl, rfl⟩
        refine .call (faithful.release _ _ _ _ _) ?_
        rintro _ _ ⟨rfl, rfl⟩
        refine faithful.reaches_connected List.not_mem_nil (.call (faithful.remove _ _ _ _) ?_)
        rintro _ _ ⟨rfl, rfl⟩
        exact faithful.reaches_finish ⟨rfl, rfl⟩ [entry.inum]

end Directories

end Faithful

theorem Faithful.reaches_setattr {State : Type} {m : Type → Type} [Monad m] [LawfulMonad m]
    {sees : State → LayerView → Prop} {tells : Inum → Bytes → Attr → Prop}
    {layers : Inum → Layers (StateT State m)}
    (faithful : Faithful sees tells fun issued => (layers issued).toLower)
    (resizes : Resizes sees layers) {issued inum : Inum} {store : Store} {size : Int64} :
    Reaches sees (Fs.setattr (layers issued) inum size) (store, [], 2)
      (Keeping [] fun result next => match store inum with
        | none => result = .error .ioerr ∧ next = store
        | some content => ∃ info : Attr, result = .ok info.stat ∧
            tells inum (resize content size.toUInt64.toUInt32.toNat) info ∧
            next = Function.update store inum
              (some (resize content size.toUInt64.toUInt32.toNat))) := by
  refine faithful.reaches_connected List.not_mem_nil
    (.call (resizes issued inum size.toUInt64.toUInt32 _ _) ?_)
  rintro _ _ ⟨rfl, rfl⟩
  cases stored : store inum with
  | none =>
      refine faithful.reaches_finish ⟨rfl, ?_⟩ [inum]
      rw [Option.map_none, ← stored, Function.update_eq_self]
  | some content =>
      refine .call (faithful.getattr issued inum _ _) ?_
      rintro answer _ ⟨measures, rfl⟩
      rw [Function.update_self, Option.map_some] at measures
      cases answer with
      | error failure => cases measures
      | ok info =>
          obtain ⟨_, ⟨⟩, told⟩ := measures
          exact faithful.reaches_finish ⟨info, rfl, told, rfl⟩ [inum]

end Ctgfs.Fs
