import Ctgfs.Foundation.Runs
import Ctgfs.Fs.FaithfulLayers
import Mathlib.Data.List.Find
import Mathlib.Data.List.Nodup
import Mathlib.Data.List.TakeWhile

/-!
# A directory is a map of names

When the layers below do what they are asked for, the operations on one directory are those of
a list of named numbers without repeated names.
-/

namespace Ctgfs.Fs

open Foundation Abstraction

variable (attr : Inum → Bytes → Attr)

/-- Layers whose locks are always granted and whose extents are as they were put.  The master
answers with the number `issued`. -/
def Lower.sound (issued : Inum) : Lower (StateM Store) where
  initExtentClient _ := pure ()
  acquire _ := pure true
  release _ := pure true
  get inum := fun store => ((store inum).elim (.error .noent) .ok, store)
  put inum buf := fun store => (true, Function.update store inum (some buf))
  getattr inum := fun store =>
    ((store inum).elim (.error .noent) fun content => .ok (attr inum content), store)
  remove inum := fun store => (true, Function.update store inum none)
  getInumByName _ _ _ _ := pure issued

inductive DirOp where
  | create (name : Bytes) (size : UInt64) (issued : Inum)
  | mkdir (name : Bytes) (issued : Inum)
  | unlink (name : Bytes)
  | lookup (name : Bytes)
  | readdir
  deriving DecidableEq, Repr

inductive DirReply where
  | made (result : Result (Inum × Attr))
  | unlinked (result : Result Unit)
  | found (result : Result (Option (Inum × Bool × Attr)))
  | listed (result : Result (List Dirent))

section Abstract

structure Named where
  name : Bytes
  inum : Inum
  isDir : Bool
  deriving DecidableEq, Repr

def Named.entry (named : Named) : Dirent :=
  ⟨named.name, named.inum⟩

variable (listing : List Named)

def named (name : Bytes) : Option Named :=
  listing.find? (·.name = name)

def DirOp.apply : DirOp → List Named
  | .create name _ issued =>
      if (named listing name).isSome then listing else listing ++ [⟨name, issued, false⟩]
  | .mkdir name issued =>
      if (named listing name).isSome then listing else listing ++ [⟨name, issued, true⟩]
  | .unlink name => listing.filter fun other => other.name ≠ name ∨ other.isDir
  | .lookup _ | .readdir => listing

def DirOp.Answers : DirOp → DirReply → Prop
  | .create name _ issued, reply | .mkdir name issued, reply =>
      if (named listing name).isSome then reply = .made (.error .exist)
      else ∃ info, reply = .made (.ok (issued, info))
  | .unlink name, reply =>
      match named listing name with
      | some ⟨_, _, false⟩ => reply = .unlinked (.ok ())
      | _ => reply = .unlinked (.error .noent)
  | .lookup name, reply =>
      match named listing name with
      | some ⟨_, inum, isDir⟩ => ∃ info, reply = .found (.ok (some (inum, isDir, info)))
      | none => reply = .found (.error .noent)
  | .readdir, reply => reply = .listed (.ok (listing.map Named.entry))

def DirOp.Removes (next : Store) : DirOp → Prop
  | .unlink name => ∀ other ∈ listing, other.name = name → other.isDir = false →
      next other.inum = none
  | .create _ _ _ | .mkdir _ _ | .lookup _ | .readdir => True

end Abstract

def perform (dir : Inum) (store : Store) :
    DirOp → Option DirReply × Store
  | .create name size issued =>
      ((create (.sound attr issued) dir name size).run store).map (Option.map .made) id
  | .mkdir name issued =>
      ((mkdir (.sound attr issued) dir name).run store).map (Option.map .made) id
  | .unlink name => ((unlink (.sound attr 0) dir name).run store).map (Option.map .unlinked) id
  | .lookup name => ((lookup (.sound attr 0) dir name).run store).map (Option.map .found) id
  | .readdir => ((readdir (.sound attr 0) dir).run store).map (Option.map .listed) id

theorem realises_sound {α : Type} {call : StateM Store α} {store : Store}
    {rest left : List Inum × Nat} {post : α → LayerView → Prop}
    (holds : post (call store).1 ((call store).2, left)) :
    Realises (fun (state : Store) view => state = view.1) call (store, rest) post := by
  rintro _ rfl
  exact ⟨_, _, _, rfl, rfl, holds⟩

theorem faithful_sound :
    Faithful (fun (state : Store) view => state = view.1)
      (fun inum content info => info = attr inum content) (Lower.sound attr) where
  initExtentClient _ _ _ _ _ := realises_sound rfl
  acquire _ _ _ _ _ _ := realises_sound ⟨rfl, rfl⟩
  release _ _ _ _ _ := realises_sound ⟨rfl, rfl⟩
  get _ _ _ _ := realises_sound ⟨rfl, rfl⟩
  put _ _ _ _ _ _ := realises_sound ⟨rfl, rfl⟩
  getattr _ inum store _ := by
    refine realises_sound ⟨?_, rfl⟩
    change Measures _ _ ((store inum).elim _ _)
    cases store inum with
    | none => rfl
    | some content => exact ⟨content, rfl, rfl⟩
  remove _ _ _ _ := realises_sound ⟨rfl, rfl⟩
  getInumByName _ _ _ _ _ _ _ := realises_sound ⟨rfl, rfl⟩

/-- What is stated of faithful layers, for those that do what they are asked for. -/
theorem run_of_reaches {α : Type} {program : OptionT (StateM Store) α} {store : Store}
    {post : α → Store → Prop}
    (reaches : Reaches (fun (state : Store) (view : LayerView) => state = view.1) program
      (store, [], 2) (Keeping [] post)) :
    ∃ result next, program.run store = (some result, next) ∧ post result next := by
  obtain ⟨result, next, view, ran, rfl, -, holds⟩ := reaches store rfl
  exact ⟨result, view.1, ran, holds⟩

def entriesOf (store : Store) (dir : Inum) : List Dirent :=
  ((store dir).bind fun content => (parseDir content).join).getD []

structure Makes (dir : Inum) (store : Store) (name : Bytes) (issued : Inum) (isDir : Bool) :
    Prop where
  plain : nullByte ∉ name
  apart : issued ≠ dir
  fresh : ∀ entry ∈ entriesOf store dir, entry.inum ≠ issued
  kind : isdir issued = isDir
  short : name.length < intLimit
  fits : ((store dir).getD []).length + name.length + 12 < indexLimit

def Careful (dir : Inum) (store : Store) : DirOp → Prop
  | .create name _ issued =>
      (∀ entry ∈ entriesOf store dir, entry.name ≠ name) → Makes dir store name issued false
  | .mkdir name issued =>
      (∀ entry ∈ entriesOf store dir, entry.name ≠ name) → Makes dir store name issued true
  | .unlink _ | .lookup _ | .readdir => True

structure Lists (dir : Inum) (store : Store) (listing : List Named) : Prop where
  stored : store dir = some (encodeDir (listing.map Named.entry))
  fits : (encodeDir (listing.map Named.entry)).length < indexLimit
  short : ∀ other ∈ listing, other.name.length < intLimit
  plain : ∀ other ∈ listing, nullByte ∉ other.name
  names : (listing.map Named.name).Nodup
  inums : (listing.map Named.inum).Nodup
  kinds : ∀ other ∈ listing, isdir other.inum = other.isDir
  present : ∀ other ∈ listing, other.inum ≠ dir ∧ ∃ content, store other.inum = some content

section Refinement

variable {attr : Inum → Bytes → Attr} {dir issued : Inum} {store : Store} {name : Bytes}
  {listing : List Named}

theorem Lists.parses (lists : Lists dir store listing) :
    parseDir (encodeDir (listing.map Named.entry)) = some (some (listing.map Named.entry)) := by
  refine parseDir_encodeDir ?_ lists.fits
  intro entry member
  obtain ⟨other, otherMember, rfl⟩ := List.mem_map.mp member
  exact lists.short other otherMember

theorem Lists.entriesOf_eq (lists : Lists dir store listing) :
    entriesOf store dir = listing.map Named.entry := by
  rw [entriesOf, lists.stored, Option.bind_some, lists.parses]
  rfl

theorem find_map_entry (listing : List Named) (name : Bytes) :
    (listing.map Named.entry).find? (·.name = name) = (named listing name).map Named.entry :=
  List.find?_map ..

theorem any_map_entry (listing : List Named) (name : Bytes) :
    (listing.map Named.entry).any (·.name = name) = (named listing name).isSome := by
  rw [Bool.eq_iff_iff, List.any_eq_true, ← List.find?_isSome, find_map_entry, Option.isSome_map]

theorem Lists.make (lists : Lists dir store listing) {isDir : Bool}
    (makes : Makes dir store name issued isDir) (absent : named listing name = none) :
    Lists dir (Function.update (Function.update store issued (some [])) dir
      (some (encodeDir (listing.map Named.entry ++ [⟨name, issued⟩]))))
      (listing ++ [⟨name, issued, isDir⟩]) := by
  have fresh : ∀ other ∈ listing, other.inum ≠ issued := by
    intro other member
    refine makes.fresh other.entry ?_
    rw [lists.entriesOf_eq]
    exact List.mem_map_of_mem member
  have new : ∀ other ∈ listing, other.name ≠ name := by
    intro other member
    simpa using List.find?_eq_none.mp absent other member
  have room := makes.fits
  rw [lists.stored, Option.getD_some] at room
  have encoded : (listing ++ [(⟨name, issued, isDir⟩ : Named)]).map Named.entry =
      listing.map Named.entry ++ [⟨name, issued⟩] := List.map_append
  have either : ∀ {P : Named → Prop}, (∀ other ∈ listing, P other) → P ⟨name, issued, isDir⟩ →
      ∀ other ∈ listing ++ [⟨name, issued, isDir⟩], P other := by
    intro P old last other member
    obtain before | here := List.mem_append.mp member
    · exact old other before
    · rw [List.mem_singleton.mp here]
      exact last
  constructor
  · rw [encoded, Function.update_self]
  · rw [encoded, encodeDir_append, List.length_append]
    rw [encodeDir_cons, List.length_append, Dirent.length_encode, ← Nat.add_assoc]
    exact room
  · exact either lists.short makes.short
  · exact either lists.plain makes.plain
  · rw [List.map_append, List.nodup_append]
    refine ⟨lists.names, List.pairwise_singleton _ _, ?_⟩
    intro first firstMember second secondMember
    obtain ⟨other, member, rfl⟩ := List.mem_map.mp firstMember
    rw [List.mem_singleton.mp secondMember]
    exact new other member
  · rw [List.map_append, List.nodup_append]
    refine ⟨lists.inums, List.pairwise_singleton _ _, ?_⟩
    intro first firstMember second secondMember
    obtain ⟨other, member, rfl⟩ := List.mem_map.mp firstMember
    rw [List.mem_singleton.mp secondMember]
    exact fresh other member
  · exact either lists.kinds makes.kind
  · refine either ?_ ⟨makes.apart, [], ?_⟩
    · intro other member
      obtain ⟨apart, content, here⟩ := lists.present other member
      refine ⟨apart, content, ?_⟩
      rw [Function.update_of_ne apart, Function.update_of_ne (fresh other member), here]
    · rw [Function.update_of_ne makes.apart, Function.update_self]

theorem cStr_plain (plain : nullByte ∉ name) : cStr name = name := by
  rw [cStr, List.takeWhile_eq_self_iff]
  intro byte member
  simpa using fun null : byte = nullByte => plain (null ▸ member)

theorem Lists.find_cStr (lists : Lists dir store listing) (name : Bytes) :
    (listing.map Named.entry).find? (cStr ·.name = name) =
      (named listing name).map Named.entry := by
  rw [← find_map_entry]
  apply List.find?_congr
  intro entry member
  obtain ⟨other, otherMember, rfl⟩ := List.mem_map.mp member
  rw [Named.entry, cStr_plain (lists.plain other otherMember)]

/-- The entry that `unlink` erases is the only one with the name. -/
theorem eraseP_entries (plain : ∀ other ∈ listing, nullByte ∉ other.name)
    (names : (listing.map Named.name).Nodup) (name : Bytes) :
    (listing.map Named.entry).eraseP (cStr ·.name = name) =
      (listing.filter (·.name ≠ name)).map Named.entry := by
  induction listing with
  | nil => rfl
  | cons first rest ih =>
      obtain ⟨new, names⟩ := List.nodup_cons.mp names
      have same : cStr first.entry.name = first.name :=
        cStr_plain (plain first List.mem_cons_self)
      by_cases here : first.name = name
      · rw [List.map_cons, List.eraseP_cons_of_pos (by simp [same, here]),
          List.filter_cons_of_neg (by simp [here]), List.filter_eq_self.mpr]
        intro other member
        have apart : other.name ≠ name := fun shared =>
          new (List.mem_map.mpr ⟨other, member, shared.trans here.symm⟩)
        simpa using apart
      · rw [List.map_cons, List.eraseP_cons_of_neg (by simp [same, here]),
          List.filter_cons_of_pos (by simp [here]), List.map_cons,
          ih (fun other member => plain other (List.mem_cons_of_mem _ member))
            names]

theorem length_encodeDir_le {first second : List Dirent} (within : first.Sublist second) :
    (encodeDir first).length ≤ (encodeDir second).length := by
  induction within with
  | slnil => rfl
  | cons entry _ ih =>
      rw [encodeDir_cons, List.length_append]
      omega
  | cons_cons entry _ ih =>
      simp only [encodeDir_cons, List.length_append]
      omega

theorem Lists.erase (lists : Lists dir store listing) {target : Named} (member : target ∈ listing) :
    Lists dir (Function.update (Function.update store dir
      (some (encodeDir ((listing.filter (·.name ≠ target.name)).map Named.entry)))) target.inum
        none) (listing.filter (·.name ≠ target.name)) := by
  have smaller : (listing.filter (·.name ≠ target.name)).Sublist listing := List.filter_sublist
  have away : target.inum ≠ dir := (lists.present target member).1
  constructor
  · rw [Function.update_of_ne away.symm, Function.update_self]
  · exact (length_encodeDir_le (smaller.map _)).trans_lt lists.fits
  · exact fun other member => lists.short other (smaller.subset member)
  · exact fun other member => lists.plain other (smaller.subset member)
  · exact lists.names.sublist (smaller.map _)
  · exact lists.inums.sublist (smaller.map _)
  · exact fun other member => lists.kinds other (smaller.subset member)
  · intro other inside
    obtain ⟨apartDir, content, stored⟩ := lists.present other (smaller.subset inside)
    have apart : other.inum ≠ target.inum := by
      intro same
      obtain rfl := List.inj_on_of_nodup_map lists.inums (smaller.subset inside) member same
      simp at inside
    refine ⟨apartDir, content, ?_⟩
    rw [Function.update_of_ne apart, Function.update_of_ne apartDir, stored]

theorem Lists.unnamed (lists : Lists dir store listing) (absent : named listing name = none) :
    ∀ entry ∈ entriesOf store dir, entry.name ≠ name := by
  rw [lists.entriesOf_eq]
  intro entry member
  obtain ⟨other, otherMember, rfl⟩ := List.mem_map.mp member
  simpa [Named.entry] using List.find?_eq_none.mp absent other otherMember

section Faithful

variable {State : Type} {m : Type → Type} [Monad m] [LawfulMonad m]
  {sees : State → LayerView → Prop} {tells : Inum → Bytes → Attr → Prop}
  {lower : Inum → Lower (StateT State m)} (faithful : Faithful sees tells lower)
  (lists : Lists dir store listing)

include faithful lists

theorem reaches_made
    (may : named listing name = none → issued ≠ dir ∧
      ((store dir).getD []).length + name.length + 12 < indexLimit)
    (isDir : Bool) (size : UInt64) (undo : Inum → List Inum) :
    Reaches sees (makeNode (lower issued) dir name isDir size undo) (store, [], 2)
      (Keeping [] fun result next => match named listing name with
        | some _ => result = .error .exist ∧ next = store
        | none => ∃ info : Attr, result = .ok (issued, info) ∧ tells issued [] info ∧
            next = Function.update (Function.update store issued (some [])) dir
              (some (encodeDir (listing.map Named.entry ++ [⟨name, issued⟩])))) := by
  have made : Reaches sees (makeNode (lower issued) dir name isDir size undo) (store, [], 2) _ :=
    faithful.reaches_makeNode lists.stored lists.parses (fun absent => ?_) isDir size undo
  · rw [any_map_entry] at made
    cases found : named listing name <;> simpa [found] using made
  · rw [any_map_entry, Bool.not_eq_true, Option.isSome_eq_false_iff, Option.isNone_iff_eq_none]
      at absent
    obtain ⟨apart, room⟩ := may absent
    rw [lists.stored, Option.getD_some] at room
    rw [encodeDir_append, List.length_append, encodeDir_cons, List.length_append,
      Dirent.length_encode, ← Nat.add_assoc]
    exact ⟨apart, room⟩

theorem reaches_looked (issued : Inum) (name : Bytes) :
    Reaches sees (lookup (lower issued) dir name) (store, [], 2) (Keeping [] fun result next =>
      next = store ∧ match named listing name with
        | none => result = .error .noent
        | some entry => ∃ info content, store entry.inum = some content ∧
            tells entry.inum content info ∧
            result = .ok (some (entry.inum, entry.isDir, info))) := by
  have looked : Reaches sees (lookup (lower issued) dir name) (store, [], 2) _ :=
    faithful.reaches_lookup lists.stored lists.parses fun entry found => ?_
  · rw [find_map_entry] at looked
    cases found : named listing name with
    | none => simpa [found] using looked
    | some entry =>
        have kind := lists.kinds entry (List.mem_of_find?_eq_some found)
        simpa [found, Named.entry, kind] using looked
  · obtain ⟨other, member, rfl⟩ := List.mem_map.mp (List.mem_of_find?_eq_some found)
    exact lists.present other member

theorem reaches_unlinked (issued : Inum) (name : Bytes) :
    Reaches sees (unlink (lower issued) dir name) (store, [], 2) (Keeping [] fun result next =>
      match named listing name with
      | none => result = .error .noent ∧ next = store
      | some entry =>
          if entry.isDir then result = .error .noent ∧ next = store
          else result = .ok () ∧ next = Function.update (Function.update store dir
            (some (encodeDir ((listing.filter (·.name ≠ entry.name)).map Named.entry)))) entry.inum
              none) := by
  have unlinked : Reaches sees (unlink (lower issued) dir name) (store, [], 2) _ :=
    faithful.reaches_unlink lists.stored lists.parses
      ((length_encodeDir_le List.eraseP_sublist).trans_lt lists.fits)
  rw [lists.find_cStr, eraseP_entries lists.plain lists.names] at unlinked
  cases found : named listing name with
  | none => simpa [found] using unlinked
  | some entry =>
      have here : entry.name = name := by simpa using List.find?_some found
      have kind := lists.kinds entry (List.mem_of_find?_eq_some found)
      simpa [found, Named.entry, kind, here] using unlinked

end Faithful

theorem Lists.makeNode (lists : Lists dir store listing) {isDir : Bool}
    (careful : (∀ entry ∈ entriesOf store dir, entry.name ≠ name) →
      Makes dir store name issued isDir) (size : UInt64) (undo : Inum → List Inum) :
    ∃ result next,
      (Fs.makeNode (.sound attr issued) dir name isDir size undo).run store =
        (some result, next) ∧
      (if (named listing name).isSome then DirReply.made result = .made (.error .exist)
        else ∃ info, DirReply.made result = .made (.ok (issued, info))) ∧
      Lists dir next (if (named listing name).isSome then listing
        else listing ++ [⟨name, issued, isDir⟩]) := by
  have makes : named listing name = none → Makes dir store name issued isDir :=
    fun absent => careful (lists.unnamed absent)
  obtain ⟨result, next, ran, told⟩ := run_of_reaches (reaches_made (faithful_sound attr) lists
    (fun absent => ⟨(makes absent).apart, (makes absent).fits⟩) isDir size undo)
  refine ⟨result, next, ran, ?_⟩
  cases found : named listing name with
  | some other =>
      rw [found] at told
      obtain ⟨rfl, rfl⟩ := told
      exact ⟨rfl, lists⟩
  | none =>
      rw [found] at told
      obtain ⟨info, rfl, -, rfl⟩ := told
      exact ⟨⟨info, rfl⟩, lists.make (makes found) found⟩

theorem Lists.unlink (lists : Lists dir store listing) (name : Bytes) :
    ∃ reply next, perform attr dir store (.unlink name) = (some reply, next) ∧
      (DirOp.unlink name).Answers listing reply ∧
      Lists dir next ((DirOp.unlink name).apply listing) ∧
      (DirOp.unlink name).Removes listing next := by
  obtain ⟨result, next, ran, told⟩ :=
    run_of_reaches (reaches_unlinked (faithful_sound attr) lists 0 name)
  refine ⟨.unlinked result, next, by rw [perform, ran]; rfl, ?_⟩
  cases found : named listing name with
  | none =>
      rw [found] at told
      obtain ⟨rfl, rfl⟩ := told
      have absent : ∀ other ∈ listing, other.name ≠ name := by
        intro other member
        simpa using List.find?_eq_none.mp found other member
      refine ⟨by simp [DirOp.Answers, found], ?_, fun other member here =>
        absurd here (absent other member)⟩
      rw [DirOp.apply, List.filter_eq_self.mpr fun other member => by simp [absent other member]]
      exact lists
  | some target =>
      rw [found] at told
      have member := List.mem_of_find?_eq_some found
      have here : target.name = name := by simpa using List.find?_some found
      have only : ∀ other ∈ listing, other.name = name → other = target := by
        intro other inside shared
        exact List.inj_on_of_nodup_map lists.names inside member (shared.trans here.symm)
      obtain ⟨targetName, inum, isDir⟩ := target
      cases isDir with
      | true =>
          obtain ⟨rfl, rfl⟩ := told
          refine ⟨by simp [DirOp.Answers, found], ?_, fun other inside shared file => ?_⟩
          · rw [DirOp.apply, List.filter_eq_self.mpr]
            · exact lists
            intro other inside
            by_cases shared : other.name = name
            · simp [only other inside shared]
            · simp [shared]
          · rw [only other inside shared] at file
            cases file
      | false =>
          obtain ⟨rfl, rfl⟩ := told
          refine ⟨by simp [DirOp.Answers, found], ?_, fun other inside shared file => ?_⟩
          · have rest : (DirOp.unlink name).apply listing =
                listing.filter (·.name ≠ targetName) := by
              refine List.filter_congr fun other inside => ?_
              by_cases shared : other.name = name
              · simp [only other inside shared, show targetName = name from here]
              · simp [shared, show targetName = name from here]
            rw [rest]
            exact lists.erase member
          · rw [only other inside shared]
            exact Function.update_self ..

theorem Lists.perform (directory : isdir dir = true) (lists : Lists dir store listing) {op : DirOp}
    (careful : Careful dir store op) :
    ∃ reply next, Fs.perform attr dir store op = (some reply, next) ∧ op.Answers listing reply ∧
      Lists dir next (op.apply listing) ∧ op.Removes listing next := by
  cases op with
  | create name size issued =>
      obtain ⟨result, next, ran, answers, after⟩ :=
        lists.makeNode careful size fun inum => [dir, inum]
      refine ⟨.made result, next, ?_, answers, after, trivial⟩
      rw [Fs.perform, create, ran]
      rfl
  | mkdir name issued =>
      obtain ⟨result, next, ran, answers, after⟩ :=
        lists.makeNode careful 0 fun inum => [inum, dir]
      refine ⟨.made result, next, ?_, answers, after, trivial⟩
      rw [Fs.perform, mkdir, ran]
      rfl
  | unlink name => exact lists.unlink name
  | lookup name =>
      obtain ⟨result, next, ran, rfl, told⟩ :=
        run_of_reaches (reaches_looked (faithful_sound attr) lists 0 name)
      refine ⟨.found result, _, by rw [Fs.perform, ran]; rfl, ?_, lists, trivial⟩
      cases found : named listing name with
      | none =>
          rw [found] at told
          rw [DirOp.Answers, found, told]
      | some target =>
          rw [found] at told
          obtain ⟨info, content, -, -, rfl⟩ := told
          rw [DirOp.Answers, found]
          exact ⟨info, rfl⟩
  | readdir =>
      have reaches : Reaches _ (readdir (.sound attr 0) dir) (store, [], 2) _ :=
        (faithful_sound attr).reaches_readdir directory lists.stored lists.parses
      obtain ⟨result, next, ran, rfl, rfl⟩ := run_of_reaches reaches
      exact ⟨.listed _, _, by rw [Fs.perform, ran]; rfl, rfl, lists, trivial⟩

end Refinement

def DirStep (dir : Inum) : Store → DirOp → Store → Prop :=
  fun store op next => ∃ reply, perform attr dir store op = (some reply, next)

theorem lists_of_run {attr : Inum → Bytes → Attr} {dir : Inum} (directory : isdir dir = true)
    {start store : Store} (empty : start dir = some []) {ops : List DirOp}
    (run : Run (Guarded (DirStep attr dir) (Careful dir)) start ops store) :
    Lists dir store (ops.foldl DirOp.apply []) := by
  refine run.history (fun ops store => Lists dir store (ops.foldl DirOp.apply [])) ?_ ?_
  · refine ⟨empty, by decide, ?_, ?_, List.nodup_nil, List.nodup_nil, ?_, ?_⟩
    all_goals
      rintro other ⟨⟩
  · rintro ops store op next lists ⟨careful, reply, performed⟩
    obtain ⟨reply', next', performed', -, after, -⟩ := lists.perform directory careful
    cases performed.symm.trans performed'
    rw [List.foldl_append]
    exact after

/-- In every run of operations on a directory that was empty, with names and a content that
fit, the content parses to the names that were created and not unlinked, with no name twice,
and every operation returns and does what it does to a list of names. -/
theorem directory_refines_names (attr : Inum → Bytes → Attr) {dir : Inum}
    (directory : isdir dir = true) {start store : Store} (empty : start dir = some [])
    {ops : List DirOp} (run : Run (Guarded (DirStep attr dir) (Careful dir)) start ops store) :
    (∃ content, store dir = some content ∧
        parseDir content = some (some ((ops.foldl DirOp.apply []).map Named.entry))) ∧
      ((ops.foldl DirOp.apply []).map Named.name).Nodup ∧
      ∀ op, Careful dir store op → ∃ reply next, perform attr dir store op = (some reply, next) ∧
        op.Answers (ops.foldl DirOp.apply []) reply ∧
        op.Removes (ops.foldl DirOp.apply []) next := by
  have lists := lists_of_run directory empty run
  refine ⟨⟨_, lists.stored, lists.parses⟩, lists.names, fun op careful => ?_⟩
  obtain ⟨reply, next, performed, answers, -, removes⟩ := lists.perform directory careful
  exact ⟨reply, next, performed, answers, removes⟩

/-- A file and a directory are created, and the file is unlinked. -/
theorem directory_refines_names_unlinked :
    ∃ store, Run (Guarded (DirStep (fun _ _ => ⟨0, 0, 0, 0⟩) 1) (Careful 1))
        (Function.update (fun _ => none) 1 (some []))
        [.create [97] 5 0x80000002, .mkdir [98] 3, .unlink [97]] store ∧
      ∃ reply next, perform (fun _ _ => ⟨0, 0, 0, 0⟩) 1 store .readdir = (some reply, next) ∧
        reply = .listed (.ok [⟨[98], 3⟩]) := by
  obtain ⟨store, run⟩ : ∃ store, Run (Guarded (DirStep (fun _ _ => ⟨0, 0, 0, 0⟩) 1) (Careful 1))
      (Function.update (fun _ => none) 1 (some []))
      [.create [97] 5 0x80000002, .mkdir [98] 3, .unlink [97]] store := by
    refine ⟨_, ((Run.refl.tail ⟨?_, _, rfl⟩).tail ⟨?_, _, rfl⟩).tail ⟨trivial, _, rfl⟩⟩
    · exact fun _ => ⟨by decide, by decide, by decide, by decide, by decide, by decide⟩
    · exact fun _ => ⟨by decide, by decide, by decide, by decide, by decide, by decide⟩
  obtain ⟨-, -, serves⟩ := directory_refines_names _ (by decide) rfl run
  obtain ⟨reply, next, performed, answers, -⟩ := serves .readdir trivial
  exact ⟨store, run, reply, next, performed, answers⟩

theorem perform_long {dir issued : Inum} (apart : issued ≠ dir) {start : Store}
    (empty : start dir = some []) {name : Bytes} (long : ¬ name.length < intLimit)
    (fits : name.length + 12 < indexLimit) (size : UInt64) :
    ∃ info store,
      perform attr dir start (.create name size issued) =
        (some (.made (.ok (issued, info))), store) ∧
      perform attr dir store (.lookup name) = (some (.found (.error .noent)), store) := by
  have makes : Reaches _ (create (.sound attr issued) dir name size) (start, [], 2) _ :=
    (faithful_sound attr).reaches_makeNode empty (rfl : parseDir [] = some (some []))
      (fun _ => ⟨apart, by simpa [encodeDir, Dirent.length_encode, Nat.add_comm] using fits⟩)
      false size _
  obtain ⟨result, store, created, told⟩ := run_of_reaches makes
  obtain ⟨info, rfl, -, rfl⟩ := told
  have parses : parseDir (encodeDir [⟨name, issued⟩]) = _ := parseDir_long long fits
  have other : name ++ littleEndian 8 issued.toNat ≠ name := by
    intro same
    simpa using congrArg List.length same
  have looks : Reaches _ (lookup (.sound attr 0) dir name) (Function.update (Function.update start
      issued (some [])) dir (some (encodeDir [⟨name, issued⟩])), [], 2) _ :=
    (faithful_sound attr).reaches_lookup (Function.update_self ..) parses (by simp [other])
  obtain ⟨result, _, looked, rfl, told⟩ := run_of_reaches looks
  rw [List.find?_cons_of_neg (by simpa using other), List.find?_nil] at told
  refine ⟨info, Function.update (Function.update start issued (some [])) dir
    (some (encodeDir [⟨name, issued⟩])), by rw [perform, created]; rfl, ?_⟩
  rw [perform, looked, told]
  rfl

/-- A name of `2 ^ 31` bytes is created and is not found afterwards. -/
theorem long_name_not_found :
    ∃ name info store, nullByte ∉ name ∧
      perform (fun _ _ => ⟨0, 0, 0, 0⟩) 1 (Function.update (fun _ => none) 1 (some []))
        (.create name 0 0x80000002) = (some (.made (.ok (0x80000002, info))), store) ∧
      perform (fun _ _ => ⟨0, 0, 0, 0⟩) 1 store (.lookup name) =
        (some (.found (.error .noent)), store) := by
  obtain ⟨name, plain, length⟩ : ∃ name : Bytes, nullByte ∉ name ∧ name.length = intLimit := by
    refine ⟨List.replicate intLimit 97, fun member => ?_, List.length_replicate⟩
    exact absurd (List.eq_of_mem_replicate member) (by decide)
  have apart : (0x80000002 : Inum) ≠ 1 := by decide
  have long : ¬ name.length < intLimit := length ▸ lt_irrefl intLimit
  have fits : name.length + 12 < indexLimit := by
    rw [length]
    decide
  obtain ⟨info, store, created, missed⟩ := perform_long (fun _ _ => ⟨0, 0, 0, 0⟩) apart
    (Function.update_self ..) long fits 0
  exact ⟨name, info, store, plain, created, missed⟩

end Ctgfs.Fs
