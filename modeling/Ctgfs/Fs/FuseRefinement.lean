import Ctgfs.Fs.FuseServer

/-!
# The FUSE server serves a file system

The extents represent a file system: a file is stored as it is and a directory as the encoding
of its entries.  Every request that the kernel may make is answered for that file system and
leaves extents that represent what the request makes of it.
-/

namespace Ctgfs.Fs

open Foundation Abstraction

def Node.content : Node → Bytes
  | .file content => content
  | .dir listing => encodeDir (listing.map Named.entry)

/-- The extents are those of the nodes, and none is too long. -/
structure Represents (store : Store) (fs : FileSystem) : Prop where
  stored : ∀ inum, store inum = (fs.node inum).map Node.content
  small : ∀ inum, ∀ node ∈ fs.node inum, node.content.length < indexLimit
  short : ∀ dir entry, Links fs.node dir entry → entry.name.length < intLimit
  plain : ∀ dir entry, Links fs.node dir entry → nullByte ∉ entry.name

/-- What is assumed of a name that is made: it has no null byte, there is room for its entry,
and the number is new and of the right kind. -/
structure MayMake (store : Store) (parent : Inum) (name : Bytes) (issued : Inum)
    (isDir : Bool) : Prop where
  plain : nullByte ∉ name
  short : name.length < intLimit
  fits : ((store parent).getD []).length + name.length + 12 < indexLimit
  fresh : store issued = none
  kind : isdir issued = isDir

/-- What is assumed of a request: the contents of files are read and written, names are looked for
in directories and removed from those that exist, sizes and offsets are of 32 bits, and a new node
may be made. -/
def Permitted (store : Store) : FuseRequest → Prop
  | .setattr ino size toSet => fuseSetAttrSize &&& toSet != 0 →
      isfile ino = true ∧ 0 ≤ size.toInt ∧ size.toInt < indexLimit
  | .read ino _ off => 0 ≤ off.toInt → isfile ino = true ∧ ∀ content ∈ store ino,
      ¬ (content.length < off.toInt.toNat ∧ off.toInt.toNat % indexLimit < content.length)
  | .write ino buf off => 0 ≤ off.toInt → isfile ino = true ∧
      off.toInt + buf.length < indexLimit
  | .create parent name _ issued | .mknod parent name _ issued => isdir parent = true ∧
      ((∀ entry ∈ entriesOf store parent, entry.name ≠ name) →
        MayMake store parent name issued false)
  | .mkdir parent name issued => isdir parent = true ∧
      ((∀ entry ∈ entriesOf store parent, entry.name ≠ name) →
        MayMake store parent name issued true)
  | .lookup parent _ => isdir parent = true
  | .unlink parent _ => isdir parent = true ∧ (store parent).isSome
  | .getattr _ | .readdir _ _ _ | .openFile _ => True

instance (store : Store) (parent : Inum) (name : Bytes) (issued : Inum) (isDir : Bool) :
    Decidable (MayMake store parent name issued isDir) :=
  decidable_of_iff (name.all (· != nullByte) = true ∧ name.length < intLimit ∧
      ((store parent).getD []).length + name.length + 12 < indexLimit ∧ store issued = none ∧
      isdir issued = isDir)
    ⟨fun ⟨plain, short, fits, fresh, kind⟩ =>
        ⟨List.forall_mem_ne'.mp (by simpa using plain), short, fits, fresh, kind⟩,
      fun may => ⟨by simpa using List.forall_mem_ne'.mpr may.plain, may.short, may.fits, may.fresh,
        may.kind⟩⟩

instance (store : Store) : (request : FuseRequest) → Decidable (Permitted store request)
  | .setattr _ _ _ | .write _ _ _ => inferInstanceAs (Decidable (_ → _ ∧ _))
  | .read ino _ _ => inferInstanceAs (Decidable (_ → _ ∧ ∀ content ∈ store ino, _))
  | .create _ _ _ _ | .mknod _ _ _ _ | .mkdir _ _ _ =>
      inferInstanceAs (Decidable (_ ∧ ((∀ entry ∈ entriesOf store _, _) → _)))
  | .lookup _ _ => inferInstanceAs (Decidable (_ = _))
  | .unlink _ _ => inferInstanceAs (Decidable (_ ∧ _))
  | .getattr _ | .readdir _ _ _ | .openFile _ => .isTrue trivial

section Contents

variable {off : Int64}

theorem off_neg_iff : off < 0 ↔ off.toInt < 0 :=
  Int64.lt_iff_toInt_lt

theorem toUInt32_of_small {size : Int64} (positive : 0 ≤ size.toInt)
    (small : size.toInt < indexLimit) : size.toUInt64.toUInt32.toNat = size.toInt.toNat := by
  have offset := unsignedOffset_of_nonneg positive
  rw [unsignedOffset, Nat.mod_eq_of_lt (by omega)] at offset
  exact offset

end Contents

variable {issued : Inum}

namespace Represents

variable {store : Store} {fs : FileSystem} {dir inum : Inum} {listing : List Named}

section

variable (represents : Represents store fs)

include represents

theorem file {content : Bytes} (here : fs.node inum = some (.file content)) :
    store inum = some content := by
  rw [represents.stored, here]
  rfl

theorem absent (nothing : fs.node inum = none) : store inum = none := by
  rw [represents.stored, nothing]
  rfl

theorem lists (here : fs.node dir = some (.dir listing)) :
    Lists dir store listing where
  stored := by
    rw [represents.stored, here]
    rfl
  fits := represents.small dir _ here
  short := fun other member => represents.short dir other ⟨_, here, member⟩
  plain := fun other member => represents.plain dir other ⟨_, here, member⟩
  names := fs.names dir listing here
  inums := fs.inums here
  kinds := by
    intro other member
    obtain ⟨node, stored, kind⟩ := fs.present dir other ⟨_, here, member⟩
    rw [fs.kinds _ node stored, kind]
  present := by
    intro other member
    have links : Links fs.node dir other := ⟨_, here, member⟩
    obtain ⟨node, stored, -⟩ := fs.present dir other links
    refine ⟨FileSystem.apart links, node.content, ?_⟩
    rw [represents.stored, Option.mem_def.mp stored]
    rfl

theorem write {old content : Bytes} (here : fs.node inum = some (.file old))
    (small : content.length < indexLimit) :
    Represents (Function.update store inum (some content)) (fs.write content here) where
  stored := by
    intro other
    by_cases same : other = inum
    · subst same
      simp [FileSystem.write, Node.content]
    · simp only [FileSystem.write, Function.update_of_ne same]
      exact represents.stored other
  small := by
    intro other node stored
    rcases FileSystem.of_update stored with ⟨rfl, ⟨⟩⟩ | before
    · exact small
    · exact represents.small other node before
  short := fun other entry links =>
    represents.short other entry ((FileSystem.links_write here content).mp links)
  plain := fun other entry links =>
    represents.plain other entry ((FileSystem.links_write here content).mp links)

theorem make {name : Bytes} {isDir : Bool} (here : fs.node dir = some (.dir listing))
    (unnamed : named listing name = none) (may : MayMake store dir name issued isDir)
    (fresh : fs.node issued = none) :
    Represents (Function.update (Function.update store issued (some [])) dir
        (some (encodeDir (listing.map Named.entry ++ [⟨name, issued⟩]))))
      (fs.make ⟨name, issued, isDir⟩ here unnamed fresh may.kind) := by
  have empty : ∀ kind, (Node.empty kind).content = [] := by
    intro kind
    cases kind <;> rfl
  have entries : (Node.dir (listing ++ [⟨name, issued, isDir⟩])).content =
      encodeDir (listing.map Named.entry ++ [⟨name, issued⟩]) := by
    rw [Node.content, List.map_append]
    rfl
  have room := may.fits
  rw [(represents.lists here).stored, Option.getD_some] at room
  refine ⟨fun other => ?_, fun other node stored => ?_, fun other entry links => ?_,
    fun other entry links => ?_⟩
  · by_cases parent : other = dir
    · subst parent
      simp only [FileSystem.make, FileSystem.withNode, Function.update_self, Option.map_some,
        entries]
    · by_cases new : other = issued
      · subst new
        simp only [FileSystem.make, FileSystem.withNode, Function.update_of_ne parent,
          Function.update_self, Option.map_some, empty]
      · simp only [FileSystem.make, FileSystem.withNode, Function.update_of_ne parent,
          Function.update_of_ne new]
        exact represents.stored other
  · rcases FileSystem.of_withNode stored with ⟨rfl, rfl⟩ | ⟨rfl, rfl⟩ | before
    · rw [entries, encodeDir_append, List.length_append, encodeDir_cons, List.length_append,
        Dirent.length_encode, ← Nat.add_assoc]
      exact room
    · rw [empty]
      decide
    · exact represents.small other node before
  · rcases (FileSystem.links_withNode here fresh).mp links with before | ⟨rfl, rfl⟩
    · exact represents.short other entry before
    · exact may.short
  · rcases (FileSystem.links_withNode here fresh).mp links with before | ⟨rfl, rfl⟩
    · exact represents.plain other entry before
    · exact may.plain

theorem unlink {entry : Named} (here : fs.node dir = some (.dir listing)) (member : entry ∈ listing)
    (file : entry.isDir = false) :
    Represents (Function.update (Function.update store dir
        (some (encodeDir ((listing.filter (·.name ≠ entry.name)).map Named.entry)))) entry.inum
          none)
      (fs.unlink entry here member file) := by
  have smaller : (encodeDir ((listing.filter (·.name ≠ entry.name)).map Named.entry)).length ≤
      (encodeDir (listing.map Named.entry)).length :=
    length_encodeDir_le (List.filter_sublist.map _)
  refine ⟨fun other => ?_, fun other node stored => ?_, fun other named links => ?_,
    fun other named links => ?_⟩
  · by_cases gone : other = entry.inum
    · subst gone
      simp only [FileSystem.unlink, FileSystem.withoutNode, Function.update_self, Option.map_none]
    · by_cases parent : other = dir
      · subst parent
        simp only [FileSystem.unlink, FileSystem.withoutNode, Function.update_of_ne gone,
          Function.update_self, Option.map_some, Node.content]
      · simp only [FileSystem.unlink, FileSystem.withoutNode, Function.update_of_ne gone,
          Function.update_of_ne parent]
        exact represents.stored other
  · rcases FileSystem.of_withoutNode stored with ⟨rfl, rfl⟩ | before
    · exact smaller.trans_lt (represents.small other _ here)
    · exact represents.small other node before
  · exact represents.short other named
      ((FileSystem.links_withoutNode here member file).mp links).1
  · exact represents.plain other named
      ((FileSystem.links_withoutNode here member file).mp links).1

end

end Represents

section Handlers

/-- What is told of an extent: its size. -/
def Sized (_ : Inum) (content : Bytes) (info : Attr) : Prop :=
  info.size = UInt32.ofNat content.length

variable {State : Type} {m : Type → Type} [Monad m] {sees : State → LayerView → Prop}
  {layers : Inum → Layers (StateT State m)} {format : DirentFormat} {store : Store}
  {fs : FileSystem} {ino parent : Inum} {name : Bytes}

/-- The file system after a request that was answered for it. -/
def Answered (format : DirentFormat) (fs : FileSystem) (request : FuseRequest) (reply : FuseReply)
    (next : Store) : Prop :=
  ∃ after, fs.Serves format (request, reply) after ∧ Represents next after

/-- A request is answered for the file system that the extents represent, and no lock is left
behind. -/
def Handles (sees : State → LayerView → Prop) (layers : Inum → Layers (StateT State m))
    (format : DirentFormat) (store : Store) (fs : FileSystem) (request : FuseRequest) : Prop :=
  Reaches sees (serve format (layers request.issued) request) (store, [], 2)
    (Keeping [] (Answered format fs request))

variable {request : FuseRequest}

/-- The reply of a request that changes nothing. -/
theorem Represents.stays (represents : Represents store fs) {reply : FuseReply} {room : Nat}
    (answers : request.Answers format fs.node reply) (unchanged : request.apply fs.node = fs.node) :
    Reaches sees (pure reply : OptionT (StateT State m) FuseReply) (store, [], room)
      (Keeping [] (Answered format fs request)) :=
  .pure ⟨rfl, fs, ⟨answers, unchanged.symm⟩, represents⟩

/-- Under the number of a file there is a file or nothing. -/
theorem file_or_none (fs : FileSystem) (kind : isfile ino = true) :
    (∃ content, fs.node ino = some (.file content)) ∨ fs.node ino = none := by
  cases here : fs.node ino with
  | none => exact .inr rfl
  | some node =>
      have same := fs.kinds ino node here
      rw [isdir, kind] at same
      cases node with
      | file content => exact .inl ⟨content, rfl⟩
      | dir listing => cases same

theorem dir_or_none (fs : FileSystem) (kind : isfile ino = false) :
    (∃ listing, fs.node ino = some (.dir listing)) ∨ fs.node ino = none := by
  cases here : fs.node ino with
  | none => exact .inr rfl
  | some node =>
      have same := fs.kinds ino node here
      rw [isdir, kind] at same
      cases node with
      | file content => cases same
      | dir listing => exact .inl ⟨listing, rfl⟩

theorem isfile_of_isdir (directory : isdir ino = true) : isfile ino = false := by
  simpa [isdir] using directory

variable [LawfulMonad m] (faithful : Faithful sees Sized fun issued => (layers issued).toLower)
  (represents : Represents store fs)

include faithful represents

theorem handles_getattr : Handles sees layers format store fs (.getattr ino) := by
  rw [Handles, serve, fuseserverGetattr]
  cases kind : isfile ino with
  | true =>
      rw [if_pos rfl]
      refine .bind (faithful.reaches_getInfo List.not_mem_nil) ?_
      rintro result ⟨_, _, _⟩ ⟨rfl, rfl, told⟩
      rcases file_or_none fs kind with ⟨content, here⟩ | here
      · rw [represents.file here] at told
        obtain ⟨info, rfl, size⟩ := told
        refine represents.stays ?_ rfl
        simp only [FuseRequest.Answers, here]
        exact ⟨info.stat, rfl, rfl, rfl, size⟩
      · rw [represents.absent here] at told
        cases told
        exact represents.stays (by simp [here]) rfl
  | false =>
      rw [if_neg Bool.false_ne_true]
      refine .bind faithful.reaches_getdirInfo ?_
      rintro result ⟨_, _, _⟩ ⟨rfl, rfl, told⟩
      rcases dir_or_none fs kind with ⟨listing, here⟩ | here
      · rw [represents.stored, here] at told
        obtain ⟨info, rfl⟩ := told
        refine represents.stays ?_ rfl
        simp only [FuseRequest.Answers, here]
        exact ⟨_, rfl, rfl, rfl, rfl⟩
      · rw [represents.absent here] at told
        cases told
        exact represents.stays (by simp [here]) rfl

theorem handles_setattr (resizes : Resizes sees layers) {size : Int64} {toSet : UInt32}
    (permitted : Permitted store (.setattr ino size toSet)) :
    Handles sees layers format store fs (.setattr ino size toSet) := by
  rw [Handles, serve, fuseserverSetattr]
  cases sets : fuseSetAttrSize &&& toSet != 0 with
  | false =>
      rw [if_neg Bool.false_ne_true]
      refine represents.stays (by simp [sets]) ?_
      simp only [FuseRequest.apply, sets]
      split <;> rfl
  | true =>
      obtain ⟨kind, positive, small⟩ := permitted sets
      rw [if_pos rfl, if_pos kind]
      refine .bind (faithful.reaches_setattr resizes) ?_
      rintro result ⟨next, _, _⟩ ⟨rfl, told⟩
      rcases file_or_none fs kind with ⟨content, here⟩ | here
      · rw [represents.file here] at told
        obtain ⟨info, rfl, sized, rfl⟩ := told
        rw [Sized, length_resize, toUInt32_of_small positive small] at sized
        rw [toUInt32_of_small positive small]
        refine .pure ⟨rfl, fs.write (resize content size.toInt.toNat) here, ⟨?_, ?_⟩,
          represents.write here (by rw [length_resize]; omega)⟩
        · simp only [FuseRequest.Answers, sets, here, if_true]
          refine ⟨info.stat, rfl, rfl, rfl, ?_⟩
          change info.size.toNat = _
          rw [sized]
          exact UInt32.toNat_ofNat_of_lt' (by change _ < indexLimit; omega)
        · simp [FileSystem.write, here, sets]
      · rw [represents.absent here] at told
        obtain ⟨rfl, rfl⟩ := told
        exact represents.stays (by simp [sets, here]) (by simp [here])

theorem handles_read {size : UInt64} {off : Int64}
    (permitted : Permitted store (.read ino size off)) :
    Handles sees layers format store fs (.read ino size off) := by
  rw [Handles, serve, fuseserverRead]
  by_cases negative : off < 0
  · simp only [negative, if_true]
    exact represents.stays (by simp [negative]) rfl
  have positive : 0 ≤ off.toInt := by
    rw [off_neg_iff] at negative
    omega
  obtain ⟨kind, near⟩ := permitted positive
  simp only [negative, if_false, kind, if_true]
  have reads : ∀ content ∈ store ino, readContent content size off =
      some (slice content off.toInt.toNat
        (min (off.toInt.toNat + size.toNat) content.length)) :=
    fun content stored => readContent_eq positive (near content stored)
  refine .bind (faithful.reaches_read fun content stored => ?_) ?_
  · rw [reads content stored]
    rfl
  rintro result ⟨_, _, _⟩ ⟨rfl, rfl, told⟩
  rcases file_or_none fs kind with ⟨content, here⟩ | here
  · rw [represents.file here] at told
    obtain ⟨buf, read, rfl⟩ := told
    rw [reads content (represents.file here)] at read
    cases read
    exact represents.stays (by simp [negative, here]) rfl
  · rw [represents.absent here] at told
    cases told
    exact represents.stays (by simp [negative, here]) rfl

theorem handles_write {buf : Bytes} {off : Int64}
    (permitted : Permitted store (.write ino buf off)) :
    Handles sees layers format store fs (.write ino buf off) := by
  rw [Handles, serve, fuseserverWrite]
  by_cases negative : off < 0
  · simp only [negative, if_true]
    refine represents.stays (by simp [negative]) ?_
    simp only [FuseRequest.apply, negative, if_true]
    split <;> rfl
  have positive : 0 ≤ off.toInt := by
    rw [off_neg_iff] at negative
    omega
  obtain ⟨kind, fits⟩ := permitted positive
  simp only [negative, if_false, kind, if_true]
  have limit : indexLimit = 4294967296 := rfl
  have space : off.toInt.toNat + buf.length < indexLimit := by omega
  have whole : (UInt64.ofNat buf.length).toNat = buf.length := by
    rw [UInt64.toNat_ofNat', Nat.mod_eq_of_lt]
    omega
  have writes : ∀ content ∈ store ino,
      writeContent content (UInt64.ofNat buf.length) off buf =
        some (overwrite content off.toInt.toNat buf) ∧
      (overwrite content off.toInt.toNat buf).length < indexLimit := by
    intro content stored
    rw [represents.stored] at stored
    obtain ⟨node, here, rfl⟩ := Option.map_eq_some_iff.mp stored
    have small := represents.small ino node here
    exact ⟨writeContent_overwrite positive whole small space, length_overwrite_lt small space⟩
  refine .bind (faithful.reaches_write fun content stored => ⟨_, writes content stored⟩) ?_
  rintro result ⟨next, _, _⟩ ⟨rfl, told⟩
  rcases file_or_none fs kind with ⟨content, here⟩ | here
  · rw [represents.file here] at told
    obtain ⟨written, made, rfl, rfl⟩ := told
    obtain ⟨defined, small⟩ := writes content (represents.file here)
    rw [defined] at made
    cases made
    refine .pure ⟨rfl, fs.write _ here, ⟨?_, ?_⟩, represents.write here small⟩
    · simp [negative, here]
    · simp [FileSystem.write, here, negative]
  · rw [represents.absent here] at told
    obtain ⟨rfl, rfl⟩ := told
    exact represents.stays (by simp [negative, here]) (by simp [here])

/-- `fuseserver_create`, `fuseserver_mknod` and `fuseserver_mkdir`, which turn the result of
`create` or `mkdir` into a reply. -/
theorem reaches_make {isDir : Bool} {missing : Errno} {reply : EntryParam → FuseReply}
    {param : Attr → EntryParam}
    {handler : Result (Inum × Attr) → OptionT (StateT State m) FuseReply}
    (permitted : isdir parent = true ∧ ((∀ entry ∈ entriesOf store parent, entry.name ≠ name) →
      MayMake store parent name issued isDir))
    (exist : handler (.error .exist) = pure (.err .eexist))
    (ioerr : handler (.error .ioerr) = pure (.err missing))
    (ok : ∀ info, handler (.ok (issued, info)) = pure (reply (param info)))
    (describes : ∀ info : Attr, info.size = 0 → Describes issued (.empty isDir) 1 (param info))
    (answers : ∀ answer, FuseRequest.Made fs.node parent ⟨name, issued, isDir⟩ missing reply
      answer → request.Answers format fs.node answer)
    (effect : request.apply fs.node = match fs.node parent with
      | some (.dir listing) => if (named listing name).isSome then fs.node
          else FileSystem.withNode fs.node parent listing ⟨name, issued, isDir⟩
      | _ => fs.node) (size : UInt64) (undo : Inum → List Inum) :
    Reaches sees (makeNode (layers issued).toLower parent name isDir size undo >>= handler)
      (store, [], 2) (Keeping [] (Answered format fs request)) := by
  obtain ⟨directory, may⟩ := permitted
  rcases dir_or_none fs (isfile_of_isdir directory) with ⟨listing, here⟩ | nothing
  · have lists := represents.lists here
    have careful : named listing name = none → MayMake store parent name issued isDir :=
      fun absent => may (lists.unnamed absent)
    refine .bind (reaches_made faithful lists (fun absent => ⟨?_, (careful absent).fits⟩) isDir
      size undo) ?_
    · rintro rfl
      cases lists.stored.symm.trans (careful absent).fresh
    rintro result ⟨next, _, _⟩ ⟨rfl, told⟩
    cases found : named listing name with
    | some entry =>
        rw [found] at told
        obtain ⟨rfl, rfl⟩ := told
        rw [exist]
        exact represents.stays (answers _ (by simp [here, found]))
          (by rw [effect]; simp [here, found])
    | none =>
        rw [found] at told
        obtain ⟨info, rfl, sized, rfl⟩ := told
        have fresh : fs.node issued = none := by
          have nothing := represents.stored issued
          rw [(careful found).fresh] at nothing
          exact Option.map_eq_none_iff.mp nothing.symm
        rw [ok]
        refine .pure ⟨rfl, _, ⟨answers _ ?_, ?_⟩, represents.make here found (careful found) fresh⟩
        · simp only [FuseRequest.Made, here, found]
          exact ⟨param info, rfl, describes info sized⟩
        · rw [effect]
          simp [here, found, FileSystem.make]
  · refine .bind (faithful.reaches_absent (represents.absent nothing)) ?_
    rintro _ ⟨_, _, _⟩ ⟨rfl, rfl, rfl⟩
    rw [ioerr]
    exact represents.stays (answers _ (by simp [nothing])) (by rw [effect]; simp [nothing])

theorem reaches_fuseserverMake {garbage : UInt64} {reply : EntryParam → FuseReply}
    (permitted : Permitted store (.create parent name garbage issued))
    (answers : ∀ answer, FuseRequest.Made fs.node parent ⟨name, issued, false⟩ .enoent reply
      answer → request.Answers format fs.node answer) (effect : request.apply fs.node =
      (FuseRequest.create parent name garbage issued).apply fs.node) :
    Reaches sees (fuseserverMake (layers issued).toLower parent name garbage reply) (store, [], 2)
      (Keeping [] (Answered format fs request)) := by
  rw [fuseserverMake, fuseserverCreatehelper, bind_assoc]
  simp only [pure_bind]
  exact reaches_make faithful represents permitted rfl rfl (fun _ => rfl)
    (fun info sized => ⟨rfl, rfl, rfl, congrArg some sized⟩) answers effect _ _

theorem handles_mkdir (permitted : Permitted store (.mkdir parent name issued)) :
    Handles sees layers format store fs (.mkdir parent name issued) := by
  rw [Handles, serve, fuseserverMkdir]
  refine reaches_make faithful represents permitted rfl rfl (fun _ => rfl)
    (fun _ _ => ⟨rfl, rfl, rfl, rfl⟩) ?_ rfl _ _
  exact fun _ made => made

theorem handles_lookup (directory : isdir parent = true) :
    Handles sees layers format store fs (.lookup parent name) := by
  rw [Handles, serve, fuseserverLookup]
  rcases dir_or_none fs (isfile_of_isdir directory) with ⟨listing, here⟩ | nothing
  · refine .bind (reaches_looked faithful (represents.lists here) _ name) ?_
    rintro result ⟨_, _, _⟩ ⟨rfl, rfl, told⟩
    cases found : named listing name with
    | none =>
        rw [found] at told
        cases told
        exact represents.stays (by simp [here, found]) rfl
    | some entry =>
        rw [found] at told
        obtain ⟨info, content, stored, sized, rfl⟩ := told
        have member : entry ∈ listing := List.mem_of_find?_eq_some found
        obtain ⟨node, present, kind⟩ := fs.present parent entry ⟨_, here, member⟩
        have same := represents.stored entry.inum
        rw [Option.mem_def.mp present, Option.map_some] at same
        refine represents.stays ?_ rfl
        simp only [FuseRequest.Answers, here, found]
        refine ⟨node, present, _, rfl, ?_⟩
        rw [← kind]
        cases node with
        | file content =>
            cases stored.symm.trans same
            exact ⟨rfl, rfl, rfl, congrArg some sized⟩
        | dir inner => exact ⟨rfl, rfl, rfl, rfl⟩
  · refine .bind (faithful.reaches_absent (represents.absent nothing)) ?_
    rintro _ ⟨_, _, _⟩ ⟨rfl, rfl, rfl⟩
    exact represents.stays (by simp [nothing]) rfl

theorem handles_readdir (size : UInt64) (off : Int64) :
    Handles sees layers format store fs (.readdir ino size off) := by
  rw [Handles, serve, fuseserverReaddir]
  cases kind : isfile ino with
  | true =>
      rw [readdir, if_neg (by simp [isdir, kind]), pure_bind]
      rcases file_or_none fs kind with ⟨content, here⟩ | here <;>
        exact represents.stays (by simp [here, isdir, kind]) rfl
  | false =>
      have directory : isdir ino = true := by simp [isdir, kind]
      rcases dir_or_none fs kind with ⟨listing, here⟩ | here
      · have lists := represents.lists here
        refine .bind (faithful.reaches_readdir directory lists.stored lists.parses) ?_
        rintro _ ⟨_, _, _⟩ ⟨rfl, rfl, rfl⟩
        exact represents.stays (by simp [here]) rfl
      · rw [readdir, if_pos directory]
        refine .bind (faithful.reaches_absent (represents.absent here)) ?_
        rintro _ ⟨_, _, _⟩ ⟨rfl, rfl, rfl⟩
        exact represents.stays (by simp [here, directory]) rfl

theorem handles_unlink (permitted : Permitted store (.unlink parent name)) :
    Handles sees layers format store fs (.unlink parent name) := by
  obtain ⟨directory, there⟩ := permitted
  rw [Handles, serve, fuseserverUnlink]
  rcases dir_or_none fs (isfile_of_isdir directory) with ⟨listing, here⟩ | nothing
  · refine .bind (reaches_unlinked faithful (represents.lists here) _ name) ?_
    rintro result ⟨next, _, _⟩ ⟨rfl, told⟩
    cases found : named listing name with
    | none =>
        rw [found] at told
        obtain ⟨rfl, rfl⟩ := told
        exact represents.stays (by simp [here, found]) (by simp [here, found])
    | some entry =>
        rw [found] at told
        have member : entry ∈ listing := List.mem_of_find?_eq_some found
        cases file : entry.isDir with
        | true =>
            simp only [file] at told
            obtain ⟨rfl, rfl⟩ := told
            exact represents.stays (by simp [here, found, file])
              (by simp [here, found, file])
        | false =>
            simp only [file] at told
            obtain ⟨rfl, rfl⟩ := told
            refine .pure ⟨rfl, fs.unlink entry here member file, ⟨?_, ?_⟩,
              represents.unlink here member file⟩
            · simp [here, found, file]
            · simp [FileSystem.unlink, here, found, file]
  · rw [represents.absent nothing] at there
    cases there

theorem handles (resizes : Resizes sees layers) (format : DirentFormat)
    (permitted : Permitted store request) : Handles sees layers format store fs request := by
  cases request with
  | getattr => exact handles_getattr faithful represents
  | setattr => exact handles_setattr faithful represents resizes permitted
  | read => exact handles_read faithful represents permitted
  | write => exact handles_write faithful represents permitted
  | create | mknod =>
      exact reaches_fuseserverMake faithful represents permitted (fun _ made => made) rfl
  | lookup => exact handles_lookup faithful represents permitted
  | readdir ino size off => exact handles_readdir faithful represents size off
  | openFile => exact represents.stays rfl rfl
  | mkdir => exact handles_mkdir faithful represents permitted
  | unlink => exact handles_unlink faithful represents permitted

end Handlers

end Ctgfs.Fs
