import Ctgfs.Fs.FileContents
import Ctgfs.Fs.FileSystem

/-!
# The FUSE server

The handlers of `fuse.cc` call `yfs_client` and turn what it returns into a reply for the
kernel.  The server handles one request after the other.  A `VERIFY` that fails ends the
process, so there is no reply.
-/

namespace Ctgfs.Fs

open Foundation

inductive Errno where
  | success
  | enoent
  | eexist
  | enosys
  | enotdir
  deriving DecidableEq, Repr

/-- `S_IFDIR | 0777`. -/
def directoryMode : UInt32 := 16895

/-- What is filled in of a `fuse_entry_param`.  The size of a directory is not. -/
structure EntryParam where
  ino : Inum
  mode : UInt32
  nlink : UInt64
  atime : UInt32
  mtime : UInt32
  ctime : UInt32
  size : Option UInt32
  deriving DecidableEq, Repr

def Attr.fileParam (info : Attr) (ino : Inum) : EntryParam :=
  ⟨ino, regularMode, 1, info.atime, info.mtime, info.ctime, some info.size⟩

def Attr.dirParam (info : Attr) (ino : Inum) (nlink : UInt64) : EntryParam :=
  ⟨ino, directoryMode, nlink, info.atime, info.mtime, info.ctime, none⟩

/-- What a handler does in the end.  `getattr` sets `st_ino` and `setattr` does not. -/
inductive FuseReply where
  | err (errno : Errno)
  | attr (ino : Option Inum) (st : Stat)
  | buf (data : Bytes)
  | write (size : UInt64)
  | entry (e : EntryParam)
  | create (e : EntryParam)
  | opened
  deriving DecidableEq, Repr

/-- The requests of the kernel.  `issued` is the number that the master gives to a new node, and
`garbage` is what `createhelper` passes on of an `info` that it has not set. -/
inductive FuseRequest where
  | getattr (ino : Inum)
  | setattr (ino : Inum) (size : Int64) (toSet : UInt32)
  | read (ino : Inum) (size : UInt64) (off : Int64)
  | write (ino : Inum) (buf : Bytes) (off : Int64)
  | create (parent : Inum) (name : Bytes) (garbage : UInt64) (issued : Inum)
  | mknod (parent : Inum) (name : Bytes) (garbage : UInt64) (issued : Inum)
  | lookup (parent : Inum) (name : Bytes)
  | readdir (ino : Inum) (size : UInt64) (off : Int64)
  | openFile (ino : Inum)
  | mkdir (parent : Inum) (name : Bytes) (issued : Inum)
  | unlink (parent : Inum) (name : Bytes)
  deriving DecidableEq, Repr

def FuseRequest.issued : FuseRequest → Inum
  | .create _ _ _ issued | .mknod _ _ _ issued | .mkdir _ _ issued => issued
  | _ => 0

/-- The entries in the buffer for `readdir`: `fuse_dirent_size` and `fuse_add_dirent`. -/
structure DirentFormat where
  size : Nat → Nat
  add : Bytes → Inum → Nat → Bytes
  length : ∀ name ino off, (add name ino off).length = size name.length

/-- `dirbuf_add`: the offset of an entry is that of the entry behind it. -/
def dirbufAdd (format : DirentFormat) (b : Bytes) (entry : Dirent) : Bytes :=
  let name := cStr entry.name
  b ++ format.add name entry.inum (b.length + format.size name.length)

def replyBufLimited (buf : Bytes) (off : Int64) (maxsize : UInt64) : Bytes :=
  let start := off.toUInt64.toNat
  if start < buf.length then (buf.drop start).take (min (buf.length - start) maxsize.toNat)
  else []

def fuseSetAttrSize : UInt32 := 8

section Handlers

variable {m : Type → Type} [Monad m] (lower : Lower m)

def fuseserverGetattr (ino : Inum) : OptionT m FuseReply := do
  if isfile ino then
    match ← getfileInfo lower ino with
    | .error _ => return .err .enoent
    | .ok info => return .attr (some ino) info.stat
  else
    match ← getdirInfo lower ino with
    | .error _ => return .err .enoent
    | .ok info =>
        return .attr (some ino) ⟨directoryMode, 2, info.atime, info.mtime, info.ctime, 0⟩

def fuseserverSetattr (layers : Layers m) (ino : Inum) (size : Int64) (toSet : UInt32) :
    OptionT m FuseReply := do
  if fuseSetAttrSize &&& toSet != 0 then
    if isfile ino then
      match ← setattr layers ino size with
      | .error _ => return .err .enosys
      | .ok st => return .attr none st
    else failure
  else return .err .enosys

def fuseserverRead (ino : Inum) (size : UInt64) (off : Int64) :
    OptionT m FuseReply := do
  if off < 0 then return .err .enosys
  else if isfile ino then
    match ← read lower ino size off with
    | .error .noent => return .err .enoent
    | .error _ => return .err .enosys
    | .ok buf => return .buf buf
  else failure

def fuseserverWrite (ino : Inum) (buf : Bytes) (off : Int64) :
    OptionT m FuseReply := do
  let size := UInt64.ofNat buf.length
  if off < 0 then return .err .enosys
  else if isfile ino then
    match ← write lower ino size off buf with
    | .error _ => return .err .enosys
    | .ok () => return .write size
  else failure

def fuseserverCreatehelper (parent : Inum) (name : Bytes) (garbage : UInt64) :
    OptionT m (Result EntryParam) := do
  return (← create lower parent name garbage).map fun (inum, info) => info.fileParam inum

/-- `fuseserver_create` and `fuseserver_mknod`, which differ in the reply. -/
def fuseserverMake (parent : Inum) (name : Bytes) (garbage : UInt64)
    (reply : EntryParam → FuseReply) : OptionT m FuseReply := do
  match ← fuseserverCreatehelper lower parent name garbage with
  | .ok e => return reply e
  | .error .exist => return .err .eexist
  | .error _ => return .err .enoent

def fuseserverCreate (parent : Inum) (name : Bytes) (garbage : UInt64) : OptionT m FuseReply :=
  fuseserverMake lower parent name garbage .create

def fuseserverMknod (parent : Inum) (name : Bytes) (garbage : UInt64) : OptionT m FuseReply :=
  fuseserverMake lower parent name garbage .entry

/-- `fuseserver_lookup`.  When `lookup` has set nothing, the reply is undefined. -/
def fuseserverLookup (parent : Inum) (name : Bytes) : OptionT m FuseReply := do
  match ← lookup lower parent name with
  | .error .noent => return .err .enoent
  | .error _ => return .err .enosys
  | .ok none => failure
  | .ok (some (inum, isDir, info)) =>
      return .entry (if isDir then info.dirParam inum 2 else info.fileParam inum)

def fuseserverReaddir (format : DirentFormat) (lower : Lower m) (ino : Inum) (size : UInt64)
    (off : Int64) : OptionT m FuseReply := do
  match ← readdir lower ino with
  | .error .notdir => return .err .enotdir
  | .error _ => return .err .enosys
  | .ok files => return .buf (replyBufLimited (files.foldl (dirbufAdd format) []) off size)

def fuseserverMkdir (parent : Inum) (name : Bytes) : OptionT m FuseReply := do
  match ← mkdir lower parent name with
  | .error .exist => return .err .eexist
  | .error _ => return .err .enosys
  | .ok (inum, info) => return .entry (info.dirParam inum 1)

def fuseserverUnlink (parent : Inum) (name : Bytes) : OptionT m FuseReply := do
  match ← unlink lower parent name with
  | .error .noent => return .err .enoent
  | .error _ => return .err .enosys
  | .ok () => return .err .success

def serve (format : DirentFormat) (layers : Layers m) : FuseRequest → OptionT m FuseReply
  | .getattr ino => fuseserverGetattr layers.toLower ino
  | .setattr ino size toSet => fuseserverSetattr layers ino size toSet
  | .read ino size off => fuseserverRead layers.toLower ino size off
  | .write ino buf off => fuseserverWrite layers.toLower ino buf off
  | .create parent name garbage _ => fuseserverCreate layers.toLower parent name garbage
  | .mknod parent name garbage _ => fuseserverMknod layers.toLower parent name garbage
  | .lookup parent name => fuseserverLookup layers.toLower parent name
  | .readdir ino size off => fuseserverReaddir format layers.toLower ino size off
  | .openFile _ => return .opened
  | .mkdir parent name _ => fuseserverMkdir layers.toLower parent name
  | .unlink parent name => fuseserverUnlink layers.toLower parent name

end Handlers

section Abstract

def Describes (ino : Inum) (node : Node) (dirLinks : UInt64) (e : EntryParam) : Prop :=
  e.ino = ino ∧ match node with
    | .file content => e.mode = regularMode ∧ e.nlink = 1 ∧
        e.size = some (UInt32.ofNat content.length)
    | .dir _ => e.mode = directoryMode ∧ e.nlink = dirLinks ∧ e.size = none

namespace FuseRequest

@[simp]
def apply (nodes : Nodes) : FuseRequest → Nodes
  | .setattr ino size toSet =>
      match nodes ino with
      | some (.file content) =>
          if fuseSetAttrSize &&& toSet != 0 then
            Function.update nodes ino (some (.file (resize content size.toInt.toNat)))
          else nodes
      | _ => nodes
  | .write ino buf off =>
      match nodes ino with
      | some (.file content) =>
          if off < 0 then nodes
          else Function.update nodes ino (some (.file (overwrite content off.toInt.toNat buf)))
      | _ => nodes
  | .create parent name _ issued | .mknod parent name _ issued =>
      match nodes parent with
      | some (.dir listing) =>
          if (named listing name).isSome then nodes
          else FileSystem.withNode nodes parent listing ⟨name, issued, false⟩
      | _ => nodes
  | .mkdir parent name issued =>
      match nodes parent with
      | some (.dir listing) =>
          if (named listing name).isSome then nodes
          else FileSystem.withNode nodes parent listing ⟨name, issued, true⟩
      | _ => nodes
  | .unlink parent name =>
      match nodes parent with
      | some (.dir listing) =>
          match named listing name with
          | some entry =>
              if entry.isDir then nodes
              else FileSystem.withoutNode nodes parent listing entry
          | none => nodes
      | _ => nodes
  | .getattr _ | .read _ _ _ | .lookup _ _ | .readdir _ _ _ | .openFile _ => nodes

@[simp]
def Made (nodes : Nodes) (parent : Inum) (entry : Named) (missing : Errno)
    (reply : EntryParam → FuseReply) (answer : FuseReply) : Prop :=
  match nodes parent with
  | some (.dir listing) =>
      if (named listing entry.name).isSome then answer = .err .eexist
      else ∃ e, answer = reply e ∧ Describes entry.inum (.empty entry.isDir) 1 e
  | _ => answer = .err missing

@[simp]
def Answers (format : DirentFormat) (nodes : Nodes) : FuseRequest → FuseReply → Prop
  | .getattr ino, answer =>
      match nodes ino with
      | some (.file content) => ∃ st, answer = .attr (some ino) st ∧ st.mode = regularMode ∧
          st.nlink = 1 ∧ st.size = UInt32.ofNat content.length
      | some (.dir _) => ∃ st, answer = .attr (some ino) st ∧ st.mode = directoryMode ∧
          st.nlink = 2 ∧ st.size = 0
      | none => answer = .err .enoent
  | .setattr ino size toSet, answer =>
      if fuseSetAttrSize &&& toSet != 0 then
        match nodes ino with
        | some (.file _) => ∃ st, answer = .attr none st ∧ st.mode = regularMode ∧
            st.nlink = 1 ∧ st.size.toNat = size.toInt.toNat
        | _ => answer = .err .enosys
      else answer = .err .enosys
  | .read ino size off, answer =>
      if off < 0 then answer = .err .enosys
      else match nodes ino with
        | some (.file content) => answer = .buf (slice content off.toInt.toNat
            (min (off.toInt.toNat + size.toNat) content.length))
        | _ => answer = .err .enosys
  | .write ino buf off, answer =>
      if off < 0 then answer = .err .enosys
      else match nodes ino with
        | some (.file _) => answer = .write (UInt64.ofNat buf.length)
        | _ => answer = .err .enosys
  | .create parent name _ issued, answer =>
      Made nodes parent ⟨name, issued, false⟩ .enoent .create answer
  | .mknod parent name _ issued, answer =>
      Made nodes parent ⟨name, issued, false⟩ .enoent .entry answer
  | .mkdir parent name issued, answer =>
      Made nodes parent ⟨name, issued, true⟩ .enosys .entry answer
  | .lookup parent name, answer =>
      match nodes parent with
      | some (.dir listing) =>
          match named listing name with
          | some entry => ∃ node ∈ nodes entry.inum, ∃ e, answer = .entry e ∧
              Describes entry.inum node 2 e
          | none => answer = .err .enoent
      | _ => answer = .err .enosys
  | .readdir ino size off, answer =>
      match nodes ino with
      | some (.dir listing) => answer = .buf (replyBufLimited
          ((listing.map Named.entry).foldl (dirbufAdd format) []) off size)
      | _ => answer = .err (if isdir ino then .enosys else .enotdir)
  | .openFile _, answer => answer = .opened
  | .unlink parent name, answer =>
      match nodes parent with
      | some (.dir listing) =>
          match named listing name with
          | some entry => answer = .err (if entry.isDir then .enoent else .success)
          | none => answer = .err .enoent
      | _ => answer = .err .enosys

end FuseRequest

def FileSystem.Serves (format : DirentFormat) (fs : FileSystem) (call : FuseRequest × FuseReply)
    (next : FileSystem) : Prop :=
  call.1.Answers format fs.node call.2 ∧ next.node = call.1.apply fs.node

end Abstract

end Ctgfs.Fs
