import Ctgfs.Foundation.LockTrace
import Ctgfs.Fs.FileOps

/-!
# The locks of the file system operations

Every operation acquires locks and has many ways to return.  Here the layers below answer as they
like, a release apart, and the calls of an operation are kept in a trace.
-/

namespace Ctgfs.Fs

open Foundation

inductive LowerCall where
  | get (inum : Inum)
  | put (inum : Inum) (buf : Bytes)
  | getattr (inum : Inum)
  | setattr (inum : Inum) (size : UInt32)
  | remove (inum : Inum)
  | getInumByName (parent : Inum) (name : Bytes) (isDir : Bool) (size : UInt64)
  deriving DecidableEq, Repr

abbrev FsTrace := List (LockEvent Inum LowerCall)

structure Answers where
  acquire : Nat → Inum → Bool
  get : Nat → Inum → Except Failure Bytes
  put : Nat → Inum → Bytes → Bool
  getattr : Nat → Inum → Except Failure Attr
  setattr : Nat → Inum → UInt32 → Bool
  remove : Nat → Inum → Bool
  getInumByName : Nat → Inum → Bytes → Bool → UInt64 → Inum

def ask {α : Type} (answer : Nat → α) (call : LowerCall) : StateM FsTrace α :=
  fun trace => (answer trace.length, trace ++ [.other call])

def Answers.layers (answers : Answers) : Layers (StateM FsTrace) where
  initExtentClient _ := pure ()
  acquire inum := fun trace =>
    (answers.acquire trace.length inum,
      trace ++ [.acquire inum (answers.acquire trace.length inum)])
  release inum := fun trace => (true, trace ++ [.release inum])
  get inum := ask (answers.get · inum) (.get inum)
  put inum buf := ask (answers.put · inum buf) (.put inum buf)
  getattr inum := ask (answers.getattr · inum) (.getattr inum)
  setattr inum size := ask (answers.setattr · inum size) (.setattr inum size)
  remove inum := ask (answers.remove · inum) (.remove inum)
  getInumByName parent name isDir size :=
    ask (answers.getInumByName · parent name isDir size) (.getInumByName parent name isDir size)

inductive FsOp where
  | setattr (inum : Inum) (size : Int64)
  | getfileInfo (inum : Inum)
  | getdirInfo (inum : Inum)
  | create (parent : Inum) (name : Bytes) (size : UInt64)
  | read (inum : Inum) (size : UInt64) (off : Int64)
  | write (inum : Inum) (size : UInt64) (off : Int64) (buf : Bytes)
  | lookup (parent : Inum) (name : Bytes)
  | readdir (inum : Inum)
  | mkdir (parent : Inum) (name : Bytes)
  | unlink (parent : Inum) (name : Bytes)
  deriving DecidableEq, Repr

def FsOp.exec {m : Type → Type} [Monad m] (layers : Layers m) : FsOp → OptionT m Unit
  | .setattr inum size => discard (Fs.setattr layers inum size)
  | .getfileInfo inum => discard (Fs.getfileInfo layers.toLower inum)
  | .getdirInfo inum => discard (Fs.getdirInfo layers.toLower inum)
  | .create parent name size => discard (Fs.create layers.toLower parent name size)
  | .read inum size off => discard (Fs.read layers.toLower inum size off)
  | .write inum size off buf => discard (Fs.write layers.toLower inum size off buf)
  | .lookup parent name => discard (Fs.lookup layers.toLower parent name)
  | .readdir inum => discard (Fs.readdir layers.toLower inum)
  | .mkdir parent name => discard (Fs.mkdir layers.toLower parent name)
  | .unlink parent name => discard (Fs.unlink layers.toLower parent name)

def Answers.RefusesNode (answers : Answers) (parent : Inum) (name : Bytes) (isDir : Bool)
    (size : UInt64) : Prop :=
  answers.acquire 0 parent = true ∧
    ∃ data files, answers.get 1 parent = .ok data ∧ parseDir data = some (some files) ∧
      files.any (·.name = name) = false ∧
      answers.acquire 3 (answers.getInumByName 2 parent name isDir size) = false

/-- The lock of a directory is left behind: by `create` and `mkdir` when they cannot lock the new
node, and by `unlink` when it cannot read the directory. -/
def FsOp.Leaks (answers : Answers) : FsOp → Prop
  | .create parent name size => answers.RefusesNode parent name false size
  | .mkdir parent name => answers.RefusesNode parent name true 0
  | .unlink parent _ =>
      answers.acquire 0 parent = true ∧ ∃ failure, answers.get 1 parent = .error failure
  | _ => False

section Rules

variable {answers : Answers} {α β : Type} {held start : Multiset Inum} {trace : FsTrace}

theorem leaves_ask {call : StateM FsTrace α} {other : LowerCall}
    {body : α → Traced Inum LowerCall β} (here : replay 0 trace = some start)
    (asks : (call trace).2 = trace ++ [.other other])
    (next : replay 0 (call trace).2 = some start →
      Leaves held (body (call trace).1) (call trace).2) :
    Leaves held (liftM call >>= body) trace := by
  apply leaves_call
  apply next
  rw [asks, replay_concat, here]
  rfl

variable {inum : Inum}

theorem leaves_release {body : Bool → Traced Inum LowerCall β}
    (here : replay 0 trace = some (inum ::ₘ start))
    (next : replay 0 (trace ++ [.release inum]) = some start →
      Leaves held (body true) (trace ++ [.release inum])) :
    Leaves held (liftM (answers.layers.release inum) >>= body) trace := by
  apply leaves_call
  apply next
  rw [replay_concat, here, Option.bind_some, LockEvent.apply,
    if_pos (Multiset.mem_cons_self _ _), Multiset.erase_cons_head]

theorem leaves_finish {locks : List Inum} (here : replay 0 trace = some (↑locks + held))
    (result : Result α) : Leaves held (finish answers.layers.toLower locks result) trace := by
  induction locks generalizing trace with
  | nil => exact leaves_pure (here.trans (by rw [Multiset.coe_nil, Multiset.zero_add])) result
  | cons inum rest ih =>
      rw [← Multiset.cons_coe, Multiset.cons_add] at here
      exact leaves_release here ih

theorem leaves_locked {body : Traced Inum LowerCall (Result α)} (here : replay 0 trace = some start)
    (refused : answers.acquire trace.length inum = false → start = held)
    (granted : answers.acquire trace.length inum = true →
      replay 0 (trace ++ [.acquire inum true]) = some (inum ::ₘ start) →
        Leaves held body (trace ++ [.acquire inum true])) :
    Leaves held (locked answers.layers.toLower inum body) trace := by
  apply leaves_call
  change Leaves held (if answers.acquire trace.length inum = true then body else _)
    (trace ++ [.acquire inum (answers.acquire trace.length inum)])
  cases said : answers.acquire trace.length inum with
  | false =>
      rw [if_neg Bool.false_ne_true]
      apply leaves_pure
      rw [replay_concat, here, ← refused said]
      rfl
  | true =>
      rw [if_pos rfl]
      apply granted said
      rw [replay_concat, here]
      rfl

theorem leaves_connected {body : Traced Inum LowerCall (Result α)}
    (next : Leaves held (locked answers.layers.toLower inum body) trace) :
    Leaves held (connected answers.layers.toLower inum body) trace :=
  next

theorem leaves_finish_one (here : replay 0 trace = some (inum ::ₘ held)) (result : Result α) :
    Leaves held (finish answers.layers.toLower [inum] result) trace := by
  apply leaves_finish
  rw [here, Multiset.coe_singleton, Multiset.singleton_add]

theorem leaves_finish_two {first second : Inum}
    (here : replay 0 trace = some (first ::ₘ second ::ₘ held)) (result : Result α) :
    Leaves held (finish answers.layers.toLower [first, second] result) trace := by
  apply leaves_finish
  rw [here, ← Multiset.cons_coe, Multiset.cons_add, Multiset.coe_singleton,
    Multiset.singleton_add]

theorem leaves_locked_get {body : Bytes → Traced Inum LowerCall (Result α)}
    (here : replay 0 trace = some held)
    (next : ∀ data after, replay 0 after = some (inum ::ₘ held) → Leaves held (body data) after) :
    Leaves held (connected answers.layers.toLower inum do
      let .ok data ← answers.layers.get inum
        | finish answers.layers.toLower [inum] (.error .ioerr)
      body data) trace := by
  apply leaves_connected
  apply leaves_locked here (fun _ => rfl)
  intro _ acquired
  apply leaves_ask acquired rfl
  intro asked
  split
  · exact next _ _ asked
  · exact leaves_finish_one asked _

theorem leaves_discard {program : Traced Inum LowerCall α} (leaves : Leaves held program trace) :
    Leaves held (discard program) trace :=
  leaves.bind fun _ _ here => leaves_pure here ()

end Rules

section Operations

variable (answers : Answers) {held : Multiset Inum} {trace : FsTrace}

section

variable (here : replay 0 trace = some held)

include here

theorem leaves_getInfo (inum : Inum) : Leaves held (getInfo answers.layers.toLower inum) trace := by
  apply leaves_connected
  apply leaves_locked here (fun _ => rfl)
  intro _ acquired
  apply leaves_ask acquired rfl
  intro asked
  exact leaves_finish_one asked _

theorem leaves_getdirInfo (inum : Inum) :
    Leaves held (getdirInfo answers.layers.toLower inum) trace :=
  (leaves_getInfo answers here inum).bind fun _ _ here => leaves_pure here _

theorem leaves_setattr (inum : Inum) (size : Int64) :
    Leaves held (setattr answers.layers inum size) trace := by
  apply leaves_connected
  apply leaves_locked here (fun _ => rfl)
  intro _ acquired
  apply leaves_ask acquired rfl
  intro changed
  split
  · apply leaves_ask changed rfl
    intro asked
    split
    · exact leaves_finish_one asked _
    · exact leaves_finish_one asked _
  · exact leaves_finish_one changed _

theorem leaves_read (inum : Inum) (size : UInt64) (off : Int64) :
    Leaves held (read answers.layers.toLower inum size off) trace := by
  apply leaves_locked_get here
  intro data after asked
  apply leaves_compute
  intro buf _
  exact leaves_finish_one asked _

theorem leaves_write (inum : Inum) (size : UInt64) (off : Int64) (buf : Bytes) :
    Leaves held (write answers.layers.toLower inum size off buf) trace := by
  apply leaves_locked_get here
  intro data after asked
  apply leaves_compute
  intro origin _
  apply leaves_ask asked rfl
  intro stored
  split
  · exact leaves_finish_one stored _
  · exact leaves_finish_one stored _

theorem leaves_lookup (parent : Inum) (name : Bytes) :
    Leaves held (lookup answers.layers.toLower parent name) trace := by
  apply leaves_locked_get here
  intro data after asked
  apply leaves_compute
  intro files _
  split
  · split
    · exact leaves_finish_one asked _
    · apply (leaves_getInfo answers asked _).bind
      intro info after informed
      split
      · exact leaves_finish_one informed _
      · exact leaves_finish_one informed _
  · exact leaves_finish_one asked _

theorem leaves_readdir (inum : Inum) : Leaves held (readdir answers.layers.toLower inum) trace := by
  rw [readdir]
  split
  · apply leaves_locked_get here
    intro data after asked
    apply leaves_compute
    intro files _
    split
    · exact leaves_finish_one asked _
    · exact leaves_finish_one asked _
  · exact leaves_pure here _

end

variable {parent : Inum}

theorem leaves_makeNode {name : Bytes} {isDir : Bool} {size : UInt64}
    (granted : ¬ answers.RefusesNode parent name isDir size) {undo : Inum → List Inum}
    (both : ∀ inum, (undo inum : Multiset Inum) = inum ::ₘ parent ::ₘ 0) :
    Leaves 0 (makeNode answers.layers.toLower parent name isDir size undo) [] := by
  apply leaves_connected
  apply leaves_locked replay_nil (fun _ => rfl)
  intro locked acquired
  apply leaves_ask acquired rfl
  intro asked
  split
  next data said =>
    apply leaves_compute
    intro files parses
    split
    next files =>
      split
      next listed => exact leaves_finish_one asked _
      next new =>
        apply leaves_ask asked rfl
        intro named
        apply leaves_locked named
        · intro refused
          exact absurd ⟨locked, data, files, said, parses, by simpa using new, refused⟩ granted
        intro _ acquired
        apply leaves_ask acquired rfl
        intro stored
        split
        · apply leaves_ask stored rfl
          intro listed
          split
          · apply leaves_ask listed rfl
            intro informed
            split
            · exact leaves_finish_two informed _
            · exact leaves_finish_two informed _
          · exact leaves_finish_two listed _
        · apply leaves_finish
          rw [stored, both, Multiset.add_zero]
    next broken => exact leaves_finish_one asked _
  next failed => exact leaves_finish_one asked _

theorem leaves_makeNode_refused {name : Bytes} {isDir : Bool} {size : UInt64}
    (refused : answers.RefusesNode parent name isDir size) (undo : Inum → List Inum) :
    Leaves {parent} (makeNode answers.layers.toLower parent name isDir size undo) [] := by
  obtain ⟨locked, data, files, said, parses, new, unlocked⟩ := refused
  apply leaves_connected
  apply leaves_locked replay_nil (fun unlocked => absurd (unlocked.symm.trans locked) (by simp))
  intro _ acquired
  apply leaves_ask acquired rfl
  intro asked
  have got : (answers.layers.get parent [.acquire parent true]).1 = .ok data := said
  rw [List.nil_append, got]
  apply leaves_compute
  intro listing parsed
  obtain rfl := Option.some.inj (parses.symm.trans parsed)
  dsimp only
  rw [if_neg (by simpa using new)]
  apply leaves_ask asked rfl
  intro named
  apply leaves_locked named (fun _ => rfl)
  intro granted
  exact absurd (unlocked.symm.trans granted) (by simp)

theorem leaves_unlink (readable : ¬ (answers.acquire 0 parent = true ∧
      ∃ failure, answers.get 1 parent = .error failure)) (name : Bytes) :
    Leaves 0 (unlink answers.layers.toLower parent name) [] := by
  apply leaves_connected
  apply leaves_locked replay_nil (fun _ => rfl)
  intro locked acquired
  apply leaves_ask acquired rfl
  intro asked
  split
  next data said =>
    apply leaves_compute
    intro files _
    split
    · split
      · exact leaves_finish_one asked _
      · split
        · exact leaves_finish_one asked _
        · apply leaves_ask asked rfl
          intro stored
          split
          · apply leaves_release stored
            intro released
            rw [if_pos rfl]
            apply leaves_connected
            apply leaves_locked released (fun _ => rfl)
            intro _ acquired
            apply leaves_ask acquired rfl
            intro removed
            exact leaves_finish_one removed _
          · exact leaves_finish_one stored _
    · exact leaves_finish_one asked _
  next result failed =>
    cases said : answers.get 1 parent with
    | error failure => exact absurd ⟨locked, failure, said⟩ readable
    | ok data => exact absurd said (failed data)

theorem leaves_unlink_unread (locked : answers.acquire 0 parent = true)
    (unread : ∃ failure, answers.get 1 parent = .error failure) (name : Bytes) :
    Leaves {parent} (unlink answers.layers.toLower parent name) [] := by
  obtain ⟨failure, said⟩ := unread
  apply leaves_connected
  apply leaves_locked replay_nil (fun unlocked => absurd (unlocked.symm.trans locked) (by simp))
  intro _ acquired
  apply leaves_ask acquired rfl
  intro asked
  have got : (answers.layers.get parent [.acquire parent true]).1 = .error failure := said
  rw [List.nil_append, got]
  exact leaves_pure asked _

theorem FsOp.leaves_none {answers : Answers} {op : FsOp} (tight : ¬ op.Leaks answers) :
    Leaves 0 (op.exec answers.layers) [] := by
  cases op with
  | setattr inum size => exact leaves_discard (leaves_setattr answers replay_nil inum size)
  | getfileInfo inum => exact leaves_discard (leaves_getInfo answers replay_nil inum)
  | getdirInfo inum => exact leaves_discard (leaves_getdirInfo answers replay_nil inum)
  | create parent name size =>
      exact leaves_discard (leaves_makeNode answers tight fun inum => Multiset.pair_comm _ _)
  | read inum size off => exact leaves_discard (leaves_read answers replay_nil inum size off)
  | write inum size off buf =>
      exact leaves_discard (leaves_write answers replay_nil inum size off buf)
  | lookup parent name => exact leaves_discard (leaves_lookup answers replay_nil parent name)
  | readdir inum => exact leaves_discard (leaves_readdir answers replay_nil inum)
  | mkdir parent name => exact leaves_discard (leaves_makeNode answers tight fun inum => rfl)
  | unlink parent name => exact leaves_discard (leaves_unlink answers tight name)

theorem FsOp.leaves_directory {answers : Answers} {op : FsOp} (leaks : op.Leaks answers) :
    ∃ parent, Leaves {parent} (op.exec answers.layers) [] := by
  cases op with
  | create parent name size =>
      exact ⟨parent, leaves_discard (leaves_makeNode_refused answers leaks _)⟩
  | mkdir parent name =>
      exact ⟨parent, leaves_discard (leaves_makeNode_refused answers leaks _)⟩
  | unlink parent name =>
      exact ⟨parent, leaves_discard (leaves_unlink_unread answers leaks.1 leaks.2 name)⟩
  | setattr | getfileInfo | getdirInfo | read | write | lookup | readdir => exact leaks.elim

end Operations

/-- Whatever the layers below answer, an operation that returns has balanced its locks unless it
leaves the lock of the directory behind in one of the three ways. -/
theorem operation_balances_locks (answers : Answers) (op : FsOp) {trace : FsTrace}
    (returned : (op.exec answers.layers).run [] = (some (), trace)) :
    LockBalanced trace ↔ ¬ op.Leaks answers := by
  constructor
  · intro balanced leaks
    obtain ⟨parent, leaves⟩ := FsOp.leaves_directory leaks
    have held := Option.some.inj (balanced.symm.trans (leaves () trace returned))
    exact Multiset.singleton_ne_zero parent held.symm
  · intro tight
    exact FsOp.leaves_none tight () trace returned

def openAnswers : Answers where
  acquire _ _ := true
  get _ _ := .ok []
  put _ _ _ := true
  getattr _ _ := .ok ⟨0, 0, 0, 0⟩
  setattr _ _ _ := true
  remove _ _ := true
  getInumByName _ _ _ _ _ := 2147483650

theorem operation_balances_locks_create :
    ∃ trace, ((FsOp.create 1 [] 0).exec openAnswers.layers).run [] = (some (), trace) ∧
      LockBalanced trace := by
  have tight : ¬ (FsOp.create 1 [] 0).Leaks openAnswers := by
    rintro ⟨-, data, files, -, -, -, refused⟩
    exact Bool.noConfusion refused
  exact ⟨_, rfl, (operation_balances_locks openAnswers (.create 1 [] 0) rfl).mpr tight⟩

/-- A directory that cannot be read stays locked. -/
theorem unlink_keeps_lock :
    ((FsOp.unlink 1 []).exec
        ({ openAnswers with get := fun _ _ => .error .rpc } : Answers).layers).run [] =
      (some (), [.acquire 1 true, .other (.get 1)]) ∧
    ¬ LockBalanced ([.acquire 1 true, .other (.get 1)] : FsTrace) :=
  ⟨rfl, by decide⟩

end Ctgfs.Fs
