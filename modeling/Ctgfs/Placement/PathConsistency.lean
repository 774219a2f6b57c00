import Ctgfs.Foundation.Runs
import Ctgfs.Placement.Master

/-!
# The paths of the master

For every number, the master keeps the name that it was asked with, where the path from the
root belongs.  The two are the same for what is created in the root, and for nothing else.
-/

namespace Ctgfs.Placement

open Foundation

def rootInum : UInt64 := 1

/-- What `AskForIno` is called with. -/
structure Ask where
  parent : UInt64
  name : Bytes
  isDir : Bool
  nodeSz : UInt64

structure Entry where
  inum : UInt64
  ask : Ask
  names : List Bytes

structure Session where
  master : Master
  entries : List Entry

inductive MasterEvent where
  | ask (ask : Ask)
  | regist (pastEnd : Int) (addr : Bytes) (sumMemory : UInt64)

namespace Session

def initial : Session := ⟨.initial, []⟩

variable (session : Session)

def namesOf (inum : UInt64) : List Bytes :=
  if inum = rootInum then []
  else
    ((session.entries.findRev? fun entry => entry.inum = inum ∧ entry.ask.isDir).map
      Entry.names).getD []

def step : MasterEvent → Option Session
  | .ask ask =>
      (session.master.askForIno ask.parent ask.name ask.isDir ask.nodeSz).map
        fun (master, inum, _) =>
          ⟨master, session.entries ++ [⟨inum, ask, session.namesOf ask.parent ++ [ask.name]⟩]⟩
  | .regist pastEnd addr sumMemory =>
      some { session with master := (session.master.regist pastEnd addr sumMemory).1 }

structure Legal (session : Session) (ask : Ask) : Prop where
  parent : ask.parent = rootInum ∨
    ∃ entry ∈ session.entries, entry.inum = ask.parent ∧ entry.ask.isDir = true
  name : ask.name ≠ []
  plain : slash ∉ ask.name
  fresh : ∀ entry ∈ session.entries, entry.ask.parent = ask.parent → entry.ask.name ≠ ask.name

def Located (master : Master) (entry : Entry) : Prop :=
  master.inumToPath entry.inum.toUInt32 = [slash].intercalate entry.names ∧
    ∃ node ∈ master.tree.root.nodeAt entry.names, node.info.ino = entry.inum

def Consistent (ask : Ask) : Prop :=
  ∃ next entry, session.step (.ask ask) = some next ∧ next.entries = session.entries ++ [entry] ∧
    Located next.master entry

def AtRoot (ask : Ask) : Prop :=
  ask.parent = rootInum ∧ session.master.inumToPath rootInum.toUInt32 = []

def Careful : MasterEvent → Prop
  | .ask ask => session.Legal ask ∧ session.AtRoot ask
  | .regist _ _ _ => True

/-- The tree that `Create` leaves for a call. -/
def created (ask : Ask) : Status × PrefixTree × Int :=
  session.master.tree.create (session.master.fullPath ask.parent ask.name)
    (session.master.newInum ask.isDir) ask.isDir ask.nodeSz

variable {session next : Session} {ask : Ask}

theorem step_ask (taken : session.step (.ask ask) = some next) :
    (session.created ask).1 = .ok ∧ next.master.tree = (session.created ask).2.1 ∧
      next.master.inumToPath = Function.update session.master.inumToPath
        (session.master.newInum ask.isDir).toUInt32 ask.name ∧
      next.entries = session.entries ++ [⟨session.master.newInum ask.isDir, ask,
        session.namesOf ask.parent ++ [ask.name]⟩] := by
  simp only [step, Master.askForIno, Master.genInum, Option.map_map, Option.map_eq_some_iff]
    at taken
  rw [created]
  generalize session.master.tree.create _ _ _ _ = outcome at taken ⊢
  obtain ⟨status, tree, kvId⟩ := outcome
  cases status with
  | ok =>
      obtain ⟨_, ⟨⟩, rfl⟩ := taken
      exact ⟨rfl, rfl, rfl, rfl⟩
  | prefixTreeError =>
      obtain ⟨_, ⟨⟩, -⟩ := taken

theorem step_ask_of_ok (ok : (session.created ask).1 = .ok) :
    ∃ next, session.step (.ask ask) = some next := by
  simp only [step, Master.askForIno, Master.genInum, Option.map_map, Option.map_eq_some_iff]
  rw [created] at ok
  generalize session.master.tree.create _ _ _ _ = outcome at ok ⊢
  obtain ⟨status, tree, kvId⟩ := outcome
  obtain rfl : status = .ok := ok
  exact ⟨_, _, rfl, rfl⟩

structure Flat (session : Session) : Prop where
  root : session.master.tree.root.isDir = true
  children : ∀ child ∈ session.master.tree.root.getList, ∃ entry ∈ session.entries,
    entry.ask.parent = rootInum ∧ entry.ask.name = child.info.path
  named : ∀ entry ∈ session.entries, entry.names ≠ []

theorem Flat.initial : Session.initial.Flat := by
  constructor
  · rfl
  · rintro child ⟨⟩
  · rintro entry ⟨⟩

theorem Flat.namesOf_ne_nil (flat : session.Flat) (legal : session.Legal ask)
    (below : ask.parent ≠ rootInum) : session.namesOf ask.parent ≠ [] := by
  obtain root | ⟨entry, member, here⟩ := legal.parent
  · exact absurd root below
  · rw [namesOf, if_neg below]
    cases found : session.entries.findRev? fun entry =>
        entry.inum = ask.parent ∧ entry.ask.isDir with
    | none =>
        rw [List.findRev?_eq_find?_reverse, List.find?_eq_none] at found
        exact absurd here (by simpa using found entry (List.mem_reverse.mpr member))
    | some other =>
        rw [List.findRev?_eq_find?_reverse] at found
        exact flat.named other (List.mem_reverse.mp (List.mem_of_find?_eq_some found))

theorem slash_mem_intercalate {names : List Bytes} (below : names ≠ []) (name : Bytes) :
    slash ∈ [slash].intercalate (names ++ [name]) := by
  obtain ⟨first, rest, rfl⟩ := List.exists_cons_of_ne_nil below
  cases more : rest ++ [name] with
  | nil => simp at more
  | cons second others =>
      rw [List.cons_append, more]
      simp [List.intercalate, List.intersperse]

theorem Flat.absent (flat : session.Flat) (legal : session.Legal ask)
    (root : ask.parent = rootInum) :
    ∀ child ∈ session.master.tree.root.getList, child.info.path ≠ ask.name := by
  intro child member same
  obtain ⟨entry, entryMember, parent, name⟩ := flat.children child member
  exact legal.fresh entry entryMember (parent.trans root.symm) (name.trans same)

theorem Flat.created_root (flat : session.Flat) (legal : session.Legal ask)
    (atRoot : session.AtRoot ask) :
    (session.created ask).1 = .ok ∧ ∃ change info list, PrefixTree.Retags change ∧
      session.master.tree.root = .dir info list ∧
      (session.created ask).2.1.root = (TreeNode.pushUp info (TreeNode.insertNode list
        (.create session.master.tree.next ask.name (session.master.newInum ask.isDir) ask.isDir
          ask.nodeSz))).mapInfo change := by
  obtain ⟨root, unset⟩ := atRoot
  have path : session.master.fullPath ask.parent ask.name = ask.name := by
    rw [Master.fullPath, root, if_pos unset]
  have absent := flat.absent legal root
  have isDir := flat.root
  obtain ⟨change, retags, status, node⟩ := session.master.tree.root_create ask.name
    (session.master.newInum ask.isDir) ask.isDir ask.nodeSz
  rw [created, path]
  cases shape : session.master.tree.root with
  | file info =>
      rw [shape] at isDir
      cases isDir
  | dir info list =>
      rw [shape] at absent node status
      replace absent : ∀ child ∈ list, child.info.path ≠ ask.name := absent
      rw [TreeNode.doInsert_plain _ legal.plain absent] at node status
      exact ⟨status, change, info, list, retags, rfl, node⟩

theorem Flat.step (flat : session.Flat) {event : MasterEvent} (careful : session.Careful event)
    (taken : session.step event = some next) : next.Flat := by
  cases event with
  | regist pastEnd addr sumMemory =>
      obtain rfl : _ = next := Option.some.inj taken
      obtain ⟨change, retags, root⟩ := session.master.tree.root_registNewKV pastEnd
        session.master.curRegisterKvId sumMemory
      refine ⟨?_, ?_, flat.named⟩
      · simp only [Master.regist, root, TreeNode.isDir_mapInfo]
        exact flat.root
      · simp only [Master.regist, root, TreeNode.getList_mapInfo, List.mem_map]
        rintro _ ⟨child, member, rfl⟩
        rw [TreeNode.info_mapInfo, retags]
        exact flat.children child member
  | ask ask =>
      obtain ⟨legal, atRoot⟩ := careful
      obtain ⟨-, tree, -, entries⟩ := step_ask taken
      obtain ⟨-, change, info, list, retags, before, after⟩ := flat.created_root legal atRoot
      refine ⟨?_, ?_, ?_⟩
      · rw [tree, after, TreeNode.isDir_mapInfo]
        rfl
      · rw [tree, after, entries, TreeNode.getList_mapInfo]
        intro child member
        obtain ⟨child, listed, rfl⟩ := List.mem_map.mp member
        rw [TreeNode.info_mapInfo, retags]
        obtain rfl | old := TreeNode.mem_insertNode.mp listed
        · refine ⟨_, List.mem_append_right _ List.mem_cons_self, atRoot.1, ?_⟩
          rw [TreeNode.info_create]
        · obtain ⟨entry, entryMember, here⟩ := flat.children child (by rwa [before])
          exact ⟨entry, List.mem_append_left _ entryMember, here⟩
      · rw [entries]
        intro entry member
        obtain old | new := List.mem_append.mp member
        · exact flat.named entry old
        · rw [List.mem_singleton.mp new]
          simp

theorem Flat.consistent (flat : session.Flat) (legal : session.Legal ask)
    (atRoot : session.AtRoot ask) : session.Consistent ask := by
  obtain ⟨ok, change, old, list, retags, before, after⟩ := flat.created_root legal atRoot
  obtain ⟨next, taken⟩ := step_ask_of_ok ok
  obtain ⟨-, tree, paths, entries⟩ := step_ask taken
  have names : session.namesOf ask.parent = [] := by rw [namesOf, if_pos atRoot.1]
  refine ⟨next, _, taken, entries, ?_, ?_⟩
  · rw [paths, names, Function.update_self]
    simp [List.intercalate]
  · have absent := flat.absent legal atRoot.1
    rw [before] at absent
    generalize new : TreeNode.create session.master.tree.next ask.name
      (session.master.newInum ask.isDir) ask.isDir ask.nodeSz = node at after
    have info : node.info = ⟨session.master.tree.next, ask.name, session.master.newInum ask.isDir,
        ask.nodeSz, noDomain⟩ := by
      rw [← new, TreeNode.info_create]
    have found : (TreeNode.pushUp old (TreeNode.insertNode list node)).nodeAt [ask.name] =
        some node := by
      have name : ask.name = node.info.path := by rw [info]
      rw [TreeNode.nodeAt, name]
      exact congrArg (Option.bind · _) (TreeNode.find_insertNode (name ▸ absent))
    refine ⟨node.mapInfo change, ?_, ?_⟩
    · rw [tree, after, names, TreeNode.nodeAt_mapInfo fun info => by rw [retags]]
      exact congrArg (Option.map _) found
    · rw [TreeNode.info_mapInfo, retags, info]

theorem Flat.atRoot (flat : session.Flat) (legal : session.Legal ask)
    (consistent : session.Consistent ask) : session.AtRoot ask := by
  obtain ⟨next, entry, taken, last, path, node, placed, ino⟩ := consistent
  obtain ⟨-, tree, paths, entries⟩ := step_ask taken
  obtain rfl : _ = entry := by simpa using entries.symm.trans last
  rw [paths, Function.update_self] at path
  have root : ask.parent = rootInum := by
    by_contra below
    apply legal.plain
    rw [path]
    exact slash_mem_intercalate (flat.namesOf_ne_nil legal below) _
  refine ⟨root, ?_⟩
  by_contra set
  -- the path has a `'/'`, so nothing is created in the root itself
  have split : slash ∈ session.master.fullPath ask.parent ask.name := by
    rw [Master.fullPath, root, if_neg set]
    exact List.mem_append_right _ List.mem_cons_self
  have names : session.namesOf ask.parent = [] := by rw [namesOf, if_pos root]
  have same := session.master.tree.paths_create split (session.master.newInum ask.isDir) ask.isDir
    ask.nodeSz
  rw [tree, names] at placed
  obtain ⟨child, found, -⟩ := Option.bind_eq_some_iff.mp placed
  have member : ask.name ∈ (session.created ask).2.1.root.getList.map fun child =>
      child.info.path := by
    refine List.mem_map.mpr ⟨child, List.mem_of_find?_eq_some found, ?_⟩
    simpa using List.find?_some found
  rw [created, same] at member
  obtain ⟨old, listed, name⟩ := List.mem_map.mp member
  exact flat.absent legal root old listed name

theorem flat_of_run {events : List MasterEvent}
    (run : Run (Guarded (StepOf Session.step) Session.Careful) .initial events session) :
    session.Flat :=
  run.invariant Flat Flat.initial fun _ _ _ flat taken => flat.step taken.1 taken.2

end Session

/-- As long as everything was created in the root, a legal call is consistent if and only if
it creates something in the root, too, and the master has no path for the key of the root. -/
theorem path_consistent_iff {events : List MasterEvent} {session : Session}
    (run : Run (Guarded (StepOf Session.step) Session.Careful) .initial events session)
    {ask : Ask} (legal : session.Legal ask) : session.Consistent ask ↔ session.AtRoot ask := by
  have flat := Session.flat_of_run run
  exact ⟨flat.atRoot legal, flat.consistent legal⟩

/-- A directory and then a file are created in the root. -/
theorem path_consistent_in_root :
    ∃ session, Run (Guarded (StepOf Session.step) Session.Careful) .initial
        [.regist 0 [49] 10, .ask ⟨1, [97], true, 0⟩] session ∧
      session.Consistent ⟨1, [98], false, 5⟩ := by
  have careful : Meets Session.step Session.Careful .initial
      [.regist 0 [49] 10, .ask ⟨1, [97], true, 0⟩] := by
    refine ⟨trivial, ?_⟩
    rintro _ ⟨⟩
    refine ⟨⟨⟨.inl rfl, by decide, by decide, ?_⟩, rfl, rfl⟩, fun _ _ => trivial⟩
    rintro entry ⟨⟩
  have run := guarded_of_exec rfl careful
  refine ⟨_, run, (path_consistent_iff run ⟨.inl rfl, by decide, by decide, ?_⟩).mpr ⟨rfl, rfl⟩⟩
  intro entry member _
  obtain rfl := List.mem_singleton.mp member
  decide

/-- A directory is created in a directory of the root.  The master keeps its name as its path,
and the next name is created under a directory that there is not. -/
theorem path_loses_parent :
    ∃ session next, Run (StepOf Session.step) .initial
        [.regist 0 [49] 10, .ask ⟨1, [97], true, 0⟩] session ∧
      session.Legal ⟨2, [98], true, 0⟩ ∧ ¬ session.Consistent ⟨2, [98], true, 0⟩ ∧
      session.step (.ask ⟨2, [98], true, 0⟩) = some next ∧
      next.Legal ⟨3, [99], false, 5⟩ ∧ next.step (.ask ⟨3, [99], false, 5⟩) = none := by
  have run := run_of_exec (rfl : exec Session.step .initial
    [.regist 0 [49] 10, .ask ⟨1, [97], true, 0⟩] = some _)
  refine ⟨_, _, run, ⟨.inr ⟨_, List.mem_cons_self, rfl, rfl⟩, by decide, by decide, ?_⟩, ?_, rfl,
    ⟨.inr ⟨_, List.mem_cons_of_mem _ List.mem_cons_self, rfl, rfl⟩, by decide, by decide, ?_⟩, rfl⟩
  · intro entry member _
    obtain rfl := List.mem_singleton.mp member
    decide
  · rintro ⟨next, entry, taken, last, path, -⟩
    cases taken
    cases last
    revert path
    decide
  · intro entry member _
    obtain rfl | last := List.mem_cons.mp member
    · decide
    · obtain rfl := List.mem_singleton.mp last
      decide

end Ctgfs.Placement
