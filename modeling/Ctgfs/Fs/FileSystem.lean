import Ctgfs.Fs.NameMap
import Mathlib.Logic.Relation

/-!
# What the file system is for

A file system is a tree of directories with files as its leaves.  The nodes have numbers, and
the number of a node says of which kind it is.
-/

namespace Ctgfs.Fs

open Foundation

inductive Node where
  | file (content : Bytes)
  | dir (listing : List Named)
  deriving DecidableEq, Repr

namespace Node

def isDir : Node → Bool
  | .file _ => false
  | .dir _ => true

def empty (isDir : Bool) : Node :=
  if isDir then .dir [] else .file []

@[simp]
theorem isDir_empty (kind : Bool) : (empty kind).isDir = kind := by
  cases kind <;> rfl

theorem empty_eq_dir {kind : Bool} {listing : List Named} (same : empty kind = .dir listing) :
    listing = [] := by
  cases kind <;> cases same
  rfl

end Node

abbrev Nodes := Inum → Option Node

def Links (nodes : Nodes) (dir : Inum) (entry : Named) : Prop :=
  ∃ listing, nodes dir = some (.dir listing) ∧ entry ∈ listing

def root : Inum := 1

def Reached (nodes : Nodes) : Inum → Prop :=
  Relation.ReflTransGen (fun dir inum => ∃ entry, Links nodes dir entry ∧ entry.inum = inum) root

/-- A tree of directories and files: no name is twice in a directory, every entry stands for a
node of its kind, no node but the root is without an entry, and none has two. -/
structure FileSystem where
  node : Nodes
  rooted : ∃ listing, node root = some (.dir listing)
  kinds : ∀ inum, ∀ here ∈ node inum, isdir inum = here.isDir
  names : ∀ dir listing, node dir = some (.dir listing) → (listing.map Named.name).Nodup
  present : ∀ dir entry, Links node dir entry →
    ∃ here ∈ node entry.inum, here.isDir = entry.isDir
  single : ∀ first second entry other, Links node first entry → Links node second other →
    entry.inum = other.inum → first = second ∧ entry = other
  top : ∀ dir entry, Links node dir entry → entry.inum ≠ root
  reached : ∀ inum, (node inum).isSome → Reached node inum

namespace FileSystem

variable {fs : FileSystem} {dir : Inum} {listing : List Named} {entry : Named} {node : Node}

theorem reached_of {inum : Inum} (here : fs.node inum = some node) : Reached fs.node inum :=
  fs.reached inum (by rw [here]; rfl)

theorem ne_of_fresh {old new : Inum} (here : fs.node old = some node) (fresh : fs.node new = none) :
    old ≠ new := by
  rintro rfl
  cases here.symm.trans fresh

theorem apart (links : Links fs.node dir entry) : entry.inum ≠ dir := by
  intro loop
  -- the root is not in a directory, and the only way to the directory is through itself
  have elsewhere : ∀ inum, Reached fs.node inum → inum ≠ dir := by
    intro inum reached
    induction reached with
    | refl =>
        intro same
        exact fs.top dir entry links (loop.trans same.symm)
    | tail _ step ih =>
        obtain ⟨other, above, rfl⟩ := step
        intro same
        exact ih (fs.single _ _ other entry above links (same.trans loop.symm)).1
  obtain ⟨listing, here, -⟩ := links
  exact elsewhere dir (reached_of here) rfl

theorem inums (fs : FileSystem) (here : fs.node dir = some (.dir listing)) :
    (listing.map Named.inum).Nodup := by
  have distinct : listing.Nodup := (fs.names dir listing here).of_map _
  refine distinct.map_on ?_
  intro first firstMember second secondMember same
  exact (fs.single dir dir first second ⟨_, here, firstMember⟩ ⟨_, here, secondMember⟩ same).2

variable {nodes : Nodes}

theorem of_update {place inum : Inum} {new : Option Node}
    (stored : Function.update nodes place new inum = some node) :
    inum = place ∧ new = some node ∨ nodes inum = some node := by
  by_cases same : inum = place
  · subst same
    rw [Function.update_self] at stored
    exact .inl ⟨rfl, stored⟩
  · rw [Function.update_of_ne same] at stored
    exact .inr stored

theorem of_blank {inum : Inum}
    (stored : Function.update (fun _ => none) root (some (.dir [])) inum = some node) :
    inum = root ∧ node = .dir [] := by
  rcases of_update stored with ⟨here, same⟩ | absent
  · exact ⟨here, (Option.some.inj same).symm⟩
  · cases absent

theorem not_links_blank {dir : Inum} {entry : Named} :
    ¬ Links (Function.update (fun _ => none) root (some (.dir []))) dir entry := by
  rintro ⟨listing, stored, member⟩
  cases (of_blank stored).2
  cases member

def blank : FileSystem where
  node := Function.update (fun _ => none) root (some (.dir []))
  rooted := ⟨[], Function.update_self ..⟩
  kinds := by
    intro inum node stored
    obtain ⟨rfl, rfl⟩ := of_blank stored
    rfl
  names := by
    intro dir listing stored
    cases (of_blank stored).2
    exact List.nodup_nil
  present := fun _ _ links => absurd links not_links_blank
  single := fun _ _ _ _ links => absurd links not_links_blank
  top := fun _ _ links => absurd links not_links_blank
  reached := by
    intro inum stored
    obtain ⟨node, stored⟩ := Option.isSome_iff_exists.mp stored
    obtain ⟨rfl, -⟩ := of_blank stored
    exact .refl

variable {other : Inum}

section Make

/-- The nodes with a new one, which is the last entry of a directory. -/
def withNode (nodes : Nodes) (dir : Inum) (listing : List Named) (entry : Named) : Nodes :=
  Function.update (Function.update nodes entry.inum (some (.empty entry.isDir))) dir
    (some (.dir (listing ++ [entry])))

theorem of_withNode {inum : Inum} (stored : withNode nodes dir listing entry inum = some node) :
    inum = dir ∧ node = .dir (listing ++ [entry]) ∨
      inum = entry.inum ∧ node = .empty entry.isDir ∨ nodes inum = some node := by
  rcases of_update stored with ⟨parent, same⟩ | stored
  · exact .inl ⟨parent, (Option.some.inj same).symm⟩
  rcases of_update stored with ⟨new, same⟩ | before
  · exact .inr (.inl ⟨new, (Option.some.inj same).symm⟩)
  · exact .inr (.inr before)

theorem links_withNode (here : fs.node dir = some (.dir listing))
    (fresh : fs.node entry.inum = none) {named : Named} :
    Links (withNode fs.node dir listing entry) other named ↔
      Links fs.node other named ∨ other = dir ∧ named = entry := by
  by_cases parent : other = dir
  · subst parent
    simp [Links, withNode, here]
  · by_cases new : other = entry.inum
    · subst new
      simp only [Links, withNode, Function.update_of_ne parent, Function.update_self, parent,
        false_and, or_false, fresh]
      constructor
      · rintro ⟨inner, made, member⟩
        rw [Node.empty_eq_dir (Option.some.inj made)] at member
        cases member
      · rintro ⟨_, ⟨⟩, -⟩
    · simp [Links, withNode, Function.update_of_ne new, parent]

def make (fs : FileSystem) (entry : Named) (here : fs.node dir = some (.dir listing))
    (unnamed : named listing entry.name = none) (fresh : fs.node entry.inum = none)
    (kind : isdir entry.inum = entry.isDir) : FileSystem where
  node := withNode fs.node dir listing entry
  rooted := by
    obtain ⟨top, stored⟩ := fs.rooted
    by_cases parent : root = dir
    · subst parent
      exact ⟨_, Function.update_self ..⟩
    · refine ⟨top, ?_⟩
      rw [withNode, Function.update_of_ne parent,
        Function.update_of_ne (ne_of_fresh stored fresh), stored]
  kinds := by
    intro inum node stored
    rcases of_withNode stored with ⟨rfl, rfl⟩ | ⟨rfl, rfl⟩ | before
    · exact fs.kinds inum (.dir listing) here
    · rw [kind, Node.isDir_empty]
    · exact fs.kinds inum node before
  names := by
    intro inum inner stored
    rcases of_withNode stored with ⟨rfl, same⟩ | ⟨rfl, same⟩ | before
    · cases same
      rw [List.map_append, List.nodup_append]
      refine ⟨fs.names _ _ here, List.pairwise_singleton _ _, ?_⟩
      intro first firstMember second secondMember
      obtain ⟨other, member, rfl⟩ := List.mem_map.mp firstMember
      rw [List.mem_singleton.mp secondMember]
      simpa using List.find?_eq_none.mp unnamed other member
    · rw [Node.empty_eq_dir same.symm]
      exact List.nodup_nil
    · exact fs.names inum inner before
  present := by
    intro other named links
    have kept : ∀ inum, ∀ node ∈ fs.node inum,
        ∃ after ∈ withNode fs.node dir listing entry inum, after.isDir = node.isDir := by
      intro inum node stored
      by_cases parent : inum = dir
      · subst parent
        cases Option.some.inj (here.symm.trans stored)
        exact ⟨_, Function.update_self .., rfl⟩
      · refine ⟨node, ?_, rfl⟩
        rw [withNode, Function.update_of_ne parent,
          Function.update_of_ne (ne_of_fresh stored fresh)]
        exact stored
    rcases (links_withNode here fresh).mp links with before | ⟨rfl, rfl⟩
    · obtain ⟨node, stored, same⟩ := fs.present other named before
      obtain ⟨after, kept, still⟩ := kept _ node stored
      exact ⟨after, kept, still.trans same⟩
    · refine ⟨.empty named.isDir, ?_, Node.isDir_empty _⟩
      rw [withNode, Function.update_of_ne (ne_of_fresh here fresh).symm, Function.update_self]
      rfl
  single := by
    -- the new number was in no directory before
    have unlinked : ∀ other named, Links fs.node other named → named.inum ≠ entry.inum := by
      intro other named links
      obtain ⟨node, stored, -⟩ := fs.present other named links
      exact ne_of_fresh stored fresh
    intro first second one two firstLinks secondLinks same
    rcases (links_withNode here fresh).mp firstLinks with before | ⟨rfl, rfl⟩ <;>
      rcases (links_withNode here fresh).mp secondLinks with before' | ⟨rfl, rfl⟩
    · exact fs.single first second one two before before' same
    · exact absurd same (unlinked _ _ before)
    · exact absurd same.symm (unlinked _ _ before')
    · exact ⟨rfl, rfl⟩
  top := by
    intro other named links
    rcases (links_withNode here fresh).mp links with before | ⟨rfl, rfl⟩
    · exact fs.top other named before
    · obtain ⟨top, stored⟩ := fs.rooted
      exact (ne_of_fresh stored fresh).symm
  reached := by
    have kept : ∀ inum, Reached fs.node inum →
        Reached (withNode fs.node dir listing entry) inum := by
      intro inum reached
      refine Relation.ReflTransGen.mono ?_ _ _ reached
      rintro above below ⟨named, links, same⟩
      exact ⟨named, (links_withNode here fresh).mpr (.inl links), same⟩
    intro inum stored
    obtain ⟨node, stored⟩ := Option.isSome_iff_exists.mp stored
    rcases of_withNode stored with ⟨rfl, -⟩ | ⟨rfl, -⟩ | before
    · exact kept inum (reached_of here)
    · refine (kept dir (reached_of here)).tail ?_
      exact ⟨entry, (links_withNode here fresh).mpr (.inr ⟨rfl, rfl⟩), rfl⟩
    · exact kept inum (reached_of before)

end Make

section Unlink

def withoutNode (nodes : Nodes) (dir : Inum) (listing : List Named) (entry : Named) : Nodes :=
  Function.update (Function.update nodes dir
    (some (.dir (listing.filter (·.name ≠ entry.name))))) entry.inum none

theorem of_withoutNode {inum : Inum}
    (stored : withoutNode nodes dir listing entry inum = some node) :
    inum = dir ∧ node = .dir (listing.filter (·.name ≠ entry.name)) ∨
      nodes inum = some node := by
  rcases of_update stored with ⟨-, ⟨⟩⟩ | stored
  rcases of_update stored with ⟨parent, same⟩ | before
  · exact .inl ⟨parent, (Option.some.inj same).symm⟩
  · exact .inr before

theorem not_links_file (file : entry.isDir = false) (links : Links fs.node dir entry)
    (named : Named) : ¬ Links fs.node entry.inum named := by
  rintro ⟨inner, stored, -⟩
  obtain ⟨node, present, kind⟩ := fs.present dir entry links
  cases stored.symm.trans present
  rw [file] at kind
  cases kind

theorem links_withoutNode (here : fs.node dir = some (.dir listing)) (member : entry ∈ listing)
    (file : entry.isDir = false) {named : Named} :
    Links (withoutNode fs.node dir listing entry) other named ↔
      Links fs.node other named ∧ named.inum ≠ entry.inum := by
  have links : Links fs.node dir entry := ⟨listing, here, member⟩
  have away := apart links
  by_cases gone : other = entry.inum
  · subst gone
    constructor
    · rintro ⟨inner, stored, -⟩
      rw [withoutNode, Function.update_self] at stored
      cases stored
    · rintro ⟨inside, -⟩
      exact absurd inside (not_links_file file links named)
  · by_cases parent : other = dir
    · subst parent
      have same : ∀ named ∈ listing, named.name = entry.name ↔ named.inum = entry.inum := by
        intro named inside
        constructor
        · intro sameName
          rw [List.inj_on_of_nodup_map (fs.names _ _ here) inside member sameName]
        · intro sameInum
          rw [(fs.single _ _ named entry ⟨_, here, inside⟩ links sameInum).2]
      simp only [Links, withoutNode, Function.update_of_ne gone, Function.update_self, here,
        Option.some.injEq, Node.dir.injEq, exists_eq_left', List.mem_filter, decide_eq_true_eq,
        ne_eq]
      exact and_congr_right fun inside => not_congr (same named inside)
    · have stays : ∀ named, Links fs.node other named → named.inum ≠ entry.inum := by
        intro named above sameInum
        exact parent (fs.single _ _ named entry above links sameInum).1
      simp only [Links, withoutNode, Function.update_of_ne gone, Function.update_of_ne parent]
      constructor
      · intro kept
        exact ⟨kept, stays named kept⟩
      · exact And.left

def unlink (fs : FileSystem) (entry : Named) (here : fs.node dir = some (.dir listing))
    (member : entry ∈ listing) (file : entry.isDir = false) : FileSystem where
  node := withoutNode fs.node dir listing entry
  rooted := by
    have links : Links fs.node dir entry := ⟨listing, here, member⟩
    have above : root ≠ entry.inum := (fs.top dir entry links).symm
    rw [withoutNode, Function.update_of_ne above]
    by_cases parent : root = dir
    · subst parent
      exact ⟨_, Function.update_self ..⟩
    · rw [Function.update_of_ne parent]
      exact fs.rooted
  kinds := by
    intro inum node stored
    rcases of_withoutNode stored with ⟨rfl, rfl⟩ | before
    · exact fs.kinds inum (.dir listing) here
    · exact fs.kinds inum node before
  names := by
    intro inum inner stored
    rcases of_withoutNode stored with ⟨rfl, same⟩ | before
    · cases same
      exact (fs.names _ _ here).sublist (List.filter_sublist.map _)
    · exact fs.names inum inner before
  present := by
    intro other named links
    obtain ⟨before, stays⟩ := (links_withoutNode here member file).mp links
    obtain ⟨node, stored, kind⟩ := fs.present other named before
    by_cases parent : named.inum = dir
    · rw [parent, here] at stored
      cases stored
      refine ⟨.dir (listing.filter (·.name ≠ entry.name)), ?_, kind⟩
      rw [withoutNode, Function.update_of_ne stays, parent, Function.update_self]
      rfl
    · refine ⟨node, ?_, kind⟩
      rw [withoutNode, Function.update_of_ne stays, Function.update_of_ne parent]
      exact stored
  single := by
    intro first second one two firstLinks secondLinks
    exact fs.single first second one two ((links_withoutNode here member file).mp firstLinks).1
      ((links_withoutNode here member file).mp secondLinks).1
  top := by
    intro other named links
    exact fs.top other named ((links_withoutNode here member file).mp links).1
  reached := by
    have links : Links fs.node dir entry := ⟨listing, here, member⟩
    -- no way leads through the file
    have kept : ∀ inum, Reached fs.node inum → inum ≠ entry.inum →
        Reached (withoutNode fs.node dir listing entry) inum := by
      intro inum reached stays
      induction reached with
      | refl => exact .refl
      | tail _ step ih =>
          obtain ⟨named, above, rfl⟩ := step
          refine (ih ?_).tail
            ⟨named, (links_withoutNode here member file).mpr ⟨above, stays⟩, rfl⟩
          rintro rfl
          exact not_links_file file links named above
    intro inum stored
    have stays : inum ≠ entry.inum := by
      rintro rfl
      rw [withoutNode, Function.update_self] at stored
      cases stored
    obtain ⟨node, stored⟩ := Option.isSome_iff_exists.mp stored
    rcases of_withoutNode stored with ⟨rfl, -⟩ | before
    · exact kept inum (reached_of here) stays
    · exact kept inum (reached_of before) stays

end Unlink

section Write

variable {inum : Inum} {old : Bytes}

theorem links_write (here : fs.node inum = some (.file old)) (content : Bytes) {named : Named} :
    Links (Function.update fs.node inum (some (.file content))) other named ↔
      Links fs.node other named := by
  by_cases same : other = inum
  · subst same
    simp [Links, here]
  · simp [Links, Function.update_of_ne same]

def write (fs : FileSystem) (content : Bytes) (here : fs.node inum = some (.file old)) :
    FileSystem where
  node := Function.update fs.node inum (some (.file content))
  rooted := by
    obtain ⟨top, stored⟩ := fs.rooted
    refine ⟨top, ?_⟩
    rw [Function.update_of_ne, stored]
    rintro rfl
    cases here.symm.trans stored
  kinds := by
    intro other node stored
    rcases of_update stored with ⟨rfl, ⟨⟩⟩ | before
    · exact fs.kinds other (.file old) here
    · exact fs.kinds other node before
  names := by
    intro other inner stored
    rcases of_update stored with ⟨-, ⟨⟩⟩ | before
    exact fs.names other inner before
  present := by
    intro other named links
    obtain ⟨node, stored, kind⟩ := fs.present other named ((links_write here content).mp links)
    by_cases same : named.inum = inum
    · rw [same, here] at stored
      cases stored
      refine ⟨.file content, ?_, kind⟩
      rw [same, Function.update_self]
      rfl
    · refine ⟨node, ?_, kind⟩
      rw [Function.update_of_ne same]
      exact stored
  single := by
    intro first second one two firstLinks secondLinks
    exact fs.single first second one two ((links_write here content).mp firstLinks)
      ((links_write here content).mp secondLinks)
  top := by
    intro other named links
    exact fs.top other named ((links_write here content).mp links)
  reached := by
    intro other stored
    obtain ⟨node, stored⟩ := Option.isSome_iff_exists.mp stored
    have before : Reached fs.node other := by
      rcases of_update stored with ⟨rfl, -⟩ | before
      · exact reached_of here
      · exact reached_of before
    refine Relation.ReflTransGen.mono ?_ _ _ before
    rintro above below ⟨named, links, same⟩
    exact ⟨named, (links_write here content).mpr links, same⟩

end Write

end FileSystem

end Ctgfs.Fs
