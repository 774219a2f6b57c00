import Ctgfs.Placement.TreeNode

/-!
# The prefix tree

`PrefixTree` holds the names of all files and says which KV each of them belongs to: a node
with a `domain_id_` gives its subtree to that KV, and the KV lists these nodes.
-/

namespace Ctgfs.Placement

open Foundation

def slash : Byte := ⟨47, by decide⟩

/-- `Status`, as far as the tree uses it. -/
inductive Status where
  | ok
  | prefixTreeError
  deriving DecidableEq, Repr

structure KVInfo where
  id : Int
  sumMemory : UInt64
  overweighedTagCnt : Int := 0
  domainNodeList : List Address := []
  deriving DecidableEq, Repr

structure Nearby where
  domainId : Int := noDomain
  node : Option Address := none
  deriving DecidableEq, Repr

/-- `splitPath`: whether there was a `'/'`, the part before it and the part after it. -/
def splitPath (fullPath : Bytes) : Bool × Bytes × Bytes :=
  if slash ∈ fullPath then
    (true, fullPath.takeWhile (· ≠ slash), (fullPath.dropWhile (· ≠ slash)).tail)
  else (false, fullPath, [])

structure Insertion where
  status : Status
  node : TreeNode
  domainId : Int
  created : Bool

namespace TreeNode

/-- `createNode` up to the search for a domain. -/
def create (address : Address) (path : Bytes) (ino : UInt64) (isDir : Bool) (sz : UInt64) :
    TreeNode :=
  let info : NodeInfo := { address, path, ino, sz }
  if isDir then .dir info [] else .file info

/-- `doInsert`.  Every call takes a part off the path, so that as many calls are enough as the
path has characters, and one more.  The status of the inner call is dropped. -/
def doInsert (address : Address) (ino : UInt64) (isDir : Bool) (nodeSz : UInt64) :
    Nat → TreeNode → Bytes → Int → Insertion
  | 0, node, _, domainId => ⟨.prefixTreeError, node, domainId, false⟩
  | _ + 1, .file info, _, domainId => ⟨.prefixTreeError, .file info, domainId, false⟩
  | calls + 1, .dir info list, path, domainId =>
      let domainId := if domainId = noDomain then info.domainId else domainId
      let (status, curPath, rest) := splitPath path
      match childAt list curPath with
      | none =>
          if status then ⟨.prefixTreeError, .dir info list, domainId, false⟩
          else
            ⟨.ok, pushUp info (insertNode list (create address curPath ino isDir nodeSz)),
              domainId, true⟩
      | some child =>
          if status then
            if child.isDir then
              let below := doInsert address ino isDir nodeSz calls child rest domainId
              ⟨.ok, pushUp info (replaceNode list below.node), below.domainId, below.created⟩
            else ⟨.prefixTreeError, .dir info list, domainId, false⟩
          else ⟨.ok, pushUp info list, domainId, false⟩

/-- `doRemove`, with the node that was taken out. -/
def doRemove : Nat → TreeNode → Bytes → Status × TreeNode × Option TreeNode
  | 0, node, _ => (.prefixTreeError, node, none)
  | _ + 1, .file info, _ => (.prefixTreeError, .file info, none)
  | calls + 1, .dir info list, path =>
      let (status, curPath, rest) := splitPath path
      match childAt list curPath with
      | none => (.prefixTreeError, .dir info list, none)
      | some child =>
          if status then
            let (result, below, removed) := doRemove calls child rest
            (result, pushUp info (replaceNode list below), removed)
          else if child.getList.length ≠ 0 then (.prefixTreeError, .dir info list, none)
          else (.ok, pushUp info (eraseNode list child), some child)

mutual

/-- `doGetNearByDomainID`: the last domain that is met on the way to a node, from the front or
from the back.  The walk stops at the node, and then gives `false`. -/
def doGetNearByDomainID (target : Address) (isReverse : Bool) :
    TreeNode → Nearby → Bool × Nearby
  | .file info, found =>
      if info.address = target then (false, found)
      else if info.domainId ≠ noDomain then (true, ⟨info.domainId, some info.address⟩)
      else (true, found)
  | .dir info list, found =>
      if info.address = target then (false, found)
      else if info.domainId ≠ noDomain then (true, ⟨info.domainId, some info.address⟩)
      else nearByIn target isReverse list found

def nearByIn (target : Address) (isReverse : Bool) : List TreeNode → Nearby → Bool × Nearby
  | [], found => (true, found)
  | child :: rest, found =>
      if isReverse then
        let (passed, found) := nearByIn target isReverse rest found
        if passed then child.doGetNearByDomainID target isReverse found else (false, found)
      else
        let (passed, found) := child.doGetNearByDomainID target isReverse found
        if passed then nearByIn target isReverse rest found else (false, found)

end

/-- `getNearByDomainID`: the next domain after a node, or else the last one before it.  The
loops over the domain lists look for the node itself, which is new and in none of them. -/
def getNearByDomainID (root : TreeNode) (target : Address) : Nearby :=
  let (passed, found) := root.doGetNearByDomainID target true {}
  if ¬ passed ∧ found.domainId ≠ noDomain then found
  else (root.doGetNearByDomainID target false found).2

/-- `SetDomainId` on the node with an address. -/
def setDomainId (address : Address) (domainId : Int) : TreeNode → TreeNode :=
  mapInfo fun info => if info.address = address then { info with domainId } else info

end TreeNode

variable {path : Bytes}

section Spec

theorem splitPath_plain (plain : slash ∉ path) : splitPath path = (false, path, []) := by
  rw [splitPath, if_neg plain]

theorem splitPath_slash (split : slash ∈ path) : (splitPath path).1 = true := by
  rw [splitPath, if_pos split]

namespace TreeNode

variable {address : Address} {ino : UInt64} {isDir : Bool} {nodeSz : UInt64}

theorem info_create (address : Address) (path : Bytes) (ino : UInt64) (isDir : Bool)
    (sz : UInt64) :
    (create address path ino isDir sz).info = { address, path, ino, sz } := by
  cases isDir <;> rfl

theorem doInsert_plain {info : NodeInfo} {list : List TreeNode} {name : Bytes} {domainId : Int}
    (calls : Nat) (plain : slash ∉ name) (absent : ∀ child ∈ list, child.info.path ≠ name) :
    doInsert address ino isDir nodeSz (calls + 1) (.dir info list) name domainId =
      ⟨.ok, pushUp info (insertNode list (create address name ino isDir nodeSz)),
        if domainId = noDomain then info.domainId else domainId, true⟩ := by
  simp [doInsert, splitPath_plain plain, childAt_eq_none absent]

theorem paths_doInsert (calls : Nat) (node : TreeNode) (domainId : Int) (split : slash ∈ path) :
    (doInsert address ino isDir nodeSz (calls + 1) node path domainId).node.getList.map
        (fun child => child.info.path) =
      node.getList.map fun child => child.info.path := by
  cases node with
  | file info => rfl
  | dir info list =>
      simp only [doInsert]
      rw [splitPath_slash split]
      split
      · rfl
      · simp only [if_true]
        split
        · exact paths_replaceNode _ _
        · rfl

end TreeNode

end Spec

/-- Where `createNode` puts a new node into the list of its domain. -/
def insertNearBy (list : List Address) (near : Option Address) (address : Address) :
    List Address :=
  let before := list.takeWhile fun other => some other ≠ near
  if before = [] then address :: list
  else before.dropLast ++ address :: list.drop (before.length - 1)

def updateKV (id : Int) (change : KVInfo → KVInfo) : List KVInfo → List KVInfo
  | [] => []
  | kv :: rest => if kv.id = id then change kv :: rest else kv :: updateKV id change rest

/-- `PrefixTree`.  `removed` are the nodes that were taken out of the tree, which a list of
domains may still point to; `next` is the address of the next node. -/
structure PrefixTree where
  root : TreeNode
  kvList : List KVInfo
  removed : List TreeNode
  next : Address

namespace PrefixTree

def initial : PrefixTree where
  root := .create 0 [] 0 true 0
  kvList := []
  removed := []
  next := 1

variable (tree : PrefixTree)

/-- What `createNode` does with a new node for which there was no domain on the way. -/
def tagNode (address : Address) : PrefixTree × Int :=
  let found := tree.root.getNearByDomainID address
  ({ tree with
    root := tree.root.setDomainId address found.domainId
    kvList := updateKV found.domainId (fun kv =>
      { kv with domainNodeList := insertNearBy kv.domainNodeList found.node address })
      tree.kvList }, found.domainId)

/-- `Create`, with the KV that it reports.  The search for a domain looks at the tags only, so
that it makes no difference that the sizes have been pushed up before. -/
def create (path : Bytes) (ino : UInt64) (isDir : Bool) (nodeSz : UInt64) :
    Status × PrefixTree × Int :=
  let inserted := tree.root.doInsert tree.next ino isDir nodeSz (path.length + 1) path noDomain
  if inserted.created then
    let grown := { tree with root := inserted.node, next := tree.next + 1 }
    if inserted.domainId = noDomain then
      let (tagged, domainId) := grown.tagNode tree.next
      (inserted.status, tagged, domainId)
    else (inserted.status, grown, inserted.domainId)
  else (inserted.status, { tree with root := inserted.node }, inserted.domainId)

def remove (path : Bytes) : Status × PrefixTree :=
  let (status, root, removed) := tree.root.doRemove (path.length + 1) path
  (status, { tree with root, removed := removed.toList ++ tree.removed })

/-- The scan of `RegistNewKV`: the largest count that a KV after the first one has, and the
place of the KV before it.  After the last KV it reads past the end of the list. -/
def scanTags (pastEnd : Int) : List KVInfo → Nat → Int × Option Nat → Int × Option Nat
  | [], _, best => best
  | [_], place, (maxRes, solvePos) =>
      if pastEnd > maxRes then (pastEnd, some place) else (maxRes, solvePos)
  | _ :: following :: rest, place, (maxRes, solvePos) =>
      scanTags pastEnd (following :: rest) (place + 1)
        (if following.overweighedTagCnt > maxRes then (following.overweighedTagCnt, some place)
        else (maxRes, solvePos))

def registNewKV (pastEnd : Int) (id : Int) (sumMemory : UInt64) : PrefixTree :=
  match tree.kvList with
  | [] =>
      { tree with
        root := tree.root.setDomainId tree.root.info.address id
        kvList := [{ id, sumMemory, domainNodeList := [tree.root.info.address] }] }
  | [only] => { tree with kvList := [only, { id, sumMemory }] }
  | kvs =>
      match scanTags pastEnd kvs 0 (0, none) with
      | (_, some place) => { tree with kvList := kvs.insertIdx place { id, sumMemory } }
      | (_, none) => { tree with kvList := kvs ++ [{ id, sumMemory }] }

def Retags (change : NodeInfo → NodeInfo) : Prop :=
  ∀ info, change info = { info with domainId := (change info).domainId }

theorem retags_setDomainId (address : Address) (domainId : Int) :
    Retags fun info => if info.address = address then { info with domainId } else info := by
  intro info
  dsimp only
  split <;> rfl

theorem root_create (path : Bytes) (ino : UInt64) (isDir : Bool) (nodeSz : UInt64) :
    ∃ change, Retags change ∧
      (tree.create path ino isDir nodeSz).1 =
        (tree.root.doInsert tree.next ino isDir nodeSz (path.length + 1) path noDomain).status ∧
      (tree.create path ino isDir nodeSz).2.1.root =
        (tree.root.doInsert tree.next ino isDir nodeSz (path.length + 1) path
          noDomain).node.mapInfo change := by
  simp only [create]
  split
  · split
    · exact ⟨_, retags_setDomainId _ _, rfl, rfl⟩
    · exact ⟨id, fun _ => rfl, rfl, (TreeNode.mapInfo_id _).symm⟩
  · exact ⟨id, fun _ => rfl, rfl, (TreeNode.mapInfo_id _).symm⟩

theorem paths_create (split : slash ∈ path) (ino : UInt64) (isDir : Bool) (nodeSz : UInt64) :
    (tree.create path ino isDir nodeSz).2.1.root.getList.map (fun child => child.info.path) =
      tree.root.getList.map fun child => child.info.path := by
  obtain ⟨change, retags, -, root⟩ := tree.root_create path ino isDir nodeSz
  have named : (fun child : TreeNode => child.info.path) ∘ TreeNode.mapInfo change =
      fun child => child.info.path := by
    funext child
    rw [Function.comp_apply, TreeNode.info_mapInfo, retags]
  rw [root, TreeNode.getList_mapInfo, List.map_map, named, TreeNode.paths_doInsert _ _ _ split]

/-- What a registration does: the first KV gets the root, and a later one is put somewhere
between the KVs that are there and gets nothing. -/
inductive Registers (tree : PrefixTree) (id : Int) (sumMemory : UInt64) : PrefixTree → Prop where
  | first (none : tree.kvList = []) :
      Registers tree id sumMemory
        { tree with
          root := tree.root.setDomainId tree.root.info.address id
          kvList := [{ id, sumMemory, domainNodeList := [tree.root.info.address] }] }
  | later {before behind : List KVInfo} (some : tree.kvList ≠ [])
      (split : tree.kvList = before ++ behind) :
      Registers tree id sumMemory { tree with kvList := before ++ { id, sumMemory } :: behind }

theorem scanTags_place {pastEnd : Int} {kvs : List KVInfo} {start place : Nat}
    {best : Int × Option Nat} (known : ∀ old, best.2 = some old → old < start + kvs.length)
    (found : (scanTags pastEnd kvs start best).2 = some place) : place < start + kvs.length := by
  fun_induction scanTags pastEnd kvs start best with
  | case1 start best => exact known place found
  | case2 only start maxRes solvePos higher =>
      cases found
      exact Nat.lt_succ_self _
  | case3 only start maxRes solvePos lower => exact known place found
  | case4 first following rest start maxRes solvePos ih =>
      have shorter := ih ?_ found
      · simp only [List.length_cons] at shorter ⊢
        omega
      · intro old same
        split at same
        · cases same
          simp only [List.length_cons]
          omega
        · have before := known old same
          simp only [List.length_cons] at before ⊢
          omega

theorem registers_registNewKV (pastEnd id : Int) (sumMemory : UInt64) :
    Registers tree id sumMemory (tree.registNewKV pastEnd id sumMemory) := by
  rw [registNewKV]
  split
  next none => exact .first none
  next only shape =>
    have split : tree.kvList = [only] ++ [] := shape
    exact .later (by simp [shape]) split
  next some notOne =>
    split
    next place found =>
      have inside : place < 0 + tree.kvList.length :=
        scanTags_place (by rintro old ⟨⟩) (congrArg Prod.snd found)
      obtain ⟨before, behind, split, -, inserted⟩ :=
        List.exists_of_modifyTailIdx (List.cons ({ id, sumMemory } : KVInfo))
          (show place ≤ tree.kvList.length by omega)
      rw [List.insertIdx, inserted]
      exact .later some split
    next => exact .later some (List.append_nil _).symm

theorem root_registNewKV (pastEnd : Int) (kv : Int) (sumMemory : UInt64) :
    ∃ change, Retags change ∧
      (tree.registNewKV pastEnd kv sumMemory).root = tree.root.mapInfo change := by
  have registers := tree.registers_registNewKV pastEnd kv sumMemory
  generalize tree.registNewKV pastEnd kv sumMemory = after at registers ⊢
  cases registers with
  | first => exact ⟨_, retags_setDomainId _ _, rfl⟩
  | later => exact ⟨id, fun _ => rfl, (TreeNode.mapInfo_id _).symm⟩

end PrefixTree

end Ctgfs.Placement
