import Ctgfs.Placement.PrefixTree
import Mathlib.Logic.Function.Basic

/-!
# Numbers and paths of the master

`AskForIno` gives a new file or directory its number.  The master remembers a path for every
number, and puts the path of a new file together from the path of its parent.
-/

namespace Ctgfs.Placement

open Foundation

/-- The maps of the master have `int` keys, and a number is cut to one. -/
abbrev Key := UInt32

/-- `Master`.  A key that a map does not have stands for its default value, as `operator[]`
would insert it. -/
structure Master where
  inoCount : UInt64
  tree : PrefixTree
  inumToPath : Key → Bytes
  inumToRegisterId : Key → Int
  registerIdToAddr : Int → Bytes
  curRegisterKvId : Int

namespace Master

def initial : Master where
  inoCount := 2
  tree := .initial
  inumToPath := fun _ => []
  inumToRegisterId := fun _ => 0
  registerIdToAddr := fun _ => []
  curRegisterKvId := 0

variable (master : Master)

def newInum (isDir : Bool) : UInt64 :=
  if isDir then master.inoCount else master.inoCount ||| 0x80000000

def fullPath (master : Master) (parent : UInt64) (path : Bytes) : Bytes :=
  let fullPath := master.inumToPath parent.toUInt32
  if fullPath = [] then path else fullPath ++ slash :: path

/-- `genInum`; `none` when the `assert` ends the process. -/
def genInum (parent : UInt64) (path : Bytes) (isDir : Bool) (nodeSz : UInt64) :
    Option (Master × UInt64) :=
  let id := master.newInum isDir
  match master.tree.create (master.fullPath parent path) id isDir nodeSz with
  | (.ok, tree, kvId) =>
      some ({ master with
        inoCount := master.inoCount + 1
        tree
        inumToPath := Function.update master.inumToPath id.toUInt32 path
        inumToRegisterId := Function.update master.inumToRegisterId id.toUInt32 kvId }, id)
  | (.prefixTreeError, _, _) => none

def getInfoByInum (inum : UInt64) : Bytes :=
  master.registerIdToAddr (master.inumToRegisterId inum.toUInt32)

def askForIno (parent : UInt64) (path : Bytes) (isDir : Bool) (nodeSz : UInt64) :
    Option (Master × UInt64 × Bytes) :=
  (master.genInum parent path isDir nodeSz).map fun (next, ino) =>
    (next, ino, next.getInfoByInum ino)

/-- `Regist`.  No KV is ever unregistered, so that no id is used again. -/
def regist (pastEnd : Int) (addr : Bytes) (sumMemory : UInt64) : Master × Int :=
  let id := master.curRegisterKvId
  ({ master with
    curRegisterKvId := id + 1
    registerIdToAddr := Function.update master.registerIdToAddr id addr
    tree := master.tree.registNewKV pastEnd id sumMemory }, id)

end Master

end Ctgfs.Placement
