import Ctgfs.Placement.AdjustTermination
import Ctgfs.Placement.Sizes

/-!
# The books of `Adjust`

`Adjust` changes `cur_memory` by the sizes of the nodes that it moves and never calculates it
anew.  The size of a directory is the size of the files below it, so that a split changes no
sum, and the books agree with the lists as long as the node that is taken off a list is the
one that was looked at.
-/

namespace Ctgfs.Placement

open Foundation

section Sums

variable {Item : Type} {list : List Item} {place : Nat} {item : Item}

theorem sum_map_modify (amount : Item → Nat) (change : Item → Item)
    (found : list[place]? = some item) :
    ((list.modify place change).map amount).sum + amount item =
      (list.map amount).sum + amount (change item) := by
  induction list generalizing place with
  | nil => simp at found
  | cons first rest ih =>
      cases place with
      | zero =>
          obtain rfl : first = item := by simpa using found
          simp only [List.modify_zero_cons, List.map_cons, List.sum_cons]
          omega
      | succ place =>
          have later := @ih place (by simpa using found)
          simp only [List.modify_succ_cons, List.map_cons, List.sum_cons]
          omega

theorem sum_relist (amount : List Address → Nat) (relist : List Address → List Address)
    {kvs : List KVInfo} {kv : KVInfo} (found : kvs[place]? = some kv) :
    ((kvs.modify place fun kv => { kv with domainNodeList := relist kv.domainNodeList }).map
        fun kv => amount kv.domainNodeList).sum + amount kv.domainNodeList =
      (kvs.map fun kv => amount kv.domainNodeList).sum + amount (relist kv.domainNodeList) :=
  sum_map_modify (fun kv => amount kv.domainNodeList) _ found

end Sums

namespace TreeNode

theorem fileSizes_retag (domain : Address → Int → Int) (node : TreeNode) :
    (node.retag domain).fileSizes = node.fileSizes := by
  rw [fileSizes, nodes_retag, List.filter_map, List.map_map, fileSizes]
  have kinds : (fun other : TreeNode => !other.isDir) ∘ retag domain =
      fun other : TreeNode => !other.isDir := by
    funext other
    rw [Function.comp_apply, retag, isDir_mapInfo]
  have sizes : (fun file : TreeNode => file.info.sz.toNat) ∘ retag domain =
      fun file : TreeNode => file.info.sz.toNat := by
    funext other
    rw [Function.comp_apply, retag, info_mapInfo]
  rw [kinds, sizes]

theorem fileSizes_of_isDir {node : TreeNode} (isDir : node.isDir = true) :
    node.fileSizes = (node.getList.map fileSizes).sum := by
  cases node with
  | file info => cases isDir
  | dir info list => exact fileSizes_dir info list

end TreeNode

theorem PrefixTree.Exact.of_find {tree : PrefixTree} (exact : tree.Exact) {address : Address}
    {node : TreeNode} (found : tree.find address = some node) : node.Exact := by
  obtain inside | outside := List.mem_append.mp (mem_of_find found).1
  · exact fun dir member => exact.1 dir ((TreeNode.nodes_sublist inside).subset member)
  · exact exact.2 node outside

def PrefixTree.stored (tree : PrefixTree) : Nat :=
  (tree.kvList.map fun kv => tree.amountOf TreeNode.fileSizes kv.domainNodeList).sum

theorem amountOf_le_stored {tree : PrefixTree} {kv : KVInfo} (member : kv ∈ tree.kvList) :
    tree.amountOf TreeNode.fileSizes kv.domainNodeList ≤ tree.stored :=
  List.single_le_sum (by simp) _
    (List.mem_map_of_mem (f := fun kv => tree.amountOf TreeNode.fileSizes kv.domainNodeList) member)

theorem RetaggedBy.stored {tree after : PrefixTree} {domain : Address → Int → Int}
    (retagged : RetaggedBy domain tree after) : after.stored = (after.kvList.map fun kv =>
      tree.amountOf TreeNode.fileSizes kv.domainNodeList).sum :=
  congrArg List.sum (List.map_congr_left fun kv _ =>
    retagged.amountOf TreeNode.fileSizes_retag kv.domainNodeList)

namespace Adjusting

variable {targetScore : Int} {state next : Adjusting}

section Stored

variable {src dst place : Nat} {node : TreeNode} {forward : Bool} {kv : KVInfo} {address : Address}

theorem stored_setTagCnt (state : Adjusting) (place : Nat) (count : Int → Int) :
    (state.setTagCnt place count).tree.stored = state.tree.stored := by
  have lists : (state.setTagCnt place count).tree.kvList.map KVInfo.domainNodeList =
      state.tree.kvList.map KVInfo.domainNodeList := map_modify_of_same (by intro kv; rfl) _ _
  have amounts := congrArg (List.map (state.tree.amountOf TreeNode.fileSizes)) lists
  rw [List.map_map, List.map_map] at amounts
  exact congrArg List.sum amounts

theorem Moved.stored (moved : Moved state src dst node forward next) (apart : src ≠ dst)
    (here : state.tree.kvList[src]? = some kv) (found : state.tree.find address = some node)
    (last : endOf forward kv.domainNodeList = some address) :
    next.tree.stored = state.tree.stored := by
  obtain ⟨domain, retagged⟩ := moved.retagged
  have whole := amountOf_endOf TreeNode.fileSizes state.tree last
  obtain ⟨-, rfl⟩ := mem_of_find found
  rw [retagged.stored]
  cases moved with
  | @mk source sink _ _ _ _ _ sinkAt =>
      have less := sum_relist (state.tree.amountOf TreeNode.fileSizes)
        (PrefixTree.popped forward) here
      have between : (state.tree.kvList.modify src fun kv => { kv with
          domainNodeList := PrefixTree.popped forward kv.domainNodeList })[dst]? = some sink := by
        rw [List.getElem?_modify, sinkAt]
        simp [apart]
      have more := sum_relist (state.tree.amountOf TreeNode.fileSizes)
        (PrefixTree.pushed forward node.info.address) between
      have grown := amountOf_pushed TreeNode.fileSizes state.tree forward node.info.address
        sink.domainNodeList
      simp only [PrefixTree.handOver, PrefixTree.stored]
      omega

theorem stored_split (sound : Sound state.tree) (here : state.tree.kvList[place]? = some kv)
    (found : state.tree.find address = some node) (isDir : node.isDir = true)
    (last : kv.domainNodeList.getLast? = some address) :
    (state.split place node).tree.stored = state.tree.stored := by
  have shape := sound.amountOf_split TreeNode.fileSizes found last
  have own := TreeNode.fileSizes_of_isDir isDir
  have relisted := sum_relist (state.tree.amountOf TreeNode.fileSizes)
    (fun list => list.dropLast ++ node.getList.map fun child => child.info.address) here
  have after := (retaggedBy_splitFileNode state.tree place node).stored
  rw [split, after]
  simp only [PrefixTree.splitFileNode, PrefixTree.stored]
  omega

end Stored

def BooksAt (state : Adjusting) (place : Nat) : Prop :=
  ∀ kv context, state.tree.kvList[place]? = some kv → state.contexts[place]? = some context →
    context.curMemory.toNat = state.tree.amountOf TreeNode.fileSizes kv.domainNodeList ∧
      calculateScore context.curMemory kv.sumMemory = some context.score

structure Kept (targetScore : Int) (total : Nat) (state : Adjusting) : Prop where
  working : Working targetScore state
  exact : state.tree.Exact
  books : ∀ place, state.BooksAt place
  stored : state.tree.stored = total

section Books

variable {total : Nat} {src dst place : Nat} {node : TreeNode} {forward : Bool} {kv : KVInfo}
  {context : AdjustContext} {address : Address}

theorem BooksAt.frame {domain : Address → Int → Int} (books : state.BooksAt place)
    (retagged : RetaggedBy domain state.tree next.tree)
    (lists : ∀ after, next.tree.kvList[place]? = some after →
      ∃ before, state.tree.kvList[place]? = some before ∧
        after.domainNodeList = before.domainNodeList ∧ after.sumMemory = before.sumMemory)
    (contexts : next.contexts[place]? = state.contexts[place]?) : next.BooksAt place := by
  intro after context there found
  obtain ⟨before, here, list, memory⟩ := lists after there
  rw [list, memory, retagged.amountOf TreeNode.fileSizes_retag]
  exact books before context here (contexts ▸ found)

theorem BooksAt.setTagCnt (books : state.BooksAt place) (counted : Nat) (count : Int → Int) :
    (state.setTagCnt counted count).BooksAt place := by
  refine books.frame (.unchanged rfl rfl rfl) (fun after there => ?_) rfl
  rw [Adjusting.setTagCnt, changeKV, List.getElem?_modify, Option.map_eq_map,
    Option.map_eq_some_iff] at there
  obtain ⟨before, here, rfl⟩ := there
  refine ⟨before, here, ?_⟩
  split <;> exact ⟨rfl, rfl⟩

theorem Kept.sz_eq (kept : Kept targetScore total state) (small : total < 2 ^ 64)
    (here : state.tree.kvList[place]? = some kv) (listed : address ∈ kv.domainNodeList)
    (found : state.tree.find address = some node) :
    node.info.sz.toNat = state.tree.amountAt TreeNode.fileSizes address := by
  have exact := kept.exact.of_find found
  have part := amountAt_le_amountOf TreeNode.fileSizes state.tree listed
  have whole := amountOf_le_stored (List.mem_of_getElem? here)
  rw [kept.stored] at whole
  rw [exact.toNat_sz, amountAt_eq found]
  rw [amountAt_eq found] at part
  exact Nat.mod_eq_of_lt (by omega)

theorem Kept.sz_le (kept : Kept targetScore total state) (small : total < 2 ^ 64)
    (here : state.tree.kvList[place]? = some kv) (books : state.contexts[place]? = some context)
    (listed : address ∈ kv.domainNodeList) (found : state.tree.find address = some node) :
    node.info.sz ≤ context.curMemory := by
  rw [UInt64.le_iff_toNat_le, kept.sz_eq small here listed found,
    (kept.books place kv context here books).1]
  exact amountAt_le_amountOf TreeNode.fileSizes state.tree listed

theorem Moved.source_books (moved : Moved state src dst node forward next) (apart : src ≠ dst)
    {after : AdjustContext} (here : state.tree.kvList[src]? = some kv)
    (books : state.contexts[src]? = some context) (found : next.contexts[src]? = some after) :
    after.curMemory = context.curMemory - node.info.sz ∧
      calculateScore after.curMemory kv.sumMemory = some after.score := by
  cases moved with
  | mk sourceAt _ sourceContextAt _ sourceScoreAt _ =>
      obtain rfl := Option.some.inj (here.symm.trans sourceAt)
      obtain rfl := Option.some.inj (books.symm.trans sourceContextAt)
      have inside := lt_length_of_getElem? books
      rw [List.getElem?_set_ne apart.symm, List.getElem?_set_self inside] at found
      obtain rfl := Option.some.inj found
      exact ⟨rfl, sourceScoreAt⟩

theorem Moved.exists_books (moved : Moved state src dst node forward next) :
    (∃ context, state.contexts[src]? = some context) ∧
      ∃ sink context,
        state.tree.kvList[dst]? = some sink ∧ state.contexts[dst]? = some context := by
  cases moved with
  | mk _ sinkAt sourceContextAt sinkContextAt =>
      exact ⟨⟨_, sourceContextAt⟩, _, _, sinkAt, sinkContextAt⟩

theorem Moved.booksAt (moved : Moved state src dst node forward next) (apart : src ≠ dst)
    (books : ∀ place, state.BooksAt place) (small : state.tree.stored < 2 ^ 64)
    (here : state.tree.kvList[src]? = some kv) (found : state.tree.find address = some node)
    (last : endOf forward kv.domainNodeList = some address)
    (size : node.info.sz.toNat = state.tree.amountAt TreeNode.fileSizes address) (place : Nat) :
    next.BooksAt place := by
  obtain ⟨domain, retagged⟩ := moved.retagged
  have amounts := retagged.amountOf TreeNode.fileSizes_retag
  obtain ⟨⟨sourceContext, sourceBooks⟩, sink, sinkContext, sinkAt, sinkBooks⟩ := moved.exists_books
  have whole := amountOf_endOf TreeNode.fileSizes state.tree last
  have sources := (books src kv sourceContext here sourceBooks).1
  have sinks := (books dst sink sinkContext sinkAt sinkBooks).1
  have stored := moved.stored apart here found last
  obtain ⟨-, rfl⟩ := mem_of_find found
  intro after context there entered
  by_cases atSink : place = dst
  · subst atSink
    obtain ⟨memory, score⟩ := moved.sink_books sinkAt sinkBooks entered
    obtain rfl := Option.some.inj ((moved.sink_eq apart sinkAt).symm.trans there)
    have bound := amountOf_le_stored (List.mem_of_getElem? there)
    have grown := amountOf_pushed TreeNode.fileSizes state.tree forward node.info.address
      sink.domainNodeList
    rw [amounts, stored] at bound
    refine ⟨?_, score⟩
    dsimp only at bound ⊢
    rw [amounts, memory, UInt64.toNat_add, Nat.mod_eq_of_lt (by omega)]
    omega
  · by_cases atSource : place = src
    · subst atSource
      obtain ⟨memory, score⟩ := moved.source_books apart here sourceBooks entered
      obtain rfl := Option.some.inj ((moved.source_eq apart here).symm.trans there)
      have enough : node.info.sz ≤ sourceContext.curMemory := by
        rw [UInt64.le_iff_toNat_le]
        omega
      refine ⟨?_, score⟩
      dsimp only
      rw [amounts, memory, UInt64.toNat_sub_of_le _ _ enough]
      omega
    · refine (books place).frame retagged (fun after there => ⟨after, ?_, rfl, rfl⟩) ?_ after
        context there entered
      · rw [← moved.other_eq atSource atSink, there]
      · cases moved
        change ((state.contexts.set src _).set dst _)[place]? = _
        rw [List.getElem?_set_ne (Ne.symm atSink), List.getElem?_set_ne (Ne.symm atSource)]

theorem booksAt_split (sound : Sound state.tree) (books : ∀ place, state.BooksAt place)
    (here : state.tree.kvList[src]? = some kv) (found : state.tree.find address = some node)
    (isDir : node.isDir = true) (last : kv.domainNodeList.getLast? = some address) (place : Nat) :
    (state.split src node).BooksAt place := by
  have retagged := retaggedBy_splitFileNode state.tree src node
  by_cases atSource : place = src
  · subst atSource
    intro after context there entered
    obtain rfl := Option.some.inj ((split_eq here).symm.trans there)
    obtain ⟨memory, score⟩ := books place kv context here entered
    have shape := sound.amountOf_split TreeNode.fileSizes found last
    have own := TreeNode.fileSizes_of_isDir isDir
    refine ⟨?_, score⟩
    change _ = (state.tree.splitFileNode place node).amountOf _ _
    rw [retagged.amountOf TreeNode.fileSizes_retag, memory]
    dsimp only
    omega
  · refine (books place).frame retagged (fun after there => ⟨after, ?_, rfl, rfl⟩) rfl
    rw [← there]
    change _ = (PrefixTree.splitFileNode _ _ _).kvList[place]?
    rw [PrefixTree.splitFileNode, List.getElem?_modify]
    simp [Ne.symm atSource]

theorem Kept.takeOver (kept : Kept targetScore total state) {mvEle : Address}
    (phase : state.phase = .takeOver mvEle) :
    ∃ previous, (state.setTagCnt state.i (· - 1)).tree.kvList[state.i - 1]? = some previous ∧
      state.tree.kvList[state.i - 1]? = some previous ∧
      previous.domainNodeList.getLast? = some mvEle ∧ state.i - 1 ≠ state.i := by
  obtain ⟨later, previous, before, last⟩ := kept.working.placed.held mvEle phase
  have apart : state.i - 1 ≠ state.i := by omega
  refine ⟨previous, ?_, before, last, apart⟩
  rw [Adjusting.setTagCnt, changeKV, List.getElem?_modify, before]
  simp [apart.symm]

theorem Turn.books (turn : Turn targetScore state next) (kept : Kept targetScore total state)
    (smooth : state.Smooth targetScore) (small : total < 2 ^ 64) :
    (∀ place, next.BooksAt place) ∧ next.tree.stored = total := by
  have sound := kept.working.sound
  have bound : state.tree.stored < 2 ^ 64 := kept.stored ▸ small
  cases turn with
  | overweighed | visited | beginPull | noPull | endPull | endPush =>
      exact ⟨kept.books, kept.stored⟩
  | @transferred _ moved _ transfer =>
      cases transfer with
      | taken phase _ _ found _ move =>
          obtain ⟨previous, counted, before, last, apart⟩ := kept.takeOver phase
          have size := kept.sz_eq small before (List.mem_of_getLast? last) found
          have stored := (move.stored apart counted found last).trans
            ((stored_setTagCnt state state.i (· - 1)).trans kept.stored)
          have books := move.booksAt apart
            (fun place => (kept.books place).setTagCnt state.i (· - 1))
            ((stored_setTagCnt state state.i (· - 1)).symm ▸ bound) counted found last size
          split
          · exact ⟨fun place => (books place).setTagCnt state.i fun _ => 0,
              (stored_setTagCnt moved state.i fun _ => 0).trans stored⟩
          · exact ⟨books, stored⟩
      | pulled _ _ there _ first found _ _ move =>
          have size := kept.sz_eq small there (List.mem_of_head? first) found
          have stored := (move.stored (Nat.succ_ne_self _) there found first).trans kept.stored
          have books := move.booksAt (Nat.succ_ne_self _) kept.books bound there found first size
          split
          · exact ⟨books, stored⟩
          · exact ⟨books, stored⟩
      | pushed _ here _ _ last _ _ found _ _ move =>
          have size := kept.sz_eq small here (List.mem_of_getLast? last) found
          exact ⟨move.booksAt (Nat.succ_ne_self _).symm kept.books bound here found last size,
            (move.stored (Nat.succ_ne_self _).symm here found last).trans kept.stored⟩
  | takenApart phase _ found isDir =>
      obtain ⟨previous, counted, before, last, apart⟩ := kept.takeOver phase
      have sound := sound_setTagCnt sound state.i (· - 1)
      have books := booksAt_split sound (fun place => (kept.books place).setTagCnt state.i (· - 1))
        counted found isDir last
      exact ⟨books, (stored_split sound counted found isDir last).trans
        ((stored_setTagCnt state state.i (· - 1)).trans kept.stored)⟩
  | refused =>
      refine ⟨fun place => ((kept.books place).setTagCnt state.i (· - 1)).setTagCnt state.i
        fun _ => 0, ?_⟩
      exact (stored_setTagCnt _ state.i fun _ => 0).trans
        ((stored_setTagCnt state state.i (· - 1)).trans kept.stored)
  | pulledApart phase here there books first found score large isDir =>
      obtain ⟨rest, list⟩ := List.head?_eq_some_iff.mp first
      obtain rfl := smooth.alone phase here there books list found score large isDir
      have last : _ = some _ := congrArg List.getLast? list
      have split := booksAt_split sound kept.books there found isDir last
      have stored := (stored_split sound there found isDir last).trans kept.stored
      split
      · exact ⟨split, stored⟩
      · exact ⟨split, stored⟩
  | pushedApart _ here _ _ last found isDir =>
      exact ⟨booksAt_split sound kept.books here found isDir last,
        (stored_split sound here found isDir last).trans kept.stored⟩
  | pushedOver =>
      exact ⟨fun place => (kept.books place).setTagCnt (state.i + 1) (· + 1),
        (stored_setTagCnt state (state.i + 1) (· + 1)).trans kept.stored⟩

theorem Turn.kept (turn : Turn targetScore state next) (kept : Kept targetScore total state)
    (smooth : state.Smooth targetScore) (small : total < 2 ^ 64) : Kept targetScore total next := by
  obtain ⟨books, stored⟩ := turn.books kept smooth small
  obtain ⟨domain, retagged⟩ := turn.retagged
  exact ⟨turn.working kept.working, retagged.exact kept.exact, books, stored⟩

end Books

/-- The lists that the next iteration takes nodes from are not empty, and the books of their KVs
have the sizes of these nodes. -/
structure Safe (state : Adjusting) : Prop where
  visit : state.phase = .visit → ∀ kv previous, state.tree.kvList[state.i]? = some kv →
    0 < kv.overweighedTagCnt → 0 < state.i → state.tree.kvList[state.i - 1]? = some previous →
    previous.domainNodeList ≠ []
  takeOver : ∀ mvEle, state.phase = .takeOver mvEle → ∀ previous context node,
    state.tree.kvList[state.i - 1]? = some previous →
    state.contexts[state.i - 1]? = some context → state.tree.find mvEle = some node →
    previous.domainNodeList ≠ [] ∧ node.info.sz ≤ context.curMemory
  pulling : state.phase = .pulling → ∀ next context,
    state.tree.kvList[state.i + 1]? = some next → state.contexts[state.i + 1]? = some context →
    ∃ mvEle, next.domainNodeList.head? = some mvEle ∧
      ∀ node, state.tree.find mvEle = some node → node.info.sz ≤ context.curMemory
  push : state.phase = .push → ∀ kv context moveEle node,
    state.tree.kvList[state.i]? = some kv → state.contexts[state.i]? = some context →
    kv.domainNodeList.getLast? = some moveEle → state.tree.find moveEle = some node →
    node.info.sz ≤ context.curMemory

/-- The books say what `calculateSum` and `calculateScore` say. -/
def Booked (state : Adjusting) : Prop :=
  ∀ (place : Nat) (kv : KVInfo) (context : AdjustContext), state.tree.kvList[place]? = some kv →
    state.contexts[place]? = some context → state.tree.calculateSum kv = some context.curMemory ∧
      calculateScore context.curMemory kv.sumMemory = some context.score

def ReachesSmoothly (targetScore : Int) : Adjusting → Adjusting → Prop :=
  Relation.ReflTransGen fun state next =>
    ¬ state.Done ∧ state.Smooth targetScore ∧ state.step targetScore = some next

theorem Kept.safe {total : Nat} (kept : Kept targetScore total state) (small : total < 2 ^ 64)
    (smooth : state.Smooth targetScore) : state.Safe where
  visit phase kv previous here counted later before := by
    obtain ⟨other, mvEle, same, last⟩ := kept.working.placed.ready phase kv here counted later
    obtain rfl := Option.some.inj (before.symm.trans same)
    exact List.ne_nil_of_mem (List.mem_of_getLast? last)
  takeOver mvEle phase previous context node before books found := by
    obtain ⟨-, other, same, last⟩ := kept.working.placed.held mvEle phase
    obtain rfl := Option.some.inj (before.symm.trans same)
    have listed := List.mem_of_getLast? last
    exact ⟨List.ne_nil_of_mem listed, kept.sz_le small before books listed found⟩
  pulling phase next context there books := by
    obtain ⟨kv, own, here, ownBooks⟩ :=
      kept.working.exists_kv (kept.working.placed.inside (by rw [phase]; exact Phase.noConfusion))
    obtain ⟨mvEle, rest, list, -⟩ := smooth phase kv next own here there ownBooks
    refine ⟨mvEle, by rw [list]; rfl, fun node found => ?_⟩
    exact kept.sz_le small there books (list ▸ List.mem_cons_self) found
  push _ kv context moveEle node here books last found :=
    kept.sz_le small here books (List.mem_of_getLast? last) found

end Adjusting

section Start

variable {tree : PrefixTree}

theorem toNat_calculateSum (exact : tree.Exact) {kv : KVInfo} {sum : UInt64}
    (calculated : tree.calculateSum kv = some sum) :
    sum.toNat = tree.amountOf TreeNode.fileSizes kv.domainNodeList % 2 ^ 64 := by
  obtain ⟨nodes, found, rfl⟩ := Option.map_eq_some_iff.mp calculated
  have all := PrefixTree.forall₂_of_mapM found
  have amounts : kv.domainNodeList.map (tree.amountAt TreeNode.fileSizes) =
      nodes.map TreeNode.fileSizes := by
    rw [← List.forall₂_eq_eq_eq, List.forall₂_map_left_iff, List.forall₂_map_right_iff]
    exact all.imp fun address node found => amountAt_eq found
  have sizes : nodes.map (fun node => node.info.sz.toNat) =
      (nodes.map TreeNode.fileSizes).map (· % 2 ^ 64) := by
    rw [← amounts, List.map_map, ← List.forall₂_eq_eq_eq, List.forall₂_map_left_iff,
      List.forall₂_map_right_iff]
    refine all.flip.imp fun node address found => ?_
    rw [Function.comp_apply, amountAt_eq found, (exact.of_find found).toNat_sz]
  change (TreeNode.sumSizes nodes).toNat = _
  rw [TreeNode.toNat_sumSizes, PrefixTree.amountOf, amounts, sizes, ← List.sum_nat_mod]

theorem booksAt_start (exact : tree.Exact) (small : tree.stored < 2 ^ 64)
    {contexts : List AdjustContext} (calculated : tree.calculateAdjustContext = some contexts)
    (place : Nat) : Adjusting.BooksAt ⟨tree, contexts, 0, .visit, []⟩ place := by
  intro kv context here entered
  have opened : ((tree.calculateSum kv).bind fun curMemory =>
      (calculateScore curMemory kv.sumMemory).map fun score => ⟨curMemory, score⟩) =
        some context := by
    obtain ⟨inside, rfl⟩ := List.getElem?_eq_some_iff.mp here
    obtain ⟨within, rfl⟩ := List.getElem?_eq_some_iff.mp entered
    exact (PrefixTree.forall₂_of_mapM calculated).get inside within
  obtain ⟨curMemory, sum, opened⟩ := Option.bind_eq_some_iff.mp opened
  obtain ⟨score, scored, rfl⟩ := Option.map_eq_some_iff.mp opened
  have bound := amountOf_le_stored (List.mem_of_getElem? here)
  refine ⟨?_, scored⟩
  rw [toNat_calculateSum exact sum, Nat.mod_eq_of_lt (bound.trans_lt small)]

theorem Prepared.kept (prepared : Prepared tree) (exact : tree.Exact)
    (small : tree.stored < 2 ^ 64) (targetScore : Int) {contexts : List AdjustContext}
    (calculated : tree.calculateAdjustContext = some contexts) :
    Adjusting.Kept targetScore tree.stored ⟨tree, contexts, 0, .visit, []⟩ where
  working := prepared.working targetScore calculated
  exact := exact
  books := booksAt_start exact small calculated
  stored := rfl

end Start

def TreeCall.Regular (call : TreeCall) : Prop := call.Funded ∧ call.Sized

theorem prepared_of_regular {tree : PrefixTree} {calls : List TreeCall}
    (run : Run (Guarded (StepOf PrefixTree.call) fun _ call => call.Regular) .initial calls tree) :
    Prepared tree ∧ tree.Exact :=
  ⟨prepared_of_run (run.mono fun _ _ _ taken => ⟨taken.1.1, taken.2⟩),
    exact_of_run (run.mono fun _ _ _ taken => ⟨taken.1.2, taken.2⟩)⟩

theorem Adjusting.Kept.booked {targetScore : Int} {total : Nat} {state : Adjusting}
    (kept : Kept targetScore total state) (small : total < 2 ^ 64) : state.Booked := by
  intro place kv context here entered
  obtain ⟨memory, score⟩ := kept.books place kv context here entered
  obtain ⟨sum, calculated⟩ :=
    kept.working.sound.exists_calculateSum (List.mem_of_getElem? here)
  have bound := amountOf_le_stored (List.mem_of_getElem? here)
  have same : sum.toNat = context.curMemory.toNat := by
    rw [memory, toNat_calculateSum kept.exact calculated, Nat.mod_eq_of_lt]
    exact (kept.stored ▸ bound).trans_lt small
  exact ⟨UInt64.toNat_inj.mp same ▸ calculated, score⟩

/-- While the pull loop splits no directory in front of other nodes, `Adjust` keeps its books.  In
such a state it takes nodes only from lists that have them. -/
theorem adjust_keeps_books {tree : PrefixTree} {calls : List TreeCall}
    (run : Run (Guarded (StepOf PrefixTree.call) fun _ call => call.Regular) .initial calls tree)
    (small : tree.stored < 2 ^ 64) (targetScore : Int) {contexts : List AdjustContext}
    (calculated : tree.calculateAdjustContext = some contexts) {state : Adjusting}
    (reached : Adjusting.ReachesSmoothly targetScore ⟨tree, contexts, 0, .visit, []⟩ state) :
    state.Booked ∧ (state.Smooth targetScore → state.Safe) := by
  obtain ⟨prepared, exact⟩ := prepared_of_regular run
  have kept : Adjusting.Kept targetScore tree.stored state := by
    induction reached with
    | refl => exact prepared.kept exact small targetScore calculated
    | tail _ taken ih =>
        exact (Adjusting.turn_of_step taken.2.2).kept ih taken.2.1 small
  exact ⟨kept.booked small, kept.safe small⟩

/-- `Adjust` splits the root and counts the second KV as overweighed, which then takes over. -/
theorem adjust_keeps_books_taking :
    ∃ tree contexts state,
      Run (Guarded (StepOf PrefixTree.call) fun _ call => call.Regular) .initial
        [.registNewKV 0 1 10, .registNewKV 0 2 10, .create [97] 1 false 5] tree ∧
      tree.calculateAdjustContext = some contexts ∧
      Adjusting.ReachesSmoothly 40 ⟨tree, contexts, 0, .visit, []⟩ state ∧
      state.phase = .takeOver 1 ∧ state.Booked ∧ state.Safe := by
  let tagged (domainId below : Int) : TreeNode :=
    .dir ⟨0, [], 0, 5, domainId⟩ [.file ⟨1, [97], 1, 5, below⟩]
  let before : PrefixTree := ⟨tagged 1 noDomain, [⟨1, 10, 0, [0]⟩, ⟨2, 10, 0, []⟩], [], 2⟩
  let after (count : Int) : PrefixTree :=
    ⟨tagged noDomain 1, [⟨1, 10, 0, [1]⟩, ⟨2, 10, count, []⟩], [], 2⟩
  let state (tree : PrefixTree) (i : Nat) (phase : Phase) : Adjusting :=
    ⟨tree, [⟨5, 50⟩, ⟨0, 0⟩], i, phase, []⟩
  have run : Run (Guarded (StepOf PrefixTree.call) fun _ call => call.Regular) .initial
      [.registNewKV 0 1 10, .registNewKV 0 2 10, .create [97] 1 false 5] before :=
    guarded_of_exec rfl (meets_of_forall
      (by simp [TreeCall.Regular, TreeCall.Funded, TreeCall.Sized]) _)
  have reached : Adjusting.ReachesSmoothly 40 (state before 0 .visit)
      (state (after 1) 1 (.takeOver 1)) := by
    refine ((((Relation.ReflTransGen.refl.tail (b := state before 0 .visit)
      (c := state before 0 .pull) ⟨by decide, by rintro ⟨⟩, rfl⟩).tail (c := state before 0 .push)
      ⟨by decide, by rintro ⟨⟩, rfl⟩).tail (c := state (after 0) 0 .push)
      ⟨by decide, by rintro ⟨⟩, rfl⟩).tail (c := state (after 1) 1 .visit)
      ⟨by decide, by rintro ⟨⟩, rfl⟩).tail ⟨by decide, by rintro ⟨⟩, rfl⟩
  obtain ⟨booked, safe⟩ := adjust_keeps_books run (by decide) 40 rfl reached
  exact ⟨_, _, _, run, rfl, reached, rfl, booked, safe (by rintro ⟨⟩)⟩

/-- The first `Adjust` gives the file to the second KV.  The second one pulls it back and then
reads the front of the empty list. -/
theorem adjust_reads_empty_list :
    ∃ tree contexts state,
      Run (Guarded (StepOf PrefixTree.call) fun _ call => call.Regular) .initial
        [.registNewKV 0 1 100, .registNewKV 0 2 10, .create [97] 1 false 5, .adjust 20 4] tree ∧
      tree.calculateAdjustContext = some contexts ∧
      Adjusting.Reaches 20 ⟨tree, contexts, 0, .visit, []⟩ state ∧ ¬ state.Safe := by
  let tagged (below : Int) : TreeNode :=
    .dir ⟨0, [], 0, 5, noDomain⟩ [.file ⟨1, [97], 1, 5, below⟩]
  let before : PrefixTree := ⟨tagged 2, [⟨1, 100, 0, []⟩, ⟨2, 10, 0, [1]⟩], [], 2⟩
  let after : PrefixTree := ⟨tagged 1, [⟨1, 100, 0, [1]⟩, ⟨2, 10, 0, []⟩], [], 2⟩
  let state (phase : Phase) : Adjusting := ⟨before, [⟨0, 0⟩, ⟨5, 50⟩], 0, phase, []⟩
  have run : Run (Guarded (StepOf PrefixTree.call) fun _ call => call.Regular) .initial
      [.registNewKV 0 1 100, .registNewKV 0 2 10, .create [97] 1 false 5, .adjust 20 4] before :=
    guarded_of_exec rfl (meets_of_forall
      (by simp [TreeCall.Regular, TreeCall.Funded, TreeCall.Sized]) _)
  have reached : Adjusting.Reaches 20 (state .visit)
      ⟨after, [⟨5, 5⟩, ⟨0, 0⟩], 0, .pulling, [(1, 2, 1)]⟩ :=
    ((Relation.ReflTransGen.refl.tail (b := state .visit) (c := state .pull)
      ⟨by decide, rfl⟩).tail (c := state .pulling) ⟨by decide, rfl⟩).tail ⟨by decide, rfl⟩
  refine ⟨_, _, _, run, rfl, reached, fun safe => ?_⟩
  obtain ⟨mvEle, first, -⟩ := safe.pulling rfl _ _ rfl rfl
  cases first

end Ctgfs.Placement
