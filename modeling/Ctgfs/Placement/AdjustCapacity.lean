import Ctgfs.Placement.AdjustBooks

/-!
# The memory of a KV that gets a node

The take-over loop compares sizes.  The other two loops compare a score, which is a percentage
that has been rounded down and cut to an `int`, so that they may fill a KV beyond its memory.
-/

namespace Ctgfs.Placement

open Foundation

theorem calculateScore_eq {curSum allSum : UInt64} {score : Int}
    (calculated : calculateScore curSum allSum = some score)
    (product : 100 * curSum.toNat < 2 ^ 64)
    (quotient : 100 * curSum.toNat / allSum.toNat < 2 ^ 31) :
    score = (100 * curSum.toNat / allSum.toNat : Nat) := by
  rw [calculateScore] at calculated
  split at calculated
  next => cases calculated
  next =>
    obtain rfl := Option.some.inj calculated
    have value : (100 * curSum / allSum).toNat = 100 * curSum.toNat / allSum.toNat := by
      rw [UInt64.toNat_div, UInt64.toNat_mul]
      change 100 * curSum.toNat % 2 ^ 64 / _ = _
      rw [Nat.mod_eq_of_lt product]
    have cut : (100 * curSum / allSum).toUInt32.toNat = 100 * curSum.toNat / allSum.toNat := by
      rw [UInt64.toNat_toUInt32, value]
      exact Nat.mod_eq_of_lt (by omega)
    rw [← cut]
    change (100 * curSum / allSum).toUInt32.toBitVec.toInt = _
    rw [BitVec.toInt_eq_toNat_of_lt]
    · rfl
    · change 2 * (100 * curSum / allSum).toUInt32.toNat < _
      omega

theorem le_of_calculateScore {curSum allSum : UInt64} {score targetScore : Int}
    (calculated : calculateScore curSum allSum = some score) (fits : score ≤ targetScore)
    (bound : targetScore ≤ 100) (exact : targetScore < 100 ∨ allSum.toNat ≤ 100)
    (product : 100 * curSum.toNat < 2 ^ 64)
    (narrow : 100 * curSum.toNat < 2 ^ 31 * allSum.toNat) : curSum ≤ allSum := by
  have positive : 0 < allSum.toNat := by omega
  have value := calculateScore_eq calculated product
    ((Nat.div_lt_iff_lt_mul positive).mpr narrow)
  rw [UInt64.le_iff_toNat_le]
  rcases exact with below | small
  · have quotient : 100 * curSum.toNat / allSum.toNat < 100 := by omega
    have product := (Nat.div_lt_iff_lt_mul positive).mp quotient
    omega
  · have quotient : 100 * curSum.toNat / allSum.toNat < 101 := by omega
    have product := (Nat.div_lt_iff_lt_mul positive).mp quotient
    omega

namespace Adjusting

variable {targetScore : Int} {state next moved : Adjusting} {total : Nat}

theorem Transfers.contexts_eq {dst : Nat} (transfer : Transfers targetScore state dst moved next) :
    next.contexts = moved.contexts := by
  cases transfer with
  | taken => split <;> rfl
  | pulled => split <;> rfl
  | pushed => rfl

/-- Only a transfer changes the books. -/
theorem Turn.transfers (turn : Turn targetScore state next) :
    next.contexts = state.contexts ∨
      ∃ dst moved, Transfers targetScore state dst moved next ∧ next.contexts = moved.contexts := by
  cases turn with
  | transferred transfer => exact .inr ⟨_, _, transfer, transfer.contexts_eq⟩
  | pulledApart =>
      left
      split <;> rfl
  | _ => exact .inl rfl

theorem sums_of_reaches {start : Adjusting} (reached : Reaches targetScore start state) :
    state.tree.kvList.map KVInfo.sumMemory = start.tree.kvList.map KVInfo.sumMemory := by
  induction reached with
  | refl => rfl
  | tail _ taken ih =>
      exact (turn_of_step taken.2).sums.1.trans ih

theorem Kept.reaches {start : Adjusting} (kept : Kept targetScore total start)
    (small : total < 2 ^ 64) (reached : Reaches targetScore start state) :
    Kept targetScore total state ∨ Stuck targetScore state := by
  induction reached with
  | refl => exact .inl kept
  | tail _ taken ih =>
      have turn := turn_of_step taken.2
      rcases ih with kept | stuck
      · exact (turn.smooth_or_stuck kept.working.placed).imp_left
          fun smooth => turn.kept kept smooth small
      · exact .inr (stuck.turn turn)

theorem Kept.moved_le {src dst : Nat} {node : TreeNode} {forward : Bool} {kv : KVInfo}
    {address : Address} {context : AdjustContext} (kept : Kept targetScore total state)
    (small : total < 2 ^ 64) (move : Moved state src dst node forward moved) (apart : src ≠ dst)
    (here : state.tree.kvList[src]? = some kv) (found : state.tree.find address = some node)
    (last : endOf forward kv.domainNodeList = some address)
    (entered : moved.contexts[dst]? = some context) : context.curMemory.toNat ≤ total := by
  have size := kept.sz_eq small here (mem_of_endOf last) found
  have books := move.booksAt apart kept.books (kept.stored ▸ small) here found last size dst
  obtain ⟨-, sink, _, sinkAt, -⟩ := move.exists_books
  have after := move.sink_eq apart sinkAt
  rw [(books _ context after entered).1, ← kept.stored, ← move.stored apart here found last]
  exact amountOf_le_stored (List.mem_of_getElem? after)

theorem Kept.transfer_le {dst : Nat} {kv : KVInfo} {context : AdjustContext}
    (kept : Kept targetScore total state) (product : 100 * total < 2 ^ 64)
    (bound : targetScore ≤ 100) (exact : targetScore < 100 ∨ kv.sumMemory.toNat ≤ 100)
    (narrow : 100 * total < 2 ^ 31 * kv.sumMemory.toNat)
    (transfer : Transfers targetScore state dst moved next)
    (here : state.tree.kvList[dst]? = some kv)
    (entered : moved.contexts[dst]? = some context) : context.curMemory ≤ kv.sumMemory := by
  have small : total < 2 ^ 64 := by omega
  cases transfer with
  | taken _ sinkAt books found fits move =>
      -- here the sizes are compared, as they are
      obtain rfl := Option.some.inj (here.symm.trans sinkAt)
      have counted : (state.setTagCnt state.i (· - 1)).tree.kvList[state.i]? =
          some { kv with overweighedTagCnt := kv.overweighedTagCnt - 1 } := by
        rw [Adjusting.setTagCnt, changeKV, List.getElem?_modify, here]
        simp
      rw [(move.sink_books counted books entered).1, UInt64.add_comm]
      exact fits
  | pulled _ sinkAt there books first found score fits move =>
      obtain rfl := Option.some.inj (here.symm.trans sinkAt)
      have most := kept.moved_le small move (Nat.succ_ne_self _) there found first entered
      rw [← (move.sink_books here books entered).1] at score
      exact le_of_calculateScore score fits bound exact (by omega) (by omega)
  | pushed _ source _ _ last there nextBooks found score fits move =>
      obtain rfl := Option.some.inj (here.symm.trans there)
      have most := kept.moved_le small move (Nat.succ_ne_self _).symm source found last entered
      rw [UInt64.add_comm, ← (move.sink_books here nextBooks entered).1] at score
      exact le_of_calculateScore score fits bound exact (by omega) (by omega)

end Adjusting

/-- `Adjust` never overfills a KV, as long as no score is cut to an `int` and the target is below
100 or the memories are at most 100. -/
theorem adjust_never_overfills {tree : PrefixTree} {calls : List TreeCall}
    (run : Run (Guarded (StepOf PrefixTree.call) fun _ call => call.Regular) .initial calls tree)
    (product : 100 * tree.stored < 2 ^ 64) {targetScore : Int} (bound : targetScore ≤ 100)
    (exact : targetScore < 100 ∨ ∀ kv ∈ tree.kvList, kv.sumMemory.toNat ≤ 100)
    (narrow : ∀ kv ∈ tree.kvList, 100 * tree.stored < 2 ^ 31 * kv.sumMemory.toNat)
    {contexts : List AdjustContext} (calculated : tree.calculateAdjustContext = some contexts)
    {state moved next : Adjusting} {dst : Nat}
    (reached : Adjusting.Reaches targetScore ⟨tree, contexts, 0, .visit, []⟩ state)
    (transfer : state.Transfers targetScore dst moved next) {kv : KVInfo} {context : AdjustContext}
    (here : state.tree.kvList[dst]? = some kv) (entered : moved.contexts[dst]? = some context) :
    context.curMemory ≤ kv.sumMemory := by
  obtain ⟨prepared, sizes⟩ := prepared_of_regular run
  have small : tree.stored < 2 ^ 64 := by omega
  have memory : ∃ old ∈ tree.kvList, old.sumMemory = kv.sumMemory := by
    apply List.mem_map.mp
    rw [← Adjusting.sums_of_reaches reached]
    exact List.mem_map_of_mem (List.mem_of_getElem? here)
  obtain ⟨old, registered, same⟩ := memory
  obtain kept | stuck := (prepared.kept sizes small targetScore calculated).reaches small reached
  · exact kept.transfer_le product bound (exact.imp_right fun all => same ▸ all old registered)
      (same ▸ narrow old registered) transfer here entered
  · exact (stuck.no_transfer transfer).elim

/-- The root goes to a KV with memory enough. -/
theorem adjust_never_overfills_pushing :
    ∃ tree contexts state moved next,
      Run (Guarded (StepOf PrefixTree.call) fun _ call => call.Regular) .initial
        [.registNewKV 0 1 10, .registNewKV 0 2 100, .create [97] 1 false 8] tree ∧
      tree.calculateAdjustContext = some contexts ∧
      Adjusting.Reaches 60 ⟨tree, contexts, 0, .visit, []⟩ state ∧
      state.Transfers 60 1 moved next ∧ moved.contexts[1]? = some ⟨8, 8⟩ ∧ (8 : UInt64) ≤ 100 := by
  let tagged (domainId : Int) : TreeNode :=
    .dir ⟨0, [], 0, 8, domainId⟩ [.file ⟨1, [97], 1, 8, noDomain⟩]
  let before : PrefixTree := ⟨tagged 1, [⟨1, 10, 0, [0]⟩, ⟨2, 100, 0, []⟩], [], 2⟩
  let after : PrefixTree := ⟨tagged 2, [⟨1, 10, 0, []⟩, ⟨2, 100, 0, [0]⟩], [], 2⟩
  let state (phase : Phase) : Adjusting := ⟨before, [⟨8, 80⟩, ⟨0, 0⟩], 0, phase, []⟩
  have run : Run (Guarded (StepOf PrefixTree.call) fun _ call => call.Regular) .initial
      [.registNewKV 0 1 10, .registNewKV 0 2 100, .create [97] 1 false 8] before :=
    guarded_of_exec rfl (meets_of_forall
      (by simp [TreeCall.Regular, TreeCall.Funded, TreeCall.Sized]) _)
  have reached : Adjusting.Reaches 60 (state .visit) (state .push) :=
    (Relation.ReflTransGen.refl.tail (b := state .visit) (c := state .pull)
      ⟨by decide, rfl⟩).tail ⟨by decide, rfl⟩
  let moved : Adjusting := ⟨after, [⟨0, 0⟩, ⟨8, 8⟩], 0, .push, [(1, 1, 2)]⟩
  have transfer : (state .push).Transfers 60 1 moved moved :=
    .pushed rfl rfl rfl (by decide) rfl rfl rfl rfl rfl (by decide) (Adjusting.moved_of_move rfl)
  refine ⟨_, _, _, _, _, run, rfl, reached, transfer, rfl, ?_⟩
  exact adjust_never_overfills run (by decide) (by decide) (.inl (by decide)) (by decide) rfl
    reached transfer rfl rfl

/-- At the target 100 the score of a KV with 1000 bytes and 1005 in use is rounded to 100. -/
theorem adjust_overfills :
    ∃ tree contexts state moved next,
      Run (Guarded (StepOf PrefixTree.call) fun _ call => call.Regular) .initial
        [.registNewKV 0 1 10, .registNewKV 0 2 1000, .create [97] 1 false 1005] tree ∧
      100 * tree.stored < 2 ^ 64 ∧ tree.calculateAdjustContext = some contexts ∧
      Adjusting.Reaches 100 ⟨tree, contexts, 0, .visit, []⟩ state ∧
      state.Transfers 100 1 moved next ∧
      ∃ kv context, state.tree.kvList[1]? = some kv ∧ moved.contexts[1]? = some context ∧
        ¬ context.curMemory ≤ kv.sumMemory := by
  let tagged (domainId : Int) : TreeNode :=
    .dir ⟨0, [], 0, 1005, domainId⟩ [.file ⟨1, [97], 1, 1005, noDomain⟩]
  let before : PrefixTree := ⟨tagged 1, [⟨1, 10, 0, [0]⟩, ⟨2, 1000, 0, []⟩], [], 2⟩
  let after : PrefixTree := ⟨tagged 2, [⟨1, 10, 0, []⟩, ⟨2, 1000, 0, [0]⟩], [], 2⟩
  let state (phase : Phase) : Adjusting := ⟨before, [⟨1005, 10050⟩, ⟨0, 0⟩], 0, phase, []⟩
  have run : Run (Guarded (StepOf PrefixTree.call) fun _ call => call.Regular) .initial
      [.registNewKV 0 1 10, .registNewKV 0 2 1000, .create [97] 1 false 1005] before :=
    guarded_of_exec rfl (meets_of_forall
      (by simp [TreeCall.Regular, TreeCall.Funded, TreeCall.Sized]) _)
  have reached : Adjusting.Reaches 100 (state .visit) (state .push) :=
    (Relation.ReflTransGen.refl.tail (b := state .visit) (c := state .pull)
      ⟨by decide, rfl⟩).tail ⟨by decide, rfl⟩
  let moved : Adjusting := ⟨after, [⟨0, 0⟩, ⟨1005, 100⟩], 0, .push, [(1, 1, 2)]⟩
  have transfer : (state .push).Transfers 100 1 moved moved :=
    .pushed rfl rfl rfl (by decide) rfl rfl rfl rfl rfl (by decide) (Adjusting.moved_of_move rfl)
  exact ⟨_, _, _, _, _, run, by decide, rfl, reached, transfer, _, _, rfl, rfl, by decide⟩

end Ctgfs.Placement
