import Mathlib.Logic.Function.Basic
import Ctgfs.Foundation.Recency
import Ctgfs.Foundation.Runs

/-!
# The LRU cache

`LRUCache` keeps its entries in a list, the most recently used first, and finds the nodes
of the list by a hash table of iterators.  An iterator is the address of a node.  A use of
an iterator whose node is not in the list is not defined, and the functions have no result
then.
-/

namespace Ctgfs.Util

open Foundation

variable {T W : Type}

structure Node (T W : Type) where
  address : Nat
  key : T
  value : W
  deriving DecidableEq, Repr

/-- `LRUCache`; a new node gets the address `fresh`. -/
structure LruCache (T W : Type) where
  capacity : Nat
  hasCallback : Bool
  table : T → Option Nat
  list : List (Node T W)
  fresh : Nat

namespace LruCache

def new (capacity : Nat) (hasCallback : Bool) : LruCache T W :=
  ⟨capacity, hasCallback, fun _ => none, [], 0⟩

def node (cache : LruCache T W) (address : Nat) : Option (Node T W) :=
  cache.list.find? fun node => decide (node.address = address)

variable (cache : LruCache T W)

/-- `list_.splice(list_.begin(), list_, it->second)`. -/
def splice (address : Nat) : Option (LruCache T W) := do
  let node ← cache.node address
  return { cache with
    list := node :: cache.list.filter fun other => decide (other.address ≠ address) }

/-- `it->second->second = value`. -/
def assign (address : Nat) (value : W) : Option (LruCache T W) := do
  let _ ← cache.node address
  return { cache with
    list := cache.list.map fun other =>
      if other.address = address then { other with value } else other }

def keys : List T :=
  cache.list.map Node.key

variable [DecidableEq T]

/-- `hs_table_[key] = list_.begin()`. -/
def link (key : T) : LruCache T W :=
  { cache with table := Function.update cache.table key (cache.list.head?.map Node.address) }

/-- `LRUCache::Get`: the value when it returns true. -/
def get (key : T) : Option (Option W × LruCache T W) :=
  match cache.table key with
  | some address => do
      let spliced ← cache.splice address
      let linked := spliced.link key
      let address ← linked.table key
      let node ← linked.node address
      return (some node.value, linked)
  | none => some (none, cache)

def evict : Option (List (T × W) × LruCache T W) := do
  let last ← cache.list.getLast?
  return (if cache.hasCallback then [(last.key, last.value)] else [],
    { cache with
      table := Function.update cache.table last.key none
      list := cache.list.dropLast })

/-- `list_.push_front({key, value})` and the entry in the table. -/
def pushFront (key : T) (value : W) : LruCache T W :=
  link { cache with
    list := ⟨cache.fresh, key, value⟩ :: cache.list
    fresh := cache.fresh + 1 } key

/-- `LRUCache::Put` with the invocations of the callback; it returns true. -/
def put (key : T) (value : W) : Option (List (T × W) × LruCache T W) :=
  match cache.table key with
  | some address => do
      let assigned ← cache.assign address value
      let spliced ← assigned.splice address
      return ([], spliced.link key)
  | none =>
      let pushed := cache.pushFront key value
      if pushed.capacity < pushed.list.length then pushed.evict else some ([], pushed)

end LruCache

inductive LruCall (T W : Type) where
  | get (key : T)
  | put (key : T) (value : W)
  deriving DecidableEq, Repr

def LruCall.key : LruCall T W → T
  | .get key => key
  | .put key _ => key

/-- What a call does outside of the cache: it returns a `bool`, `Get` may assign a value, and
the callback is invoked with keys and values. -/
structure LruOutcome (T W : Type) where
  returned : Bool
  value : Option W
  invoked : List (T × W)
  deriving DecidableEq, Repr

abbrev LruEvent (T W : Type) := LruCall T W × LruOutcome T W

section Calls

variable [DecidableEq T]

def LruCache.call (cache : LruCache T W) : LruCall T W → Option (LruOutcome T W × LruCache T W)
  | .get key => do
      let (value, next) ← cache.get key
      return (⟨value.isSome, value, []⟩, next)
  | .put key value => do
      let (invoked, next) ← cache.put key value
      return (⟨true, none, invoked⟩, next)

def LruCache.Calls (cache : LruCache T W) (event : LruEvent T W) (next : LruCache T W) : Prop :=
  cache.call event.1 = some (event.2, next)

def LruEvent.uses (event : LruEvent T W) (key : T) : Bool :=
  decide (event.1.key = key) && event.2.returned

/-- The value of the last `Put` of a key. -/
def lastPut (history : List (LruEvent T W)) (key : T) : Option W :=
  history.reverse.findSome? fun event =>
    match event.1 with
    | .get _ => none
    | .put other value => if other = key then some value else none

end Calls

section Representation

variable {cache next : LruCache T W} {key : T} {address : Nat} {value : W}

def LruCache.index (cache : LruCache T W) : List (T × Nat) :=
  cache.list.map fun node => (node.key, node.address)

/-- The table and the list have the same keys, each once, and every entry of the table refers
to the node of its key. -/
structure LruCache.Consistent (cache : LruCache T W) : Prop where
  keys : cache.keys.Nodup
  addresses : (cache.list.map Node.address).Nodup
  table : ∀ key address, cache.table key = some address ↔ (key, address) ∈ cache.index
  allocated : ∀ entry ∈ cache.index, entry.2 < cache.fresh

namespace LruCache

theorem mem_index {entry : T × Nat} :
    entry ∈ cache.index ↔ ∃ node ∈ cache.list, node.key = entry.1 ∧ node.address = entry.2 := by
  simp only [index, List.mem_map, Prod.ext_iff]

theorem keys_eq (cache : LruCache T W) : cache.keys = cache.index.map Prod.fst := by
  rw [keys, index, List.map_map]
  rfl

theorem addresses_eq (cache : LruCache T W) :
    cache.list.map Node.address = cache.index.map Prod.snd := by
  rw [index, List.map_map]
  rfl

namespace Consistent

section

variable (consistent : cache.Consistent)

include consistent

theorem perm (index : next.index.Perm cache.index) (table : next.table = cache.table)
    (fresh : next.fresh = cache.fresh) : next.Consistent := by
  constructor
  · rw [keys_eq, (index.map Prod.fst).nodup_iff, ← keys_eq]
    exact consistent.keys
  · rw [addresses_eq, (index.map Prod.snd).nodup_iff, ← addresses_eq]
    exact consistent.addresses
  · intro key address
    rw [table, index.mem_iff]
    exact consistent.table key address
  · intro entry member
    rw [fresh]
    exact consistent.allocated entry (index.mem_iff.mp member)

theorem exists_node (found : cache.table key = some address) :
    ∃ node ∈ cache.list, node.key = key ∧ node.address = address :=
  mem_index.mp ((consistent.table key address).mp found)

theorem table_eq_none_iff : cache.table key = none ↔ key ∉ cache.keys := by
  rw [Option.eq_none_iff_forall_ne_some, keys_eq, List.mem_map]
  constructor
  · rintro absent ⟨⟨_, address⟩, inside, rfl⟩
    exact absent address ((consistent.table _ _).mpr inside)
  · intro absent address found
    exact absent ⟨(key, address), (consistent.table _ _).mp found, rfl⟩

theorem table_node {node : Node T W} (member : node ∈ cache.list) :
    cache.table node.key = some node.address :=
  (consistent.table _ _).mpr (mem_index.mpr ⟨node, member, rfl, rfl⟩)

theorem node_eq {node : Node T W} (member : node ∈ cache.list) :
    cache.node node.address = some node := by
  cases search : cache.node node.address with
  | none =>
      have missing := List.find?_eq_none.mp search node member
      exact absurd (decide_eq_true rfl) missing
  | some found =>
      have inside : found ∈ cache.list := List.mem_of_find?_eq_some search
      have chosen : decide (found.address = node.address) = true :=
        List.find?_some (p := fun other : Node T W => decide (other.address = node.address)) search
      have same : found.address = node.address := of_decide_eq_true chosen
      rw [List.inj_on_of_nodup_map consistent.addresses inside member same]

theorem address_eq_iff {node other : Node T W} (member : node ∈ cache.list)
    (inside : other ∈ cache.list) : other.address = node.address ↔ other.key = node.key := by
  constructor
  · intro same
    rw [List.inj_on_of_nodup_map consistent.addresses inside member same]
  · intro same
    have keys : (cache.list.map Node.key).Nodup := consistent.keys
    rw [List.inj_on_of_nodup_map keys inside member same]

end

end Consistent

end LruCache

end Representation

section Steps

variable [DecidableEq T] {cache next : LruCache T W} {key : T} {value : W} {node : Node T W}

namespace LruCache

def others (cache : LruCache T W) (key : T) : List (Node T W) :=
  cache.list.filter fun other => decide (other.key ≠ key)

namespace Consistent

section

variable (consistent : cache.Consistent)

include consistent

theorem splice_eq (member : node ∈ cache.list) :
    cache.splice node.address = some { cache with list := node :: cache.others node.key } := by
  have same : cache.list.filter (fun other => decide (other.address ≠ node.address)) =
      cache.others node.key := by
    apply List.filter_congr
    intro other inside
    rw [decide_eq_decide, not_iff_not]
    exact consistent.address_eq_iff member inside
  rw [splice, consistent.node_eq member]
  simp only [bind, Option.bind, same]
  rfl

theorem perm_front (member : node ∈ cache.list) :
    (node :: cache.others node.key).Perm cache.list := by
  have keys : (cache.list.map Node.key).Nodup := consistent.keys
  have nodup : cache.list.Nodup := keys.of_map
  have absent : node ∉ cache.others node.key := by
    intro inside
    exact of_decide_eq_true (List.mem_filter.mp inside).2 rfl
  rw [List.perm_ext_iff_of_nodup (List.nodup_cons.mpr ⟨absent, nodup.filter _⟩) nodup]
  intro other
  rw [List.mem_cons, others, List.mem_filter, decide_eq_true_iff]
  constructor
  · rintro (rfl | ⟨inside, -⟩)
    · exact member
    · exact inside
  · intro inside
    by_cases same : other.key = node.key
    · exact Or.inl (List.inj_on_of_nodup_map keys inside member same)
    · exact Or.inr ⟨inside, same⟩

theorem link_eq {front : Node T W} {rest : List (Node T W)} (list : cache.list = front :: rest) :
    cache.link front.key = cache := by
  have found : cache.table front.key = some front.address :=
    consistent.table_node (by rw [list]; exact List.mem_cons_self)
  have head : cache.list.head?.map Node.address = cache.table front.key := by
    rw [found, list]
    rfl
  rw [link, head, Function.update_eq_self]

theorem moved (member : node ∈ cache.list) :
    ({ cache with list := node :: cache.others node.key } : LruCache T W).Consistent :=
  consistent.perm ((consistent.perm_front member).map _) rfl rfl

theorem assigned (member : node ∈ cache.list) (value : W) :
    ∃ next, cache.assign node.address value = some next ∧ next.Consistent ∧
      next = { cache with list := next.list } ∧ { node with value } ∈ next.list ∧
        next.others node.key = cache.others node.key := by
  refine ⟨_, by rw [assign, consistent.node_eq member]; rfl, ?_, rfl, ?_, ?_⟩
  · refine consistent.perm (List.Perm.of_eq ?_) rfl rfl
    rw [index, index, List.map_map]
    apply List.map_congr_left
    intro other inside
    simp only [Function.comp]
    split
    · rfl
    · rfl
  · exact List.mem_map.mpr ⟨node, member, if_pos rfl⟩
  · rw [others, List.filter_map]
    have sameKeys : ((fun other : Node T W => decide (other.key ≠ node.key)) ∘ fun other =>
        if other.address = node.address then { other with value } else other) =
          fun other => decide (other.key ≠ node.key) := by
      funext other
      simp only [Function.comp]
      split
      · rfl
      · rfl
    rw [sameKeys]
    refine (List.map_congr_left ?_).trans (List.map_id _)
    intro other inside
    obtain ⟨inList, different⟩ := List.mem_filter.mp inside
    rw [if_neg fun same =>
      of_decide_eq_true different ((consistent.address_eq_iff member inList).mp same)]
    rfl

theorem pushed (absent : key ∉ cache.keys) (value : W) :
    (cache.pushFront key value).Consistent := by
  have unused : ∀ entry ∈ cache.index, entry.2 ≠ cache.fresh := by
    intro entry member
    exact Nat.ne_of_lt (consistent.allocated entry member)
  constructor
  · exact List.nodup_cons.mpr ⟨absent, consistent.keys⟩
  · refine List.nodup_cons.mpr ⟨?_, consistent.addresses⟩
    rw [addresses_eq]
    intro member
    obtain ⟨entry, inside, same⟩ := List.mem_map.mp member
    exact unused entry inside same
  · intro other address
    have index : ∀ entry : T × Nat, entry ∈ (cache.pushFront key value).index ↔
        entry = (key, cache.fresh) ∨ entry ∈ cache.index := fun entry => List.mem_cons
    rw [index, ← consistent.table, Prod.mk.injEq]
    simp only [pushFront, link, List.head?_cons, Option.map_some]
    by_cases same : other = key
    · subst same
      rw [Function.update_self, consistent.table_eq_none_iff.mpr absent]
      simp [eq_comm]
    · rw [Function.update_of_ne same]
      simp [same]
  · intro entry member
    rcases List.mem_cons.mp member with rfl | old
    · exact Nat.lt_succ_self _
    · exact Nat.lt_succ_of_lt (consistent.allocated entry old)

theorem evict_eq {last : Node T W} (isLast : cache.list.getLast? = some last) :
    ∃ next, cache.evict =
        some (if cache.hasCallback then [(last.key, last.value)] else [], next) ∧
      next.Consistent ∧ next.list = cache.list.dropLast ∧ next.capacity = cache.capacity ∧
        next.hasCallback = cache.hasCallback := by
  let next : LruCache T W :=
    { cache with
      table := Function.update cache.table last.key none
      list := cache.list.dropLast }
  refine ⟨next, by rw [evict, isLast]; rfl, ?_, rfl, rfl, rfl⟩
  have part : next.list.Sublist cache.list := List.dropLast_sublist _
  constructor
  · exact (part.map Node.key).nodup consistent.keys
  · exact (part.map Node.address).nodup consistent.addresses
  · intro other address
    obtain ⟨start, shape⟩ := List.getLast?_eq_some_iff.mp isLast
    have left : next.index = start.map fun node => (node.key, node.address) := by
      simp [next, LruCache.index, shape]
    have whole : (other, address) ∈ cache.index ↔
        (other, address) ∈ next.index ∨ other = last.key ∧ address = last.address := by
      rw [left, LruCache.index, shape, List.map_append, List.mem_append, List.map_singleton,
        List.mem_singleton, Prod.mk.injEq]
    have gone : last.key ∉ start.map Node.key := by
      have keys := consistent.keys
      rw [LruCache.keys, shape, List.map_append] at keys
      intro inside
      exact (List.nodup_append.mp keys).2.2 _ inside last.key (List.mem_singleton_self _) rfl
    by_cases same : other = last.key
    · have absent : (last.key, address) ∉ next.index := by
        rw [left]
        intro inside
        obtain ⟨node, member, equal⟩ := List.mem_map.mp inside
        exact gone (List.mem_map.mpr ⟨node, member, (Prod.mk.inj equal).1⟩)
      rw [same]
      simp only [next, Function.update_self]
      exact ⟨fun none => (Option.some_ne_none _ none.symm).elim, fun inside => absurd inside absent⟩
    · have kept : next.table other = cache.table other := Function.update_of_ne same _ _
      rw [kept, consistent.table, whole]
      exact ⟨fun inside => inside.resolve_right fun both => same both.1, Or.inl⟩
  · intro entry member
    exact consistent.allocated entry ((part.map _).subset member)

end

end Consistent

inductive Moves (cache : LruCache T W) : LruCall T W → LruOutcome T W → LruCache T W → Prop where
  | miss {key : T} : key ∉ cache.keys → Moves cache (.get key) ⟨false, none, []⟩ cache
  | hit {node : Node T W} {next : LruCache T W} : node ∈ cache.list →
      next.list = node :: cache.others node.key →
      Moves cache (.get node.key) ⟨true, some node.value, []⟩ next
  | update {node : Node T W} {value : W} {next : LruCache T W} : node ∈ cache.list →
      next.list = { node with value } :: cache.others node.key →
      Moves cache (.put node.key value) ⟨true, none, []⟩ next
  | insert {key : T} {value : W} {next : LruCache T W} : key ∉ cache.keys →
      cache.list.length < cache.capacity → next.list = ⟨cache.fresh, key, value⟩ :: cache.list →
      Moves cache (.put key value) ⟨true, none, []⟩ next
  | evict {key : T} {value : W} {last : Node T W} {next : LruCache T W} : key ∉ cache.keys →
      cache.capacity ≤ cache.list.length →
      (⟨cache.fresh, key, value⟩ :: cache.list).getLast? = some last →
      next.list = (⟨cache.fresh, key, value⟩ :: cache.list).dropLast →
      Moves cache (.put key value)
        ⟨true, none, if cache.hasCallback then [(last.key, last.value)] else []⟩ next

namespace Consistent

theorem get_moves (consistent : cache.Consistent) (key : T) :
    ∃ outcome next, cache.call (.get key) = some (outcome, next) ∧
      cache.Moves (.get key) outcome next ∧ next.Consistent ∧
      next.capacity = cache.capacity ∧ next.hasCallback = cache.hasCallback := by
  cases found : cache.table key with
  | none =>
      refine ⟨_, cache, ?_, .miss (consistent.table_eq_none_iff.mp found), consistent, rfl, rfl⟩
      simp only [call, get, found]
      rfl
  | some address =>
      obtain ⟨node, member, rfl, rfl⟩ := consistent.exists_node found
      have moved := consistent.moved member
      refine ⟨_, _, ?_, .hit member rfl, moved, rfl, rfl⟩
      have linked := moved.link_eq rfl
      have front := moved.node_eq List.mem_cons_self
      simp only [call, get, found, consistent.splice_eq member, linked, front, bind,
        Option.bind]
      rfl

theorem put_moves (consistent : cache.Consistent) (key : T) (value : W) :
    ∃ outcome next, cache.call (.put key value) = some (outcome, next) ∧
      cache.Moves (.put key value) outcome next ∧ next.Consistent ∧
      next.capacity = cache.capacity ∧ next.hasCallback = cache.hasCallback := by
  cases found : cache.table key with
  | none =>
      have absent := consistent.table_eq_none_iff.mp found
      have pushed := consistent.pushed absent value
      by_cases full : cache.capacity < cache.list.length + 1
      · obtain ⟨last, isLast⟩ : ∃ last, (⟨cache.fresh, key, value⟩ :: cache.list).getLast? =
            some last := ⟨_, List.getLast?_eq_some_getLast (List.cons_ne_nil _ _)⟩
        obtain ⟨next, evicted, kept, list, capacity, callback⟩ := pushed.evict_eq isLast
        refine ⟨_, next, ?_, .evict absent (Nat.le_of_lt_succ full) isLast list, kept, capacity,
          callback⟩
        have grown : (cache.pushFront key value).capacity <
            (cache.pushFront key value).list.length := full
        simp only [call, put, found, if_pos grown, evicted, bind, Option.bind]
        rfl
      · refine ⟨_, _, ?_, .insert absent (by omega) rfl, pushed, rfl, rfl⟩
        have room : ¬ (cache.pushFront key value).capacity <
            (cache.pushFront key value).list.length := full
        simp only [call, put, found, if_neg room]
        rfl
  | some address =>
      obtain ⟨node, member, rfl, rfl⟩ := consistent.exists_node found
      obtain ⟨middle, assigned, kept, same, front, rest⟩ := consistent.assigned member value
      have moved := kept.moved front
      have spliced := kept.splice_eq front
      have linked := moved.link_eq rfl
      refine ⟨_, _, ?_, .update member ?_, moved, ?_, ?_⟩
      · simp only [call, put, found, assigned, spliced, linked, bind, Option.bind]
        rfl
      · exact congrArg _ rest
      · rw [same]
      · rw [same]

end Consistent

theorem Consistent.call_moves (consistent : cache.Consistent) (call : LruCall T W) :
    ∃ outcome next, cache.call call = some (outcome, next) ∧ cache.Moves call outcome next ∧
      next.Consistent ∧ next.capacity = cache.capacity ∧
      next.hasCallback = cache.hasCallback := by
  cases call with
  | get key => exact consistent.get_moves key
  | put key value => exact consistent.put_moves key value

end LruCache

end Steps

section History

variable [DecidableEq T] {cache next : LruCache T W} {history : List (LruEvent T W)}
  {call : LruCall T W} {outcome : LruOutcome T W}

theorem lastPut_put (key : T) (value : W) :
    lastPut (history ++ [(.put key value, outcome)]) key = some value := by
  simp [lastPut]

theorem lastPut_other {key : T} (different : call.key ≠ key) :
    lastPut (history ++ [(call, outcome)]) key = lastPut history key := by
  cases call with
  | get other => simp [lastPut]
  | put other value =>
      have unequal : other ≠ key := different
      simp [lastPut, unequal]

theorem lastPut_get (key other : T) :
    lastPut (history ++ [(.get key, outcome)]) other = lastPut history other := by
  simp [lastPut]

namespace LruCache

/-- The list is a bounded recency list: it holds at most as many keys as the capacity, in the
order of their last uses, with the values of their last `Put`s. -/
structure Recent (history : List (LruEvent T W)) (cache : LruCache T W) : Prop where
  consistent : cache.Consistent
  bounded : cache.list.length ≤ cache.capacity
  sorted : ByRecency (lastUse LruEvent.uses history) cache.keys
  values : ∀ node ∈ cache.list, lastPut history node.key = some node.value

theorem Recent.sorted_front (recent : cache.Recent history) (used : outcome.returned = true)
    {rest : List T} (part : rest.Sublist cache.keys) (absent : call.key ∉ rest) :
    ByRecency (lastUse LruEvent.uses (history ++ [(call, outcome)])) (call.key :: rest) := by
  have same : ∀ other ∈ rest, lastUse LruEvent.uses (history ++ [(call, outcome)]) other =
      lastUse LruEvent.uses history other := by
    intro other member
    have different : call.key ≠ other := by
      rintro rfl
      exact absent member
    apply lastUse_concat_of_not
    rw [LruEvent.uses, decide_eq_false different, Bool.false_and]
  have last : lastUse LruEvent.uses (history ++ [(call, outcome)]) call.key =
      history.length + 1 := by
    apply lastUse_concat_of_uses
    rw [LruEvent.uses, used, decide_eq_true rfl, Bool.true_and]
  refine ((recent.sorted.sublist part).congr same).cons ?_
  intro other member
  rw [same other member, last]
  exact Nat.lt_succ_of_le lastUse_le

theorem key_mem_others {key : T} {node : Node T W} (member : node ∈ cache.others key) :
    node ∈ cache.list ∧ node.key ≠ key := by
  obtain ⟨inside, different⟩ := List.mem_filter.mp member
  exact ⟨inside, of_decide_eq_true different⟩

theorem not_mem_others (cache : LruCache T W) (key : T) :
    key ∉ (cache.others key).map Node.key := by
  intro member
  obtain ⟨node, inside, same⟩ := List.mem_map.mp member
  exact (key_mem_others inside).2 same

theorem others_sublist (cache : LruCache T W) (key : T) :
    ((cache.others key).map Node.key).Sublist cache.keys :=
  List.filter_sublist.map Node.key

theorem Recent.values_pushed (recent : cache.Recent history) {key : T} {value : W}
    (absent : key ∉ cache.keys) {node : Node T W}
    (member : node ∈ (⟨cache.fresh, key, value⟩ :: cache.list : List (Node T W))) :
    lastPut (history ++ [(.put key value, outcome)]) node.key = some node.value := by
  rcases List.mem_cons.mp member with rfl | old
  · exact lastPut_put _ _
  · have different : (LruCall.put key value).key ≠ node.key := by
      rintro rfl
      exact absent (List.mem_map_of_mem old)
    rw [lastPut_other different]
    exact recent.values node old

theorem Recent.moves (recent : cache.Recent history) (moves : cache.Moves call outcome next)
    (consistent : next.Consistent) (capacity : next.capacity = cache.capacity) :
    next.Recent (history ++ [(call, outcome)]) := by
  have bounded := recent.bounded
  rw [← capacity] at bounded
  cases moves with
  | @miss key absent =>
      refine ⟨consistent, bounded, ?_, ?_⟩
      · refine recent.sorted.congr fun other member => ?_
        apply lastUse_concat_of_not
        rw [LruEvent.uses, Bool.and_false]
      · intro node member
        rw [lastPut_get]
        exact recent.values node member
  | @hit node next member list =>
      have perm := recent.consistent.perm_front member
      rw [← list] at perm
      refine ⟨consistent, by rw [perm.length_eq]; exact bounded, ?_, ?_⟩
      · rw [keys, list]
        exact recent.sorted_front rfl (cache.others_sublist _) (cache.not_mem_others _)
      · intro other inside
        rw [lastPut_get]
        exact recent.values other (perm.mem_iff.mp inside)
  | @update node value next member list =>
      have length := (recent.consistent.perm_front member).length_eq
      refine ⟨consistent, ?_, ?_, ?_⟩
      · rw [list, List.length_cons]
        rw [List.length_cons] at length
        omega
      · rw [keys, list]
        exact recent.sorted_front rfl (cache.others_sublist _) (cache.not_mem_others _)
      · intro other inside
        rw [list] at inside
        rcases List.mem_cons.mp inside with rfl | old
        · exact lastPut_put _ _
        · obtain ⟨inList, different⟩ := key_mem_others old
          rw [lastPut_other fun same => different same.symm]
          exact recent.values other inList
  | @insert key value next absent room list =>
      refine ⟨consistent, ?_, ?_, ?_⟩
      · rw [list, List.length_cons]
        omega
      · rw [keys, list]
        exact recent.sorted_front rfl (List.Sublist.refl _) absent
      · intro other inside
        rw [list] at inside
        exact recent.values_pushed absent inside
  | @evict key value last next absent full isLast list =>
      have part : next.list.Sublist (⟨cache.fresh, key, value⟩ :: cache.list) := by
        rw [list]
        exact List.dropLast_sublist _
      refine ⟨consistent, ?_, ?_, ?_⟩
      · rw [list, List.length_dropLast, List.length_cons]
        exact bounded
      · refine ByRecency.sublist ?_ (part.map Node.key)
        exact recent.sorted_front rfl (List.Sublist.refl _) absent
      · intro other inside
        exact recent.values_pushed absent (part.subset inside)

/-- The key whose last use is the oldest one is removed, and the callback is invoked once
with it and the value of its last `Put`. -/
def Evicts (history : List (LruEvent T W)) (cache : LruCache T W) (key : T)
    (invoked : List (T × W)) (next : LruCache T W) : Prop :=
  ∃ evicted value, evicted ∈ key :: cache.keys ∧
    (∀ other ∈ key :: cache.keys, other ≠ evicted →
      lastUse LruEvent.uses history evicted < lastUse LruEvent.uses history other) ∧
    (∀ other, other ∈ next.keys ↔ other ∈ key :: cache.keys ∧ other ≠ evicted) ∧
    lastPut history evicted = some value ∧
    invoked = if cache.hasCallback then [(evicted, value)] else []

def Answers (history : List (LruEvent T W)) (cache : LruCache T W) :
    LruCall T W → LruOutcome T W → LruCache T W → Prop
  | .get key, outcome, next =>
      (outcome.returned = true ↔ key ∈ cache.keys) ∧
      outcome.value = (if key ∈ cache.keys then lastPut history key else none) ∧
      outcome.invoked = [] ∧ next.keys.Perm cache.keys
  | .put key value, outcome, next =>
      outcome.returned = true ∧
      if key ∈ cache.keys ∨ cache.list.length < cache.capacity then
        outcome.invoked = [] ∧ ∀ other, other ∈ next.keys ↔ other ∈ key :: cache.keys
      else
        cache.Evicts (history ++ [(.put key value, outcome)]) key outcome.invoked next

theorem Recent.evicts (recent : cache.Recent history) {key : T} {value : W} {last : Node T W}
    (absent : key ∉ cache.keys)
    (isLast : (⟨cache.fresh, key, value⟩ :: cache.list).getLast? = some last)
    (list : next.list = (⟨cache.fresh, key, value⟩ :: cache.list).dropLast)
    (used : outcome.returned = true) :
    cache.Evicts (history ++ [(.put key value, outcome)]) key
      (if cache.hasCallback then [(last.key, last.value)] else []) next := by
  obtain ⟨start, shape⟩ := List.getLast?_eq_some_iff.mp isLast
  have keys_eq : key :: cache.keys = start.map Node.key ++ [last.key] := by
    have mapped := congrArg (List.map Node.key) shape
    rw [List.map_append] at mapped
    exact mapped
  have sorted : ByRecency (lastUse LruEvent.uses (history ++ [(.put key value, outcome)]))
      (key :: cache.keys) := recent.sorted_front used (List.Sublist.refl _) absent
  have lastKey : (key :: cache.keys).getLast? = some last.key := by
    rw [keys_eq, List.getLast?_concat]
  have inside : last ∈ (⟨cache.fresh, key, value⟩ :: cache.list : List (Node T W)) :=
    List.mem_of_getLast? isLast
  refine ⟨last.key, last.value, List.mem_of_getLast? lastKey, ?_, ?_,
    recent.values_pushed absent inside, rfl⟩
  · intro other member different
    exact sorted.oldest lastKey member different
  · intro other
    have nodup := sorted.nodup
    rw [keys_eq, List.nodup_append] at nodup
    have kept : next.keys = start.map Node.key := by
      rw [keys, list, shape, List.dropLast_concat]
    rw [kept, keys_eq, List.mem_append, List.mem_singleton]
    constructor
    · intro member
      exact ⟨Or.inl member, nodup.2.2 other member last.key (List.mem_singleton_self _)⟩
    · rintro ⟨member | same, different⟩
      · exact member
      · exact absurd same different

theorem Recent.answers (recent : cache.Recent history) (moves : cache.Moves call outcome next) :
    cache.Answers history call outcome next := by
  cases moves with
  | @miss key absent =>
      refine ⟨?_, (if_neg absent).symm, rfl, List.Perm.refl _⟩
      exact ⟨fun hit => (Bool.false_ne_true hit).elim, fun inside => absurd inside absent⟩
  | @hit node next member list =>
      have kept : node.key ∈ cache.keys := List.mem_map_of_mem member
      have perm := recent.consistent.perm_front member
      rw [← list] at perm
      refine ⟨iff_of_true rfl kept, ?_, rfl, perm.map Node.key⟩
      rw [if_pos kept, recent.values node member]
  | @update node value next member list =>
      have kept : node.key ∈ cache.keys := List.mem_map_of_mem member
      have perm := (recent.consistent.perm_front member).map Node.key
      refine ⟨rfl, ?_⟩
      rw [if_pos (Or.inl kept)]
      refine ⟨rfl, fun other => ?_⟩
      have same : next.keys = (node :: cache.others node.key).map Node.key := by
        rw [keys, list]
        rfl
      rw [same, perm.mem_iff, List.mem_cons]
      exact ⟨Or.inr, fun inside => inside.elim (fun equal => equal ▸ kept) id⟩
  | @insert key value next absent room list =>
      refine ⟨rfl, ?_⟩
      rw [if_pos (Or.inr room)]
      refine ⟨rfl, fun other => ?_⟩
      rw [keys, list]
      rfl
  | @evict key value last next absent full isLast list =>
      refine ⟨rfl, ?_⟩
      rw [if_neg (not_or.mpr ⟨absent, Nat.not_lt.mpr full⟩)]
      exact recent.evicts absent isLast list rfl
end LruCache

/-- In every run the list is a bounded recency list that the table refers to, and the next
call returns and evicts what such a list gives. -/
theorem lru_recency_list (capacity : Nat) (hasCallback : Bool)
    (run : Run LruCache.Calls (.new capacity hasCallback) history cache) :
    cache.Recent history ∧ cache.capacity = capacity ∧ cache.hasCallback = hasCallback ∧
      ∀ call, ∃ outcome next, cache.call call = some (outcome, next) ∧
        cache.Answers history call outcome next := by
  have recent : cache.Recent history ∧ cache.capacity = capacity ∧
      cache.hasCallback = hasCallback := by
    refine run.history (fun history cache => cache.Recent history ∧ cache.capacity = capacity ∧
      cache.hasCallback = hasCallback) ?_ ?_
    · refine ⟨⟨⟨List.nodup_nil, List.nodup_nil, ?_, ?_⟩, Nat.zero_le _, List.Pairwise.nil, ?_⟩,
        rfl, rfl⟩
      · intro key address
        exact ⟨fun found => (Option.some_ne_none _ found.symm).elim, by rintro ⟨⟩⟩
      · rintro entry ⟨⟩
      · rintro node ⟨⟩
    · rintro history cache ⟨call, outcome⟩ next ⟨recent, rfl, rfl⟩ ran
      obtain ⟨result, after, called, moves, consistent, capacity, callback⟩ :=
        recent.consistent.call_moves call
      obtain ⟨rfl, rfl⟩ := Prod.mk.inj (Option.some.inj (called.symm.trans ran))
      exact ⟨recent.moves moves consistent capacity, capacity, callback⟩
  refine ⟨recent.1, recent.2.1, recent.2.2, fun call => ?_⟩
  obtain ⟨outcome, next, called, moves, -⟩ := recent.1.consistent.call_moves call
  exact ⟨outcome, next, called, recent.1.answers moves⟩

/-- With room for one entry, the second `Put` evicts the first key. -/
theorem lru_recency_list_full :
    ∃ cache : LruCache Nat Nat,
      Run LruCache.Calls (.new 1 true) [(.put 7 70, ⟨true, none, []⟩)] cache ∧
      ∃ outcome next, cache.call (.put 8 80) = some (outcome, next) ∧
        cache.Answers [(.put 7 70, ⟨true, none, []⟩)] (.put 8 80) outcome next := by
  have run : Run LruCache.Calls (.new 1 true) [(.put 7 70, ⟨true, none, []⟩)]
      (LruCache.pushFront (.new 1 true) 7 70) := Run.refl.tail rfl
  obtain ⟨-, -, -, answers⟩ := lru_recency_list 1 true run
  exact ⟨_, run, answers (.put 8 80)⟩

/-- Without any room a new key is evicted by its own `Put`. -/
example : ((LruCache.new 0 true : LruCache Nat Nat).call (.put 7 70)).map
    (fun result => (result.1.invoked, result.2.keys)) = some ([(7, 70)], []) := rfl

end History

end Ctgfs.Util
