import Mathlib.Data.List.Basic
import Mathlib.Order.Nat

/-!
# The reply window of an RPC server

`rpcs` remembers, for every client nonce, the requests that it has seen and that
the client has not acknowledged yet, in a list ordered by transaction id.  The
list operations below are those of `gc_reply_window`,
`checkduplicate_and_update` and `add_reply`; they compare transaction ids and
never compute with them.  A nonce without an entry in the map and a nonce with
an empty list behave alike, so the map is a function.
-/

namespace Ctgfs.Rpc

universe u

variable {Buf : Type u}

/-- `rpcs::reply_t`; a null `buf` is `none`. -/
structure Reply (Buf : Type u) where
  xid : Nat
  cbPresent : Bool
  buf : Option Buf
  sz : Int
  deriving DecidableEq, Repr

/-- The constructor of `reply_t`: a request whose handler has not returned. -/
def Reply.pending (xid : Nat) : Reply Buf := ⟨xid, false, none, 0⟩

/-- `rpcs::rpcstate_t`; only `DONE` writes the out parameters `b` and `sz`. -/
inductive RpcState (Buf : Type u) where
  | new
  | inProgress
  | done (b : Option Buf) (sz : Int)
  | forgotten
  deriving DecidableEq, Repr

abbrev Window (Buf : Type u) := List (Reply Buf)

/-- `rpcs::gc_reply_window` drops acknowledged replies from the front, but never
the last entry of the list. -/
def gcReplyWindow (xidRep : Nat) : Window Buf → Window Buf
  | [] => []
  | [last] => [last]
  | reply :: next :: rest =>
      if reply.xid < xidRep then gcReplyWindow xidRep (next :: rest)
      else reply :: next :: rest

/-- The loop of `checkduplicate_and_update` over a window whose front is not
beyond `xid`: an unseen request takes its place in the order. -/
def place (xid : Nat) : Window Buf → RpcState Buf × Window Buf
  | [] => (.new, [Reply.pending xid])
  | reply :: rest =>
      if xid < reply.xid then (.new, Reply.pending xid :: reply :: rest)
      else if reply.xid < xid then
        ((place xid rest).1, reply :: (place xid rest).2)
      else if reply.cbPresent then (.done reply.buf reply.sz, reply :: rest)
      else (.inProgress, reply :: rest)

/-- `rpcs::checkduplicate_and_update` on the window of one client. -/
def checkWindow (xid xidRep : Nat) : Window Buf → RpcState Buf × Window Buf
  | [] => (.new, [Reply.pending xid])
  | front :: rest =>
      if xid < front.xid then (.forgotten, gcReplyWindow xidRep (front :: rest))
      else
        ((place xid (front :: rest)).1,
          gcReplyWindow xidRep (place xid (front :: rest)).2)

/-- `rpcs::add_reply` on the window of one client. -/
def fillReply (xid : Nat) (b : Option Buf) (sz : Int) (window : Window Buf) : Window Buf :=
  window.map fun reply =>
    if reply.xid = xid then { reply with cbPresent := true, buf := b, sz := sz } else reply

abbrev ReplyWindow (Buf : Type u) := Nat → Window Buf

def checkduplicateAndUpdate (replyWindow : ReplyWindow Buf) (cltNonce xid xidRep : Nat) :
    RpcState Buf × ReplyWindow Buf :=
  let checked := checkWindow xid xidRep (replyWindow cltNonce)
  (checked.1, Function.update replyWindow cltNonce checked.2)

/-- `rpcs::add_reply`; `none` is the failure of `VERIFY(0)` on an empty window. -/
def addReply (replyWindow : ReplyWindow Buf) (cltNonce xid : Nat) (b : Option Buf) (sz : Int) :
    Option (ReplyWindow Buf) :=
  if (replyWindow cltNonce).isEmpty then none
  else some (Function.update replyWindow cltNonce
    (fillReply xid b sz (replyWindow cltNonce)))

def Ordered (window : Window Buf) : Prop :=
  window.Pairwise fun first second => first.xid < second.xid

theorem gcReplyWindow_suffix (xidRep : Nat) (window : Window Buf) :
    gcReplyWindow xidRep window <:+ window := by
  fun_induction gcReplyWindow xidRep window with
  | case1 => exact List.suffix_rfl
  | case2 last => exact List.suffix_rfl
  | case3 reply next rest acknowledged ih =>
      exact ih.trans (List.suffix_cons _ _)
  | case4 reply next rest kept => exact List.suffix_rfl

variable {window : Window Buf}

theorem gcReplyWindow_ne_nil (xidRep : Nat) (nonempty : window ≠ []) :
    gcReplyWindow xidRep window ≠ [] := by
  fun_induction gcReplyWindow xidRep window with
  | case1 => exact nonempty
  | case2 last => simp
  | case3 reply next rest acknowledged ih =>
      exact ih (by simp)
  | case4 reply next rest kept => simp

theorem Ordered.gcReplyWindow (ordered : Ordered window) (xidRep : Nat) :
    Ordered (gcReplyWindow xidRep window) :=
  ordered.sublist (gcReplyWindow_suffix xidRep window).sublist

variable {reply : Reply Buf}

theorem Ordered.kept_or_below (ordered : Ordered window) (xidRep : Nat) (member : reply ∈ window) :
    reply ∈ Rpc.gcReplyWindow xidRep window ∨
      ∀ kept ∈ Rpc.gcReplyWindow xidRep window, reply.xid < kept.xid := by
  obtain ⟨dropped, split⟩ := gcReplyWindow_suffix xidRep window
  rw [← split] at member
  rcases List.mem_append.mp member with inDropped | inKept
  · right
    intro kept keptMember
    unfold Ordered at ordered
    rw [← split, List.pairwise_append] at ordered
    exact ordered.2.2 reply inDropped kept keptMember
  · exact .inl inKept

variable {xidRep : Nat}

theorem mem_gcReplyWindow_of_le (member : reply ∈ window) (unacknowledged : xidRep ≤ reply.xid) :
    reply ∈ gcReplyWindow xidRep window := by
  fun_induction gcReplyWindow xidRep window with
  | case1 => exact member
  | case2 last => exact member
  | case3 head next rest acknowledged ih =>
      rcases List.mem_cons.mp member with rfl | inRest
      · omega
      · exact ih inRest
  | case4 head next rest kept => exact member

theorem le_of_mem_head?_gcReplyWindow {front : Reply Buf}
    (present : ∃ reply ∈ window, xidRep ≤ reply.xid)
    (first : front ∈ (gcReplyWindow xidRep window).head?) : xidRep ≤ front.xid := by
  obtain ⟨reply, member, unacknowledged⟩ := present
  fun_induction gcReplyWindow xidRep window with
  | case1 => cases member
  | case2 last =>
      obtain rfl : last = front := by simpa using first
      rwa [List.mem_singleton.mp member] at unacknowledged
  | case3 head next rest acknowledged ih =>
      rcases List.mem_cons.mp member with rfl | inRest
      · omega
      · exact ih first inRest
  | case4 head next rest kept =>
      obtain rfl : head = front := by simpa using first
      exact not_lt.mp kept

theorem Ordered.head_le (ordered : Ordered window) {front : Reply Buf} (member : reply ∈ window)
    (first : front ∈ window.head?) : front.xid ≤ reply.xid := by
  cases window with
  | nil => cases member
  | cons head rest =>
      obtain rfl : head = front := by simpa using first
      rcases List.mem_cons.mp member with rfl | inRest
      · exact le_refl _
      · exact ((List.pairwise_cons.mp ordered).1 reply inRest).le

variable {xid : Nat}

theorem mem_place :
    reply ∈ (place xid window).2 ↔
      reply ∈ window ∨ ((place xid window).1 = .new ∧ reply = Reply.pending xid) := by
  fun_induction place xid window with
  | case1 => simp
  | case2 head rest smaller => simp [or_comm]
  | case3 head rest _ larger ih =>
      simp only [List.mem_cons, ih, or_assoc]
  | case4 head rest _ _ present => simp
  | case5 head rest _ _ absent => simp

theorem place_ne_nil (xid : Nat) (window : Window Buf) : (place xid window).2 ≠ [] := by
  fun_cases place xid window <;> simp

theorem Ordered.place (ordered : Ordered window) (xid : Nat) : Ordered (place xid window).2 := by
  fun_induction Rpc.place xid window with
  | case1 => simp [Ordered]
  | case2 head rest smaller =>
      refine List.pairwise_cons.mpr ⟨?_, ordered⟩
      intro reply member
      rcases List.mem_cons.mp member with rfl | inRest
      · exact smaller
      · exact smaller.trans ((List.pairwise_cons.mp ordered).1 reply inRest)
  | case3 head rest _ larger ih =>
      have parts := List.pairwise_cons.mp ordered
      refine List.pairwise_cons.mpr ⟨?_, ih parts.2⟩
      intro reply member
      rcases mem_place.mp member with inRest | ⟨_, rfl⟩
      · exact parts.1 reply inRest
      · exact larger
  | case4 head rest _ _ present => exact ordered
  | case5 head rest _ _ absent => exact ordered

theorem place_new_iff (ordered : Ordered window) :
    (place xid window).1 = .new ↔ ∀ reply ∈ window, reply.xid ≠ xid := by
  fun_induction place xid window with
  | case1 => simp
  | case2 head rest smaller =>
      simp only [true_iff]
      intro reply member
      rcases List.mem_cons.mp member with rfl | inRest
      · exact smaller.ne'
      · exact (smaller.trans ((List.pairwise_cons.mp ordered).1 reply inRest)).ne'
  | case3 head rest _ larger ih =>
      rw [ih (List.pairwise_cons.mp ordered).2]
      simp [larger.ne]
  | case4 head rest notSmaller notLarger present =>
      simp [le_antisymm (not_lt.mp notSmaller) (not_lt.mp notLarger)]
  | case5 head rest notSmaller notLarger absent =>
      simp [le_antisymm (not_lt.mp notSmaller) (not_lt.mp notLarger)]

theorem exists_mem_place (ordered : Ordered window) (xid : Nat) :
    ∃ reply ∈ (place xid window).2, reply.xid = xid := by
  by_cases answer : (place xid window).1 = .new
  · exact ⟨_, mem_place.mpr (.inr ⟨answer, rfl⟩), rfl⟩
  · rw [place_new_iff ordered] at answer
    simp only [not_forall, not_not] at answer
    obtain ⟨reply, member, same⟩ := answer
    exact ⟨reply, mem_place.mpr (.inl member), same⟩

theorem place_ne_forgotten (xid : Nat) (window : Window Buf) :
    (place xid window).1 ≠ .forgotten := by
  fun_induction place xid window with
  | case3 head rest _ larger ih => exact ih
  | _ => simp

theorem place_inProgress (answer : (place xid window).1 = .inProgress) :
    ∃ reply ∈ window, reply.xid = xid ∧ reply.cbPresent = false := by
  fun_induction place xid window with
  | case1 => simp at answer
  | case2 head rest smaller => simp at answer
  | case3 head rest _ larger ih =>
      obtain ⟨reply, member, found⟩ := ih answer
      exact ⟨reply, List.mem_cons_of_mem _ member, found⟩
  | case4 head rest _ _ present => simp at answer
  | case5 head rest notSmaller notLarger absent =>
      exact ⟨head, by simp, by omega, by simpa using absent⟩

variable {b : Option Buf} {sz : Int}

theorem place_done (answer : (place xid window).1 = .done b sz) :
    ∃ reply ∈ window, reply.xid = xid ∧ reply.cbPresent = true ∧
      reply.buf = b ∧ reply.sz = sz := by
  fun_induction place xid window with
  | case1 => simp at answer
  | case2 head rest smaller => simp at answer
  | case3 head rest _ larger ih =>
      obtain ⟨reply, member, found⟩ := ih answer
      exact ⟨reply, List.mem_cons_of_mem _ member, found⟩
  | case4 head rest notSmaller notLarger present =>
      simp only [RpcState.done.injEq] at answer
      exact ⟨head, by simp, by omega, present, answer⟩
  | case5 head rest _ _ absent => simp at answer

structure Checked (xid : Nat) (window : Window Buf) (answer : RpcState Buf)
    (next : Window Buf) : Prop where
  nonempty : next ≠ []
  ordered : Ordered next
  /-- Only a request answered `NEW` adds an entry. -/
  origin : ∀ reply ∈ next,
    reply ∈ window ∨ (answer = .new ∧ reply = Reply.pending xid)
  /-- An entry leaves the window only below all entries that stay. -/
  retained : ∀ reply, reply ∈ window ∨ (answer = .new ∧ reply = Reply.pending xid) →
    reply ∈ next ∨ ∀ kept ∈ next, reply.xid < kept.xid
  fresh : answer = .new →
    (∀ reply ∈ window, reply.xid ≠ xid) ∧ ∀ front ∈ window.head?, front.xid < xid
  working : answer = .inProgress →
    ∃ reply ∈ window, reply.xid = xid ∧ reply.cbPresent = false
  replied : ∀ b sz, answer = .done b sz →
    ∃ reply ∈ window, reply.xid = xid ∧ reply.cbPresent = true ∧
      reply.buf = b ∧ reply.sz = sz
  refused : answer = .forgotten ↔ ∃ front ∈ window.head?, xid < front.xid

theorem checkWindow_checked (ordered : Ordered window) (xid xidRep : Nat) :
    Checked xid window (checkWindow xid xidRep window).1 (checkWindow xid xidRep window).2 := by
  fun_cases checkWindow xid xidRep window with
  | case1 =>
      exact ⟨by simp, by simp [Ordered], by simp, by simp, by simp, by simp, by simp, by simp⟩
  | case2 front rest below =>
      refine ⟨gcReplyWindow_ne_nil _ (by simp), ordered.gcReplyWindow _, ?_, ?_, by simp, by simp,
        by simp, by simpa using below⟩
      · intro reply member
        exact .inl ((gcReplyWindow_suffix _ _).subset member)
      · rintro reply (member | ⟨impossible, _⟩)
        · exact ordered.kept_or_below xidRep member
        · simp at impossible
  | case3 front rest reached =>
      have placed := ordered.place xid
      refine ⟨gcReplyWindow_ne_nil _ (place_ne_nil _ _), placed.gcReplyWindow _, ?_, ?_, ?_,
        place_inProgress, fun _ _ => place_done, ?_⟩
      · intro reply member
        exact mem_place.mp ((gcReplyWindow_suffix _ _).subset member)
      · intro reply member
        exact placed.kept_or_below xidRep (mem_place.mpr member)
      · intro answer
        have unseen := (place_new_iff ordered).mp answer
        refine ⟨unseen, ?_⟩
        intro head headMember
        obtain rfl : front = head := by simpa using headMember
        exact lt_of_le_of_ne (not_lt.mp reached) (unseen front (by simp))
      · simp [place_ne_forgotten, reached]

/-- The front of the window stays at or below a number if a request or an entry at or
below it is not acknowledged. -/
theorem checkWindow_head_le (ordered : Ordered window) {anchor bound : Nat}
    (member : anchor ∈ xid :: window.map Reply.xid) (unacknowledged : xidRep ≤ anchor)
    (below : anchor ≤ bound) (reached : ∀ front ∈ window.head?, front.xid ≤ bound) :
    ∀ front ∈ (checkWindow xid xidRep window).2.head?, front.xid ≤ bound := by
  have retained : ∀ {others : Window Buf}, Ordered others →
      (∃ reply ∈ others, reply.xid = anchor) →
      ∀ front ∈ (gcReplyWindow xidRep others).head?, front.xid ≤ bound := by
    rintro others placed ⟨reply, inside, same⟩ front first
    have kept := mem_gcReplyWindow_of_le inside (same ▸ unacknowledged)
    exact ((placed.gcReplyWindow xidRep).head_le kept first).trans (same ▸ below)
  have found : anchor = xid ∨ ∃ reply ∈ window, reply.xid = anchor := by simpa using member
  fun_cases checkWindow xid xidRep window with
  | case1 =>
      intro front first
      obtain rfl : Reply.pending xid = front := by simpa using first
      obtain rfl : anchor = xid := by simpa using found
      exact below
  | case2 head rest refused =>
      rcases found with rfl | inside
      · -- the acknowledged numbers are below the refused request and below the front
        have kept : gcReplyWindow xidRep (head :: rest) = head :: rest := by
          cases rest with
          | nil => rfl
          | cons next rest => exact if_neg (by omega)
        rw [kept]
        exact reached
      · exact retained ordered inside
  | case3 head rest _ =>
      apply retained (ordered.place xid)
      rcases found with rfl | ⟨reply, inside, same⟩
      · exact exists_mem_place ordered _
      · exact ⟨reply, mem_place.mpr (.inl inside), same⟩

theorem checkWindow_le_head (ordered : Ordered window) (carried : xidRep ≤ xid) :
    ∀ front ∈ (checkWindow xid xidRep window).2.head?, xidRep ≤ front.xid := by
  intro front first
  fun_cases checkWindow xid xidRep window with
  | case1 =>
      obtain rfl : Reply.pending xid = front := by simpa [checkWindow] using first
      exact carried
  | case2 head rest refused =>
      simp only [checkWindow, refused, if_true] at first
      exact le_of_mem_head?_gcReplyWindow ⟨head, by simp, by omega⟩ first
  | case3 head rest reached =>
      simp only [checkWindow, reached, if_false] at first
      obtain ⟨reply, member, same⟩ := exists_mem_place ordered xid
      exact le_of_mem_head?_gcReplyWindow ⟨reply, member, by omega⟩ first

@[simp]
theorem fillReply_eq_nil : fillReply xid b sz window = [] ↔ window = [] := by
  simp [fillReply]

theorem Ordered.fillReply (ordered : Ordered window) (xid : Nat) (b : Option Buf) (sz : Int) :
    Ordered (fillReply xid b sz window) := by
  refine List.pairwise_map.mpr (ordered.imp ?_)
  intro first second smaller
  split <;> split <;> simpa using smaller

theorem mem_fillReply (member : reply ∈ fillReply xid b sz window) :
    (reply.xid = xid ∧ reply.cbPresent = true ∧ reply.buf = b ∧ reply.sz = sz ∧
        ∃ old ∈ window, old.xid = xid) ∨
      (reply.xid ≠ xid ∧ reply ∈ window) := by
  obtain ⟨old, oldMember, rfl⟩ := List.mem_map.mp member
  by_cases same : old.xid = xid
  · left
    simp only [same, if_true, true_and]
    exact ⟨old, oldMember, same⟩
  · right
    simpa [same] using oldMember

end Ctgfs.Rpc
