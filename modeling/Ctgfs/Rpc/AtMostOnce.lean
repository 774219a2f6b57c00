import Ctgfs.Foundation.Runs
import Ctgfs.Rpc.ReplyWindow

/-!
# At-most-once execution

A dispatch thread enters the reply window twice: when its request arrives and,
if the answer was `NEW`, when its handler has returned.  Requests of all clients
may arrive in any order and any number of times.  The front of a window never
moves down, so a request that was answered `NEW` is afterwards either in the
window or below all of it, and neither place is answered `NEW` again.
-/

namespace Ctgfs.Rpc

open Foundation

universe u

variable {Buf : Type u}

/-- The state shared by the dispatch threads of one `rpcs`, with the requests
that were answered `NEW` and whose handlers were started. -/
structure Rpcs (Buf : Type u) where
  replyWindow : ReplyWindow Buf
  started : List (Nat × Nat)

def Rpcs.initial : Rpcs Buf := ⟨fun _ => [], []⟩

/-- `dispatch` runs the handler of a request exactly in the case `NEW`. -/
def Rpcs.start (server : Rpcs Buf) (cltNonce xid : Nat) : RpcState Buf → List (Nat × Nat)
  | .new => (cltNonce, xid) :: server.started
  | _ => server.started

/-- The two entries of a dispatch thread into the window; a request carries the
answer that it got. -/
inductive Event (Buf : Type u) where
  | request (cltNonce xid xidRep : Nat) (stat : RpcState Buf)
  | completion (cltNonce xid : Nat) (b : Option Buf) (sz : Int)
  deriving DecidableEq

def Event.cltNonce : Event Buf → Nat
  | .request cltNonce _ _ _ => cltNonce
  | .completion cltNonce _ _ _ => cltNonce

inductive Dispatch : Rpcs Buf → Event Buf → Rpcs Buf → Prop where
  | request {server stat replyWindow} (cltNonce xid xidRep : Nat) :
      checkduplicateAndUpdate server.replyWindow cltNonce xid xidRep = (stat, replyWindow) →
      Dispatch server (.request cltNonce xid xidRep stat)
        ⟨replyWindow, server.start cltNonce xid stat⟩
  | completion {server replyWindow} (cltNonce xid : Nat) (b : Option Buf) (sz : Int) :
      (cltNonce, xid) ∈ server.started →
      addReply server.replyWindow cltNonce xid b sz = some replyWindow →
      Dispatch server (.completion cltNonce xid b sz) ⟨replyWindow, server.started⟩

def Event.answeredNew (cltNonce xid : Nat) : Event Buf → Bool
  | .request nonce seen _ .new => nonce == cltNonce && seen == xid
  | _ => false

def Event.reply? (cltNonce xid : Nat) : Event Buf → Option (Option Buf × Int)
  | .completion nonce seen b sz => if nonce = cltNonce ∧ seen = xid then some (b, sz) else none
  | .request .. => none

def recorded (cltNonce xid : Nat) (events : List (Event Buf)) : Option (Option Buf × Int) :=
  events.foldl (fun last event => (event.reply? cltNonce xid).or last) none

@[simp]
theorem recorded_nil (cltNonce xid : Nat) : recorded cltNonce xid ([] : List (Event Buf)) = none :=
  rfl

@[simp]
theorem recorded_snoc (cltNonce xid : Nat) (events : List (Event Buf)) (event : Event Buf) :
    recorded cltNonce xid (events ++ [event]) =
      (event.reply? cltNonce xid).or (recorded cltNonce xid events) := by
  simp [recorded]

structure Remembers (cltNonce : Nat) (events : List (Event Buf)) (server : Rpcs Buf) : Prop where
  ordered : Ordered (server.replyWindow cltNonce)
  once : ∀ xid, events.countP (Event.answeredNew cltNonce xid) ≤ 1
  answered : ∀ xid, (cltNonce, xid) ∈ server.started ↔
    ∃ event ∈ events, event.answeredNew cltNonce xid = true
  nonempty : ∀ xid, (cltNonce, xid) ∈ server.started → server.replyWindow cltNonce ≠ []
  placed : ∀ xid, (cltNonce, xid) ∈ server.started →
    (∃ reply ∈ server.replyWindow cltNonce, reply.xid = xid) ∨
      ∀ kept ∈ server.replyWindow cltNonce, xid < kept.xid
  entries : ∀ reply ∈ server.replyWindow cltNonce, (cltNonce, reply.xid) ∈ server.started ∧
    recorded cltNonce reply.xid events =
      if reply.cbPresent then some (reply.buf, reply.sz) else none
  completed : ∀ xid, recorded cltNonce xid events ≠ none → (cltNonce, xid) ∈ server.started

theorem Remembers.initial (cltNonce : Nat) :
    Remembers cltNonce [] (Rpcs.initial : Rpcs Buf) := by
  constructor <;> simp [Rpcs.initial, Ordered]

variable {server : Rpcs Buf} {events : List (Event Buf)} {cltNonce : Nat}

theorem Remembers.not_started (remembers : Remembers cltNonce events server) {xid : Nat}
    (unseen : ∀ reply ∈ server.replyWindow cltNonce, reply.xid ≠ xid)
    (above : ∀ front ∈ (server.replyWindow cltNonce).head?, front.xid < xid) :
    (cltNonce, xid) ∉ server.started := by
  intro started
  rcases remembers.placed xid started with ⟨reply, member, same⟩ | below
  · exact unseen reply member same
  · obtain ⟨front, rest, shape⟩ :=
      List.exists_cons_of_ne_nil (remembers.nonempty xid started)
    have smaller := above front (by simp [shape])
    have larger := below front (by simp [shape])
    omega

variable {event : Event Buf} {next : Rpcs Buf}

theorem Dispatch.other_nonce (step : Dispatch server event next)
    (other : event.cltNonce ≠ cltNonce) :
    next.replyWindow cltNonce = server.replyWindow cltNonce := by
  cases step with
  | request _ _ _ answered =>
      obtain ⟨rfl, rfl⟩ := Prod.mk.inj answered
      exact Function.update_of_ne other.symm _ _
  | completion _ _ _ _ started added =>
      unfold addReply at added
      split at added
      · cases added
      · cases added
        exact Function.update_of_ne other.symm _ _

theorem Dispatch.started_other (step : Dispatch server event next)
    (other : event.cltNonce ≠ cltNonce) (xid : Nat) :
    (cltNonce, xid) ∈ next.started ↔ (cltNonce, xid) ∈ server.started := by
  cases step with
  | @request stat _ nonce seen _ answered =>
      have distinct : (cltNonce, xid) ≠ (nonce, seen) := fun same => other (Prod.mk.inj same).1.symm
      cases stat <;> simp [Rpcs.start, distinct]
  | completion _ _ _ _ started added => rfl

theorem Remembers.other (remembers : Remembers cltNonce events server)
    (step : Dispatch server event next) (other : event.cltNonce ≠ cltNonce) :
    Remembers cltNonce (events ++ [event]) next := by
  have window := step.other_nonce other
  have started := step.started_other other
  have uncounted : ∀ xid, event.answeredNew cltNonce xid = false := by
    intro xid
    cases event with
    | request nonce seen rep stat =>
        cases stat <;> simp [Event.answeredNew]
        exact fun same => absurd same other
    | completion nonce seen b sz => rfl
  have unrecorded : ∀ xid, event.reply? cltNonce xid = none := by
    intro xid
    cases event with
    | request nonce seen rep stat => rfl
    | completion nonce seen b sz =>
        simp only [Event.reply?, ite_eq_right_iff]
        exact fun same => absurd same.1 other
  constructor
  · simpa only [window] using remembers.ordered
  · intro xid
    simpa [uncounted xid] using remembers.once xid
  · intro xid
    simpa [started xid, uncounted xid, or_and_right, exists_or] using remembers.answered xid
  · simpa only [window, started] using remembers.nonempty
  · simpa only [window, started] using remembers.placed
  · simpa [window, started, unrecorded] using remembers.entries
  · simpa [started, unrecorded] using remembers.completed

theorem Remembers.request {xid xidRep : Nat} {stat : RpcState Buf} {replyWindow : ReplyWindow Buf}
    (remembers : Remembers cltNonce events server)
    (answered : checkduplicateAndUpdate server.replyWindow cltNonce xid xidRep =
      (stat, replyWindow)) :
    Remembers cltNonce (events ++ [.request cltNonce xid xidRep stat])
      ⟨replyWindow, server.start cltNonce xid stat⟩ := by
  obtain ⟨rfl, rfl⟩ := Prod.mk.inj answered
  have checked := checkWindow_checked remembers.ordered xid xidRep
  generalize checkWindow xid xidRep (server.replyWindow cltNonce) = result at checked ⊢
  obtain ⟨stat, window⟩ := result
  have started : ∀ seen, (cltNonce, seen) ∈ server.start cltNonce xid stat ↔
      (cltNonce, seen) ∈ server.started ∨ (stat = .new ∧ seen = xid) := by
    intro seen
    cases stat <;> simp [Rpcs.start, or_comm]
  have fresh : stat = .new → (cltNonce, xid) ∉ server.started := fun answer =>
    remembers.not_started (checked.fresh answer).1 (checked.fresh answer).2
  constructor
  · simpa using checked.ordered
  · intro seen
    rw [List.countP_append]
    cases stat with
    | new =>
        by_cases same : seen = xid
        · subst same
          have none : events.countP (Event.answeredNew cltNonce seen) = 0 := by
            refine List.countP_eq_zero.mpr fun event member answer => fresh rfl ?_
            exact (remembers.answered seen).mpr ⟨event, member, answer⟩
          simp [none, Event.answeredNew]
        · simpa [Event.answeredNew, Ne.symm same] using remembers.once seen
    | _ => simpa [Event.answeredNew] using remembers.once seen
  · intro seen
    simp only [started, remembers.answered, List.mem_append, List.mem_singleton, or_and_right,
      exists_or, exists_eq_left]
    refine or_congr_right ?_
    cases stat <;> simp [Event.answeredNew, @eq_comm _ xid]
  · intro seen _
    simpa using checked.nonempty
  · intro seen member
    simp only [Function.update_self]
    rcases (started seen).mp member with old | ⟨answer, rfl⟩
    · rcases remembers.placed seen old with ⟨reply, inWindow, same⟩ | below
      · rcases checked.retained reply (.inl inWindow) with kept | lower
        · exact .inl ⟨reply, kept, same⟩
        · exact .inr (same ▸ lower)
      · right
        intro kept keptMember
        rcases checked.origin kept keptMember with inWindow | ⟨answer, rfl⟩
        · exact below kept inWindow
        · obtain ⟨front, rest, shape⟩ :=
            List.exists_cons_of_ne_nil (remembers.nonempty seen old)
          have first := below front (by simp [shape])
          have second := (checked.fresh answer).2 front (by simp [shape])
          exact first.trans second
    · rcases checked.retained _ (.inr ⟨answer, rfl⟩) with kept | lower
      · exact .inl ⟨_, kept, rfl⟩
      · exact .inr lower
  · intro reply member
    simp only [Function.update_self] at member
    simp only [started, recorded_snoc, Event.reply?, Option.none_or]
    rcases checked.origin reply member with old | ⟨answer, rfl⟩
    · exact ⟨.inl (remembers.entries reply old).1, (remembers.entries reply old).2⟩
    · refine ⟨.inr ⟨answer, rfl⟩, ?_⟩
      by_contra present
      exact fresh answer (remembers.completed xid (by simpa [Reply.pending] using present))
  · intro seen present
    refine (started seen).mpr (.inl (remembers.completed seen ?_))
    simpa [Event.reply?] using present

theorem Remembers.completion {xid : Nat} {b : Option Buf} {sz : Int} {replyWindow : ReplyWindow Buf}
    (remembers : Remembers cltNonce events server) (start : (cltNonce, xid) ∈ server.started)
    (added : addReply server.replyWindow cltNonce xid b sz = some replyWindow) :
    Remembers cltNonce (events ++ [.completion cltNonce xid b sz])
      ⟨replyWindow, server.started⟩ := by
  unfold addReply at added
  split at added
  · cases added
  cases added
  have xids : ∀ seen, (∃ reply ∈ fillReply xid b sz (server.replyWindow cltNonce),
      reply.xid = seen) ↔ ∃ reply ∈ server.replyWindow cltNonce, reply.xid = seen := by
    intro seen
    simp only [fillReply, List.mem_map, exists_exists_and_eq_and]
    refine exists_congr fun reply => and_congr_right fun _ => ?_
    split <;> rfl
  constructor
  · simpa using remembers.ordered.fillReply xid b sz
  · intro seen
    simpa [Event.answeredNew] using remembers.once seen
  · intro seen
    simpa [Event.answeredNew, or_and_right, exists_or] using remembers.answered seen
  · simpa using remembers.nonempty
  · intro seen member
    simp only [Function.update_self, xids]
    rcases remembers.placed seen member with present | below
    · exact .inl present
    · right
      intro kept keptMember
      obtain ⟨old, oldMember, same⟩ := (xids kept.xid).mp ⟨kept, keptMember, rfl⟩
      exact same ▸ below old oldMember
  · intro reply member
    simp only [Function.update_self] at member
    rcases mem_fillReply member with ⟨rfl, present, rfl, rfl, old, oldMember, _⟩ | ⟨other, old⟩
    · simp [present, Event.reply?, start]
    · simpa [Event.reply?, other.symm] using remembers.entries reply old
  · intro seen present
    by_cases same : xid = seen
    · exact same ▸ start
    · exact remembers.completed seen (by simpa [Event.reply?, same] using present)

theorem Dispatch.remembers (remembers : Remembers cltNonce events server)
    (step : Dispatch server event next) : Remembers cltNonce (events ++ [event]) next := by
  by_cases same : event.cltNonce = cltNonce
  · cases step with
    | request _ _ _ answered =>
        obtain rfl := same
        exact remembers.request answered
    | completion _ _ _ _ started added =>
        obtain rfl := same
        exact remembers.completion started added
  · exact remembers.other step same

theorem Run.remembers (run : Run Dispatch Rpcs.initial events server) (cltNonce : Nat) :
    Remembers cltNonce events server :=
  run.history (Remembers cltNonce) (Remembers.initial cltNonce)
    fun _ _ _ _ remembers step => step.remembers remembers

theorem Dispatch.window_ne_nil (step : Dispatch server event next)
    (ordered : Ordered (server.replyWindow cltNonce))
    (nonempty : server.replyWindow cltNonce ≠ []) : next.replyWindow cltNonce ≠ [] := by
  by_cases same : event.cltNonce = cltNonce
  · subst same
    cases step with
    | request _ _ _ answered =>
        rcases Prod.mk.inj answered with ⟨rfl, rfl⟩
        simpa [Event.cltNonce] using (checkWindow_checked ordered _ _).nonempty
    | completion _ _ _ _ started added =>
        unfold addReply at added
        split at added
        · cases added
        · cases added
          simpa [Event.cltNonce] using nonempty
  · rw [step.other_nonce same]
    exact nonempty

/-- Requests of one client are executed at most once, whatever arrives from it
and from all other clients. -/
theorem at_most_once {events : List (Event Buf)} {server : Rpcs Buf}
    (run : Run Dispatch Rpcs.initial events server) (cltNonce : Nat) :
    (∀ xid, events.countP (Event.answeredNew cltNonce xid) ≤ 1) ∧
    (∀ before after xid xidRep b sz,
      events = before ++ .request cltNonce xid xidRep (.done b sz) :: after →
      recorded cltNonce xid before = some (b, sz)) ∧
    (∀ before after xid xidRep,
      events = before ++ .request cltNonce xid xidRep .inProgress :: after →
      (∃ event ∈ before, event.answeredNew cltNonce xid = true) ∧
        recorded cltNonce xid before = none) ∧
    Ordered (server.replyWindow cltNonce) ∧
    (∀ after later, Run Dispatch server after later →
      server.replyWindow cltNonce ≠ [] → later.replyWindow cltNonce ≠ []) ∧
    (∀ event next, Dispatch server event next → event.cltNonce ≠ cltNonce →
      next.replyWindow cltNonce = server.replyWindow cltNonce) := by
  refine ⟨(Run.remembers run cltNonce).once, ?_, ?_, (Run.remembers run cltNonce).ordered, ?_,
    fun event next step other => step.other_nonce other⟩
  · intro before after xid xidRep b sz position
    rcases run.split position with ⟨middle, next, past, step, _⟩
    have remembers := Run.remembers past cltNonce
    cases step with
    | request _ _ _ answered =>
        have answer := (Prod.mk.inj answered).1
        rcases (checkWindow_checked remembers.ordered xid xidRep).replied b sz answer with
          ⟨reply, member, rfl, present, rfl, rfl⟩
        simpa [present] using (remembers.entries reply member).2
  · intro before after xid xidRep position
    rcases run.split position with ⟨middle, next, past, step, _⟩
    have remembers := Run.remembers past cltNonce
    cases step with
    | request _ _ _ answered =>
        have answer := (Prod.mk.inj answered).1
        rcases (checkWindow_checked remembers.ordered xid xidRep).working answer with
          ⟨reply, member, rfl, absent⟩
        have entry := remembers.entries reply member
        exact ⟨(remembers.answered _).mp entry.1, by simpa [absent] using entry.2⟩
  · intro after later continuation nonempty
    -- The window may only be inspected where the run has kept it ordered.
    have kept := continuation.history
      (fun labels state => Remembers cltNonce (events ++ labels) state ∧
        state.replyWindow cltNonce ≠ [])
      ⟨by simpa using Run.remembers run cltNonce, nonempty⟩
      (by
        intro labels state event next holds step
        refine ⟨?_, step.window_ne_nil holds.1.ordered holds.2⟩
        rw [← List.append_assoc]
        exact step.remembers holds.1)
    exact kept.2

/-- A request is retransmitted once while its handler runs and once after it
has returned. -/
theorem at_most_once_retransmitted :
    recorded 7 1 [.request 7 1 0 .new, .request 7 1 0 .inProgress,
      .completion 7 1 (some "reply") 5] = some (some "reply", 5) := by
  have arrived : Run Dispatch Rpcs.initial [.request 7 1 0 (.new : RpcState String)] _ :=
    Run.refl.tail (.request 7 1 0 rfl)
  have resent := arrived.tail (.request 7 1 0 rfl)
  have completed := resent.tail (.completion 7 1 (some "reply") 5 (by decide) rfl)
  have answered := completed.tail (.request 7 1 0 rfl)
  exact (at_most_once answered 7).2.1 _ [] 1 0 _ _ rfl

end Ctgfs.Rpc
