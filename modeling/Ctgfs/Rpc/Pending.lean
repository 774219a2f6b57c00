import Ctgfs.Foundation.Runs
import Ctgfs.Rpc.Client
import Ctgfs.Rpc.ReplyWindow

/-!
# Pending calls and the reply window of their server

One client and one server over a network that loses, repeats, delays and reorders
messages: a request that was ever sent may arrive at any time and any number of
times, and so may a reply.  The server keeps the replies from the first number that
the client has not acknowledged on, provided that it has seen that number.  A
pending call is safe as long as some entry of the window stands between the
acknowledged number and the call.
-/

namespace Ctgfs.Rpc

open Foundation

/-- A client, the window that its server keeps for it, and everything that was ever
sent between them.  `running` are the requests whose handlers have not returned. -/
structure Channel where
  client : Rpcc := {}
  requests : List (Nat × Nat) := []
  window : Window ReplyHeader := []
  running : List Nat := []
  replies : List ReplyHeader := []
  deriving DecidableEq, Repr

inductive ChannelEvent where
  | call (bind : Bool)
  | dispatch (xid xidRep : Nat)
  /-- The handler of a request returns, and its reply is recorded and sent. -/
  | complete (xid : Nat) (ret sz : Int)
  | gotPdu (header : ReplyHeader)
  /-- A call returns because of its reply or of its timeout. -/
  | finish (xid : Nat)
  | bound
  | cancel
  deriving DecidableEq, Repr

def xidLimit (xid : Nat) : Nat := if xid = 0 then xidRange else xid

variable {xid : Nat}

theorem xidLimit_of_ne (fresh : xid ≠ 0) : xidLimit xid = xid := if_neg fresh

theorem xidLimit_succ (range : xid < xidRange) : xidLimit ((xid + 1) % xidRange) = xid + 1 := by
  unfold xidLimit xidRange at *
  split <;> omega

namespace Channel

variable (channel : Channel)

/-- `rpcs::dispatch` after `checkduplicate_and_update`. -/
def answer (xid : Nat) : RpcState ReplyHeader → Channel
  | .new => { channel with running := xid :: channel.running }
  | .inProgress => channel
  | .done b _ => { channel with replies := b.toList ++ channel.replies }
  | .forgotten => { channel with replies := ⟨xid, atmostonceFailure⟩ :: channel.replies }

def dispatch (xid xidRep : Nat) : Channel :=
  let checked := checkWindow xid xidRep channel.window
  { channel with window := checked.2 }.answer xid checked.1

def step : ChannelEvent → Option Channel
  | .call bind => (channel.client.call1 bind).map fun (client, request) =>
      { channel with client := client, requests := request :: channel.requests }
  | .dispatch xid xidRep =>
      if (xid, xidRep) ∈ channel.requests then some (channel.dispatch xid xidRep) else none
  | .complete xid ret sz =>
      -- a negative `ret` and an empty window fail a `VERIFY`
      if xid ∈ channel.running ∧ 0 ≤ ret ∧ channel.window ≠ [] then
        some { channel with
          window := fillReply xid (some ⟨xid, ret⟩) sz channel.window
          running := channel.running.erase xid
          replies := ⟨xid, ret⟩ :: channel.replies }
      else none
  | .gotPdu header =>
      if header ∈ channel.replies then some { channel with client := channel.client.gotPdu header }
      else none
  | .finish xid => (channel.client.calls.find? fun call => call.xid = xid).map fun call =>
      { channel with client := channel.client.finish call }
  | .bound => if channel.client.binding then some { channel with client := channel.client.bound }
      else none
  | .cancel => some { channel with client := channel.client.cancel }

def pending : List Nat := channel.client.calls.map Caller.xid

/-- When a request is handled, every pending number is at or above an entry of the
window, or the request itself, that the request does not acknowledge.  The counter
of the client has not wrapped around when a call is made. -/
def Anchored : ChannelEvent → Prop
  | .call _ => channel.client.xid ≠ 0
  | .dispatch xid xidRep => ∀ y ∈ channel.pending,
      ∃ anchor ∈ xid :: channel.window.map Reply.xid, xidRep ≤ anchor ∧ anchor ≤ y
  | _ => True

instance (channel : Channel) (event : ChannelEvent) : Decidable (channel.Anchored event) := by
  cases event <;> unfold Anchored <;> infer_instance

def limit : Nat := xidLimit channel.client.xid

end Channel

inductive Channel.Step (channel : Channel) : ChannelEvent → Channel → Prop where
  | call {bind : Bool} {client : Rpcc} {request : Nat × Nat} :
      channel.client.call1 bind = some (client, request) →
      Step channel (.call bind)
        { channel with client := client, requests := request :: channel.requests }
  | dispatch {xid xidRep : Nat} : (xid, xidRep) ∈ channel.requests →
      Step channel (.dispatch xid xidRep) (channel.dispatch xid xidRep)
  | complete {xid : Nat} {ret sz : Int} : xid ∈ channel.running →
      Step channel (.complete xid ret sz)
        { channel with
          window := fillReply xid (some ⟨xid, ret⟩) sz channel.window
          running := channel.running.erase xid
          replies := ⟨xid, ret⟩ :: channel.replies }
  | gotPdu {header : ReplyHeader} : header ∈ channel.replies →
      Step channel (.gotPdu header) { channel with client := channel.client.gotPdu header }
  | finish {xid : Nat} {call : Caller} :
      (channel.client.calls.find? fun call => call.xid = xid) = some call →
      Step channel (.finish xid) { channel with client := channel.client.finish call }
  | bound : channel.client.binding = true →
      Step channel .bound { channel with client := channel.client.bound }
  | cancel : Step channel .cancel { channel with client := channel.client.cancel }

theorem Channel.step_cases {channel next : Channel} {event : ChannelEvent}
    (taken : channel.step event = some next) : channel.Step event next := by
  cases event with
  | call bind =>
      obtain ⟨⟨client, request⟩, called, rfl⟩ := Option.map_eq_some_iff.mp taken
      exact .call called
  | dispatch xid xidRep =>
      obtain ⟨sent, dispatched⟩ := Option.ite_none_right_eq_some.mp taken
      cases dispatched
      exact .dispatch sent
  | complete xid ret sz =>
      obtain ⟨⟨running, _⟩, completed⟩ := Option.ite_none_right_eq_some.mp taken
      cases completed
      exact .complete running
  | gotPdu header =>
      obtain ⟨replied, received⟩ := Option.ite_none_right_eq_some.mp taken
      cases received
      exact .gotPdu replied
  | finish xid =>
      obtain ⟨call, found, rfl⟩ := Option.map_eq_some_iff.mp taken
      exact .finish found
  | bound =>
      obtain ⟨binding, bound⟩ := Option.ite_none_right_eq_some.mp taken
      cases bound
      exact .bound binding
  | cancel =>
      cases taken
      exact .cancel

inductive Progress (events : List ChannelEvent) (channel : Channel) (xid : Nat) : Prop where
  | unseen : xid ∉ channel.running → (∀ ret sz, .complete xid ret sz ∉ events) →
      Progress events channel xid
  | running : channel.running.count xid = 1 → (∀ ret sz, .complete xid ret sz ∉ events) →
      Reply.pending xid ∈ channel.window → Progress events channel xid
  | recorded (ret sz : Int) : xid ∉ channel.running →
      (∀ ret' sz', .complete xid ret' sz' ∈ events → ret' = ret ∧ sz' = sz) →
      ⟨xid, true, some ⟨xid, ret⟩, sz⟩ ∈ channel.window → Progress events channel xid

structure Kept (events : List ChannelEvent) (channel : Channel) : Prop where
  ordered : Ordered channel.window
  range : channel.client.xid < xidRange
  entries : ∀ reply ∈ channel.window, reply.xid < channel.limit
  requests : ∀ request ∈ channel.requests, request.1 < channel.limit
  running : ∀ xid ∈ channel.running, xid < channel.limit
  completed : ∀ xid ret sz, .complete xid ret sz ∈ events → xid < channel.limit
  /-- No pending call is below the window. -/
  reached : ∀ xid ∈ channel.pending, ∀ front ∈ channel.window.head?, front.xid ≤ xid
  progress : ∀ xid ∈ channel.pending, Progress events channel xid

variable {events : List ChannelEvent} {channel next : Channel} {event : ChannelEvent}

theorem Kept.initial : Kept [] {} := by
  constructor <;> simp [Ordered, Channel.pending, xidRange]

theorem Progress.frame (progress : Progress events channel xid)
    (silent : ∀ ret sz, event ≠ .complete xid ret sz)
    (running : next.running.count xid = channel.running.count xid)
    (window : ∀ reply ∈ channel.window, reply.xid = xid → reply ∈ next.window) :
    Progress (events ++ [event]) next xid := by
  have same : ∀ ret sz, .complete xid ret sz ∈ events ++ [event] ↔
      .complete xid ret sz ∈ events := by
    intro ret sz
    simp [(silent ret sz).symm]
  have idle : xid ∉ next.running ↔ xid ∉ channel.running := by
    rw [← List.count_eq_zero, ← List.count_eq_zero, running]
  cases progress with
  | unseen notRunning incomplete =>
      exact .unseen (idle.mpr notRunning) fun ret sz => (same ret sz).not.mpr (incomplete ret sz)
  | running once incomplete member =>
      exact .running (running.trans once) (fun ret sz => (same ret sz).not.mpr (incomplete ret sz))
        (window _ member rfl)
  | recorded ret sz notRunning complete member =>
      exact .recorded ret sz (idle.mpr notRunning)
        (fun ret' sz' completed => complete ret' sz' ((same ret' sz').mp completed))
        (window _ member rfl)

variable {bind : Bool}

section

variable (kept : Kept events channel)

include kept

theorem Kept.client {client : Rpcc} (silent : ∀ xid ret sz, event ≠ .complete xid ret sz)
    (xid : client.xid = channel.client.xid)
    (pending : ∀ x ∈ client.calls.map Caller.xid, x ∈ channel.pending) :
    Kept (events ++ [event]) { channel with client := client } := by
  have limit : { channel with client := client }.limit = channel.limit := by
    simp [Channel.limit, xid]
  constructor
  · exact kept.ordered
  · exact xid ▸ kept.range
  · rw [limit]
    exact kept.entries
  · rw [limit]
    exact kept.requests
  · rw [limit]
    exact kept.running
  · intro x ret sz completed
    rw [limit]
    apply kept.completed x ret sz
    simpa [(silent x ret sz).symm] using completed
  · exact fun x member => kept.reached x (pending x member)
  · intro x member
    exact (kept.progress x (pending x member)).frame (silent x) rfl fun reply inside _ => inside

variable {request : Nat × Nat}

theorem Channel.limit_call {client : Rpcc} (fresh : channel.client.xid ≠ 0)
    (called : channel.client.call1 bind = some (client, request)) :
    request.1 = channel.limit ∧
      { channel with client := client, requests := request :: channel.requests }.limit =
        channel.limit + 1 ∧ client.xid < xidRange ∧
      ∀ x ∈ client.calls.map Caller.xid, x = channel.limit ∨ x ∈ channel.pending := by
  obtain ⟨xid, xidRep⟩ := request
  obtain ⟨rfl, rfl, rfl⟩ := Rpcc.call1_eq called
  have start : channel.limit = channel.client.xid := xidLimit_of_ne fresh
  refine ⟨start.symm, ?_, Nat.mod_lt _ (by simp [xidRange]), fun x member => ?_⟩
  · rw [start]
    exact xidLimit_succ kept.range
  · rw [start]
    simp only [List.map_cons, List.mem_cons, List.mem_map, List.mem_filter] at member
    rcases member with rfl | ⟨call, ⟨inside, _⟩, rfl⟩
    · exact .inl rfl
    · exact .inr (List.mem_map_of_mem inside)

theorem Kept.call {client : Rpcc} (fresh : channel.client.xid ≠ 0)
    (called : channel.client.call1 bind = some (client, request)) :
    Kept (events ++ [.call bind])
      { channel with client := client, requests := request :: channel.requests } := by
  obtain ⟨number, limit, range, pending⟩ := Channel.limit_call kept fresh called
  have completed : ∀ x ret sz, .complete x ret sz ∈ events ++ [.call bind] →
      x < channel.limit := fun x ret sz member =>
    kept.completed x ret sz (by simpa using member)
  constructor
  · exact kept.ordered
  · exact range
  · intro reply member
    rw [limit]
    exact (kept.entries reply member).trans (Nat.lt_succ_self _)
  · intro sent member
    rw [limit]
    rcases List.mem_cons.mp member with rfl | old
    · omega
    · exact (kept.requests sent old).trans (Nat.lt_succ_self _)
  · intro x member
    rw [limit]
    exact (kept.running x member).trans (Nat.lt_succ_self _)
  · intro x ret sz member
    rw [limit]
    exact (completed x ret sz member).trans (Nat.lt_succ_self _)
  · intro x member front first
    rcases pending x member with rfl | old
    · exact (kept.entries front (List.mem_of_mem_head? first)).le
    · exact kept.reached x old front first
  · intro x member
    rcases pending x member with rfl | old
    · refine .unseen (fun running => ?_) fun ret sz done => ?_
      · exact absurd (kept.running _ running) (lt_irrefl _)
      · exact absurd (completed _ _ _ done) (lt_irrefl _)
    · exact (kept.progress x old).frame (by simp) rfl fun reply inside _ => inside

variable {xidRep : Nat}

theorem Kept.dispatch (sent : (xid, xidRep) ∈ channel.requests)
    (anchored : channel.Anchored (.dispatch xid xidRep)) :
    Kept (events ++ [.dispatch xid xidRep]) (channel.dispatch xid xidRep) := by
  have checked := checkWindow_checked kept.ordered xid xidRep
  have reached : ∀ y ∈ channel.pending,
      ∀ front ∈ (checkWindow xid xidRep channel.window).2.head?, front.xid ≤ y := by
    intro y member
    obtain ⟨anchor, inside, unacknowledged, below⟩ := anchored y member
    exact checkWindow_head_le kept.ordered inside unacknowledged below (kept.reached y member)
  unfold Channel.dispatch
  generalize checkWindow xid xidRep channel.window = result at checked reached ⊢
  obtain ⟨stat, window⟩ := result
  dsimp only at checked reached ⊢
  -- what is not below the window has not left it
  have retained : ∀ y ∈ channel.pending, ∀ reply, reply.xid = y →
      reply ∈ channel.window ∨ (stat = .new ∧ reply = Reply.pending xid) → reply ∈ window := by
    intro y member reply same present
    rcases checked.retained reply present with inside | below
    · exact inside
    · obtain ⟨front, rest, shape⟩ := List.exists_cons_of_ne_nil checked.nonempty
      have smaller := below front (by simp [shape])
      have larger := reached y member front (by simp [shape])
      omega
  have number : xid < channel.limit := kept.requests _ sent
  have after : ∀ started replies,
      (∀ x ∈ started, x < channel.limit) →
      (∀ y ∈ channel.pending, Progress (events ++ [.dispatch xid xidRep])
        { channel with window := window, running := started, replies := replies } y) →
      Kept (events ++ [.dispatch xid xidRep])
        { channel with window := window, running := started, replies := replies } := by
    intro started replies numbers progress
    refine ⟨checked.ordered, kept.range, fun reply member => ?_, kept.requests, numbers,
      fun x ret sz completed => kept.completed x ret sz (by simpa using completed), reached,
      progress⟩
    rcases checked.origin reply member with old | ⟨_, rfl⟩
    · exact kept.entries reply old
    · exact number
  have frame : ∀ replies, ∀ y ∈ channel.pending, Progress (events ++ [.dispatch xid xidRep])
      { channel with window := window, replies := replies } y := fun replies y member =>
    (kept.progress y member).frame (by simp) rfl fun reply inside same =>
      retained y member reply same (.inl inside)
  cases stat with
  | inProgress => exact after _ _ kept.running (frame _)
  | done b sz => exact after _ _ kept.running (frame _)
  | forgotten => exact after _ _ kept.running (frame _)
  | new =>
      refine after _ _ (fun x member => ?_) fun y member => ?_
      · rcases List.mem_cons.mp member with rfl | old
        · exact number
        · exact kept.running x old
      · by_cases same : y = xid
        · subst same
          have absent := (checked.fresh rfl).1
          cases kept.progress y member with
          | unseen notRunning incomplete =>
              refine .running ?_ (fun ret sz => by simpa using incomplete ret sz)
                (retained y member _ rfl (.inr ⟨rfl, rfl⟩))
              simp [List.count_eq_zero.mpr notRunning]
          | running _ _ inside => exact absurd rfl (absent _ inside)
          | recorded _ _ _ _ inside => exact absurd rfl (absent _ inside)
        · refine (kept.progress y member).frame (by simp) ?_ fun reply inside same =>
            retained y member reply same (.inl inside)
          exact List.count_cons_of_ne (Ne.symm same)

theorem Kept.complete {ret sz : Int} (running : xid ∈ channel.running) :
    Kept (events ++ [.complete xid ret sz])
      { channel with
        window := fillReply xid (some ⟨xid, ret⟩) sz channel.window
        running := channel.running.erase xid
        replies := ⟨xid, ret⟩ :: channel.replies } := by
  have number : xid < channel.limit := kept.running xid running
  constructor
  · exact kept.ordered.fillReply _ _ _
  · exact kept.range
  · intro reply member
    rcases mem_fillReply member with ⟨same, _⟩ | ⟨_, old⟩
    · exact same ▸ number
    · exact kept.entries reply old
  · exact kept.requests
  · exact fun x member => kept.running x (List.mem_of_mem_erase member)
  · intro x ret' sz' completed
    rcases List.mem_append.mp completed with old | new
    · exact kept.completed x ret' sz' old
    · cases List.mem_singleton.mp new
      exact number
  · intro y member front first
    rw [fillReply, List.head?_map] at first
    obtain ⟨old, head, rfl⟩ := Option.map_eq_some_iff.mp first
    have below := kept.reached y member old head
    split <;> exact below
  · intro y member
    by_cases same : y = xid
    · subst same
      cases kept.progress y member with
      | unseen notRunning _ => exact absurd running notRunning
      | recorded _ _ notRunning _ _ => exact absurd running notRunning
      | running once incomplete inside =>
          refine .recorded ret sz ?_ (fun ret' sz' completed => ?_) ?_
          · rw [← List.count_eq_zero, List.count_erase_self, once]
          · rcases List.mem_append.mp completed with old | new
            · exact absurd old (incomplete ret' sz')
            · cases List.mem_singleton.mp new
              exact ⟨rfl, rfl⟩
          · exact List.mem_map.mpr ⟨_, inside, by simp [Reply.pending]⟩
    · refine (kept.progress y member).frame (by simp [Ne.symm same]) ?_ fun reply inside here => ?_
      · exact List.count_erase_of_ne same
      · refine List.mem_map.mpr ⟨reply, inside, ?_⟩
        rw [if_neg (by rw [here]; exact same)]

theorem Kept.step (anchored : channel.Anchored event) (taken : channel.step event = some next) :
    Kept (events ++ [event]) next := by
  cases Channel.step_cases taken with
  | call called => exact kept.call anchored called
  | dispatch sent => exact kept.dispatch sent anchored
  | complete running => exact kept.complete running
  | gotPdu replied => exact kept.client (by simp) rfl (by simp [Channel.pending])
  | finish found => exact kept.client (by simp) rfl fun x => Rpcc.mem_finish_xids
  | bound binding => exact kept.client (by simp) rfl fun x member => member
  | cancel => exact kept.client (by simp) rfl (by simp [Channel.pending])

end

/-- What the client acknowledges it has given out, and every pending call has sent its
request. -/
structure Acknowledges (channel : Channel) : Prop where
  window : ∀ xid ∈ channel.client.xidRepWindow, xid < channel.limit
  replies : ∀ header ∈ channel.replies, header.xid < channel.limit
  buffers : ∀ reply ∈ channel.window, ∀ header ∈ reply.buf, header.xid < channel.limit
  carried : ∀ request ∈ channel.requests, request.2 ≤ request.1
  sent : ∀ xid ∈ channel.pending, ∃ xidRep, (xid, xidRep) ∈ channel.requests

theorem Acknowledges.initial : Acknowledges {} := by
  constructor <;> simp [Channel.pending, Channel.limit, xidLimit]

section

variable (acknowledges : Acknowledges channel)

include acknowledges

theorem Acknowledges.client {client : Rpcc} (xid : client.xid = channel.client.xid)
    (pending : ∀ x ∈ client.calls.map Caller.xid, x ∈ channel.pending)
    (window : ∀ x ∈ client.xidRepWindow, x < channel.limit) :
    Acknowledges { channel with client := client } := by
  have limit : { channel with client := client }.limit = channel.limit := by
    simp [Channel.limit, xid]
  refine ⟨?_, ?_, ?_, acknowledges.carried, fun x member => acknowledges.sent x (pending x member)⟩
  · rw [limit]
    exact window
  · rw [limit]
    exact acknowledges.replies
  · rw [limit]
    exact acknowledges.buffers

theorem Acknowledges.call {client : Rpcc} (kept : Kept events channel)
    (fresh : channel.client.xid ≠ 0) (called : channel.client.call1 bind = some (client, request)) :
    Acknowledges { channel with client := client, requests := request :: channel.requests } := by
  obtain ⟨number, limit, _, pending⟩ := Channel.limit_call kept fresh called
  have header : client.xidRepWindow = channel.client.xidRepWindow ∧
      request.2 = channel.client.xidRepWindow.headD 0 := by
    obtain ⟨xid, xidRep⟩ := request
    obtain ⟨rfl, rfl, rfl⟩ := Rpcc.call1_eq called
    exact ⟨rfl, rfl⟩
  have below : request.2 ≤ channel.limit := by
    rw [header.2]
    cases shape : channel.client.xidRepWindow with
    | nil => exact Nat.zero_le _
    | cons front rest => exact (acknowledges.window front (by simp [shape])).le
  refine ⟨fun x member => ?_, fun h member => ?_, fun reply member h buffered => ?_,
    fun sent member => ?_, fun x member => ?_⟩
  · rw [limit]
    exact (acknowledges.window x (header.1 ▸ member)).trans (Nat.lt_succ_self _)
  · rw [limit]
    exact (acknowledges.replies h member).trans (Nat.lt_succ_self _)
  · rw [limit]
    exact (acknowledges.buffers reply member h buffered).trans (Nat.lt_succ_self _)
  · rcases List.mem_cons.mp member with rfl | old
    · exact number ▸ below
    · exact acknowledges.carried sent old
  · rcases pending x member with rfl | old
    · exact ⟨request.2, List.mem_cons.mpr (.inl (Prod.ext number.symm rfl))⟩
    · obtain ⟨xidRep, inside⟩ := acknowledges.sent x old
      exact ⟨xidRep, List.mem_cons_of_mem _ inside⟩

theorem Acknowledges.dispatch (kept : Kept events channel)
    (sent : (xid, xidRep) ∈ channel.requests) : Acknowledges (channel.dispatch xid xidRep) := by
  have checked := checkWindow_checked kept.ordered xid xidRep
  unfold Channel.dispatch
  generalize checkWindow xid xidRep channel.window = result at checked ⊢
  obtain ⟨stat, window⟩ := result
  dsimp only at checked ⊢
  have number : xid < channel.limit := kept.requests _ sent
  have buffers : ∀ reply ∈ window, ∀ header ∈ reply.buf, header.xid < channel.limit := by
    intro reply member header buffered
    rcases checked.origin reply member with old | ⟨_, rfl⟩
    · exact acknowledges.buffers reply old header buffered
    · cases buffered
  have after : ∀ started replies, (∀ header ∈ replies, header.xid < channel.limit) →
      Acknowledges { channel with window := window, running := started, replies := replies } :=
    fun _ _ replied => ⟨acknowledges.window, replied, buffers, acknowledges.carried,
      acknowledges.sent⟩
  cases stat with
  | new => exact after _ _ acknowledges.replies
  | inProgress => exact after _ _ acknowledges.replies
  | done b sz =>
      refine after _ _ fun header member => ?_
      rcases List.mem_append.mp member with resent | old
      · obtain ⟨reply, inside, _, _, rfl, _⟩ := checked.replied b sz rfl
        exact acknowledges.buffers reply inside header (Option.mem_toList.mp resent)
      · exact acknowledges.replies header old
  | forgotten =>
      refine after _ _ fun header member => ?_
      rcases List.mem_cons.mp member with rfl | old
      · exact number
      · exact acknowledges.replies header old

theorem Acknowledges.step (kept : Kept events channel) (anchored : channel.Anchored event)
    (taken : channel.step event = some next) : Acknowledges next := by
  cases Channel.step_cases taken with
  | call called => exact acknowledges.call kept anchored called
  | dispatch sent => exact acknowledges.dispatch kept sent
  | @complete xid ret sz running =>
      have number : xid < channel.limit := kept.running xid running
      refine ⟨acknowledges.window, fun header member => ?_, fun reply member header buffered => ?_,
        acknowledges.carried, acknowledges.sent⟩
      · rcases List.mem_cons.mp member with rfl | old
        · exact number
        · exact acknowledges.replies header old
      · rcases mem_fillReply member with ⟨_, _, filled, _, _⟩ | ⟨_, old⟩
        · rw [filled] at buffered
          cases buffered
          exact number
        · exact acknowledges.buffers reply old header buffered
  | @gotPdu header replied =>
      refine acknowledges.client rfl (by simp [Channel.pending]) fun x member => ?_
      rcases mem_updateXidRep member with old | rfl
      · exact acknowledges.window x old
      · exact acknowledges.replies header replied
  | @finish xid call found =>
      refine acknowledges.client rfl (fun x => Rpcc.mem_finish_xids) fun x member => ?_
      rcases mem_updateXidRep member with old | rfl
      · exact acknowledges.window x old
      · obtain ⟨xidRep, sent⟩ := acknowledges.sent call.xid
          (List.mem_map_of_mem (List.mem_of_find?_eq_some found))
        exact kept.requests _ sent
  | bound binding =>
      exact acknowledges.client rfl (fun x member => member) acknowledges.window
  | cancel => exact acknowledges.client rfl (by simp [Channel.pending]) acknowledges.window

end

def Channel.Answers (events : List ChannelEvent) (channel : Channel) : Prop :=
  ∀ xid xidRep, (xid, xidRep) ∈ channel.requests → xid ∈ channel.pending →
    (checkWindow xid xidRep channel.window).1 ≠ .forgotten ∧
    ∀ ret sz, .complete xid ret sz ∈ events →
      ⟨xid, true, some ⟨xid, ret⟩, sz⟩ ∈ channel.window

theorem Kept.refused_of_loose (kept : Kept events channel) (acknowledges : Acknowledges channel)
    (sent : (xid, xidRep) ∈ channel.requests) (loose : ¬ channel.Anchored (.dispatch xid xidRep)) :
    ∃ y ∈ channel.pending, ∀ front ∈ (checkWindow xid xidRep channel.window).2.head?,
      y < front.xid := by
  simp only [Channel.Anchored, not_forall] at loose
  obtain ⟨y, member, loose⟩ := loose
  refine ⟨y, member, fun front first => ?_⟩
  by_contra above
  have checked := checkWindow_checked kept.ordered xid xidRep
  refine loose ⟨front.xid, ?_, ?_, not_lt.mp above⟩
  · rcases checked.origin front (List.mem_of_mem_head? first) with old | ⟨_, rfl⟩
    · exact List.mem_cons_of_mem _ (List.mem_map_of_mem old)
    · exact List.mem_cons_self
  · exact checkWindow_le_head kept.ordered (acknowledges.carried _ sent) front first

theorem Channel.dispatch_frame (channel : Channel) (xid xidRep : Nat) :
    (channel.dispatch xid xidRep).requests = channel.requests ∧
      (channel.dispatch xid xidRep).client = channel.client ∧
      (channel.dispatch xid xidRep).window = (checkWindow xid xidRep channel.window).2 := by
  unfold Channel.dispatch
  dsimp only
  cases (checkWindow xid xidRep channel.window).1 <;> exact ⟨rfl, rfl, rfl⟩

/-- In every run whose steps are anchored, no pending call is refused.  The condition
is exact: a request that is not anchored leaves a pending call that is refused. -/
theorem pending_not_forgotten
    (run : Run (Guarded (StepOf Channel.step) Channel.Anchored) {} events channel) :
    channel.Answers events ∧
      ∀ xid xidRep, (xid, xidRep) ∈ channel.requests →
        ¬ channel.Anchored (.dispatch xid xidRep) →
        ¬ (channel.dispatch xid xidRep).Answers (events ++ [.dispatch xid xidRep]) := by
  obtain ⟨kept, acknowledges⟩ : Kept events channel ∧ Acknowledges channel :=
    run.history (fun events channel => Kept events channel ∧ Acknowledges channel)
      ⟨Kept.initial, Acknowledges.initial⟩ fun _ _ _ _ ⟨kept, acknowledges⟩ taken =>
        ⟨kept.step taken.1 taken.2, acknowledges.step kept taken.1 taken.2⟩
  constructor
  · intro xid xidRep _ member
    have checked := checkWindow_checked kept.ordered xid xidRep
    constructor
    · intro refused
      obtain ⟨front, first, below⟩ := checked.refused.mp refused
      have reached := kept.reached xid member front first
      omega
    · intro ret sz completed
      cases kept.progress xid member with
      | unseen _ incomplete => exact absurd completed (incomplete ret sz)
      | running _ incomplete _ => exact absurd completed (incomplete ret sz)
      | recorded ret' sz' _ complete inside =>
          obtain ⟨rfl, rfl⟩ := complete ret sz completed
          exact inside
  · intro xid xidRep sent loose answers
    obtain ⟨y, member, below⟩ := kept.refused_of_loose acknowledges sent loose
    obtain ⟨n, issued⟩ := acknowledges.sent y member
    obtain ⟨requests, client, window⟩ := channel.dispatch_frame xid xidRep
    have pending : (channel.dispatch xid xidRep).pending = channel.pending := by
      rw [Channel.pending, client, Channel.pending]
    have checked := checkWindow_checked kept.ordered xid xidRep
    refine (answers y n (requests ▸ issued) (pending ▸ member)).1 ?_
    rw [window, (checkWindow_checked checked.ordered y n).refused]
    obtain ⟨front, rest, shape⟩ := List.exists_cons_of_ne_nil checked.nonempty
    exact ⟨front, by simp [shape], below front (by simp [shape])⟩

/-- Two calls are made after the `bind`, and the later one arrives first. -/
theorem pending_not_forgotten_reordered :
    ∃ channel, Run (Guarded (StepOf Channel.step) Channel.Anchored) {}
        [.call true, .dispatch 1 0, .complete 1 0 8, .gotPdu ⟨1, 0⟩, .finish 1, .bound,
          .call false, .call false, .dispatch 3 1, .complete 3 0 8] channel ∧
      (checkWindow 2 1 channel.window).1 ≠ .forgotten ∧
      ⟨3, true, some ⟨3, 0⟩, 8⟩ ∈ channel.window := by
  have anchored : Meets Channel.step Channel.Anchored {}
      [.call true, .dispatch 1 0, .complete 1 0 8, .gotPdu ⟨1, 0⟩, .finish 1, .bound,
        .call false, .call false, .dispatch 3 1, .complete 3 0 8] := by decide
  have run := guarded_of_exec rfl anchored
  have answers := (pending_not_forgotten run).1
  exact ⟨_, run, (answers 2 1 (by decide) (by decide)).1,
    (answers 3 1 (by decide) (by decide)).2 0 8 (by decide)⟩

/-- Call 2 is given up before its request reaches the server.  Requests 3 and 4
acknowledge it; 4 arrives first and leaves no entry below it, and 3 is refused. -/
theorem pending_forgotten :
    ¬ ∀ events channel, Run (StepOf Channel.step) {} events channel → channel.Answers events := by
  intro answers
  have run := run_of_exec (rfl : exec Channel.step {}
    [.call true, .dispatch 1 0, .complete 1 0 8, .gotPdu ⟨1, 0⟩, .finish 1, .bound,
      .call false, .finish 2, .call false, .call false, .dispatch 4 2] = some _)
  exact (answers _ _ run 3 2 (by decide) (by decide)).1 rfl

end Ctgfs.Rpc
