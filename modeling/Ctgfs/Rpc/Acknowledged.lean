import Ctgfs.Rpc.Pending
import Mathlib.Data.List.Induction
import Mathlib.Data.List.TakeWhile
import Mathlib.Order.Bounds.Basic

/-!
# The acknowledged prefix

A number is reported to `update_xid_rep` when its reply arrives and once more when its
call returns, in any order and any number of times.  The front of the window is the
length of the prefix that has been reported without a gap, and the rest of the window
are the numbers beyond it.  A request carries the front, so it acknowledges no call
whose reply has not arrived.
-/

namespace Ctgfs.Rpc

open Foundation

def reportAll (reports : List Nat) : List Nat :=
  reports.foldl (fun window xid => updateXidRep xid window) [0]

def ExactPrefix (reports window : List Nat) : Prop :=
  ∃ front rest, window = front :: rest ∧
    IsGreatest {n | ∀ xid, 1 ≤ xid → xid ≤ n → xid ∈ reports} front ∧
    window.Pairwise (· ≤ ·) ∧
    ∀ xid, front < xid → (xid ∈ window ↔ xid ∈ reports)

/-- The window between two turns of the loop after `compress`: `front` and `seen` are the
part up to the iterator, in which the successor of the front does not occur. -/
structure Compressing (reported : Nat → Prop) (front : Nat) (seen rest : List Nat) : Prop where
  ordered : (front :: (seen ++ rest)).Pairwise (· ≤ ·)
  range : ∀ xid ∈ front :: (seen ++ rest), xid < xidRange
  reached : ∀ xid, 1 ≤ xid → xid ≤ front → reported xid
  stops : front + 1 ∉ seen
  above : ∀ xid, front < xid → (xid ∈ seen ++ rest ↔ reported xid)

section Window

variable {reported : Nat → Prop} {front next xid : Nat} {seen rest window : List Nat}

theorem succ_mod_eq_iff (ordered : front ≤ next) (range : next < xidRange) :
    (front + 1) % xidRange = next ↔ front + 1 = next := by
  unfold xidRange at *
  omega

theorem Compressing.pop (compressing : Compressing reported front seen (next :: rest))
    (successor : front + 1 = next) :
    (front :: seen).dropWhile (fun first => (first + 1) % xidRange = next) = [] ∧
      Compressing reported next [] rest := by
  obtain ⟨below, others⟩ := List.pairwise_cons.mp compressing.ordered
  obtain ⟨_, later, across⟩ := List.pairwise_append.mp others
  have range : next < xidRange := compressing.range next (by simp)
  -- what was passed is between the front and its successor, and not the successor
  have same : ∀ first ∈ front :: seen, first = front := by
    intro first member
    rcases List.mem_cons.mp member with rfl | inside
    · rfl
    · have low := below first (List.mem_append_left _ inside)
      have high := across first inside next List.mem_cons_self
      have other : first ≠ front + 1 := fun equal => compressing.stops (equal ▸ inside)
      omega
  constructor
  · rw [List.dropWhile_eq_nil_iff]
    intro first member
    rw [same first member, decide_eq_true_iff, succ_mod_eq_iff (by omega) range]
    exact successor
  · refine ⟨later, fun x member => ?_, fun x positive upto => ?_, by simp, fun x larger => ?_⟩
    · exact compressing.range x (List.mem_cons_of_mem _ (List.mem_append_right _ member))
    · rcases Nat.lt_or_eq_of_le upto with smaller | rfl
      · exact compressing.reached x positive (by omega)
      · exact (compressing.above x (by omega)).mp (by simp)
    · rw [← compressing.above x (by omega), List.nil_append, List.mem_append, List.mem_cons]
      constructor
      · exact fun inside => .inr (.inr inside)
      · rintro (inside | rfl | inside)
        · have := same x (List.mem_cons_of_mem _ inside)
          omega
        · omega
        · exact inside

theorem Compressing.skip (compressing : Compressing reported front seen (next :: rest))
    (other : front + 1 ≠ next) :
    (front :: seen).dropWhile (fun first => (first + 1) % xidRange = next) = front :: seen ∧
      Compressing reported front (seen ++ [next]) rest := by
  have shape : seen ++ [next] ++ rest = seen ++ next :: rest := by simp
  have below : front ≤ next := (List.pairwise_cons.mp compressing.ordered).1 next (by simp)
  have range : next < xidRange := compressing.range next (by simp)
  constructor
  · apply List.dropWhile_cons_of_neg
    rw [decide_eq_true_iff, succ_mod_eq_iff below range]
    exact other
  · refine ⟨shape ▸ compressing.ordered, shape ▸ compressing.range, compressing.reached, ?_,
      shape ▸ compressing.above⟩
    simp [compressing.stops, other]

theorem Compressing.loop (compressing : Compressing reported front seen rest) :
    ∃ front' seen', compressLoop (front :: seen) rest = front' :: seen' ∧
      Compressing reported front' seen' [] := by
  induction rest generalizing front seen with
  | nil => exact ⟨front, seen, rfl, compressing⟩
  | cons next rest ih =>
      by_cases successor : front + 1 = next
      · obtain ⟨dropped, popped⟩ := compressing.pop successor
        rw [compressLoop, dropped]
        exact ih popped
      · obtain ⟨kept, skipped⟩ := compressing.skip successor
        rw [compressLoop, kept]
        exact ih skipped

theorem insertXid_cons (xid first : Nat) (window : List Nat) :
    insertXid xid (first :: window) =
      if first ≤ xid then first :: insertXid xid window else xid :: first :: window := by
  by_cases below : first ≤ xid <;> simp [insertXid, below]

theorem pairwise_insertXid (ordered : window.Pairwise (· ≤ ·)) :
    (insertXid xid window).Pairwise (· ≤ ·) := by
  induction window with
  | nil => simp [insertXid]
  | cons first window ih =>
      obtain ⟨least, others⟩ := List.pairwise_cons.mp ordered
      rw [insertXid_cons]
      by_cases below : first ≤ xid
      · rw [if_pos below, List.pairwise_cons]
        refine ⟨fun x member => ?_, ih others⟩
        rcases mem_insertXid.mp member with old | rfl
        · exact least x old
        · exact below
      · rw [if_neg below, List.pairwise_cons]
        refine ⟨fun x member => ?_, ordered⟩
        rcases List.mem_cons.mp member with rfl | old
        · exact (not_le.mp below).le
        · exact (not_le.mp below).le.trans (least x old)

theorem Compressing.report (compressing : Compressing reported front rest [])
    (range : xid < xidRange) :
    ∃ front' rest', updateXidRep xid (front :: rest) = front' :: rest' ∧
      Compressing (fun x => reported x ∨ x = xid) front' rest' [] := by
  obtain ⟨ordered, below, reached, stops, above⟩ := compressing
  rw [List.append_nil] at ordered below above
  by_cases old : xid ≤ front
  · refine ⟨front, rest, if_pos old, ?_⟩
    refine ⟨?_, ?_, fun x positive upto => .inl (reached x positive upto), stops, ?_⟩
    · rwa [List.append_nil]
    · rwa [List.append_nil]
    · intro x larger
      have other : x ≠ xid := by omega
      rw [List.append_nil, above x larger, or_iff_left other]
  · have first : front ≤ xid := by omega
    have inserted : insertXid xid (front :: rest) = front :: insertXid xid rest := by
      rw [insertXid_cons, if_pos first]
    have started :
        Compressing (fun x => reported x ∨ x = xid) front [] (insertXid xid rest) := by
      refine ⟨?_, fun x member => ?_, fun x positive upto => .inl (reached x positive upto),
        by simp, fun x larger => ?_⟩
      · rw [List.nil_append, ← inserted]
        exact pairwise_insertXid ordered
      · rw [List.nil_append, ← inserted] at member
        rcases mem_insertXid.mp member with present | rfl
        · exact below x present
        · exact range
      · rw [List.nil_append, mem_insertXid, above x larger]
    rw [updateXidRep, if_neg old, inserted]
    exact started.loop

theorem reportAll_concat (reports : List Nat) (xid : Nat) :
    reportAll (reports ++ [xid]) = updateXidRep xid (reportAll reports) := by
  simp [reportAll]

theorem compressing_reportAll (reports : List Nat) (range : ∀ xid ∈ reports, xid < xidRange) :
    ∃ front rest, reportAll reports = front :: rest ∧
      Compressing (· ∈ reports) front rest [] := by
  induction reports using List.reverseRecOn with
  | nil =>
      refine ⟨0, [], rfl, by simp, by simp [xidRange], ?_, by simp, by simp⟩
      intro xid positive zero
      omega
  | append_singleton reports xid ih =>
      obtain ⟨front, rest, shape, compressing⟩ :=
        ih fun x member => range x (List.mem_append_left _ member)
      obtain ⟨front', rest', shape', compressing'⟩ := compressing.report (range xid (by simp))
      refine ⟨front', rest', ?_, ?_⟩
      · rw [reportAll_concat, shape, shape']
      · simpa only [List.mem_append, List.mem_singleton] using compressing'

theorem Compressing.exactPrefix {reports : List Nat}
    (compressing : Compressing (· ∈ reports) front rest []) :
    ExactPrefix reports (front :: rest) := by
  obtain ⟨ordered, _, reached, stops, above⟩ := compressing
  rw [List.append_nil] at ordered above
  refine ⟨front, rest, rfl, ⟨reached, fun n upto => ?_⟩, ordered, fun xid larger => ?_⟩
  · by_contra larger
    have successor := upto (front + 1) (by omega) (by omega)
    exact stops ((above (front + 1) (by omega)).mpr successor)
  · rw [List.mem_cons, above xid larger, or_iff_right (by omega)]

theorem exactPrefix_reportAll {reports : List Nat} (range : ∀ xid ∈ reports, xid < xidRange) :
    ExactPrefix reports (reportAll reports) := by
  obtain ⟨front, rest, shape, compressing⟩ := compressing_reportAll reports range
  rw [shape]
  exact compressing.exactPrefix

end Window

/-- The sections of an `rpcc` under its mutex. -/
inductive ClientEvent where
  | call (bind : Bool)
  | gotPdu (header : ReplyHeader)
  | finish (xid : Nat)
  | bound
  | cancel
  deriving DecidableEq, Repr

/-- The number that a section passes to `update_xid_rep`. -/
def ClientEvent.report : ClientEvent → Option Nat
  | .gotPdu header => some header.xid
  | .finish xid => some xid
  | _ => none

def reportsOf (events : List ClientEvent) : List Nat := events.filterMap ClientEvent.report

namespace Rpcc

def step (client : Rpcc) : ClientEvent → Option Rpcc
  | .call bind => (client.call1 bind).map Prod.fst
  | .gotPdu header => some (client.gotPdu header)
  | .finish xid => (client.calls.find? fun call => call.xid = xid).map client.finish
  | .bound => if client.binding then some client.bound else none
  | .cancel => some client.cancel

/-- The counter has not wrapped around when a call is made, and a reply carries the 32 bits
of an `unsigned int`. -/
def Unwrapped (client : Rpcc) : ClientEvent → Prop
  | .call _ => client.xid ≠ 0
  | .gotPdu header => header.xid < xidRange
  | _ => True

instance (client : Rpcc) (event : ClientEvent) : Decidable (client.Unwrapped event) := by
  cases event <;> unfold Unwrapped <;> infer_instance

end Rpcc

structure Reported (events : List ClientEvent) (client : Rpcc) : Prop where
  window : client.xidRepWindow = reportAll (reportsOf events)
  numbers : ∀ xid ∈ reportsOf events, xid < xidRange
  range : client.xid < xidRange
  pending : ∀ xid ∈ client.calls.map Caller.xid, 1 ≤ xid ∧ xid < xidLimit client.xid
  /-- A call that has returned has left `calls_`, and its number is not given out again. -/
  finished : ∀ xid, .finish xid ∈ events →
    xid < xidLimit client.xid ∧ xid ∉ client.calls.map Caller.xid

variable {events : List ClientEvent} {client next : Rpcc} {event : ClientEvent}

theorem reportsOf_silent (silent : event.report = none) :
    reportsOf (events ++ [event]) = reportsOf events := by
  simp [reportsOf, silent]

theorem reportsOf_report {xid : Nat} (report : event.report = some xid) :
    reportsOf (events ++ [event]) = reportsOf events ++ [xid] := by
  simp [reportsOf, report]

theorem Reported.initial : Reported [] {} := by
  constructor <;> simp [reportsOf, reportAll, xidRange]

section

variable (kept : Reported events client)

include kept

theorem Reported.report (event : ClientEvent) {xid : Nat} (range : xid < xidRange)
    (report : event.report = some xid) :
    updateXidRep xid client.xidRepWindow = reportAll (reportsOf (events ++ [event])) ∧
      ∀ x ∈ reportsOf (events ++ [event]), x < xidRange := by
  rw [reportsOf_report report, reportAll_concat, kept.window]
  refine ⟨rfl, fun x member => ?_⟩
  rcases List.mem_append.mp member with old | last
  · exact kept.numbers x old
  · exact List.mem_singleton.mp last ▸ range

theorem Reported.call {bind : Bool} {xid xidRep : Nat} (fresh : client.xid ≠ 0)
    (called : client.call1 bind = some (next, xid, xidRep)) :
    Reported (events ++ [.call bind]) next := by
  obtain ⟨rfl, rfl, rfl⟩ := Rpcc.call1_eq called
  have same : reportsOf (events ++ [.call bind]) = reportsOf events := reportsOf_silent rfl
  have limit : xidLimit client.xid = client.xid := xidLimit_of_ne fresh
  have after : xidLimit ((client.xid + 1) % xidRange) = client.xid + 1 := xidLimit_succ kept.range
  have pending : ∀ x ∈ (client.calls.filter fun call => call.xid ≠ client.xid).map Caller.xid,
      x ∈ client.calls.map Caller.xid :=
    fun x member => (List.filter_sublist.map Caller.xid).subset member
  refine ⟨same ▸ kept.window, same ▸ kept.numbers, Nat.mod_lt _ (by simp [xidRange]),
    fun x member => ?_, fun x done => ?_⟩
  · rw [after]
    rcases List.mem_cons.mp member with rfl | old
    · exact ⟨Nat.pos_of_ne_zero fresh, Nat.lt_succ_self _⟩
    · have bounds := kept.pending x (pending x old)
      omega
  · obtain ⟨issued, absent⟩ := kept.finished x (by simpa using done)
    rw [after]
    refine ⟨by omega, fun member => ?_⟩
    rcases List.mem_cons.mp member with equal | old
    · rw [limit, equal] at issued
      exact lt_irrefl _ issued
    · exact absent (pending x old)

theorem Reported.keep (xid : next.xid = client.xid)
    (calls : next.calls.map Caller.xid = client.calls.map Caller.xid)
    (window : next.xidRepWindow = reportAll (reportsOf (events ++ [event])))
    (numbers : ∀ xid ∈ reportsOf (events ++ [event]), xid < xidRange)
    (going : ∀ xid, event ≠ .finish xid) : Reported (events ++ [event]) next := by
  refine ⟨window, numbers, xid ▸ kept.range, ?_, fun x done => ?_⟩
  · rw [calls, xid]
    exact kept.pending
  · rw [calls, xid]
    exact kept.finished x (by simpa [(going x).symm] using done)

theorem Reported.finish {call : Caller} (member : call ∈ client.calls) :
    Reported (events ++ [.finish call.xid]) (client.finish call) := by
  have bounds := kept.pending call.xid (List.mem_map_of_mem member)
  have below : call.xid < xidRange := by
    have range := kept.range
    unfold xidLimit at bounds
    split at bounds <;> omega
  obtain ⟨window, numbers⟩ := kept.report (.finish call.xid) below rfl
  refine ⟨window, numbers, kept.range,
    fun x inside => kept.pending x (Rpcc.mem_finish_xids inside), fun x done => ?_⟩
  rcases List.mem_append.mp done with old | last
  · obtain ⟨issued, absent⟩ := kept.finished x old
    exact ⟨issued, fun inside => absent (Rpcc.mem_finish_xids inside)⟩
  · cases List.mem_singleton.mp last
    exact ⟨bounds.2, by simp [Rpcc.finish]⟩

theorem Reported.step (unwrapped : client.Unwrapped event) (taken : client.step event = some next) :
    Reported (events ++ [event]) next := by
  cases event with
  | call bind =>
      obtain ⟨⟨made, xid, xidRep⟩, called, rfl⟩ := Option.map_eq_some_iff.mp taken
      exact kept.call unwrapped called
  | gotPdu header =>
      cases taken
      obtain ⟨window, numbers⟩ := kept.report (.gotPdu header) unwrapped rfl
      exact kept.keep rfl (Rpcc.gotPdu_xids client header) window numbers (by simp)
  | finish xid =>
      obtain ⟨call, found, rfl⟩ := Option.map_eq_some_iff.mp taken
      obtain rfl : call.xid = xid := by simpa using List.find?_some found
      exact kept.finish (List.mem_of_find?_eq_some found)
  | bound =>
      simp only [Rpcc.step, Option.ite_none_right_eq_some, Option.some.injEq] at taken
      obtain ⟨_, rfl⟩ := taken
      have same : reportsOf (events ++ [.bound]) = reportsOf events := reportsOf_silent rfl
      exact kept.keep rfl rfl (same ▸ kept.window) (same ▸ kept.numbers) (by simp)
  | cancel =>
      cases taken
      have same : reportsOf (events ++ [.cancel]) = reportsOf events := reportsOf_silent rfl
      exact kept.keep rfl (Rpcc.cancel_xids client) (same ▸ kept.window) (same ▸ kept.numbers)
        (by simp)

end

theorem Reported.run (run : Run (Guarded (StepOf Rpcc.step) Rpcc.Unwrapped) {} events client) :
    Reported events client :=
  run.history Reported Reported.initial fun _ _ _ _ kept taken => kept.step taken.1 taken.2

theorem Reported.acknowledges (kept : Reported events client) {bind : Bool} {xid xidRep : Nat}
    (fresh : client.xid ≠ 0) (called : client.call1 bind = some (next, xid, xidRep))
    {call : Caller} (pending : call ∈ next.calls)
    (unanswered : ∀ ret, .gotPdu ⟨call.xid, ret⟩ ∉ events) : xidRep < call.xid := by
  have after := kept.call fresh called
  have member : call.xid ∈ next.calls.map Caller.xid := List.mem_map_of_mem pending
  have unreported : call.xid ∉ reportsOf events := by
    intro reported
    obtain ⟨event, inside, report⟩ := List.mem_filterMap.mp reported
    cases event with
    | gotPdu header =>
        obtain ⟨number, ret⟩ := header
        obtain rfl : number = call.xid := Option.some.inj report
        exact unanswered ret inside
    | finish number =>
        obtain rfl : number = call.xid := Option.some.inj report
        exact (after.finished call.xid (List.mem_append_left _ inside)).2 member
    | call bind => cases report
    | bound => cases report
    | cancel => cases report
  obtain ⟨_, _, packed⟩ := Rpcc.call1_eq called
  obtain ⟨front, rest, shape, greatest, _⟩ := exactPrefix_reportAll kept.numbers
  have first : xidRep = front := by rw [packed, kept.window, shape, List.headD_cons]
  by_contra acknowledged
  apply unreported
  exact greatest.1 call.xid (after.pending call.xid member).1 (by omega)

/-- The front of the window is the length of the prefix that was reported, and the number
that a request carries is below every call whose reply has not arrived. -/
theorem xid_rep_exact :
    (∀ reports : List Nat, (∀ xid ∈ reports, xid < xidRange) →
      ExactPrefix reports (reportAll reports)) ∧
    ∀ (events : List ClientEvent) (client : Rpcc),
      Run (Guarded (StepOf Rpcc.step) Rpcc.Unwrapped) {} events client →
      client.xidRepWindow = reportAll (reportsOf events) ∧
      ∀ (bind : Bool) (next : Rpcc) (xid xidRep : Nat), client.xid ≠ 0 →
        client.call1 bind = some (next, xid, xidRep) →
        ∀ call ∈ next.calls, (∀ ret, .gotPdu ⟨call.xid, ret⟩ ∉ events) → xidRep < call.xid := by
  refine ⟨fun reports range => exactPrefix_reportAll range, fun events client run => ?_⟩
  have kept := Reported.run run
  exact ⟨kept.window, fun bind next xid xidRep fresh called call pending unanswered =>
    kept.acknowledges fresh called pending unanswered⟩

/-- The replies come out of order and more than once. -/
theorem xid_rep_exact_reordered :
    ExactPrefix [2, 2, 1, 4] [2, 2, 4] ∧
    ∃ client next, Run (Guarded (StepOf Rpcc.step) Rpcc.Unwrapped) {}
        [.call true, .gotPdu ⟨1, 0⟩, .finish 1, .bound, .call false, .call false,
          .gotPdu ⟨3, 0⟩] client ∧
      client.call1 false = some (next, 4, 1) ∧
      ∃ call ∈ next.calls, call.xid = 2 ∧ 1 < call.xid := by
  have unwrapped : Meets Rpcc.step Rpcc.Unwrapped {}
      [.call true, .gotPdu ⟨1, 0⟩, .finish 1, .bound, .call false, .call false,
        .gotPdu ⟨3, 0⟩] := by decide
  have run := guarded_of_exec rfl unwrapped
  have below := (xid_rep_exact.2 _ _ run).2 false _ 4 1 (by decide) rfl
  exact ⟨xid_rep_exact.1 [2, 2, 1, 4] (by decide), _, _, run, rfl, ⟨2, false, false, 0⟩, by decide,
    rfl, below ⟨2, false, false, 0⟩ (by decide) (by simp)⟩

/-- The reply to call 2 has arrived and its caller has not woken up: the next request
acknowledges 2 while it is in `calls_`. -/
theorem answered_call_acknowledged :
    ¬ ∀ (events : List ClientEvent) (client : Rpcc),
      Run (Guarded (StepOf Rpcc.step) Rpcc.Unwrapped) {} events client →
      ∀ (bind : Bool) (next : Rpcc) (xid xidRep : Nat), client.xid ≠ 0 →
        client.call1 bind = some (next, xid, xidRep) →
        ∀ call ∈ next.calls, xidRep < call.xid := by
  intro acknowledges
  have unwrapped : Meets Rpcc.step Rpcc.Unwrapped {}
      [.call true, .gotPdu ⟨1, 0⟩, .finish 1, .bound, .call false, .gotPdu ⟨2, 0⟩] := by decide
  have run := guarded_of_exec rfl unwrapped
  exact absurd (acknowledges _ _ run false _ 3 2 (by decide) rfl ⟨2, false, true, 0⟩
    (by decide)) (by decide)

def ChannelEvent.clientPart : ChannelEvent → Option ClientEvent
  | .call bind => some (.call bind)
  | .gotPdu header => some (.gotPdu header)
  | .finish xid => some (.finish xid)
  | .bound => some .bound
  | .cancel => some .cancel
  | .dispatch _ _ => none
  | .complete _ _ _ => none

def Channel.Unwrapped (channel : Channel) (event : ChannelEvent) : Prop :=
  ∀ part ∈ event.clientPart, channel.client.Unwrapped part

theorem Channel.run_client {events : List ChannelEvent} {channel : Channel}
    (run : Run (Guarded (StepOf Channel.step) Channel.Unwrapped) {} events channel) :
    Run (Guarded (StepOf Rpcc.step) Rpcc.Unwrapped) {}
      (events.filterMap ChannelEvent.clientPart) channel.client := by
  refine run.project Channel.client ChannelEvent.clientPart ?_ ?_
  · intro channel event after part taken visible
    refine ⟨taken.1 part visible, ?_⟩
    cases Channel.step_cases taken.2 with
    | call called =>
        cases visible
        simp [StepOf, Rpcc.step, called]
    | gotPdu replied =>
        cases visible
        rfl
    | finish found =>
        cases visible
        simp [StepOf, Rpcc.step, found]
    | bound binding =>
        cases visible
        exact if_pos binding
    | cancel =>
        cases visible
        rfl
    | dispatch sent => cases visible
    | complete running => cases visible
  · intro channel event after taken silent
    cases Channel.step_cases taken.2 with
    | dispatch sent => exact (channel.dispatch_frame _ _).2.1
    | complete running => rfl
    | call called => cases silent
    | gotPdu replied => cases silent
    | finish found => cases silent
    | bound binding => cases silent
    | cancel => cases silent

/-- Whatever the server and the network do, a request acknowledges no pending call whose
reply has not arrived. -/
theorem Channel.call_acknowledges {events : List ChannelEvent} {channel : Channel} {bind : Bool}
    {client : Rpcc} {xid xidRep : Nat}
    (run : Run (Guarded (StepOf Channel.step) Channel.Unwrapped) {} events channel)
    (fresh : channel.client.xid ≠ 0)
    (called : channel.client.call1 bind = some (client, xid, xidRep)) {call : Caller}
    (pending : call ∈ client.calls) (unanswered : ∀ ret, .gotPdu ⟨call.xid, ret⟩ ∉ events) :
    xidRep < call.xid := by
  have kept := Reported.run (Channel.run_client run)
  refine kept.acknowledges fresh called pending fun ret arrived => ?_
  obtain ⟨event, inside, part⟩ := List.mem_filterMap.mp arrived
  cases event <;> cases part
  exact unanswered ret inside

end Ctgfs.Rpc
