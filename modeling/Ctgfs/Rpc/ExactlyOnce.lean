import Ctgfs.Rpc.AtMostOnce
import Ctgfs.Rpc.Pending

/-!
# The results of calls

Requests and replies may be lost, repeated, delayed and reordered, and calls may time out or be
cancelled.  Still a handler runs at most once for a number, and a call that is given a result is
given the one of that run.
-/

namespace Ctgfs.Rpc

open Foundation

def ChannelEvent.execution (xid : Nat) : ChannelEvent → Option Int
  | .complete done ret _ => if done = xid then some ret else none
  | _ => none

def executions (xid : Nat) (events : List ChannelEvent) : List Int :=
  events.filterMap (ChannelEvent.execution xid)

def cltNonce : Nat := 1

/-- The server of a channel runs as an `rpcs` does, and what it sends and what the client keeps
are results of its handlers. -/
structure Executed (events : List ChannelEvent) (channel : Channel)
    (log : List (Event ReplyHeader)) (server : Rpcs ReplyHeader) : Prop where
  serves : Run Dispatch Rpcs.initial log server
  window : server.replyWindow cltNonce = channel.window
  started : ∀ xid, channel.running.count xid + (executions xid events).length =
    log.countP (Event.answeredNew cltNonce xid)
  buffers : ∀ reply ∈ channel.window, ∀ header ∈ reply.buf,
    header.ret ∈ executions header.xid events
  replies : ∀ header ∈ channel.replies, header.ret = atmostonceFailure ∨
    header.ret ∈ executions header.xid events
  results : ∀ call ∈ channel.client.calls, call.done = true → call.intret = cancelFailure ∨
    call.intret = atmostonceFailure ∨ call.intret ∈ executions call.xid events

variable {events : List ChannelEvent} {channel next : Channel} {event : ChannelEvent}
  {log : List (Event ReplyHeader)} {server : Rpcs ReplyHeader}

theorem executions_concat (xid : Nat) (events : List ChannelEvent) (event : ChannelEvent) :
    executions xid (events ++ [event]) =
      executions xid events ++ (event.execution xid).toList := by
  cases result : event.execution xid <;> simp [executions, result]

section

variable (executed : Executed events channel log server)

include executed

theorem Executed.dispatch (xid xidRep : Nat) :
    ∃ log server, Executed (events ++ [.dispatch xid xidRep]) (channel.dispatch xid xidRep) log
      server := by
  have same : ∀ y, executions y (events ++ [.dispatch xid xidRep]) = executions y events := by
    simp [executions_concat, ChannelEvent.execution]
  have checked := checkWindow_checked (executed.window ▸
    (Run.remembers executed.serves cltNonce).ordered) xid xidRep
  have answers : checkduplicateAndUpdate server.replyWindow cltNonce xid xidRep =
      ((checkWindow xid xidRep channel.window).1,
        Function.update server.replyWindow cltNonce (checkWindow xid xidRep channel.window).2) := by
    rw [checkduplicateAndUpdate, executed.window]
  unfold Channel.dispatch
  generalize checkWindow xid xidRep channel.window = result at checked answers ⊢
  obtain ⟨stat, window⟩ := result
  dsimp only at checked answers ⊢
  refine ⟨_, _, executed.serves.tail (.request cltNonce xid xidRep answers), ?_, ?_, ?_, ?_, ?_⟩
  · cases stat <;> simp [Channel.answer]
  · intro y
    rw [same, List.countP_append, ← executed.started y]
    cases stat with
    | new =>
        by_cases here : y = xid
        · subst here
          simp [Channel.answer, Event.answeredNew]
          omega
        · simp [Channel.answer, Event.answeredNew, Ne.symm here]
    | _ => simp [Channel.answer, Event.answeredNew]
  · have origin : ∀ reply ∈ window, ∀ header ∈ reply.buf,
        header.ret ∈ executions header.xid events := by
      intro reply inside header held
      rcases checked.origin reply inside with old | ⟨-, rfl⟩
      · exact executed.buffers reply old header held
      · cases held
    simp only [same]
    cases stat <;> exact origin
  · intro header sent
    rw [same]
    cases stat with
    | new | inProgress => exact executed.replies header sent
    | done b sz =>
        rcases List.mem_append.mp sent with held | old
        · obtain ⟨reply, inside, -, -, rfl, -⟩ := checked.replied b sz rfl
          exact .inr (executed.buffers reply inside header (Option.mem_toList.mp held))
        · exact executed.replies header old
    | forgotten =>
        rcases List.mem_cons.mp sent with rfl | old
        · exact .inl rfl
        · exact executed.replies header old
  · simp only [same]
    cases stat <;> exact executed.results

theorem Executed.complete {xid : Nat} (running : xid ∈ channel.running) (ret sz : Int) :
    ∃ log server, Executed (events ++ [.complete xid ret sz])
      { channel with
        window := fillReply xid (some ⟨xid, ret⟩) sz channel.window
        running := channel.running.erase xid
        replies := ⟨xid, ret⟩ :: channel.replies } log server := by
  have remembers := Run.remembers executed.serves cltNonce
  have counted := executed.started xid
  have alive := List.count_pos_iff.mpr running
  have started : (cltNonce, xid) ∈ server.started :=
    (remembers.answered xid).mpr (List.countP_pos_iff.mp (by omega))
  have added : addReply server.replyWindow cltNonce xid (some ⟨xid, ret⟩) sz =
      some (Function.update server.replyWindow cltNonce
        (fillReply xid (some ⟨xid, ret⟩) sz channel.window)) := by
    rw [addReply, if_neg (by simpa using remembers.nonempty xid started), executed.window]
  have grown : ∀ y, ∀ result ∈ executions y events,
      result ∈ executions y (events ++ [.complete xid ret sz]) := by
    intro y result member
    rw [executions_concat]
    exact List.mem_append_left _ member
  have returned : ret ∈ executions xid (events ++ [.complete xid ret sz]) := by
    simp [executions_concat, ChannelEvent.execution]
  refine ⟨_, _, executed.serves.tail (.completion cltNonce xid _ sz started added), ?_, ?_, ?_, ?_,
    ?_⟩
  · simp
  · intro y
    have before := executed.started y
    simp only [executions_concat, ChannelEvent.execution, List.countP_append]
    by_cases here : xid = y
    · subst here
      simp [Event.answeredNew]
      omega
    · simp [Event.answeredNew, here, Ne.symm here, before]
  · intro reply inside header held
    rcases mem_fillReply inside with ⟨-, -, filled, -⟩ | ⟨-, old⟩
    · rw [filled] at held
      cases held
      exact returned
    · exact grown _ _ (executed.buffers reply old header held)
  · intro header sent
    rcases List.mem_cons.mp sent with rfl | old
    · exact .inr returned
    · exact (executed.replies header old).imp_right (grown _ _)
  · intro call member done
    exact (executed.results call member done).imp_right (Or.imp_right (grown _ _))

theorem Executed.client {client : Rpcc} {requests : List (Nat × Nat)}
    (silent : ∀ xid, event.execution xid = none)
    (results : ∀ call ∈ client.calls, call.done = true → call ∈ channel.client.calls ∨
      call.intret = cancelFailure ∨ ⟨call.xid, call.intret⟩ ∈ channel.replies) :
    Executed (events ++ [event]) { channel with client := client, requests := requests } log
      server := by
  have same : ∀ y, executions y (events ++ [event]) = executions y events := by
    simp [executions_concat, silent]
  refine ⟨executed.serves, executed.window, ?_, ?_, ?_, ?_⟩
  · simpa only [same] using executed.started
  · simpa only [same] using executed.buffers
  · simpa only [same] using executed.replies
  · intro call member done
    rw [same]
    rcases results call member done with old | cancelled | replied
    · exact executed.results call old done
    · exact .inl cancelled
    · exact .inr (executed.replies _ replied)

theorem Executed.step (taken : channel.step event = some next) :
    ∃ log server, Executed (events ++ [event]) next log server := by
  cases Channel.step_cases taken with
  | dispatch _ => exact executed.dispatch _ _
  | complete running => exact executed.complete running _ _
  | call called =>
      obtain ⟨rfl, -, -⟩ := Rpcc.call1_eq called
      refine ⟨log, server, executed.client (fun _ => rfl) ?_⟩
      intro call member done
      rcases List.mem_cons.mp member with rfl | old
      · cases done
      · exact .inl (List.mem_of_mem_filter old)
  | gotPdu replied =>
      refine ⟨log, server, executed.client (fun _ => rfl) ?_⟩
      intro call member done
      obtain ⟨before, old, rfl⟩ := List.mem_map.mp member
      split
      · rename_i answered
        exact .inr (.inr (by simpa [answered.1] using replied))
      · exact .inl old
  | finish _ =>
      exact ⟨log, server, executed.client (fun _ => rfl)
        fun call member _ => .inl (List.mem_of_mem_filter member)⟩
  | bound _ => exact ⟨log, server, executed.client (fun _ => rfl) fun call member _ => .inl member⟩
  | cancel =>
      refine ⟨log, server, executed.client (fun _ => rfl) ?_⟩
      intro call member _
      obtain ⟨before, -, rfl⟩ := List.mem_map.mp member
      exact .inr (.inl rfl)

end

theorem executed_of_run (run : Run (StepOf Channel.step) {} events channel) :
    ∃ log server, Executed events channel log server := by
  refine run.history (fun events channel => ∃ log server, Executed events channel log server) ?_ ?_
  · refine ⟨[], Rpcs.initial, .refl, rfl, ?_, ?_, ?_, ?_⟩ <;> simp [executions]
  · rintro events channel event next ⟨log, server, executed⟩ taken
    exact executed.step taken

/-- However requests and replies are lost, repeated, delayed and reordered, the handler of a call
is started at most once.  A call that has been given a result was cancelled, was refused as too
old, or has the result of the only execution of its handler. -/
theorem calls_return_only_execution (run : Run (StepOf Channel.step) {} events channel) :
    (∀ xid, channel.running.count xid + (executions xid events).length ≤ 1) ∧
    ∀ call ∈ channel.client.calls, call.done = true → call.intret = cancelFailure ∨
      call.intret = atmostonceFailure ∨ executions call.xid events = [call.intret] := by
  obtain ⟨log, server, executed⟩ := executed_of_run run
  have once : ∀ xid, channel.running.count xid + (executions xid events).length ≤ 1 := by
    intro xid
    rw [executed.started]
    exact (Run.remembers executed.serves cltNonce).once xid
  refine ⟨once, fun call member done => ?_⟩
  refine (executed.results call member done).imp_right (Or.imp_right fun returned => ?_)
  have bound := once call.xid
  have present := List.length_pos_of_mem returned
  obtain ⟨only, shape⟩ := List.length_eq_one_iff.mp
    (show (executions call.xid events).length = 1 by omega)
  rw [shape] at returned ⊢
  rw [List.mem_singleton.mp returned]

/-- A request arrives a second time after its handler has returned, and the copy is answered from
the window. -/
theorem calls_return_only_execution_repeated :
    executions 1 [.call true, .dispatch 1 0, .complete 1 0 8, .dispatch 1 0, .gotPdu ⟨1, 0⟩] =
      [0] := by
  have executed : exec Channel.step {} [.call true, .dispatch 1 0, .complete 1 0 8,
      .dispatch 1 0, .gotPdu ⟨1, 0⟩] = some _ := rfl
  rcases (calls_return_only_execution (run_of_exec executed)).2 ⟨1, true, true, 0⟩ (by decide)
    rfl with cancelled | refused | returned
  · cases cancelled
  · cases refused
  · exact returned

end Ctgfs.Rpc
