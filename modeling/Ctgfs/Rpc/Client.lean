import Mathlib.Data.List.Basic
import Mathlib.Order.Nat

/-!
# The calls of an RPC client

`rpcc` numbers its calls with a 32-bit counter and keeps the pending ones in
`calls_`.  Every request carries the front of `xid_rep_window_`: all calls up to
that number have been answered or given up.  Each definition below is one section
of the code under the mutex `m_`.
-/

namespace Ctgfs.Rpc

/-- The number of values of an `unsigned int`. -/
def xidRange : Nat := 4294967296

/-- The loop of `update_xid_rep` that finds the place of `xid`. -/
def insertXid (xid : Nat) (window : List Nat) : List Nat :=
  window.takeWhile (· ≤ xid) ++ xid :: window.dropWhile (· ≤ xid)

/-- The loop after `compress`: `seen` is the window up to the iterator, and the
front goes as long as the iterator is its successor. -/
def compressLoop (seen : List Nat) : List Nat → List Nat
  | [] => seen
  | next :: rest =>
      compressLoop (seen.dropWhile (fun front => (front + 1) % xidRange = next) ++ [next]) rest

/-- `rpcc::update_xid_rep`.  The window is never empty. -/
def updateXidRep (xid : Nat) (window : List Nat) : List Nat :=
  match window with
  | [] => []
  | front :: rest =>
      if xid ≤ front then front :: rest
      else
        match insertXid xid (front :: rest) with
        | [] => []
        | first :: others => compressLoop [first] others

/-- `rpcc::caller`, with the `bind` that distinguishes the call of `rpcc::bind`. -/
structure Caller where
  xid : Nat
  bind : Bool
  done : Bool := false
  intret : Int := 0
  deriving DecidableEq, Repr

structure ReplyHeader where
  xid : Nat
  ret : Int
  deriving DecidableEq, Repr

/-- `rpc_const`. -/
def atmostonceFailure : Int := -4

def cancelFailure : Int := -7

/-- `rpcc`.  `binding` is set between the return of the call in `rpcc::bind` and
the section that sets `bind_done_`. -/
structure Rpcc where
  xid : Nat := 1
  calls : List Caller := []
  xidRepWindow : List Nat := [0]
  bindDone : Bool := false
  binding : Bool := false
  destroyWait : Bool := false
  deriving DecidableEq, Repr

namespace Rpcc

variable (client : Rpcc)

/-- The first section of `call1`: the new call and the `xid` and `xid_rep` of its
request, or nothing when the client is not bound, bound already or being destroyed. -/
def call1 (bind : Bool) : Option (Rpcc × Nat × Nat) :=
  if bind = client.bindDone then none
  else if client.destroyWait then none
  else
    some ({ client with
        xid := (client.xid + 1) % xidRange
        calls := { xid := client.xid, bind := bind } ::
          client.calls.filter (fun call => call.xid ≠ client.xid) },
      client.xid, client.xidRepWindow.headD 0)

def gotPdu (header : ReplyHeader) : Rpcc :=
  { client with
    xidRepWindow := updateXidRep header.xid client.xidRepWindow
    calls := client.calls.map fun call =>
      if call.xid = header.xid ∧ call.done = false then
        { call with done := true, intret := header.ret }
      else call }

/-- The last section of `call1`, after a reply or a timeout. -/
def finish (call : Caller) : Rpcc :=
  { client with
    xidRepWindow := updateXidRep call.xid client.xidRepWindow
    calls := client.calls.filter fun other => other.xid ≠ call.xid
    binding := client.binding || call.bind && call.done && decide (call.intret = 0) }

/-- The section of `bind` after its call has returned 0. -/
def bound : Rpcc := { client with bindDone := true, binding := false }

def cancel : Rpcc :=
  { client with
    calls := client.calls.map fun call => { call with done := true, intret := cancelFailure }
    destroyWait := client.destroyWait || client.calls ≠ [] }

end Rpcc

theorem Rpcc.call1_eq {client next : Rpcc} {bind : Bool} {xid xidRep : Nat}
    (called : client.call1 bind = some (next, xid, xidRep)) :
    next = { client with
        xid := (client.xid + 1) % xidRange
        calls := { xid := client.xid, bind := bind } ::
          client.calls.filter (fun call => call.xid ≠ client.xid) } ∧
      xid = client.xid ∧ xidRep = client.xidRepWindow.headD 0 := by
  unfold call1 at called
  split at called
  · cases called
  split at called
  · cases called
  cases called
  exact ⟨rfl, rfl, rfl⟩

@[simp]
theorem Rpcc.gotPdu_xids (client : Rpcc) (header : ReplyHeader) :
    (client.gotPdu header).calls.map Caller.xid = client.calls.map Caller.xid := by
  simp only [gotPdu, List.map_map]
  apply List.map_congr_left
  intro call _
  simp only [Function.comp_apply]
  split <;> rfl

@[simp]
theorem Rpcc.cancel_xids (client : Rpcc) :
    client.cancel.calls.map Caller.xid = client.calls.map Caller.xid := by
  simp [cancel]

theorem Rpcc.mem_finish_xids {client : Rpcc} {call : Caller} {xid : Nat}
    (member : xid ∈ (client.finish call).calls.map Caller.xid) :
    xid ∈ client.calls.map Caller.xid := by
  obtain ⟨other, inside, rfl⟩ := List.mem_map.mp member
  exact List.mem_map_of_mem (List.mem_of_mem_filter inside)

theorem mem_insertXid {xid seen : Nat} {window : List Nat} :
    seen ∈ insertXid xid window ↔ seen ∈ window ∨ seen = xid := by
  have parts : window.takeWhile (· ≤ xid) ++ window.dropWhile (· ≤ xid) = window :=
    List.takeWhile_append_dropWhile
  rw [insertXid, List.mem_append, List.mem_cons]
  conv_rhs => rw [← parts, List.mem_append]
  tauto

theorem mem_compressLoop {seen rest : List Nat} {xid : Nat}
    (member : xid ∈ compressLoop seen rest) : xid ∈ seen ∨ xid ∈ rest := by
  induction rest generalizing seen with
  | nil => exact .inl member
  | cons next rest ih =>
      rcases ih member with inSeen | inRest
      · rcases List.mem_append.mp inSeen with kept | last
        · exact .inl ((List.dropWhile_suffix _).subset kept)
        · exact .inr (by simpa using .inl (List.mem_singleton.mp last))
      · exact .inr (List.mem_cons_of_mem _ inRest)

theorem mem_updateXidRep {xid seen : Nat} {window : List Nat}
    (member : seen ∈ updateXidRep xid window) : seen ∈ window ∨ seen = xid := by
  unfold updateXidRep at member
  split at member
  · exact .inl member
  · split at member
    · exact .inl member
    · split at member
      next => simp at member
      next first others inserted =>
        apply mem_insertXid.mp
        rw [inserted]
        simpa using mem_compressLoop member

end Ctgfs.Rpc
