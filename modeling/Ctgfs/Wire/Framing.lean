import Ctgfs.Wire.Connection

/-!
# Messages over a stream

One connection sends messages and another one receives them, over a stream of bytes that is
cut anywhere.  What the receiver has accepted is always the beginning of what was sent.
-/

namespace Ctgfs.Wire

open Foundation

def frame (b : Bytes) : Bytes := bigEndian (UInt32.ofNat b.length) ++ b.drop sizeBytes

/-- Two ends of a stream.  The bytes that were read, the messages that were passed to `send`
while it was alive, and the messages that `got_pdu` consumed are kept for the record. -/
structure Link where
  sender : Connection
  receiver : Connection
  stream : Bytes
  consumed : Bytes
  sent : List Bytes
  accepted : List Bytes

inductive LinkEvent where
  | send (b : Bytes) (result : WriteResult)
  | writeCb (result : WriteResult)
  | sent
  | readCb (first second : ReadResult) (accept : Bool)
  | closeSender
  | closeReceiver

namespace Link

def initial : Link := ⟨.initial, .initial, [], [], [], []⟩

def step (memory : Nat → Byte) (link : Link) : LinkEvent → Option Link
  | .send b result =>
      (link.sender.send b result).map fun (sender, written) =>
        { link with
          sender := sender
          stream := link.stream ++ written
          sent := if link.sender.dead then link.sent else link.sent ++ [b] }
  | .writeCb result =>
      (link.sender.writeCb result).map fun (sender, written) =>
        { link with sender := sender, stream := link.stream ++ written }
  | .sent => link.sender.sent.map fun sender => { link with sender := sender }
  | .readCb first second accept =>
      (link.receiver.readCb memory link.stream first second accept).map
        fun ((receiver, pdu), rest) =>
          { link with
            receiver := receiver
            stream := rest
            consumed := link.consumed ++ link.stream.take (link.stream.length - rest.length)
            accepted := link.accepted ++ pdu.toList }
  | .closeSender => some { link with sender := { link.sender with dead := true } }
  | .closeReceiver => some { link with receiver := { link.receiver with dead := true } }

def Careful : Link → LinkEvent → Prop
  | _, .send b _ => rpcHeaderSz ≤ b.length ∧ b.length ≤ maxPdu
  | _, .writeCb _ | _, .sent | _, .readCb _ _ _ | _, .closeSender | _, .closeReceiver => True

end Link

structure Framed (f : Bytes) : Prop where
  size : f.take sizeBytes = bigEndian (UInt32.ofNat f.length)
  large : rpcHeaderSz ≤ f.length
  small : f.length ≤ maxPdu

theorem length_frame {b : Bytes} (large : sizeBytes ≤ b.length) :
    (frame b).length = b.length := by
  have four : sizeBytes = 4 := rfl
  rw [frame, List.length_append, List.length_drop, length_bigEndian]
  omega

theorem framed_frame {b : Bytes} (large : rpcHeaderSz ≤ b.length) (small : b.length ≤ maxPdu) :
    Framed (frame b) := by
  have length := length_frame ((by decide : sizeBytes ≤ rpcHeaderSz).trans large)
  refine ⟨?_, length ▸ large, length ▸ small⟩
  rw [length, frame]
  exact List.take_left' rfl

theorem frame_frame {b : Bytes} (large : sizeBytes ≤ b.length) : frame (frame b) = frame b := by
  have behind : (frame b).drop sizeBytes = b.drop sizeBytes := List.drop_left' rfl
  rw [frame, length_frame large, behind, frame]

theorem toInt_ofNat {n : Nat} (small : n ≤ maxPdu) : (UInt32.ofNat n).toInt32.toInt = n := by
  have limit : n < 2147483648 := lt_of_le_of_lt small (by decide)
  have size : Int32.size = 4294967296 := rfl
  rw [UInt32.toInt32_ofNat', Int32.toInt_ofNat']
  exact Int.bmod_eq_of_le (by omega) (by omega)

/-- How far the receiver is: between two messages, or inside one whose first bytes stand in its
buffer. -/
inductive Reading (frames accepted : List Bytes) (consumed : Bytes) : Charbuf → Prop where
  | idle {others} : frames = accepted ++ others → consumed = accepted.flatten →
      Reading frames accepted consumed .empty
  | filling {f : Bytes} {others buf solong} : frames = accepted ++ f :: others →
      f.length + 4 = buf.length → 4 ≤ solong → solong ≤ f.length →
      buf.take solong = f.take solong → consumed = accepted.flatten ++ f.take solong →
      Reading frames accepted consumed ⟨some buf, f.length, solong⟩

theorem take_append_chunk {f chunk rest others : Bytes} {solong : Nat}
    (inside : solong + chunk.length ≤ f.length)
    (here : f.take solong ++ (chunk ++ rest) <+: f ++ others) :
    f.take solong ++ chunk = f.take (solong + chunk.length) := by
  obtain ⟨tail, same⟩ := here
  have length : (f.take solong ++ chunk).length = solong + chunk.length := by
    rw [List.length_append, List.length_take_of_le (by omega)]
  have taken := congrArg (List.take (solong + chunk.length)) same
  rwa [← List.append_assoc, List.append_assoc, List.take_left' length,
    List.take_append_of_le_length inside] at taken

variable {succ : Bool}

section Receiving

variable {memory : Nat → Byte} {frames accepted : List Bytes} {consumed stream rest : Bytes}
  {rpdu next : Charbuf}

theorem Reading.mono (reading : Reading frames accepted consumed rpdu) (more : List Bytes) :
    Reading (frames ++ more) accepted consumed rpdu := by
  cases reading with
  | idle split here => exact .idle (by rw [split, List.append_assoc]) here
  | filling split allocated begun notFull read here =>
      exact .filling (by rw [split, List.append_assoc, List.cons_append]) allocated begun notFull
        read here

theorem Reading.accepted_prefix (reading : Reading frames accepted consumed rpdu) :
    accepted <+: frames := by
  cases reading with
  | idle split => exact ⟨_, split.symm⟩
  | filling split => exact ⟨_, split.symm⟩

theorem next_frame (framed : ∀ f ∈ frames, Framed f) {others : List Bytes}
    (split : frames = accepted ++ others) (available : sizeBytes ≤ stream.length)
    (written : accepted.flatten ++ stream <+: frames.flatten) :
    ∃ f more, others = f :: more ∧ Framed f ∧ stream.take sizeBytes = f.take sizeBytes := by
  rw [split, List.flatten_append, List.prefix_append_right_inj] at written
  cases others with
  | nil =>
      rw [List.flatten_nil, List.prefix_nil] at written
      rw [written] at available
      cases available
  | cons f more =>
      have here : Framed f := framed f (by rw [split]; simp)
      have room : sizeBytes ≤ f.length := (by decide : sizeBytes ≤ rpcHeaderSz).trans here.large
      obtain ⟨tail, same⟩ := written
      have taken := congrArg (List.take sizeBytes) same
      rw [List.flatten_cons, List.take_append_of_le_length available,
        List.take_append_of_le_length room] at taken
      exact ⟨f, more, rfl, here, taken⟩

theorem Reading.begun (framed : ∀ f ∈ frames, Framed f)
    (reading : Reading frames accepted consumed rpdu) (start : rpdu.sz = 0)
    (written : consumed ++ stream <+: frames.flatten) (begun : next.Begun stream) :
    Reading frames accepted (consumed ++ stream.take sizeBytes) next := by
  cases reading with
  | filling split allocated begun notFull =>
      dsimp only at start
      omega
  | @idle others split here =>
      rw [here] at written ⊢
      obtain ⟨f, more, rfl, frameF, size⟩ := next_frame framed split begun.available written
      have sz : next.sz = f.length := by
        rw [begun.sz, size, frameF.size, ofBigEndian_bigEndian, toInt_ofNat frameF.small]
      obtain ⟨buf, nextBuf, allocated, read⟩ := begun.buf
      have solong := begun.solong
      have large : 4 ≤ f.length := (by decide : 4 ≤ rpcHeaderSz).trans frameF.large
      obtain ⟨nextBuf', nextSz, nextSolong⟩ := next
      dsimp only at sz nextBuf allocated read solong
      subst sz nextBuf solong
      refine .filling split (by omega) (Nat.le_refl 4) large ?_ (by rw [size]; rfl)
      exact (read (by omega)).trans size

theorem Reading.bodyRead (reading : Reading frames accepted consumed rpdu)
    (written : consumed ++ stream <+: frames.flatten) (body : BodyRead stream rpdu succ next rest) :
    ∃ taken, stream = taken ++ rest ∧
      (succ = true → Reading frames accepted (consumed ++ taken) next) ∧
      (succ = false → next = .empty) := by
  cases body with
  | waits =>
      refine ⟨[], rfl, fun _ => ?_, fun failed => absurd failed (by decide)⟩
      rwa [List.append_nil]
  | fails => exact ⟨[], rfl, fun succ => absurd succ (by decide), fun _ => rfl⟩
  | @reads buf chunk rest here split counted nonnegative inside =>
      refine ⟨chunk, split, fun _ => ?_, fun failed => absurd failed (by decide)⟩
      cases reading with
      | idle => cases here
      | @filling f others buf solong frames_eq allocated begun notFull read consumed_eq =>
          cases here
          dsimp only at counted inside ⊢
          have fits : solong + chunk.length ≤ f.length := by
            have := counted (by omega)
            omega
          rw [split, consumed_eq, frames_eq, List.flatten_append, List.append_assoc,
            List.prefix_append_right_inj, List.flatten_cons] at written
          have continued := take_append_chunk fits written
          have room : solong + chunk.length ≤ buf.length := by omega
          have cast : ((solong : Int) + chunk.length) = ((solong + chunk.length : Nat) : Int) := rfl
          rw [cast, Int.toNat_natCast]
          refine .filling frames_eq ?_ (by omega) fits ?_ ?_
          · rw [length_writeAt_of_le room, allocated]
          · have length : (buf.take solong ++ chunk).length = solong + chunk.length := by
              rw [List.length_append, List.length_take_of_le (by omega)]
            rw [writeAt_of_le room, List.take_left' length, read, continued]
          · rw [consumed_eq, List.append_assoc, continued]

theorem Reading.buf_of_start (reading : Reading frames accepted consumed rpdu)
    (start : rpdu.sz = 0) : rpdu.buf = none := by
  cases reading with
  | idle => rfl
  | filling split allocated begun notFull =>
      dsimp only at start
      omega

theorem Reading.readpdu {first second : ReadResult} (framed : ∀ f ∈ frames, Framed f)
    (reading : Reading frames accepted consumed rpdu)
    (written : consumed ++ stream <+: frames.flatten)
    (ran : readpdu memory stream rpdu first second = some (succ, next, rest)) :
    ∃ taken, stream = taken ++ rest ∧
      (succ = true → Reading frames accepted (consumed ++ taken) next) ∧
      (succ = false → next.buf = none) := by
  rcases readpdu_some ran with
    ⟨start, rfl, rfl, taken, split⟩ | ⟨start, begun, sized, body⟩ | ⟨-, body⟩
  · exact ⟨taken, split.symm, fun succ => absurd succ (by decide),
      fun _ => reading.buf_of_start start⟩
  · obtain ⟨-, -, begins⟩ := readSize_some sized
    have sizeRead := reading.begun framed start written begins
    have left :
        (consumed ++ stream.take sizeBytes) ++ stream.drop sizeBytes <+: frames.flatten := by
      rwa [List.append_assoc, List.take_append_drop]
    obtain ⟨taken, split, read, failed⟩ := sizeRead.bodyRead left body
    refine ⟨stream.take sizeBytes ++ taken, ?_, fun succ => ?_, fun fails => ?_⟩
    · rw [List.append_assoc, ← split, List.take_append_drop]
    · rw [← List.append_assoc]
      exact read succ
    · rw [failed fails]
      rfl
  · obtain ⟨taken, split, read, failed⟩ := reading.bodyRead written body
    refine ⟨taken, split, read, fun fails => ?_⟩
    rw [failed fails]
    rfl

theorem Reading.handOver {c : Connection} (reading : Reading frames accepted consumed c.rpdu)
    (accept : Bool) :
    Reading frames (accepted ++ (c.handOver accept).2.toList) consumed
      (c.handOver accept).1.rpdu := by
  have kept : Reading frames (accepted ++ (none : Option Bytes).toList) consumed c.rpdu := by
    rwa [Option.toList_none, List.append_nil]
  rw [Connection.handOver]
  split
  next buf here =>
    split
    next complete =>
      generalize c.rpdu = rpdu at reading here complete
      cases reading with
      | idle => cases here
      | @filling f others _ solong split allocated begun notFull read consumed_eq =>
          cases here
          dsimp only at complete ⊢
          obtain rfl : f.length = solong := by omega
          rw [List.take_length] at read consumed_eq
          rw [Int.toNat_natCast, read, Option.toList_some]
          have later : frames = (accepted ++ [f]) ++ others := by
            rw [split, List.append_assoc, List.singleton_append]
          refine .idle later ?_
          rw [consumed_eq, List.flatten_append, List.flatten_singleton]
    next partly => exact kept
  next => exact kept

theorem Reading.readCb {c next : Connection} {first second : ReadResult} {accept : Bool}
    {pdu : Option Bytes} (framed : ∀ f ∈ frames, Framed f) (alive : c.dead = false)
    (reading : Reading frames accepted consumed c.rpdu)
    (written : consumed ++ stream <+: frames.flatten)
    (ran : c.readCb memory stream first second accept = some ((next, pdu), rest)) :
    ∃ taken, stream = taken ++ rest ∧ accepted ++ pdu.toList <+: frames ∧
      (next.dead = false →
        Reading frames (accepted ++ pdu.toList) (consumed ++ taken) next.rpdu) := by
  obtain ⟨succ, rpdu, after, read⟩ := Connection.readCb_some alive ran
  obtain ⟨taken, split, continues, failed⟩ : ∃ taken, stream = taken ++ rest ∧
      (succ = true → Reading frames accepted (consumed ++ taken) rpdu) ∧
      (succ = false → rpdu.buf = none) := by
    rcases read with ⟨-, read⟩ | ⟨-, rfl, rfl, rfl⟩
    · exact reading.readpdu framed written read
    · refine ⟨[], rfl, fun _ => ?_, fun failed => absurd failed (by decide)⟩
      rwa [List.append_nil]
  refine ⟨taken, split, ?_⟩
  cases succ with
  | true =>
      have handed := @Reading.handOver _ _ _ ⟨!true, c.wpdu, rpdu⟩ (continues rfl) accept
      rw [← after] at handed
      exact ⟨handed.accepted_prefix, fun _ => handed⟩
  | false =>
      rw [Connection.handOver, failed rfl] at after
      cases after
      rw [Option.toList_none, List.append_nil]
      exact ⟨reading.accepted_prefix, fun alive => by cases alive⟩

end Receiving

inductive Writing (frames : List Bytes) (written : Bytes) : Charbuf → Prop where
  | idle : written = frames.flatten → Writing frames written .empty
  | sending {before : List Bytes} {buf : Bytes} {solong : Nat} :
      frames = before ++ [frame buf] → sizeBytes ≤ buf.length → solong ≤ buf.length →
      (0 < solong → buf = frame buf) → written = before.flatten ++ (frame buf).take solong →
      Writing frames written ⟨some buf, buf.length, solong⟩

section Sending

variable {frames : List Bytes} {written out : Bytes} {wpdu next : Charbuf} {result : WriteResult}

theorem Writing.written_prefix (writing : Writing frames written wpdu) :
    written <+: frames.flatten := by
  cases writing with
  | idle here =>
      rw [here]
  | sending split room notFull marked here =>
      rw [split, here, List.flatten_append, List.flatten_singleton, List.prefix_append_right_inj]
      exact List.take_prefix _ _

theorem Writing.complete (writing : Writing frames written wpdu)
    (whole : wpdu.solong = wpdu.sz) : written = frames.flatten := by
  cases writing with
  | idle here => exact here
  | sending split room notFull marked here =>
      dsimp only at whole
      rw [split, here, List.flatten_append, List.flatten_singleton, Int.ofNat_inj.mp whole,
        ← length_frame room, List.take_length]

theorem Writing.writepdu (writing : Writing frames written wpdu)
    (ran : writepdu wpdu result = some (succ, next, out)) :
    written ++ out <+: frames.flatten ∧ (succ = true → Writing frames (written ++ out) next) := by
  have stays : Writing frames (written ++ []) wpdu := by
    rwa [List.append_nil]
  rw [Wire.writepdu, Option.ite_none_left_eq_some] at ran
  obtain ⟨-, ran⟩ := ran
  split at ran
  · cases ran
    exact ⟨stays.written_prefix, fun _ => stays⟩
  next partly =>
    cases writing with
    | idle => exact absurd rfl partly
    | @sending before buf solong split room notFull marked here =>
        -- From the first write on, the buffer holds the size.
        have marks : Charbuf.marked ⟨some buf, buf.length, solong⟩ =
            ⟨some (frame buf), (frame buf).length, solong⟩ := by
          rw [Charbuf.marked, length_frame room]
          dsimp only
          split
          · rfl
          next begun => rw [← marked (by omega)]
        have continues : ∀ n : Nat, solong + n ≤ buf.length →
            Writing frames (written ++ ((frame buf).drop solong).take n)
              ⟨some (frame buf), (frame buf).length, (solong + n : Nat)⟩ := by
          intro n fits
          rw [← frame_frame room] at split
          refine .sending split (length_frame room ▸ room) (length_frame room ▸ fits)
            (fun _ => (frame_frame room).symm) ?_
          rw [frame_frame room, here, List.append_assoc, List.take_add]
        rw [marks] at ran
        cases result with
        | wrote n =>
            rw [writeRest, Option.ite_none_right_eq_some] at ran
            obtain ⟨fits, ran⟩ := ran
            cases ran
            dsimp only at fits
            rw [length_frame room] at fits
            have next := continues n (by omega)
            exact ⟨next.written_prefix, fun _ => next⟩
        | failed eagain =>
            cases eagain with
            | true =>
                cases ran
                have next := continues 0 notFull
                rw [List.take_zero] at next
                exact ⟨next.written_prefix, fun _ => next⟩
            | false =>
                cases ran
                exact ⟨stays.written_prefix, fun succ => by cases succ⟩

theorem Writing.send {c after : Connection} {b : Bytes} (alive : c.dead = false)
    (writing : Writing frames written c.wpdu) (room : sizeBytes ≤ b.length)
    (ran : c.send b result = some (after, out)) :
    written ++ out <+: (frames ++ [frame b]).flatten ∧
      (after.dead = false → Writing (frames ++ [frame b]) (written ++ out) after.wpdu) := by
  rw [Connection.send, if_neg (by rw [alive]; decide), Option.ite_none_right_eq_some] at ran
  obtain ⟨free, ran⟩ := ran
  obtain ⟨⟨succ, wpdu, out'⟩, wrote, finished⟩ := Option.map_eq_some_iff.mp ran
  cases finished
  have started : Writing (frames ++ [frame b]) written ⟨some b, b.length, (0 : Nat)⟩ := by
    generalize c.wpdu = before at writing free
    cases writing with
    | sending => cases free
    | idle here =>
        refine .sending rfl room (Nat.zero_le _) (fun begun => absurd begun (by decide)) ?_
        rw [here, List.take_zero, List.append_nil]
  obtain ⟨sent, continues⟩ := started.writepdu wrote
  refine ⟨sent, fun aliveAfter => ?_⟩
  cases succ with
  | false =>
      rw [if_neg fun waits => Bool.false_ne_true waits.1] at aliveAfter
      cases aliveAfter
  | true =>
      have partly := continues rfl
      split
      next waits => exact partly
      next complete =>
        refine .idle (partly.complete ?_)
        by_contra waits
        exact complete ⟨rfl, waits⟩

theorem Writing.writeCb {c after : Connection} (writing : Writing frames written c.wpdu)
    (ran : c.writeCb result = some (after, out)) :
    written ++ out <+: frames.flatten ∧
      (after.dead = false → Writing frames (written ++ out) after.wpdu) := by
  rw [Connection.writeCb, Option.ite_none_left_eq_some] at ran
  obtain ⟨-, ran⟩ := ran
  split at ran
  · cases ran
    rw [List.append_nil]
    exact ⟨writing.written_prefix, fun _ => writing⟩
  · obtain ⟨⟨succ, wpdu, out'⟩, wrote, finished⟩ := Option.map_eq_some_iff.mp ran
    cases finished
    obtain ⟨sent, continues⟩ := writing.writepdu wrote
    refine ⟨sent, fun alive => continues ?_⟩
    simpa using alive

theorem Writing.sent {c after : Connection} (alive : c.dead = false)
    (writing : Writing frames written c.wpdu) (ran : c.sent = some after) :
    Writing frames written after.wpdu := by
  rw [Connection.sent, Option.ite_none_right_eq_some] at ran
  obtain ⟨⟨-, complete⟩, ran⟩ := ran
  cases ran
  refine .idle (writing.complete ?_)
  generalize c.wpdu = wpdu at writing complete
  rw [alive] at complete
  cases writing with
  | idle => rfl
  | sending split room notFull =>
      dsimp only at complete ⊢
      rcases complete with dead | negative | complete
      · cases dead
      · omega
      · omega

end Sending

namespace Link

def frames (link : Link) : List Bytes := link.sent.map frame

structure InStep (link : Link) : Prop where
  sizes : ∀ b ∈ link.sent, rpcHeaderSz ≤ b.length ∧ b.length ≤ maxPdu
  written : link.consumed ++ link.stream <+: link.frames.flatten
  writing : link.sender.dead = false →
    Writing link.frames (link.consumed ++ link.stream) link.sender.wpdu
  reading : link.receiver.dead = false →
    Reading link.frames link.accepted link.consumed link.receiver.rpdu
  accepted : link.accepted <+: link.frames

variable {memory : Nat → Byte} {link next : Link} {event : LinkEvent}

theorem InStep.framed (inStep : link.InStep) : ∀ f ∈ link.frames, Framed f := by
  intro f member
  obtain ⟨b, sent, rfl⟩ := List.mem_map.mp member
  exact framed_frame (inStep.sizes b sent).1 (inStep.sizes b sent).2

theorem InStep.write (inStep : link.InStep) {sender : Connection} {out : Bytes}
    {more : List Bytes} (sizes : ∀ b ∈ more, rpcHeaderSz ≤ b.length ∧ b.length ≤ maxPdu)
    (written : link.consumed ++ link.stream ++ out <+: (link.frames ++ more.map frame).flatten)
    (writing : sender.dead = false →
      Writing (link.frames ++ more.map frame) (link.consumed ++ link.stream ++ out) sender.wpdu) :
    InStep { link with
      sender := sender, stream := link.stream ++ out, sent := link.sent ++ more } := by
  have later : (link.sent ++ more).map frame = link.frames ++ more.map frame := List.map_append
  constructor
  · intro b member
    rcases List.mem_append.mp member with old | new
    · exact inStep.sizes b old
    · exact sizes b new
  · rw [frames, later, ← List.append_assoc]
    exact written
  · intro alive
    rw [frames, later, ← List.append_assoc]
    exact writing alive
  · intro alive
    rw [frames, later]
    exact (inStep.reading alive).mono _
  · rw [frames, later]
    exact inStep.accepted.trans (List.prefix_append _ _)

theorem InStep.step (inStep : link.InStep) (careful : link.Careful event)
    (taken : link.step memory event = some next) : next.InStep := by
  have unchanged : link.frames ++ ([] : List Bytes).map frame = link.frames := List.append_nil _
  cases event with
  | send b result =>
      obtain ⟨⟨sender, out⟩, ran, rfl⟩ := Option.map_eq_some_iff.mp taken
      cases alive : link.sender.dead with
      | true =>
          rw [Connection.send, if_pos alive] at ran
          cases ran
          dsimp only
          rw [if_pos rfl, List.append_nil]
          exact inStep
      | false =>
          dsimp only
          rw [if_neg Bool.false_ne_true]
          have room := (by decide : sizeBytes ≤ rpcHeaderSz).trans careful.1
          obtain ⟨written, writing⟩ := (inStep.writing alive).send alive room ran
          refine inStep.write (fun other member => ?_) written writing
          rw [List.mem_singleton.mp member]
          exact careful
  | writeCb result =>
      obtain ⟨⟨sender, out⟩, ran, rfl⟩ := Option.map_eq_some_iff.mp taken
      have alive : link.sender.dead = false := by
        by_contra dead
        rw [Bool.not_eq_false] at dead
        rw [Connection.writeCb, if_pos dead] at ran
        cases ran
      obtain ⟨written, writing⟩ := (inStep.writing alive).writeCb ran
      rw [← unchanged] at written writing
      have wrote := inStep.write (by simp) written writing
      rwa [List.append_nil] at wrote
  | sent =>
      obtain ⟨sender, ran, rfl⟩ := Option.map_eq_some_iff.mp taken
      have same : sender.dead = link.sender.dead := by
        rw [Connection.sent, Option.ite_none_right_eq_some] at ran
        cases ran.2
        rfl
      refine { inStep with writing := fun alive => ?_ }
      have before : link.sender.dead = false := same ▸ alive
      exact (inStep.writing before).sent before ran
  | readCb first second accept =>
      obtain ⟨⟨⟨receiver, pdu⟩, rest⟩, ran, rfl⟩ := Option.map_eq_some_iff.mp taken
      cases alive : link.receiver.dead with
      | true =>
          rw [Connection.readCb, if_pos alive] at ran
          cases ran
          dsimp only
          rw [Nat.sub_self, List.take_zero, List.append_nil, Option.toList_none, List.append_nil]
          exact inStep
      | false =>
          obtain ⟨taken, split, accepted, reading⟩ :=
            (inStep.reading alive).readCb inStep.framed alive inStep.written ran
          have length : link.stream.length - rest.length = taken.length := by
            rw [split, List.length_append, Nat.add_sub_cancel]
          have whole : link.consumed ++ taken ++ rest = link.consumed ++ link.stream := by
            rw [split, List.append_assoc]
          dsimp only
          rw [length, split, List.take_left]
          refine ⟨inStep.sizes, ?_, fun senderAlive => ?_, reading, accepted⟩
          · exact whole ▸ inStep.written
          · exact whole ▸ inStep.writing senderAlive
  | closeSender =>
      cases taken
      exact { inStep with writing := fun alive => by cases alive }
  | closeReceiver =>
      cases taken
      exact { inStep with reading := fun alive => by cases alive }

end Link

theorem inStep_of_run {memory : Nat → Byte} {events : List LinkEvent} {link : Link}
    (run : Run (Guarded (StepOf (Link.step memory)) Link.Careful) .initial events link) :
    link.InStep := by
  refine run.invariant Link.InStep ?_ fun _ _ _ inStep taken => inStep.step taken.1 taken.2
  exact ⟨by rintro b ⟨⟩, List.prefix_rfl, fun _ => .idle rfl,
    fun _ => .idle (List.append_nil []).symm rfl, List.prefix_rfl⟩

/-- In every run over a stream with messages of an allowed size, however reads and writes cut
the stream and whenever `got_pdu` refuses, the messages that were accepted are the first ones
that were sent, byte for byte. -/
theorem accepted_prefix_of_sent {memory : Nat → Byte} {events : List LinkEvent} {link : Link}
    (run : Run (Guarded (StepOf (Link.step memory)) Link.Careful) .initial events link) :
    link.accepted <+: link.sent.map frame :=
  (inStep_of_run run).accepted

/-- A message that is written and read in two parts each, refused once and then accepted. -/
theorem accepted_prefix_of_sent_in_parts :
    ∃ link, Run (Guarded (StepOf (Link.step fun _ => nullByte)) Link.Careful) .initial
        [.send (List.replicate 24 7) (.wrote 10), .readCb (.got 4) (.got 3) true,
          .writeCb (.wrote 14), .readCb (.got 4) (.got 17) false, .sent,
          .readCb (.got 4) (.got 4) true] link ∧
      link.accepted.length = 1 ∧ link.accepted <+: link.sent.map frame := by
  obtain ⟨link, one, run⟩ : ∃ link : Link, link.accepted.length = 1 ∧
      Run (Guarded (StepOf (Link.step fun _ => nullByte)) Link.Careful) .initial
        [.send (List.replicate 24 7) (.wrote 10), .readCb (.got 4) (.got 3) true,
          .writeCb (.wrote 14), .readCb (.got 4) (.got 17) false, .sent,
          .readCb (.got 4) (.got 4) true] link := by
    refine ⟨_, ?_, guarded_of_exec rfl ?_⟩
    · decide
    · exact ⟨by constructor <;> decide, fun _ _ => ⟨trivial, fun _ _ => ⟨trivial, fun _ _ =>
        ⟨trivial, fun _ _ => ⟨trivial, fun _ _ => ⟨trivial, fun _ _ => trivial⟩⟩⟩⟩⟩⟩
  exact ⟨link, run, one, accepted_prefix_of_sent run⟩

end Ctgfs.Wire
