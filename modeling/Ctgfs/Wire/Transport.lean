import Mathlib.Data.List.Forall2
import Ctgfs.Wire.Framing
import Ctgfs.Wire.RoundTrip

/-!
# Messages between two processes

A message is marshalled on one side, sent over a connection, and unmarshalled on the other side.
-/

namespace Ctgfs.Wire

open Foundation

structure Message where
  header : Header
  values : List Value

namespace Message

def content (message : Message) : Bytes :=
  encoded (message.values.flatMap Value.calls)

/-- What `send` is given: `cstr()` and `size()` of the `marshall` with the header. -/
def pdu (memory : Nat → Byte) (message : Message) : Option Bytes :=
  ((exec (Marshall.call memory) (.new memory) (message.values.flatMap Value.calls)).bind
    (·.packAny memory message.header)).map fun m => m.buf.take m.ind

/-- The `unmarshall` of a PDU yields the header, the values and nothing more. -/
def ReadFrom (message : Message) (pdu : Bytes) : Prop :=
  ∃ small start last, message.header.unpackLike ⟨pdu, 0, true, small⟩ =
      some (message.header, start) ∧
    readLike message.values start = some (message.values, last) ∧ last.okdone = true

theorem readFrom_frame {message : Message} {memory : Nat → Byte} {b : Bytes}
    (fits : rpcHeaderSz + message.content.length ≤ maxPdu) (packs : message.pdu memory = some b)
    (small : (frame b).length < intLimit) : message.ReadFrom (frame b) := by
  obtain ⟨m, executed, wrote⟩ := Marshall.exec_wrote memory (@Marshall.sound_new memory)
    (message.values.flatMap Value.calls) (fits.trans (by decide))
  have sound : ({ m with ind := sizeBytes } : Marshall).Sound :=
    ⟨wrote.sound.allocated, (by decide : sizeBytes ≤ defaultRpcSz).trans wrote.sound.room,
      wrote.sound.room⟩
  obtain ⟨packed, packedRun, header⟩ := Marshall.exec_wrote memory sound message.header.calls
    (message.header.length_calls.trans (by decide))
  rw [pdu, executed, Option.bind_some, Marshall.packAny_eq, Marshall.packHeader, packedRun] at packs
  cases packs
  obtain ⟨pad, padLength, shape⟩ := packed_message wrote header
  obtain ⟨start, unpacked, -, -, last, read, done⟩ :=
    @read_message _ _ ⟨_, 0, true, small⟩ _ pad rfl (length_bigEndian _) padLength (by
      simp only [frame, shape, List.append_assoc]
      rfl)
  exact ⟨small, start, last, unpacked, read, done⟩

end Message

/-- However the stream is cut, the receiver reads the messages in the order of the `send`s: an
accepted PDU, unmarshalled as the types of the message it was made from, yields that message. -/
theorem messages_arrive {reader : Nat → Byte} {events : List LinkEvent} {link : Link}
    (run : Run (Guarded (StepOf (Link.step reader)) Link.Careful) .initial events link) :
    List.Forall₂ (fun b pdu => ∀ (memory : Nat → Byte) (message : Message),
        rpcHeaderSz + message.content.length ≤ maxPdu → message.pdu memory = some b →
        message.ReadFrom pdu)
      (link.sent.take link.accepted.length) link.accepted := by
  have inStep := inStep_of_run run
  have first : link.accepted = (link.sent.take link.accepted.length).map frame := by
    rw [List.map_take]
    exact List.prefix_iff_eq_take.mp inStep.accepted
  generalize link.accepted.length = count at first ⊢
  rw [first, List.forall₂_map_right_iff, List.forall₂_same]
  intro b member memory message fits packs
  obtain ⟨large, small⟩ := inStep.sizes b (List.mem_of_mem_take member)
  refine Message.readFrom_frame fits packs ?_
  rw [length_frame ((by decide : sizeBytes ≤ rpcHeaderSz).trans large)]
  exact small.trans_lt (by decide)

/-- A reply with a value, which is written and read in two parts. -/
theorem messages_arrive_in_parts :
    ∃ events link pdu, Run (Guarded (StepOf (Link.step fun _ => nullByte)) Link.Careful) .initial
        events link ∧ link.accepted = [pdu] ∧
      Message.ReadFrom ⟨.reply ⟨1, 0⟩, [⟨.bool, true⟩]⟩ pdu := by
  obtain ⟨b, link, pdu, run, sent, accepted, packs⟩ : ∃ b link pdu,
      Run (Guarded (StepOf (Link.step fun _ => nullByte)) Link.Careful) .initial
        [.send b (.wrote 10), .readCb (.got 4) (.got 3) true, .writeCb (.wrote 15), .sent,
          .readCb (.got 4) (.got 18) true] link ∧ link.sent = [b] ∧ link.accepted = [pdu] ∧
      Message.pdu (fun _ => nullByte) ⟨.reply ⟨1, 0⟩, [⟨.bool, true⟩]⟩ = some b := by
    refine ⟨.replicate 7 0 ++ 1 :: .replicate 16 0 ++ [1], _, _, guarded_of_exec rfl ?_, rfl, rfl,
      by decide +kernel⟩
    exact ⟨by constructor <;> decide, fun _ _ => ⟨trivial, fun _ _ => ⟨trivial, fun _ _ =>
      ⟨trivial, fun _ _ => ⟨trivial, fun _ _ => trivial⟩⟩⟩⟩⟩
  have arrive := messages_arrive run
  rw [sent, accepted] at arrive
  obtain ⟨read, -⟩ := List.forall₂_cons.mp arrive
  exact ⟨_, link, pdu, run, accepted, read _ _ (by decide) packs⟩

end Ctgfs.Wire
