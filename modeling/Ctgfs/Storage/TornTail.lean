import Ctgfs.Storage.Wal

/-!
# A crash inside an append

A crash may leave some first bytes of the record that was being appended.  `Recover` does
not look at how many bytes its reads return, so it takes these bytes for a record: whatever
`Init` replays then, it is more than the records that were written completely.
-/

namespace Ctgfs.Storage

open Foundation

/-- The files after a crash inside `LogToDisk` that leaves `cut` bytes of the record. -/
def Wal.torn (wal : Wal) (log : Log) (cut : Nat) : Option Wal :=
  match wal.log, wal.dlog with
  | some file, some position =>
      some {
        log := some (writeAt file position (log.record.take cut))
        current := wal.current
        init_ := false
        dlog := none
        replayed := [] }
  | _, _ => none

/-- The next `Init` returns, replays exactly the pending logs, and a log that is appended
after it is replayed by the `Init` after that. -/
def Recovers (ledger : Ledger) (wal : Wal) : Prop :=
  ∀ junk, ∃ next, wal.step (.init junk) = some next ∧ next.replayed = ledger.pending ∧
    ∀ added : Log, added.Built → wal.getDiskLogSize + added.record.length < arrayLimit →
      ∃ later, next.step (.logToDisk added) = some later ∧
        ∀ junk, ∃ last, later.step (.init junk) = some last ∧ added ∈ last.replayed

section Loop

theorem Log.readLoop_ne_nil {junk : Nat → Nat → Byte} {file : Bytes} {fuel offset position : Nat}
    {out : List Log} (inside : offset < file.length)
    (looped : readLoop junk file fuel offset position = .ok out) : out ≠ [] := by
  cases fuel with
  | zero => cases looped
  | succ fuel =>
      rw [readLoop, if_pos inside] at looped
      obtain ⟨⟨log, readed, next⟩, -, rest⟩ := bind_eq_ok looped
      obtain ⟨logs, -, done⟩ := bind_eq_ok rest
      cases done
      exact List.cons_ne_nil _ _

theorem Log.readLoop_tail {junk : Nat → Nat → Byte} {logs out : List Log} {tail : Bytes}
    (built : ∀ log ∈ logs, log.Built) (torn : tail ≠ []) (start : Bytes)
    (small : start.length + Log.extent logs < arrayLimit) (fuel : Nat)
    (looped : readLoop junk (start ++ (logs.flatMap Log.record ++ tail)) fuel start.length
      start.length = .ok out) :
    logs.length < out.length := by
  induction logs generalizing start fuel out with
  | nil =>
      have inside : start.length < (start ++ tail).length := by
        simpa using List.length_pos_iff.mpr torn
      exact List.length_pos_iff.mpr (readLoop_ne_nil inside looped)
  | cons log rest ih =>
      cases fuel with
      | zero => cases looped
      | succ fuel =>
          rw [extent_cons] at small
          rw [List.flatMap_cons, List.append_assoc, ← List.append_assoc,
            readLoop_record junk (built log List.mem_cons_self) start _ (by omega)] at looped
          cases later : readLoop junk
              (start ++ log.record ++ (rest.flatMap Log.record ++ tail)) fuel
              (start ++ log.record).length (start ++ log.record).length with
          | error failure =>
              rw [later] at looped
              cases looped
          | ok logs =>
              rw [later] at looped
              cases looped
              have more := ih
                (fun other member => built other (List.mem_cons_of_mem _ member))
                (start ++ log.record) (by rw [List.length_append]; omega) fuel later
              simpa using more

end Loop

section Crash

variable {ledger : Ledger} {wal crashed : Wal} {log : Log} {cut : Nat}

theorem Sound.torn_eq (sound : Sound ledger wal) (crash : wal.torn log cut = some crashed) :
    crashed = ⟨some (ledger.logs.flatMap Log.record ++ log.record.take cut),
      some (littleEndian 8 ledger.current), false, none, []⟩ := by
  rcases sound.files with ⟨none, -⟩ | ⟨file, current⟩
  · rw [Wal.torn, none] at crash
    cases crash
  · cases opened : wal.dlog with
    | none =>
        rw [Wal.torn, file, opened] at crash
        cases crash
    | some position =>
        obtain rfl := sound.position position opened
        rw [Wal.torn, file, opened] at crash
        simp only [Option.some.injEq] at crash
        rw [← crash, ← Log.length_records, writeAt_length, current]

theorem mem_logsFrom_concat {current start : Nat} {logs : List Log}
    (reached : current ≤ start + Log.extent logs) (added : Log) :
    added ∈ logsFrom current start (logs ++ [added]) := by
  induction logs generalizing start with
  | nil =>
      have now : current ≤ start := reached
      rw [List.nil_append, logsFrom, if_pos now]
      exact List.mem_cons_self
  | cons log rest ih =>
      rw [Log.extent_cons, ← Nat.add_assoc] at reached
      have later := ih reached
      rw [List.cons_append, logsFrom]
      split
      · exact List.mem_cons_of_mem _ later
      · exact later

theorem Sound.recovers (sound : Sound ledger wal) : Recovers ledger wal := by
  intro junk
  obtain ⟨next, taken, replayed, file, -, dlog⟩ := sound.init junk
  refine ⟨next, taken, replayed, ?_⟩
  intro added built room
  rw [sound.getDiskLogSize] at room
  have soundNext : Sound (ledger.note (.init junk)) next := sound.step trivial taken
  have appended : next.step (.logToDisk added) = some _ := Wal.logToDisk_end file dlog room
  have permitted : Permitted ledger (.logToDisk added) := built
  have soundLater := soundNext.step permitted appended
  refine ⟨_, appended, ?_⟩
  intro junk
  obtain ⟨last, started, again, -⟩ := soundLater.init junk
  refine ⟨last, started, ?_⟩
  obtain ⟨n, -, current⟩ := sound.boundary
  rw [again]
  apply mem_logsFrom_concat
  rw [Nat.zero_add]
  exact current.trans_le (extent_take_le _ n)

theorem Sound.not_recovers (sound : Sound ledger wal) (crash : wal.torn log cut = some crashed)
    (torn : log.record.take cut ≠ []) : ¬ Recovers ledger crashed := by
  intro recovers
  obtain ⟨next, taken, replayed, -⟩ := recovers fun _ _ => nullByte
  obtain ⟨n, inside, current, pending⟩ := sound.pending
  obtain rfl := sound.torn_eq crash
  have looped := Wal.readLoop_of_init rfl rfl taken
  have parts : ledger.logs.flatMap Log.record =
      (ledger.logs.take n).flatMap Log.record ++ (ledger.logs.drop n).flatMap Log.record := by
    rw [← List.flatMap_append, List.take_append_drop]
  have room := Log.extent_append (ledger.logs.take n) (ledger.logs.drop n)
  rw [List.take_append_drop] at room
  rw [sound.read_current, current, ← Log.length_records (ledger.logs.take n), parts,
    List.append_assoc] at looped
  have more := Log.readLoop_tail
    (fun other member => sound.built other (List.mem_of_mem_drop member)) torn _
    (by rw [Log.length_records, ← room]; exact sound.small) _ looped
  rw [replayed, pending] at more
  exact lt_irrefl _ more

end Crash

/-- After a crash inside an append, `Init` recovers the complete records, and what is appended
later, exactly when no byte of the record was written. -/
theorem torn_recovery {events : List WalEvent} {wal crashed : Wal} {log : Log} {cut : Nat}
    (run : Run (StepOf Wal.step) Wal.initial events wal) (legal : Legal {} events)
    (strict : cut < log.record.length) (crash : wal.torn log cut = some crashed) :
    Recovers (ledgerOf events) crashed ↔ cut = 0 := by
  have sound := sound_of_run run legal
  constructor
  · intro recovers
    by_contra some_
    refine sound.not_recovers crash ?_ recovers
    rw [Ne, ← List.length_eq_zero_iff, List.length_take]
    omega
  · rintro rfl
    obtain rfl := sound.torn_eq crash
    have same : Sound (ledgerOf events) ⟨some ((ledgerOf events).logs.flatMap Log.record ++
        log.record.take 0), some (littleEndian 8 (ledgerOf events).current), false, none, []⟩ := by
      refine ⟨sound.built, sound.boundary, sound.small, Or.inr ⟨?_, rfl⟩, ?_⟩
      · rw [List.take_zero, List.append_nil]
      · rintro position ⟨⟩
    exact same.recovers

/-- A crash before the first byte of a second record. -/
theorem torn_recovery_unwritten :
    ∃ wal crashed, exec Wal.step Wal.initial
        [.init fun _ _ => nullByte, .logToDisk (.make 1 .put [97] [98])] = some wal ∧
      wal.torn (.make 2 .del [99] []) 0 = some crashed ∧
      Recovers ⟨[.make 1 .put [97] [98]], 0⟩ crashed := by
  have executed : exec Wal.step Wal.initial
      [.init fun _ _ => nullByte, .logToDisk (.make 1 .put [97] [98])] = some _ := rfl
  have legal : Legal {} [.init fun _ _ => nullByte, .logToDisk (.make 1 .put [97] [98])] :=
    ⟨trivial, Log.built_make _ (by decide) (by decide), trivial⟩
  have strict : 0 < (Log.make 2 .del [99] []).record.length := by decide
  exact ⟨_, _, executed, rfl,
    (torn_recovery (run_of_exec executed) legal strict rfl).mpr rfl⟩

/-- The last byte of the first record is missing.  Where memory is null, `Init` replays a log
that was never appended. -/
theorem torn_tail_replayed :
    ∃ wal crashed next, exec Wal.step Wal.initial [.init fun _ _ => nullByte] = some wal ∧
      wal.torn (.make 1 .put [97] [98]) 37 = some crashed ∧
      crashed.step (.init fun _ _ => nullByte) = some next ∧
      next.replayed = [.make 1 .put [97] [nullByte]] ∧ ¬ Recovers ⟨[], 0⟩ crashed := by
  have executed : exec Wal.step Wal.initial [.init fun _ _ => nullByte] = some _ := rfl
  have torn : (Log.make 1 .put [97] [98]).record.take 37 ≠ [] := by decide
  have sound := sound_of_run (run_of_exec executed) ⟨trivial, trivial⟩
  exact ⟨_, _, _, executed, rfl, rfl, by decide, sound.not_recovers rfl torn⟩

end Ctgfs.Storage
