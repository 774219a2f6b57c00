import Ctgfs.Fs.InfoCollector

/-!
# The heartbeats of an extent server

The loop of `SendHeartBeat` gets what the collector has, sends it and clears the collector, and
does not look at what became of the RPC.  The server adds its events at any moment in between.
-/

namespace Ctgfs.Fs

open Foundation

structure Recorded where
  size : Nat
  type : DirtyType
  stamp : Nat
  deriving DecidableEq, Repr

abbrev StampedEntry := ExtentId × Recorded

inductive LoopPosition where
  | get
  | call (sent : List StampedEntry)
  | clear (sent : List StampedEntry) (delivered : Bool)
  deriving DecidableEq, Repr

structure HeartBeat where
  entries : List StampedEntry := []
  position : LoopPosition := .get
  events : List DirtyData := []
  delivered : List StampedEntry := []
  deriving DecidableEq, Repr

inductive HeartBeatEvent where
  | addDirtyData (data : DirtyData)
  | get
  | heartBeat (delivered : Bool)
  | clear
  deriving DecidableEq, Repr

namespace HeartBeat

variable (state : HeartBeat)

def step : HeartBeatEvent → Option HeartBeat
  | .addDirtyData data =>
      some { state with
        entries := state.entries ++ [(data.inum, ⟨data.size, data.type, state.events.length⟩)]
        events := state.events ++ [data] }
  | .get =>
      if state.position = .get then
        let sent := coalesce state.entries
        some { state with entries := sent, position := .call sent }
      else none
  | .heartBeat delivered =>
      match state.position with
      | .call sent =>
          some { state with
            position := .clear sent delivered
            delivered := if delivered then state.delivered ++ sent else state.delivered }
      | .get | .clear _ _ => none
  | .clear =>
      match state.position with
      | .clear _ _ => some { state with entries := [], position := .get }
      | .get | .call _ => none

/-- `i_`. -/
def info : ServerInfo :=
  .ofEntries (state.entries.map (Prod.map id fun entry => (entry.size, entry.type)))

def Covers (entries : List StampedEntry) (stamp : Nat) (data : DirtyData) : Prop :=
  ∃ entry ∈ entries, entry.1 = data.inum ∧ stamp ≤ entry.2.stamp

/-- Every event is represented in `i_` or was delivered. -/
def Kept : Prop :=
  ∀ stamp data, state.events[stamp]? = some data →
    Covers state.entries stamp data ∨ Covers state.delivered stamp data

/-- A step that loses nothing: `Get` finds every inum once, and nothing is cleared but what was
delivered. -/
def Harmless : HeartBeatEvent → Prop
  | .get => state.entries.length < 2147483648 ∧ (state.entries.map Prod.fst).Nodup
  | .clear => state.entries = [] ∨ state.position = .clear state.entries true
  | .addDirtyData _ | .heartBeat _ => True

inductive Step (state : HeartBeat) : HeartBeatEvent → HeartBeat → Prop where
  | addDirtyData (data : DirtyData) :
      Step state (.addDirtyData data)
        { state with
          entries := state.entries ++ [(data.inum, ⟨data.size, data.type, state.events.length⟩)]
          events := state.events ++ [data] }
  | get : state.position = .get →
      Step state .get
        { state with entries := coalesce state.entries, position := .call (coalesce state.entries) }
  | heartBeat {sent : List StampedEntry} (delivered : Bool) : state.position = .call sent →
      Step state (.heartBeat delivered)
        { state with
          position := .clear sent delivered
          delivered := if delivered then state.delivered ++ sent else state.delivered }
  | clear {sent : List StampedEntry} {delivered : Bool} : state.position = .clear sent delivered →
      Step state .clear { state with entries := [], position := .get }

variable {event : HeartBeatEvent}

theorem step_of_some {state next : HeartBeat} (taken : state.step event = some next) :
    Step state event next := by
  cases event with
  | addDirtyData data =>
      obtain rfl := Option.some.inj taken
      exact .addDirtyData data
  | get =>
      simp only [step] at taken
      split at taken
      next here =>
        obtain rfl := Option.some.inj taken
        exact .get here
      next => exact absurd taken (by simp)
  | heartBeat delivered =>
      simp only [step] at taken
      split at taken
      next sent here =>
        obtain rfl := Option.some.inj taken
        exact .heartBeat delivered here
      next => exact absurd taken (by simp)
      next => exact absurd taken (by simp)
  | clear =>
      simp only [step] at taken
      split at taken
      next sent delivered here =>
        obtain rfl := Option.some.inj taken
        exact .clear here
      next => exact absurd taken (by simp)
      next => exact absurd taken (by simp)

/-- The stamps are only a record: what a step does to `i_` is what the collector does. -/
theorem info_step {state next : HeartBeat} (taken : state.step event = some next) :
    next.info = match event with
      | .addDirtyData data => state.info.addDirtyData data
      | .get => state.info.get
      | .heartBeat _ => state.info
      | .clear => .clear := by
  cases step_of_some taken with
  | addDirtyData data =>
      apply ServerInfo.ext_entries
      rw [ServerInfo.entries_addDirtyData]
      simp [info, ServerInfo.entries_ofEntries]
  | get => rw [ServerInfo.get, info, info, ServerInfo.entries_ofEntries, coalesce_map]
  | heartBeat delivered => rfl
  | clear => rfl

section Steps

variable {state next : HeartBeat} {stamp : Nat} {data : DirtyData}

theorem Covers.mono {entries others : List StampedEntry} (covers : Covers entries stamp data)
    (subset : entries ⊆ others) : Covers others stamp data := by
  obtain ⟨entry, member, same⟩ := covers
  exact ⟨entry, subset member, same⟩

theorem Covers.of_append {entries others : List StampedEntry}
    (covers : Covers (entries ++ others) stamp data) :
    Covers entries stamp data ∨ Covers others stamp data := by
  obtain ⟨entry, member, same⟩ := covers
  exact (List.mem_append.mp member).imp (⟨entry, ·, same⟩) (⟨entry, ·, same⟩)

theorem Kept.mono (kept : state.Kept) (same : next.events = state.events)
    (entries : state.entries ⊆ next.entries ++ next.delivered)
    (delivered : state.delivered ⊆ next.delivered) : next.Kept := by
  intro stamp data recorded
  rw [same] at recorded
  rcases kept stamp data recorded with here | sent
  · exact (here.mono entries).of_append
  · exact Or.inr (sent.mono delivered)

def Sent (state : HeartBeat) : Prop :=
  ∀ sent, state.position = .clear sent true → sent ⊆ state.delivered

theorem kept_addDirtyData (kept : state.Kept) (data : DirtyData) :
    HeartBeat.Kept { state with
      entries := state.entries ++ [(data.inum, ⟨data.size, data.type, state.events.length⟩)]
      events := state.events ++ [data] } := by
  intro stamp other recorded
  rw [List.getElem?_append] at recorded
  split at recorded
  next old =>
    refine (kept stamp other recorded).imp_left fun covers => covers.mono ?_
    exact List.subset_append_left _ _
  next new =>
    obtain ⟨first, rfl⟩ : stamp - state.events.length = 0 ∧ data = other := by
      simpa [List.getElem?_singleton] using recorded
    exact Or.inl ⟨_, List.mem_append_right _ List.mem_cons_self, rfl, by dsimp only; omega⟩

theorem sent_step (sent : state.Sent) (step : Step state event next) : next.Sent := by
  intro cleared here
  cases step with
  | addDirtyData data => exact sent cleared here
  | get => exact LoopPosition.noConfusion here
  | heartBeat delivered =>
      obtain ⟨rfl, rfl⟩ := LoopPosition.clear.inj here
      exact List.subset_append_right _ _
  | clear => exact LoopPosition.noConfusion here

theorem kept_step (kept : state.Kept) (sent : state.Sent) (harmless : state.Harmless event)
    (step : Step state event next) : next.Kept := by
  cases step with
  | addDirtyData data => exact kept_addDirtyData kept data
  | get =>
      refine kept.mono rfl (fun entry member => ?_) (List.Subset.refl _)
      exact List.mem_append_left _ (mem_coalesce_of_nodup harmless.1 harmless.2 member)
  | heartBeat delivered =>
      refine kept.mono rfl (List.subset_append_left _ _) ?_
      cases delivered with
      | false => exact List.Subset.refl _
      | true => exact List.subset_append_left _ _
  | clear =>
      refine kept.mono rfl ?_ (List.Subset.refl _)
      rcases harmless with empty | delivered
      · rw [empty]
        exact List.nil_subset _
      · exact sent _ delivered

end Steps

/-- When every step is harmless, no event is lost, whatever the order of the steps is. -/
theorem events_kept {labels : List HeartBeatEvent} {state : HeartBeat}
    (run : Run (Guarded (StepOf step) Harmless) {} labels state) : state.Kept := by
  have both : state.Kept ∧ state.Sent := by
    apply run.invariant fun state => state.Kept ∧ state.Sent
    · exact ⟨fun stamp data recorded => absurd recorded (by simp),
        fun sent here => LoopPosition.noConfusion here⟩
    · rintro state event next ⟨kept, sent⟩ ⟨harmless, taken⟩
      have step := step_of_some taken
      exact ⟨kept_step kept sent harmless step, sent_step sent step⟩
  exact both.1

/-- A file is added, and changed after its heartbeat. -/
theorem events_kept_changed :
    ∃ state, Run (Guarded (StepOf step) Harmless) {}
        [.addDirtyData ⟨5, 1, .add⟩, .get, .heartBeat true, .clear, .addDirtyData ⟨5, 2, .update⟩]
        state ∧ state.Kept := by
  have harmless : Meets step Harmless {}
      [.addDirtyData ⟨5, 1, .add⟩, .get, .heartBeat true, .clear,
        .addDirtyData ⟨5, 2, .update⟩] := by
    refine ⟨trivial, ?_⟩
    rintro _ ⟨⟩
    refine ⟨⟨by decide, by decide⟩, ?_⟩
    rintro _ ⟨⟩
    refine ⟨trivial, ?_⟩
    rintro _ ⟨⟩
    refine ⟨Or.inr rfl, ?_⟩
    rintro _ ⟨⟩
    exact ⟨trivial, fun _ _ => trivial⟩
  have run := guarded_of_exec rfl harmless
  exact ⟨_, run, events_kept run⟩

/-- An event that comes while the heartbeat is sent is cleared with it. -/
theorem event_lost :
    ¬ ∀ labels state, Run (StepOf step) {} labels state → state.Kept := by
  intro kept
  have run := run_of_exec (rfl : exec step {}
    [.addDirtyData ⟨5, 1, .add⟩, .get, .addDirtyData ⟨6, 2, .add⟩, .heartBeat true, .clear] =
      some _)
  rcases kept _ _ run 1 _ rfl with ⟨entry, member, -⟩ | ⟨entry, member, same, -⟩
  · exact absurd member List.not_mem_nil
  · obtain rfl := List.mem_singleton.mp member
    exact absurd same (by decide)

end HeartBeat

end Ctgfs.Fs
