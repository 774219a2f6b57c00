import Ctgfs.Foundation.Runs
import Mathlib.Logic.Relation

/-!
# Removing a descriptor from the poll manager

One thread runs `wait_loop`, and it takes no lock while it calls back.  Other threads add and
remove callbacks, and write a byte into the pipe of the `select` under the mutex.  A thread that
removes a descriptor waits until the loop has come round, and then the loop neither runs a callback
of the descriptor nor will run one.  The wait is not in a loop: when it ends early, the thread
returns without that.
-/

namespace Ctgfs.Rpc

open Foundation

inductive PollFlag where
  | rdonly | wronly | rdwr
  deriving DecidableEq, Repr

def maxPollFds : Nat := 128

/-- Where `wait_loop` is: before its section, before and in the `select` of `wait_ready`, before
the callbacks that are due, and in one.  They are marked with whether it is `write_cb`. -/
inductive Loop where
  | top
  | copy
  | select (trfds twfds : Nat → Bool)
  | ready (due : List (Nat × Bool))
  | inside (fd : Nat) (due : List (Nat × Bool))

/-- What a thread does after its write, under the mutex. -/
inductive Rest where
  | add (fd ch : Nat)
  | del (fd : Nat)
  | remove (fd : Nat)

/-- `PollMgr` over a `SelectAIO`, with the number of bytes in its pipe and the thread that is in its
write.  The threads that wait in `block_remove_fd` are told apart by what they remove; those that
have left the wait were woken by the loop, or early. -/
structure PollMgr where
  rfds : Nat → Bool := fun _ => false
  wfds : Nat → Bool := fun _ => false
  pipe : Nat := 0
  writing : Option Rest := none
  callbacks : Nat → Option Nat := fun _ => none
  pendingChange : Bool := false
  asleep : List Nat := []
  woken : List Nat := []
  early : List Nat := []
  loop : Loop := .top

namespace PollMgr

variable (mgr : PollMgr)

def watched (fd : Nat) : Bool := mgr.rfds fd || mgr.wfds fd

def unwatchFd (fd : Nat) (flag : PollFlag) : PollMgr :=
  { mgr with
    rfds := Function.update mgr.rfds fd (mgr.rfds fd && flag == .wronly)
    wfds := Function.update mgr.wfds fd (mgr.wfds fd && flag == .rdonly) }

/-- `add_callback` up to its write, with `SelectAIO::watch_fd`. -/
def addCallback (fd : Nat) (flag : PollFlag) (ch : Nat) : PollMgr :=
  { mgr with
    rfds := Function.update mgr.rfds fd (mgr.rfds fd || flag != .wronly)
    wfds := Function.update mgr.wfds fd (mgr.wfds fd || flag != .rdonly)
    writing := some (.add fd ch) }

/-- `del_callback`, which writes when it removes both flags. -/
def delCallback (fd : Nat) (flag : PollFlag) : PollMgr :=
  { mgr.unwatchFd fd flag with
    writing := if flag = .rdwr then some (.del fd) else none
    callbacks := if flag = .rdwr ∨ (mgr.unwatchFd fd flag).watched fd then mgr.callbacks
      else Function.update mgr.callbacks fd none }

/-- `block_remove_fd` up to its write. -/
def blockRemoveFd (fd : Nat) : PollMgr :=
  { mgr.unwatchFd fd .rdwr with writing := some (.remove fd) }

/-- The end of a write; `block_remove_fd` then comes to its wait. -/
def written : Rest → PollMgr
  | .add fd ch => { mgr with
      pipe := mgr.pipe + 1, writing := none
      callbacks := Function.update mgr.callbacks fd (some ch) }
  | .del fd => { mgr with
      pipe := mgr.pipe + 1, writing := none, callbacks := Function.update mgr.callbacks fd none }
  | .remove fd => { mgr with
      pipe := mgr.pipe + 1, writing := none, pendingChange := true, asleep := fd :: mgr.asleep }

def wakeEarly (fd : Nat) : PollMgr :=
  { mgr with asleep := mgr.asleep.erase fd, early := fd :: mgr.early }

/-- `block_remove_fd` after its wait. -/
def removed (fd : Nat) (early : Bool) : PollMgr :=
  { mgr with
    woken := if early then mgr.woken else mgr.woken.erase fd
    early := if early then mgr.early.erase fd else mgr.early
    callbacks := Function.update mgr.callbacks fd none }

/-- The section of `wait_loop`. -/
def comeRound : PollMgr :=
  if mgr.pendingChange then
    { mgr with
      pendingChange := false, asleep := [], woken := mgr.asleep ++ mgr.woken, loop := .copy }
  else { mgr with loop := .copy }

end PollMgr

inductive PollEvent where
  | addCallback (fd : Nat)
  | delCallback (fd : Nat)
  | blockRemoveFd (fd : Nat)
  | written
  | wakeEarly (fd : Nat)
  | removed (fd : Nat) (early : Bool)
  | loop
  deriving DecidableEq, Repr

/-- The steps of the threads and of the loop, over a pipe that holds some bytes.  A write to a full
pipe blocks, and what needs a mutex waits for the thread that is in its write.  Nothing is added
for a descriptor while it is being removed. -/
inductive Polls (room : Nat) (mgr : PollMgr) : PollEvent → PollMgr → Prop where
  | addCallback {fd : Nat} {flag : PollFlag} {ch : Nat} : mgr.writing = none → fd < maxPollFds →
      mgr.callbacks fd = none ∨ mgr.callbacks fd = some ch → fd ∉ mgr.asleep ++ mgr.woken →
      Polls room mgr (.addCallback fd) (mgr.addCallback fd flag ch)
  | delCallback {fd : Nat} {flag : PollFlag} : mgr.writing = none →
      Polls room mgr (.delCallback fd) (mgr.delCallback fd flag)
  | blockRemoveFd {fd : Nat} : mgr.writing = none →
      Polls room mgr (.blockRemoveFd fd) (mgr.blockRemoveFd fd)
  | written {rest : Rest} : mgr.writing = some rest → mgr.pipe < room →
      Polls room mgr .written (mgr.written rest)
  | wakeEarly {fd : Nat} : fd ∈ mgr.asleep → Polls room mgr (.wakeEarly fd) (mgr.wakeEarly fd)
  | removed {fd : Nat} {early : Bool} : mgr.writing = none →
      fd ∈ (if early then mgr.early else mgr.woken) →
      Polls room mgr (.removed fd early) (mgr.removed fd early)
  | top : mgr.loop = .top → mgr.writing = none → Polls room mgr .loop mgr.comeRound
  | copy : mgr.loop = .copy → mgr.writing = none →
      Polls room mgr .loop { mgr with loop := .select mgr.rfds mgr.wfds }
  /-- `select` returns, perhaps with a byte in the pipe, or is interrupted with nothing. -/
  | selected {trfds twfds : Nat → Bool} {readable writable : List Nat} {byte : Bool} :
      mgr.loop = .select trfds twfds → (∀ fd ∈ readable, trfds fd = true) →
      (∀ fd ∈ writable, twfds fd = true) → (byte = true → 0 < mgr.pipe) →
      Polls room mgr .loop { mgr with
        pipe := mgr.pipe - byte.toNat
        loop := .ready (readable.map (·, false) ++ writable.map (·, true)) }
  | finished : mgr.loop = .ready [] → Polls room mgr .loop { mgr with loop := .top }
  | dispatched {fd : Nat} {write : Bool} {due : List (Nat × Bool)} :
      mgr.loop = .ready ((fd, write) :: due) →
      Polls room mgr .loop
        { mgr with loop := if (mgr.callbacks fd).isSome then .inside fd due else .ready due }
  | returned {fd : Nat} {due : List (Nat × Bool)} : mgr.loop = .inside fd due →
      Polls room mgr .loop { mgr with loop := .ready due }

def Loop.Due (fd : Nat) : Loop → Prop
  | .top | .copy => False
  | .select trfds twfds => trfds fd = true ∨ twfds fd = true
  | .ready due => fd ∈ due.map Prod.fst
  | .inside running due => fd = running ∨ fd ∈ due.map Prod.fst

/-- The loop is in `wait_ready`. -/
def Loop.waits : Loop → Bool
  | .copy | .select _ _ => true
  | _ => false

namespace PollMgr

variable {room : Nat} {mgr next : PollMgr} {event : PollEvent} {fd : Nat}

def Silent (mgr : PollMgr) (fd : Nat) : Prop := mgr.watched fd = false ∧ ¬ mgr.loop.Due fd

theorem watched_unwatchFd (still : mgr.watched fd = false) (other : Nat) (flag : PollFlag) :
    (mgr.unwatchFd other flag).watched fd = false := by
  simp only [watched, Bool.or_eq_false_iff] at still
  by_cases here : fd = other
  · subst here
    simp [watched, unwatchFd, still]
  · simp [watched, unwatchFd, Function.update_of_ne here, still]

theorem watched_step (still : mgr.watched fd = false) (unadded : event ≠ .addCallback fd)
    (taken : Polls room mgr event next) : next.watched fd = false := by
  cases taken with
  | @addCallback other =>
      have apart : fd ≠ other := fun same => unadded (same ▸ rfl)
      simpa [watched, PollMgr.addCallback, Function.update_of_ne apart] using still
  | delCallback | blockRemoveFd => exact watched_unwatchFd still _ _
  | @written rest => cases rest <;> exact still
  | top =>
      unfold comeRound
      split <;> exact still
  | _ => exact still

theorem Silent.step (silent : mgr.Silent fd) (unadded : event ≠ .addCallback fd)
    (taken : Polls room mgr event next) : next.Silent fd := by
  refine ⟨watched_step silent.1 unadded taken, ?_⟩
  obtain ⟨still, idle⟩ := silent
  cases taken with
  | addCallback | delCallback | blockRemoveFd | wakeEarly | removed => exact idle
  | @written rest => cases rest <;> exact idle
  | top =>
      unfold comeRound
      split <;> exact id
  | copy => simpa [Loop.Due, watched] using still
  | selected here read write =>
      rw [here] at idle
      intro due
      apply idle
      simp only [Loop.Due, List.map_append, List.map_map, List.mem_append, List.mem_map] at due
      rcases due with ⟨_, member, rfl⟩ | ⟨_, member, rfl⟩
      · exact .inl (read _ member)
      · exact .inr (write _ member)
  | finished => exact id
  | dispatched here =>
      rw [here] at idle
      split
      · simpa [Loop.Due] using idle
      · exact fun due => idle (List.mem_cons_of_mem _ due)
  | returned here =>
      rw [here] at idle
      exact fun due => idle (.inr due)

structure Sound (mgr : PollMgr) : Prop where
  leaving : ∀ fd, mgr.writing = some (.remove fd) → mgr.watched fd = false
  asleep : ∀ fd ∈ mgr.asleep, mgr.watched fd = false
  woken : ∀ fd ∈ mgr.woken, mgr.Silent fd
  noted : mgr.asleep ≠ [] → mgr.pendingChange = true
  heard : mgr.pendingChange = true → mgr.loop.waits = true → 0 < mgr.pipe

theorem Sound.step (sound : mgr.Sound) (taken : Polls room mgr event next) : next.Sound := by
  have unadded : ∀ fd ∈ mgr.asleep ++ mgr.woken, event ≠ .addCallback fd := by
    rintro fd removing rfl
    cases taken with
    | addCallback _ _ _ absent => exact absent removing
  have asleep : ∀ fd ∈ mgr.asleep, next.watched fd = false := fun fd member =>
    watched_step (sound.asleep fd member) (unadded fd (List.mem_append_left _ member)) taken
  have woken : ∀ fd ∈ mgr.woken, next.Silent fd := fun fd member =>
    (sound.woken fd member).step (unadded fd (List.mem_append_right _ member)) taken
  cases taken with
  | addCallback => exact ⟨by rintro _ ⟨⟩, asleep, woken, sound.noted, sound.heard⟩
  | @delCallback fd flag =>
      refine ⟨fun other leaves => ?_, asleep, woken, sound.noted, sound.heard⟩
      cases flag <;> cases leaves
  | @blockRemoveFd fd =>
      refine ⟨?_, asleep, woken, sound.noted, sound.heard⟩
      rintro _ ⟨⟩
      simp [watched, PollMgr.blockRemoveFd, unwatchFd]
  | @written rest here =>
      cases rest with
      | add | del => exact ⟨by rintro _ ⟨⟩, asleep, woken, sound.noted, fun _ _ => Nat.succ_pos _⟩
      | remove fd =>
          refine ⟨by rintro _ ⟨⟩, fun other member => ?_, woken, fun _ => rfl,
            fun _ _ => Nat.succ_pos _⟩
          rcases List.mem_cons.mp member with rfl | old
          · exact sound.leaving _ here
          · exact asleep other old
  | wakeEarly =>
      refine ⟨sound.leaving, fun fd member => asleep fd (List.mem_of_mem_erase member), woken,
        fun more => sound.noted ?_, sound.heard⟩
      rintro none
      exact more (by rw [wakeEarly, none]; rfl)
  | @removed _ early =>
      refine ⟨sound.leaving, asleep, fun fd member => woken fd ?_, sound.noted, sound.heard⟩
      cases early with
      | true => exact member
      | false => exact List.mem_of_mem_erase member
  | top =>
      unfold comeRound
      split
      · refine ⟨sound.leaving, by simp, fun fd member => ?_, by simp, by simp⟩
        rcases List.mem_append.mp member with slept | old
        · exact ⟨sound.asleep fd slept, id⟩
        · exact ⟨(sound.woken fd old).1, id⟩
      next quiet =>
        exact ⟨sound.leaving, sound.asleep, fun fd member => ⟨(sound.woken fd member).1, id⟩,
          sound.noted, fun pending => absurd pending quiet⟩
  | copy here =>
      exact ⟨sound.leaving, asleep, woken, sound.noted,
        fun pending _ => sound.heard pending (here ▸ rfl)⟩
  | selected | finished | returned =>
      exact ⟨sound.leaving, asleep, woken, sound.noted, by simp [Loop.waits]⟩
  | dispatched =>
      refine ⟨sound.leaving, asleep, woken, sound.noted, fun _ waits => ?_⟩
      dsimp only at waits
      split at waits <;> cases waits

theorem sound_of_run {events : List PollEvent} (run : Run (Polls room) {} events mgr) :
    mgr.Sound :=
  run.invariant Sound ⟨by rintro _ ⟨⟩, by simp, by simp, by simp, by simp⟩
    fun _ _ _ sound taken => sound.step taken

end PollMgr

end Ctgfs.Rpc
