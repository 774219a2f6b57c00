import Ctgfs.Fs.LockBalance

/-!
# What a lookup returns

A lookup makes up to six calls to the layers below, and each of them may fail.  Its status must
say whether the directory was read and has the name.
-/

namespace Ctgfs.Fs

open Foundation

variable (answers : Answers)

def Answers.lower (release : Nat → Inum → Bool) : Lower (StateM FsTrace) :=
  { answers.layers.toLower with
    release := fun inum trace => (release trace.length inum, trace ++ [.release inum]) }

abbrev LookupResult := Result (Option (Inum × Bool × Attr))

/-- A lookup has told what there is to tell: a name that is found comes with the number of its
entry and the attributes that were read, and no other name is found or missing. -/
def Answers.LooksUp (parent : Inum) (name : Bytes) :
    Option LookupResult → Prop
  | some (.ok (some (inum, isDir, info))) =>
      ∃ data files entry, answers.get 1 parent = .ok data ∧ parseDir data = some (some files) ∧
        files.find? (·.name = name) = some entry ∧ inum = entry.inum ∧
        isDir = !isfile entry.inum ∧ answers.getattr 3 entry.inum = .ok info
  | some (.ok none) => False
  | some (.error .noent) =>
      ∃ data files, answers.get 1 parent = .ok data ∧ parseDir data = some (some files) ∧
        ∀ entry ∈ files, entry.name ≠ name
  | some (.error _) => True
  | none => False

def Answers.ReadsParsed (release : Nat → Inum → Bool) (parent : Inum) : Prop :=
  answers.acquire 0 parent = true → ∀ data, answers.get 1 parent = .ok data →
    (∃ files, parseDir data = some (some files)) ∨
      (parseDir data = some none ∧ release 2 parent = false)

section Rules

variable {σ α β : Type} {post : Option α → Prop} {trace : FsTrace}

def Yields (post : Option α → Prop) (program : OptionT (StateM σ) α) (state : σ) : Prop :=
  post (program.run state).1

variable {body : β → OptionT (StateM σ) α} {state : σ}

theorem yields_call {call : StateM σ β} (next : Yields post (body (call state).1) (call state).2) :
    Yields post (liftM call >>= body) state :=
  next

theorem yields_compute {value : Option β} (endless : value = none → post none)
    (next : ∀ result, value = some result → Yields post (body result) state) :
    Yields post (OptionT.mk (pure value) >>= body) state := by
  cases value with
  | none => exact endless rfl
  | some result => exact next result rfl

theorem Yields.bind {middle : Option β → Prop} {program : OptionT (StateM σ) β}
    (first : Yields middle program state) (returned : ¬ middle none)
    (next : ∀ result after, middle (some result) → Yields post (body result) after) :
    Yields post (program >>= body) state := by
  have sequence : (program >>= body).run state =
      (match (program.run state).1 with
        | some result => (body result).run
        | none => pure none) (program.run state).2 := rfl
  rw [Yields, sequence]
  rw [Yields] at first
  cases ran : (program.run state).1 with
  | none => exact absurd (ran ▸ first) returned
  | some result => exact next result _ (ran ▸ first)

variable {answers : Answers} {release : Nat → Inum → Bool} {inum : Inum}
  {post : Option (Result α) → Prop}

theorem yields_finish {result : Result α}
    (failed : release trace.length inum = false → post (some (.error .ioerr)))
    (released : release trace.length inum = true → post (some result)) :
    Yields post (finish (answers.lower release) [inum] result) trace := by
  apply yields_call
  change Yields post (if release trace.length inum = true then pure result else _) _
  split
  next done => exact released done
  next undone => exact failed (Bool.eq_false_of_not_eq_true undone)

theorem yields_locked {body : OptionT (StateM FsTrace) (Result α)}
    (refused : answers.acquire trace.length inum = false → post (some (.error .ioerr)))
    (granted : answers.acquire trace.length inum = true →
      Yields post body (trace ++ [.acquire inum true])) :
    Yields post (locked (answers.lower release) inum body) trace := by
  apply yields_call
  change Yields post (if answers.acquire trace.length inum = true then body else _)
    (trace ++ [.acquire inum (answers.acquire trace.length inum)])
  cases said : answers.acquire trace.length inum with
  | false => exact refused said
  | true => exact granted said

theorem yields_connected {body : OptionT (StateM FsTrace) (Result α)}
    (next : Yields post (locked (answers.lower release) inum body) trace) :
    Yields post (connected (answers.lower release) inum body) trace :=
  next

theorem yields_getInfo :
    Yields (fun returned => returned = some (.error .ioerr) ∨ ∃ info,
        returned = some (.ok info) ∧ answers.getattr (trace.length + 1) inum = .ok info)
      (getInfo (answers.lower release) inum) trace := by
  apply yields_connected
  apply yields_locked (fun _ => Or.inl rfl)
  intro _
  apply yields_call
  apply yields_finish (fun _ => Or.inl rfl)
  intro _
  have asked : ((answers.lower release).getattr inum (trace ++ [.acquire inum true])).1 =
      answers.getattr (trace.length + 1) inum :=
    congrArg (answers.getattr · inum) List.length_append
  rw [asked]
  cases said : answers.getattr (trace.length + 1) inum with
  | error failure => exact Or.inl rfl
  | ok info => exact Or.inr ⟨info, rfl, rfl⟩

end Rules

theorem yields_lookup (release : Nat → Inum → Bool) (parent : Inum) (name : Bytes) :
    Yields (fun returned => (answers.LooksUp parent name returned ∧
          answers.ReadsParsed release parent) ∨
        ((returned = none ∨ returned = some (.ok none)) ∧ ¬ answers.ReadsParsed release parent))
      (lookup (answers.lower release) parent name) [] := by
  apply yields_connected
  apply yields_locked
  · intro refused
    exact Or.inl ⟨trivial, fun granted => absurd (refused.symm.trans granted) (by simp)⟩
  intro granted
  apply yields_call
  split
  next data said =>
    have read : answers.get 1 parent = .ok data := said
    apply yields_compute
    · intro endless
      refine Or.inr ⟨Or.inl rfl, fun parses => ?_⟩
      simpa [endless] using parses granted data read
    intro listing parsed
    cases listing with
    | some files =>
      have parses : answers.ReadsParsed release parent := by
        intro _ other again
        obtain rfl := Except.ok.inj (read.symm.trans again)
        exact Or.inl ⟨files, parsed⟩
      dsimp only
      split
      next missing =>
        apply yields_finish (fun _ => Or.inl ⟨trivial, parses⟩)
        refine fun _ => Or.inl ⟨⟨data, files, read, parsed, fun entry listed same => ?_⟩, parses⟩
        exact List.find?_eq_none.mp missing entry listed (decide_eq_true same)
      next entry found =>
        apply yields_getInfo.bind (by simp)
        rintro result after (failed | ⟨info, ok, informed⟩)
        · obtain rfl := Option.some.inj failed
          exact yields_finish (fun _ => Or.inl ⟨trivial, parses⟩)
            (fun _ => Or.inl ⟨trivial, parses⟩)
        · obtain rfl := Option.some.inj ok
          exact yields_finish (fun _ => Or.inl ⟨trivial, parses⟩) fun _ =>
            Or.inl ⟨⟨data, files, entry, read, parsed, found, rfl, rfl, informed⟩, parses⟩
    | none =>
      apply yields_finish
      · intro kept
        refine Or.inl ⟨trivial, fun _ other again => ?_⟩
        obtain rfl := Except.ok.inj (read.symm.trans again)
        exact Or.inr ⟨parsed, kept⟩
      · intro released
        refine Or.inr ⟨Or.inr rfl, fun parses => ?_⟩
        have freed : release 2 parent = true := released
        simpa [parsed, freed] using parses granted data read
  next result failed =>
    have unread : answers.ReadsParsed release parent :=
      fun _ data said => absurd said (failed data)
    exact yields_finish (fun _ => Or.inl ⟨trivial, unread⟩) (fun _ => Or.inl ⟨trivial, unread⟩)

/-- Whatever the layers below answer, a lookup returns as it should if and only if the directory
that it reads parses, or the lock of a directory that does not parse cannot be released. -/
theorem lookup_results_iff (answers : Answers) (release : Nat → Inum → Bool) (parent : Inum)
    (name : Bytes) :
    answers.LooksUp parent name ((lookup (answers.lower release) parent name).run []).1 ↔
      answers.ReadsParsed release parent := by
  rcases yields_lookup answers release parent name with
    ⟨looked, parses⟩ | ⟨lost | unnamed, broken⟩
  · exact ⟨fun _ => parses, fun _ => looked⟩
  · rw [lost]
    exact ⟨False.elim, broken⟩
  · rw [unnamed]
    exact ⟨False.elim, broken⟩

/-- A directory of one byte is found to have any name. -/
theorem lookup_finds_nothing :
    (lookup (({ openAnswers with get := fun _ _ => .ok [1] } : Answers).lower fun _ _ => true) 1
        [2]).run [] =
      (some (.ok none), [.acquire 1 true, .other (.get 1), .release 1]) ∧
    ¬ ({ openAnswers with get := fun _ _ => .ok [1] } : Answers).LooksUp 1 [2]
      (some (.ok none)) :=
  ⟨rfl, False.elim⟩

end Ctgfs.Fs
