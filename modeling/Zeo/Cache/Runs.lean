import Zeo.Cache.Manifest

/-!
# Processes that share the program cache

A process looks its key up, and on a miss compiles the files as it reads them, removes the entry's
manifest, links the binary and writes the manifest. Each file system call is one step, and edits of
the source files come at any time. What a lookup may conclude depends on who else is at work.
-/

namespace Zeo.Cache

open List Option
open Function (update update_of_ne update_self)

variable {Text : Type}

/-- The name of an entry's directory. -/
abbrev Key := Nat

abbrev Pid := Nat

/-- `Input`, with whether its text was read from the file of its name. -/
structure Input (Text : Type) where
  name : Path
  source : Text
  /-- Whether it is a file; a synthetic name such as `-e` is not. -/
  file : Bool

inductive Phase (Text : Type) where
  | idle
  /-- `lookup` is about to ask for the binary. -/
  | checking (key : Key) (main : Input Text)
  /-- `lookup` is about to read the manifest. -/
  | opening (key : Key) (main : Input Text)
  /-- `verify` has these lines left. -/
  | verifying (key : Key) (main : Input Text) (left : List (List Char))
  /-- `lookup` returned the binary. -/
  | hit (key : Key)
  | compiling (key : Key) (inputs : List (Input Text))
  /-- `reserve` is about to remove the manifest. -/
  | reserving (key : Key) (inputs : List (Input Text))
  | linking (key : Key) (inputs : List (Input Text))
  /-- `rows_for` has these inputs left. -/
  | recording (key : Key) (inputs left : List (Input Text)) (rows : List (List Char))
      (dirs : List Path)
  /-- `rows_for` has these directories left; behind them `commit` writes. -/
  | stamping (key : Key) (inputs : List (Input Text)) (rows : List (List Char)) (dirs : List Path)
  | done

structure World (Text : Type) where
  disk : Disk Text
  bins : Key → Option (List (Input Text))
  manifests : Key → Option (List Char)
  phases : Pid → Phase Text

def World.set (w : World Text) (p : Pid) (phase : Phase Text) : World Text :=
  { w with phases := update w.phases p phase }

/-- What is fixed: the hash, the key a process computes, and the directory of a file. -/
structure Machine (Text : Type) extends Hashing Text where
  /-- `key`, of a process's options and its program. -/
  key : Pid → Input Text → Key
  parent : Path → Option Path

/-- A lookup whose lines are all checked returns. -/
def verified (key : Key) (main : Input Text) : List (List Char) → Phase Text
  | [] => .hit key
  | left => .verifying key main left

/-- The manifest as `lookup` and `verify` open it. -/
def openManifest (key : Key) (main : Input Text) : Option (List Char) → Phase Text
  | none => .compiling key [main]
  | some text =>
    match lines text with
    | [] => .compiling key [main]
    | first :: left => if first = header then verified key main left else .compiling key [main]

/-- One input of `rows_for`. -/
def recordInput (m : Machine Text) (disk : Disk Text) (key : Key) (inputs : List (Input Text))
    (input : Input Text) (left : List (Input Text)) (rows : List (List Char)) (dirs : List Path) :
    Phase Text :=
  if (disk.files input.name).isNone then .recording key inputs left rows dirs
  else if '\n' ∈ input.name then .done
  else
    let dirs := match m.parent input.name with
      | none => dirs
      | some dir => if dir ∈ dirs then dirs else dirs ++ [dir]
    .recording key inputs left (rows ++ [fileRow m.toHashing input.name input.source]) dirs

/-- The next file system call of a process, where the process decides it alone. -/
def advance (m : Machine Text) (w : World Text) (p : Pid) : Option (World Text) :=
  match w.phases p with
  | .idle | .hit _ | .compiling _ _ | .done => none
  | .checking key main =>
    some (w.set p (if (w.bins key).isSome then .opening key main else .compiling key [main]))
  | .opening key main => some (w.set p (openManifest key main (w.manifests key)))
  | .verifying _ _ [] => none
  | .verifying key main (line :: left) =>
    some (w.set p (if checkLine m.toHashing w.disk line then verified key main left
      else .compiling key [main]))
  | .reserving key inputs =>
    some ({ w with manifests := update w.manifests key none }.set p (.linking key inputs))
  | .linking key inputs =>
    some ({ w with bins := update w.bins key (some inputs) }.set p
      (.recording key inputs inputs [header] []))
  | .recording key inputs (input :: left) rows dirs =>
    some (w.set p (recordInput m w.disk key inputs input left rows dirs))
  | .recording key inputs [] rows dirs => some (w.set p (.stamping key inputs rows dirs))
  | .stamping key inputs rows (dir :: dirs) =>
    let rows := match w.disk.stamps dir with
      | none => rows
      | some stamp => rows ++ [dirRow stamp dir]
    some (w.set p (.stamping key inputs rows dirs))
  | .stamping key _ rows [] =>
    some ({ w with manifests := update w.manifests key (some (unlines rows)) }.set p .done)

inductive Event (Text : Type) where
  | edit (path : Path) (content : Option Text)
  | touch (dir : Path) (stamp : Option Nat)
  | begin (p : Pid) (main : Input Text)
  | advance (p : Pid)
  | read (p : Pid) (path : Path)
  | supply (p : Pid) (name : Path) (text : Text)
  | compiled (p : Pid)
  /-- A call fails, and the process goes on without the cache. -/
  | abandon (p : Pid)

def exec (m : Machine Text) [DecidableEq Text] (w : World Text) : Event Text → Option (World Text)
  | .edit path content =>
    some { w with disk := { w.disk with files := update w.disk.files path content } }
  | .touch dir stamp =>
    some { w with disk := { w.disk with stamps := update w.disk.stamps dir stamp } }
  | .begin p main =>
    match w.phases p with
    | .idle =>
      if main.file = true → w.disk.files main.name = some main.source then
        some (w.set p (.checking (m.key p main) main))
      else none
    | _ => none
  | .advance p => advance m w p
  | .read p path =>
    match w.phases p, w.disk.files path with
    | .compiling key inputs, some text =>
      some (w.set p (.compiling key (inputs ++ [⟨path, text, true⟩])))
    | _, _ => none
  | .supply p name text =>
    match w.phases p with
    | .compiling key inputs => some (w.set p (.compiling key (inputs ++ [⟨name, text, false⟩])))
    | _ => none
  | .compiled p =>
    match w.phases p with
    | .compiling key inputs => some (w.set p (.reserving key inputs))
    | _ => none
  | .abandon p => some (w.set p .done)

def run (m : Machine Text) [DecidableEq Text] (w : World Text) (events : List (Event Text)) :
    Option (World Text) :=
  events.foldlM (exec m) w

/-- A process between its reservation of an entry and its commit. -/
def Phase.Builds (key : Key) : Phase Text → Prop
  | .linking other _ => other = key
  | .recording other _ _ _ _ => other = key
  | .stamping other _ _ _ => other = key
  | _ => False

/-- A lookup of an entry between its manifest and its answer. -/
def Phase.Verifies (key : Key) : Phase Text → Prop
  | .verifying other _ _ => other = key
  | _ => False

/-- An event does not interfere: no source file changes under a lookup that is checking; no process
reserves an entry that another is building, or links one that a lookup is checking; and a file that
was compiled is still there when its row is written, under a name that a line can hold. -/
def Calm (w : World Text) : Event Text → Prop
  | .edit _ _ => ∀ q key, ¬ (w.phases q).Verifies key
  | .advance p =>
    match w.phases p with
    | .reserving key _ => ∀ q, q ≠ p → ¬ (w.phases q).Builds key
    | .linking key _ => ∀ q, ¬ (w.phases q).Verifies key
    | .recording _ _ (input :: _) _ _ =>
      input.file = true →
        (w.disk.files input.name).isSome ∧ input.name.getLast? ≠ some '\r'
    | _ => True
  | _ => True

def CalmRun (m : Machine Text) [DecidableEq Text] (w : World Text) : List (Event Text) → Prop
  | [] => True
  | e :: events => Calm w e ∧ ∀ w', exec m w e = some w' → CalmRun m w' events

variable (h : Hashing Text)

/-- An input's row is among these, and a line of the text they make. -/
def Recorded (rows : List (List Char)) (input : Input Text) : Prop :=
  input.file = true →
    fileRow h input.name input.source ∈ rows ∧ Readable (fileRow h input.name input.source)

/-- A manifest has a line for every file that a binary was compiled from. -/
def Covers (text : List Char) (inputs : List (Input Text)) : Prop :=
  ∀ input ∈ inputs, input.file = true →
    fileRow h input.name input.source ∈ (lines text).tail

/-- A binary was compiled from what every file it read has now. -/
def Fresh (w : World Text) (key : Key) : Prop :=
  ∃ inputs, w.bins key = some inputs ∧
    ∀ input ∈ inputs, input.file = true → w.disk.files input.name = some input.source

def Phase.Ok (w : World Text) : Phase Text → Prop
  | .verifying key _ left => ∃ inputs, w.bins key = some inputs ∧
      ∀ input ∈ inputs, input.file = true →
        fileRow h input.name input.source ∈ left ∨ w.disk.files input.name = some input.source
  | .linking key _ => w.manifests key = none
  | .recording key inputs left rows _ => w.manifests key = none ∧ w.bins key = some inputs ∧
      ∃ more, rows = header :: more ∧ ∀ input ∈ inputs, input ∈ left ∨ Recorded h more input
  | .stamping key inputs rows _ => w.manifests key = none ∧ w.bins key = some inputs ∧
      ∃ more, rows = header :: more ∧ ∀ input ∈ inputs, Recorded h more input
  | _ => True

structure Sound (h : Hashing Text) (w : World Text) : Prop where
  vouched : ∀ key text, w.manifests key = some text →
    ∃ inputs, w.bins key = some inputs ∧ Covers h text inputs
  alone : ∀ p q key, (w.phases p).Builds key → (w.phases q).Builds key → p = q
  phases : ∀ p, (w.phases p).Ok h w

variable {w' : World Text}

section Events

variable {h : Hashing Text} {w : World Text}

theorem Sound.set (sound : Sound h w) (p : Pid) (phase : Phase Text) (ok : phase.Ok h w)
    (builder : ∀ key, phase.Builds key →
      (w.phases p).Builds key ∨ ∀ q, q ≠ p → ¬ (w.phases q).Builds key) :
    Sound h (w.set p phase) := by
  have exclusive : ∀ q key, q ≠ p → phase.Builds key → ¬ (w.phases q).Builds key := by
    intro q key other builds there
    cases builder key builds with
    | inl already => exact other (sound.alone q p key there already)
    | inr none => exact none q other there
  refine ⟨sound.vouched, fun q r key left right => ?_, fun q => ?_⟩
  · change (update w.phases p phase q).Builds key at left
    change (update w.phases p phase r).Builds key at right
    by_cases first : q = p
    · by_cases second : r = p
      · rw [first, second]
      · rw [first, update_self] at left
        rw [update_of_ne second] at right
        exact absurd right (exclusive r key second left)
    · rw [update_of_ne first] at left
      by_cases second : r = p
      · rw [second, update_self] at right
        exact absurd left (exclusive q key first right)
      · rw [update_of_ne second] at right
        exact sound.alone q r key left right
  · change (update w.phases p phase q).Ok h _
    by_cases same : q = p
    · rw [same, update_self]
      exact ok
    · rw [update_of_ne same]
      exact sound.phases q

def Phase.Plain : Phase Text → Prop
  | .checking _ _ | .opening _ _ | .compiling _ _ | .reserving _ _ | .done => True
  | _ => False

variable {phase : Phase Text}

theorem Phase.Plain.ok (plain : phase.Plain) : phase.Ok h w := by
  cases phase <;> trivial

theorem Phase.Plain.not_builds (plain : phase.Plain) (key : Key) :
    ¬ phase.Builds key := by
  cases phase <;> first | exact id | exact absurd plain id

theorem Sound.plain (sound : Sound h w) (p : Pid) (phase : Phase Text) (plain : phase.Plain) :
    Sound h (w.set p phase) :=
  sound.set p phase plain.ok fun key builds => absurd builds (plain.not_builds key)

variable (m : Machine Text) {e : Event Text}

theorem exec_cases [DecidableEq Text] (stepped : exec m w e = some w') :
    (∃ p, e = .advance p ∧ advance m w p = some w') ∨
    (∃ path content, e = .edit path content ∧
      w' = { w with disk := { w.disk with files := update w.disk.files path content } }) ∨
    (∃ dir stamp,
      w' = { w with disk := { w.disk with stamps := update w.disk.stamps dir stamp } }) ∨
    ∃ p phase, phase.Plain ∧ w' = w.set p phase := by
  unfold exec at stepped
  cases e with
  | advance p => exact .inl ⟨p, rfl, stepped⟩
  | edit path content =>
    exact .inr (.inl ⟨path, content, rfl, (some.inj stepped).symm⟩)
  | touch dir stamp =>
    exact .inr (.inr (.inl ⟨dir, stamp, (some.inj stepped).symm⟩))
  | abandon p =>
    exact .inr (.inr (.inr ⟨p, .done, trivial, (some.inj stepped).symm⟩))
  | begin p main =>
    right; right; right
    dsimp only at stepped
    split at stepped
    · split at stepped
      · refine ⟨p, _, ?_, (some.inj stepped).symm⟩
        exact True.intro
      · exact nomatch stepped
    · exact nomatch stepped
  | read p path | supply p name text | compiled p =>
    right; right; right
    dsimp only at stepped
    split at stepped
    · refine ⟨p, _, ?_, (some.inj stepped).symm⟩
      exact True.intro
    · exact nomatch stepped

theorem Phase.Ok.frame (ok : phase.Ok h w)
    (unvouched : ∀ key, phase.Builds key → w.manifests key = none → w'.manifests key = none)
    (bins : ∀ key, phase.Builds key ∨ phase.Verifies key → w'.bins key = w.bins key)
    (files : ∀ key, phase.Verifies key → w'.disk.files = w.disk.files) : phase.Ok h w' := by
  cases phase with
  | verifying key main left =>
    obtain ⟨inputs, bin, each⟩ := ok
    refine ⟨inputs, (bins key (.inr rfl)).trans bin, ?_⟩
    rw [files key rfl]
    exact each
  | linking key inputs => exact unvouched key rfl ok
  | recording key inputs left rows dirs | stamping key inputs rows dirs =>
    exact ⟨unvouched key rfl ok.1, (bins key (.inl rfl)).trans ok.2.1, ok.2.2⟩
  | _ => trivial

theorem Sound.edit (sound : Sound h w) (path : Path) (content : Option Text)
    (calm : ∀ q key, ¬ (w.phases q).Verifies key) :
    Sound h { w with
      disk := { w.disk with files := update w.disk.files path content } } :=
  ⟨sound.vouched, sound.alone, fun q => (sound.phases q).frame (fun _ _ none => none)
    (fun _ _ => rfl) fun key verifies => absurd verifies (calm q key)⟩

theorem Sound.touch (sound : Sound h w) (dir : Path) (stamp : Option Nat) :
    Sound h { w with
      disk := { w.disk with stamps := update w.disk.stamps dir stamp } } :=
  ⟨sound.vouched, sound.alone, fun q => (sound.phases q).frame (fun _ _ none => none)
    (fun _ _ => rfl) fun _ _ => rfl⟩

variable {left : List (List Char)} {key : Key}

/-- A call by which a process moves and leaves the entries alone. -/
structure World.Moves (h : Hashing Text) (w : World Text) (p : Pid) (phase : Phase Text) : Prop where
  ok : Calm w (.advance p) → phase.Ok h w
  builder : ∀ key, phase.Builds key → (w.phases p).Builds key
  fresh : ∀ key, phase = .hit key → Fresh w key

variable {p : Pid} {main : Input Text}

/-- A lookup goes on with the lines still to check, and behind them every file is as it was. -/
theorem verified_moves
    (ok : Phase.Ok h w (.verifying key main left)) : w.Moves h p (verified key main left) := by
  cases left with
  | cons line left => exact ⟨fun _ => ok, fun _ builds => absurd builds id, nofun⟩
  | nil =>
    obtain ⟨inputs, bin, each⟩ := ok
    refine ⟨fun _ => trivial, fun _ builds => absurd builds id, fun entry hit => ?_⟩
    rw [← Phase.hit.inj hit]
    exact ⟨inputs, bin, fun input mem file =>
      (each input mem file).resolve_left not_mem_nil⟩

theorem Phase.Plain.moves (plain : phase.Plain) :
    w.Moves h p phase := by
  refine ⟨fun _ => plain.ok, fun key builds => absurd builds (plain.not_builds key), ?_⟩
  rintro key rfl
  exact absurd plain id

theorem openManifest_verifying (sound : Sound h w) (main : Input Text)
    {first : List Char} {text : List Char}
    (manifest : w.manifests key = some text) (split : lines text = first :: left) :
    Phase.Ok h w (.verifying key main left) := by
  obtain ⟨inputs, bin, covers⟩ := sound.vouched key text manifest
  refine ⟨inputs, bin, fun input mem file => .inl ?_⟩
  have row := covers input mem file
  rw [split] at row
  exact row

theorem openManifest_moves (sound : Sound h w) (main : Input Text) (p : Pid) :
    w.Moves h p (openManifest key main (w.manifests key)) := by
  unfold openManifest
  split
  · exact Phase.Plain.moves trivial
  · next text manifest =>
    split
    · exact Phase.Plain.moves trivial
    · next first left split =>
      split
      · exact verified_moves (openManifest_verifying sound main manifest split)
      · exact Phase.Plain.moves trivial

theorem checkLine_verifying {line : List Char}
    (ok : Phase.Ok h w (.verifying key main (line :: left)))
    (holds : checkLine h w.disk line = true) : Phase.Ok h w (.verifying key main left) := by
  obtain ⟨inputs, bin, each⟩ := ok
  refine ⟨inputs, bin, fun input mem file => ?_⟩
  cases each input mem file with
  | inr now => exact .inr now
  | inl row =>
    cases mem_cons.mp row with
    | inr later => exact .inl later
    | inl here => exact .inr ((checkLine_fileRow h w.disk _ _).mp (here ▸ holds))

theorem Sound.reserve (sound : Sound h w) (p : Pid) (key : Key) (inputs : List (Input Text))
    (calm : ∀ q, q ≠ p → ¬ (w.phases q).Builds key) :
    Sound h ({ w with manifests := update w.manifests key none }.set p
      (.linking key inputs)) := by
  have removed : Sound h { w with manifests := update w.manifests key none } := by
    refine ⟨fun other text manifest => ?_, sound.alone, fun q => ?_⟩
    · change update w.manifests key none other = some text at manifest
      by_cases same : other = key
      · rw [same, update_self] at manifest
        exact nomatch manifest
      · rw [update_of_ne same] at manifest
        exact sound.vouched other text manifest
    · refine (sound.phases q).frame (fun other _ none => ?_) (fun _ _ => rfl) fun _ _ => rfl
      change update w.manifests key Option.none other = Option.none
      by_cases same : other = key
      · rw [same, update_self]
      · rw [update_of_ne same, none]
  refine removed.set p _ ?_ fun other builds => .inr ?_
  · change update w.manifests key none key = none
    rw [update_self]
  · rw [← builds]
    exact calm

theorem Sound.link (sound : Sound h w) (p : Pid) (key : Key) (inputs : List (Input Text))
    (here : w.phases p = .linking key inputs) (calm : ∀ q, ¬ (w.phases q).Verifies key) :
    Sound h ({ w with bins := update w.bins key (some inputs) }.set p
      (.recording key inputs inputs [header] [])) := by
  have unvouched : w.manifests key = none := by
    have ok := sound.phases p
    rw [here] at ok
    exact ok
  have builder : (w.phases p).Builds key := by
    rw [here]
    rfl
  have others : ∀ q, q ≠ p → ¬ (w.phases q).Builds key :=
    fun q other builds => other (sound.alone q p key builds builder)
  have now : Sound h { w with bins := update w.bins key (some inputs) } := by
    refine ⟨fun entry text manifest => ?_, sound.alone, fun q => ?_⟩
    · have different : entry ≠ key := by
        rintro rfl
        exact nomatch unvouched.symm.trans manifest
      obtain ⟨read, bin, covers⟩ := sound.vouched entry text manifest
      refine ⟨read, ?_, covers⟩
      change update w.bins key (some inputs) entry = some read
      rw [update_of_ne different, bin]
    · by_cases same : q = p
      · rw [same, here]
        exact unvouched
      · refine (sound.phases q).frame (fun _ _ none => none) (fun entry touched => ?_) fun _ _ => rfl
        have different : entry ≠ key := by
          rintro rfl
          exact touched.elim (others q same) (calm q)
        exact update_of_ne different _ _
  refine now.set p _ ?_ fun entry builds => .inl ?_
  · refine ⟨unvouched, ?_, [], rfl, fun input mem => .inl mem⟩
    change update w.bins key (some inputs) key = some inputs
    rw [update_self]
  · rw [← builds]
    exact builder

variable {rows : List (List Char)} {input : Input Text}

theorem Recorded.append (recorded : Recorded h rows input) (more : List (List Char)) :
    Recorded h (rows ++ more) input :=
  fun file => ⟨mem_append_left more (recorded file).1, (recorded file).2⟩

theorem recordInput_ok {m : Machine Text} {inputs : List (Input Text)}
    {left : List (Input Text)} {dirs : List Path}
    (ok : Phase.Ok m.toHashing w (.recording key inputs (input :: left) rows dirs))
    (calm : input.file = true →
      (w.disk.files input.name).isSome ∧ input.name.getLast? ≠ some '\r') :
    (recordInput m w.disk key inputs input left rows dirs).Ok m.toHashing w := by
  obtain ⟨unvouched, bin, more, start, each⟩ := ok
  have rest : ∀ added, Recorded m.toHashing (more ++ added) input →
      ∀ other ∈ inputs, other ∈ left ∨ Recorded m.toHashing (more ++ added) other := by
    intro added now other mem
    cases each other mem with
    | inr recorded => exact .inr (recorded.append added)
    | inl waiting =>
      cases mem_cons.mp waiting with
      | inr later => exact .inl later
      | inl here => exact .inr (here ▸ now)
  unfold recordInput
  split
  · next missing =>
    refine ⟨unvouched, bin, more ++ [], by rw [start, append_nil], rest [] fun file => ?_⟩
    rw [isNone_iff_eq_none] at missing
    have there := (calm file).1
    rw [missing] at there
    exact nomatch there
  · split
    · trivial
    · next whole =>
      exact ⟨unvouched, bin, _, by rw [start]; rfl, rest _ fun file =>
        ⟨mem_append_right _ mem_cons_self,
          readable_fileRow m.toHashing input.source ⟨whole, (calm file).2⟩⟩⟩

theorem Sound.commit (sound : Sound h w) (p : Pid) (key : Key) (inputs : List (Input Text))
    (rows : List (List Char)) (here : w.phases p = .stamping key inputs rows []) :
    Sound h ({ w with manifests := update w.manifests key (some (unlines rows)) }.set p
      .done) := by
  have ok := sound.phases p
  rw [here] at ok
  obtain ⟨-, bin, more, start, each⟩ := ok
  have builder : (w.phases p).Builds key := by
    rw [here]
    rfl
  have first : lines (unlines rows) = header :: lines (unlines more) := by
    rw [start]
    exact linesFrom_line [] header _ (by decide)
  -- The process leaves as it writes, since it may hold the entry only while there is no manifest.
  have left := sound.plain p .done trivial
  have others : ∀ q, ¬ ((w.set p .done).phases q).Builds key := by
    intro q builds
    change (update w.phases p .done q).Builds key at builds
    by_cases same : q = p
    · rw [same, update_self] at builds
      exact builds
    · rw [update_of_ne same] at builds
      exact same (sound.alone q p key builds builder)
  refine ⟨fun entry text manifest => ?_, left.alone, fun q => ?_⟩
  · change update w.manifests key (some (unlines rows)) entry = some text at manifest
    by_cases same : entry = key
    · rw [same, update_self] at manifest
      rw [same, ← some.inj manifest]
      refine ⟨inputs, bin, fun input mem file => ?_⟩
      rw [first]
      exact mem_lines_unlines (each input mem file).1 (each input mem file).2
    · rw [update_of_ne same] at manifest
      exact sound.vouched entry text manifest
  · refine (left.phases q).frame (fun entry builds none => ?_) (fun _ _ => rfl) fun _ _ => rfl
    have different : entry ≠ key := by
      rintro rfl
      exact others q builds
    exact (update_of_ne different _ _).trans none

theorem advance_cases (sound : Sound m.toHashing w) (stepped : advance m w p = some w') :
    (∃ phase, w.Moves m.toHashing p phase ∧ w' = w.set p phase) ∨
    (∃ key inputs, w.phases p = .reserving key inputs ∧
      w' = { w with manifests := update w.manifests key none }.set p (.linking key inputs)) ∨
    (∃ key inputs, w.phases p = .linking key inputs ∧
      w' = { w with bins := update w.bins key (some inputs) }.set p
        (.recording key inputs inputs [header] [])) ∨
    ∃ key inputs rows, w.phases p = .stamping key inputs rows [] ∧
      w' = { w with manifests := update w.manifests key (some (unlines rows)) }.set p .done := by
  have ok := sound.phases p
  unfold advance at stepped
  cases phase : w.phases p with
  | idle | hit key | compiling key inputs | done => rw [phase] at stepped; exact nomatch stepped
  | checking key main =>
    rw [phase] at stepped
    refine .inl ⟨_, Phase.Plain.moves ?_, (some.inj stepped).symm⟩
    split <;> trivial
  | opening key main =>
    rw [phase] at stepped
    exact .inl ⟨_, openManifest_moves sound main p, (some.inj stepped).symm⟩
  | verifying key main left =>
    rw [phase] at stepped ok
    cases left with
    | nil => exact nomatch stepped
    | cons line left =>
      refine .inl ⟨_, ?_, (some.inj stepped).symm⟩
      split
      · next holds => exact verified_moves (checkLine_verifying ok holds)
      · exact Phase.Plain.moves trivial
  | reserving key inputs =>
    rw [phase] at stepped
    exact .inr (.inl ⟨key, inputs, rfl, (some.inj stepped).symm⟩)
  | linking key inputs =>
    rw [phase] at stepped
    exact .inr (.inr (.inl ⟨key, inputs, rfl, (some.inj stepped).symm⟩))
  | recording key inputs left rows dirs =>
    rw [phase] at stepped ok
    have builder : (w.phases p).Builds key := by
      rw [phase]
      rfl
    cases left with
    | nil =>
      obtain ⟨unvouched, bin, more, start, each⟩ := ok
      refine .inl ⟨_, ?_, (some.inj stepped).symm⟩
      refine ⟨fun _ => ⟨unvouched, bin, more, start, fun input mem => ?_⟩,
        fun other builds => builds ▸ builder, nofun⟩
      exact (each input mem).resolve_left not_mem_nil
    | cons input left =>
      refine .inl ⟨_, ?_, (some.inj stepped).symm⟩
      refine ⟨fun calm => recordInput_ok ok ?_, fun other builds => ?_, fun entry hit => ?_⟩
      · unfold Calm at calm
        dsimp only at calm
        rw [phase] at calm
        exact calm
      · unfold recordInput at builds
        split_ifs at builds
        · exact builds ▸ builder
        · exact absurd builds id
        · exact builds ▸ builder
      · unfold recordInput at hit
        split_ifs at hit
  | stamping key inputs rows dirs =>
    rw [phase] at stepped ok
    have builder : (w.phases p).Builds key := by
      rw [phase]
      rfl
    cases dirs with
    | nil => exact .inr (.inr (.inr ⟨key, inputs, rows, rfl, (some.inj stepped).symm⟩))
    | cons dir dirs =>
      obtain ⟨unvouched, bin, more, start, each⟩ := ok
      refine .inl ⟨_, ?_, (some.inj stepped).symm⟩
      refine ⟨fun _ => ⟨unvouched, bin, ?_⟩, fun other builds => builds ▸ builder, nofun⟩
      cases w.disk.stamps dir with
      | none => exact ⟨more, start, each⟩
      | some stamp =>
        exact ⟨more ++ [dirRow stamp dir], by rw [start]; rfl,
          fun input mem => (each input mem).append _⟩

theorem Sound.advance (sound : Sound m.toHashing w) (p : Pid)
    (calm : Calm w (.advance p)) (stepped : Cache.advance m w p = some w') :
    Sound m.toHashing w' := by
  obtain ⟨phase, moves, rfl⟩ | ⟨key, inputs, here, rfl⟩ | ⟨key, inputs, here, rfl⟩ |
    ⟨key, inputs, rows, here, rfl⟩ := advance_cases m sound stepped
  · exact sound.set p phase (moves.ok calm) fun key builds => .inl (moves.builder key builds)
  · unfold Calm at calm
    dsimp only at calm
    rw [here] at calm
    exact sound.reserve p key inputs calm
  · unfold Calm at calm
    dsimp only at calm
    rw [here] at calm
    exact sound.link p key inputs here calm
  · exact sound.commit p key inputs rows here

theorem Sound.exec [DecidableEq Text] (sound : Sound m.toHashing w) (e : Event Text)
    (calm : Calm w e) (stepped : exec m w e = some w') :
    Sound m.toHashing w' := by
  obtain ⟨p, rfl, call⟩ | ⟨path, content, rfl, rfl⟩ | ⟨dir, stamp, rfl⟩ | ⟨p, phase, plain, rfl⟩ :=
    exec_cases m stepped
  · exact sound.advance m p calm call
  · exact sound.edit path content calm
  · exact sound.touch dir stamp
  · exact sound.plain p phase plain

theorem Sound.run [DecidableEq Text] (events : List (Event Text)) {w : World Text}
    (sound : Sound m.toHashing w) (calm : CalmRun m w events) (ran : run m w events = some w') :
    Sound m.toHashing w' := by
  induction events generalizing w with
  | nil => exact some.inj ran ▸ sound
  | cons e events ih =>
    cases stepped : Cache.exec m w e with
    | none =>
      unfold Cache.run at ran
      rw [foldlM_cons, stepped] at ran
      exact nomatch ran
    | some next =>
      unfold Cache.run at ran
      rw [foldlM_cons, stepped] at ran
      exact ih (sound.exec m e calm.1 stepped) (calm.2 next stepped) ran

theorem set_hit {p q : Pid} (before : w.phases p ≠ .hit key)
    (after : (w.set q phase).phases p = .hit key) : q = p ∧ phase = .hit key := by
  change update w.phases q phase p = .hit key at after
  by_cases same : p = q
  · rw [same, update_self] at after
    exact ⟨same.symm, after⟩
  · rw [update_of_ne same] at after
    exact absurd after before

/-- A call that ends a lookup with a hit changes nothing but the process, and finds the binary
fresh. -/
theorem fresh_of_advance (sound : Sound m.toHashing w) {p q : Pid}
    (before : w.phases p ≠ .hit key) (stepped : advance m w q = some w')
    (hit : w'.phases p = .hit key) : Fresh w' key := by
  obtain ⟨phase, moves, rfl⟩ | ⟨entry, inputs, -, rfl⟩ | ⟨entry, inputs, -, rfl⟩ |
    ⟨entry, inputs, rows, -, rfl⟩ := advance_cases m sound stepped
  · exact moves.fresh key (set_hit before hit).2
  all_goals exact nomatch (set_hit before hit).2

theorem fresh_of_exec [DecidableEq Text] (sound : Sound m.toHashing w) (e : Event Text)
    (before : w.phases p ≠ .hit key) (stepped : exec m w e = some w')
    (hit : w'.phases p = .hit key) : Fresh w' key := by
  obtain ⟨q, rfl, call⟩ | ⟨path, content, rfl, rfl⟩ | ⟨dir, stamp, rfl⟩ | ⟨q, phase, plain, rfl⟩ :=
    exec_cases m stepped
  · exact fresh_of_advance m sound before call hit
  · exact absurd hit before
  · exact absurd hit before
  · rw [(set_hit before hit).2] at plain
    exact absurd plain id

end Events

/-- An empty cache that no process has come to, beside any files. -/
def World.start (disk : Disk Text) : World Text :=
  ⟨disk, fun _ => none, fun _ => none, fun _ => .idle⟩

theorem sound_start (h : Hashing Text) (disk : Disk Text) : Sound h (World.start disk) :=
  ⟨nofun, fun _ _ _ builds => absurd builds id, fun _ => trivial⟩

/-- Over every run of processes and edits that do not interfere, a binary that a lookup returns was
compiled from what every file it read has at that moment. -/
theorem lookup_returns_fresh (m : Machine Text) [DecidableEq Text] (disk : Disk Text)
    (events : List (Event Text)) (w : World Text)
    (calm : CalmRun m (World.start disk) events) (ran : run m (World.start disk) events = some w)
    (e : Event Text) (w' : World Text) (stepped : exec m w e = some w') (p : Pid) (key : Key)
    (before : w.phases p ≠ .hit key) (hit : w'.phases p = .hit key) : Fresh w' key :=
  fresh_of_exec m ((sound_start m.toHashing disk).run m events calm ran) e before stepped hit

def unary : Machine Nat where
  stamp n := List.replicate n 'a'
  injective a b same := by
    have length := congrArg List.length same
    rwa [length_replicate, length_replicate] at length
  plain text := by
    refine ⟨fun mem => ?_, fun mem => ?_⟩
    · exact nomatch eq_of_mem_replicate mem
    · exact nomatch eq_of_mem_replicate mem
  key _ _ := 0
  parent _ := none

/-- One source file, `lib`, at its first version. -/
def libDisk : Disk Nat := ⟨fun path => if path = "lib".toList then some 1 else none, fun _ => none⟩

/-- A process misses, compiles with `lib` as it is, and is about to reserve. -/
def compileLib (p : Pid) : List (Event Nat) :=
  [.begin p ⟨['-', 'e'], 0, false⟩, .advance p, .read p "lib".toList, .compiled p]

/-- Two processes compile, one before and one after an edit of `lib`. The first reserves and the
second reserves; the second links, the first links over it, and the second commits. -/
def overlappingBuilds : List (Event Nat) :=
  compileLib 1 ++ [.edit "lib".toList (some 2)] ++ compileLib 2 ++
    [.advance 1, .advance 2, .advance 2, .advance 1, .advance 2, .advance 2, .advance 2,
      .advance 2]

def lookupLib (p : Pid) : List (Event Nat) :=
  [.begin p ⟨['-', 'e'], 0, false⟩, .advance p, .advance p, .advance p]

/-- Behind overlapping builds a lookup returns the binary of the first version of `lib`, while
`lib` is at its second. -/
theorem overlapping_builds_stale :
    ∃ w, run unary (World.start libDisk) (overlappingBuilds ++ lookupLib 3) = some w ∧
      w.phases 3 = .hit 0 ∧ ¬ Fresh w 0 := by
  refine ⟨_, rfl, rfl, ?_⟩
  rintro ⟨inputs, bin, each⟩
  have read : inputs = [⟨['-', 'e'], 0, false⟩, ⟨"lib".toList, 1, true⟩] :=
    (Option.some.inj bin).symm
  rw [read] at each
  have now := each ⟨"lib".toList, 1, true⟩ (by simp) rfl
  revert now
  decide +kernel

theorem CalmRun.cons {m : Machine Text} [DecidableEq Text] {w : World Text}
    {events : List (Event Text)} (calm : Calm w e) (stepped : exec m w e = some w')
    (rest : CalmRun m w' events) : CalmRun m w (e :: events) :=
  ⟨calm, fun _ other => some.inj (stepped.symm.trans other) ▸ rest⟩

/-- One process builds, and a second looks up. -/
theorem lookup_returns_fresh_single :
    ∃ w w', run unary (World.start libDisk)
        (compileLib 1 ++ List.replicate 6 (.advance 1) ++ (lookupLib 2).take 3) = some w ∧
      exec unary w (.advance 2) = some w' ∧ w'.phases 2 = .hit 0 ∧ Fresh w' 0 := by
  have calm : CalmRun unary (World.start libDisk)
      (compileLib 1 ++ List.replicate 6 (.advance 1) ++ (lookupLib 2).take 3) := by
    refine .cons trivial rfl (.cons trivial rfl (.cons trivial rfl (.cons trivial rfl
      (.cons ?_ rfl (.cons ?_ rfl (.cons ?_ rfl (.cons ?_ rfl (.cons trivial rfl (.cons trivial rfl
        (.cons trivial rfl (.cons trivial rfl (.cons trivial rfl trivial))))))))))))
    · intro q other builds
      simp [World.set, World.start, other, Phase.Builds] at builds
    · intro q verifies
      by_cases same : q = 1 <;>
        simp [World.set, World.start, same, Phase.Verifies] at verifies
    · exact nofun
    · exact fun _ => ⟨by decide +kernel, by decide⟩
  refine ⟨_, _, rfl, rfl, rfl, ?_⟩
  exact lookup_returns_fresh unary libDisk _ _ calm rfl (.advance 2) _ rfl 2 0 nofun rfl

end Zeo.Cache
