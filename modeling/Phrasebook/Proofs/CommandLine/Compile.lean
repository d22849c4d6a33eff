import Phrasebook.CommandLine.Run
import Phrasebook.Proofs.Compile.Artifacts
import Phrasebook.Proofs.Files.Sources

/-!
# What the command `compile` leaves behind

The command reads a profile, a grammar and slots and opens the store before it hands over to a
compiler, which first removes the automaton of all intents. So a run that fails later leaves no
automaton of an earlier grammar. One that fails before has not come to that: it keeps every file,
and an earlier automaton with them.

* `CommandLine.CompileSettings`: where a run reads and where it keeps things.
* `CommandLine.prepare`, `CommandLine.CompileSettings.build`,
  `CommandLine.CompileSettings.writeWords`: the stages of a run; `CommandLine.startCommand_compile`:
  a run is made of them.
* `CommandLine.Clears`: a run comes to the point where the automaton of an earlier grammar has been
  removed.
* `CommandLine.compileEnds_of_run`: what is left by a run that comes to that point and by one that
  does not.
-/

namespace Phrasebook

namespace CommandLine

open Disk

/-! ### The stages of a run -/

/-- Where a compilation reads, what it compiles and where it keeps automata. -/
structure CompileSettings where
  /-- The path of the grammar. -/
  sentences : String
  /-- The path of the directory with the slots. -/
  slotsDirectory : String
  /-- The path of the store. -/
  out : String
  /-- What is done to the case of words. -/
  casing : Casing
  /-- The intents that are compiled; without a set all are. -/
  allowed : Option WordSet

namespace CompileSettings

/-- The settings of a profile, which options replace. -/
def of (profile : Option Profile) (given : Given) : CompileSettings :=
  let profile := profile.getD {}
  { sentences := (given.value? "sentences").getD profile.sentencesFile
    slotsDirectory := (given.value? "slots").getD profile.slotsDirectory
    out := (given.value? "out").getD profile.artifactsDirectory
    casing := given.casing?.getD profile.training.casing
    allowed := (given.set? "intent").or profile.intentWhitelist }

/-- Where automata are kept. -/
def store (s : CompileSettings) : Store := ⟨s.out⟩

/-- The path of the list of words. -/
def wordsPath (s : CompileSettings) : String := Path.join s.out "vocab.txt"

/-- The list of the words that can be recognized. -/
def wordList (a : Automaton) : String := String.join (a.vocabulary.toList.map (· ++ "\n"))

variable {m : Type → Type} [Monad m] [Files m]

/-- Reads a grammar and slots. -/
def sources (s : CompileSettings) : ExceptT Failure m (Grammar × Slots) := do
  let grammar ← during ("loading " ++ s.sentences) (Grammar.load s.allowed s.sentences)
  let slots ← during ("loading slots from " ++ s.slotsDirectory) (Slots.load s.slotsDirectory)
  return (grammar, slots)

/-- Compiles a grammar and keeps the automata. -/
def build (s : CompileSettings) (grammar : Grammar) (slots : Slots) : ExceptT Failure m Compiled :=
  during "compiling grammar" (ExceptT.mk
    (Prod.fst <$> (Compiler.new s.casing (some s.store)).compile grammar slots))

/-- Writes the list of words. -/
def writeWords (s : CompileSettings) (compiled : Compiled) : ExceptT Failure m Unit :=
  ExceptT.mk (Except.mapError (.unwritable s.wordsPath) <$>
    Files.write s.wordsPath (wordList compiled.merged).toUTF8)

end CompileSettings

variable {m : Type → Type} [Monad m] [Files m]

/-- Reads everything that is compiled and opens the store. -/
def prepare (profilePath : Option String) (given : Given) :
    ExceptT Failure m (CompileSettings × Grammar × Slots) := do
  let profile ← profilePath.mapM fun path =>
    during ("loading profile " ++ path) (Profile.load path)
  let s := CompileSettings.of profile given
  let sources ← s.sources
  let _ ← refuse (Store.open s.out)
  return (s, sources)

/-- A whole compilation. -/
def compileAll (profilePath : Option String) (given : Given) : ExceptT Failure m (List String) := do
  let (s, grammar, slots) ← prepare profilePath given
  let compiled ← s.build grammar slots
  s.writeWords compiled
  return [s.store.mergedPath]

section Stages

variable [LawfulMonad m]

/-- A compiler is asked for the outcome only. -/
theorem CompileSettings.build_eq (s : CompileSettings) (grammar : Grammar) (slots : Slots) :
    (s.build grammar slots : ExceptT Failure m Compiled) =
      during "compiling grammar" (ExceptT.lift
        ((Compiler.new s.casing (some s.store)).compile grammar slots) >>= fun result =>
          liftM result.1) := by
  refine congrArg (during "compiling grammar") (ExceptT.ext ?_)
  rw [ExceptT.run_mk, map_eq_pure_bind, ExceptT.run_bind_lift]
  rfl

/-- A store that has been opened is the one in its directory. -/
theorem refuse_open_bind {α : Type} (out : String) (f : Store → ExceptT Failure m α) :
    refuse (Store.open out) >>= f = refuse (Store.open out) >>= fun _ => f ⟨out⟩ := by
  refine ExceptT.ext ?_
  simp only [refuse, Store.open, ExceptT.run_bind, ExceptT.run_mk, map_bind, bind_map_left,
    bind_assoc]
  refine bind_congr fun opened => ?_
  cases opened with
  | error e => simp [Except.mapError]
  | ok _ => simp [Except.mapError]

/-- The command is made of these stages. -/
theorem startCommand_compile [Surroundings m] (profilePath : Option String)
    (given : Given) : (startCommand profilePath .compile given : ExceptT Failure m Started) =
      Started.ofOutput <$> compileAll profilePath given := by
  rw [compileAll, prepare]
  simp only [map_bind, bind_assoc, pure_bind, map_pure]
  refine bind_congr fun profile => ?_
  dsimp only
  rw [map_eq_pure_bind, runCompile, CompileSettings.sources]
  simp only [bind_assoc, pure_bind]
  refine bind_congr fun grammar => bind_congr fun slots => ?_
  -- The command goes on with the store that it has opened, and its compiler gives more than the
  -- outcome.
  rw [refuse_open_bind]
  refine bind_congr fun _ => ?_
  rw [CompileSettings.build_eq]
  rfl

end Stages

/-! ### Before anything is compiled -/

variable {α : Type} {disk after : Disk} {profilePath : Option String} {given : Given}
  {s : CompileSettings} {grammar : Grammar} {slots : Slots}

theorem perform_during (action : String) (operation : ExceptT Error (StateM Disk) α)
    (disk : Disk) : perform (during action operation).run disk =
      ((perform operation.run disk).1.mapError (.during action),
        (perform operation.run disk).2) := rfl

/-- What is done for a run and succeeds has succeeded by itself. -/
theorem perform_of_during_eq_ok {action : String} {operation : ExceptT Error (StateM Disk) α}
    {a : α} (h : perform (during action operation).run disk = (.ok a, after)) :
    perform operation.run disk = (.ok a, after) := by
  rw [perform_during] at h
  obtain ⟨houtcome, hafter⟩ := Prod.mk.inj h
  exact Prod.ext (mapError_eq_ok_iff.1 houtcome) hafter

theorem keepsFiles_during (action : String) {operation : ExceptT Error (StateM Disk) α}
    (h : KeepsFiles operation.run) : KeepsFiles (during action operation).run :=
  h.map _

theorem CompileSettings.keepsFiles_sources (s : CompileSettings) :
    KeepsFiles (s.sources : ExceptT Failure (StateM Disk) (Grammar × Slots)).run := by
  refine (keepsFiles_during _ (Grammar.keepsFiles_load _ _)).run_bind fun grammar => ?_
  exact (keepsFiles_during _ (Slots.keepsFiles_load _)).run_bind fun slots => .of_pure _

theorem keepsFiles_open (out : String) :
    KeepsFiles (Store.open out : ExceptT Error (StateM Disk) Store).run :=
  (keepsFiles_attempt _ (.ensureDirectories _)).run_bind fun _ => .of_pure _

/-- Up to the point where the compiler takes over, every file is kept. -/
theorem keepsFiles_prepare (profilePath : Option String) (given : Given) :
    KeepsFiles (prepare profilePath given :
      ExceptT Failure (StateM Disk) (CompileSettings × Grammar × Slots)).run := by
  refine KeepsFiles.run_bind ?_ fun profile => ?_
  · cases profilePath with
    | none => exact .of_pure _
    | some path =>
      exact (keepsFiles_during _ (Profile.keepsFiles_load path)).run_bind fun _ => .of_pure _
  · refine (CompileSettings.keepsFiles_sources _).run_bind fun sources => ?_
    exact KeepsFiles.run_bind ((keepsFiles_open _).map _) fun _ => .of_pure _

/-- What is compiled is a grammar that some text gives and slots that files define. -/
theorem loaded_of_prepare
    (h : perform (prepare profilePath given).run disk = (.ok (s, grammar, slots), after)) :
    (∃ text, Grammar.ofTextWith s.allowed text = .ok grammar) ∧ slots.Loaded := by
  obtain ⟨profile, _, -, h⟩ := perform_run_bind_eq_ok_iff.1 h
  obtain ⟨⟨grammar', slots'⟩, _, hsources, h⟩ := perform_run_bind_eq_ok_iff.1 h
  obtain ⟨_, _, -, hdone⟩ := perform_run_bind_eq_ok_iff.1 h
  cases hdone
  obtain ⟨grammar', _, hgrammar, hsources⟩ := perform_run_bind_eq_ok_iff.1 hsources
  obtain ⟨slots', _, hslots, hdone⟩ := perform_run_bind_eq_ok_iff.1 hsources
  cases hdone
  exact ⟨Grammar.exists_ofTextWith_of_load (perform_of_during_eq_ok hgrammar),
    Slots.loaded_of_load (perform_of_during_eq_ok hslots)⟩

/-! ### From then on -/

/-- A run comes to the point where the automaton of an earlier grammar has been removed: it has
read what it compiles, and opened its store. -/
def Clears (profilePath : Option String) (given : Given) (disk : Disk) (s : CompileSettings)
    (grammar : Grammar) (slots : Slots) (cleared : Disk) : Prop :=
  ∃ opened, perform (prepare profilePath given).run disk = (.ok (s, grammar, slots), opened) ∧
    perform s.store.removeMerged.run opened = (.ok (), cleared)

namespace CompileSettings

variable {opened cleared : Disk} {allowed : Option WordSet} {text : String}

theorem perform_build (s : CompileSettings) (grammar : Grammar) (slots : Slots) (disk : Disk) :
    perform (s.build grammar slots).run disk =
      ((perform ((Compiler.new s.casing (some s.store)).compile grammar slots) disk).1.1.mapError
          (.during "compiling grammar"),
        (perform ((Compiler.new s.casing (some s.store)).compile grammar slots) disk).2) := rfl

/-- When the earlier automaton cannot be removed, nothing is built and nothing changes. -/
theorem build_of_not_removed (grammar : Grammar) (slots : Slots) {e : Error}
    (h : perform s.store.removeMerged.run opened = (.error e, after)) :
    perform (s.build grammar slots).run opened =
        (.error (.during "compiling grammar" e), after) ∧ after.tree = opened.tree := by
  refine ⟨?_, Store.tree_eq_of_removeMerged_error h⟩
  have hcompile : perform ((Compiler.new s.casing (some s.store)).compile grammar slots) opened =
      ((.error e, Compiler.new s.casing (some s.store)), after) := by
    have hremoved : perform ((Compiler.new s.casing (some s.store)).withStore
        Store.removeMerged).run opened = (.error e, after) := h
    rw [Compiler.compile, perform_bind, hremoved]
    rfl
  rw [perform_build, hcompile]
  rfl

variable (hgrammar : Grammar.ofTextWith allowed text = .ok grammar) (hslots : slots.Loaded)
  (hremoved : perform s.store.removeMerged.run opened = (.ok (), cleared))
include hgrammar hslots hremoved

/-- A grammar that cannot be compiled leaves no automaton of all intents. -/
theorem absent_of_build {failure : Failure}
    (h : perform (s.build grammar slots).run opened = (.error failure, after)) :
    after.tree.Absent s.store.mergedPath := by
  rw [perform_build] at h
  rcases hrun : perform ((Compiler.new s.casing (some s.store)).compile grammar slots) opened with
    ⟨⟨e | compiled, c⟩, left⟩ <;> rw [hrun] at h <;> cases h
  exact Compiler.absent_of_compile hgrammar hslots.defined hslots.slashless rfl hremoved hrun

/-- A grammar that is compiled leaves its own automaton of all intents. -/
theorem read_of_build {compiled : Compiled}
    (h : perform (s.build grammar slots).run opened = (.ok compiled, after)) :
    grammar.compile s.casing slots = .ok compiled ∧
      after.tree.read s.store.mergedPath = .ok compiled.merged.text.toUTF8 := by
  rw [perform_build] at h
  rcases hrun : perform ((Compiler.new s.casing (some s.store)).compile grammar slots) opened with
    ⟨⟨e | found, c⟩, left⟩ <;> rw [hrun] at h <;> cases h
  refine ⟨?_, (Compiler.holds_of_compile hgrammar hslots.defined hslots.slashless rfl hremoved
    hrun).1.merged⟩
  -- What the compiler gives is what the grammar comes to.
  have hkept := Compiler.perform_compile_of_removed hgrammar hslots.defined
    (c := Compiler.new s.casing (some s.store)) rfl hremoved
  rw [hrun] at hkept
  cases hcompile : grammar.compile (Compiler.new s.casing (some s.store)).casing slots with
  | error e =>
    rw [hcompile] at hkept
    cases hkept
  | ok compiled' =>
    rw [hcompile] at hkept
    obtain ⟨_, _, -, hdone⟩ := perform_run_bind_eq_ok_iff.1 hkept.symm
    cases hdone
    exact hcompile

end CompileSettings

/-! ### The list of words -/

namespace CompileSettings

variable {compiled : Compiled}

/-- The list of words and the automaton of all intents are different files. -/
theorem apart_words_merged (s : CompileSettings) : Path.Apart s.wordsPath s.store.mergedPath :=
  Path.apart_join ⟨by decide, by decide, by decide⟩ ⟨by decide, by decide, by decide⟩ (by decide)

theorem perform_writeWords (s : CompileSettings) (compiled : Compiled) (disk : Disk) :
    perform (s.writeWords compiled).run disk =
      ((perform (Files.write s.wordsPath (wordList compiled.merged).toUTF8) disk).1.mapError
          (.unwritable s.wordsPath),
        (perform (Files.write s.wordsPath (wordList compiled.merged).toUTF8) disk).2) := rfl

/-- Whether the list of words can be written or not, the automaton of all intents is what it
was. -/
theorem read_merged_writeWords (s : CompileSettings) (compiled : Compiled) (disk : Disk)
    (bytes : ByteArray) :
    (perform (s.writeWords compiled).run disk).2.tree.read s.store.mergedPath = .ok bytes ↔
      disk.tree.read s.store.mergedPath = .ok bytes := by
  have hchanged := ChangesAt.write .fileFault s.wordsPath (wordList compiled.merged).toUTF8 disk
  exact hchanged.read_iff (List.forall_mem_singleton.2 s.apart_words_merged)

/-- A list of words that has been written can be read. -/
theorem read_of_writeWords (h : perform (s.writeWords compiled).run disk = (.ok (), after)) :
    after.tree.read s.wordsPath = .ok (wordList compiled.merged).toUTF8 := by
  have hends := @ends_change disk (·.write s.wordsPath (wordList compiled.merged).toUTF8)
    (·.spoil s.wordsPath)
  rw [perform_writeWords] at h
  change (Except.mapError _ (perform (change _ _) disk).1, (perform (change _ _) disk).2) = _ at h
  generalize perform (change _ _) disk = outcome at hends h
  cases hends with
  | made hmade =>
    cases h
    exact FileTree.read_of_write hmade
  | refused _ => cases h
  | befallen _ => cases h

/-- Only that the list cannot be written is told when it is not. -/
theorem failure_of_writeWords {failure : Failure}
    (h : perform (s.writeWords compiled).run disk = (.error failure, after)) :
    ∃ fault, failure = .unwritable s.wordsPath fault := by
  rw [perform_writeWords] at h
  rcases hwrite : perform (Files.write s.wordsPath (wordList compiled.merged).toUTF8) disk with
    ⟨fault | _, left⟩ <;> rw [hwrite] at h <;> cases h
  exact ⟨fault, rfl⟩

end CompileSettings

/-! ### Whole runs -/

/-- How a run ends whose command ends so. -/
def endOf : Except Failure (List String) → Outcome
  | .ok output => ⟨0, output, []⟩
  | .error failure => failure.outcome

/-- A run with arguments that ask for a compilation is that compilation. -/
theorem run_compile [LawfulMonad m] [Surroundings m] {arguments : List String}
    (hrequest : Request.ofArguments arguments = .run profilePath .compile given) (input : String) :
    (run arguments input : m Outcome) = endOf <$> (compileAll profilePath given).run := by
  rw [run, start, hrequest]
  dsimp only
  rw [startCommand_compile, ExceptT.run_map, bind_map_left, bind_assoc, map_eq_pure_bind]
  refine bind_congr fun ended => ?_
  cases ended with
  | error failure => simp [Except.map, endOf]
  | ok output => simp [Except.map, endOf, Started.ofOutput]

/-- The ways in which a run may end that asks for a compilation. -/
inductive CompileEnds (profilePath : Option String) (given : Given) (disk : Disk) :
    Outcome × Disk → Prop
  /-- It fails before the automaton of an earlier grammar has been removed, and keeps every file,
  that automaton with them. -/
  | unprepared {failure : Failure} {after : Disk}
    (hclears : ∀ s grammar slots cleared, ¬Clears profilePath given disk s grammar slots cleared)
    (hkeeps : disk.tree.Keeps after.tree) :
    CompileEnds profilePath given disk (failure.outcome, after)
  /-- It fails later, and leaves no automaton of all intents. -/
  | unbuilt {s : CompileSettings} {grammar : Grammar} {slots : Slots} {failure : Failure}
    {cleared after : Disk} (hclears : Clears profilePath given disk s grammar slots cleared)
    (habsent : after.tree.Absent s.store.mergedPath) :
    CompileEnds profilePath given disk (failure.outcome, after)
  /-- It fails when nothing but the list of words is missing, and leaves its own automaton. -/
  | unlisted {s : CompileSettings} {grammar : Grammar} {slots : Slots} {compiled : Compiled}
    {fault : FileFault} {cleared after : Disk}
    (hclears : Clears profilePath given disk s grammar slots cleared)
    (hcompile : grammar.compile s.casing slots = .ok compiled)
    (hmerged : after.tree.read s.store.mergedPath = .ok compiled.merged.text.toUTF8) :
    CompileEnds profilePath given disk ((Failure.unwritable s.wordsPath fault).outcome, after)
  /-- It succeeds, and leaves its own automaton and the words of that automaton. -/
  | done {s : CompileSettings} {grammar : Grammar} {slots : Slots} {compiled : Compiled}
    {cleared after : Disk} (hclears : Clears profilePath given disk s grammar slots cleared)
    (hcompile : grammar.compile s.casing slots = .ok compiled)
    (hmerged : after.tree.read s.store.mergedPath = .ok compiled.merged.text.toUTF8)
    (hwords : after.tree.read s.wordsPath =
      .ok (CompileSettings.wordList compiled.merged).toUTF8) :
    CompileEnds profilePath given disk (⟨0, [s.store.mergedPath], []⟩, after)

/-- From the point where the automaton of an earlier grammar has been removed, none is left but
that of the run. -/
theorem compileEnds_of_clears {opened cleared : Disk}
    (hprepare : perform (prepare profilePath given).run disk = (.ok (s, grammar, slots), opened))
    (hremoved : perform s.store.removeMerged.run opened = (.ok (), cleared)) :
    CompileEnds profilePath given disk (Prod.map endOf id
      (perform (compileAll profilePath given).run disk)) := by
  have hclears : Clears profilePath given disk s grammar slots cleared :=
    ⟨opened, hprepare, hremoved⟩
  obtain ⟨⟨text, hgrammar⟩, hslots⟩ := loaded_of_prepare hprepare
  rw [compileAll, perform_run_bind, hprepare]
  dsimp only
  rw [perform_run_bind]
  rcases hbuild : perform (s.build grammar slots).run opened with ⟨failure | compiled, built⟩
  · -- Nothing takes the place of the automaton that has been removed.
    exact .unbuilt hclears (CompileSettings.absent_of_build hgrammar hslots hremoved hbuild)
  · obtain ⟨hcompile, hmerged⟩ :=
      CompileSettings.read_of_build hgrammar hslots hremoved hbuild
    dsimp only
    rw [perform_run_bind]
    -- The list of words comes last, and its file is another one.
    have hkept := (s.read_merged_writeWords compiled built _).2 hmerged
    rcases hwrite : perform (s.writeWords compiled).run built with ⟨failure | _, after⟩ <;>
      rw [hwrite] at hkept
    · obtain ⟨fault, rfl⟩ := CompileSettings.failure_of_writeWords hwrite
      exact .unlisted hclears hcompile hkept
    · exact .done hclears hcompile hkept (CompileSettings.read_of_writeWords hwrite)

/-- A compilation that does not come to that point keeps every file. -/
theorem compileEnds_of_not_clears
    (h : ∀ s grammar slots cleared, ¬Clears profilePath given disk s grammar slots cleared) :
    CompileEnds profilePath given disk (Prod.map endOf id
      (perform (compileAll profilePath given).run disk)) := by
  have hkeeps := keepsFiles_prepare profilePath given disk
  rw [compileAll, perform_run_bind]
  rcases hprepare : perform (prepare profilePath given).run disk with
    ⟨failure | ⟨s, grammar, slots⟩, opened⟩ <;> rw [hprepare] at hkeeps
  · -- Something cannot be read, or the store cannot be opened.
    exact .unprepared h hkeeps
  · dsimp only
    rcases hremoved : perform s.store.removeMerged.run opened with ⟨e | _, after⟩
    · -- The compiler gives up at once.
      obtain ⟨hbuild, htree⟩ := CompileSettings.build_of_not_removed grammar slots hremoved
      rw [perform_run_bind, hbuild]
      exact .unprepared h (htree ▸ hkeeps)
    · exact absurd ⟨opened, hprepare, hremoved⟩ (h s grammar slots after)

/-- A run that asks for a compilation leaves an automaton of an earlier grammar only when it fails
before it has removed it. A run that succeeds leaves its own automaton with its own words. -/
theorem compileEnds_of_run [Surroundings (StateM Disk)] {arguments : List String}
    (hrequest : Request.ofArguments arguments = .run profilePath .compile given) (input : String)
    (disk : Disk) : CompileEnds profilePath given disk (perform (run arguments input) disk) := by
  rw [run_compile hrequest]
  by_cases h : ∃ s grammar slots cleared, Clears profilePath given disk s grammar slots cleared
  · obtain ⟨s, grammar, slots, cleared, opened, hprepare, hremoved⟩ := h
    exact compileEnds_of_clears hprepare hremoved
  · exact compileEnds_of_not_clears fun s grammar slots cleared hclears =>
      h ⟨s, grammar, slots, cleared, hclears⟩

/-- On a disk, too, time stands still and nothing is random. -/
instance : Surroundings (StateM Disk) where
  clock := pure 0
  seed := pure 0

/-- A grammar in which a parenthesis is not closed is refused before the automaton of an earlier
grammar has been removed, which can still be loaded. -/
theorem compileEnds_of_run_unclosed : ∃ given,
    let arguments := ["compile", "--sentences", "s.ini", "--slots", "slots", "--out", "out"]
    let disk : Disk := ⟨.ofList [("out", .directory), ("out/intent.fst.json",
      .file Automaton.epsilon.text.toUTF8), ("s.ini", .file "[A]\n(hello\n".toUTF8),
      ("slots", .directory)], [], 0⟩
    Request.ofArguments arguments = .run none .compile given ∧
      CompileEnds none given disk (perform (run arguments "") disk) ∧
      (perform (run arguments "") disk).1.code = 1 ∧
      (perform (Automaton.load "out/intent.fst.json").run
        (perform (run arguments "") disk).2).1.isOk = true :=
  have hrequest : Request.ofArguments
      ["compile", "--sentences", "s.ini", "--slots", "slots", "--out", "out"] =
        .run none .compile
          ⟨[("sentences", "s.ini"), ("slots", "slots"), ("out", "out")], []⟩ := rfl
  ⟨_, hrequest, compileEnds_of_run hrequest "" _, by decide +kernel, by decide +kernel⟩

end CommandLine

end Phrasebook
