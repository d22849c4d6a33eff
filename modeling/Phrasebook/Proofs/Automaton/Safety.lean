import Phrasebook.Proofs.Automaton.Language
import Phrasebook.Proofs.Automaton.Weights
import Phrasebook.Proofs.Example.Checked
import Phrasebook.Proofs.Recognition.Checked
import Phrasebook.Proofs.Recognition.StopWords

/-!
# Automata that are safe to use

An automaton that is read from a text is well-formed: the reader refuses numbers of no states. So
are the automata of a single state and of a single arc, and combinations of well-formed automata
are well-formed again. The operations of the library look up nothing but states of a well-formed
automaton, whether its states can be reached or not and whatever cycles it has.

* `Automaton.Obtained`: the automata that can be read, made and combined.
* `Automaton.Obtained.wellFormed`: they are well-formed.
* `Automaton.IsSafe`: no operation looks up a number of no state.
* `Automaton.Obtained.wellFormed_isSafe`: the automata that can be obtained are safe to use.
-/

namespace Phrasebook

namespace Automaton

variable {a b : Automaton}

/-- The automata that are read from bytes, made from nothing, and combined from others. -/
inductive Obtained : Automaton → Prop
  /-- An automaton is read. -/
  | read {bytes : ByteArray} {a : Automaton} (read : ofBytes bytes = .ok a) : Obtained a
  /-- The automaton of a single state is made. -/
  | new : Obtained .new
  /-- The automaton of the empty input is made. -/
  | epsilon : Obtained .epsilon
  /-- The automaton of a single arc is made. -/
  | ofArc (input : Option String) (output : Option Symbol) : Obtained (.ofArc input output)
  /-- A copy of another automaton is put beside an automaton. -/
  | append {a b : Automaton} (first : Obtained a) (second : Obtained b) : Obtained (a.append b)
  /-- Automata follow one another. -/
  | concat {a b : Automaton} (first : Obtained a) (second : Obtained b) :
    Obtained (.concat a b)
  /-- Automata are alternatives. -/
  | union {branches : List Automaton} (branch : ∀ b ∈ branches, Obtained b) :
    Obtained (.union branches)
  /-- An automaton becomes optional. -/
  | optional {a : Automaton} (inner : Obtained a) : Obtained a.optional
  /-- An automaton is put between two symbols. -/
  | wrap {a : Automaton} (inner : Obtained a) (opening closing : Symbol) :
    Obtained (a.wrap opening closing)
  /-- The output labels are changed. -/
  | mapOutputs {a : Automaton} (inner : Obtained a) (f : Option Symbol → Option Symbol) :
    Obtained (a.mapOutputs f)

/-! ### The automata are well-formed -/

/-- What is read is well-formed. -/
theorem wellFormed_of_ofBytes {bytes : ByteArray} (h : ofBytes bytes = .ok a) : a.WellFormed := by
  rw [ofBytes, ofValue] at h
  split at h
  · cases h
  · split at h
    · cases h
    · next hfault =>
      cases h
      exact wellFormed_of_fault? hfault

theorem WellFormed.append (ha : a.WellFormed) (hb : b.WellFormed) : (a.append b).WellFormed := by
  have hstart := ha.start_lt
  have hsize : (a.append b).size = a.size + b.size := by
    simp [Automaton.append, size, copyAt]
  refine wellFormed_of_states Array.toList_append ?_ fun s hs arc harc => ?_
  · change a.start < _
    omega
  · rw [hsize]
    rcases List.mem_append.1 hs with hs | hs
    · have := ha.target_lt_of_mem hs harc
      omega
    · exact hb.target_lt_copyAt hs harc (by omega)

theorem WellFormed.mapOutputs (ha : a.WellFormed) (f : Option Symbol → Option Symbol) :
    (a.mapOutputs f).WellFormed :=
  ha.mapStates fun s arc harc => by
    obtain ⟨old, hold, rfl⟩ := List.mem_map.1 harc
    exact ⟨old, hold, rfl⟩

/-- The automata that can be obtained are well-formed. -/
theorem Obtained.wellFormed (h : a.Obtained) : a.WellFormed := by
  induction h with
  | read read => exact wellFormed_of_ofBytes read
  | new => decide
  | epsilon => exact spells_epsilon.tidy.wellFormed
  | ofArc input output => exact (spells_ofArc input output).tidy.wellFormed
  | append _ _ first second => exact first.append second
  | concat _ _ first second => exact first.concat second
  | union _ branch => exact wellFormed_union branch
  | optional _ inner => exact inner.optional
  | wrap _ opening closing inner => exact inner.wrap opening closing
  | mapOutputs _ f inner => exact inner.mapOutputs f

/-! ### The operations look up states only -/

/-- The operations that check which states they look up all come to a result, which is that of the
operations of the library. -/
structure IsSafe (a : Automaton) : Prop where
  /-- The states that can be reached are found. -/
  accessible : a.accessible? = some a.accessible
  /-- The states from which a run can stop are found. -/
  coaccessible : a.coaccessible? = some a.coaccessible
  /-- Cycles are looked for. -/
  isAcyclic : a.isAcyclic? = some a.isAcyclic
  /-- The words are collected. -/
  vocabulary : a.vocabulary? = some a.vocabulary
  /-- Some words are matched exactly. -/
  findPath (dropUnknown : Bool) (filter : Option WordSet) (tokens : List String) :
    (StrictRecognizer.new a dropUnknown filter).findPath? tokens =
      some ((StrictRecognizer.new a dropUnknown filter).findPath tokens)
  /-- A recognizer is made. -/
  new (leniency : Leniency) (filter : Option WordSet) :
    FuzzyRecognizer.new? a leniency filter = some (FuzzyRecognizer.new a leniency filter)
  /-- Some words are aligned by a recognizer. -/
  bestAlignment {leniency : Leniency} {filter : Option WordSet} {r : FuzzyRecognizer}
    (made : FuzzyRecognizer.new a leniency filter = .ok r) (tokens : List String) :
    r.bestAlignment? tokens = some (r.bestAlignment tokens)
  /-- All examples are listed. -/
  enumerate (limit : Nat) : Example.enumerate? a limit = settled (Example.enumerate a limit)
  /-- An example is sampled. -/
  sample (choose : Sample.Chooser) (draws : Draws) (time : Nat) :
    Sample.run? choose a draws time =
      settled (Sample.run choose a a.coaccessible.contains draws time)

/-- No operation looks up a number of no state in a well-formed automaton. -/
theorem WellFormed.isSafe (ha : a.WellFormed) : a.IsSafe where
  accessible := ha.accessible?_eq
  coaccessible := ha.coaccessible?_eq
  isAcyclic := ha.isAcyclic?_eq
  vocabulary := ha.vocabulary?_eq
  findPath _ _ := StrictRecognizer.findPath?_eq ha
  new := FuzzyRecognizer.new?_eq ha
  bestAlignment made := by
    obtain ⟨rfl, horder⟩ := FuzzyRecognizer.isOrder_of_new ha made
    exact FuzzyRecognizer.bestAlignment?_eq ha fun state => (horder.mem_iff state).1
  enumerate := Example.enumerate?_eq ha
  sample := Sample.run?_eq ha

/-- The automata that can be read, made and combined are safe to use: their start states and the
targets of their arcs are states, and no operation looks up a number of no state. -/
theorem Obtained.wellFormed_isSafe (h : a.Obtained) : a.WellFormed ∧ a.IsSafe :=
  ⟨h.wellFormed, h.wellFormed.isSafe⟩

/-- A text with a cycle behind the start state, and a state that leads to itself only. -/
def looping : String :=
  "\x7b\"states\":[\x7b\"arcs\":[\x7b\"next\":1\x7d],\"final_weight\":0\x7d," ++
    "\x7b\"arcs\":[\x7b\"ilabel\":\"on\",\"next\":0\x7d,\x7b\"next\":0\x7d]\x7d," ++
    "\x7b\"arcs\":[\x7b\"next\":2\x7d]\x7d],\"start\":0\x7d"

theorem wellFormed_isSafe_looping :
    ∃ a, ofBytes looping.toUTF8 = .ok a ∧ a.isAcyclic = false ∧ a.accessible.contains 2 = false ∧
      a.WellFormed ∧ a.IsSafe ∧
      (union [a.wrap (.openIntent "A") .closeIntent, (a.append .epsilon).optional]).WellFormed ∧
      (union [a.wrap (.openIntent "A") .closeIntent, (a.append .epsilon).optional]).IsSafe := by
  have hread : ∃ a ∈ (ofText looping).toOption,
      a.isAcyclic = false ∧ a.accessible.contains 2 = false := by decide +kernel
  obtain ⟨a, ha, hcyclic, hunreachable⟩ := hread
  have hbytes : ofBytes looping.toUTF8 = .ok a := by
    rw [ofBytes_toUTF8]
    cases htext : ofText looping with
    | error e =>
      rw [htext] at ha
      cases ha
    | ok b =>
      rw [htext] at ha
      exact congrArg Except.ok (Option.some.inj ha)
  have hread : a.Obtained := .read hbytes
  have hcombined : (union [a.wrap (.openIntent "A") .closeIntent,
      (a.append .epsilon).optional]).Obtained := by
    refine .union fun b hb => ?_
    rcases List.mem_pair.1 hb with rfl | rfl
    · exact hread.wrap _ _
    · exact (hread.append .epsilon).optional
  obtain ⟨hwell, hsafe⟩ := Obtained.wellFormed_isSafe hread
  exact ⟨a, hbytes, hcyclic, hunreachable, hwell, hsafe, Obtained.wellFormed_isSafe hcombined⟩

end Automaton

end Phrasebook
