import Phrasebook.Automaton.Artifact
import Phrasebook.Proofs.Automaton.Combine
import Phrasebook.Proofs.Automaton.Labels
import Phrasebook.Proofs.Json.Reading
import Phrasebook.Proofs.Symbol

/-!
# Automata are read back

What is read from the text of an automaton is the automaton with each symbol read back from its
own text, as long as the automaton names only states that are there and that 32 bits can number,
and keeps its weights. So it is read back unchanged exactly when all of its symbols are.

* `Automaton.KeepsWeight`, `Automaton.Portable`: what can be written and read.
* `Automaton.ofText_text`: what the text of an automaton is read as.
* `Automaton.ofText_text_eq_iff`: when an automaton is read back unchanged.
-/

namespace Phrasebook

namespace Automaton

/-! ### Records -/

/-- A weight is read back from its numeral. -/
structure KeepsWeight (weight : Float32) : Prop where
  /-- The numeral is proper. -/
  proper : (weightJson weight).Proper
  /-- It stands for the weight. -/
  read_eq : weightOfJson? (weightJson weight) = some weight

/-- A weight is kept when its numeral is proper and stands for it. -/
theorem keepsWeight_of_numeral {weight : Float32} {n : Numeral}
    (hnumeral : Numeral.ofSingle? weight = some n) (hproper : n.Proper)
    (hvalue : n.value?.map Number.toSingle = some weight) : KeepsWeight weight := by
  have hjson : weightJson weight = .number n := by
    rw [weightJson, hnumeral]
    rfl
  constructor
  · rw [hjson]
    exact hproper
  · rw [hjson]
    exact hvalue

theorem keepsWeight_zero : KeepsWeight 0 :=
  keepsWeight_of_numeral (by decide +kernel) (Numeral.proper_zero false) (by decide +kernel)

/-- The arc can be written and read: its target has a number of 32 bits, and its weight is kept or
left out. -/
structure Arc.Portable (arc : Arc) : Prop where
  /-- The target has a number of 32 bits. -/
  target_lt : arc.target < Nat.pow 2 32
  /-- The weight is left out only if it is zero. -/
  eq_zero : (arc.weight == 0) = true → arc.weight = 0
  /-- Otherwise it is kept. -/
  keepsWeight : KeepsWeight arc.weight

/-- The state can be written and read. -/
structure State.Portable (s : State) : Prop where
  /-- Its arcs can. -/
  arcs : ∀ arc ∈ s.arcs, arc.Portable
  /-- The cost of stopping is kept. -/
  keepsWeight : ∀ weight ∈ s.finalWeight, KeepsWeight weight

/-- The automaton can be written and read. -/
structure Portable (a : Automaton) : Prop where
  /-- Only states that are there are named. -/
  wellFormed : a.WellFormed
  /-- The start state has a number of 32 bits. -/
  start_lt : a.start < Nat.pow 2 32
  /-- The states can be written and read. -/
  states : ∀ s ∈ a.states.toList, s.Portable

/-- A tidy automaton without costs can be written and read when 32 bits number its states. -/
theorem Tidy.portable {a : Automaton} {P : Symbol → Prop} (ha : a.Tidy)
    (hsize : a.size ≤ Nat.pow 2 32) (h : a.Stores P) : a.Portable := by
  refine ⟨ha.wellFormed, Nat.lt_of_lt_of_le ha.start_lt hsize, fun s hs => ⟨?_, ?_⟩⟩
  · intro arc harc
    have hweight := ((h s hs).arcs arc harc).weight_eq
    have htarget := (ha.states s hs).target_lt arc harc
    exact ⟨Nat.lt_of_lt_of_le htarget hsize, fun _ => hweight, hweight ▸ keepsWeight_zero⟩
  · intro weight hweight
    exact (h s hs).weight_eq weight hweight ▸ keepsWeight_zero

/-- The arc whose symbol is read back from its text. -/
def Arc.reread (arc : Arc) : Arc := { arc with output := arc.output.map Symbol.reread }

/-- The state whose symbols are read back from their texts. -/
def State.reread (s : State) : State := { s with arcs := s.arcs.map Arc.reread }

/-- The automaton whose symbols are read back from their texts. -/
def reread (a : Automaton) : Automaton := a.mapOutputs (Option.map Symbol.reread)

theorem stateOfJson?_ofNat {n : Nat} (h : n < Nat.pow 2 32) : stateOfJson? (.ofNat n) = some n := by
  have hvalue : (Numeral.ofNat n).value? = some (.natural n) :=
    Numeral.value?_ofNat (Nat.lt_trans h (by decide))
  rw [Json.ofNat, stateOfJson?, hvalue]
  exact if_pos h

/-- The value of a name that occurs at most once. -/
def fieldOf? : List (String × Json) → Option (Option Json)
  | [] => some none
  | [field] => some (some field.2)
  | _ => none

/-- The fields of an object are found by name. -/
theorem recordFields?_ofFields (names : List String) (fields : List (String × Json)) :
    recordFields? names (.ofFields fields) =
      names.mapM fun name => fieldOf? (fields.filter (·.1 = name)) := by
  have hany : (fields.map fun field => (some field.1, field.2)).any (·.1.isNone) = false := by
    simp
  have hfilter : ∀ name : String,
      ((fields.map fun field => (some field.1, field.2)).filter (·.1 = some name)) =
        (fields.filter (·.1 = name)).map fun field => (some field.1, field.2) := by
    intro name
    rw [List.filter_map]
    simp [Function.comp_def]
  change recordFields? names (.object (fields.map fun field => (some field.1, field.2))) = _
  simp only [recordFields?, hany, hfilter, Bool.false_eq_true, ↓reduceIte]
  congr 1
  funext name
  generalize fields.filter (·.1 = name) = found
  match found with
  | [] => rfl
  | [_] => rfl
  | _ :: _ :: _ => rfl

/-- The fields of an arc: labels that are not there and a weight of zero are left out. -/
theorem recordFields?_arc (arc : Arc) :
    recordFields? ["ilabel", "olabel", "weight", "next"] arc.toJson =
      some [arc.input.map Json.ofString, arc.output.map fun x => Json.ofString x.text,
        if arc.weight == 0 then none else some (weightJson arc.weight),
        some (Json.ofNat arc.target)] := by
  obtain ⟨input, output, weight, target⟩ := arc
  rw [Arc.toJson, recordFields?_ofFields]
  cases weight == 0 <;> cases input <;> cases output <;> simp [fieldOf?]

/-- What an arc is read as: the symbol is read from its text, and a weight that is zero is not
there to be read. -/
theorem arcOfJson?_toJson {arc : Arc} (htarget : arc.target < Nat.pow 2 32) :
    arcOfJson? arc.toJson =
      (if arc.weight == 0 then some 0 else weightOfJson? (weightJson arc.weight)).map
        fun weight => { arc.reread with weight } := by
  have hinput : optionalOfJson? textOfJson? (arc.input.map Json.ofString) = some arc.input := by
    cases arc.input <;> rfl
  have houtput : optionalOfJson? textOfJson? (arc.output.map fun x => Json.ofString x.text) =
      some (arc.output.map Symbol.text) := by
    cases arc.output <;> rfl
  rw [arcOfJson?, recordFields?_arc]
  simp only [Option.bind_eq_bind, Option.bind_some, hinput, houtput, stateOfJson?_ofNat htarget,
    Option.map_map]
  by_cases hzero : (arc.weight == 0) = true
  · simp only [hzero, ↓reduceIte]
    rfl
  · simp only [hzero, Bool.false_eq_true, ↓reduceIte]
    cases weightOfJson? (weightJson arc.weight) <;> rfl

theorem Arc.Portable.read_eq {arc : Arc} (h : arc.Portable) :
    arcOfJson? arc.toJson = some arc.reread := by
  rw [arcOfJson?_toJson h.target_lt]
  by_cases hzero : (arc.weight == 0) = true
  · rw [if_pos hzero, Option.map_some, ← h.eq_zero hzero]
    rfl
  · rw [if_neg hzero, h.keepsWeight.read_eq]
    rfl

/-- What is read back one by one, or not, is read back as a list when all of it is. -/
theorem mapM_map_ite {α β γ : Type} {write : α → β} {read : β → Option γ} {f : α → γ}
    {P : α → Prop} [DecidablePred P] {xs : List α}
    (h : ∀ x ∈ xs, read (write x) = if P x then some (f x) else none) :
    (xs.map write).mapM read = if ∀ x ∈ xs, P x then some (xs.map f) else none := by
  induction xs with
  | nil => rfl
  | cons x xs ih =>
    obtain ⟨hx, hxs⟩ := List.forall_mem_cons.1 h
    rw [List.map_cons, List.mapM_cons, hx, ih hxs]
    by_cases hP : P x
    · by_cases hall : ∀ x ∈ xs, P x
      · rw [if_pos hP, if_pos hall, if_pos (List.forall_mem_cons.2 ⟨hP, hall⟩)]
        rfl
      · rw [if_pos hP, if_neg hall, if_neg fun hcons => hall (List.forall_mem_cons.1 hcons).2]
        rfl
    · rw [if_neg hP, if_neg fun hcons => hP (List.forall_mem_cons.1 hcons).1]
      rfl

theorem mapM_map {α β γ : Type} {write : α → β} {read : β → Option γ} {f : α → γ} {xs : List α}
    (h : ∀ x ∈ xs, read (write x) = some (f x)) : (xs.map write).mapM read = some (xs.map f) := by
  rw [mapM_map_ite (P := fun _ => True) fun x hx => by rw [h x hx, if_pos trivial]]
  exact if_pos fun _ _ => trivial

/-- What a state is read as. -/
theorem stateRecordOfJson?_toJson (s : State) :
    stateRecordOfJson? s.toJson = (do
      let arcs ← (s.arcs.map Arc.toJson).mapM arcOfJson?
      let finalWeight ← optionalOfJson? weightOfJson? (s.finalWeight.map weightJson)
      return ⟨arcs, finalWeight⟩) := by
  have hfields : recordFields? ["arcs", "final_weight"] s.toJson =
      some [some (Json.array (s.arcs.map Arc.toJson)), s.finalWeight.map weightJson] := by
    rw [State.toJson, recordFields?_ofFields]
    cases s.finalWeight <;> simp [fieldOf?]
  rw [stateRecordOfJson?, hfields]
  simp only [Option.bind_eq_bind, Option.bind_some, itemsOfJson?]

/-- A cost of stopping that is kept is read back. -/
theorem optionalOfJson?_weightJson {finalWeight : Option Float32}
    (h : ∀ weight ∈ finalWeight, KeepsWeight weight) :
    optionalOfJson? weightOfJson? (finalWeight.map weightJson) = some finalWeight := by
  cases finalWeight with
  | none => rfl
  | some weight =>
    have hread := (h weight rfl).read_eq
    rw [Option.map_some, optionalOfJson?, hread, Option.map_some]
    -- Nothing is read from a null, so the weight is not written as one.
    intro hnull
    rw [hnull] at hread
    cases hread

theorem State.Portable.read_eq {s : State} (h : s.Portable) :
    stateRecordOfJson? s.toJson = some s.reread := by
  have harcs : (s.arcs.map Arc.toJson).mapM arcOfJson? = some (s.arcs.map Arc.reread) :=
    mapM_map fun arc harc => (h.arcs arc harc).read_eq
  rw [stateRecordOfJson?_toJson, harcs, optionalOfJson?_weightJson h.keepsWeight]
  rfl

/-- What an automaton is read as. -/
theorem ofJson?_toJson {a : Automaton} (hstart : a.start < Nat.pow 2 32) :
    ofJson? a.toJson = ((a.states.toList.map State.toJson).mapM stateRecordOfJson?).map
      fun states => ⟨states.toArray, a.start⟩ := by
  have hfields : recordFields? ["states", "start"] a.toJson =
      some [some (Json.array (a.states.toList.map State.toJson)), some (.ofNat a.start)] := by
    rw [toJson, recordFields?_ofFields]
    simp [fieldOf?]
  rw [ofJson?, hfields]
  simp only [Option.bind_eq_bind, Option.bind_some, itemsOfJson?, stateOfJson?_ofNat hstart]
  cases (a.states.toList.map State.toJson).mapM stateRecordOfJson? <;> rfl

theorem Portable.read_eq {a : Automaton} (h : a.Portable) : ofJson? a.toJson = some a.reread := by
  have hstates : (a.states.toList.map State.toJson).mapM stateRecordOfJson? =
      some (a.states.toList.map State.reread) :=
    mapM_map fun s hs => (h.states s hs).read_eq
  have hmap : (a.states.toList.map State.reread).toArray = a.states.map State.reread := by
    rw [← Array.toList_map]
  rw [ofJson?_toJson h.start_lt, hstates, Option.map_some, hmap]
  rfl

/-! ### Texts -/

theorem proper_ofNat (n : Nat) : (Json.ofNat n).Proper := Numeral.proper_ofNat n

theorem Arc.proper_toJson {arc : Arc} (h : (weightJson arc.weight).Proper) :
    arc.toJson.Proper := by
  refine Json.proper_ofFields fun field hfield => ?_
  simp only [List.mem_append, Option.mem_toList, Option.map_eq_some_iff, List.mem_singleton]
    at hfield
  rcases hfield with ((⟨word, _, rfl⟩ | ⟨symbol, _, rfl⟩) | hweight) | rfl
  · trivial
  · trivial
  · split at hweight
    · cases hweight
    · obtain rfl := List.mem_singleton.1 hweight
      exact h
  · exact proper_ofNat _

theorem State.proper_toJson {s : State} (harcs : ∀ arc ∈ s.arcs, (weightJson arc.weight).Proper)
    (hfinal : ∀ weight ∈ s.finalWeight, (weightJson weight).Proper) : s.toJson.Proper := by
  refine Json.proper_ofFields (List.forall_mem_cons.2 ⟨?_, fun field hfield => ?_⟩)
  · exact Json.properItems_iff.2
      (List.forall_mem_map.2 fun arc harc => Arc.proper_toJson (harcs arc harc))
  · simp only [Option.mem_toList, Option.map_eq_some_iff] at hfield
    obtain ⟨weight, hweight, rfl⟩ := hfield
    exact hfinal weight hweight

/-- The text of an automaton is read as its JSON value when its states can be. -/
theorem ofText_text_of_proper {a : Automaton} (h : ∀ s ∈ a.states.toList, s.toJson.Proper) :
    ofText a.text = ofValue (some a.toJson) := by
  have hproper : a.toJson.Proper := by
    refine Json.proper_ofFields (List.forall_mem_cons.2 ⟨?_, List.forall_mem_singleton.2 ?_⟩)
    · exact Json.properItems_iff.2 (List.forall_mem_map.2 h)
    · exact proper_ofNat _
  rw [ofText, text, Json.ofText?_text hproper]

theorem State.Portable.proper {s : State} (h : s.Portable) : s.toJson.Proper :=
  State.proper_toJson (fun arc harc => (h.arcs arc harc).keepsWeight.proper)
    fun weight hweight => (h.keepsWeight weight hweight).proper

theorem missingTarget?_eq_none {size number : Nat} {states : List State}
    (h : ∀ s ∈ states, ∀ arc ∈ s.arcs, arc.target < size) :
    missingTarget? size number states = none := by
  induction states generalizing number with
  | nil => rfl
  | cons s states ih =>
    obtain ⟨hs, hstates⟩ := List.forall_mem_cons.1 h
    have hnone : (s.arcs.find? fun arc => size ≤ arc.target) = none :=
      List.find?_eq_none.2 fun arc harc => by simpa using hs arc harc
    simp only [missingTarget?, hnone]
    exact ih hstates

/-- A well-formed automaton has no fault. -/
theorem WellFormed.fault?_eq_none {a : Automaton} (h : a.WellFormed) : a.fault? = none := by
  rw [fault?, if_neg (Nat.not_le_of_lt h.start_lt)]
  exact missingTarget?_eq_none fun s hs arc harc => h.target_lt_of_mem hs harc

theorem WellFormed.reread {a : Automaton} (h : a.WellFormed) : a.reread.WellFormed :=
  h.mapStates fun _ _ harc => by
    obtain ⟨before, hbefore, rfl⟩ := List.mem_map.1 harc
    exact ⟨before, hbefore, rfl⟩

/-- What the text of an automaton is read as: the automaton with its symbols read back. -/
theorem ofText_text {a : Automaton} (h : a.Portable) : ofText a.text = .ok a.reread := by
  rw [ofText_text_of_proper fun s hs => (h.states s hs).proper, ofValue, Option.bind_some,
    h.read_eq]
  simp only [h.wellFormed.reread.fault?_eq_none]

/-! ### Symbols -/

theorem map_eq_self_iff {α : Type} {f : α → α} {xs : List α} :
    xs.map f = xs ↔ ∀ x ∈ xs, f x = x := by
  have h := @List.map_inj_left _ _ xs f id
  rwa [List.map_id] at h

theorem Arc.reread_eq_iff {arc : Arc} :
    arc.reread = arc ↔ ∀ x, arc.output = some x → x.IsCanonical := by
  obtain ⟨input, output, weight, target⟩ := arc
  cases output with
  | none => exact iff_of_true rfl (fun _ h => by cases h)
  | some symbol => simp [Arc.reread, Symbol.IsCanonical]

/-- An automaton is what its symbols are read back as exactly when each of them is read back. -/
theorem reread_eq_iff {a : Automaton} : a.reread = a ↔ ∀ x, a.Emits x → x.IsCanonical := by
  have hstates : a.reread = a ↔ a.states.toList.map State.reread = a.states.toList := by
    rw [← Array.toList_map, Array.toList_inj]
    exact ⟨congrArg Automaton.states, fun h => congrArg (Automaton.mk · a.start) h⟩
  have hstate : ∀ s : State, s.reread = s ↔ ∀ arc ∈ s.arcs, arc.reread = arc := by
    intro s
    rw [← map_eq_self_iff]
    exact ⟨congrArg State.arcs, fun h => congrArg (State.mk · s.finalWeight) h⟩
  simp only [hstates, map_eq_self_iff, hstate, Arc.reread_eq_iff]
  constructor
  · rintro h x ⟨s, hs, arc, harc, hx⟩
    exact h s hs arc harc x hx
  · intro h s hs arc harc x hx
    exact h x ⟨s, hs, arc, harc, hx⟩

/-- An automaton is read back unchanged exactly when each of its symbols is. -/
theorem ofText_text_eq_iff {a : Automaton} (h : a.Portable) :
    ofText a.text = .ok a ↔ ∀ x, a.Emits x → x.IsCanonical := by
  rw [ofText_text h, ← reread_eq_iff]
  exact ⟨Except.ok.inj, congrArg _⟩

end Automaton

end Phrasebook
