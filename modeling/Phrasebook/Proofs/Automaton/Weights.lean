import Phrasebook.Proofs.Automaton.Costless
import Phrasebook.Proofs.Decimal.Reading
import Phrasebook.Proofs.Decimal.Roundtrip

/-!
# What has been read can be written and read again

Whatever can be read names only states that are there, holds only symbols that are read back from
their texts, and has weights that are numbers. A finite weight is read back from its numeral, but a
numeral may be out of the range of single precision and is then read as an infinity, which has no
numeral of its own and is written as a null. So an automaton with an infinite weight on an arc is
not read again, and where stopping has an infinite weight, runs no longer stop in what is read
again. All other automata are read again as automata equal to them.

* `Automaton.keepsWeight_of_isFinite`: finite weights are read back.
* `Automaton.Legible`, `Automaton.legible_of_ofValue`: what holds of an automaton that was read.
* `Automaton.restored`, `Automaton.Legible.ofText_text`: what is read again.
* `Automaton.ofBytes_text_of_ofBytes`: reading, writing and reading again.
-/

namespace Phrasebook

namespace Automaton

/-! ### Weights -/

/-- Every finite weight is read back from its numeral. -/
theorem keepsWeight_of_isFinite {weight : Float32} (h : weight.isFinite = true) :
    KeepsWeight weight := by
  obtain ⟨n, hsingle, hproper, hvalue⟩ := Numeral.exists_ofSingle? h
  exact keepsWeight_of_numeral hsingle hproper hvalue

/-- A weight that is not finite is written as a null. -/
theorem weightJson_eq_null {weight : Float32} (h : ¬ weight.isFinite = true) :
    weightJson weight = .null := by
  rw [Numeral.isFinite_iff, not_not] at h
  rw [weightJson, Numeral.ofSingle?, if_pos h]
  rfl

theorem proper_weightJson (weight : Float32) : (weightJson weight).Proper := by
  by_cases h : weight.isFinite = true
  · exact (keepsWeight_of_isFinite h).proper
  · rw [weightJson_eq_null h]
    trivial

/-! ### What is read back -/

/-- The arc whose weight has no sign if it is zero. -/
def Arc.restored (arc : Arc) : Arc :=
  { arc with weight := if arc.weight == 0 then 0 else arc.weight }

/-- The state in which runs no longer stop if that does not have a finite cost. -/
def State.restored (s : State) : State :=
  ⟨s.arcs.map Arc.restored, s.finalWeight.filter Float32.isFinite⟩

/-- What is read back from the text of the automaton, if anything is. -/
def restored (a : Automaton) : Automaton := { a with states := a.states.map State.restored }

/-- The arcs of the state have finite weights. -/
def State.ArcsFinite (s : State) : Prop := ∀ arc ∈ s.arcs, arc.weight.isFinite = true

instance (s : State) : Decidable s.ArcsFinite := List.decidableBAll _ _

/-- All arcs have finite weights. -/
def ArcsFinite (a : Automaton) : Prop := ∀ s ∈ a.states.toList, s.ArcsFinite

instance (a : Automaton) : Decidable a.ArcsFinite := List.decidableBAll _ _

/-- Stopping has a finite weight where it is possible. -/
def StopsFinite (a : Automaton) : Prop :=
  ∀ s ∈ a.states.toList, ∀ weight ∈ s.finalWeight, weight.isFinite = true

instance (a : Automaton) : Decidable a.StopsFinite := List.decidableBAll _ _

/-! ### What has been read -/

/-- The arc can have been read from a text. -/
structure Arc.Legible (arc : Arc) : Prop where
  /-- The target has a number of 32 bits. -/
  target_lt : arc.target < Nat.pow 2 32
  /-- The symbol is read back from its text. -/
  isCanonical : ∀ x, arc.output = some x → x.IsCanonical
  /-- The weight is a number. -/
  isNaN_eq : arc.weight.isNaN = false

/-- The state can have been read from a text. -/
structure State.Legible (s : State) : Prop where
  /-- Its arcs can. -/
  arcs : ∀ arc ∈ s.arcs, arc.Legible
  /-- The cost of stopping is a number. -/
  isNaN_eq : ∀ weight ∈ s.finalWeight, weight.isNaN = false

/-- The automaton can have been read from a text. -/
structure Legible (a : Automaton) : Prop where
  /-- Only states that are there are named. -/
  wellFormed : a.WellFormed
  /-- The start state has a number of 32 bits. -/
  start_lt : a.start < Nat.pow 2 32
  /-- The states can have been read. -/
  states : ∀ s ∈ a.states.toList, s.Legible

section Reading

variable {value : Json}

/-- What is in a list that was read one by one was read. -/
theorem exists_of_mem_mapM_some {α β : Type} {f : α → Option β} {xs : List α} {ys : List β} {y : β}
    (h : xs.mapM f = some ys) (hy : y ∈ ys) : ∃ x ∈ xs, f x = some y := by
  induction xs generalizing ys with
  | nil =>
    obtain rfl := Option.some.inj h
    cases hy
  | cons x xs ih =>
    rw [List.mapM_cons] at h
    obtain ⟨z, hz, h⟩ := Option.bind_eq_some_iff.1 h
    obtain ⟨zs, hzs, h⟩ := Option.bind_eq_some_iff.1 h
    obtain rfl := Option.some.inj h
    rcases List.mem_cons.1 hy with rfl | hy
    · exact ⟨x, List.mem_cons_self, hz⟩
    · obtain ⟨x', hx', hread⟩ := ih hzs hy
      exact ⟨x', List.mem_cons_of_mem x hx', hread⟩

theorem isNaN_of_weightOfJson? {weight : Float32} (h : weightOfJson? value = some weight) :
    weight.isNaN = false := by
  cases value with
  | number n =>
    obtain ⟨x, hx, rfl⟩ := Option.map_eq_some_iff.1 h
    exact Numeral.isNaN_toSingle hx
  | _ => cases h

theorem lt_of_stateOfJson? {state : ℕ} (h : stateOfJson? value = some state) :
    state < Nat.pow 2 32 := by
  cases value with
  | number n =>
    rw [stateOfJson?] at h
    split at h
    · split_ifs at h with hlt
      exact Option.some.inj h ▸ hlt
    · cases h
  | _ => cases h

theorem exists_of_optionalOfJson? {α : Type} {read : Json → Option α} {value : Option Json}
    {found : Option α} {x : α} (h : optionalOfJson? read value = some found) (hx : x ∈ found) :
    ∃ written, read written = some x := by
  rw [optionalOfJson?.eq_def] at h
  split at h
  · cases h
    cases hx
  · cases h
    cases hx
  · next written _ =>
    obtain ⟨y, hy, rfl⟩ := Option.map_eq_some_iff.1 h
    obtain rfl := Option.some.inj hx
    exact ⟨written, hy⟩

/-- No target of an arc is missing when none is found. -/
theorem target_lt_of_missingTarget? {size number : ℕ} {states : List State}
    (h : missingTarget? size number states = none) :
    ∀ s ∈ states, ∀ arc ∈ s.arcs, arc.target < size := by
  induction states generalizing number with
  | nil => exact fun _ hs => absurd hs List.not_mem_nil
  | cons s states ih =>
    rw [missingTarget?] at h
    split at h
    · cases h
    · next hfind =>
      refine List.forall_mem_cons.2 ⟨fun arc harc => ?_, ih h⟩
      simpa using List.find?_eq_none.1 hfind arc harc

theorem wellFormed_of_fault? {a : Automaton} (h : a.fault? = none) : a.WellFormed := by
  rw [fault?] at h
  split_ifs at h with hstart
  exact wellFormed_of_states rfl (not_le.1 hstart) (target_lt_of_missingTarget? h)

theorem legible_of_arcOfJson? {arc : Arc} (h : arcOfJson? value = some arc) : arc.Legible := by
  obtain ⟨fields, -, h⟩ := Option.bind_eq_some_iff.1 h
  split at h
  · next weightJson targetJson =>
    obtain ⟨input, -, h⟩ := Option.bind_eq_some_iff.1 h
    obtain ⟨output, -, h⟩ := Option.bind_eq_some_iff.1 h
    obtain ⟨weight, hweight, target, htarget, harc⟩ : ∃ weight : Float32, weight.isNaN = false ∧
        ∃ target, stateOfJson? targetJson = some target ∧
          some ⟨input, output.map Symbol.ofText, weight, target⟩ = some arc := by
      -- A weight that is left out is a zero.
      split at h
      · exact ⟨0, by decide +kernel, Option.bind_eq_some_iff.1 h⟩
      · obtain ⟨weight, hread, h⟩ := Option.bind_eq_some_iff.1 h
        exact ⟨weight, isNaN_of_weightOfJson? hread, Option.bind_eq_some_iff.1 h⟩
    obtain rfl := Option.some.inj harc
    refine ⟨lt_of_stateOfJson? htarget, fun x hx => ?_, hweight⟩
    obtain ⟨form, -, rfl⟩ := Option.map_eq_some_iff.1 hx
    exact Symbol.isCanonical_ofText form
  · cases h

/-- A state that has been read is legible, as its arcs were read one by one. -/
theorem legible_of_stateRecordOfJson? {s : State} (h : stateRecordOfJson? value = some s) :
    s.Legible := by
  obtain ⟨fields, -, h⟩ := Option.bind_eq_some_iff.1 h
  split at h
  · obtain ⟨items, -, h⟩ := Option.bind_eq_some_iff.1 h
    obtain ⟨arcs, harcs, h⟩ := Option.bind_eq_some_iff.1 h
    obtain ⟨finalWeight, hfinal, h⟩ := Option.bind_eq_some_iff.1 h
    obtain rfl := Option.some.inj h
    refine ⟨fun arc harc => ?_, fun weight hweight => ?_⟩
    · obtain ⟨item, -, hread⟩ := exists_of_mem_mapM_some harcs harc
      exact legible_of_arcOfJson? hread
    · obtain ⟨written, hread⟩ := exists_of_optionalOfJson? hfinal hweight
      exact isNaN_of_weightOfJson? hread
  · cases h

/-- Whatever has been read is legible. -/
theorem legible_of_ofValue {value : Option Json} {a : Automaton} (h : ofValue value = .ok a) :
    a.Legible := by
  rw [ofValue] at h
  split at h
  · cases h
  · next b hread =>
    split at h
    · cases h
    · next hfault =>
      obtain rfl := Except.ok.inj h
      obtain ⟨json, -, hread⟩ := Option.bind_eq_some_iff.1 hread
      obtain ⟨fields, -, hread⟩ := Option.bind_eq_some_iff.1 hread
      split at hread
      · obtain ⟨items, -, hread⟩ := Option.bind_eq_some_iff.1 hread
        obtain ⟨states, hstates, hread⟩ := Option.bind_eq_some_iff.1 hread
        obtain ⟨start, hstart, hread⟩ := Option.bind_eq_some_iff.1 hread
        obtain rfl := Option.some.inj hread
        refine ⟨wellFormed_of_fault? hfault, lt_of_stateOfJson? hstart, fun s hs => ?_⟩
        obtain ⟨item, -, hread⟩ := exists_of_mem_mapM_some hstates hs
        exact legible_of_stateRecordOfJson? hread
      · cases hread

end Reading

/-! ### Reading back -/

theorem isFinite_of_beq_zero {weight : Float32} (h : (weight == 0) = true) :
    weight.isFinite = true := by
  obtain rfl | rfl := beq_zero_iff.1 h <;> decide +kernel

/-- An arc is read back when its weight is finite. -/
theorem Arc.Legible.read_eq {arc : Arc} (h : arc.Legible) :
    arcOfJson? arc.toJson = if arc.weight.isFinite then some arc.restored else none := by
  rw [arcOfJson?_toJson h.target_lt, Arc.reread_eq_iff.2 h.isCanonical, Arc.restored]
  by_cases hzero : (arc.weight == 0) = true
  · -- A zero is left out, and with it its sign.
    rw [if_pos hzero, if_pos hzero, if_pos (isFinite_of_beq_zero hzero), Option.map_some]
  · rw [if_neg hzero, if_neg hzero]
    by_cases hfinite : arc.weight.isFinite = true
    · rw [if_pos hfinite, (keepsWeight_of_isFinite hfinite).read_eq, Option.map_some]
    · -- Unlike the cost of stopping, the weight of an arc may not be a null.
      rw [if_neg hfinite, weightJson_eq_null hfinite]
      rfl

/-- A weight of stopping is read back when it is finite. -/
theorem optionalOfJson?_weightJson_eq (finalWeight : Option Float32) :
    optionalOfJson? weightOfJson? (finalWeight.map weightJson) =
      some (finalWeight.filter Float32.isFinite) := by
  cases finalWeight with
  | none => rfl
  | some weight =>
    by_cases hfinite : weight.isFinite = true
    · rw [optionalOfJson?_weightJson fun w hw => Option.some.inj hw ▸
        keepsWeight_of_isFinite hfinite, Option.filter_some_pos hfinite]
    · rw [Option.map_some, weightJson_eq_null hfinite,
        Option.filter_some_neg (Bool.not_eq_true _ ▸ hfinite)]
      rfl

theorem State.Legible.read_eq {s : State} (h : s.Legible) :
    stateRecordOfJson? s.toJson = if s.ArcsFinite then some s.restored else none := by
  have harcs : (s.arcs.map Arc.toJson).mapM arcOfJson? =
      if s.ArcsFinite then some (s.arcs.map Arc.restored) else none :=
    mapM_map_ite fun arc harc => (h.arcs arc harc).read_eq
  rw [stateRecordOfJson?_toJson, harcs, optionalOfJson?_weightJson_eq]
  by_cases hfinite : s.ArcsFinite
  · rw [if_pos hfinite, if_pos hfinite]
    rfl
  · rw [if_neg hfinite, if_neg hfinite]
    rfl

theorem WellFormed.restored {a : Automaton} (h : a.WellFormed) : a.restored.WellFormed :=
  h.mapStates fun _ _ harc => by
    obtain ⟨before, hbefore, rfl⟩ := List.mem_map.1 harc
    exact ⟨before, hbefore, rfl⟩

/-- What has been read and written is read back when the weights of the arcs are finite. -/
theorem Legible.ofText_text {a : Automaton} (h : a.Legible) :
    ofText a.text =
      if a.ArcsFinite then .ok a.restored else .error (.artifact .unreadable) := by
  have hstates : (a.states.toList.map State.toJson).mapM stateRecordOfJson? =
      if a.ArcsFinite then some (a.states.toList.map State.restored) else none :=
    mapM_map_ite fun s hs => (h.states s hs).read_eq
  have hread : ofJson? a.toJson = if a.ArcsFinite then some a.restored else none := by
    rw [ofJson?_toJson h.start_lt, hstates]
    by_cases hfinite : a.ArcsFinite
    · rw [if_pos hfinite, if_pos hfinite, ← Array.toList_map]
      rfl
    · rw [if_neg hfinite, if_neg hfinite]
      rfl
  -- A null can be written too, so the text is always read as JSON.
  rw [ofText_text_of_proper fun s _ => State.proper_toJson (fun _ _ => proper_weightJson _)
    fun _ _ => proper_weightJson _, ofValue, Option.bind_some, hread]
  by_cases hfinite : a.ArcsFinite
  · simp only [if_pos hfinite, h.wellFormed.restored.fault?_eq_none]
  · simp only [if_neg hfinite]

/-! ### What is equal -/

theorem beq_self_of_isNaN {weight : Float32} (h : weight.isNaN = false) :
    (weight == weight) = true := by
  rw [Float32.isNaN_eq_decide_eq_nan, decide_eq_false_iff_not] at h
  exact Float32.beq_self_iff.2 h

theorem Arc.Legible.restored_beq {arc : Arc} (h : arc.Legible) : (arc.restored == arc) = true := by
  have hself := beq_self_of_isNaN h.isNaN_eq
  obtain ⟨input, output, weight, target⟩ := arc
  have hweight : ((if weight == 0 then 0 else weight : Float32) == weight) = true := by
    split_ifs with hzero
    · obtain rfl | rfl := beq_zero_iff.1 hzero <;> decide +kernel
    · exact hself
  change (input == input && (output == output && ((if weight == 0 then 0 else weight) == weight &&
    target == target))) = true
  rw [beq_self_eq_true, beq_self_eq_true, hweight, beq_self_eq_true]
  rfl

theorem State.Legible.restored_beq_iff {s : State} (h : s.Legible) :
    (s.restored == s) = true ↔ ∀ weight ∈ s.finalWeight, weight.isFinite = true := by
  have harcs : (s.arcs.map Arc.restored == s.arcs) = true :=
    map_beq_self_iff.2 fun arc harc => (h.arcs arc harc).restored_beq
  change (s.arcs.map Arc.restored == s.arcs &&
    s.finalWeight.filter Float32.isFinite == s.finalWeight) = true ↔ _
  rw [harcs, Bool.true_and]
  cases hfinal : s.finalWeight with
  | none => exact iff_of_true rfl fun weight hweight => by cases hweight
  | some weight =>
    have hself := beq_self_of_isNaN (h.isNaN_eq weight hfinal)
    by_cases hfinite : weight.isFinite = true
    · rw [Option.filter_some_pos hfinite]
      exact iff_of_true hself fun w hw => Option.some.inj hw ▸ hfinite
    · rw [Option.filter_some_neg (Bool.not_eq_true _ ▸ hfinite)]
      exact iff_of_false Bool.false_ne_true fun hall => hfinite (hall weight rfl)

/-- What is read back is equal when stopping has a finite weight where it is possible. -/
theorem Legible.restored_beq_iff {a : Automaton} (h : a.Legible) :
    (a.restored == a) = true ↔ a.StopsFinite := by
  change (a.states.map State.restored == a.states && a.start == a.start) = true ↔ _
  rw [beq_self_eq_true, Bool.and_true, ← Array.beq_toList, Array.toList_map, map_beq_self_iff]
  exact forall₂_congr fun s hs => (h.states s hs).restored_beq_iff

/-- What the text of an automaton that has been read is read back as: where an arc has an infinite
weight nothing is read, and otherwise the automaton in which no run stops at an infinite weight. It
is equal exactly when all weights are finite. -/
theorem ofBytes_text_of_ofBytes {bytes : ByteArray} {a : Automaton} (h : ofBytes bytes = .ok a) :
    ofBytes a.text.toUTF8 =
        (if a.ArcsFinite then .ok a.restored else .error (.artifact .unreadable)) ∧
      ((∃ b, ofBytes a.text.toUTF8 = .ok b ∧ (b == a) = true) ↔ a.ArcsFinite ∧ a.StopsFinite) := by
  have hlegible := legible_of_ofValue h
  rw [ofBytes_toUTF8, hlegible.ofText_text]
  refine ⟨rfl, ?_⟩
  rw [← hlegible.restored_beq_iff]
  by_cases hfinite : a.ArcsFinite
  · rw [if_pos hfinite]
    exact ⟨fun ⟨b, hb, hequal⟩ => ⟨hfinite, Except.ok.inj hb ▸ hequal⟩,
      fun hstops => ⟨a.restored, rfl, hstops.2⟩⟩
  · rw [if_neg hfinite]
    refine iff_of_false ?_ fun hfinite' => hfinite hfinite'.1
    rintro ⟨b, hb, -⟩
    cases hb

/-- A state at which runs stop with a weight that is out of the range of single precision. -/
def overflowing : String :=
  "\x7b\"states\":[\x7b\"arcs\":[],\"final_weight\":1e39\x7d],\"start\":0\x7d"

theorem ofBytes_text_of_ofBytes_overflowing :
    ∃ a, ofBytes overflowing.toUTF8 = .ok a ∧ a.isFinal 0 = true ∧
      ofBytes a.text.toUTF8 = .ok a.restored ∧ a.restored.isFinal 0 = false ∧
      ¬ ∃ b, ofBytes a.text.toUTF8 = .ok b ∧ (b == a) = true := by
  have hread : ∃ a ∈ (ofText overflowing).toOption, a.ArcsFinite ∧ ¬ a.StopsFinite ∧
      a.isFinal 0 = true ∧ a.restored.isFinal 0 = false := by decide +kernel
  obtain ⟨a, ha, harcs, hstops, hfinal, hrestored⟩ := hread
  have hbytes : ofBytes overflowing.toUTF8 = .ok a := by
    rw [ofBytes_toUTF8]
    cases htext : ofText overflowing with
    | error e =>
      rw [htext] at ha
      cases ha
    | ok b =>
      rw [htext] at ha
      exact congrArg Except.ok (Option.some.inj ha)
  obtain ⟨htext, hequal⟩ := ofBytes_text_of_ofBytes hbytes
  rw [if_pos harcs] at htext
  exact ⟨a, hbytes, hfinal, htext, hrestored, fun h => hstops (hequal.1 h).2⟩

end Automaton

end Phrasebook
