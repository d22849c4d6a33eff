import Mathlib
import Phrasebook.Proofs.Automaton.Artifact

/-!
# Automata without costs are read back from their bytes

A cost may be zero in two ways, which compare as equal. On an arc both are left out of the text,
so what is read there is the zero without a sign; that of stopping in a state is written with its
sign. What is read back is therefore equal to what was written, and it is the same unless some
arc has a negative zero.

The lemmas about equal numbers in single precision that are used come only with the whole of
Mathlib.

* `Automaton.Costless`: taking an arc and stopping cost nothing.
* `Automaton.unsigned`: the automaton without the signs of its arcs' costs.
* `Automaton.ofBytes_text_of_costless`: what the bytes of an automaton are read as.
-/

namespace Phrasebook

namespace Automaton

variable {a : Automaton}

/-- Neither an arc of the state nor stopping there costs anything. -/
structure State.Costless (s : State) : Prop where
  /-- The arcs cost nothing. -/
  arcs : ∀ arc ∈ s.arcs, (arc.weight == 0) = true
  /-- Stopping costs nothing. -/
  finalWeight : ∀ weight ∈ s.finalWeight, (weight == 0) = true

/-- Taking an arc and stopping cost nothing. -/
def Costless (a : Automaton) : Prop := ∀ s ∈ a.states.toList, s.Costless

/-- The arc whose cost is the zero without a sign. -/
def Arc.unsigned (arc : Arc) : Arc := { arc with weight := 0 }

/-- The state whose arcs cost the zero without a sign. -/
def State.unsigned (s : State) : State := { s with arcs := s.arcs.map Arc.unsigned }

/-- The automaton whose arcs cost the zero without a sign. -/
def unsigned (a : Automaton) : Automaton := { a with states := a.states.map State.unsigned }

/-- What compares as equal to zero is a zero, with either sign. -/
theorem beq_zero_iff {weight : Float32} : (weight == 0) = true ↔ weight = 0 ∨ weight = -0 := by
  constructor
  · intro h
    obtain ⟨-, -, rfl | ⟨rfl, -⟩ | ⟨rfl, -⟩⟩ := Float32.beq_iff_ne_nan_and_eq.1 h
    · exact .inl rfl
    · exact .inl rfl
    · exact .inr rfl
  · rintro (rfl | rfl) <;> decide +kernel

theorem keepsWeight_of_beq_zero {weight : Float32} (h : (weight == 0) = true) :
    KeepsWeight weight := by
  obtain rfl | rfl := beq_zero_iff.1 h
  · exact keepsWeight_zero
  · exact keepsWeight_of_numeral (by decide +kernel) (Numeral.proper_zero true) (by decide +kernel)

/-! ### What is written -/

theorem Arc.toJson_unsigned {arc : Arc} (h : (arc.weight == 0) = true) :
    arc.unsigned.toJson = arc.toJson := by
  have hzero : ((0 : Float32) == 0) = true := by decide +kernel
  rw [Arc.toJson, Arc.toJson, if_pos h]
  simp only [Arc.unsigned, hzero, ↓reduceIte]

theorem State.toJson_unsigned {s : State} (h : s.Costless) : s.unsigned.toJson = s.toJson := by
  have harcs : (s.arcs.map Arc.unsigned).map Arc.toJson = s.arcs.map Arc.toJson := by
    rw [List.map_map]
    exact List.map_congr_left fun arc harc => Arc.toJson_unsigned (h.arcs arc harc)
  rw [State.toJson, State.toJson, State.unsigned, harcs]

/-- The signs of the arcs' costs are not written. -/
theorem text_unsigned (h : a.Costless) : a.unsigned.text = a.text := by
  have hstates : (a.states.map State.unsigned).toList.map State.toJson =
      a.states.toList.map State.toJson := by
    rw [Array.toList_map, List.map_map]
    exact List.map_congr_left fun s hs => State.toJson_unsigned (h s hs)
  rw [text, text, toJson, toJson, unsigned, hstates]

/-! ### What is read -/

theorem mem_states_unsigned {s : State} (h : s ∈ a.unsigned.states.toList) :
    ∃ s' ∈ a.states.toList, s'.unsigned = s := by
  rw [unsigned, Array.toList_map] at h
  exact List.mem_map.1 h

theorem WellFormed.unsigned (h : a.WellFormed) : a.unsigned.WellFormed :=
  h.mapStates fun _ _ harc => by
    obtain ⟨before, hbefore, rfl⟩ := List.mem_map.1 harc
    exact ⟨before, hbefore, rfl⟩

theorem Emits.of_unsigned {x : Symbol} (h : a.unsigned.Emits x) : a.Emits x := by
  obtain ⟨s, hs, arc, harc, hx⟩ := h
  obtain ⟨s', hs', rfl⟩ := mem_states_unsigned hs
  obtain ⟨arc', harc', rfl⟩ := List.mem_map.1 harc
  exact ⟨s', hs', arc', harc', hx⟩

/-- Without signs, an automaton that costs nothing can be written and read. -/
theorem Costless.portable_unsigned (h : a.Costless) (ha : a.WellFormed)
    (hsize : a.size ≤ Nat.pow 2 32) : a.unsigned.Portable := by
  refine ⟨ha.unsigned, Nat.lt_of_lt_of_le ha.start_lt hsize, fun s hs => ?_⟩
  obtain ⟨s', hs', rfl⟩ := mem_states_unsigned hs
  refine ⟨fun arc harc => ?_, fun weight hweight =>
    keepsWeight_of_beq_zero ((h s' hs').finalWeight weight hweight)⟩
  obtain ⟨arc', harc', rfl⟩ := List.mem_map.1 harc
  have htarget : arc'.target < a.size := ha.target_lt_of_mem hs' harc'
  exact ⟨Nat.lt_of_lt_of_le htarget hsize, fun _ => rfl, keepsWeight_zero⟩

/-! ### What is equal -/

theorem Arc.unsigned_beq {arc : Arc} (h : (arc.weight == 0) = true) :
    (arc.unsigned == arc) = true := by
  obtain ⟨input, output, weight, target⟩ := arc
  have hweight : ((0 : Float32) == weight) = true := by
    obtain rfl | rfl := beq_zero_iff.1 h <;> decide +kernel
  change (input == input && (output == output && ((0 : Float32) == weight && target == target))) =
    true
  rw [beq_self_eq_true, beq_self_eq_true, hweight, beq_self_eq_true]
  rfl

/-- What is equal one by one is equal as a list. -/
theorem map_beq_self_iff {α : Type} [BEq α] {f : α → α} {xs : List α} :
    (xs.map f == xs) = true ↔ ∀ x ∈ xs, (f x == x) = true := by
  induction xs with
  | nil => exact iff_of_true rfl fun x hx => absurd hx List.not_mem_nil
  | cons x xs ih =>
    rw [List.map_cons, List.cons_beq_cons, Bool.and_eq_true, ih, List.forall_mem_cons]

theorem State.unsigned_beq {s : State} (h : s.Costless) : (s.unsigned == s) = true := by
  have harcs : (s.arcs.map Arc.unsigned == s.arcs) = true :=
    map_beq_self_iff.2 fun arc harc => Arc.unsigned_beq (h.arcs arc harc)
  have hfinal : (s.finalWeight == s.finalWeight) = true := by
    cases hweight : s.finalWeight with
    | none => rfl
    | some weight =>
      -- Unlike a cost that is not a number, a zero is equal to itself.
      obtain rfl | rfl := beq_zero_iff.1 (h.finalWeight weight hweight) <;> decide +kernel
  change (s.arcs.map Arc.unsigned == s.arcs && s.finalWeight == s.finalWeight) = true
  rw [harcs, hfinal]
  rfl

/-- Signs do not matter for equality. -/
theorem unsigned_beq (h : a.Costless) : (a.unsigned == a) = true := by
  have hstates : (a.states.map State.unsigned == a.states) = true := by
    rw [← Array.beq_toList, Array.toList_map]
    exact map_beq_self_iff.2 fun s hs => State.unsigned_beq (h s hs)
  change (a.states.map State.unsigned == a.states && a.start == a.start) = true
  rw [hstates, beq_self_eq_true]
  rfl

/-- Where no arc costs a negative zero, there are no signs to leave out. -/
theorem unsigned_eq_self (h : a.Costless)
    (hsign : ∀ s ∈ a.states.toList, ∀ arc ∈ s.arcs, arc.weight ≠ -0) : a.unsigned = a := by
  have harc : ∀ s ∈ a.states.toList, ∀ arc ∈ s.arcs, arc.unsigned = arc := by
    intro s hs arc harc
    have hzero : arc.weight = 0 :=
      (beq_zero_iff.1 ((h s hs).arcs arc harc)).resolve_right (hsign s hs arc harc)
    rw [Arc.unsigned, ← hzero]
  have hstates : a.states.map State.unsigned = a.states := by
    rw [← Array.toList_inj, Array.toList_map, map_eq_self_iff]
    intro s hs
    rw [State.unsigned, map_eq_self_iff.2 (harc s hs)]
  rw [unsigned, hstates]

/-- What the bytes of an automaton are read as when its states have numbers of 32 bits, nothing
costs anything and every symbol is read back from its text: an equal automaton, which is the same
one unless some arc costs a negative zero. -/
theorem ofBytes_text_of_costless (ha : a.WellFormed) (hsize : a.size ≤ Nat.pow 2 32)
    (hcost : a.Costless) (hsymbols : ∀ x, a.Emits x → x.IsCanonical) :
    ofBytes a.text.toUTF8 = .ok a.unsigned ∧ (a.unsigned == a) = true ∧
      ((∀ s ∈ a.states.toList, ∀ arc ∈ s.arcs, arc.weight ≠ -0) → a.unsigned = a) := by
  refine ⟨?_, unsigned_beq hcost, unsigned_eq_self hcost⟩
  -- The text is also that of the automaton without signs, which is read back unchanged.
  rw [ofBytes_toUTF8, ← text_unsigned hcost]
  exact (ofText_text_eq_iff (hcost.portable_unsigned ha hsize)).2 fun x hx =>
    hsymbols x hx.of_unsigned

/-- A loop with a label that has to be escaped, and costs that have a sign. -/
def quoting : Automaton where
  states := #[⟨[⟨some "\"\\\n\u0001é𝄞", some (.substitution "a" "b"), -0, 0⟩,
    ⟨none, none, 0, 1⟩], none⟩, ⟨[], some (-0)⟩]
  start := 0

theorem ofBytes_text_of_costless_quoting :
    quoting.WellFormed ∧ quoting.Costless ∧ (∀ x, quoting.Emits x → x.IsCanonical) ∧
      ofBytes quoting.text.toUTF8 = .ok quoting.unsigned ∧
      (quoting.unsigned == quoting) = true := by
  have hwell : quoting.WellFormed := by
    have htarget : ∀ state < quoting.size, ∀ arc ∈ quoting.arcs state,
        arc.target < quoting.size := by decide
    exact ⟨by decide, fun state arc harc =>
      htarget state (lt_size_of_mem_arcs harc) arc harc⟩
  have hcost : quoting.Costless := by
    have hzero : ∀ s ∈ quoting.states.toList, (∀ arc ∈ s.arcs, (arc.weight == 0) = true) ∧
        ∀ weight ∈ s.finalWeight, (weight == 0) = true := by decide +kernel
    exact fun s hs => ⟨(hzero s hs).1, (hzero s hs).2⟩
  have hsymbols : ∀ x, quoting.Emits x → x.IsCanonical := by
    have hcanonical : ∀ s ∈ quoting.states.toList, ∀ arc ∈ s.arcs, ∀ x ∈ arc.output,
        x.IsCanonical := by decide +kernel
    rintro x ⟨s, hs, arc, harc, hx⟩
    exact hcanonical s hs arc harc x hx
  have hread := ofBytes_text_of_costless hwell (by decide) hcost hsymbols
  exact ⟨hwell, hcost, hsymbols, hread.1, hread.2.1⟩

end Automaton

end Phrasebook
