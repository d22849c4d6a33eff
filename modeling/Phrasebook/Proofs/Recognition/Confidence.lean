import Phrasebook.Proofs.Decimal.Positive
import Phrasebook.Proofs.Recognition.StopWords

/-!
# The confidence of what has no intent

An intent that was decoded has a confidence exactly when it has a name, so strict recognition
gives no confidence to what has no name. Fuzzy recognition puts the confidence that follows from
the cost in the place of the decoded one, whether there is a name or not. So a run that opens no
intent leads to a recognition without a name that is not the one of no match: its words taken
alone are recognized without a name and with full confidence.

* `Intent.confidence_of_ofSymbols`: the confidence of what was decoded.
* `StrictRecognizer.confidence_unnamed`: strict recognition.
* `FuzzyRecognizer.confidence_zero`: the confidence of what costs nothing.
* `FuzzyRecognizer.unnamed_cases`: what fuzzy recognition finds without a name.
* `confidence_of_unnamed`: when what has no name has no confidence.
-/

namespace Phrasebook

open Floating

/-- What was decoded has a confidence exactly when it has a name. -/
theorem Intent.confidence_of_ofSymbols {symbols : List Symbol} {intent : Intent}
    (h : Intent.ofSymbols symbols = .ok intent) :
    intent.confidence = if intent.name.isSome then 1 else 0 := by
  rw [Intent.ofSymbols, mapError_eq_ok_iff, Decoder.decode, bind_eq_ok_iff] at h
  obtain ⟨s, -, hfinish⟩ := h
  rw [Decoder.State.finish] at hfinish
  split at hfinish
  · cases hfinish
    rfl
  · cases hfinish

/-- Strict recognition has no confidence in what has no name. -/
theorem StrictRecognizer.confidence_unnamed {r : StrictRecognizer} {tokens : List String}
    (h : (r.recognize tokens).intent.name = none) : (r.recognize tokens).intent.confidence = 0 := by
  rw [recognize] at h ⊢
  generalize (if (r.kept tokens).isEmpty then none else r.findPath (r.kept tokens)) = found at h ⊢
  cases found with
  | none => rfl
  | some symbols =>
    rw [Option.map_some] at h ⊢
    cases hdecode : Intent.ofSymbols symbols with
    | error e => rfl
    | ok intent =>
      rw [hdecode] at h
      rw [Intent.confidence_of_ofSymbols hdecode, h]
      rfl

namespace FuzzyRecognizer

variable {r : FuzzyRecognizer} {tokens : List String} {m : Matching}

/-- What costs nothing has full confidence, however many words there are. -/
theorem confidence_zero {total : Nat} (h : 0 < total) : confidence 0 total = 1 := by
  have hwhole : IsPositive .binary32
      (Float32.ofNat Leniency.skipCost * Float32.ofNat total).toModel.unpack :=
    isPositive_ten_mul (isPositive_ofNat h)
  have hrest : (1 : Float32) - 0 = 1 := by decide +kernel
  have hlt : ¬ (1 : Float32) < 0 := by decide +kernel
  rw [confidence, zero_div hwhole, hrest]
  exact if_neg hlt

/-- What is recognized without a name is no match, or else the best matching opens no intent, and
then the confidence is that of its cost. -/
theorem unnamed_cases (ha : r.automaton.WellFormed)
    (horder : Graph.IsOrder r.automaton.size r.automaton.silentTargets r.order)
    (h : (r.recognize tokens).intent.name = none) :
    (r.recognize tokens).intent = .noMatch tokens ∨
      ∃ m intent, r.IsBest tokens m ∧
        Intent.ofSymbols (Utterance.ofArcs m.arcs).output = .ok intent ∧ intent.name = none ∧
        (r.recognize tokens).intent =
          { intent with confidence := confidence (r.cost tokens m.used) tokens.length } := by
  rcases recognize_cases ha horder tokens with ⟨-, heq⟩ | ⟨m, hm, heq⟩
  · exact .inl (by rw [heq])
  · cases hdecode : Intent.ofSymbols (Utterance.ofArcs m.arcs).output with
    | error e =>
      rw [hdecode] at heq
      exact .inl (by rw [heq])
    | ok intent =>
      rw [hdecode] at heq
      rw [heq] at h
      exact .inr ⟨m, intent, hm, hdecode, h, by rw [heq]⟩

/-- What the best matching puts out without opening an intent is recognized with full confidence
in the matched words alone. -/
theorem IsBest.recognize_alone (ha : r.automaton.WellFormed)
    (horder : Graph.IsOrder r.automaton.size r.automaton.silentTargets r.order)
    (hm : r.IsBest tokens m) {intent : Intent}
    (hdecode : Intent.ofSymbols (Utterance.ofArcs m.arcs).output = .ok intent) :
    (r.recognize m.words).intent = { intent with confidence := 1 } := by
  have hwords := hm.isMatching.words_ne_nil
  have hfree := ((isMatching_alone_iff (r := r)
    (m := ⟨m.run, m.arcs, List.range' 0 m.words.length⟩) hwords).2
    ⟨hm.isMatching.accepts, hm.isMatching.allowed, rfl, rfl⟩).2
  rcases recognize_cases ha horder m.words with ⟨hnone, -⟩ | ⟨best, hbest, heq⟩
  · exact absurd hm.alone.isMatching (hnone _)
  · obtain rfl := hbest.unique hm.alone
    rw [hdecode, hfree, confidence_zero (List.length_pos_iff.2 hwords)] at heq
    rw [heq]

end FuzzyRecognizer

/-- When what has no name has no confidence. In strict recognition this is always so. In fuzzy
recognition what has no name is no match, or else it has the confidence of its cost; so it has no
confidence throughout exactly when every best matching that can be decoded opens an intent. -/
theorem confidence_of_unnamed {a : Automaton} (ha : a.WellFormed) (filter : Option WordSet) :
    (∀ dropUnknown tokens,
      ((StrictRecognizer.new a dropUnknown filter).recognize tokens).intent.name = none →
      ((StrictRecognizer.new a dropUnknown filter).recognize tokens).intent.confidence = 0) ∧
    ∀ leniency r, FuzzyRecognizer.new a leniency filter = .ok r →
      (∀ tokens, (r.recognize tokens).intent.name = none →
        (r.recognize tokens).intent = .noMatch tokens ∨
          ∃ m intent, r.IsBest tokens m ∧
            Intent.ofSymbols (Utterance.ofArcs m.arcs).output = .ok intent ∧
            intent.name = none ∧ (r.recognize tokens).intent =
              { intent with
                confidence := FuzzyRecognizer.confidence (r.cost tokens m.used) tokens.length }) ∧
      ((∀ tokens, (r.recognize tokens).intent.name = none →
          (r.recognize tokens).intent.confidence = 0) ↔
        ∀ tokens m intent, r.IsBest tokens m →
          Intent.ofSymbols (Utterance.ofArcs m.arcs).output = .ok intent →
          intent.name.isSome = true) := by
  refine ⟨fun _ _ => StrictRecognizer.confidence_unnamed, fun leniency r hr => ?_⟩
  obtain ⟨rfl, horder⟩ := FuzzyRecognizer.isOrder_of_new ha hr
  refine ⟨fun tokens => FuzzyRecognizer.unnamed_cases ha horder,
    fun h tokens m intent hm hdecode => ?_, fun h tokens hname => ?_⟩
  · by_contra hnone
    rw [Bool.not_eq_true, Option.isSome_eq_false_iff, Option.isNone_iff_eq_none] at hnone
    -- The matched words alone would be recognized without a name and with full confidence.
    have halone := hm.recognize_alone ha horder hdecode
    have hzero := h m.words (by rw [halone]; exact hnone)
    have hone : (1 : Float32) ≠ 0 := by decide +kernel
    rw [halone] at hzero
    exact hone hzero
  · rcases FuzzyRecognizer.unnamed_cases ha horder hname with
      heq | ⟨m, intent, hm, hdecode, hnone, -⟩
    · rw [heq]
      rfl
    · have hsome := h tokens m intent hm hdecode
      rw [hnone] at hsome
      cases hsome

/-- A word without an intent is recognized without a name, but with full confidence. -/
theorem confidence_of_unnamed_word : ∃ a r,
    a = Automaton.ofArc (some "hello") (some (.word "hello")) ∧
    a.WellFormed ∧ FuzzyRecognizer.new a ⟨.ofList [], none, false⟩ none = .ok r ∧
    (r.recognize ["hello"]).intent.name = none ∧ (r.recognize ["hello"]).intent.confidence = 1 ∧
    ¬ ∀ tokens m intent, r.IsBest tokens m →
      Intent.ofSymbols (Utterance.ofArcs m.arcs).output = .ok intent →
      intent.name.isSome = true := by
  have hwf := (Automaton.spells_ofArc (some "hello") (some (.word "hello"))).tidy.wellFormed
  have hfound : (FuzzyRecognizer.new (.ofArc (some "hello") (some (.word "hello")))
      ⟨.ofList [], none, false⟩ none).toOption.any (fun r =>
        (r.recognize ["hello"]).intent.name.isNone &&
          decide ((r.recognize ["hello"]).intent.confidence = 1)) = true := by
    decide +kernel
  cases hr : FuzzyRecognizer.new (.ofArc (some "hello") (some (.word "hello")))
      ⟨.ofList [], none, false⟩ none with
  | error e =>
    rw [hr] at hfound
    cases hfound
  | ok r =>
    rw [hr] at hfound
    obtain ⟨hname, hconfidence⟩ := Bool.and_eq_true_iff.1 hfound
    have hname := Option.isNone_iff_eq_none.1 hname
    have hconfidence := of_decide_eq_true hconfidence
    refine ⟨_, r, rfl, hwf, hr, hname, hconfidence, fun hnamed => ?_⟩
    have hzero := (((confidence_of_unnamed hwf none).2 _ r hr).2.2 hnamed) ["hello"] hname
    rw [hconfidence] at hzero
    exact absurd hzero (by decide +kernel)

end Phrasebook
