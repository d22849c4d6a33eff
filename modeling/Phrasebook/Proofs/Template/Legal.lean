import Phrasebook.Proofs.Template.WellFormed
import Phrasebook.Proofs.Text.Casing

/-!
# What can stand in templates

A template that is read from a text holds legal words only, its tags have names without a colon,
and a word that matches nothing is reported as something. A change of letter case keeps this.

* `Template.Legal`: what can stand in a template that is read.
* `Template.WellFormed.legal`: it does so in every well-formed template.
* `Template.legal_of_ofText`, `Template.legal_of_ofLine`: what is read is legal.
* `Template.Legal.mapWords`: it stays legal in every letter case.
-/

namespace Phrasebook

theorem IsPlainText.isUnbroken {text : String} (h : IsPlainText text) : IsUnbroken text :=
  fun c hc => Token.isBlank_of_isWordChar (h c hc)

namespace Template

mutual

/-- What can stand in a template that is read: legal words, of which the empty one is reported
as something, and tags without a colon in their names. -/
def Legal : Template → Prop
  | word text substitution => IsLegalWord text ∧ (text = "" → substitution.isSome = true)
  | sequence items => LegalAll items
  | alternation branches => LegalAll branches
  | optional inner => Legal inner
  | ruleRef _ => True
  | slotRef _ => True
  | tagged inner tag => Legal inner ∧ ':' ∉ tag.slot.toList
  | substituted inner _ => Legal inner

/-- Every template of a list is legal. -/
def LegalAll : List Template → Prop
  | [] => True
  | t :: ts => Legal t ∧ LegalAll ts

end

theorem legalAll_iff {ts : List Template} : LegalAll ts ↔ ∀ t ∈ ts, Legal t := by
  induction ts with
  | nil => simp [LegalAll]
  | cons t ts ih => simp [LegalAll, ih]

/-- A well-formed word is legal. -/
theorem WellFormedWord.legal {raw : String} {substitution : Option String}
    (h : WellFormedWord raw substitution) : Legal (word raw substitution) := by
  refine ⟨⟨h.plain.isUnbroken, h.noColon, h.unreserved⟩, fun hempty => ?_⟩
  obtain ⟨value, hvalue, -⟩ := h.nonempty.resolve_left (not_not_intro hempty)
  exact Option.isSome_iff_exists.2 ⟨value, hvalue⟩

mutual

/-- Well-formed templates are legal. -/
theorem WellFormed.legal {t : Template} (h : t.WellFormed) : t.Legal := by
  match t with
  | word raw substitution => exact WellFormedWord.legal h
  | sequence items => exact WellFormedAll.legal h.1
  | alternation branches => exact WellFormedAll.legal h.1
  | optional inner => exact WellFormed.legal (t := inner) h
  | ruleRef name => trivial
  | slotRef name => trivial
  | tagged inner tag => exact ⟨WellFormed.legal (t := inner) h.1, h.2.noColon⟩
  | substituted inner value => exact WellFormed.legal (t := inner) h.1

theorem WellFormedAll.legal {ts : List Template} (h : WellFormedAll ts) : LegalAll ts := by
  match ts with
  | [] => trivial
  | t :: ts => exact ⟨WellFormed.legal (t := t) h.1, WellFormedAll.legal h.2⟩

end

/-- A template that is read is legal. -/
theorem legal_of_ofText {text : String} {t : Template} (h : ofText text = .ok t) : Legal t :=
  (wellFormed_of_ofText h).legal

/-- The template of a line is legal. -/
theorem legal_of_ofLine {label : String} {number : Nat} {text : String} {t : Template}
    (h : ofLine label number text = .ok t) : Legal t :=
  legal_of_ofText (mapError_eq_ok_iff.1 h)

mutual

/-- A template stays legal in every letter case. -/
theorem Legal.mapWords {casing : Casing} {t : Template} (h : Legal t) :
    Legal (t.mapWords casing.apply) := by
  match t with
  | word text substitution =>
    rw [Template.mapWords]
    split
    · exact h
    · exact ⟨h.1.apply casing, fun _ => rfl⟩
  | sequence items => exact LegalAll.mapWordsAll h
  | alternation branches => exact LegalAll.mapWordsAll h
  | optional inner => exact Legal.mapWords (t := inner) h
  | ruleRef name => trivial
  | slotRef name => trivial
  | tagged inner tag => exact ⟨Legal.mapWords (t := inner) h.1, h.2⟩
  | substituted inner value => exact Legal.mapWords (t := inner) h

theorem LegalAll.mapWordsAll {casing : Casing} {ts : List Template} (h : LegalAll ts) :
    LegalAll (Template.mapWordsAll casing.apply ts) := by
  match ts with
  | [] => trivial
  | t :: ts => exact ⟨Legal.mapWords (t := t) h.1, LegalAll.mapWordsAll h.2⟩

end

end Template

end Phrasebook
