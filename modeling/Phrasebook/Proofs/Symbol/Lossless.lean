import Mathlib.Data.Set.Function
import Phrasebook.Proofs.Symbol

/-!
# Symbols and their texts

Every text is that of the symbol which is read from it, and a symbol is read from its text exactly
when it is unambiguous. So unambiguous symbols and texts correspond to each other one to one.

* `Symbol.bijOn_text`: the correspondence.
* `Symbol.text_lossless`: what a text keeps of its symbol.
-/

namespace Phrasebook

namespace Symbol

/-- The unambiguous symbols have different texts, and every text is that of one of them. -/
theorem bijOn_text : Set.BijOn text {x | x.IsUnambiguous} Set.univ := by
  refine ⟨Set.mapsTo_univ _ _, fun x hx y hy h => ?_, fun form _ => ?_⟩
  · have hread : x.reread = y.reread := congrArg ofText h
    rwa [isCanonical_iff.2 hx, isCanonical_iff.2 hy] at hread
  · exact ⟨ofText form, isCanonical_iff.1 (isCanonical_ofText form), text_ofText form⟩

/-- The symbol that is read from a text has that text. A symbol is read from its own text exactly
when it is unambiguous, and between unambiguous symbols and texts nothing gets lost. -/
theorem text_lossless :
    (∀ form : String, (ofText form).text = form) ∧
    (∀ x : Symbol, ofText x.text = x ↔ x.IsUnambiguous) ∧
    Set.InjOn text {x | x.IsUnambiguous} ∧ Set.BijOn text {x | x.IsUnambiguous} Set.univ :=
  ⟨text_ofText, fun _ => isCanonical_iff, bijOn_text.injOn, bijOn_text⟩

/-- A word that a colon parts is read as a substitution, and two symbols have one text. -/
example : text (.word "a:b") = text (.substitution "a" "b") ∧
    ofText "a:b" = .substitution "a" "b" := by decide

end Symbol

end Phrasebook
