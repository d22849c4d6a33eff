import Phrasebook.Proofs.Text.Casing

/-!
# Symbols are read back from their texts

The text of a marker begins with a mark that no other text begins with, and a colon parts what it
holds. So a symbol is read back from its text unless a colon stands where it would part the text
elsewhere, or a word could be taken for a marker.

* `Symbol.reread`: what the text of a symbol is read as.
* `Symbol.IsCanonical`: a symbol is read back.
* `Symbol.IsUnambiguous`, `Symbol.isCanonical_iff`: which symbols are read back, with one lemma for
  each kind that is not read back always.
* `Symbol.text_ofText`, `Symbol.isCanonical_ofText`: what is read from a text has that text and is
  read back.
* `Symbol.Legal.isCanonical`: legal symbols are read back.
-/

namespace Phrasebook

namespace Symbol

/-- What the text of a symbol is read as. -/
def reread (x : Symbol) : Symbol := ofText x.text

/-- A symbol is read back from its text. -/
def IsCanonical (x : Symbol) : Prop := x.reread = x

instance (x : Symbol) : Decidable x.IsCanonical := decEq x.reread x

theorem append_ne {start rest text : String} (h : ¬ start.toList <+: text.toList) :
    start ++ rest ≠ text := by
  rintro rfl
  exact h (by rw [String.toList_append]; exact List.prefix_append _ _)

theorem prefix_of_after? {start form rest : String} (h : Text.after? start form = some rest) :
    start.toList <+: form.toList := by
  rw [Text.after?_eq_some_iff.1 h, String.toList_append]
  exact List.prefix_append _ _

/-- What begins with a mark begins with no other one. -/
theorem after?_eq_none {start other rest : String} (h : ¬ start.toList <+: other.toList)
    (h' : ¬ other.toList <+: start.toList) : Text.after? start (other ++ rest) = none := by
  rw [Text.after?_eq_none_iff, String.toList_append]
  intro hstart
  rcases List.prefix_or_prefix_of_prefix hstart (List.prefix_append _ _) with hp | hp
  · exact h hp
  · exact h' hp

theorem isCanonical_openIntent (name : String) : (openIntent name).IsCanonical := by
  have hafter := Text.after?_eq_some_iff.2 (rfl : intentMark ++ name = _)
  rw [IsCanonical, reread, text, ofText, if_neg (append_ne (by decide)),
    if_neg (append_ne (by decide)), hafter]

theorem isCanonical_closeIntent : closeIntent.IsCanonical := rfl

theorem isCanonical_closeEntity : closeEntity.IsCanonical := by decide

/-- The text of an entity's beginning is read as that of its tag. -/
theorem ofText_entityMark (tag : String) : ofText (entityMark ++ tag) = entityOfTag tag := by
  have hafter := Text.after?_eq_some_iff.2 (rfl : entityMark ++ tag = _)
  rw [ofText, if_neg (append_ne (by decide)), if_neg (append_ne (by decide)),
    after?_eq_none (by decide) (by decide)]
  simp only [hafter]

/-- A text is cut at the first colon. -/
theorem cut_colon_iff {form before after : String} : Text.cut ':' form = some (before, after) ↔
    form = before ++ ":" ++ after ∧ ':' ∉ before.toList := by
  rw [Text.cut_eq_some_iff, ← String.toList_inj]
  simp

/-- No name of an entity that is read holds a colon. -/
theorem not_mem_of_entityOfTag {tag slot : String} {value : Option String}
    (h : entityOfTag tag = openEntity slot value) : ':' ∉ slot.toList := by
  rw [entityOfTag] at h
  split at h
  · next slot' value' hcut =>
    cases h
    exact (cut_colon_iff.1 hcut).2
  · next hcut =>
    cases h
    exact Text.cut_eq_none_iff.1 hcut

/-- An entity's beginning is read back exactly when its name holds no colon. -/
theorem isCanonical_openEntity_iff {slot : String} {value : Option String} :
    (openEntity slot value).IsCanonical ↔ ':' ∉ slot.toList := by
  have htag : (openEntity slot value).text = entityMark ++
      (match value with
      | none => slot
      | some value => slot ++ ":" ++ value) := by
    cases value with
    | none => rfl
    | some value => simp only [text, String.append_assoc]
  rw [IsCanonical, reread, htag, ofText_entityMark]
  refine ⟨not_mem_of_entityOfTag, fun h => ?_⟩
  cases value with
  | none => rw [entityOfTag, Text.cut_eq_none_iff.2 h]
  | some value => rw [entityOfTag, cut_colon_iff.2 ⟨rfl, h⟩]

/-- A text is that of no marker: it is no closing mark and begins with no opening one. -/
structure IsUnmarked (form : String) : Prop where
  /-- The text does not end an intent. -/
  ne_intentEndMark : form ≠ intentEndMark
  /-- The text does not end an entity. -/
  ne_entityEndMark : form ≠ entityEndMark
  /-- The text does not begin an intent. -/
  not_intentMark : ¬ intentMark.toList <+: form.toList
  /-- The text does not begin an entity. -/
  not_entityMark : ¬ entityMark.toList <+: form.toList

theorem isMarker_entityOfTag (tag : String) : (entityOfTag tag).isMarker = true := by
  rw [entityOfTag]
  split <;> rfl

/-- A text is read as a word or a substitution when it is that of no marker. -/
theorem ofText_eq_iff {form : String} {x : Symbol} (hx : x.isMarker = false) :
    ofText form = x ↔ IsUnmarked form ∧ ofPlainText form = x := by
  have hne : ∀ {marker : Symbol}, marker.isMarker = true → marker ≠ x := by
    rintro marker hmarker rfl
    rw [hmarker] at hx
    cases hx
  rw [ofText]
  split_ifs with hintent hentity
  · exact iff_of_false (hne rfl) fun h => h.1.ne_intentEndMark hintent
  · exact iff_of_false (hne rfl) fun h => h.1.ne_entityEndMark hentity
  · split
    · next name hafter =>
      exact iff_of_false (hne rfl) fun h => h.1.not_intentMark (prefix_of_after? hafter)
    · next hnone =>
      split
      · next tag hafter =>
        exact iff_of_false (hne (isMarker_entityOfTag tag)) fun h =>
          h.1.not_entityMark (prefix_of_after? hafter)
      · next hnone' =>
        have hunmarked : IsUnmarked form :=
          ⟨hintent, hentity, Text.after?_eq_none_iff.1 hnone, Text.after?_eq_none_iff.1 hnone'⟩
        simp [hunmarked]

/-- What begins before a colon begins without the colon in the same way. -/
theorem prefix_append_colon_iff {mark before after : String} (h : ':' ∉ mark.toList) :
    mark.toList <+: (before ++ ":" ++ after).toList ↔ mark.toList <+: before.toList := by
  rw [String.append_assoc, String.toList_append]
  refine ⟨fun hmark => ?_, fun hmark => hmark.trans (List.prefix_append _ _)⟩
  rcases List.prefix_or_prefix_of_prefix hmark (List.prefix_append _ _) with
    hprefix | ⟨tail, htail⟩
  · exact hprefix
  · -- Otherwise the mark would go on with the colon.
    rw [← htail] at hmark h ⊢
    cases tail with
    | nil => simp
    | cons c tail =>
      rw [List.prefix_append_right_inj, String.toList_append] at hmark
      have hc : c = ':' := (List.cons_prefix_cons.1 hmark).1
      exact absurd (by simp [hc]) h

/-- A word is read back exactly when no colon parts it and it is the text of no marker. -/
theorem isCanonical_word_iff {w : String} :
    (word w).IsCanonical ↔ ':' ∉ w.toList ∧ IsUnmarked w := by
  have hplain : ofPlainText w = word w ↔ ':' ∉ w.toList := by
    rw [← Text.cut_eq_none_iff, ofPlainText]
    split <;> simp [*]
  rw [IsCanonical, reread, text, ofText_eq_iff rfl, hplain, and_comm]

/-- A substitution is read back exactly when no colon parts its words and they begin no marker. -/
theorem isCanonical_substitution_iff {raw value : String} :
    (substitution raw value).IsCanonical ↔ ':' ∉ raw.toList ∧
      ¬ intentMark.toList <+: raw.toList ∧ ¬ entityMark.toList <+: raw.toList := by
  have hplain : ofPlainText (raw ++ ":" ++ value) = substitution raw value ↔ ':' ∉ raw.toList := by
    constructor
    · intro h
      rw [ofPlainText] at h
      split at h
      · next hcut =>
        cases h
        exact (cut_colon_iff.1 hcut).2
      · cases h
    · intro h
      rw [ofPlainText, cut_colon_iff.2 ⟨rfl, h⟩]
  have hne : ∀ mark : String, ':' ∉ mark.toList → raw ++ ":" ++ value ≠ mark := by
    rintro mark hmark rfl
    exact hmark (by simp)
  have hunmarked : IsUnmarked (raw ++ ":" ++ value) ↔
      ¬ intentMark.toList <+: raw.toList ∧ ¬ entityMark.toList <+: raw.toList := by
    have hintent : ':' ∉ intentMark.toList := by decide
    have hentity : ':' ∉ entityMark.toList := by decide
    rw [← prefix_append_colon_iff hintent, ← prefix_append_colon_iff hentity]
    exact ⟨fun h => ⟨h.not_intentMark, h.not_entityMark⟩,
      fun h => ⟨hne _ (by decide), hne _ (by decide), h.1, h.2⟩⟩
  rw [IsCanonical, reread, text, ofText_eq_iff rfl, hplain, hunmarked, and_comm]

/-- Nothing in the text of the symbol is taken for something else: no colon stands before the one
that parts it, and what is no marker does not begin or look like one. -/
def IsUnambiguous : Symbol → Prop
  | word w => ':' ∉ w.toList ∧ IsUnmarked w
  | substitution raw _ => ':' ∉ raw.toList ∧
      ¬ intentMark.toList <+: raw.toList ∧ ¬ entityMark.toList <+: raw.toList
  | openEntity slot _ => ':' ∉ slot.toList
  | openIntent _ | closeIntent | closeEntity => True

/-- The symbols that are read back. -/
theorem isCanonical_iff {x : Symbol} : x.IsCanonical ↔ x.IsUnambiguous := by
  cases x with
  | word w => exact isCanonical_word_iff
  | substitution raw value => exact isCanonical_substitution_iff
  | openIntent name => exact iff_of_true (isCanonical_openIntent name) trivial
  | closeIntent => exact iff_of_true isCanonical_closeIntent trivial
  | openEntity slot value => exact isCanonical_openEntity_iff
  | closeEntity => exact iff_of_true isCanonical_closeEntity trivial

theorem text_entityOfTag (tag : String) : (entityOfTag tag).text = entityMark ++ tag := by
  rw [entityOfTag]
  split
  · next slot value hcut =>
    rw [(cut_colon_iff.1 hcut).1, text, String.append_assoc, String.append_assoc,
      String.append_assoc]
  · rfl

theorem text_ofPlainText (plain : String) : (ofPlainText plain).text = plain := by
  rw [ofPlainText]
  split
  · next raw value hcut => rw [(cut_colon_iff.1 hcut).1, text]
  · rfl

/-- Every text is that of the symbol that is read from it. -/
theorem text_ofText (form : String) : (ofText form).text = form := by
  rw [ofText]
  split_ifs with hintent hentity
  · exact hintent.symm
  · exact hentity.symm
  · split
    · next name hafter => exact (Text.after?_eq_some_iff.1 hafter).symm
    · split
      · next tag hafter => rw [text_entityOfTag, ← Text.after?_eq_some_iff.1 hafter]
      · exact text_ofPlainText form

/-- What is read from a text is read back. -/
theorem isCanonical_ofText (form : String) : (ofText form).IsCanonical :=
  congrArg ofText (text_ofText form)

/-- What is matched is a legal word, and no name of an entity holds a colon. -/
def Legal : Symbol → Prop
  | word raw => IsLegalWord raw
  | substitution raw _ => IsLegalWord raw
  | openEntity slot _ => ':' ∉ slot.toList
  | openIntent _ | closeIntent | closeEntity => True

/-- A legal word begins no marker. -/
theorem isUnmarked_of_isLegalWord {w : String} (h : IsLegalWord w) : IsUnmarked w where
  ne_intentEndMark := by
    rintro rfl
    exact h.unreserved (by decide)
  ne_entityEndMark := by
    rintro rfl
    exact h.unreserved (by decide)
  not_intentMark hmark := h.unreserved (List.IsPrefix.trans (by decide) hmark)
  not_entityMark hmark := h.unreserved (List.IsPrefix.trans (by decide) hmark)

/-- Legal symbols are read back. -/
theorem Legal.isCanonical {x : Symbol} (h : x.Legal) : x.IsCanonical := by
  apply isCanonical_iff.2
  cases x with
  | word raw => exact ⟨h.noColon, isUnmarked_of_isLegalWord h⟩
  | substitution raw value =>
    have hraw := isUnmarked_of_isLegalWord h
    exact ⟨h.noColon, hraw.not_intentMark, hraw.not_entityMark⟩
  | openEntity slot value => exact h
  | openIntent _ | closeIntent | closeEntity => trivial

end Symbol

end Phrasebook
