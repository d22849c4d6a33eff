import Mathlib.Data.List.Forall2
import Phrasebook.Template.Printer
import Phrasebook.Text.Casing

/-!
# Words keep apart from marks in every letter case

Blanks part words, a colon parts a word from what is reported for it, and two low lines begin a
marker. None of these characters has letter case, and no letter becomes one of them, so a word
without them stays one when its letter case changes.

* `isSpecial`: blanks, the colon and the low line.
* `Mild`: images in which no other character becomes a special one.
* `IsLegalWord`: a word without blanks and colons that begins no marker.
* `IsLegalWord.apply`, `Casing.apply_eq_empty_iff`: what a change of letter case keeps.
-/

namespace Phrasebook

/-- Blanks, the colon and the low line. -/
def isSpecial (c : Char) : Bool := isBlank c || c == ':' || c == '_'

/-- An image of a character is not empty, and it holds a special character only if it is the
character itself. -/
def Mild (c : Char) (image : List Char) : Prop :=
  image ≠ [] ∧ ∀ d ∈ image, isSpecial d = true → image = [c]

/-- The code points of the special characters, as ranges. -/
def specialRanges : List (Nat × Nat) :=
  [(0x09, 0x0D), (0x20, 0x20), (0x3A, 0x3A), (0x5F, 0x5F), (0x85, 0x85), (0xA0, 0xA0),
    (0x1680, 0x1680), (0x2000, 0x200A), (0x2028, 0x2029), (0x202F, 0x202F), (0x205F, 0x205F),
    (0x3000, 0x3000)]

/-- Whether a code point is outside of the ranges of special characters. -/
def isOutside (code : Nat) : Bool :=
  specialRanges.all fun (first, last) => code < first || last < code

theorem isOutside_of_isSpecial {c : Char} (h : isSpecial c = true) : isOutside c.toNat = false := by
  simp only [isSpecial, isBlank, Bool.or_eq_true, Bool.and_eq_true, decide_eq_true_eq,
    beq_iff_eq] at h
  rcases h with (hblank | rfl) | rfl
  · simp only [isOutside, specialRanges, List.all_cons, List.all_nil, Bool.and_true,
      Bool.and_eq_false_iff, Bool.or_eq_false_iff, decide_eq_false_iff_not]
    omega
  · decide
  · decide

/-- A character outside of the ranges is its own mild image, and that of any other. -/
theorem mild_singleton {c d : Char} (h : isSpecial d = true → d = c) : Mild c [d] :=
  ⟨List.cons_ne_nil d [], fun e he hspecial => by
    obtain rfl := List.mem_singleton.1 he
    rw [h hspecial]⟩

/-- Images outside of the ranges are mild. -/
theorem mild_of_isOutside {c : Char} {image : List Char} (hne : image ≠ [])
    (h : ∀ d ∈ image, isOutside d.toNat = true) : Mild c image :=
  ⟨hne, fun d hd hspecial => by
    have hout := h d hd
    rw [isOutside_of_isSpecial hspecial] at hout
    cases hout⟩

/-- A number outside of the ranges is that of a character outside of them, or of none. -/
theorem isOutside_ofNat {code : Nat} (h : isOutside code = true) :
    isOutside (Char.ofNat code).toNat = true := by
  by_cases hvalid : code.isValidChar
  · rw [Char.ofNat, dif_pos hvalid]
    exact h
  · rw [Char.ofNat, dif_neg hvalid]
    decide

/-! ### Tables -/

namespace CaseRun

/-- Whether no image of a letter of the run is special. -/
def isSound (run : CaseRun) : Bool :=
  specialRanges.all fun (first, last) =>
    decide (run.last + run.shift < first) || decide (last < run.first + run.shift)

theorem isOutside_of_image? {run : CaseRun} {code image : Nat} (hrun : run.isSound = true)
    (h : run.image? code = some image) : isOutside image = true := by
  rw [image?] at h
  split at h
  · next hcode =>
    obtain ⟨hfirst, hlast, _⟩ := hcode
    cases h
    refine List.all_eq_true.2 fun ⟨first, last⟩ hrange => ?_
    have hpositive : 0 < first := by
      have : ∀ range ∈ specialRanges, 0 < range.1 := by decide
      exact this _ hrange
    have hsound := List.all_eq_true.1 hrun _ hrange
    simp only [Bool.or_eq_true, decide_eq_true_eq] at hsound ⊢
    omega
  · cases h

theorem isOutside_of_imageIn? {runs : Array CaseRun} {code image : Nat}
    (hruns : runs.all isSound = true) (h : imageIn? runs code = some image) :
    isOutside image = true := by
  obtain ⟨run, hrun, himage⟩ := Array.exists_of_findSome?_eq_some h
  exact isOutside_of_image? (Array.all_eq_true'.1 hruns run hrun) himage

/-- The images of sound runs are mild. -/
theorem mild_imageIn? {runs : Array CaseRun} {c : Char} (hruns : runs.all isSound = true) :
    Mild c [((imageIn? runs c.toNat).map Char.ofNat).getD c] := by
  cases h : imageIn? runs c.toNat with
  | none => exact mild_singleton fun _ => rfl
  | some image =>
    exact mild_of_isOutside (List.cons_ne_nil _ _) (List.forall_mem_singleton.2
      (isOutside_ofNat (isOutside_of_imageIn? hruns h)))

end CaseRun

theorem isSound_lowerRuns : lowerRuns.all CaseRun.isSound = true := by decide +kernel

theorem isSound_upperRuns : upperRuns.all CaseRun.isSound = true := by decide +kernel

theorem isOutside_upperLists :
    (upperLists.all fun (_, codes) => !codes.isEmpty && codes.all isOutside) = true := by
  decide +kernel

/-! ### Characters -/

/-- Letter case in ASCII makes no character special. -/
theorem eq_of_isSpecial_ascii : ∀ code < 0x80,
    (isSpecial (Char.ofNat code).toLower = true →
      (Char.ofNat code).toLower = Char.ofNat code) ∧
    (isSpecial (Char.ofNat code).toUpper = true →
      (Char.ofNat code).toUpper = Char.ofNat code) := by
  decide +kernel

theorem mild_lowerOf (c : Char) : Mild c (lowerOf c) := by
  rw [lowerOf]
  split
  · next hascii =>
    have h := (eq_of_isSpecial_ascii _ hascii).1
    rw [Char.ofNat_toNat] at h
    exact mild_singleton h
  · split
    · exact mild_of_isOutside (List.cons_ne_nil _ _) (List.all_eq_true.1 (by decide))
    · exact CaseRun.mild_imageIn? isSound_lowerRuns

theorem mild_upperOf (c : Char) : Mild c (upperOf c) := by
  rw [upperOf]
  split
  · next hascii =>
    have h := (eq_of_isSpecial_ascii _ hascii).2
    rw [Char.ofNat_toNat] at h
    exact mild_singleton h
  · split
    · next code codes hfind =>
      have hmem := Array.mem_of_find?_eq_some hfind
      have hlist := Array.all_eq_true'.1 isOutside_upperLists _ hmem
      simp only [Bool.and_eq_true, Bool.not_eq_true', List.all_eq_true] at hlist
      refine mild_of_isOutside (fun hnil => ?_) (List.forall_mem_map.2 fun code hcode =>
        isOutside_ofNat (hlist.2 code hcode))
      rw [List.map_eq_nil_iff] at hnil
      rw [hnil] at hlist
      cases hlist.1
    · exact CaseRun.mild_imageIn? isSound_upperRuns

/-! ### Words -/

/-- Some characters are put together from mild images of other ones. -/
def MildFor (cs image : List Char) : Prop :=
  ∃ images, List.Forall₂ Mild cs images ∧ image = images.flatten

namespace MildFor

variable {cs image : List Char}

theorem refl (cs : List Char) : MildFor cs cs :=
  ⟨cs.map ([·]), List.forall₂_map_right_iff.2 (List.forall₂_same.2 fun _ _ =>
    mild_singleton fun _ => rfl), by rw [← List.flatMap_def, List.flatMap_singleton']⟩

theorem cons {c : Char} {first : List Char} (hfirst : Mild c first) (h : MildFor cs image) :
    MildFor (c :: cs) (first ++ image) := by
  obtain ⟨images, himages, rfl⟩ := h
  exact ⟨first :: images, .cons hfirst himages, rfl⟩

/-- A special character has not become one. -/
theorem mem_of_mem (h : MildFor cs image) {d : Char} (hspecial : isSpecial d = true)
    (hd : d ∈ image) : d ∈ cs := by
  obtain ⟨images, himages, rfl⟩ := h
  induction himages with
  | nil => exact hd
  | cons hfirst _ ih =>
    rw [List.flatten_cons] at hd
    rcases List.mem_append.1 hd with hd | hd
    · rw [hfirst.2 d hd hspecial] at hd
      rw [List.mem_singleton.1 hd]
      exact List.mem_cons_self
    · exact List.mem_cons_of_mem _ (ih hd)

/-- Special characters at the beginning have been there before. -/
theorem isPrefixOf {marks : List Char} (h : MildFor cs image)
    (hspecial : ∀ d ∈ marks, isSpecial d = true) (hmarks : marks <+: image) : marks <+: cs := by
  obtain ⟨images, himages, rfl⟩ := h
  induction marks generalizing cs images with
  | nil => exact List.nil_prefix
  | cons d marks ih =>
    cases himages with
    | nil => exact hmarks
    | @cons c first cs images hfirst hrest =>
      cases first with
      | nil => exact absurd rfl hfirst.1
      | cons e first =>
        rw [List.flatten_cons, List.cons_append, List.cons_prefix_cons] at hmarks
        obtain ⟨rfl, hmarks⟩ := hmarks
        -- A special character is all of its own image.
        cases hfirst.2 d List.mem_cons_self (hspecial d List.mem_cons_self)
        exact List.cons_prefix_cons.2
          ⟨rfl, ih (fun e he => hspecial e (List.mem_cons_of_mem _ he)) images hrest hmarks⟩

theorem eq_nil_iff (h : MildFor cs image) : image = [] ↔ cs = [] := by
  obtain ⟨images, himages, rfl⟩ := h
  cases himages with
  | nil => exact Iff.rfl
  | cons hfirst _ =>
    simp only [List.flatten_cons, List.append_eq_nil_iff, hfirst.1, false_and, List.cons_ne_nil]

end MildFor

theorem mildFor_lowerFrom (before cs : List Char) : MildFor cs (lowerFrom before cs) := by
  induction cs generalizing before with
  | nil => exact .refl []
  | cons c cs ih =>
    rw [lowerFrom]
    refine .cons ?_ (ih (c :: before))
    split
    · refine mild_of_isOutside (List.cons_ne_nil _ _) (List.forall_mem_singleton.2 ?_)
      split <;> decide
    · exact mild_lowerOf c

theorem mildFor_flatMap_upperOf (cs : List Char) : MildFor cs (cs.flatMap upperOf) := by
  induction cs with
  | nil => exact .refl []
  | cons c cs ih => exact .cons (mild_upperOf c) ih

theorem Casing.mildFor_apply (casing : Casing) (word : String) :
    MildFor word.toList (casing.apply word).toList := by
  cases casing with
  | keep => exact .refl _
  | upper =>
    rw [Casing.apply, upperCase, String.toList_ofList]
    exact mildFor_flatMap_upperOf _
  | lower =>
    rw [Casing.apply, lowerCase, String.toList_ofList]
    exact mildFor_lowerFrom [] _

/-- Only the empty word becomes empty. -/
theorem Casing.apply_eq_empty_iff {casing : Casing} {word : String} :
    casing.apply word = "" ↔ word = "" := by
  rw [← String.toList_eq_nil_iff, (mildFor_apply casing word).eq_nil_iff,
    String.toList_eq_nil_iff]

/-- A word without blanks stays one. -/
theorem IsUnbroken.apply {word : String} (h : IsUnbroken word) (casing : Casing) :
    IsUnbroken (casing.apply word) := by
  intro c hc
  by_contra hblank
  rw [Bool.not_eq_false] at hblank
  -- A blank is special, so it would have been in the word before.
  have hspecial : isSpecial c = true := by rw [isSpecial, hblank]; rfl
  rw [h c ((casing.mildFor_apply word).mem_of_mem hspecial hc)] at hblank
  cases hblank

/-- A word that could be one of a template: it holds no blank and no colon, and it could not be
taken for a marker. -/
structure IsLegalWord (word : String) : Prop where
  /-- No character is blank. -/
  unbroken : IsUnbroken word
  /-- No colon parts the word. -/
  noColon : ':' ∉ word.toList
  /-- The word begins no marker. -/
  unreserved : ¬ reservedPrefix.toList <+: word.toList

theorem isLegalWord_empty : IsLegalWord "" :=
  ⟨fun _ h => absurd h (by simp), by simp, by decide⟩

/-- A word stays legal in every letter case. -/
theorem IsLegalWord.apply {word : String} (h : IsLegalWord word) (casing : Casing) :
    IsLegalWord (casing.apply word) := by
  have hmild := casing.mildFor_apply word
  exact ⟨h.unbroken.apply casing, fun hcolon => h.noColon (hmild.mem_of_mem rfl hcolon),
    fun hprefix => h.unreserved (hmild.isPrefixOf (List.all_eq_true.1 (by decide)) hprefix)⟩

end Phrasebook
