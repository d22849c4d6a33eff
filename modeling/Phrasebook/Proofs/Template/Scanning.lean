import Mathlib.Data.List.DropRight
import Mathlib.Data.List.TakeWhile
import Phrasebook.Proofs.Outcome
import Phrasebook.Template.Parser

/-!
# How texts begin

A text is cut into tokens from its beginning. What the first token is depends on the first
character: a blank is passed over, a bracket is a token, an angle bracket or a brace begins what
is one token up to the bracket that closes it, and any other character begins a word, which goes on
as far as it can. This file has an equation for each of these beginnings.

* `Text.trimChars_eq_self_iff`: what trimming leaves as it is.
* `Token.Enclosure`: the brackets around what is one token.
* `Token.char_cases`: the characters with which a text can begin.
* `Token.scan_blank`, `Token.scan_bracket`, `Token.scan_enclosed`, `Token.scan_unclosed`,
  `Token.scan_stray`, `Token.scan_wordChar`: what is read of a text that begins in each of these
  ways.
* `Token.forall_of_scan`: what holds of every token of a text.
-/

namespace Phrasebook

/-! ### Trimming -/

namespace Text

variable {cs : List Char}

/-- No blank stands at either end of what is trimmed. -/
theorem ends_trimChars (cs : List Char) :
    (∀ c ∈ (trimChars cs).head?, isBlank c = false) ∧
      ∀ c ∈ (trimChars cs).getLast?, isBlank c = false := by
  rw [show trimChars cs = (cs.dropWhile isBlank).rdropWhile isBlank from rfl]
  constructor
  · intro c hc
    -- What is dropped at the back leaves the front as it is.
    obtain ⟨behind, hbehind⟩ := List.rdropWhile_prefix isBlank (cs.dropWhile isBlank)
    have hnot := List.head?_dropWhile_not isBlank cs
    rw [← hbehind, List.head?_append, Option.mem_def.1 hc] at hnot
    simpa using hnot
  · intro c hc
    have hne : (cs.dropWhile isBlank).rdropWhile isBlank ≠ [] := by
      rintro hnil
      rw [hnil] at hc
      cases hc
    rw [List.getLast?_eq_some_getLast hne] at hc
    cases hc
    simpa using List.rdropWhile_last_not isBlank _ hne

/-- Trimming leaves a text as it is exactly when no blank stands at either end. -/
theorem trimChars_eq_self_iff :
    trimChars cs = cs ↔
      (∀ c ∈ cs.head?, isBlank c = false) ∧ ∀ c ∈ cs.getLast?, isBlank c = false := by
  constructor
  · intro h
    rw [← h]
    exact ends_trimChars cs
  · rintro ⟨hhead, hlast⟩
    have hfront : cs.dropWhile isBlank = cs := by
      cases cs with
      | nil => rfl
      | cons c cs => exact List.dropWhile_cons_of_neg (by simp [hhead c rfl])
    show (cs.dropWhile isBlank).rdropWhile isBlank = cs
    rw [hfront, List.rdropWhile_eq_self_iff]
    intro hne
    simp [hlast _ (List.getLast?_eq_some_getLast hne)]

theorem trimChars_trimChars (cs : List Char) : trimChars (trimChars cs) = trimChars cs :=
  trimChars_eq_self_iff.2 (ends_trimChars cs)

/-- The characters that are left of a text are some of its own. -/
theorem mem_of_mem_trimChars {c : Char} (h : c ∈ trimChars cs) : c ∈ cs := by
  rw [trimChars, List.mem_reverse] at h
  have h := List.mem_reverse.1 ((List.dropWhile_sublist isBlank).mem h)
  exact (List.dropWhile_sublist isBlank).mem h

/-- An unbroken text is not trimmed. -/
theorem trimChars_of_forall (h : ∀ c ∈ cs, isBlank c = false) : trimChars cs = cs :=
  trimChars_eq_self_iff.2
    ⟨fun c hc => h c (List.mem_of_mem_head? hc), fun c hc => h c (List.mem_of_getLast? hc)⟩

/-- Where a mark separates an unbroken text from a trimmed one, nothing is trimmed. -/
theorem trimChars_append_cons {mark : Char} {rest : List Char} (hne : cs ≠ [])
    (h : ∀ c ∈ cs, isBlank c = false) (hmark : isBlank mark = false)
    (hrest : trimChars rest = rest) : trimChars (cs ++ mark :: rest) = cs ++ mark :: rest := by
  refine trimChars_eq_self_iff.2 ⟨fun c hc => ?_, fun c hc => ?_⟩
  · rw [List.head?_append_of_ne_nil _ hne] at hc
    exact h c (List.mem_of_mem_head? hc)
  · -- The text ends as its second part does, or with the mark.
    rw [List.getLast?_append, List.getLast?_cons] at hc
    cases hlast : rest.getLast? with
    | none =>
      rw [hlast] at hc
      cases hc
      exact hmark
    | some d =>
      rw [hlast] at hc
      cases hc
      exact (trimChars_eq_self_iff.1 hrest).2 _ hlast

end Text

namespace Token

variable {touching : Bool} {c : Char} {cs run rest : List Char}

/-! ### Beginnings -/

/-- What is read of a text that begins with a token: the token, and the tokens of what is behind
it. -/
def thenScan (touching : Bool) (token : Except SyntaxFault Token) (rest : List Char) :
    Except SyntaxFault (List Lexeme) :=
  token >>= fun token => (⟨token, touching⟩ :: ·) <$> scan true rest

theorem scan_nil : scan touching [] = .ok [] := by
  rw [scan]

theorem scan_blank (h : isBlank c = true) : scan touching (c :: cs) = scan false cs := by
  rw [scan, if_pos h]

/-- No bracket that stands for itself is a blank. -/
theorem isBlank_of_ofBracket? {token : Token} (h : ofBracket? c = some token) :
    isBlank c = false := by
  unfold ofBracket? at h
  split at h <;> first | rfl | cases h

theorem isWordChar_of_ofBracket? {token : Token} (h : ofBracket? c = some token) :
    isWordChar c = false := by
  unfold ofBracket? at h
  split at h <;> first | rfl | cases h

theorem scan_bracket {token : Token} (h : ofBracket? c = some token) :
    scan touching (c :: cs) = thenScan touching (.ok token) cs := by
  rw [scan, if_neg (by simp [isBlank_of_ofBracket? h])]
  simp only [h]
  rfl

/-- The brackets around what is one token. -/
inductive Enclosure
  /-- Angle brackets, around a reference to a rule. -/
  | angles
  /-- Braces, around a tag. -/
  | braces

namespace Enclosure

/-- The character before the token. -/
def opening : Enclosure → Char
  | angles => '<'
  | braces => '\x7b'

/-- The character behind the token. -/
def closing : Enclosure → Char
  | angles => '>'
  | braces => '\x7d'

/-- The token of what stands between the brackets. -/
def ofBody : Enclosure → List Char → Except SyntaxFault Token
  | angles => ofRuleBody
  | braces => ofTagBody

end Enclosure

theorem ne_closing_of_ofBracket? {token : Token} (h : ofBracket? c = some token)
    (e : Enclosure) : c ≠ e.closing := by
  rintro rfl
  cases e <;> cases h

/-- A token in brackets goes up to the first one that closes it. -/
theorem scan_enclosed (e : Enclosure) {body : List Char} (h : e.closing ∉ body) :
    scan touching (e.opening :: (body ++ e.closing :: rest)) =
      thenScan touching (e.ofBody body) rest := by
  have hcut : Text.cutAt e.closing (body ++ e.closing :: rest) = some (body, rest) :=
    Text.cutAt_eq_some_iff.2 ⟨rfl, h⟩
  have hbracket : ofBracket? e.opening = none := by cases e <;> rfl
  cases e <;>
  · simp only [Enclosure.opening, Enclosure.closing] at hcut hbracket ⊢
    rw [scan, if_neg (by decide)]
    simp only [hbracket, Char.reduceEq, ↓reduceIte]
    split
    · next hnone => cases hcut.symm.trans hnone
    · next hsome =>
      cases hcut.symm.trans hsome
      rfl

/-- Where nothing closes the bracket, the text is refused. -/
theorem scan_unclosed (e : Enclosure) (h : e.closing ∉ cs) :
    scan touching (e.opening :: cs) = .error (.unbalanced e.opening) := by
  have hcut : Text.cutAt e.closing cs = none := Text.cutAt_eq_none_iff.2 h
  have hbracket : ofBracket? e.opening = none := by cases e <;> rfl
  cases e <;>
  · simp only [Enclosure.opening, Enclosure.closing] at hcut hbracket ⊢
    rw [scan, if_neg (by decide)]
    simp only [hbracket, Char.reduceEq, ↓reduceIte]
    split
    · rfl
    · next hsome => cases hcut.symm.trans hsome

/-- A bracket is refused that closes nothing. -/
theorem scan_stray (e : Enclosure) :
    scan touching (e.closing :: cs) = .error (.unbalanced e.closing) := by
  cases e <;>
  · rw [scan, if_neg (by decide)]
    simp [Enclosure.closing, ofBracket?]

/-- A character that begins none of the other tokens is no bracket. -/
theorem isBracket_eq_false (hnone : ofBracket? c = none) (hangle : ¬ c = '<')
    (hbrace : ¬ c = '{') (hclose : ¬ (c = '>' ∨ c = '}')) : isBracket c = false := by
  have hself : ¬ (c = '(' ∨ c = ')' ∨ c = '[' ∨ c = ']' ∨ c = '|') := by
    rintro (rfl | rfl | rfl | rfl | rfl) <;> cases hnone
  simp only [not_or] at hself hclose
  simp [isBracket, hself, hangle, hbrace, hclose]

/-- A character with which a text can begin is a blank, a bracket, one of the two kinds around what
is one token, or part of a word. -/
theorem char_cases (c : Char) :
    isBlank c = true ∨ (∃ token, ofBracket? c = some token) ∨
      (∃ e : Enclosure, c = e.opening) ∨ (∃ e : Enclosure, c = e.closing) ∨
        isWordChar c = true := by
  by_cases hblank : isBlank c = true
  · exact .inl hblank
  refine .inr ?_
  cases hbracket : ofBracket? c with
  | some token => exact .inl ⟨token, rfl⟩
  | none =>
    refine .inr ?_
    by_cases hangle : c = '<'
    · exact .inl ⟨.angles, hangle⟩
    by_cases hbrace : c = '\x7b'
    · exact .inl ⟨.braces, hbrace⟩
    refine .inr ?_
    by_cases hclose : c = '>' ∨ c = '\x7d'
    · rcases hclose with hclose | hclose
      · exact .inl ⟨.angles, hclose⟩
      · exact .inl ⟨.braces, hclose⟩
    · right
      simp [isWordChar, hblank, isBracket_eq_false hbracket hangle hbrace hclose]

theorem isBlank_of_isWordChar (h : isWordChar c = true) : isBlank c = false := by
  rw [isWordChar, Bool.and_eq_true, Bool.not_eq_true'] at h
  exact h.1

/-- What is part of a word begins none of the other tokens. -/
theorem begins_of_isWordChar (h : isWordChar c = true) :
    isBlank c = false ∧ ofBracket? c = none ∧ (∀ e : Enclosure, c ≠ e.opening) ∧
      ∀ e : Enclosure, c ≠ e.closing := by
  rw [isWordChar, Bool.and_eq_true, Bool.not_eq_true', Bool.not_eq_true'] at h
  obtain ⟨hblank, hbracket⟩ := h
  simp only [isBracket, Bool.or_eq_false_iff, beq_eq_false_iff_ne] at hbracket
  refine ⟨hblank, ?_, ?_, ?_⟩
  · unfold ofBracket?
    split <;> simp_all
  · rintro (_ | _) <;> simp [Enclosure.opening, hbracket]
  · rintro (_ | _) <;> simp [Enclosure.closing, hbracket]

/-- A word goes on as far as it can. -/
theorem scan_wordChar (h : isWordChar c = true) :
    scan touching (c :: cs) =
      thenScan touching (ofWord (c :: cs.takeWhile isWordChar)) (cs.dropWhile isWordChar) := by
  obtain ⟨hblank, hbracket, hopening, hclosing⟩ := begins_of_isWordChar h
  rw [scan, if_neg (by simp [hblank])]
  simp only [hbracket]
  rw [if_neg (show ¬ c = '<' from hopening .angles),
    if_neg (show ¬ c = '\x7b' from hopening .braces),
    if_neg (show ¬ (c = '>' ∨ c = '\x7d') from not_or.2 ⟨hclosing .angles, hclosing .braces⟩)]
  rfl

/-- What is left of a text behind its first word does not go on with it, whatever comes next. -/
theorem head?_dropWhile_append (h : ∀ c ∈ rest.head?, isWordChar c = false) :
    ∀ c ∈ (cs.dropWhile isWordChar ++ rest).head?, isWordChar c = false := by
  intro c hc
  have hnot := List.head?_dropWhile_not isWordChar cs
  cases hleft : cs.dropWhile isWordChar with
  | nil =>
    rw [hleft, List.nil_append] at hc
    exact h c hc
  | cons d ds =>
    rw [hleft] at hc hnot
    cases hc
    simpa using hnot

/-- A run of word characters is a word where the text does not go on with another one. -/
theorem scan_word (hne : run ≠ []) (hrun : ∀ c ∈ run, isWordChar c = true)
    (hrest : ∀ c ∈ rest.head?, isWordChar c = false) :
    scan touching (run ++ rest) = thenScan touching (ofWord run) rest := by
  obtain ⟨c, cs, rfl⟩ := List.exists_cons_of_ne_nil hne
  obtain ⟨hc, hcs⟩ := List.forall_mem_cons.1 hrun
  have hends : rest.takeWhile isWordChar = [] ∧ rest.dropWhile isWordChar = rest := by
    cases rest with
    | nil => exact ⟨rfl, rfl⟩
    | cons d rest => simp [hrest d rfl]
  rw [List.cons_append, scan_wordChar hc, List.takeWhile_append_of_pos hcs,
    List.dropWhile_append_of_pos hcs, hends.1, hends.2, List.append_nil]

/-! ### All tokens -/

/-- What holds of every token that is read by itself holds of the tokens of a text. Of what is read
of a reference, of a tag or of a word none ends it. -/
theorem forall_of_scan {P : Token → Prop}
    (hbracket : ∀ {c token}, ofBracket? c = some token → P token)
    (hrule : ∀ {body token}, '>' ∉ body → ofRuleBody body = .ok token → P token)
    (htag : ∀ {body token}, '}' ∉ body → ofTagBody body = .ok token → P token)
    (hword : ∀ {run token}, (∀ c ∈ run, isWordChar c = true) → ofWord run = .ok token → P token)
    {lexemes : List Lexeme} (h : scan touching cs = .ok lexemes) :
    ∀ lexeme ∈ lexemes, P lexeme.token := by
  -- Every token of the text comes from a token that is read first and the scan of what is left.
  have hcons : ∀ {token : Token} {rest : Except SyntaxFault (List Lexeme)}
      {touching : Bool} {lexemes : List Lexeme},
      P token → (∀ lexemes, rest = .ok lexemes → ∀ lexeme ∈ lexemes, P lexeme.token) →
      (do return ⟨token, touching⟩ :: (← rest)) = Except.ok lexemes →
      ∀ lexeme ∈ lexemes, P lexeme.token := by
    intro token rest touching lexemes htoken hrest h
    obtain ⟨others, hothers, h⟩ := bind_eq_ok_iff.1 h
    cases h
    exact List.forall_mem_cons.2 ⟨htoken, hrest others hothers⟩
  fun_induction scan touching cs generalizing lexemes with
  | case1 => cases h; exact fun _ hmem => absurd hmem List.not_mem_nil
  | case2 touching c cs hblank ih => exact ih h
  | case3 touching c cs hblank token htoken ih =>
    exact hcons (hbracket htoken) (fun _ => ih) h
  | case4 => cases h
  | case5 touching cs body rest hcut hlength hblank hnone ih =>
    obtain ⟨token, htoken, h⟩ := bind_eq_ok_iff.1 h
    exact hcons (hrule (Text.cutAt_eq_some_iff.1 hcut).2 htoken) (fun _ => ih) h
  | case6 => cases h
  | case7 touching cs body rest hcut hlength hblank hnone hangle ih =>
    obtain ⟨token, htoken, h⟩ := bind_eq_ok_iff.1 h
    exact hcons (htag (Text.cutAt_eq_some_iff.1 hcut).2 htoken) (fun _ => ih) h
  | case8 => cases h
  | case9 touching c cs hblank hnone hangle hbrace hclose hlength ih =>
    obtain ⟨token, htoken, h⟩ := bind_eq_ok_iff.1 h
    refine hcons (hword (List.forall_mem_cons.2 ⟨?_, fun d => List.mem_takeWhile_imp⟩) htoken)
      (fun _ => ih) h
    -- What begins a word is neither blank nor a bracket.
    rw [isWordChar, Bool.eq_false_iff.2 hblank, isBracket_eq_false hnone hangle hbrace hclose]
    rfl

end Token

end Phrasebook
