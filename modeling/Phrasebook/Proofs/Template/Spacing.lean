import Mathlib.Logic.Relation
import Phrasebook.Proofs.Template.Scanning

/-!
# Blanks in templates

Blanks only separate tokens. The reader sees of them whether a word touches the token before it,
and looks at this only where that token closes a bracket and the word begins with a colon. So a
template is read alike however its tokens are spaced, as long as this is kept. Inside angle brackets
and braces blanks are part of what is read there.

* `Parser.settle`: tokens of which only those are still touching for which this matters.
* `Parser.ofLexemes_settle`: the reader makes the same of them.
* `Token.reading`: the tokens of a text as far as they matter to the reader.
* `Outside`: a place in a text that is outside of references to rules and of tags.
* `Outside.reading_congr`: what stands before such a place is read alike whatever is behind it.
* `Respaced`: a text with other blanks.
* `Template.ofLine_eq_of_respaced`: it is read as the same template, or refused for the same fault.
-/

namespace Phrasebook

namespace Token

/-- The token closes a bracket that holds a template. -/
def closes : Token → Bool
  | closeGroup | closeOption => true
  | _ => false

/-- The token is a word that can be the value of a bracket. -/
def isValue : Token → Bool
  | word text => (Text.after? ":" text).isSome
  | _ => false

end Token

namespace Template

namespace Parser

/-! ### What the reader looks at -/

/-- Whether a token touches the one before it matters only if it can be the value of a bracket that
the one before it closes. -/
def settleFirst (closed : Bool) (lexeme : Lexeme) : Lexeme :=
  { lexeme with touching := lexeme.touching && (closed && lexeme.token.isValue) }

/-- The tokens behind one that has `closed` a bracket or not, of which only those are still touching
for which this matters. -/
def settle : (closed : Bool) → List Lexeme → List Lexeme
  | _, [] => []
  | closed, lexeme :: lexemes =>
    settleFirst closed lexeme :: settle lexeme.token.closes lexemes

namespace State

/-- The reader sees nothing else of the blanks before a token. -/
theorem step_settleFirst (s : State) (lexeme : Lexeme) :
    s.step (settleFirst s.closed lexeme) = s.step lexeme := by
  obtain ⟨token, touching⟩ := lexeme
  cases token with
  -- Of words alone the reader asks whether they touch what is before them.
  | word text =>
    have hsame : s.substitution? (settleFirst s.closed ⟨.word text, touching⟩) =
        s.substitution? ⟨.word text, touching⟩ := by
      cases touching with
      | false => rfl
      | true =>
        cases hclosed : s.closed <;> cases hafter : Text.after? ":" text <;>
          simp [settleFirst, Token.isValue, substitution?, hclosed, hafter]
    unfold step
    simp only [hsame]
    rfl
  | _ => rfl

/-- After a token, the reader knows whether it closed a bracket. -/
theorem closed_of_step {s s' : State} {lexeme : Lexeme} (h : s.step lexeme = .ok s') :
    s'.closed = lexeme.token.closes := by
  have hleave : ∀ {bracket closing wrap}, s.leave bracket closing wrap = .ok s' →
      s'.closed = true := by
    intro bracket closing wrap h
    unfold leave at h
    split at h
    · cases h
    · split at h <;> cases h
      rfl
  have hlast : ∀ {f}, s.mapLast? f = some s' → s'.closed = false := by
    intro f h
    unfold mapLast? at h
    split at h <;> cases h
    rfl
  obtain ⟨token, touching⟩ := lexeme
  cases token with
  -- A token that closes a bracket leaves it, and no other one does.
  | closeGroup => exact hleave h
  | closeOption => exact hleave h
  | tag tag =>
    dsimp only [step] at h
    split at h <;> cases h
    next h => exact hlast h
  | word text =>
    dsimp only [step] at h
    split at h
    · next h' =>
      cases h
      obtain ⟨value, -, hmap⟩ := Option.bind_eq_some_iff.1 h'
      exact hlast hmap
    · obtain ⟨t, -, h⟩ := bind_eq_ok_iff.1 h
      cases h
      rfl
  | _ => cases h; rfl

/-- Nor does it see anything else of the blanks in many tokens. -/
theorem foldlM_settle (s : State) (lexemes : List Lexeme) :
    (settle s.closed lexemes).foldlM step s = lexemes.foldlM step s := by
  induction lexemes generalizing s with
  | nil => rfl
  | cons lexeme lexemes ih =>
    rw [settle, List.foldlM_cons, List.foldlM_cons, step_settleFirst]
    cases hstep : s.step lexeme with
    | error fault => rfl
    | ok s' =>
      -- The state behind the token knows of it what `settle` goes by.
      rw [← closed_of_step hstep]
      exact ih s'

end State

/-- Tokens make the same template, or none for the same fault. -/
theorem ofLexemes_settle (lexemes : List Lexeme) :
    ofLexemes (settle false lexemes) = ofLexemes lexemes :=
  congrArg (· >>= State.finish) (State.foldlM_settle .initial lexemes)

end Parser

end Template

/-! ### Tokens as far as they matter -/

namespace Token

open Template.Parser

variable {closed touching : Bool} {c : Char} {cs run rest x y : List Char}

/-- The tokens of a text behind a token, as far as they matter to the reader. -/
def reading (closed touching : Bool) (cs : List Char) : Except SyntaxFault (List Lexeme) :=
  settle closed <$> scan touching cs

theorem reading_eq {token : Except SyntaxFault Token}
    (h : scan touching cs = thenScan touching token rest) :
    reading closed touching cs = token >>= fun token =>
      (settleFirst closed ⟨token, touching⟩ :: ·) <$> reading token.closes true rest := by
  rw [reading, h, thenScan]
  cases token with
  | error fault => rfl
  | ok token =>
    -- What is settled of the other tokens depends on this one, not on those before it.
    show settle closed <$> (_ <$> scan true rest) = _ <$> (_ <$> scan true rest)
    cases scan true rest <;> rfl

theorem reading_blank (h : isBlank c = true) :
    reading closed touching (c :: cs) = reading closed false cs := by
  rw [reading, scan_blank h, reading]

/-- Where there are blanks, it does not matter how many and which. -/
theorem reading_blanks {blanks : List Char} (h : ∀ c ∈ blanks, isBlank c = true)
    (hne : blanks ≠ []) : reading closed touching (blanks ++ cs) = reading closed false cs := by
  induction blanks generalizing touching with
  | nil => exact absurd rfl hne
  | cons c blanks ih =>
    obtain ⟨hc, hblanks⟩ := List.forall_mem_cons.1 h
    rw [List.cons_append, reading_blank hc]
    -- Behind the first blank nothing touches any more.
    cases blanks with
    | nil => rfl
    | cons d blanks => exact ih hblanks (List.cons_ne_nil _ _)

/-- No bracket that stands for itself can be the value of one. -/
theorem isValue_of_ofBracket? {token : Token} (h : ofBracket? c = some token) :
    token.isValue = false := by
  unfold ofBracket? at h
  split at h <;> cases h <;> rfl

/-- Only round and square brackets that close something can be given a value. -/
theorem eq_of_closes {token : Token} (h : ofBracket? c = some token)
    (hcloses : token.closes = true) : c = ')' ∨ c = ']' := by
  unfold ofBracket? at h
  split at h <;> cases h <;> first | exact .inl rfl | exact .inr rfl | cases hcloses

/-- No reference to a rule can be the value of a bracket, and no tag. -/
theorem isValue_of_ofBody {e : Enclosure} {body : List Char} {token : Token}
    (h : e.ofBody body = .ok token) : token.isValue = false := by
  cases e with
  | angles =>
    simp only [Enclosure.ofBody, ofRuleBody] at h
    split at h <;> cases h
    rfl
  | braces =>
    cases hcut : Text.cutAt ':' (Text.trimChars body) <;>
      simp only [Enclosure.ofBody, ofTagBody, hcut] at h <;> split at h <;> cases h <;> rfl

/-- A word can be the value of a bracket only if it begins with a colon. -/
theorem eq_colon_of_ofWord {token : Token} (h : ofWord (c :: cs) = .ok token)
    (hvalue : token.isValue = true) : c = ':' := by
  unfold ofWord at h
  split at h <;> cases h
  · cases hvalue
  · obtain ⟨value, hafter⟩ := Option.isSome_iff_exists.1 hvalue
    have htext := congrArg String.toList (Text.after?_eq_some_iff.1 hafter)
    rw [String.toList_ofList, String.toList_append] at htext
    exact (List.cons.inj htext).1

theorem reading_bracket {token : Token} (h : ofBracket? c = some token) :
    reading closed touching (c :: cs) =
      (⟨token, false⟩ :: ·) <$> reading token.closes true cs := by
  rw [reading_eq (scan_bracket h)]
  show (settleFirst closed ⟨token, touching⟩ :: ·) <$> reading token.closes true cs = _
  rw [settleFirst, isValue_of_ofBracket? h, Bool.and_false, Bool.and_false]

/-- A text that begins with no blank begins with a token, or with something that is refused. Only a
colon begins a word that can be the value of a bracket. -/
theorem exists_thenScan (c : Char) (cs : List Char) (hblank : isBlank c = false) :
    ∃ token rest, (∀ touching, scan touching (c :: cs) = thenScan touching token rest) ∧
      ∀ t, token = .ok t → t.isValue = true → c = ':' := by
  rcases char_cases c with h | ⟨token, h⟩ | ⟨e, rfl⟩ | ⟨e, rfl⟩ | h
  · rw [hblank] at h
    cases h
  · refine ⟨_, _, fun _ => scan_bracket h, ?_⟩
    intro t ht hvalue
    cases ht
    rw [isValue_of_ofBracket? h] at hvalue
    cases hvalue
  · cases hcut : Text.cutAt e.closing cs with
    | none =>
      -- Nothing closes the bracket.
      refine ⟨.error _, [], fun _ => scan_unclosed e (Text.cutAt_eq_none_iff.1 hcut), ?_⟩
      intro _ h
      cases h
    | some parts =>
      obtain ⟨body, rest⟩ := parts
      obtain ⟨rfl, hbody⟩ := Text.cutAt_eq_some_iff.1 hcut
      refine ⟨_, _, fun _ => scan_enclosed e hbody, ?_⟩
      intro t ht hvalue
      rw [isValue_of_ofBody ht] at hvalue
      cases hvalue
  · refine ⟨.error _, [], fun _ => scan_stray e, ?_⟩
    intro _ h
    cases h
  · exact ⟨_, _, fun _ => scan_wordChar h, fun _ => eq_colon_of_ofWord⟩

/-- Whether a text touches the token before it matters only if that token closes a bracket and the
text begins with a colon. -/
theorem reading_touching (h : closed = true → cs.head? ≠ some ':') :
    reading closed true cs = reading closed false cs := by
  cases cs with
  | nil => rw [reading, reading, scan_nil, scan_nil]
  | cons c cs =>
    cases hblank : isBlank c with
    | true => rw [reading_blank hblank, reading_blank hblank]
    | false =>
      obtain ⟨token, rest, hscan, hvalue⟩ := exists_thenScan c cs hblank
      rw [reading_eq (hscan true), reading_eq (hscan false)]
      cases token with
      | error fault => rfl
      | ok t =>
        -- The first token does not touch what it could be the value of, or it could not be one.
        have hmatters : (closed && t.isValue) = false := by
          rw [Bool.and_eq_false_imp]
          intro hclosed
          by_contra hnot
          exact h hclosed (congrArg some (hvalue t rfl (by simpa using hnot)))
        show (settleFirst closed ⟨t, true⟩ :: ·) <$> reading t.closes true rest =
          (settleFirst closed ⟨t, false⟩ :: ·) <$> reading t.closes true rest
        simp only [settleFirst, hmatters, Bool.and_false]

end Token

/-! ### Places outside of references and tags -/

open Token

/-- The place between two parts of a text is outside of angle brackets and braces that are closed
again. -/
inductive Outside : (before after : List Char) → Prop
  /-- The place is at the beginning. -/
  | start {after : List Char} : Outside [] after
  /-- The text begins with no such bracket. -/
  | char {c : Char} {before after : List Char} (hc : ∀ e : Enclosure, c ≠ e.opening)
    (rest : Outside before after) : Outside (c :: before) after
  /-- The text begins with a bracket that is closed before the place. -/
  | enclosed (e : Enclosure) {body before after : List Char} (hbody : e.closing ∉ body)
    (rest : Outside before after) :
    Outside (e.opening :: (body ++ e.closing :: before)) after
  /-- The text begins with a bracket that is never closed. -/
  | unclosed (e : Enclosure) {before after : List Char} (hbefore : e.closing ∉ before)
    (hafter : e.closing ∉ after) : Outside (e.opening :: before) after

/-- Two texts are read alike wherever they stand behind another text. -/
structure Alike (x y : List Char) : Prop where
  /-- They close the same brackets. -/
  closing : ∀ e : Enclosure, e.closing ∈ x ↔ e.closing ∈ y
  /-- No word goes on with the first one. -/
  left : ∀ c ∈ x.head?, isWordChar c = false
  /-- No word goes on with the second one. -/
  right : ∀ c ∈ y.head?, isWordChar c = false
  /-- They have the same tokens as far as they matter. -/
  reading_eq : ∀ closed touching, reading closed touching x = reading closed touching y

namespace Outside

variable {before after x y : List Char}

/-- The end of a text is outside of all that is closed in it. -/
theorem of_text (text : List Char) : Outside text [] := by
  induction hlength : text.length using Nat.strong_induction_on generalizing text with
  | _ length ih =>
  subst hlength
  cases text with
  | nil => exact .start
  | cons c cs =>
    by_cases hopens : ∃ e : Enclosure, c = e.opening
    · obtain ⟨e, rfl⟩ := hopens
      cases hcut : Text.cutAt e.closing cs with
      | none => exact .unclosed e (Text.cutAt_eq_none_iff.1 hcut) List.not_mem_nil
      | some parts =>
        obtain ⟨body, rest⟩ := parts
        obtain ⟨rfl, hbody⟩ := Text.cutAt_eq_some_iff.1 hcut
        exact .enclosed e hbody (ih rest.length (by simp; omega) rest rfl)
    · exact .char (not_exists.1 hopens) (ih cs.length (by simp) cs rfl)

/-- A place behind a character that closes nothing is outside only if the place before that
character is. -/
theorem of_append_singleton {c : Char} (hc : ∀ e : Enclosure, c ≠ e.closing)
    (h : Outside (before ++ [c]) after) : Outside before (c :: after) := by
  generalize htext : before ++ [c] = text at h
  induction h generalizing before with
  | start => cases before <;> cases htext
  | char hopens _ ih =>
    cases before with
    | nil => exact .start
    | cons d before =>
      cases htext
      exact .char hopens (ih rfl)
  | @enclosed e body rest _ hbody _ ih =>
    -- The character is not the one that closes the bracket, so it comes after that.
    rcases List.eq_nil_or_concat' rest with rfl | ⟨rest, d, rfl⟩
    · rw [← List.cons_append] at htext
      obtain ⟨-, hlast⟩ := List.append_inj' htext rfl
      exact absurd (List.cons.inj hlast).1 (hc e)
    · have htext : before ++ [c] = (e.opening :: (body ++ e.closing :: rest)) ++ [d] := by
        simpa using htext
      obtain ⟨rfl, hlast⟩ := List.append_inj' htext rfl
      cases hlast
      exact .enclosed e hbody (ih rfl)
  | @unclosed e text _ hbefore hafter =>
    cases before with
    | nil => exact .start
    | cons d before =>
      cases htext
      rw [List.append_eq, List.mem_append, not_or] at hbefore
      refine .unclosed e hbefore.1 ?_
      rw [List.mem_cons, not_or]
      exact ⟨(hc e).symm, hafter⟩

theorem dropWhile (h : Outside before after) : Outside (before.dropWhile isWordChar) after := by
  induction before with
  | nil => exact h
  | cons c before ih =>
    rw [List.dropWhile_cons]
    split
    · next hc =>
      -- A part of a word opens no bracket.
      obtain ⟨-, -, hopening, -⟩ := begins_of_isWordChar hc
      cases h with
      | char _ rest => exact ih rest
      | enclosed e => exact absurd rfl (hopening e)
      | unclosed e => exact absurd rfl (hopening e)
    · exact h

/-- What stands before a place outside of references and tags is read alike whatever is behind it,
if that is read alike. -/
theorem reading_congr (h : Outside before x) (hxy : Alike x y) (closed touching : Bool) :
    reading closed touching (before ++ x) = reading closed touching (before ++ y) := by
  -- The induction is on the length, as a word takes more than one character off the text.
  induction hlength : before.length using Nat.strong_induction_on
    generalizing before closed touching with
  | _ length ih =>
  subst hlength
  cases h with
  | start => exact hxy.reading_eq closed touching
  | @char c before _ hc rest =>
    have hrest := fun closed touching => ih before.length (by simp) rest closed touching rfl
    rcases char_cases c with h | ⟨token, h⟩ | ⟨e, rfl⟩ | ⟨e, rfl⟩ | h
    · rw [List.cons_append, List.cons_append, reading_blank h, reading_blank h, hrest]
    · rw [List.cons_append, List.cons_append, reading_bracket h, reading_bracket h, hrest]
    · exact absurd rfl (hc e)
    · rw [reading, reading, List.cons_append, List.cons_append, scan_stray, scan_stray]
    · -- The word ends before the place, or at it.
      have hsplit : c :: before = (c :: before.takeWhile isWordChar) ++
          before.dropWhile isWordChar := by
        rw [List.cons_append, List.takeWhile_append_dropWhile]
      have hrun : ∀ d ∈ c :: before.takeWhile isWordChar, isWordChar d = true :=
        List.forall_mem_cons.2 ⟨h, fun _ => List.mem_takeWhile_imp⟩
      have hrest := fun closed touching => ih _
        (Nat.lt_succ_of_le (List.dropWhile_sublist isWordChar).length_le) rest.dropWhile
        closed touching rfl
      rw [hsplit, List.append_assoc, List.append_assoc,
        Token.reading_eq (scan_word (List.cons_ne_nil _ _) hrun (head?_dropWhile_append hxy.left)),
        Token.reading_eq (scan_word (List.cons_ne_nil _ _) hrun (head?_dropWhile_append hxy.right))]
      simp only [hrest]
  | @enclosed e body before _ hbody rest =>
    have hrest := fun closed touching => ih before.length (by simp; omega) rest closed touching rfl
    rw [List.cons_append, List.cons_append, List.append_assoc, List.append_assoc, List.cons_append,
      List.cons_append, Token.reading_eq (scan_enclosed e hbody),
      Token.reading_eq (scan_enclosed e hbody)]
    simp only [hrest]
  | @unclosed e before _ hbefore hafter =>
    have hx : e.closing ∉ before ++ x := by simp [hbefore, hafter]
    have hy : e.closing ∉ before ++ y := by simp [hbefore, ← hxy.closing, hafter]
    rw [reading, reading, List.cons_append, List.cons_append, scan_unclosed e hx,
      scan_unclosed e hy]

end Outside

/-! ### Texts with other blanks -/

/-- Some blanks, at least one of them. -/
structure IsBlankRun (run : List Char) : Prop where
  /-- There is a blank. -/
  ne_nil : run ≠ []
  /-- There is nothing else. -/
  blank : ∀ c ∈ run, isBlank c = true

/-- The text ends with a bracket that stands for itself, or with a bar. -/
def EndsWithBracket (text : List Char) : Prop :=
  ∃ c ∈ text.getLast?, ∃ token, ofBracket? c = some token

/-- The text begins with a bracket that opens something, or with one that stands for itself, or with
a bar. -/
def BeginsWithBracket (text : List Char) : Prop :=
  ∃ c ∈ text.head?, (∃ token, ofBracket? c = some token) ∨ ∃ e : Enclosure, c = e.opening

/-- The text goes on with a colon right behind a bracket that is closed there. -/
def GivesValue (before after : List Char) : Prop :=
  (before.getLast? = some ')' ∨ before.getLast? = some ']') ∧ after.head? = some ':'

/-- The second text is the first one with other blanks in one place. -/
inductive Respaced : List Char → List Char → Prop
  /-- Blanks outside of references to rules and of tags are replaced by others. -/
  | replaced {before blanks blanks' after : List Char} (place : Outside before (blanks ++ after))
    (old : IsBlankRun blanks) (new : IsBlankRun blanks') :
    Respaced (before ++ (blanks ++ after)) (before ++ (blanks' ++ after))
  /-- Blanks are put before the text. -/
  | leading {blanks text : List Char} (new : IsBlankRun blanks) : Respaced text (blanks ++ text)
  /-- Blanks are put behind the text. -/
  | trailing {blanks text : List Char} (new : IsBlankRun blanks) : Respaced text (text ++ blanks)
  /-- Blanks are put next to a bracket outside of references to rules and of tags, but not between
  a bracket and its value. -/
  | inserted {before blanks after : List Char} (place : Outside before after)
    (beside : EndsWithBracket before ∨ BeginsWithBracket after)
    (noValue : ¬ GivesValue before after) (new : IsBlankRun blanks) :
    Respaced (before ++ after) (before ++ (blanks ++ after))

namespace IsBlankRun

variable {blanks blanks' after : List Char}

theorem not_mem_closing (h : IsBlankRun blanks) (e : Enclosure) : e.closing ∉ blanks := by
  intro hmem
  have hblank := h.blank _ hmem
  cases e <;> revert hblank <;> decide

theorem head?_append (h : IsBlankRun blanks) :
    ∀ c ∈ (blanks ++ after).head?, isWordChar c = false := by
  intro c hc
  cases blanks with
  | nil => exact absurd rfl h.ne_nil
  | cons b blanks =>
    cases hc
    simp [isWordChar, h.blank c List.mem_cons_self]

theorem reading_append (h : IsBlankRun blanks) (closed touching : Bool) :
    reading closed touching (blanks ++ after) = reading closed false after :=
  reading_blanks h.blank h.ne_nil

/-- Blanks separate whatever they are. -/
theorem alike (h : IsBlankRun blanks) (h' : IsBlankRun blanks') :
    Alike (blanks ++ after) (blanks' ++ after) where
  closing e := by simp [h.not_mem_closing, h'.not_mem_closing]
  left := h.head?_append
  right := h'.head?_append
  reading_eq closed touching := by rw [h.reading_append, h'.reading_append]

/-- Blanks at the end are nothing. -/
theorem alike_nil (h : IsBlankRun blanks) : Alike [] blanks where
  closing e := by simp [h.not_mem_closing]
  left _ hc := by cases hc
  right := by
    have hhead : ∀ c ∈ (blanks ++ []).head?, isWordChar c = false := h.head?_append
    rwa [List.append_nil] at hhead
  reading_eq closed touching := by
    rw [← List.append_nil blanks, h.reading_append, reading, reading, scan_nil, scan_nil]

end IsBlankRun

section Inserted

variable {blanks after : List Char}

/-- Blanks before a bracket only separate it from what is before it. -/
theorem BeginsWithBracket.alike (h : BeginsWithBracket after) (new : IsBlankRun blanks) :
    Alike after (blanks ++ after) := by
  obtain ⟨c, hc, hbracket⟩ := h
  have hbegins : isWordChar c = false ∧ c ≠ ':' := by
    rcases hbracket with ⟨token, htoken⟩ | ⟨e, rfl⟩
    · refine ⟨isWordChar_of_ofBracket? htoken, ?_⟩
      rintro rfl
      cases htoken
    · cases e <;> decide
  refine ⟨fun e => by simp [new.not_mem_closing], ?_, new.head?_append, ?_⟩
  · intro d hd
    cases hc.symm.trans hd
    exact hbegins.1
  · intro closed touching
    rw [new.reading_append]
    cases touching with
    | false => rfl
    | true =>
      refine reading_touching fun _ hcolon => hbegins.2 ?_
      exact Option.some.inj (hc.symm.trans hcolon)

/-- Blanks behind a bracket only separate it from what is behind it. -/
theorem alike_behind {c : Char} {token : Token} (h : ofBracket? c = some token)
    (hcolon : token.closes = true → after.head? ≠ some ':') (new : IsBlankRun blanks) :
    Alike (c :: after) (c :: (blanks ++ after)) := by
  refine ⟨fun e => by simp [new.not_mem_closing], ?_, ?_, ?_⟩
  · rintro _ ⟨⟩
    exact isWordChar_of_ofBracket? h
  · rintro _ ⟨⟩
    exact isWordChar_of_ofBracket? h
  · intro closed touching
    rw [reading_bracket h, reading_bracket h, new.reading_append, reading_touching hcolon]

end Inserted

/-- The tokens of a text are the same with other blanks, as far as they matter. -/
theorem Respaced.reading_eq {cs cs' : List Char} (h : Respaced cs cs') :
    reading false false cs = reading false false cs' := by
  cases h with
  | replaced place old new => exact place.reading_congr (old.alike new) false false
  | leading new => exact (new.reading_append false false).symm
  | trailing new =>
    have hcongr := (Outside.of_text cs).reading_congr new.alike_nil false false
    rwa [List.append_nil] at hcongr
  | @inserted before blanks after place beside noValue new =>
    rcases beside with ⟨c, hc, token, htoken⟩ | hbegins
    · -- The bracket before the place stands behind one that is outside as well.
      obtain ⟨front, rfl⟩ := List.getLast?_eq_some_iff.1 hc
      have place := place.of_append_singleton (ne_closing_of_ofBracket? htoken)
      rw [List.append_assoc, List.append_assoc]
      refine place.reading_congr (alike_behind htoken (fun hcloses hcolon => noValue ?_) new) _ _
      rw [GivesValue, hc, Option.some_inj, Option.some_inj]
      exact ⟨eq_of_closes htoken hcloses, hcolon⟩
    · exact place.reading_congr (hbegins.alike new) _ _

namespace Template

/-- What is read of a text depends on its tokens as far as they matter. -/
theorem ofText_eq_reading (text : String) :
    ofText text = reading false false text.toList >>= Parser.ofLexemes := by
  rw [ofText, reading]
  cases Token.scan false text.toList with
  | error fault => rfl
  | ok lexemes => exact (Parser.ofLexemes_settle lexemes).symm

/-- A line is read as the same template with other blanks outside of references to rules and of
tags, or it is refused with the same message. -/
theorem ofLine_eq_of_respaced {text text' : String}
    (h : Relation.ReflTransGen Respaced text.toList text'.toList) (label : String) (line : Nat) :
    ofLine label line text = ofLine label line text' := by
  have hreading : reading false false text.toList = reading false false text'.toList := by
    generalize text'.toList = cs' at h ⊢
    induction h with
    | refl => rfl
    | tail _ hlast ih => exact ih.trans hlast.reading_eq
  rw [ofLine, ofLine, ofText_eq_reading, ofText_eq_reading, hreading]

-- Between a bracket and its value a blank makes a difference.
example : ofText "(a):b" = .ok (substituted (sequence [word "a" none]) "b") ∧
    ofText "(a) :b" = .ok (sequence [sequence [word "a" none], word "" (some "b")]) := by
  constructor <;> cbv

/-- A blank before a tag, and others in the place of the one behind it. -/
theorem ofLine_eq_of_respaced_tag :
    Relation.ReflTransGen Respaced "< to >\x7bat\x7d go".toList "< to > \x7bat\x7d\t go".toList ∧
      ofLine "Go" 1 "< to >\x7bat\x7d go" = ofLine "Go" 1 "< to > \x7bat\x7d\t go" := by
  have hrule : ∀ {before after}, Outside before after →
      Outside ("< to >".toList ++ before) after := fun {before _} =>
    @Outside.enclosed .angles [' ', 't', 'o', ' '] before _ (by decide)
  have htag : ∀ {after}, Outside "\x7bat\x7d".toList after := fun {after} =>
    @Outside.enclosed .braces ['a', 't'] [] after (by decide) .start
  have hblank : IsBlankRun [' '] := ⟨by decide, List.all_eq_true.1 rfl⟩
  have hblanks : IsBlankRun ['\t', ' '] := ⟨by decide, List.all_eq_true.1 rfl⟩
  have hinserted : Respaced "< to >\x7bat\x7d go".toList "< to > \x7bat\x7d go".toList :=
    .inserted (hrule .start) (.inr ⟨'{', rfl, .inr ⟨.braces, rfl⟩⟩) (by simp [GivesValue]) hblank
  have hreplaced : Respaced "< to > \x7bat\x7d go".toList "< to > \x7bat\x7d\t go".toList :=
    .replaced (hrule (.char (by rintro ⟨⟩ <;> decide) htag)) hblank hblanks
  have h := (Relation.ReflTransGen.single hinserted).tail hreplaced
  exact ⟨h, ofLine_eq_of_respaced h "Go" 1⟩

end Template

end Phrasebook
