import Phrasebook.Proofs.Template.WellFormed

/-!
# Templates are read back

The text of a well-formed template is read as that template. Each part of the text has tokens of its
own, whatever stands behind it, as long as that does not go on with its last word. What stands
between the parts of a template is such that no word goes on there: a blank, a bracket, or what is
right behind a bracket. And the tokens of the parts make the template by the grammar. So the
templates that are read of some text are the well-formed ones.

* `Token.Apart`: two parts of a text are apart.
* `Token.Scans`: a part of a text has some tokens, whatever stands behind it.
* `Template.SpellsItem`, `Template.SpellsSequence`, `Template.SpellsAlternation`: a part of a
  text spells an item, the items of a sequence, and the branches of an alternation.
* `Template.WellFormed.isItem`: the text of a well-formed template spells it.
* `Template.wellFormed_iff_ofLine`: a line can be read as the well-formed templates and as nothing
  else, and their texts are read as themselves.
-/

namespace Phrasebook

/-! ### Texts put together -/

theorem IsPlainText.append {text text' : String} (h : IsPlainText text) (h' : IsPlainText text') :
    IsPlainText (text ++ text') := by
  rw [IsPlainText, String.toList_append]
  exact List.forall_mem_append.2 ⟨h, h'⟩

theorem IsUnbroken.append {text text' : String} (h : IsUnbroken text) (h' : IsUnbroken text') :
    IsUnbroken (text ++ text') := by
  rw [IsUnbroken, String.toList_append]
  exact List.forall_mem_append.2 ⟨h, h'⟩

/-- A colon is part of the word in which it stands. -/
theorem isPlainText_colon : IsPlainText ":" := by
  decide

/-! ### Parts of a text -/

namespace Token

variable {touching : Bool} {cs cs' rest body run : List Char} {lexemes lexemes' : List Lexeme}

/-- No word goes on from the first part of a text to the second. -/
def Apart (cs rest : List Char) : Prop :=
  (∃ c ∈ cs.getLast?, isWordChar c = true) → ∀ c ∈ rest.head?, isWordChar c = false

theorem apart_nil_right (cs : List Char) : Apart cs [] := by
  intro _ c hc
  cases hc

/-- What ends with a bracket or a blank is apart from everything. -/
theorem apart_of_getLast? {c : Char} (hlast : cs.getLast? = some c) (hc : isWordChar c = false) :
    Apart cs rest := by
  rintro ⟨d, hd, hword⟩
  rw [hlast] at hd
  cases hd
  rw [hc] at hword
  cases hword

/-- What begins with a bracket or a blank is apart from everything. -/
theorem apart_cons {c : Char} (hc : isWordChar c = false) : Apart cs (c :: rest) := by
  intro _ d hd
  cases hd
  exact hc

/-- Of two parts the second is apart from what is behind them. -/
theorem Apart.of_append (h : Apart (cs ++ cs') rest) : Apart cs' rest := by
  rintro ⟨c, hc, hword⟩
  refine h ⟨c, ?_, hword⟩
  rw [List.getLast?_append, Option.mem_def.1 hc]
  rfl

/-- Of two parts that are apart, the first is apart from the second and what is behind that. -/
theorem Apart.append (h : Apart cs cs') (hrest : Apart (cs ++ cs') rest) :
    Apart cs (cs' ++ rest) := by
  cases cs' with
  | nil => rwa [List.append_nil] at hrest
  | cons c cs' => exact h

/-- A part of a text has some tokens, whatever stands behind it. -/
def Scans (touching : Bool) (cs : List Char) (lexemes : List Lexeme) : Prop :=
  ∀ rest, Apart cs rest → scan touching (cs ++ rest) = (lexemes ++ ·) <$> scan true rest

/-- Nothing right behind a token has no tokens. -/
theorem scans_nil : Scans true [] [] := by
  intro rest _
  rw [List.nil_append]
  cases scan true rest <;> rfl

/-- Two parts that are apart have the tokens of the first and those of the second. -/
theorem Scans.append (h : Scans touching cs lexemes) (h' : Scans true cs' lexemes')
    (hapart : Apart cs cs') : Scans touching (cs ++ cs') (lexemes ++ lexemes') := by
  intro rest hrest
  rw [List.append_assoc, h _ (hapart.append hrest), h' _ hrest.of_append]
  cases scan true rest with
  | error fault => rfl
  | ok others => simp [Functor.map, Except.map]

/-- A blank has no tokens, but what is behind it does not touch what is before it. -/
theorem Scans.blank {c : Char} (hc : isBlank c = true) (h : Scans false cs lexemes) :
    Scans touching (c :: cs) lexemes := by
  intro rest hrest
  rw [List.cons_append, scan_blank hc]
  have hbehind : Apart ([c] ++ cs) rest := hrest
  exact h rest hbehind.of_append

/-- What is read as one token has that token. -/
theorem scans_of_thenScan {token : Token}
    (h : ∀ rest, Apart cs rest → scan touching (cs ++ rest) = thenScan touching (.ok token) rest) :
    Scans touching cs [⟨token, touching⟩] :=
  h

theorem scans_bracket {c : Char} {token : Token} (h : ofBracket? c = some token) :
    Scans touching [c] [⟨token, touching⟩] :=
  scans_of_thenScan fun _ _ => scan_bracket h

theorem scans_enclosed (e : Enclosure) {token : Token} (hbody : e.closing ∉ body)
    (h : e.ofBody body = .ok token) :
    Scans touching (e.opening :: (body ++ [e.closing])) [⟨token, touching⟩] := by
  refine scans_of_thenScan fun rest _ => ?_
  rw [List.cons_append, List.append_assoc, ← h]
  exact scan_enclosed e hbody

theorem scans_word {token : Token} (hne : run ≠ []) (hrun : ∀ c ∈ run, isWordChar c = true)
    (h : ofWord run = .ok token) : Scans touching run [⟨token, touching⟩] := by
  refine scans_of_thenScan fun rest hrest => ?_
  rw [← h]
  refine scan_word hne hrun (hrest ⟨_, List.getLast?_eq_some_getLast hne, ?_⟩)
  exact hrun _ (List.getLast_mem hne)

/-! ### The text of one token -/

/-- A plain text that does not begin with a dollar sign is a word. -/
theorem ofWord_of_head? (h : run.head? ≠ some '$') :
    ofWord run = .ok (word (String.ofList run)) := by
  unfold ofWord
  split
  · exact absurd rfl h
  · exact absurd rfl h
  · rfl

theorem scans_plain {text : String} (hne : text ≠ "") (hplain : IsPlainText text)
    (hdollar : text.toList.head? ≠ some '$') :
    Scans touching text.toList [⟨word text, touching⟩] := by
  refine scans_word (fun hnil => hne (String.toList_eq_nil_iff.1 hnil)) hplain ?_
  rw [ofWord_of_head? hdollar, String.ofList_toList]

theorem scans_slot {name : String} (hne : name ≠ "") (hplain : IsPlainText name) :
    Scans touching ("$" ++ name).toList [⟨slot name, touching⟩] := by
  have hname : name.toList ≠ [] := fun hnil => hne (String.toList_eq_nil_iff.1 hnil)
  rw [String.toList_append]
  change Scans touching ('$' :: name.toList) _
  refine scans_word (List.cons_ne_nil _ _) (List.forall_mem_cons.2 ⟨by decide, hplain⟩) ?_
  obtain ⟨c, cs, hcs⟩ := List.exists_cons_of_ne_nil hname
  rw [hcs, ofWord, ← hcs, String.ofList_toList]
  simp

/-- What is well-formed in angle brackets is the name of a rule. -/
theorem scans_rule {name : String} (hne : name ≠ "") (hunbroken : IsUnbroken name)
    (hbracket : '>' ∉ name.toList) :
    Scans touching ('<' :: (name.toList ++ ['>'])) [⟨rule name, touching⟩] := by
  refine scans_enclosed .angles hbracket ?_
  show ofRuleBody name.toList = _
  have hname : (name.toList.isEmpty || name.toList.any isBlank) = false := by
    rw [isEmpty_or_any_eq_false_iff, String.ofList_toList]
    exact ⟨hne, hunbroken⟩
  rw [ofRuleBody, Text.trimChars_of_forall hunbroken]
  simp only [hname, Bool.false_eq_true, if_false, String.ofList_toList]

end Token

namespace Tag

/-- What stands between the braces of a tag. -/
def body : Tag → String
  | ⟨slot, none⟩ => slot
  | ⟨slot, some value⟩ => slot ++ ":" ++ value

theorem toList_text (tag : Tag) : tag.text.toList = '{' :: (tag.body.toList ++ ['}']) := by
  obtain ⟨slot, value⟩ := tag
  cases value <;> simp [text, body]

/-- The name and the value of a well-formed tag are told apart again. -/
theorem WellFormed.ofTagBody_body {tag : Tag} (h : tag.WellFormed) :
    Token.ofTagBody tag.body.toList = .ok (.tag tag) := by
  obtain ⟨slot, value⟩ := tag
  have hne : slot ≠ "" := h.nonempty
  have hslot : (slot.toList.isEmpty || slot.toList.any isBlank) = false := by
    rw [Token.isEmpty_or_any_eq_false_iff, String.ofList_toList]
    exact ⟨hne, h.unbroken⟩
  cases value with
  | none =>
    have hcut : Text.cutAt ':' slot.toList = none := Text.cutAt_eq_none_iff.2 h.noColon
    rw [body, Token.ofTagBody, Text.trimChars_of_forall h.unbroken]
    simp only [hcut, hslot, Bool.false_eq_true, if_false, String.ofList_toList]
  | some value =>
    have hvalue : Text.trimChars value.toList = value.toList := by
      have htrimmed := congrArg String.toList (h.valueTrimmed value rfl)
      rwa [Text.trim, String.toList_ofList] at htrimmed
    have hcut : Text.cutAt ':' (slot.toList ++ ':' :: value.toList) =
        some (slot.toList, value.toList) := Text.cutAt_eq_some_iff.2 ⟨rfl, h.noColon⟩
    have hbody : (body ⟨slot, some value⟩).toList = slot.toList ++ ':' :: value.toList := by
      simp [body]
    rw [hbody, Token.ofTagBody, Text.trimChars_append_cons
      (fun hnil => hne (String.toList_eq_nil_iff.1 hnil)) h.unbroken (by decide) hvalue]
    simp only [hcut, Text.trimChars_of_forall h.unbroken, hvalue, hslot, Bool.false_eq_true,
      if_false, String.ofList_toList]

/-- No brace stands in a well-formed tag. -/
theorem WellFormed.not_mem_body {tag : Tag} (h : tag.WellFormed) : '}' ∉ tag.body.toList := by
  obtain ⟨slot, value⟩ := tag
  cases value with
  | none => exact h.noBrace
  | some value =>
    simp only [body, String.toList_append, List.mem_append, not_or]
    exact ⟨⟨h.noBrace, by decide⟩, h.valueNoBrace value rfl⟩

theorem WellFormed.scans {tag : Tag} (h : tag.WellFormed) (touching : Bool) :
    Token.Scans touching tag.text.toList [⟨.tag tag, touching⟩] := by
  rw [toList_text]
  exact Token.scans_enclosed .braces h.not_mem_body h.ofTagBody_body

end Tag

namespace RuleName

/-- What stands between the angle brackets of a reference. -/
def body : RuleName → String
  | ⟨some intent, rule⟩ => intent ++ "." ++ rule
  | ⟨none, rule⟩ => rule

theorem toList_text (name : RuleName) :
    name.text.toList = '<' :: (name.body.toList ++ ['>']) := by
  obtain ⟨intent, rule⟩ := name
  cases intent <;> simp [text, body]

/-- The names of an intent and of a rule are told apart again. -/
theorem WellFormed.ofText_body {name : RuleName} (h : name.WellFormed) :
    ofText name.body = name := by
  obtain ⟨intent, rule⟩ := name
  cases intent with
  | none =>
    have hcut : Text.cutAt '.' rule.toList = none := Text.cutAt_eq_none_iff.2 (h.noPoint rfl)
    rw [body, ofText, Text.cut, hcut]
    rfl
  | some intent =>
    have hcut : Text.cutAt '.' (intent ++ "." ++ rule).toList =
        some (intent.toList, rule.toList) :=
      Text.cutAt_eq_some_iff.2 ⟨by simp, h.intentNoPoint intent rfl⟩
    rw [body, ofText, Text.cut, hcut]
    simp

theorem WellFormed.scans {name : RuleName} (h : name.WellFormed) (touching : Bool) :
    Token.Scans touching name.text.toList [⟨.rule name.body, touching⟩] := by
  rw [toList_text]
  obtain ⟨intent, rule⟩ := name
  cases intent with
  | none => exact Token.scans_rule (h.nonempty rfl) h.unbroken h.noBracket
  | some intent =>
    have hintent : IsUnbroken intent := h.intentUnbroken intent rfl
    have hpoint : IsUnbroken "." := by decide
    refine Token.scans_rule (by simp [body]) ((hintent.append hpoint).append h.unbroken) ?_
    simp only [body, String.toList_append, List.mem_append, not_or]
    exact ⟨⟨h.intentNoBracket intent rfl, by decide⟩, h.noBracket⟩

end RuleName

/-! ### Parts of a template -/

namespace Template

open Token

variable {touching : Bool} {cs cs' : List Char} {bracket : Bool} {t : Template}
  {items branches : List Template}

/-- A part of a text spells an item; `bracket` tells whether it ends with the end of a bracket. It
is not the value of a bracket that it does not touch. -/
def SpellsItem (touching : Bool) (cs : List Char) (bracket : Bool) (t : Template) : Prop :=
  ∃ lexemes, Scans touching cs lexemes ∧ DerivesItem lexemes bracket t ∧
    (touching = false → ¬ BeginsWithValue lexemes)

/-- A part of a text spells the items of a sequence. -/
def SpellsSequence (touching : Bool) (cs : List Char) (items : List Template) : Prop :=
  ∃ lexemes, Scans touching cs lexemes ∧ DerivesSequence lexemes items ∧
    (touching = false → ¬ BeginsWithValue lexemes)

/-- A part of a text spells the branches of an alternation. -/
def SpellsAlternation (touching : Bool) (cs : List Char) (branches : List Template) : Prop :=
  ∃ lexemes, Scans touching cs lexemes ∧ DerivesAlternation lexemes branches

/-- What does not touch anything is no value. -/
theorem not_beginsWithValue {token : Token} {lexemes : List Lexeme} (h : touching = false) :
    ¬ BeginsWithValue (⟨token, touching⟩ :: lexemes) := by
  rintro ⟨value, rest, hvalue⟩
  cases hvalue
  cases h

/-- One token is an item. -/
theorem spellsItem_of_scans {token : Token} (hscans : Scans touching cs [⟨token, touching⟩])
    (hitem : DerivesItem [⟨token, touching⟩] bracket t) : SpellsItem touching cs bracket t :=
  ⟨_, hscans, hitem, not_beginsWithValue⟩

/-- Nothing right behind a token is no item. -/
theorem spellsSequence_nil : SpellsSequence true [] [] :=
  ⟨[], scans_nil, .nil, fun h => by cases h⟩

theorem SpellsItem.single (h : SpellsItem touching cs bracket t) :
    SpellsSequence touching cs [t] := by
  obtain ⟨lexemes, hscans, hitem, hvalue⟩ := h
  refine ⟨lexemes, hscans, ?_, hvalue⟩
  have hall := DerivesSequence.cons hitem (fun _ => by simp [BeginsWithValue]) .nil
  rwa [List.append_nil] at hall

/-- What a blank separates from an item are further items. -/
theorem SpellsItem.cons (h : SpellsItem touching cs bracket t)
    (h' : SpellsSequence false cs' items) :
    SpellsSequence touching (cs ++ ' ' :: cs') (t :: items) := by
  obtain ⟨lexemes, hscans, hitem, hvalue⟩ := h
  obtain ⟨lexemes', hscans', hitems, hvalue'⟩ := h'
  -- Behind the blank nothing can be the value of the item, even if that is a bracket.
  refine ⟨lexemes ++ lexemes', ?_, .cons hitem (fun _ => hvalue' rfl) hitems, fun htouching => ?_⟩
  · exact hscans.append (hscans'.blank (by decide)) (apart_cons (by decide))
  · rw [beginsWithValue_append hitem.ne_nil]
    exact hvalue htouching

theorem SpellsSequence.single (h : SpellsSequence touching cs items) :
    SpellsAlternation touching cs [ofItems items] := by
  obtain ⟨lexemes, hscans, hitems, -⟩ := h
  exact ⟨lexemes, hscans, .single hitems⟩

/-- What a bar separates from a branch are further branches. -/
theorem SpellsSequence.bar (h : SpellsSequence touching cs items)
    (h' : SpellsAlternation false cs' branches) :
    SpellsAlternation touching (cs ++ ' ' :: '|' :: ' ' :: cs') (ofItems items :: branches) := by
  obtain ⟨lexemes, hscans, hitems, -⟩ := h
  obtain ⟨lexemes', hscans', hbranches⟩ := h'
  refine ⟨lexemes ++ ⟨.bar, false⟩ :: lexemes', ?_, .bar hitems hbranches⟩
  -- The bar stands behind a blank, and the other branches behind another one.
  have hbar : Scans false ['|'] [⟨.bar, false⟩] := scans_bracket rfl
  have hbehind := hbar.append (hscans'.blank (c := ' ') (by decide)) (apart_cons (by decide))
  exact hscans.append (hbehind.blank (by decide)) (apart_cons (by decide))

/-- Brackets hold an alternation. -/
theorem SpellsAlternation.enclose (h : SpellsAlternation true cs branches) (kind : Parser.Bracket)
    (touching : Bool) :
    SpellsItem touching (kind.opening :: (cs ++ [kind.closing])) true
      (kind.enclose (ofBranches branches)) := by
  obtain ⟨lexemes, hscans, hbranches⟩ := h
  have hopen : ∀ touching, Scans touching [kind.opening] [⟨kind.openToken, touching⟩] := by
    intro touching
    cases kind <;> exact scans_bracket rfl
  have hclose : Scans true [kind.closing] [⟨kind.closeToken, true⟩] := by
    cases kind <;> exact scans_bracket rfl
  have hends : isWordChar kind.opening = false ∧ isWordChar kind.closing = false := by
    cases kind <;> decide
  refine ⟨⟨kind.openToken, touching⟩ :: lexemes ++ [⟨kind.closeToken, true⟩], ?_,
    kind.derivesItem hbranches, not_beginsWithValue⟩
  have hinside := hscans.append hclose (apart_cons hends.2)
  exact (hopen touching).append hinside (apart_of_getLast? rfl hends.1)

/-- What is written right behind an item. -/
theorem SpellsItem.append {lexeme : Lexeme} {t' : Template} (h : SpellsItem touching cs bracket t)
    (h' : Scans true cs' [lexeme]) (hapart : Apart cs cs')
    (hitem : ∀ {lexemes}, DerivesItem lexemes bracket t →
      DerivesItem (lexemes ++ [lexeme]) false t') : SpellsItem touching (cs ++ cs') false t' := by
  obtain ⟨lexemes, hscans, hderives, hvalue⟩ := h
  refine ⟨lexemes ++ [lexeme], hscans.append h' hapart, hitem hderives, fun htouching => ?_⟩
  rw [beginsWithValue_append hderives.ne_nil]
  exact hvalue htouching

/-! ### Texts of templates -/

/-- The template's text spells it as an item wherever it stands. -/
def IsItem (t : Template) : Prop :=
  ∃ bracket, (t.IsBracket → bracket = true) ∧
    ∀ touching, SpellsItem touching t.text.toList bracket t

theorem isItem_word {raw : String} {substitution : Option String}
    (h : WellFormedWord raw substitution) : (word raw substitution).IsItem := by
  refine ⟨false, fun h => h.elim, fun touching => ?_⟩
  cases substitution with
  | none =>
    have hne : raw ≠ "" := h.nonempty.resolve_right (by simp)
    exact spellsItem_of_scans (scans_plain hne h.plain h.noDollar)
      (.word (.plain h.noColon hne h.unreserved))
  | some value =>
    have hplain : IsPlainText (raw ++ ":" ++ value) :=
      (h.plain.append isPlainText_colon).append (h.plainValue value rfl)
    have hdollar : (raw ++ ":" ++ value).toList.head? ≠ some '$' := by
      have hraw := h.noDollar
      rw [String.toList_append, String.toList_append, List.append_assoc]
      cases hchars : raw.toList with
      | nil => simp
      | cons c cs => rwa [hchars] at hraw
    have hnonempty : raw ≠ "" ∨ value ≠ "" := h.nonempty.imp_right fun ⟨_, hmem, hne⟩ => by
      cases hmem
      exact hne
    refine spellsItem_of_scans (scans_plain ?_ hplain hdollar)
      (.word (.substitution h.noColon hnonempty h.unreserved))
    simp [text]

theorem isItem_ruleRef {name : RuleName} (h : name.WellFormed) : (ruleRef name).IsItem := by
  refine ⟨false, fun h => h.elim, fun touching => spellsItem_of_scans (h.scans touching) ?_⟩
  -- The grammar takes the names of the intent and of the rule apart.
  have hrule := @DerivesItem.rule name.body touching
  rwa [h.ofText_body] at hrule

theorem isItem_slotRef {name : String} (hplain : IsPlainText name) (hne : name ≠ "") :
    (slotRef name).IsItem :=
  ⟨false, fun h => h.elim, fun _ => spellsItem_of_scans (scans_slot hne hplain) .slot⟩

theorem isItem_tagged {inner : Template} {tag : Tag} (h : inner.IsItem) (htag : tag.WellFormed) :
    (tagged inner tag).IsItem := by
  obtain ⟨bracket, -, hitem⟩ := h
  refine ⟨false, fun h => h.elim, fun touching => ?_⟩
  rw [text, String.toList_append]
  refine (hitem touching).append (htag.scans true) ?_ .tagged
  rw [Tag.toList_text]
  exact apart_cons (by decide)

/-- What is written in brackets ends with one. -/
theorem IsBracket.getLast?_text (h : t.IsBracket) :
    ∃ c, t.text.toList.getLast? = some c ∧ isWordChar c = false := by
  cases t with
  | sequence items | alternation branches =>
    rw [text, String.toList_append]
    exact ⟨')', List.getLast?_concat, by decide⟩
  | optional inner =>
    rw [text, String.toList_append]
    exact ⟨']', List.getLast?_concat, by decide⟩
  | _ => exact h.elim

theorem isItem_substituted {inner : Template} {value : String} (h : inner.IsItem)
    (hbracket : inner.IsBracket) (hvalue : IsPlainText value) :
    (substituted inner value).IsItem := by
  obtain ⟨bracket, hends, hitem⟩ := h
  refine ⟨false, fun h => h.elim, fun touching => ?_⟩
  cases hends hbracket
  have hplain : IsPlainText (":" ++ value) := isPlainText_colon.append hvalue
  rw [text, String.append_assoc, String.toList_append]
  -- The value does not go on with a word, because a bracket is before it.
  obtain ⟨c, hlast, hc⟩ := hbracket.getLast?_text
  exact (hitem touching).append (scans_plain (by simp) hplain (by simp))
    (apart_of_getLast? hlast hc) .substituted

/-- Blanks separate items. -/
theorem spellsSequence_textAll (h : ∀ item ∈ t :: items, item.IsItem) (touching : Bool) :
    SpellsSequence touching (textAll " " (t :: items)).toList (t :: items) := by
  induction items generalizing t touching with
  | nil =>
    obtain ⟨bracket, -, hitem⟩ := h t List.mem_cons_self
    exact (hitem touching).single
  | cons item items ih =>
    obtain ⟨hfirst, hothers⟩ := List.forall_mem_cons.1 h
    obtain ⟨bracket, -, hitem⟩ := hfirst
    rw [textAll, String.toList_append, String.toList_append, List.append_assoc]
    · exact (hitem touching).cons (ih hothers false)
    · exact List.cons_ne_nil _ _

/-- Bars separate branches. -/
theorem spellsAlternation_textAll (h : ∀ branch ∈ t :: branches, branch.IsItem) (touching : Bool) :
    SpellsAlternation touching (textAll " | " (t :: branches)).toList (t :: branches) := by
  induction branches generalizing t touching with
  | nil =>
    obtain ⟨bracket, -, hitem⟩ := h t List.mem_cons_self
    exact (hitem touching).single.single
  | cons branch branches ih =>
    obtain ⟨hfirst, hothers⟩ := List.forall_mem_cons.1 h
    obtain ⟨bracket, -, hitem⟩ := hfirst
    rw [textAll, String.toList_append, String.toList_append, List.append_assoc]
    · exact (hitem touching).single.bar (ih hothers false)
    · exact List.cons_ne_nil _ _

theorem isItem_sequence (h : ∀ item ∈ items, item.IsItem)
    (hsingle : ∀ item, items = [item] → ¬ item.IsCompound) : (sequence items).IsItem := by
  refine ⟨true, fun _ => rfl, fun touching => ?_⟩
  have hinside : SpellsSequence true (textAll " " items).toList items := by
    cases items with
    | nil => exact spellsSequence_nil
    | cons item items => exact spellsSequence_textAll h true
  -- The round brackets leave the sequence behind, whether or not it holds a single item.
  have hgroup : ofGroup (ofItems items) = sequence items := by
    match items with
    | [] => rfl
    | [item] =>
      have hitem := hsingle item rfl
      cases item <;> first | rfl | exact absurd trivial hitem
    | _ :: _ :: _ => rfl
  have hall := hinside.single.enclose .group touching
  rw [text, String.toList_append, String.toList_append]
  rw [← hgroup]
  exact hall

theorem isItem_alternation (h : ∀ branch ∈ branches, branch.IsItem)
    (hlength : 2 ≤ branches.length) : (alternation branches).IsItem := by
  refine ⟨true, fun _ => rfl, fun touching => ?_⟩
  match branches with
  | first :: second :: others =>
    have hall := (spellsAlternation_textAll h true).enclose .group touching
    rw [text, String.toList_append, String.toList_append]
    exact hall

theorem isItem_optional {inner : Template} (h : inner.IsItem) : (optional inner).IsItem := by
  obtain ⟨bracket, -, hitem⟩ := h
  refine ⟨true, fun _ => rfl, fun touching => ?_⟩
  have hall := (hitem true).single.single.enclose .option touching
  rw [text, String.toList_append, String.toList_append]
  exact hall

mutual

/-- The text of a well-formed template spells it. -/
theorem WellFormed.isItem {t : Template} (h : t.WellFormed) : t.IsItem := by
  match t with
  | word raw substitution => exact isItem_word h
  | sequence items => exact isItem_sequence (WellFormedAll.isItem h.1) h.2
  | alternation branches => exact isItem_alternation (WellFormedAll.isItem h.1) h.2
  | optional inner => exact isItem_optional (WellFormed.isItem (t := inner) h)
  | ruleRef name => exact isItem_ruleRef h
  | slotRef name => exact isItem_slotRef h.1 h.2
  | tagged inner name => exact isItem_tagged (WellFormed.isItem (t := inner) h.1) h.2
  | substituted inner value =>
    exact isItem_substituted (WellFormed.isItem (t := inner) h.1) h.2.1 h.2.2

/-- So do the texts of several ones. -/
theorem WellFormedAll.isItem {ts : List Template} (h : WellFormedAll ts) : ∀ t ∈ ts, t.IsItem := by
  match ts with
  | [] => exact fun _ hmem => absurd hmem List.not_mem_nil
  | t :: ts =>
    exact List.forall_mem_cons.2 ⟨WellFormed.isItem (t := t) h.1, WellFormedAll.isItem h.2⟩

end

/-- The text of a well-formed template is read as that template. -/
theorem WellFormed.ofText_text (h : t.WellFormed) : ofText t.text = .ok t := by
  obtain ⟨bracket, -, hitem⟩ := h.isItem
  obtain ⟨lexemes, hscans, hbranches⟩ := (hitem false).single.single
  have hscan : scan false t.text.toList = .ok lexemes := by
    have hall := hscans [] (apart_nil_right _)
    rw [List.append_nil, scan_nil] at hall
    rw [hall]
    exact congrArg Except.ok (List.append_nil lexemes)
  exact bind_eq_ok_iff.2 ⟨lexemes, hscan, ofLexemes_eq_ok_iff.2 ⟨[t], hbranches, rfl⟩⟩

/-- The templates that a line can be read as are the well-formed ones, and the text of each of these
is read as that template. -/
theorem wellFormed_iff_ofLine (label : String) (line : Nat) :
    (∀ t, (∃ text, ofLine label line text = .ok t) ↔ t.WellFormed) ∧
      ∀ t : Template, t.WellFormed → ofLine label line t.text = .ok t := by
  have hprint : ∀ t : Template, t.WellFormed → ofLine label line t.text = .ok t :=
    fun t h => mapError_eq_ok_iff.2 h.ofText_text
  refine ⟨fun t => ⟨?_, fun h => ⟨t.text, hprint t h⟩⟩, hprint⟩
  rintro ⟨text, h⟩
  exact wellFormed_of_ofText (mapError_eq_ok_iff.1 h)

/-- A group with an optional branch, which is reported as another word and tagged. -/
theorem wellFormed_iff_ofLine_group :
    (tagged (substituted (alternation [word "on" none, optional (ruleRef ⟨some "Go", "to"⟩)]) "in")
        ⟨"at", none⟩).WellFormed ∧
      ofLine "Stay" 1 "(on | [<Go.to>]):in\x7bat\x7d" =
        .ok (tagged
          (substituted (alternation [word "on" none, optional (ruleRef ⟨some "Go", "to"⟩)]) "in")
          ⟨"at", none⟩) := by
  have hword : WellFormedWord "on" none :=
    ⟨by decide, by decide, by decide, by decide, by simp, .inl (by decide)⟩
  have hrule : RuleName.WellFormed ⟨some "Go", "to"⟩ :=
    ⟨by simp, by decide, by decide, by simp, by decide, by simp, by simp⟩
  have htag : Tag.WellFormed ⟨"at", none⟩ :=
    ⟨by decide, by decide, by decide, by decide, by simp, by simp⟩
  have hvalue : IsPlainText "in" := by decide
  have h : (tagged (substituted
      (alternation [word "on" none, optional (ruleRef ⟨some "Go", "to"⟩)]) "in")
      ⟨"at", none⟩).WellFormed :=
    ⟨⟨⟨⟨hword, hrule, trivial⟩, by decide⟩, trivial, hvalue⟩, htag⟩
  exact ⟨h, (wellFormed_iff_ofLine "Stay" 1).2 _ h⟩

end Template

end Phrasebook
