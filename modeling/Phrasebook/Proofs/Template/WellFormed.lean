import Phrasebook.Proofs.Template.Derivation
import Phrasebook.Proofs.Template.Scanning
import Phrasebook.Template.Printer

/-!
# What is read is well-formed

A token of a text holds only what can be written in its place: nothing in it would end it before its
end, and nothing is at its ends that would be dropped. The grammar of templates then makes trees of
which the same is true, and whose brackets are such that reading does not collapse them.

* `Token.WellFormed`, `Token.wellFormed_of_scan`: the tokens of a text are well-formed.
* `Template.wellFormed_ofItems`, `Template.wellFormed_ofBranches`, `Template.wellFormed_ofGroup`:
  what becomes of the parts of a template when they are put together.
* `Template.DerivesItem.wellFormed`: well-formed tokens make well-formed items.
* `Template.wellFormed_of_ofText`: what is read of a text is well-formed.
-/

namespace Phrasebook

/-! ### Tokens -/

namespace Token

/-- The token can be written. -/
def WellFormed : Token → Prop
  | .rule name => name ≠ "" ∧ IsUnbroken name ∧ '>' ∉ name.toList
  | .slot name => IsPlainText name ∧ name ≠ ""
  | .tag name => name.WellFormed
  | .word text => IsPlainText text ∧ text.toList.head? ≠ some '$'
  | _ => True

variable {body run : List Char} {token : Token}

theorem wellFormed_of_ofBracket? {c : Char} (h : ofBracket? c = some token) :
    token.WellFormed := by
  unfold ofBracket? at h
  split at h <;> cases h <;> trivial

/-- A name is refused unless it is one word. -/
theorem isEmpty_or_any_eq_false_iff {cs : List Char} :
    (cs.isEmpty || cs.any isBlank) = false ↔
      String.ofList cs ≠ "" ∧ IsUnbroken (String.ofList cs) := by
  rw [Bool.or_eq_false_iff, List.any_eq_false, IsUnbroken, String.toList_ofList, Ne,
    String.ofList_eq_empty_iff, List.isEmpty_eq_false_iff]
  simp only [Bool.not_eq_true]

/-- The name of a rule is one word, and nothing in it ends it. -/
theorem wellFormed_of_ofRuleBody (hbody : '>' ∉ body) (h : ofRuleBody body = .ok token) :
    token.WellFormed := by
  simp only [ofRuleBody] at h
  split at h
  · cases h
  · next hname =>
    cases h
    obtain ⟨hne, hunbroken⟩ := isEmpty_or_any_eq_false_iff.1 (Bool.eq_false_iff.2 hname)
    refine ⟨hne, hunbroken, ?_⟩
    rw [String.toList_ofList]
    exact fun hmem => hbody (Text.mem_of_mem_trimChars hmem)

/-- The name of a tag is one word, and the first colon ends it. The value is what is left. -/
theorem wellFormed_of_ofTagBody (hbody : '}' ∉ body) (h : ofTagBody body = .ok token) :
    token.WellFormed := by
  have htrimmed : '}' ∉ Text.trimChars body := fun hmem => hbody (Text.mem_of_mem_trimChars hmem)
  cases hcut : Text.cutAt ':' (Text.trimChars body) with
  | none =>
    simp only [ofTagBody, hcut] at h
    split at h
    · cases h
    · next hname =>
      cases h
      obtain ⟨hne, hunbroken⟩ := isEmpty_or_any_eq_false_iff.1 (Bool.eq_false_iff.2 hname)
      refine ⟨hne, hunbroken, ?_, ?_, by simp, by simp⟩
      · rw [String.toList_ofList]
        exact Text.cutAt_eq_none_iff.1 hcut
      · rw [String.toList_ofList]
        exact htrimmed
  | some parts =>
    obtain ⟨name, value⟩ := parts
    obtain ⟨hparts, hcolon⟩ := Text.cutAt_eq_some_iff.1 hcut
    rw [hparts, List.mem_append, List.mem_cons, not_or, not_or] at htrimmed
    obtain ⟨hbefore, -, hafter⟩ := htrimmed
    simp only [ofTagBody, hcut] at h
    split at h
    · cases h
    · next hname =>
      cases h
      obtain ⟨hne, hunbroken⟩ := isEmpty_or_any_eq_false_iff.1 (Bool.eq_false_iff.2 hname)
      refine ⟨hne, hunbroken, ?_, ?_, ?_, ?_⟩
      · rw [String.toList_ofList]
        exact fun hmem => hcolon (Text.mem_of_mem_trimChars hmem)
      · rw [String.toList_ofList]
        exact fun hmem => hbefore (Text.mem_of_mem_trimChars hmem)
      · rintro _ ⟨⟩
        rw [String.toList_ofList]
        exact fun hmem => hafter (Text.mem_of_mem_trimChars hmem)
      · rintro _ ⟨⟩
        rw [Text.trim, String.toList_ofList, Text.trimChars_trimChars]

/-- A run of word characters is plain, and a dollar sign makes it the name of a slot. -/
theorem wellFormed_of_ofWord (hrun : ∀ c ∈ run, isWordChar c = true)
    (h : ofWord run = .ok token) : token.WellFormed := by
  unfold ofWord at h
  split at h
  · cases h
  · next name hname =>
    cases h
    refine ⟨fun c hc => ?_, fun hempty => hname (String.ofList_eq_empty_iff.1 hempty)⟩
    rw [String.toList_ofList] at hc
    exact hrun c (List.mem_cons_of_mem _ hc)
  · next hempty hdollar =>
    cases h
    refine ⟨fun c hc => ?_, fun hhead => ?_⟩
    · rw [String.toList_ofList] at hc
      exact hrun c hc
    · rw [String.toList_ofList] at hhead
      obtain ⟨name, rfl⟩ := List.head?_eq_some_iff.1 hhead
      exact hdollar name rfl

/-- The tokens of a text are well-formed. -/
theorem wellFormed_of_scan {touching : Bool} {cs : List Char} {lexemes : List Lexeme}
    (h : scan touching cs = .ok lexemes) : ∀ lexeme ∈ lexemes, lexeme.token.WellFormed :=
  forall_of_scan wellFormed_of_ofBracket? wellFormed_of_ofRuleBody wellFormed_of_ofTagBody
    wellFormed_of_ofWord h

end Token

/-- The first point of a rule's name separates the name of an intent. -/
theorem RuleName.wellFormed_ofText {name : String} (hne : name ≠ "") (hunbroken : IsUnbroken name)
    (hbracket : '>' ∉ name.toList) : (ofText name).WellFormed := by
  cases hcut : Text.cutAt '.' name.toList with
  | none =>
    have htext : ofText name = ⟨none, name⟩ := by
      rw [ofText, Text.cut, hcut]
      rfl
    rw [htext]
    exact ⟨fun _ => hne, hunbroken, hbracket, fun _ => Text.cutAt_eq_none_iff.1 hcut, by simp,
      by simp, by simp⟩
  | some parts =>
    obtain ⟨intent, rule⟩ := parts
    have htext : ofText name = ⟨some (String.ofList intent), String.ofList rule⟩ := by
      rw [ofText, Text.cut, hcut]
      rfl
    obtain ⟨hparts, hpoint⟩ := Text.cutAt_eq_some_iff.1 hcut
    have hintent : ∀ c ∈ intent, c ∈ name.toList := fun c hc =>
      hparts ▸ List.mem_append_left _ hc
    have hrule : ∀ c ∈ rule, c ∈ name.toList := fun c hc =>
      hparts ▸ List.mem_append_right _ (List.mem_cons_of_mem _ hc)
    rw [htext]
    constructor
    · rintro ⟨⟩
    · intro c hc
      exact hunbroken c (hrule c (by simpa using hc))
    · intro hmem
      exact hbracket (hrule _ (by simpa using hmem))
    · rintro ⟨⟩
    · rintro _ ⟨⟩ c hc
      exact hunbroken c (hintent c (by simpa using hc))
    · rintro _ ⟨⟩ hmem
      exact hbracket (hintent _ (by simpa using hmem))
    · rintro _ ⟨⟩
      simpa using hpoint

/-! ### Trees -/

namespace Template

/-- A word that is read of a plain text is well-formed. -/
theorem DerivesWord.wellFormed {text : String} {t : Template} (h : DerivesWord text t)
    (hplain : IsPlainText text) (hdollar : text.toList.head? ≠ some '$') : t.WellFormed := by
  cases h with
  | plain noColon nonempty unreserved =>
    exact ⟨hplain, noColon, hdollar, unreserved, by simp, .inl nonempty⟩
  | @substitution raw value noColon nonempty unreserved =>
    have hraw : IsPlainText raw := fun c hc => hplain c (by simp [hc])
    have hvalue : IsPlainText value := fun c hc => hplain c (by simp [hc])
    refine ⟨hraw, noColon, fun hhead => hdollar ?_, unreserved, ?_, ?_⟩
    · -- The text begins like the word unless that is empty.
      simp [hhead]
    · rintro _ ⟨⟩
      exact hvalue
    · exact nonempty.imp_right fun h => ⟨value, rfl, h⟩

variable {items branches : List Template}

theorem wellFormed_ofItems (h : ∀ t ∈ items, t.WellFormed) : (ofItems items).WellFormed := by
  unfold ofItems
  split
  · exact h _ List.mem_cons_self
  · next hsingle =>
    refine ⟨wellFormedAll_iff.2 h, fun item hitem => ?_⟩
    exact absurd hitem (hsingle item)

theorem wellFormed_ofBranches (hne : branches ≠ []) (h : ∀ t ∈ branches, t.WellFormed) :
    (ofBranches branches).WellFormed := by
  unfold ofBranches
  split
  · exact h _ List.mem_cons_self
  · next hsingle =>
    refine ⟨wellFormedAll_iff.2 h, ?_⟩
    match branches with
    | [] => exact absurd rfl hne
    | [branch] => exact absurd rfl (hsingle branch)
    | _ :: _ :: _ => simp

theorem wellFormed_ofGroup {t : Template} (h : t.WellFormed) : (ofGroup t).WellFormed := by
  unfold ofGroup
  split
  · exact h
  · exact h
  · next halternation hsequence =>
    refine ⟨wellFormedAll_iff.2 (List.forall_mem_singleton.2 h), ?_⟩
    rintro item hitem hcompound
    cases hitem
    cases t with
    | sequence items => exact hsequence items rfl
    | alternation branches => exact halternation branches rfl
    | _ => exact hcompound

/-- A group leaves behind what is written in round brackets. -/
theorem isBracket_ofGroup (t : Template) : (ofGroup t).IsBracket := by
  unfold ofGroup
  split <;> trivial

/-- What ends with the end of a bracket is a bracket. -/
theorem DerivesItem.isBracket {lexemes : List Lexeme} {t : Template}
    (h : DerivesItem lexemes true t) : t.IsBracket := by
  cases h with
  | group _ => exact isBracket_ofGroup _
  | option _ => trivial

theorem DerivesAlternation.ne_nil {lexemes : List Lexeme}
    (h : DerivesAlternation lexemes branches) : branches ≠ [] := by
  cases h <;> exact List.cons_ne_nil _ _

mutual

/-- Well-formed tokens make well-formed branches. -/
theorem DerivesAlternation.wellFormed {lexemes : List Lexeme} {branches : List Template}
    (h : DerivesAlternation lexemes branches)
    (hlexemes : ∀ lexeme ∈ lexemes, lexeme.token.WellFormed) : ∀ t ∈ branches, t.WellFormed := by
  match h with
  | .single branch =>
    exact List.forall_mem_singleton.2 (wellFormed_ofItems (branch.wellFormed hlexemes))
  | .bar branch others =>
    obtain ⟨hbranch, hothers⟩ := List.forall_mem_append.1 hlexemes
    exact List.forall_mem_cons.2 ⟨wellFormed_ofItems (branch.wellFormed hbranch),
      others.wellFormed (List.forall_mem_cons.1 hothers).2⟩

/-- Well-formed tokens make well-formed items of a sequence. -/
theorem DerivesSequence.wellFormed {lexemes : List Lexeme} {items : List Template}
    (h : DerivesSequence lexemes items)
    (hlexemes : ∀ lexeme ∈ lexemes, lexeme.token.WellFormed) : ∀ t ∈ items, t.WellFormed := by
  match h with
  | .nil => exact fun _ hmem => absurd hmem List.not_mem_nil
  | .cons first _ others =>
    obtain ⟨hfirst, hothers⟩ := List.forall_mem_append.1 hlexemes
    exact List.forall_mem_cons.2 ⟨first.wellFormed hfirst, others.wellFormed hothers⟩

/-- Well-formed tokens make a well-formed item. -/
theorem DerivesItem.wellFormed {lexemes : List Lexeme} {bracket : Bool} {t : Template}
    (h : DerivesItem lexemes bracket t)
    (hlexemes : ∀ lexeme ∈ lexemes, lexeme.token.WellFormed) : t.WellFormed := by
  match h with
  | .rule =>
    obtain ⟨hne, hunbroken, hbracket⟩ := hlexemes _ List.mem_cons_self
    exact RuleName.wellFormed_ofText hne hunbroken hbracket
  | .slot => exact hlexemes _ List.mem_cons_self
  | .word legal =>
    obtain ⟨hplain, hdollar⟩ := hlexemes _ List.mem_cons_self
    exact legal.wellFormed hplain hdollar
  | .group inside =>
    have hinside := (List.forall_mem_cons.1 (List.forall_mem_append.1 hlexemes).1).2
    exact wellFormed_ofGroup (wellFormed_ofBranches inside.ne_nil (inside.wellFormed hinside))
  | .option inside =>
    have hinside := (List.forall_mem_cons.1 (List.forall_mem_append.1 hlexemes).1).2
    exact wellFormed_ofBranches inside.ne_nil (inside.wellFormed hinside)
  | @DerivesItem.substituted _ _ value part =>
    obtain ⟨hpart, hvalue⟩ := List.forall_mem_append.1 hlexemes
    have hplain := (List.forall_mem_singleton.1 hvalue).1
    exact ⟨part.wellFormed hpart, part.isBracket, fun c hc => hplain c (by simp [hc])⟩
  | .tagged part =>
    obtain ⟨hpart, htag⟩ := List.forall_mem_append.1 hlexemes
    exact ⟨part.wellFormed hpart, htag _ (List.mem_singleton_self _)⟩

end

/-- What is read of a text is well-formed. -/
theorem wellFormed_of_ofText {text : String} {t : Template} (h : ofText text = .ok t) :
    t.WellFormed := by
  obtain ⟨lexemes, hscan, h⟩ := bind_eq_ok_iff.1 h
  obtain ⟨branches, hbranches, rfl⟩ := ofLexemes_eq_ok_iff.1 h
  exact wellFormed_ofBranches hbranches.ne_nil
    (hbranches.wellFormed (Token.wellFormed_of_scan hscan))

end Template

end Phrasebook
