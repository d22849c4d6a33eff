import Phrasebook.Proofs.Outcome
import Phrasebook.Proofs.Symbol
import Phrasebook.Template.Derivation
import Phrasebook.Template.Parser

/-!
# Reading follows the grammar of templates

The reader keeps a stack of open brackets, and what stands on the stack at any time is what the
grammar derives from the tokens that were read. Conversely the reader goes along with every
derivation. So a text is read as a template exactly when its tokens make that template, and
every other text is refused.

* `Template.ofWord_eq_ok_iff`: words are read as the grammar says.
* `Template.Parser.State.Reads`: what is on the stack is made by the tokens that were read.
* `Template.Parser.State.Reads.step`: every token keeps this.
* `Template.DerivesAlternation.foldlM_step`: the reader goes along with a derivation.
* `Template.ofLine_eq_ok_iff_derives`: a line is read exactly when its tokens make a template.
-/

namespace Phrasebook

namespace Template

/-! ### Words -/

/-- The two sides of a word are accepted when they are not both empty and the first one could not
be taken for a marker. -/
theorem checkWord_eq_ok_iff {raw : String} {substitution : Option String} {t : Template} :
    (if raw.isEmpty ∧ (substitution.getD "").isEmpty then .error .emptySubstitution
      else if reservedPrefix.toList.isPrefixOf raw.toList then .error (.reserved raw)
      else .ok (word raw substitution)) = (.ok t : Except SyntaxFault Template) ↔
      (raw ≠ "" ∨ substitution.getD "" ≠ "") ∧ ¬ reservedPrefix.toList <+: raw.toList ∧
        word raw substitution = t := by
  rw [← List.isPrefixOf_iff_prefix, ← not_and_or]
  simp only [String.isEmpty_iff]
  split
  · next hempty => simp [hempty]
  · next hempty =>
    split
    · next hreserved => simp [hreserved]
    · next hreserved => simp [hempty, hreserved]

/-- A word is read exactly when it is legal. -/
theorem ofWord_eq_ok_iff {text : String} {t : Template} :
    ofWord text = .ok t ↔ DerivesWord text t := by
  constructor
  · intro h
    cases hcut : Text.cut ':' text with
    | none =>
      simp only [ofWord, hcut, checkWord_eq_ok_iff] at h
      obtain ⟨hnonempty, hunreserved, rfl⟩ := h
      exact .plain (Text.cut_eq_none_iff.1 hcut) (hnonempty.resolve_right fun h => h rfl) hunreserved
    | some parts =>
      simp only [ofWord, hcut, checkWord_eq_ok_iff] at h
      obtain ⟨hnonempty, hunreserved, rfl⟩ := h
      obtain ⟨rfl, hcolon⟩ := Symbol.cut_colon_iff.1 hcut
      exact .substitution hcolon hnonempty hunreserved
  · intro h
    cases h with
    | plain noColon nonempty unreserved =>
      simp only [ofWord, Text.cut_eq_none_iff.2 noColon]
      exact checkWord_eq_ok_iff.2 ⟨.inl nonempty, unreserved, rfl⟩
    | substitution noColon nonempty unreserved =>
      simp only [ofWord, Symbol.cut_colon_iff.2 ⟨rfl, noColon⟩]
      exact checkWord_eq_ok_iff.2 ⟨nonempty, unreserved, rfl⟩

/-! ### Tokens of items -/

section Derivation

variable {lexemes rest : List Lexeme}

/-- An item is made of at least one token. -/
theorem DerivesItem.ne_nil {bracket : Bool} {item : Template}
    (h : DerivesItem lexemes bracket item) : lexemes ≠ [] := by
  cases h <;> simp

/-- Whether tokens begin with a value depends on the first of them only. -/
theorem beginsWithValue_append (h : lexemes ≠ []) :
    BeginsWithValue (lexemes ++ rest) ↔ BeginsWithValue lexemes := by
  cases lexemes with
  | nil => exact absurd rfl h
  | cons first others => simp [BeginsWithValue]

/-- A word gives a closed bracket its value exactly when the tokens begin with a value. -/
theorem beginsWithValue_word {text : String} {touching : Bool} :
    BeginsWithValue (⟨.word text, touching⟩ :: rest) ↔
      touching = true ∧ ∃ value, Text.after? ":" text = some value := by
  simp only [BeginsWithValue, Text.after?_eq_some_iff, List.cons.injEq, Lexeme.mk.injEq,
    Token.word.injEq]
  constructor
  · rintro ⟨value, _, ⟨htext, htouching⟩, _⟩
    exact ⟨htouching, value, htext⟩
  · rintro ⟨htouching, value, htext⟩
    exact ⟨value, rest, ⟨htext, htouching⟩, rfl⟩

end Derivation

namespace Parser

/-- The token that opens a bracket. -/
def Bracket.openToken : Bracket → Token
  | group => .openGroup
  | option => .openOption

/-- The token that closes a bracket. -/
def Bracket.closeToken : Bracket → Token
  | group => .closeGroup
  | option => .closeOption

/-- The character that closes a bracket. -/
def Bracket.closing : Bracket → Char
  | group => ')'
  | option => ']'

/-- What becomes of a template in a bracket. -/
def Bracket.enclose : Bracket → Template → Template
  | group => ofGroup
  | option => optional

/-- A template in a bracket is an item. -/
theorem Bracket.derivesItem (bracket : Bracket) {lexemes : List Lexeme} {touching touching' : Bool}
    {branches : List Template} (inside : DerivesAlternation lexemes branches) :
    DerivesItem (⟨bracket.openToken, touching⟩ :: lexemes ++ [⟨bracket.closeToken, touching'⟩])
      true (bracket.enclose (ofBranches branches)) :=
  match bracket with
  | group => .group inside
  | option => .option inside

/-! ### What is on the stack -/

/-- Tokens make the items of a level, which are given last first; `closed` tells whether the last
item is a bracket that could still be given a value. -/
inductive ReadsItems : List Lexeme → List Template → Bool → Prop
  /-- There is no item. -/
  | nil : ReadsItems [] [] false
  /-- There is a last item. -/
  | snoc {before lexemes : List Lexeme} {items : List Template} {closed bracket : Bool}
    {item : Template} (others : ReadsItems before items closed)
    (complete : closed = true → ¬ BeginsWithValue lexemes)
    (last : DerivesItem lexemes bracket item) :
    ReadsItems (before ++ lexemes) (item :: items) bracket

/-- Tokens make the branches of a level before its last bar, which are given last first. -/
inductive ReadsBranches : List Lexeme → List Template → Prop
  /-- There is no branch. -/
  | nil : ReadsBranches [] []
  /-- There is a last branch with a bar behind it. -/
  | snoc {before lexemes : List Lexeme} {touching : Bool} {branches items : List Template}
    (others : ReadsBranches before branches) (last : DerivesSequence lexemes items) :
    ReadsBranches (before ++ lexemes ++ [⟨.bar, touching⟩]) (ofItems items :: branches)

/-- Items that were read, and others behind them, are the items of a sequence. -/
theorem ReadsItems.derives {lexemes rest : List Lexeme} {items others : List Template}
    {closed : Bool} (h : ReadsItems lexemes items closed)
    (complete : closed = true → ¬ BeginsWithValue rest) (hrest : DerivesSequence rest others) :
    DerivesSequence (lexemes ++ rest) (items.reverse ++ others) := by
  induction h generalizing rest others with
  | nil => exact hrest
  | @snoc before lexemes items closed bracket item _ completeBefore last ih =>
    rw [List.append_assoc, List.reverse_cons, List.append_assoc]
    refine ih (fun hclosed => ?_) (.cons last complete hrest)
    rw [beginsWithValue_append last.ne_nil]
    exact completeBefore hclosed

/-- Branches that were read, and others behind them, are the branches of an alternation. -/
theorem ReadsBranches.derives {lexemes rest : List Lexeme} {branches others : List Template}
    (h : ReadsBranches lexemes branches) (hrest : DerivesAlternation rest others) :
    DerivesAlternation (lexemes ++ rest) (branches.reverse ++ others) := by
  induction h generalizing rest others with
  | nil => exact hrest
  | snoc _ last ih =>
    rw [List.append_assoc, List.append_assoc, List.reverse_cons, List.append_assoc]
    exact ih (.bar last hrest)

/-- Tokens make what was read since a bracket was opened. -/
inductive Level.Reads : List Lexeme → Level → Bool → Prop
  /-- The items come behind the branches. -/
  | mk {before after : List Lexeme} {level : Level} {closed : Bool}
    (branches : ReadsBranches before level.branches)
    (items : ReadsItems after level.items closed) : Reads (before ++ after) level closed

namespace Level.Reads

variable {lexemes new : List Lexeme} {level : Level} {closed : Bool}

theorem empty : Reads [] .empty false :=
  show Reads ([] ++ []) .empty false from .mk .nil .nil

theorem push (h : Reads lexemes level closed) {bracket : Bool} {item : Template}
    (complete : closed = true → ¬ BeginsWithValue new) (last : DerivesItem new bracket item) :
    Reads (lexemes ++ new) (level.push item) bracket := by
  obtain ⟨branches, items⟩ := h
  rw [List.append_assoc]
  exact .mk branches (.snoc items complete last)

/-- The items since the last bar make a branch. -/
theorem derivesSequence {after : List Lexeme} (h : ReadsItems after level.items closed) :
    DerivesSequence after level.items.reverse := by
  have hcomplete : closed = true → ¬ BeginsWithValue [] := fun _ => by simp [BeginsWithValue]
  have hall := h.derives hcomplete .nil
  rwa [List.append_nil, List.append_nil] at hall

theorem bar (h : Reads lexemes level closed) (touching : Bool) :
    Reads (lexemes ++ [⟨.bar, touching⟩]) level.bar false := by
  obtain ⟨branches, items⟩ := h
  have h := @ReadsBranches.snoc _ _ touching _ _ branches (derivesSequence items)
  exact (List.append_nil (_ ++ [_])) ▸ .mk h .nil

/-- The template of a level is an alternation. -/
theorem derives (h : Reads lexemes level closed) :
    ∃ branches, DerivesAlternation lexemes branches ∧ level.template = ofBranches branches := by
  obtain ⟨branches, items⟩ := h
  refine ⟨_, branches.derives (.single (derivesSequence items)), ?_⟩
  rw [Level.template, Level.bar, List.reverse_cons]

/-- A token may change the last item. -/
theorem mapLast (h : Reads lexemes level closed) {item : Template} {items : List Template}
    (hitems : level.items = item :: items) {lexeme : Lexeme} {f : Template → Template}
    (hlast : ∀ {tokens}, DerivesItem tokens closed item →
      DerivesItem (tokens ++ [lexeme]) false (f item)) :
    Reads (lexemes ++ [lexeme]) { level with items := f item :: items } false := by
  obtain ⟨branches, readsItems⟩ := h
  rw [hitems] at readsItems
  cases readsItems with
  | snoc others complete last =>
    rw [List.append_assoc, List.append_assoc]
    refine .mk branches (.snoc others (fun hclosed => ?_) (hlast last))
    rw [beginsWithValue_append last.ne_nil]
    exact complete hclosed

/-- A closed bracket is an item. -/
theorem exists_item (h : Reads lexemes level closed) (hclosed : closed = true) :
    ∃ item items, level.items = item :: items := by
  obtain ⟨_, items⟩ := h
  generalize level.items = read at items
  cases items with
  | nil => cases hclosed
  | snoc _ _ _ => exact ⟨_, _, rfl⟩

end Level.Reads

/-- Tokens make what is on the stack. -/
inductive State.Reads : List Lexeme → State → Prop
  /-- No bracket is open. -/
  | top {lexemes : List Lexeme} {level : Level} {closed : Bool}
    (inside : level.Reads lexemes closed) : Reads lexemes ⟨level, [], closed⟩
  /-- A bracket is open. -/
  | bracket {before lexemes : List Lexeme} {touching closed closedBefore : Bool}
    {bracket : Bracket} {level around : Level} {outer : List (Bracket × Level)}
    (outside : Reads before ⟨around, outer, closedBefore⟩) (inside : level.Reads lexemes closed) :
    Reads (before ++ ⟨bracket.openToken, touching⟩ :: lexemes)
      ⟨level, (bracket, around) :: outer, closed⟩

namespace State.Reads

variable {lexemes new : List Lexeme} {s s' : State}

theorem initial : Reads [] .initial := .top .empty

/-- What is done inside the innermost open bracket leaves the others as they are. -/
theorem mapLevel (h : Reads lexemes s) {level : Level} {closed : Bool}
    (hlevel : ∀ {inside}, s.level.Reads inside s.closed → level.Reads (inside ++ new) closed) :
    Reads (lexemes ++ new) ⟨level, s.outer, closed⟩ := by
  cases h with
  | top inside => exact .top (hlevel inside)
  | bracket outside inside =>
    rw [List.append_assoc, List.cons_append]
    exact .bracket outside (hlevel inside)

theorem push (h : Reads lexemes s) {bracket : Bool} {item : Template}
    (complete : s.closed = true → ¬ BeginsWithValue new) (last : DerivesItem new bracket item) :
    Reads (lexemes ++ new) ⟨s.level.push item, s.outer, bracket⟩ :=
  h.mapLevel fun inside => inside.push complete last

theorem enter (h : Reads lexemes s) (bracket : Bracket) (touching : Bool) :
    Reads (lexemes ++ [⟨bracket.openToken, touching⟩]) (s.enter bracket) :=
  .bracket h .empty

/-- A bracket with what is inside it becomes an item of the level around it. -/
theorem leave (h : Reads lexemes s) {bracket : Bracket} {touching : Bool}
    (hleave : s.leave bracket bracket.closing bracket.enclose = .ok s') :
    Reads (lexemes ++ [⟨bracket.closeToken, touching⟩]) s' := by
  cases h with
  | top _ => cases hleave
  | @bracket before inner touching' closed closedBefore opened level around outer outside inside =>
    rw [State.leave] at hleave
    split at hleave
    · cases hleave
    · next heq =>
      cases heq
      split at hleave
      · next heq =>
        subst heq
        cases hleave
        obtain ⟨branches, hbranches, htemplate⟩ := inside.derives
        rw [htemplate, List.append_assoc, List.cons_append]
        refine outside.push (fun _ hvalue => ?_) (opened.derivesItem hbranches)
        -- A bracket is no value of a bracket before it.
        obtain ⟨value, rest, hvalue⟩ := hvalue
        cases opened <;> cases hvalue
      · cases hleave

/-- A token that changes the last item. -/
theorem mapLast (h : Reads lexemes s) {lexeme : Lexeme} {f : Template → Template}
    (hlast : ∀ {tokens item}, DerivesItem tokens s.closed item →
      DerivesItem (tokens ++ [lexeme]) false (f item)) (hmap : s.mapLast? f = some s') :
    Reads (lexemes ++ [lexeme]) s' := by
  rw [State.mapLast?] at hmap
  split at hmap
  · cases hmap
  · next item items hitems =>
    cases hmap
    exact h.mapLevel fun inside => inside.mapLast hitems hlast

/-- A closed bracket is the last item, so a value can be given to it. -/
theorem exists_mapLast (h : Reads lexemes s) (hclosed : s.closed = true)
    (f : Template → Template) : ∃ s', s.mapLast? f = some s' := by
  have hitems : ∃ item items, s.level.items = item :: items := by
    cases h with
    | top inside => exact inside.exists_item hclosed
    | bracket _ inside => exact inside.exists_item hclosed
  obtain ⟨item, items, hitems⟩ := hitems
  rw [State.mapLast?, hitems]
  exact ⟨_, rfl⟩

/-- A word is the value of a closed bracket that it touches, or else an item. -/
theorem word (h : Reads lexemes s) {text : String} {touching : Bool}
    (hstep : s.step ⟨.word text, touching⟩ = .ok s') :
    Reads (lexemes ++ [⟨.word text, touching⟩]) s' := by
  dsimp only [State.step] at hstep
  split at hstep
  · next hlast =>
    cases hstep
    obtain ⟨value, hvalue, hmap⟩ := Option.bind_eq_some_iff.1 hlast
    rw [State.substitution?.eq_def] at hvalue
    split at hvalue
    · next heq =>
      cases heq
      split at hvalue
      · next hclosed =>
        rw [Text.after?_eq_some_iff.1 hvalue]
        exact h.mapLast (fun hitem => .substituted (hclosed ▸ hitem)) hmap
      · cases hvalue
    · cases hvalue
  · next hnone =>
    obtain ⟨t, ht, hstep⟩ := bind_eq_ok_iff.1 hstep
    cases hstep
    refine h.push (fun hclosed hvalue => ?_) (.word (ofWord_eq_ok_iff.1 ht))
    -- A closed bracket would have been given the word as its value.
    obtain ⟨rfl, value, hafter⟩ := beginsWithValue_word.1 hvalue
    obtain ⟨s', hlast⟩ := h.exists_mapLast hclosed (substituted · value)
    rw [State.substitution?, if_pos hclosed, hafter, Option.bind_some, hlast] at hnone
    cases hnone

/-- Every token that is read joins those that make what is on the stack. -/
theorem step (h : Reads lexemes s) {lexeme : Lexeme} (hstep : s.step lexeme = .ok s') :
    Reads (lexemes ++ [lexeme]) s' := by
  obtain ⟨token, touching⟩ := lexeme
  cases token with
  | openGroup => cases hstep; exact h.enter .group touching
  | openOption => cases hstep; exact h.enter .option touching
  | closeGroup => exact @leave _ _ _ h .group touching hstep
  | closeOption => exact @leave _ _ _ h .option touching hstep
  | bar => cases hstep; exact h.mapLevel fun inside => inside.bar touching
  | rule name => cases hstep; exact h.push (fun _ => by simp [BeginsWithValue]) .rule
  | slot name => cases hstep; exact h.push (fun _ => by simp [BeginsWithValue]) .slot
  | tag tag =>
    dsimp only [State.step] at hstep
    split at hstep
    · next hlast =>
      cases hstep
      exact h.mapLast .tagged hlast
    · cases hstep
  | word text => exact h.word hstep

/-- So do many tokens, one after another. -/
theorem foldlM_step (h : Reads lexemes s) (hsteps : new.foldlM State.step s = .ok s') :
    Reads (lexemes ++ new) s' := by
  induction new generalizing lexemes s with
  | nil =>
    cases hsteps
    rwa [List.append_nil]
  | cons lexeme new ih =>
    obtain ⟨middle, hfirst, hrest⟩ := bind_eq_ok_iff.1 hsteps
    have hall := ih (h.step hfirst) hrest
    rwa [List.append_assoc] at hall

/-- When no bracket is open, the tokens make the template that has been read. -/
theorem finish (h : Reads lexemes s) {t : Template} (hfinish : s.finish = .ok t) :
    Derives lexemes t := by
  cases h with
  | top inside =>
    cases hfinish
    exact inside.derives
  | bracket _ _ => cases hfinish

end State.Reads

/-! ### Going along with a derivation -/

/-- Reading a bracket: what is inside is read on a level of its own. -/
theorem foldlM_bracket {s : State} {bracket : Bracket} {touching touching' closed : Bool}
    {lexemes : List Lexeme} {level : Level}
    (h : lexemes.foldlM State.step (s.enter bracket) =
      .ok ⟨level, (bracket, s.level) :: s.outer, closed⟩) :
    List.foldlM State.step s
        (⟨bracket.openToken, touching⟩ :: lexemes ++ [⟨bracket.closeToken, touching'⟩]) =
      .ok ⟨s.level.push (bracket.enclose level.template), s.outer, true⟩ := by
  have hopen : s.step ⟨bracket.openToken, touching⟩ = .ok (s.enter bracket) := by
    cases bracket <;> rfl
  have hclose : State.step ⟨level, (bracket, s.level) :: s.outer, closed⟩
      ⟨bracket.closeToken, touching'⟩ =
      .ok ⟨s.level.push (bracket.enclose level.template), s.outer, true⟩ := by
    cases bracket <;> rfl
  refine bind_eq_ok_iff.2 ⟨_, hopen, ?_⟩
  rw [List.append_eq, List.foldlM_append, h]
  exact bind_eq_ok_iff.2 ⟨_, rfl, bind_eq_ok_iff.2 ⟨_, hclose, rfl⟩⟩

end Parser

open Template.Parser

mutual

/-- The reader goes along with the derivation of an item, and puts it behind those before. -/
theorem DerivesItem.foldlM_step {lexemes : List Lexeme} {bracket : Bool} {item : Template}
    (h : DerivesItem lexemes bracket item) (s : State)
    (complete : s.closed = true → ¬ BeginsWithValue lexemes) :
    lexemes.foldlM State.step s = .ok ⟨s.level.push item, s.outer, bracket⟩ := by
  match h with
  | .rule => rfl
  | .slot => rfl
  | @DerivesItem.word text touching _ legal =>
    -- What was read before ends with no bracket that would be given the word as its value.
    have hnone : s.substitution? ⟨.word text, touching⟩ = none := by
      cases touching with
      | false => rfl
      | true =>
        rw [State.substitution?]
        split
        · next hclosed =>
          rw [Option.eq_none_iff_forall_ne_some]
          exact fun value hafter => complete hclosed
            (beginsWithValue_word.2 ⟨rfl, value, hafter⟩)
        · rfl
    rw [List.foldlM_cons, State.step]
    simp only [hnone, Option.bind_none, ofWord_eq_ok_iff.2 legal]
    rfl
  | .group inside =>
    obtain ⟨level, closed, hlevel, htemplate⟩ :=
      inside.foldlM_step [] ((.group, s.level) :: s.outer)
    rw [List.reverse_nil, List.nil_append] at htemplate
    rw [← htemplate]
    exact @foldlM_bracket s .group _ _ _ _ _ hlevel
  | .option inside =>
    obtain ⟨level, closed, hlevel, htemplate⟩ :=
      inside.foldlM_step [] ((.option, s.level) :: s.outer)
    rw [List.reverse_nil, List.nil_append] at htemplate
    rw [← htemplate]
    exact @foldlM_bracket s .option _ _ _ _ _ hlevel
  | @DerivesItem.substituted _ _ value part =>
    rw [beginsWithValue_append part.ne_nil] at complete
    rw [List.foldlM_append, part.foldlM_step s complete]
    have hafter : Text.after? ":" (":" ++ value) = some value := Text.after?_eq_some_iff.2 rfl
    change [_].foldlM State.step _ = _
    rw [List.foldlM_cons, State.step]
    simp only [State.substitution?, ↓reduceIte, hafter, Option.bind_some]
    rfl
  | .tagged part =>
    rw [beginsWithValue_append part.ne_nil] at complete
    rw [List.foldlM_append, part.foldlM_step s complete]
    rfl

/-- The reader goes along with the derivation of the items of a sequence. -/
theorem DerivesSequence.foldlM_step {lexemes : List Lexeme} {items : List Template}
    (h : DerivesSequence lexemes items) (s : State)
    (complete : s.closed = true → ¬ BeginsWithValue lexemes) :
    ∃ closed, lexemes.foldlM State.step s =
      .ok ⟨⟨s.level.branches, items.reverse ++ s.level.items⟩, s.outer, closed⟩ := by
  match h with
  | .nil => exact ⟨s.closed, rfl⟩
  | @DerivesSequence.cons _ _ _ item _ first completeFirst others =>
    rw [beginsWithValue_append first.ne_nil] at complete
    obtain ⟨closed, hothers⟩ := others.foldlM_step ⟨s.level.push item, s.outer, _⟩ completeFirst
    refine ⟨closed, ?_⟩
    rw [List.foldlM_append, first.foldlM_step s complete, List.reverse_cons, List.append_assoc]
    exact hothers

/-- The reader goes along with the derivation of the branches of an alternation. -/
theorem DerivesAlternation.foldlM_step {lexemes : List Lexeme} {branches : List Template}
    (h : DerivesAlternation lexemes branches) (before : List Template)
    (outer : List (Bracket × Level)) :
    ∃ level closed, lexemes.foldlM State.step ⟨⟨before, []⟩, outer, false⟩ =
        .ok ⟨level, outer, closed⟩ ∧
      level.template = ofBranches (before.reverse ++ branches) := by
  match h with
  | .single branch =>
    obtain ⟨closed, hbranch⟩ := branch.foldlM_step ⟨⟨before, []⟩, outer, false⟩ (by simp)
    refine ⟨_, closed, hbranch, ?_⟩
    rw [Level.template, Level.bar, List.append_nil, List.reverse_reverse, List.reverse_cons]
  | @DerivesAlternation.bar _ _ touching items _ branch others =>
    obtain ⟨closed, hbranch⟩ := branch.foldlM_step ⟨⟨before, []⟩, outer, false⟩ (by simp)
    obtain ⟨level, closed', hothers, htemplate⟩ :=
      others.foldlM_step (ofItems items :: before) outer
    have hbar : State.step ⟨⟨before, items.reverse ++ []⟩, outer, closed⟩ ⟨.bar, touching⟩ =
        .ok ⟨⟨ofItems items :: before, []⟩, outer, false⟩ := by
      rw [State.step, Level.bar, List.append_nil, List.reverse_reverse]
    refine ⟨level, closed', ?_, ?_⟩
    · rw [List.foldlM_append, hbranch]
      exact bind_eq_ok_iff.2 ⟨_, rfl, bind_eq_ok_iff.2 ⟨_, hbar, hothers⟩⟩
    · rw [htemplate, List.reverse_cons, List.append_assoc]
      rfl

end

/-! ### Texts -/

/-- Tokens are read as the template that they make. -/
theorem ofLexemes_eq_ok_iff {lexemes : List Lexeme} {t : Template} :
    ofLexemes lexemes = .ok t ↔ Derives lexemes t := by
  constructor
  · intro h
    obtain ⟨s, hsteps, hfinish⟩ := bind_eq_ok_iff.1 h
    exact (State.Reads.initial.foldlM_step hsteps).finish hfinish
  · rintro ⟨branches, hbranches, rfl⟩
    obtain ⟨level, closed, hsteps, htemplate⟩ := hbranches.foldlM_step [] []
    refine bind_eq_ok_iff.2 ⟨_, hsteps, ?_⟩
    rw [State.finish, htemplate]
    rfl

/-- Tokens make at most one template. -/
theorem Derives.unique {lexemes : List Lexeme} {t t' : Template} (h : Derives lexemes t)
    (h' : Derives lexemes t') : t = t' :=
  Except.ok.inj ((ofLexemes_eq_ok_iff.2 h).symm.trans (ofLexemes_eq_ok_iff.2 h'))

/-- A line is read as a template exactly when its text has tokens that make the template, they
make no other one, and when the line is refused this is reported for its part and its number. -/
theorem ofLine_eq_ok_iff_derives (label : String) (line : Nat) (text : String) :
    (∀ t, ofLine label line text = .ok t ↔
      ∃ lexemes, Token.scan false text.toList = .ok lexemes ∧ Derives lexemes t) ∧
    (∀ lexemes t t', Derives lexemes t → Derives lexemes t' → t = t') ∧
    ∀ e, ofLine label line text = .error e → ∃ fault, e = .malformedLine label line fault := by
  refine ⟨fun t => ?_, fun _ _ _ => Derives.unique, fun e h => ?_⟩
  · rw [ofLine, mapError_eq_ok_iff, ofText, bind_eq_ok_iff]
    simp only [ofLexemes_eq_ok_iff]
  · rw [ofLine] at h
    cases htext : ofText text with
    | ok t =>
      rw [htext] at h
      cases h
    | error fault =>
      rw [htext] at h
      cases h
      exact ⟨fault, rfl⟩

end Template

end Phrasebook
