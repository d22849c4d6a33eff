import Phrasebook.Proofs.Grammar
import Phrasebook.Proofs.Text.Lines

/-!
# Grammars that are put together

A grammar is read line by line. A header begins a section of which nothing is there yet, so the
lines behind it add to this section what they would add without the sections before; all that
these can do is to have the name already. Two texts of which the second begins with a header are
therefore read one by one. Remarks are passed over wherever they stand, and reading stops at the
first line that cannot be read, whichever intents are allowed.

* `GrammarLine.IsRemark`, `GrammarLine.IsHeader`: blank lines and comments, and lines that begin a
  section.
* `Section.Reads`, `Section.ReadsAll`: what a line and what some lines make of the sections so
  far.
* `Section.reads_append_old_iff`, `Section.readsAll_append_apart_iff`: lines that begin with a
  header are read apart.
* `Section.Remarked.readsAll_iff`: remarks change nothing.
* `Section.addLines_eq_error_iff`, `Section.addLines_eq_error_at_iff`: reading fails at the first
  line that cannot be read.
* `Grammar.ofTextWith_composes`: texts are read section by section.
-/

namespace Phrasebook

namespace GrammarLine

/-- A line says nothing: it is blank, or a number sign or a semicolon comes first. -/
def IsRemark (line : String) : Prop :=
  ∀ c ∈ (Text.trimChars line.toList).head?, c = '#' ∨ c = ';'

instance (line : String) : Decidable (IsRemark line) :=
  Option.decidableForallMem _

/-- A line is in square brackets and holds no other ones; a name stands between them. -/
def IsHeader (line name : String) : Prop :=
  ∃ inner, Text.trimChars line.toList = '[' :: (inner ++ [']']) ∧ '[' ∉ inner ∧ ']' ∉ inner ∧
    name = String.ofList (Text.trimChars inner)

/-- The name in a header. -/
def headerName? : GrammarLine → Option String
  | header _ name => some name
  | _ => none

theorem bracketed?_eq_some_iff {cs inner : List Char} :
    bracketed? cs = some inner ↔ cs = '[' :: (inner ++ [']']) ∧ '[' ∉ inner ∧ ']' ∉ inner := by
  have hall : ∀ cs : List Char, cs.all (fun c => c != '[' && c != ']') = true ↔
      '[' ∉ cs ∧ ']' ∉ cs := by
    intro cs
    rw [List.all_eq_true]
    constructor
    · exact fun h => ⟨fun hmem => by simpa using h _ hmem, fun hmem => by simpa using h _ hmem⟩
    · rintro ⟨hopen, hclose⟩ c hc
      have hopen' : c ≠ '[' := fun heq => hopen (heq ▸ hc)
      have hclose' : c ≠ ']' := fun heq => hclose (heq ▸ hc)
      simp [hopen', hclose']
  constructor
  · intro h
    unfold bracketed? at h
    split at h
    · next cs =>
      split at h
      · next hcs =>
        cases h
        obtain ⟨init, rfl⟩ := List.getLast?_eq_some_iff.1 hcs.1
        rw [List.dropLast_concat] at hcs ⊢
        exact ⟨rfl, (hall init).1 hcs.2⟩
      · cases h
    · cases h
  · rintro ⟨rfl, hinner⟩
    have hlast : (inner ++ [']']).getLast? = some ']' := List.getLast?_concat
    rw [bracketed?, List.dropLast_concat, if_pos ⟨hlast, (hall inner).2 hinner⟩]

theorem ofText_eq_nothing_iff {line : String} : ofText line = .nothing ↔ IsRemark line := by
  rw [ofText, IsRemark]
  cases Text.trimChars line.toList with
  | nil => simp
  | cons c cs =>
    dsimp only [List.head?_cons]
    split
    · next hremark => exact iff_of_true rfl fun c hc => Option.some.inj hc ▸ hremark
    · next hremark =>
      refine iff_of_false ?_ fun h => hremark (h c rfl)
      split
      · exact GrammarLine.noConfusion
      · split <;> exact GrammarLine.noConfusion

theorem isHeader_iff {line name : String} : IsHeader line name ↔
    ∃ inner, bracketed? (Text.trimChars line.toList) = some inner ∧
      name = String.ofList (Text.trimChars inner) := by
  simp only [IsHeader, bracketed?_eq_some_iff, and_assoc]

theorem headerName?_ofText_eq_some_iff {line name : String} :
    (ofText line).headerName? = some name ↔ IsHeader line name := by
  rw [isHeader_iff, ofText]
  cases Text.trimChars line.toList with
  | nil => simp [bracketed?, headerName?]
  | cons c cs =>
    dsimp only
    split
    · next hremark => rcases hremark with rfl | rfl <;> simp [bracketed?, headerName?]
    · split
      · next inner hinner => simp [headerName?, hinner, eq_comm]
      · next hinner => split <;> simp [headerName?, hinner]

instance (line : String) : Decidable (∃ name, IsHeader line name) :=
  decidable_of_iff ((ofText line).headerName?.isSome = true) <| by
    simp only [Option.isSome_iff_exists, headerName?_ofText_eq_some_iff]

end GrammarLine

namespace Section

open GrammarLine (IsRemark IsHeader)

variable {sections sections' own old : List Section} {s s' : Section} {line : String}
  {lines before behind : List String} {number : Nat}

/-! ### What lines make of sections -/

/-- What a line that can be read makes of the sections so far, last first. -/
inductive Reads : List Section → GrammarLine → List Section → Prop
  /-- Nothing is said. -/
  | nothing {sections : List Section} : Reads sections .nothing sections
  /-- A section begins. -/
  | header {sections : List Section} {header name : String}
    (identifier : isIdentifier name.toList = true) (isNew : name ∉ sections.map intent) :
    Reads sections (.header header name) (new name :: sections)
  /-- The last section has one more rule. -/
  | rule {s : Section} {rest : List Section} {name body : String} {t : Template}
    (nonempty : body.isEmpty = false) (read : Template.ofText body = .ok t)
    (isNew : s.rules.contains name = false) :
    Reads (s :: rest) (.rule name body) ({ s with rules := s.rules.insert name t } :: rest)
  /-- The last section has one more sentence. -/
  | sentence {s : Section} {rest : List Section} {text : String} {t : Template}
    (read : Template.ofText text = .ok t) :
    Reads (s :: rest) (.sentence text) ({ s with sentences := s.sentences ++ [t] } :: rest)

/-- What some lines make of the sections so far. -/
inductive ReadsAll : List Section → List String → List Section → Prop
  /-- There is no line. -/
  | nil {sections : List Section} : ReadsAll sections [] sections
  /-- The first line is read, and then the others. -/
  | cons {sections middle sections' : List Section} {line : String} {lines : List String}
    (first : Reads sections (.ofText line) middle) (rest : ReadsAll middle lines sections') :
    ReadsAll sections (line :: lines) sections'

theorem ofLine_eq_ok_iff {label text : String} {t : Template} :
    Template.ofLine label number text = .ok t ↔ Template.ofText text = .ok t :=
  mapError_eq_ok_iff

theorem addRule_eq_ok_iff {name body : String} : s.addRule number name body = .ok s' ↔
    body.isEmpty = false ∧ ∃ t, Template.ofText body = .ok t ∧ s.rules.contains name = false ∧
      { s with rules := s.rules.insert name t } = s' := by
  rw [addRule]
  split
  · next hempty => simp [hempty, throw, throwThe, MonadExceptOf.throw, bind, Except.bind]
  · next hempty =>
    simp only [bind_eq_ok_iff, ofLine_eq_ok_iff, Bool.not_eq_true] at hempty ⊢
    refine (and_iff_right hempty).symm.trans (and_congr_right' (exists_congr fun t => ?_))
    refine and_congr_right' ?_
    split
    · next hold => simp [hold, throw, throwThe, MonadExceptOf.throw, bind, Except.bind]
    · next hnew => simp [hnew]

theorem addSentence_eq_ok_iff {text : String} : s.addSentence number text = .ok s' ↔
    ∃ t, Template.ofText text = .ok t ∧ { s with sentences := s.sentences ++ [t] } = s' := by
  simp only [addSentence, bind_eq_ok_iff, ofLine_eq_ok_iff, pure_eq_ok_iff]

/-- A line can be read whatever its number is. -/
theorem addLine_eq_ok_iff {line : GrammarLine} :
    addLine sections number line = .ok sections' ↔ Reads sections line sections' := by
  constructor
  · intro h
    cases line with
    | nothing => cases h; exact .nothing
    | header header name =>
      rw [addLine] at h
      split at h
      · cases h
      · next hidentifier =>
        split at h
        · cases h
        · next hnew =>
          cases h
          refine .header (by simpa using hidentifier) fun hmem => hnew ?_
          obtain ⟨s, hs, hname⟩ := List.mem_map.1 hmem
          exact List.any_eq_true.2 ⟨s, hs, decide_eq_true hname⟩
    | rule name body =>
      cases sections with
      | nil => cases h
      | cons s rest =>
        obtain ⟨s', hs', h⟩ := bind_eq_ok_iff.1 h
        cases h
        obtain ⟨nonempty, t, read, isNew, rfl⟩ := addRule_eq_ok_iff.1 hs'
        exact .rule nonempty read isNew
    | sentence text =>
      cases sections with
      | nil => cases h
      | cons s rest =>
        obtain ⟨s', hs', h⟩ := bind_eq_ok_iff.1 h
        cases h
        obtain ⟨t, read, rfl⟩ := addSentence_eq_ok_iff.1 hs'
        exact .sentence read
  · intro h
    cases h with
    | nothing => rfl
    | header identifier isNew =>
      have hany : ¬ sections.any (·.intent = _) = true := fun hany => by
        obtain ⟨s, hs, hname⟩ := List.any_eq_true.1 hany
        exact isNew (List.mem_map.2 ⟨s, hs, of_decide_eq_true hname⟩)
      rw [addLine, identifier, Bool.not_true, if_neg Bool.false_ne_true, if_neg hany]
    | rule nonempty read isNew =>
      exact bind_eq_ok_iff.2 ⟨_, addRule_eq_ok_iff.2 ⟨nonempty, _, read, isNew, rfl⟩, rfl⟩
    | sentence read =>
      exact bind_eq_ok_iff.2 ⟨_, addSentence_eq_ok_iff.2 ⟨_, read, rfl⟩, rfl⟩

theorem addLines_eq_ok_iff :
    addLines sections number lines = .ok sections' ↔ ReadsAll sections lines sections' := by
  induction lines generalizing sections number with
  | nil =>
    constructor
    · rintro ⟨⟩
      exact .nil
    · rintro ⟨⟩
      rfl
  | cons line lines ih =>
    rw [addLines, bind_eq_ok_iff]
    constructor
    · rintro ⟨middle, hfirst, hrest⟩
      exact .cons (addLine_eq_ok_iff.1 hfirst) (ih.1 hrest)
    · rintro (_ | ⟨first, rest⟩)
      exact ⟨_, addLine_eq_ok_iff.2 first, ih.2 rest⟩

/-- Some lines are read one after another. -/
theorem readsAll_append_iff : ReadsAll sections (before ++ behind) sections' ↔
    ∃ middle, ReadsAll sections before middle ∧ ReadsAll middle behind sections' := by
  induction before generalizing sections with
  | nil =>
    constructor
    · exact fun h => ⟨_, .nil, h⟩
    · rintro ⟨_, ⟨⟩, h⟩
      exact h
  | cons line before ih =>
    constructor
    · rintro (_ | ⟨first, rest⟩)
      obtain ⟨middle, hbefore, hbehind⟩ := ih.1 rest
      exact ⟨middle, .cons first hbefore, hbehind⟩
    · rintro ⟨middle, _ | ⟨first, rest⟩, hbehind⟩
      exact .cons first (ih.2 ⟨middle, rest, hbehind⟩)

/-! ### Remarks -/

/-- Some lines with remarks inserted between them. -/
inductive Remarked : List String → List String → Prop
  /-- There is no line. -/
  | nil : Remarked [] []
  /-- A line stays. -/
  | keep {lines remarked : List String} (line : String) (rest : Remarked lines remarked) :
    Remarked (line :: lines) (line :: remarked)
  /-- A remark is inserted. -/
  | insert {lines remarked : List String} {line : String} (remark : IsRemark line)
    (rest : Remarked lines remarked) : Remarked lines (line :: remarked)

/-- A remark is added behind the last line. -/
theorem Remarked.concat (hline : IsRemark line) : ∀ lines : List String,
    Remarked lines (lines ++ [line])
  | [] => .insert hline .nil
  | first :: lines => .keep first (concat hline lines)

/-- A remark makes nothing of the sections. -/
theorem reads_remark_iff (h : IsRemark line) :
    Reads sections (.ofText line) sections' ↔ sections' = sections := by
  rw [GrammarLine.ofText_eq_nothing_iff.2 h]
  constructor
  · rintro ⟨⟩
    rfl
  · rintro rfl
    exact .nothing

/-- Remarks change nothing. -/
theorem Remarked.readsAll_iff {remarked : List String} (h : Remarked lines remarked) :
    ReadsAll sections remarked sections' ↔ ReadsAll sections lines sections' := by
  induction h generalizing sections with
  | nil => exact .rfl
  | keep line _ ih =>
    constructor
    · rintro (_ | ⟨first, rest⟩)
      exact .cons first (ih.1 rest)
    · rintro (_ | ⟨first, rest⟩)
      exact .cons first (ih.2 rest)
  | insert remark _ ih =>
    rw [← ih]
    constructor
    · rintro (_ | ⟨first, rest⟩)
      cases (reads_remark_iff remark).1 first
      exact rest
    · exact fun rest => .cons ((reads_remark_iff remark).2 rfl) rest

/-! ### Sections behind others -/

/-- The names in the headers among some lines. -/
def headerNames (lines : List String) : List String :=
  lines.filterMap fun line => (GrammarLine.ofText line).headerName?

/-- The first line that is no remark is a header. -/
def OpensSection (lines : List String) : Prop :=
  ∀ line ∈ lines.find? fun line => ¬ IsRemark line, ∃ name, IsHeader line name

instance (lines : List String) : Decidable (OpensSection lines) := Option.decidableForallMem _

theorem headerNames_cons : headerNames (line :: lines) =
    (GrammarLine.ofText line).headerName?.toList ++ headerNames lines := by
  rw [headerNames, List.filterMap_cons]
  cases (GrammarLine.ofText line).headerName? <;> rfl

/-- Behind a remark a header comes first as well. -/
theorem OpensSection.tail (h : OpensSection (line :: lines)) (hline : IsRemark line) :
    OpensSection lines := by
  rwa [OpensSection, List.find?_cons_of_neg (by simpa using hline)] at h

theorem OpensSection.head (h : OpensSection (line :: lines)) (hline : ¬ IsRemark line) :
    ∃ name, IsHeader line name :=
  h line (List.find?_cons_of_pos (by simpa using hline))

/-- The intents of the sections are those that the headers name. -/
theorem Reads.map_intent {line : GrammarLine} (h : Reads sections line sections') :
    sections'.map intent = line.headerName?.toList ++ sections.map intent := by
  cases h <;> rfl

/-- Behind a line that says something there is a section. -/
theorem Reads.ne_nil {line : GrammarLine} (h : Reads sections line sections')
    (hline : line ≠ .nothing) : sections' ≠ [] := by
  cases h with
  | nothing => exact absurd rfl hline
  | header | rule | sentence => exact List.cons_ne_nil _ _

theorem ReadsAll.map_intent (h : ReadsAll sections lines sections') :
    sections'.map intent = (headerNames lines).reverse ++ sections.map intent := by
  induction h with
  | nil => rfl
  | @cons _ _ _ line lines first _ ih =>
    rw [ih, first.map_intent, headerNames_cons]
    cases (GrammarLine.ofText line).headerName? with
    | none => rfl
    | some name => simp

/-- A line that begins a section, or that belongs to one that has begun, is read apart from the
sections before. It can be read behind them when it does not begin one of them anew. -/
theorem reads_append_old_iff {line : GrammarLine}
    (hline : own ≠ [] ∨ line = .nothing ∨ ∃ name, line.headerName? = some name) :
    Reads (own ++ old) line sections ↔ ∃ own', Reads own line own' ∧
      line.headerName?.toList.Disjoint (old.map intent) ∧ sections = own' ++ old := by
  have hnone : ([] : List String).Disjoint (old.map intent) := List.disjoint_nil_left _
  constructor
  · intro h
    generalize hall : own ++ old = all at h
    cases h with
    | nothing => exact ⟨own, .nothing, hnone, hall.symm⟩
    | header identifier isNew =>
      rw [← hall, List.map_append, List.mem_append, not_or] at isNew
      exact ⟨_, .header identifier isNew.1, List.singleton_disjoint.2 isNew.2,
        congrArg (_ :: ·) hall.symm⟩
    | rule nonempty read isNew =>
      -- A rule goes into the last section, which is not one of the old ones.
      have hown : own ≠ [] := hline.resolve_right (by rintro (h | ⟨_, h⟩) <;> cases h)
      obtain ⟨s, rest, rfl⟩ := List.exists_cons_of_ne_nil hown
      cases hall
      exact ⟨_, .rule nonempty read isNew, hnone, rfl⟩
    | sentence read =>
      have hown : own ≠ [] := hline.resolve_right (by rintro (h | ⟨_, h⟩) <;> cases h)
      obtain ⟨s, rest, rfl⟩ := List.exists_cons_of_ne_nil hown
      cases hall
      exact ⟨_, .sentence read, hnone, rfl⟩
  · rintro ⟨own', h, hnew, rfl⟩
    cases h with
    | nothing => exact .nothing
    | header identifier isNew =>
      refine .header identifier ?_
      rw [List.map_append, List.mem_append, not_or]
      exact ⟨isNew, List.singleton_disjoint.1 hnew⟩
    | rule nonempty read isNew => exact .rule nonempty read isNew
    | sentence read => exact .sentence read

/-- Lines that begin with a header, or that belong to a section that has begun, are read apart from
the sections before. They can be read behind these when no header names one of them. -/
theorem readsAll_append_old_iff (hlines : own ≠ [] ∨ OpensSection lines) :
    ReadsAll (own ++ old) lines sections ↔ ∃ own', ReadsAll own lines own' ∧
      (headerNames lines).Disjoint (old.map intent) ∧ sections = own' ++ old := by
  induction lines generalizing own with
  | nil =>
    constructor
    · rintro ⟨⟩
      exact ⟨own, .nil, List.disjoint_nil_left _, rfl⟩
    · rintro ⟨_, ⟨⟩, -, rfl⟩
      exact .nil
  | cons line lines ih =>
    have hline : own ≠ [] ∨ GrammarLine.ofText line = .nothing ∨
        ∃ name, (GrammarLine.ofText line).headerName? = some name := by
      refine hlines.imp_right fun hopens => ?_
      simp only [GrammarLine.ofText_eq_nothing_iff, GrammarLine.headerName?_ofText_eq_some_iff]
      by_cases hremark : IsRemark line
      · exact .inl hremark
      · exact .inr (hopens.head hremark)
    -- When the line was a remark, the header is still to come; otherwise a section has begun.
    have hrest : ∀ own', Reads own (.ofText line) own' → own' ≠ [] ∨ OpensSection lines := by
      intro own' h
      by_cases hremark : IsRemark line
      · rw [(reads_remark_iff hremark).1 h]
        exact hlines.imp_right fun hopens => hopens.tail hremark
      · exact .inl (h.ne_nil (mt GrammarLine.ofText_eq_nothing_iff.1 hremark))
    rw [headerNames_cons, List.disjoint_append_left]
    constructor
    · rintro (_ | ⟨first, rest⟩)
      obtain ⟨own₁, hfirst, hnew, rfl⟩ := (reads_append_old_iff hline).1 first
      obtain ⟨own₂, hown, hnews, rfl⟩ := (ih (hrest own₁ hfirst)).1 rest
      exact ⟨own₂, .cons hfirst hown, ⟨hnew, hnews⟩, rfl⟩
    · rintro ⟨own₂, _ | ⟨first, rest⟩, ⟨hnew, hnews⟩, rfl⟩
      exact .cons ((reads_append_old_iff hline).2 ⟨_, first, hnew, rfl⟩)
        ((ih (hrest _ first)).2 ⟨own₂, rest, hnews, rfl⟩)

/-- Behind other lines, those that begin with a header are read as they are on their own, when no
section has the same name in both. -/
theorem readsAll_append_apart_iff (hbehind : OpensSection behind) :
    ReadsAll [] (before ++ behind) sections ↔ ∃ old own, ReadsAll [] before old ∧
      ReadsAll [] behind own ∧ (headerNames before).Disjoint (headerNames behind) ∧
        sections = own ++ old := by
  rw [readsAll_append_iff]
  refine exists_congr fun old => ?_
  have happend := @readsAll_append_old_iff sections [] old behind (.inr hbehind)
  rw [List.nil_append] at happend
  rw [happend, ← exists_and_left]
  refine exists_congr fun own => and_congr_right fun hbefore => and_congr_right' ?_
  -- The sections that are there have the names in the headers before.
  rw [hbefore.map_intent, List.map_nil, List.append_nil, List.disjoint_comm]
  exact and_congr_left' ⟨fun h name hname => h (List.mem_reverse.2 hname),
    fun h name hname => h (List.mem_reverse.1 hname)⟩

/-! ### The line that cannot be read -/

/-- The error is that of the line with a given number. -/
def IsAtLine (number : Nat) (e : Error) : Prop :=
  ∃ label fault, e = .malformedLine label number fault

theorem isAtLine_of_ofLine {label text : String} {e : Error}
    (h : Template.ofLine label number text = .error e) : IsAtLine number e := by
  rw [Template.ofLine] at h
  cases htext : Template.ofText text with
  | ok t =>
    rw [htext] at h
    cases h
  | error fault =>
    rw [htext] at h
    cases h
    exact ⟨label, fault, rfl⟩

theorem isAtLine_of_addRule {name body : String} {e : Error}
    (h : s.addRule number name body = .error e) : IsAtLine number e := by
  rw [addRule] at h
  split at h
  · cases h
    exact ⟨_, _, rfl⟩
  · rcases bind_eq_error_iff.1 h with hread | ⟨t, -, h⟩
    · exact isAtLine_of_ofLine hread
    · split at h
      · cases h
        exact ⟨_, _, rfl⟩
      · cases h

/-- A line that cannot be read is reported by its number. -/
theorem isAtLine_of_addLine {line : GrammarLine} {e : Error}
    (h : addLine sections number line = .error e) : IsAtLine number e := by
  cases line with
  | nothing => cases h
  | header header name =>
    rw [addLine] at h
    split at h
    · cases h
      exact ⟨_, _, rfl⟩
    · split at h
      · cases h
        exact ⟨_, _, rfl⟩
      · cases h
  | rule name body =>
    cases sections with
    | nil =>
      cases h
      exact ⟨_, _, rfl⟩
    | cons s rest =>
      rcases bind_eq_error_iff.1 h with hrule | ⟨s', -, h⟩
      · exact isAtLine_of_addRule hrule
      · cases h
  | sentence text =>
    cases sections with
    | nil =>
      cases h
      exact ⟨_, _, rfl⟩
    | cons s rest =>
      rcases bind_eq_error_iff.1 h with hsentence | ⟨s', -, h⟩
      · rcases bind_eq_error_iff.1 hsentence with hread | ⟨t, -, h⟩
        · exact isAtLine_of_ofLine hread
        · cases h
      · cases h

/-- Lines cannot be read when there is a first one that cannot be. -/
theorem addLines_eq_error_iff {e : Error} : addLines sections number lines = .error e ↔
    ∃ before line behind middle, lines = before ++ line :: behind ∧
      ReadsAll sections before middle ∧
      addLine middle (number + before.length) (.ofText line) = .error e := by
  induction lines generalizing sections number with
  | nil =>
    constructor
    · rintro ⟨⟩
    · rintro ⟨before, line, behind, _, heq, -⟩
      simp at heq
  | cons line lines ih =>
    rw [addLines, bind_eq_error_iff]
    constructor
    · rintro (hfirst | ⟨middle, hfirst, hrest⟩)
      · exact ⟨[], line, lines, sections, rfl, .nil, hfirst⟩
      · obtain ⟨before, bad, behind, last, rfl, hbefore, hbad⟩ := ih.1 hrest
        refine ⟨line :: before, bad, behind, last, rfl,
          .cons (addLine_eq_ok_iff.1 hfirst) hbefore, ?_⟩
        rwa [List.length_cons, Nat.add_comm before.length, ← Nat.add_assoc]
    · rintro ⟨_ | ⟨_, before⟩, bad, behind, last, heq, hbefore, hbad⟩
      · cases heq
        cases hbefore
        exact .inl hbad
      · cases heq
        obtain _ | ⟨first, rest⟩ := hbefore
        refine .inr ⟨_, addLine_eq_ok_iff.2 first, ih.2 ⟨before, bad, behind, last, rfl, rest, ?_⟩⟩
        rwa [List.length_cons, Nat.add_comm before.length, ← Nat.add_assoc] at hbad

/-- Reading fails at a line when the lines before it can be read, and those up to it fail so. -/
theorem addLines_eq_error_at_iff {k : Nat} {e : Error} :
    addLines [] 1 lines = .error e ∧ IsAtLine k e ↔
      (∃ sections, ReadsAll [] (lines.take (k - 1)) sections) ∧
        addLines [] 1 (lines.take k) = .error e := by
  constructor
  · rintro ⟨herror, hat⟩
    obtain ⟨before, line, behind, middle, rfl, hbefore, hbad⟩ := addLines_eq_error_iff.1 herror
    obtain ⟨label, fault, rfl⟩ := isAtLine_of_addLine hbad
    obtain ⟨_, _, heq⟩ := hat
    obtain rfl : 1 + before.length = k := by
      cases heq
      rfl
    rw [Nat.add_sub_cancel_left, List.take_left, Nat.add_comm, List.take_length_add_append,
      List.take_succ_cons, List.take_zero]
    exact ⟨⟨middle, hbefore⟩, addLines_eq_error_iff.2 ⟨before, line, [], middle, rfl, hbefore,
      Nat.add_comm 1 _ ▸ hbad⟩⟩
  · rintro ⟨⟨sections, hsections⟩, herror⟩
    obtain ⟨before, line, behind, middle, htake, hbefore, hbad⟩ := addLines_eq_error_iff.1 herror
    have hlength := congrArg List.length htake
    rw [List.length_take, List.length_append, List.length_cons] at hlength
    -- The lines before could not be read if the bad line was among them.
    have hlast : k = 1 + before.length := by
      by_contra hne
      obtain ⟨m, hm⟩ : ∃ m, k - 1 = before.length + (m + 1) := ⟨k - 2 - before.length, by omega⟩
      have hinside : lines.take (k - 1) = before ++ line :: behind.take m := by
        rw [← Nat.min_eq_left (Nat.sub_le k 1), ← List.take_take, htake, hm,
          List.take_length_add_append, List.take_succ_cons]
      have hok := (@addLines_eq_ok_iff _ _ _ 1).2 hsections
      rw [hinside, addLines_eq_error_iff.2 ⟨_, _, _, _, rfl, hbefore, hbad⟩] at hok
      cases hok
    refine ⟨addLines_eq_error_iff.2 ⟨before, line, behind ++ lines.drop k, middle, ?_, hbefore,
      hbad⟩, hlast ▸ isAtLine_of_addLine hbad⟩
    rw [← List.cons_append, ← List.append_assoc, ← htake, List.take_append_drop]

end Section

namespace Grammar

open Section (ReadsAll IsAtLine)

variable {allowed : Option WordSet} {text first second : String} {grammar : Grammar}

theorem ofTextWith_eq_ok_iff : ofTextWith allowed text = .ok grammar ↔
    ∃ sections, ReadsAll [] (Text.lines text) sections ∧
      restrict allowed sections.reverse = grammar := by
  simp only [ofTextWith, ofText, map_eq_ok_iff, Section.addLines_eq_ok_iff,
    exists_exists_and_eq_and]

theorem ofTextWith_eq_error_iff {e : Error} :
    ofTextWith allowed text = .error e ↔ Section.addLines [] 1 (Text.lines text) = .error e := by
  rw [ofTextWith, ofText]
  cases Section.addLines [] 1 (Text.lines text) <;> simp [Functor.map, Except.map]

/-- Texts can be read, whichever intents are allowed, when their lines can be. -/
theorem exists_ofTextWith_iff : (∃ grammar, ofTextWith allowed text = .ok grammar) ↔
    ∃ sections, ReadsAll [] (Text.lines text) sections := by
  simp only [ofTextWith_eq_ok_iff]
  exact ⟨fun ⟨_, sections, h, _⟩ => ⟨sections, h⟩, fun ⟨sections, h⟩ => ⟨_, sections, h, rfl⟩⟩

theorem restrict_append (allowed : Option WordSet) (g₁ g₂ : Grammar) :
    restrict allowed (g₁ ++ g₂) = restrict allowed g₁ ++ restrict allowed g₂ := by
  cases allowed with
  | none => rfl
  | some names => exact List.filter_append g₁ g₂

/-- The names that the headers of a text give. -/
def sectionNames (text : String) : List String := Section.headerNames (Text.lines text)

/-- The lines on both sides of a line feed are read one after another. An empty one may stand
between them, which changes nothing. -/
theorem readsAll_lines_append_iff {sections : List Section} :
    ReadsAll [] (Text.lines (first ++ "\n" ++ second)) sections ↔
      ReadsAll [] (Text.lines first ++ Text.lines second) sections := by
  rw [Text.lines_append_newline]
  rcases Text.map_splitOn_eq_or first with hlines | hlines
  · rw [hlines]
  · have hempty : Section.Remarked (Text.lines first) (Text.lines first ++ [""]) :=
      Section.Remarked.concat (by decide) _
    rw [hlines, Section.readsAll_append_iff, Section.readsAll_append_iff]
    simp only [hempty.readsAll_iff]

/-- A text that begins with a section is read apart from the text before. -/
theorem ofTextWith_append_eq_ok_iff (hsecond : Section.OpensSection (Text.lines second)) :
    ofTextWith allowed (first ++ "\n" ++ second) = .ok grammar ↔
      ∃ g₁ g₂, ofTextWith allowed first = .ok g₁ ∧ ofTextWith allowed second = .ok g₂ ∧
        (sectionNames first).Disjoint (sectionNames second) ∧ grammar = g₁ ++ g₂ := by
  simp only [ofTextWith_eq_ok_iff, readsAll_lines_append_iff,
    Section.readsAll_append_apart_iff hsecond]
  constructor
  · rintro ⟨_, ⟨old, own, hfirst, hsecond, hnames, rfl⟩, rfl⟩
    refine ⟨_, _, ⟨old, hfirst, rfl⟩, ⟨own, hsecond, rfl⟩, hnames, ?_⟩
    rw [List.reverse_append, restrict_append]
  · rintro ⟨_, _, ⟨old, hfirst, rfl⟩, ⟨own, hsecond, rfl⟩, hnames, rfl⟩
    refine ⟨_, ⟨old, own, hfirst, hsecond, hnames, rfl⟩, ?_⟩
    rw [List.reverse_append, restrict_append]

/-- Remarks change nothing. -/
theorem ofTextWith_remarked_eq_ok_iff {remarked : String}
    (h : Section.Remarked (Text.lines text) (Text.lines remarked)) :
    ofTextWith allowed remarked = .ok grammar ↔ ofTextWith allowed text = .ok grammar := by
  simp only [ofTextWith_eq_ok_iff, h.readsAll_iff]

/-- Every failure is that of a line. -/
theorem exists_isAtLine_of_ofTextWith {e : Error} (h : ofTextWith allowed text = .error e) :
    ∃ k, IsAtLine k e := by
  rw [ofTextWith_eq_error_iff, Section.addLines_eq_error_iff] at h
  obtain ⟨before, line, behind, middle, -, -, hbad⟩ := h
  exact ⟨_, Section.isAtLine_of_addLine hbad⟩

/-- Reading fails at a line when the text before it can be read and the text up to its end fails
so. -/
theorem ofTextWith_eq_error_at_iff {k : Nat} {e : Error} :
    ofTextWith allowed text = .error e ∧ IsAtLine k e ↔
      (∃ grammar, ofTextWith allowed (Text.firstLines (k - 1) text) = .ok grammar) ∧
        ofTextWith allowed (Text.firstLines k text) = .error e := by
  rw [exists_ofTextWith_iff, ofTextWith_eq_error_iff, ofTextWith_eq_error_iff,
    Text.lines_firstLines, Text.lines_firstLines, Section.addLines_eq_error_at_iff]

/-- Texts are read section by section, and reading stops at the first line that cannot be read. A
text that begins with a header can be read behind another text when both can be and no section has
the same name in both; the result is then that of the one and that of the other. Remarks change no
result, wherever they are inserted. Reading fails with the number of a line when the lines before
it can be read and those up to it cannot; it fails in no other way, and it fails alike whichever
intents are allowed. -/
theorem ofTextWith_composes (allowed : Option WordSet) :
    (∀ first second grammar, Section.OpensSection (Text.lines second) →
      (ofTextWith allowed (first ++ "\n" ++ second) = .ok grammar ↔
        ∃ g₁ g₂, ofTextWith allowed first = .ok g₁ ∧ ofTextWith allowed second = .ok g₂ ∧
          (sectionNames first).Disjoint (sectionNames second) ∧ grammar = g₁ ++ g₂)) ∧
    (∀ text remarked grammar, Section.Remarked (Text.lines text) (Text.lines remarked) →
      (ofTextWith allowed remarked = .ok grammar ↔ ofTextWith allowed text = .ok grammar)) ∧
    ∀ text,
      (∀ k, (∃ label fault, ofTextWith allowed text = .error (.malformedLine label k fault)) ↔
        (∃ grammar, ofTextWith allowed (Text.firstLines (k - 1) text) = .ok grammar) ∧
          ¬ ∃ grammar, ofTextWith allowed (Text.firstLines k text) = .ok grammar) ∧
      (∀ e, ofTextWith allowed text = .error e → ∃ label k fault,
        e = .malformedLine label k fault) ∧
      ∀ e others, ofTextWith allowed text = .error e ↔ ofTextWith others text = .error e := by
  refine ⟨fun _ _ _ => ofTextWith_append_eq_ok_iff, fun _ _ _ => ofTextWith_remarked_eq_ok_iff,
    fun text => ⟨fun k => ?_, fun e h => ?_, fun e others => ?_⟩⟩
  · constructor
    · rintro ⟨label, fault, h⟩
      obtain ⟨hbefore, hfails⟩ := ofTextWith_eq_error_at_iff.1 ⟨h, label, fault, rfl⟩
      refine ⟨hbefore, ?_⟩
      rw [hfails]
      rintro ⟨_, ⟨⟩⟩
    · rintro ⟨hbefore, hnot⟩
      cases hfails : ofTextWith allowed (Text.firstLines k text) with
      | ok grammar => exact absurd ⟨grammar, hfails⟩ hnot
      | error e =>
        obtain ⟨h, label, fault, rfl⟩ := ofTextWith_eq_error_at_iff.2 ⟨hbefore, hfails⟩
        exact ⟨label, fault, h⟩
  · obtain ⟨k, label, fault, heq⟩ := exists_isAtLine_of_ofTextWith h
    exact ⟨label, k, fault, heq⟩
  · rw [ofTextWith_eq_error_iff, ofTextWith_eq_error_iff]

/-- A section that begins behind blank lines and a comment, remarks between the lines of another
one, and a name that is given twice, while no intent is allowed. -/
theorem ofTextWith_composes_two : ∃ g₁ g₂,
    ofTextWith none "[A]\nr = x" = .ok g₁ ∧
    ofTextWith none "\n ; b\n[ B ]\n<A.r>\n" = .ok g₂ ∧
    ofTextWith none ("[A]\nr = x" ++ "\n" ++ "\n ; b\n[ B ]\n<A.r>\n") = .ok (g₁ ++ g₂) ∧
    ofTextWith none "# a\n[A]\n\nr = x" = .ok g₁ ∧
    ∃ label fault, ofTextWith (some ∅) "[A]\nx\n\n[A]\ny" =
      .error (.malformedLine label 4 fault) := by
  have h : (do
      let g₁ ← ofTextWith none "[A]\nr = x"
      let g₂ ← ofTextWith none "\n ; b\n[ B ]\n<A.r>\n"
      return (g₁.map Section.intent, g₂.map Section.intent)) = .ok (["A"], ["B"]) := by
    decide +kernel
  obtain ⟨g₁, hfirst, h⟩ := bind_eq_ok_iff.1 h
  obtain ⟨g₂, hsecond, h⟩ := bind_eq_ok_iff.1 h
  obtain ⟨hcompose, hremarks, -⟩ := ofTextWith_composes none
  have hfails := ((ofTextWith_composes (some ∅)).2.2 "[A]\nx\n\n[A]\ny").1 4
  refine ⟨g₁, g₂, hfirst, hsecond, ?_, ?_, hfails.2 ⟨?_, ?_⟩⟩
  · have hnames : sectionNames "[A]\nr = x" = ["A"] := by decide +kernel
    have hnames' : sectionNames "\n ; b\n[ B ]\n<A.r>\n" = ["B"] := by decide +kernel
    refine (hcompose _ _ _ (by decide +kernel)).2 ⟨g₁, g₂, hfirst, hsecond, ?_, rfl⟩
    rw [hnames, hnames']
    exact List.singleton_disjoint.2 (by decide)
  · have hlines : Text.lines "[A]\nr = x" = ["[A]", "r = x"] := by decide +kernel
    have hlines' : Text.lines "# a\n[A]\n\nr = x" = ["# a", "[A]", "", "r = x"] := by
      decide +kernel
    refine (hremarks "[A]\nr = x" _ _ ?_).2 hfirst
    rw [hlines, hlines']
    exact .insert (by decide) (.keep _ (.insert (by decide) (.keep _ .nil)))
  · have h : List.length <$> ofTextWith (some ∅) (Text.firstLines 3 "[A]\nx\n\n[A]\ny") =
        .ok 0 := by decide +kernel
    obtain ⟨grammar, hgrammar, -⟩ := map_eq_ok_iff.1 h
    exact ⟨grammar, hgrammar⟩
  · have h : (ofTextWith (some ∅) (Text.firstLines 4 "[A]\nx\n\n[A]\ny")).isOk = false := by
      decide +kernel
    rintro ⟨grammar, hgrammar⟩
    rw [hgrammar] at h
    cases h

end Grammar

end Phrasebook
