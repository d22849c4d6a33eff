import Mathlib.Data.List.Nodup
import Mathlib.Data.List.TakeWhile
import Phrasebook.Compile
import Phrasebook.Proofs.Outcome

/-!
# What grammars and slots can say

A grammar that is read from a text has one section for each intent, and the names of intents and
rules are identifiers. They hold no point, so that the point in a qualified name tells where the
name of the intent ends.
What holds of every template that a line can give holds of every template of the grammar, and of
every value of slots that are defined by lines.

* `Section.Proper`: the sections have different intents, all names are identifiers, and something
  holds of every template.
* `Section.proper_of_ofTextWith`: the sections of a text are proper.
* `Slots.Defined`, `Slots.Defined.holds`: slots that are built by definitions, and what holds of
  their values.
* `Section.Proper.mapWords`, `Slots.holds_mapWords`: what a change of words leaves proper.
-/

namespace Phrasebook

/-! ### Tables -/

namespace Table

universe u

variable {α : Type u} {t : Table α} {P : String → α → Prop}

/-- Something holds of every entry of a table. -/
def Holds (P : String → α → Prop) (t : Table α) : Prop := ∀ e ∈ t.entries, P e.1 e.2

theorem holds_empty : Holds P (∅ : Table α) := fun _ he => absurd he List.not_mem_nil

theorem mem_insertInto {name : String} {value : α} {es : List (String × α)} {e : String × α}
    (he : e ∈ insertInto name value es) : e = (name, value) ∨ e ∈ es := by
  induction es with
  | nil => exact .inl (List.mem_singleton.1 he)
  | cons first es ih =>
    obtain ⟨n, a⟩ := first
    rw [insertInto] at he
    split at he
    · exact List.mem_cons.1 he
    · split at he
      · exact (List.mem_cons.1 he).imp_right (List.mem_cons_of_mem _)
      · rcases List.mem_cons.1 he with rfl | he
        · exact .inr List.mem_cons_self
        · exact (ih he).imp_right (List.mem_cons_of_mem _)

theorem Holds.insert (h : t.Holds P) {name : String} {value : α} (hvalue : P name value) :
    (t.insert name value).Holds P := by
  intro e he
  rcases mem_insertInto he with rfl | he
  · exact hvalue
  · exact h e he

theorem Holds.find? (h : t.Holds P) {name : String} {value : α}
    (hfind : t.find? name = some value) : P name value := by
  obtain ⟨es, hincreasing⟩ := t
  induction es with
  | nil => exact absurd hfind (Option.some_ne_none _ ∘ Eq.symm)
  | cons e es ih =>
    obtain ⟨n, a⟩ := e
    rw [Table.find?, lookup] at hfind
    split at hfind
    · next heq =>
      cases heq
      cases hfind
      exact h _ List.mem_cons_self
    · exact ih (List.Pairwise.of_cons hincreasing)
        (fun e he => h e (List.mem_cons_of_mem _ he)) hfind

/-- An entry is found under its name. -/
theorem find?_of_mem {name : String} {value : α} (h : (name, value) ∈ t.entries) :
    t.find? name = some value := by
  obtain ⟨es, hincreasing⟩ := t
  induction es with
  | nil => cases h
  | cons e es ih =>
    obtain ⟨n, a⟩ := e
    obtain ⟨hlt, hes⟩ := List.pairwise_cons.1 hincreasing
    rw [find?, lookup]
    rcases List.mem_cons.1 h with heq | h
    · cases heq
      exact if_pos rfl
    · -- The names increase, so the first one is not met again.
      have hne : n ≠ name := by
        rintro rfl
        exact String.lt_irrefl _ (hlt n (List.mem_map_of_mem h))
      rw [if_neg hne]
      exact ih hes h

/-- What is found under a name is an entry. -/
theorem mem_of_find? {name : String} {value : α} (h : t.find? name = some value) :
    (name, value) ∈ t.entries :=
  @Holds.find? _ t (fun name value => (name, value) ∈ t.entries) (fun _ he => he) name value h

/-- Something is found under the names of a table. -/
theorem isSome_find?_iff {name : String} : (t.find? name).isSome = true ↔ name ∈ t.names := by
  rw [Option.isSome_iff_exists]
  constructor
  · rintro ⟨value, hfind⟩
    exact List.mem_map_of_mem (mem_of_find? hfind)
  · intro hname
    obtain ⟨e, he, rfl⟩ := List.mem_map.1 hname
    exact ⟨e.2, find?_of_mem he⟩

end Table

/-! ### Sections -/

namespace Section

variable {P : Template → Prop}

/-- Something holds of every template of a section. -/
structure Holds (P : Template → Prop) (s : Section) : Prop where
  /-- It holds of the sentences. -/
  sentences : ∀ t ∈ s.sentences, P t
  /-- It holds of the rules. -/
  rules : s.rules.Holds fun _ body => P body

theorem Holds.imp {Q : Template → Prop} {s : Section} (h : s.Holds P) (hPQ : ∀ t, P t → Q t) :
    s.Holds Q :=
  ⟨fun t ht => hPQ t (h.sentences t ht), fun e he => hPQ e.2 (h.rules e he)⟩

/-- The names of the intent and of the rules are identifiers. -/
structure Named (s : Section) : Prop where
  /-- The name of the intent is one. -/
  intent : isIdentifier s.intent.toList = true
  /-- The name of each rule is one. -/
  rules : s.rules.Holds fun name _ => isIdentifier name.toList = true

/-- Neither the name of the intent nor that of a rule holds a point. -/
structure Pointless (s : Section) : Prop where
  /-- The name of the intent does not. -/
  intent : '.' ∉ s.intent.toList
  /-- No name of a rule does. -/
  rules : s.rules.Holds fun name _ => '.' ∉ name.toList

end Section

theorem isIdentifierChar_of_isIdentifierStart {c : Char} (h : isIdentifierStart c = true) :
    isIdentifierChar c = true := by
  rw [isIdentifierStart, Bool.or_eq_true] at h
  rw [isIdentifierChar, Char.isAlphanum]
  rcases h with h | h <;> simp [h]

/-- All characters of an identifier are those that continue one. -/
theorem isIdentifierChar_of_mem {cs : List Char} (h : isIdentifier cs = true) {c : Char}
    (hc : c ∈ cs) : isIdentifierChar c = true := by
  cases cs with
  | nil => cases hc
  | cons first cs =>
    obtain ⟨hfirst, hrest⟩ := (Bool.and_eq_true _ _).mp h
    rcases List.mem_cons.1 hc with rfl | hc
    · exact isIdentifierChar_of_isIdentifierStart hfirst
    · exact List.all_eq_true.1 hrest c hc

/-- An identifier holds no point. -/
theorem not_mem_of_isIdentifier {cs : List Char} (h : isIdentifier cs = true) : '.' ∉ cs := by
  intro hmem
  have hpoint : isIdentifierChar '.' = false := by decide
  exact Bool.false_ne_true (hpoint.symm.trans (isIdentifierChar_of_mem h hmem))

theorem Section.Named.pointless {s : Section} (h : s.Named) : s.Pointless :=
  ⟨not_mem_of_isIdentifier h.intent, fun e he => not_mem_of_isIdentifier (h.rules e he)⟩

namespace GrammarLine

/-- The name of a rule is an identifier. -/
theorem isIdentifier_of_ruleParts? {cs name body : List Char}
    (h : ruleParts? cs = some (name, body)) : isIdentifier name = true := by
  cases cs with
  | nil => simp [ruleParts?] at h
  | cons c cs =>
    rw [ruleParts?] at h
    split at h
    · next hstart =>
      split at h
      · simp only [Option.some.injEq, Prod.mk.injEq] at h
        obtain ⟨rfl, rfl⟩ := h
        rw [List.takeWhile_cons_of_pos (isIdentifierChar_of_isIdentifierStart hstart)]
        exact (Bool.and_eq_true _ _).mpr
          ⟨hstart, List.all_eq_true.2 fun c hc => List.mem_takeWhile_imp hc⟩
      · simp at h
    · simp at h

theorem isIdentifier_of_ofText_eq_rule {line name body : String}
    (h : ofText line = .rule name body) : isIdentifier name.toList = true := by
  unfold ofText at h
  dsimp only at h
  split at h
  · cases h
  · split at h
    · cases h
    · split at h
      · cases h
      · split at h
        · next hparts =>
          cases h
          rw [String.toList_ofList]
          exact isIdentifier_of_ruleParts? hparts
        · cases h

end GrammarLine

namespace Section

variable {P : Template → Prop}

/-- What a line preserves: the intents stay different, and something that holds of every
template that can be read holds of every template of the sections. -/
structure Proper (P : Template → Prop) (sections : List Section) : Prop where
  /-- The intents are different. -/
  distinct : (sections.map Section.intent).Nodup
  /-- The names are identifiers. -/
  named : ∀ s ∈ sections, s.Named
  /-- It holds of every template. -/
  holds : ∀ s ∈ sections, s.Holds P

theorem proper_nil : Proper P [] :=
  ⟨List.nodup_nil, by simp, by simp⟩

/-- No name of proper sections holds a point. -/
theorem Proper.pointless {sections : List Section} (h : Proper P sections) :
    ∀ s ∈ sections, s.Pointless :=
  fun s hs => (h.named s hs).pointless

/-- A section that keeps its intent and what holds of it may change. -/
theorem Proper.cons_congr {s s' : Section} {rest : List Section} (h : Proper P (s :: rest))
    (hintent : s'.intent = s.intent) (hnamed : s'.Named) (hholds : s'.Holds P) :
    Proper P (s' :: rest) := by
  refine ⟨?_, List.forall_mem_cons.2 ⟨hnamed, (List.forall_mem_cons.1 h.named).2⟩,
    List.forall_mem_cons.2 ⟨hholds, (List.forall_mem_cons.1 h.holds).2⟩⟩
  rw [List.map_cons, hintent]
  exact h.distinct

variable (hread : ∀ label number text t, Template.ofLine label number text = .ok t → P t)
include hread

/-- A rule is added with a body that can be read. -/
theorem exists_of_addRule {s s' : Section} {number : Nat} {name body : String}
    (h : s.addRule number name body = .ok s') :
    ∃ t, P t ∧ s' = { s with rules := s.rules.insert name t } := by
  rw [addRule] at h
  split at h
  · cases h
  · obtain ⟨t, ht, h⟩ := bind_eq_ok_iff.1 h
    split at h
    · cases h
    · cases h
      exact ⟨t, hread _ _ _ t ht, rfl⟩

/-- A sentence is added that can be read. -/
theorem exists_of_addSentence {s s' : Section} {number : Nat} {text : String}
    (h : s.addSentence number text = .ok s') :
    ∃ t, P t ∧ s' = { s with sentences := s.sentences ++ [t] } := by
  obtain ⟨t, ht, h⟩ := bind_eq_ok_iff.1 h
  cases h
  exact ⟨t, hread _ _ _ t ht, rfl⟩

/-- A line keeps sections proper. -/
theorem Proper.addLine {sections sections' : List Section} {number : Nat} {line : String}
    (hs : Proper P sections) (h : addLine sections number (.ofText line) = .ok sections') :
    Proper P sections' := by
  cases hline : GrammarLine.ofText line with
  | nothing =>
    rw [hline] at h
    cases h
    exact hs
  | header header name =>
    rw [hline, Section.addLine] at h
    split at h
    · cases h
    · next hidentifier =>
      split at h
      · cases h
      · next hnew =>
        cases h
        have hname : isIdentifier name.toList = true := by simpa using hidentifier
        refine ⟨List.nodup_cons.2 ⟨fun hmem => hnew ?_, hs.distinct⟩,
          List.forall_mem_cons.2 ⟨⟨hname, Table.holds_empty⟩, hs.named⟩,
          List.forall_mem_cons.2 ⟨⟨by simp [new], Table.holds_empty⟩, hs.holds⟩⟩
        obtain ⟨s, hmem, heq⟩ := List.mem_map.1 hmem
        exact List.any_eq_true.2 ⟨s, hmem, decide_eq_true heq⟩
  | rule name body =>
    have hname := GrammarLine.isIdentifier_of_ofText_eq_rule hline
    rw [hline] at h
    cases sections with
    | nil => cases h
    | cons s rest =>
      obtain ⟨s', hs', h⟩ := bind_eq_ok_iff.1 h
      cases h
      obtain ⟨t, ht, rfl⟩ := exists_of_addRule hread hs'
      have hnamed := hs.named s List.mem_cons_self
      have hholds := hs.holds s List.mem_cons_self
      exact hs.cons_congr rfl ⟨hnamed.intent, hnamed.rules.insert hname⟩
        ⟨hholds.sentences, hholds.rules.insert ht⟩
  | sentence text =>
    rw [hline] at h
    cases sections with
    | nil => cases h
    | cons s rest =>
      obtain ⟨s', hs', h⟩ := bind_eq_ok_iff.1 h
      cases h
      obtain ⟨t, ht, rfl⟩ := exists_of_addSentence hread hs'
      have hnamed := hs.named s List.mem_cons_self
      have hholds := hs.holds s List.mem_cons_self
      exact hs.cons_congr rfl ⟨hnamed.intent, hnamed.rules⟩
        ⟨List.forall_mem_append.2 ⟨hholds.sentences, List.forall_mem_singleton.2 ht⟩,
          hholds.rules⟩

/-- Lines keep sections proper. -/
theorem Proper.addLines {sections sections' : List Section} {number : Nat} {lines : List String}
    (hs : Proper P sections) (h : addLines sections number lines = .ok sections') :
    Proper P sections' := by
  induction lines generalizing sections number with
  | nil => cases h; exact hs
  | cons line lines ih =>
    obtain ⟨middle, hfirst, hrest⟩ := bind_eq_ok_iff.1 h
    exact ih (hs.addLine hread hfirst) hrest

/-- The sections of a text are proper. -/
theorem proper_of_ofTextWith {allowed : Option WordSet} {text : String} {grammar : Grammar}
    (h : Grammar.ofTextWith allowed text = .ok grammar) : Proper P grammar := by
  obtain ⟨all, hall, rfl⟩ := map_eq_ok_iff.1 h
  obtain ⟨sections, hsections, rfl⟩ := map_eq_ok_iff.1 hall
  have hs := Proper.addLines hread proper_nil hsections
  have hreverse : Proper P sections.reverse := by
    refine ⟨?_, fun s hs' => hs.named s (List.mem_reverse.1 hs'),
      fun s hs' => hs.holds s (List.mem_reverse.1 hs')⟩
    rw [List.map_reverse]
    exact List.nodup_reverse.2 hs.distinct
  cases allowed with
  | none => exact hreverse
  | some names =>
    exact ⟨hreverse.distinct.sublist (List.filter_sublist.map _),
      fun s hs' => hreverse.named s (List.mem_of_mem_filter hs'),
      fun s hs' => hreverse.holds s (List.mem_of_mem_filter hs')⟩

end Section

namespace Slots

variable {P : Template → Prop} {slots slots' : Slots}

/-- The slots that are built by definitions, one after another. -/
inductive Defined : Slots → Prop
  /-- There is no slot. -/
  | empty : Defined ∅
  /-- One more slot is defined, or one is defined anew. -/
  | define {slots slots' : Slots} {name : String} {lines : List String} (before : Defined slots)
    (defined : slots.define name lines = .ok slots') : Defined slots'

/-- The values refer to nothing, and something holds of each. -/
def Holds (P : Template → Prop) (slots : Slots) : Prop :=
  Table.Holds (fun _ values => ∀ t ∈ values, P t ∧ t.mentions = []) slots

/-- The values of some lines are templates that can be read and refer to nothing. -/
theorem holds_of_valuesOfLines
    (hread : ∀ label number text t, Template.ofLine label number text = .ok t → P t)
    {label : String} {number : Nat} {lines : List String} {values : List Template}
    (h : valuesOfLines label number lines = .ok values) :
    ∀ t ∈ values, P t ∧ t.mentions = [] := by
  induction lines generalizing number values with
  | nil => cases h; simp
  | cons line lines ih =>
    obtain ⟨value, hvalue, h⟩ := bind_eq_ok_iff.1 h
    obtain ⟨rest, hrest, h⟩ := bind_eq_ok_iff.1 h
    cases h
    refine List.forall_mem_append.2 ⟨fun t ht => ?_, ih hrest⟩
    obtain rfl := Option.mem_toList.1 ht
    rw [valueOfLine] at hvalue
    split at hvalue
    · cases hvalue
    · obtain ⟨t, hline, hvalue⟩ := bind_eq_ok_iff.1 hvalue
      split at hvalue
      · next hempty =>
        cases hvalue
        exact ⟨hread _ _ _ t hline, List.isEmpty_iff.1 hempty⟩
      · cases hvalue

/-- The values of slots that are built by definitions are templates that can be read. -/
theorem Defined.holds
    (hread : ∀ label number text t, Template.ofLine label number text = .ok t → P t)
    (h : Defined slots) : Holds P slots := by
  induction h with
  | empty => exact Table.holds_empty
  | define _ defined ih =>
    obtain ⟨values, hvalues, h⟩ := bind_eq_ok_iff.1 defined
    cases h
    exact Table.Holds.insert ih (holds_of_valuesOfLines hread hvalues)

/-- The values of a slot refer to nothing. -/
theorem Holds.mentionsAll_eq_nil (h : Holds P slots) {name : String} {values : List Template}
    (found : slots.find? name = some values) : Template.mentionsAll values = [] := by
  rw [Template.mentionsAll_eq_flatMap, List.flatMap_eq_nil_iff]
  exact fun t ht => (Table.Holds.find? h found t ht).2

end Slots

/-! ### Changing words -/

namespace Template

mutual

/-- A change of words changes no reference. -/
theorem mentions_mapWords {f : String → String} (t : Template) :
    (t.mapWords f).mentions = t.mentions := by
  match t with
  | word text substitution =>
    rw [mapWords]
    split <;> rfl
  | sequence items => exact mentionsAll_mapWordsAll items
  | alternation branches => exact mentionsAll_mapWordsAll branches
  | optional inner => exact mentions_mapWords inner
  | ruleRef name => rfl
  | slotRef name => rfl
  | tagged inner tag => exact mentions_mapWords inner
  | substituted inner value => exact mentions_mapWords inner

theorem mentionsAll_mapWordsAll {f : String → String} (ts : List Template) :
    mentionsAll (mapWordsAll f ts) = mentionsAll ts := by
  match ts with
  | [] => rfl
  | t :: ts => rw [mapWordsAll, mentionsAll, mentions_mapWords t, mentionsAll_mapWordsAll ts,
      mentionsAll]

end

end Template

namespace Table

universe u v

variable {α : Type u} {β : Type v} {t : Table α}

theorem Holds.map {P : String → α → Prop} {Q : String → β → Prop} {f : α → β} (h : t.Holds P)
    (hPQ : ∀ name a, P name a → Q name (f a)) : (t.map f).Holds Q := by
  intro e he
  obtain ⟨⟨name, a⟩, hmem, rfl⟩ := List.mem_map.1 he
  exact hPQ name a (h _ hmem)

end Table

variable {P Q : Template → Prop} {f : String → String}

/-- Something holds of a section with changed words when it does of each changed template. -/
theorem Section.holds_mapWords_iff {s : Section} :
    (s.mapWords f).Holds P ↔ s.Holds fun t => P (t.mapWords f) := by
  constructor
  · intro h
    exact ⟨List.forall_mem_map.1 h.sentences, fun e he => h.rules _ (List.mem_map_of_mem he)⟩
  · intro h
    exact ⟨List.forall_mem_map.2 h.sentences, h.rules.map fun _ _ hbody => hbody⟩

/-- A change of words keeps sections proper. -/
theorem Section.Proper.mapWords {grammar : Grammar} (h : Proper P grammar)
    (hPQ : ∀ t, P t → Q (t.mapWords f)) : Proper Q (grammar.map (Section.mapWords f)) := by
  refine ⟨?_, List.forall_mem_map.2 fun s hs => ?_, List.forall_mem_map.2 fun s hs => ?_⟩
  · rw [List.map_map]
    exact h.distinct
  · exact ⟨(h.named s hs).intent, (h.named s hs).rules.map fun _ _ hname => hname⟩
  · exact holds_mapWords_iff.2 ((h.holds s hs).imp hPQ)

/-- A change of words keeps what holds of the values of slots. -/
theorem Slots.holds_mapWords {slots : Slots} (h : slots.Holds P)
    (hPQ : ∀ t, P t → Q (t.mapWords f)) : (slots.mapWords f).Holds Q :=
  Table.Holds.map h fun _ _ hvalues => List.forall_mem_map.2 fun t ht =>
    ⟨hPQ t (hvalues t ht).1, (Template.mentions_mapWords t).trans (hvalues t ht).2⟩

/-- Whatever is done to its words, a grammar that is read has proper sections. -/
theorem Section.proper_mapWords_of_ofTextWith (f : String → String) {allowed : Option WordSet}
    {text : String} {grammar : Grammar} (h : Grammar.ofTextWith allowed text = .ok grammar) :
    Proper (fun _ => True) (grammar.map (Section.mapWords f)) :=
  (proper_of_ofTextWith (P := fun _ => True) (fun _ _ _ _ _ => trivial) h).mapWords
    fun _ _ => trivial

/-- Whatever is done to their words, the values of slots refer to nothing. -/
theorem Slots.Defined.holds_mapWords (f : String → String) {slots : Slots} (h : slots.Defined) :
    (slots.mapWords f).Holds fun _ => True :=
  Slots.holds_mapWords (P := fun _ => True) (h.holds fun _ _ _ _ _ => trivial) fun _ _ => trivial

end Phrasebook
