import Phrasebook.Proofs.Example.Tags

/-!
# Tags that continue an entity

A tag inside an entity says that the word before belongs to the entity too. The tag of that word
need not say so: an entity that was opened inside may end there, and the last one that covers a
word decides. This is the only way in which a tag is not continued.

* `IsValidTagging`: every tag inside an entity follows one of the same name.
* `Entity.Interrupts`: an entity ends inside another one that goes on.
* `Example.IsReadable.continues_or_interrupts`: what stands before a tag inside an entity.
* `Grammar.isValidTagging_of_generated`: when the tags of an example are valid.
-/

namespace Phrasebook

/-- Every tag inside an entity stands behind the beginning of an entity of this name, or behind
another tag inside of one. -/
def IsValidTagging (tags : List String) : Prop :=
  ∀ i name, tags[i]? = some ("I-" ++ name) →
    ∃ j, i = j + 1 ∧ (tags[j]? = some ("B-" ++ name) ∨ tags[j]? = some ("I-" ++ name))

namespace Entity

variable {entities : List Entity} {inner outer e : Entity} {i : Nat} {name : String}

/-- Some word is the last one of an entity that was opened inside another one, and the other one
goes on with the next word. -/
structure Interrupts (entities : List Entity) (i : Nat) (inner outer : Entity) : Prop where
  /-- The word is tagged as the inner entity's. -/
  last_inner : IsLastAt entities i inner
  /-- The next word is tagged as the outer one's. -/
  last_outer : IsLastAt entities (i + 1) outer
  /-- The inner entity is opened behind the outer one. -/
  later : [outer, inner].Sublist entities
  /-- It begins no earlier. -/
  start_le : outer.start ≤ inner.start
  /-- It ends with the word. -/
  stop_eq : inner.stop = i + 1

/-- Texts that begin with different marks are different. -/
theorem begin_ne_inside {name name' : String} : "B-" ++ name ≠ "I-" ++ name' := by
  intro h
  have hchars := congrArg String.toList h
  simp at hchars

theorem tagAt_eq_begin_iff : e.tagAt i = "B-" ++ name ↔ i = e.start ∧ e.name = name := by
  rw [tagAt]
  split
  · next hstart => simp [hstart, String.append_right_inj]
  · next hstart => simp [hstart, begin_ne_inside.symm]

theorem tagAt_eq_inside_iff : e.tagAt i = "I-" ++ name ↔ i ≠ e.start ∧ e.name = name := by
  rw [tagAt]
  split
  · next hstart => simp [hstart, begin_ne_inside]
  · next hstart => simp [hstart, String.append_right_inj]

/-- The tag of an entity begins it or is inside it. -/
theorem tagAt_eq_or : e.tagAt i = "B-" ++ e.name ∨ e.tagAt i = "I-" ++ e.name := by
  rw [tagAt]
  split
  · exact .inl rfl
  · exact .inr rfl

/-- The last entity that covers a word is still the last one at the word before, or one that was
opened inside it ends there. -/
theorem IsLastAt.isLastAt_or_interrupts (hnested : entities.Pairwise NestedOrDisjoint)
    (h : IsLastAt entities (i + 1) outer) (hstart : outer.start ≤ i) :
    IsLastAt entities i outer ∨ ∃ inner, Interrupts entities i inner outer := by
  obtain ⟨before, behind, rfl, hcovers, hbehind⟩ := h
  have hcovers' : outer.Covers i := ⟨hstart, Nat.lt_of_succ_lt hcovers.2⟩
  by_cases hlater : ∃ e ∈ behind, e.Covers i
  · obtain ⟨inner, hinner⟩ := exists_isLastAt hlater
    have hmem := hinner.mem
    obtain ⟨between, rest, rfl, hcoversInner, hrest⟩ := hinner
    -- The inner entity does not cover the next word, and it does not begin behind the outer one.
    have hspan : NestedOrDisjoint outer inner :=
      List.rel_of_pairwise_cons (List.pairwise_append.1 hnested).2.1 hmem
    have hnot := hbehind inner hmem
    simp only [Covers, NestedOrDisjoint] at hcoversInner hcovers' hnot hspan
    refine .inr ⟨inner, ⟨before ++ outer :: between, rest, by simp, hcoversInner, hrest⟩,
      ⟨before, _, rfl, hcovers, hbehind⟩, ?_, by omega, by omega⟩
    exact List.sublist_append_of_sublist_right ((List.singleton_sublist.2 hmem).cons_cons outer)
  · exact .inl ⟨before, behind, rfl, hcovers', fun e he hcov => hlater ⟨e, he, hcov⟩⟩

/-- An entity that goes on has begun before. -/
theorem Interrupts.start_ne (h : Interrupts entities i inner outer) : i + 1 ≠ outer.start := by
  obtain ⟨_, _, _, hcovers, _⟩ := h.last_inner
  have := h.start_le
  have := hcovers.1
  omega

end Entity

namespace Example.IsReadable

variable {e : Example} {i : Nat} {name : String}

/-- Before a tag inside an entity stands the tag of a word of the same name, or an entity that was
opened inside it ends. -/
theorem continues_or_interrupts (h : e.IsReadable) (htag : e.tags[i]? = some ("I-" ++ name)) :
    ∃ j, i = j + 1 ∧ (e.tags[j]? = some ("B-" ++ name) ∨ e.tags[j]? = some ("I-" ++ name) ∨
      ∃ inner outer, Entity.Interrupts e.intent.entities j inner outer ∧ outer.name = name ∧
        e.tags[j]? = some (inner.tagAt j)) := by
  obtain ⟨hi, -⟩ := List.getElem?_eq_some_iff.1 htag
  rw [length_tags] at hi
  -- A word outside of entities has another tag.
  have hcovers : ∃ entity ∈ e.intent.entities, entity.Covers i := by
    refine Classical.byContradiction fun hnot => ?_
    rw [h.getElem?_tags_of_not_covers hi fun entity hmem hcov => hnot ⟨entity, hmem, hcov⟩] at htag
    have hchars := congrArg String.toList (Option.some.inj htag)
    simp at hchars
  obtain ⟨outer, houter⟩ := Entity.exists_isLastAt hcovers
  rw [h.getElem?_tags_of_isLastAt houter] at htag
  obtain ⟨hstart, rfl⟩ := Entity.tagAt_eq_inside_iff.1 (Option.some.inj htag)
  have hlt : outer.start < i := by
    obtain ⟨_, _, _, hcov, _⟩ := houter
    exact lt_of_le_of_ne hcov.1 (Ne.symm hstart)
  obtain ⟨j, rfl⟩ := Nat.exists_eq_add_of_lt hlt
  refine ⟨outer.start + j, rfl, ?_⟩
  rcases houter.isLastAt_or_interrupts h.nested (Nat.le_add_right _ _) with
    hsame | ⟨inner, hinterrupts⟩
  · rw [h.getElem?_tags_of_isLastAt hsame]
    rcases outer.tagAt_eq_or with heq | heq
    · exact .inl (congrArg some heq)
    · exact .inr (.inl (congrArg some heq))
  · exact .inr (.inr ⟨inner, outer, hinterrupts, rfl,
      h.getElem?_tags_of_isLastAt hinterrupts.last_inner⟩)

/-- The tags are valid when no entity ends inside one of another name that goes on. -/
theorem isValidTagging_iff (h : e.IsReadable) : IsValidTagging e.tags ↔
    ∀ j inner outer, Entity.Interrupts e.intent.entities j inner outer →
      inner.name = outer.name := by
  constructor
  · -- Where an entity is interrupted, the next tag is inside it, so the one before has its name.
    intro hvalid j inner outer hinterrupts
    have htag : e.tags[j + 1]? = some ("I-" ++ outer.name) := by
      rw [h.getElem?_tags_of_isLastAt hinterrupts.last_outer,
        Entity.tagAt_eq_inside_iff.2 ⟨hinterrupts.start_ne, rfl⟩]
    obtain ⟨j', hj, hbefore⟩ := hvalid _ _ htag
    obtain rfl : j = j' := Nat.succ.inj hj
    rw [h.getElem?_tags_of_isLastAt hinterrupts.last_inner] at hbefore
    rcases hbefore with hbefore | hbefore
    · exact (Entity.tagAt_eq_begin_iff.1 (Option.some.inj hbefore)).2
    · exact (Entity.tagAt_eq_inside_iff.1 (Option.some.inj hbefore)).2
  · intro hnames i name htag
    obtain ⟨j, rfl, hbefore⟩ := h.continues_or_interrupts htag
    refine ⟨j, rfl, ?_⟩
    rcases hbefore with hbegin | hinside | ⟨inner, outer, hinterrupts, rfl, hinner⟩
    · exact .inl hbegin
    · exact .inr hinside
    · rw [hinner, ← hnames j inner outer hinterrupts]
      rcases inner.tagAt_eq_or with heq | heq
      · exact .inl (congrArg some heq)
      · exact .inr (congrArg some heq)

end Example.IsReadable

namespace Grammar

section Compile

variable {allowed : Option WordSet} {text : String} {grammar : Grammar} {slots : Slots}
  {casing : Casing} {compiled : Compiled}

/-- A generated example is readable. -/
theorem isReadable_of_generated (hgrammar : ofTextWith allowed text = .ok grammar)
    (hslots : slots.Defined) (h : grammar.compile casing slots = .ok compiled) {e : Example}
    (he : Example.IsGenerated compiled.merged e) : e.IsReadable := by
  obtain ⟨run, arcs, hrun, hsymbols⟩ := he.isOfRun (wellFormed_merged hgrammar hslots h)
  obtain ⟨e', he', hreadable⟩ := exists_readable_of_accepts hgrammar hslots h hrun
  obtain rfl := Except.ok.inj (hsymbols.symm.trans he')
  exact hreadable

/-- In a generated example, a tag inside an entity stands behind a tag of the same name, or behind
the last word of an entity that was opened inside it and is tagged as that one's. So the tags are
valid exactly when no entity ends inside one of another name that goes on. -/
theorem isValidTagging_of_generated (hgrammar : ofTextWith allowed text = .ok grammar)
    (hslots : slots.Defined) (h : grammar.compile casing slots = .ok compiled) {e : Example}
    (he : Example.IsGenerated compiled.merged e) :
    (∀ i name, e.tags[i]? = some ("I-" ++ name) → ∃ j, i = j + 1 ∧
      (e.tags[j]? = some ("B-" ++ name) ∨ e.tags[j]? = some ("I-" ++ name) ∨
        ∃ inner outer, Entity.Interrupts e.intent.entities j inner outer ∧ outer.name = name ∧
          e.tags[j]? = some (inner.tagAt j))) ∧
    (IsValidTagging e.tags ↔ ∀ j inner outer,
      Entity.Interrupts e.intent.entities j inner outer → inner.name = outer.name) := by
  have hreadable := isReadable_of_generated hgrammar hslots h he
  exact ⟨fun _ _ => hreadable.continues_or_interrupts, hreadable.isValidTagging_iff⟩

end Compile

/-- Where an entity ends inside another one, the next word is tagged as if the other one had not
been left. -/
theorem not_isValidTagging_of_nested : ∃ grammar slots compiled e,
    ofTextWith none "[A]\n(a (b)\x7binner\x7d c)\x7bouter\x7d\n" = .ok grammar ∧
    Slots.Defined slots ∧ grammar.compile .keep slots = .ok compiled ∧
    Example.IsGenerated compiled.merged e ∧
    e.taggedLine = "BS a b c ES\tO B-outer B-inner I-outer O\tA" ∧ ¬ IsValidTagging e.tags := by
  let t : Transcript := .named [] "A" [.entity "outer" none
    [.word "a", .entity "inner" none [.word "b"], .word "c"]] []
  obtain ⟨grammar, slots, compiled, hgrammar, hslots, hcompile, hgenerated⟩ :=
    @exists_compile_example "[A]\n(a (b)\x7binner\x7d c)\x7bouter\x7d\n" "unused" ["word"] .keep t
      (by decide +kernel)
  refine ⟨grammar, slots, compiled, _, hgrammar, hslots, hcompile, hgenerated,
    by decide +kernel, fun hvalid => ?_⟩
  obtain ⟨j, hj, hbefore⟩ := hvalid 2 "outer" (by decide +kernel)
  obtain rfl : 1 = j := Nat.succ.inj hj
  revert hbefore
  decide +kernel

/-- The tags are those of two entities that end together. -/
theorem isValidTagging_of_generated_ending : ∃ grammar slots compiled e,
    ofTextWith none "[A]\n(a (b c)\x7binner\x7d)\x7bouter\x7d d\n" = .ok grammar ∧
    Slots.Defined slots ∧ grammar.compile .keep slots = .ok compiled ∧
    Example.IsGenerated compiled.merged e ∧
    e.taggedLine = "BS a b c d ES\tO B-outer B-inner I-inner O O\tA" ∧
    (∃ j, 2 = j + 1 ∧
      (e.tags[j]? = some ("B-" ++ "inner") ∨ e.tags[j]? = some ("I-" ++ "inner") ∨
        ∃ inner outer, Entity.Interrupts e.intent.entities j inner outer ∧
          outer.name = "inner" ∧ e.tags[j]? = some (inner.tagAt j))) ∧
    (IsValidTagging e.tags ↔ ∀ j inner outer,
      Entity.Interrupts e.intent.entities j inner outer → inner.name = outer.name) := by
  let t : Transcript := .named [] "A" [.entity "outer" none
    [.word "a", .entity "inner" none [.word "b", .word "c"]], .word "d"] []
  obtain ⟨grammar, slots, compiled, hgrammar, hslots, hcompile, hgenerated⟩ :=
    @exists_compile_example "[A]\n(a (b c)\x7binner\x7d)\x7bouter\x7d d\n" "unused" ["word"]
      .keep t (by decide +kernel)
  have hspec := isValidTagging_of_generated hgrammar hslots hcompile hgenerated
  exact ⟨grammar, slots, compiled, _, hgrammar, hslots, hcompile, hgenerated,
    by decide +kernel, hspec.1 2 "inner" (by decide +kernel), hspec.2⟩

end Grammar

end Phrasebook
