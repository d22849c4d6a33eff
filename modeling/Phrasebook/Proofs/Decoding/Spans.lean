import Phrasebook.Proofs.Decoding.Nesting

/-!
# Entities and their spans

What a transcript says about its entities, one by one: in which order they are listed, which
matched and which reported words they have, and how their spans lie to one another.

* `NestedOrDisjoint`, `Phrase.pairwise_entitiesOf`: how the spans lie.
* `Phrase.Frame`, `Phrase.Place`: where an entity stands among some phrases.
* `Phrase.entityAt`: the entity at a place.
* `Transcript.Describes`: what is said about the entities of an intent.
* `Decoder.decode_spec`: it is true of what symbols decode to.
-/

namespace Phrasebook

/-! ### What a symbol stands for -/

namespace Symbol

/-- The words that are matched for a symbol. -/
def rawWords : Symbol → List String
  | word w => [w]
  | substitution raw _ => Text.words raw
  | openIntent _ | closeIntent | openEntity _ _ | closeEntity => []

/-- The name of the entity that a symbol opens. -/
def opened? : Symbol → Option String
  | openEntity slot _ => some slot
  | word _ | substitution _ _ | openIntent _ | closeIntent | closeEntity => none

end Symbol

namespace Phrase

mutual

/-- The matched words of a phrase are those of its symbols. -/
theorem flatMap_rawWords_symbols (p : Phrase) : p.symbols.flatMap Symbol.rawWords = p.rawWords := by
  match p with
  | word text => rfl
  | substitution raw value => exact List.append_nil _
  | entity slot value inner =>
    rw [symbols, List.flatMap_append, List.flatMap_cons, flatMap_rawWords_symbolsOf inner,
      rawWords]
    exact List.append_nil _

theorem flatMap_rawWords_symbolsOf (ps : List Phrase) :
    (symbolsOf ps).flatMap Symbol.rawWords = rawWordsOf ps := by
  match ps with
  | [] => rfl
  | p :: ps =>
    rw [symbolsOf, List.flatMap_append, flatMap_rawWords_symbols p,
      flatMap_rawWords_symbolsOf ps, rawWordsOf]

end

/-- The names of the entities of some phrases, in the order in which they are opened. -/
def slots (ps : List Phrase) : List String := (symbolsOf ps).filterMap Symbol.opened?

theorem slots_append {ps qs : List Phrase} : slots (ps ++ qs) = slots ps ++ slots qs := by
  rw [slots, symbolsOf_append, List.filterMap_append]
  rfl

theorem slots_singleton {p : Phrase} : slots [p] = p.symbols.filterMap Symbol.opened? :=
  congrArg _ (List.append_nil p.symbols)

theorem slots_entity {slot : String} {value : Option String} {inner : List Phrase} :
    (entity slot value inner).symbols.filterMap Symbol.opened? = slot :: slots inner := by
  rw [symbols, List.filterMap_append, List.filterMap_cons]
  exact congrArg (slot :: ·) (List.append_nil _)

mutual

/-- The entities of a phrase are listed as they are opened. -/
theorem map_name_entities (p : Phrase) (span : Option (Nat × Nat)) (start rawStart : Nat) :
    (entities span start rawStart p).map Entity.name = p.symbols.filterMap Symbol.opened? := by
  match p with
  | word text => rfl
  | substitution raw value => rfl
  | entity slot value inner =>
    rw [slots_entity]
    exact congrArg (slot :: ·) (map_name_entitiesOf inner _ start rawStart)

theorem map_name_entitiesOf (ps : List Phrase) (span : Option (Nat × Nat)) (start rawStart : Nat) :
    (entitiesOf span start rawStart ps).map Entity.name = slots ps := by
  match ps with
  | [] => rfl
  | p :: ps =>
    rw [entitiesOf, List.map_append, map_name_entities p, map_name_entitiesOf ps, slots,
      slots, symbolsOf, List.filterMap_append]

end

theorem length_entitiesOf {ps : List Phrase} {span : Option (Nat × Nat)} {start rawStart : Nat} :
    (entitiesOf span start rawStart ps).length = (slots ps).length := by
  rw [← map_name_entitiesOf ps span start rawStart, List.length_map]

/-! ### How spans lie -/

/-- Inside an entity with a value all entities cover it. -/
theorem span_of_mem_entitiesOf_some {ps : List Phrase} {span : Nat × Nat} {start rawStart : Nat}
    {e : Entity} (he : e ∈ entitiesOf (some span) start rawStart ps) :
    e.start = span.1 ∧ e.stop = span.2 := by
  rw [← map_cover_entitiesOf span ps none] at he
  obtain ⟨e, -, rfl⟩ := List.mem_map.1 he
  exact ⟨rfl, rfl⟩

mutual

/-- The span of an entity lies within the reported words of the phrase that it stands in. -/
theorem span_of_mem_entities (p : Phrase) {start rawStart : Nat} {e : Entity}
    (he : e ∈ entities none start rawStart p) :
    start ≤ e.start ∧ e.start ≤ e.stop ∧ e.stop ≤ start + p.words.length := by
  match p with
  | word text => cases he
  | substitution raw value => cases he
  | entity slot none inner =>
    rcases List.mem_cons.1 he with rfl | he
    · exact ⟨le_rfl, Nat.le_add_right _ _, le_rfl⟩
    · exact span_of_mem_entitiesOf inner he
  | entity slot (some value) inner =>
    rcases List.mem_cons.1 he with rfl | he
    · exact ⟨le_rfl, Nat.le_add_right _ _, le_rfl⟩
    · obtain ⟨hstart, hstop⟩ := span_of_mem_entitiesOf_some he
      rw [hstart, hstop]
      exact ⟨le_rfl, Nat.le_add_right _ _, le_rfl⟩

theorem span_of_mem_entitiesOf (ps : List Phrase) {start rawStart : Nat} {e : Entity}
    (he : e ∈ entitiesOf none start rawStart ps) :
    start ≤ e.start ∧ e.start ≤ e.stop ∧ e.stop ≤ start + (wordsOf ps).length := by
  match ps with
  | [] => cases he
  | p :: ps =>
    rw [wordsOf, List.length_append]
    rcases List.mem_append.1 he with he | he
    · have hp := span_of_mem_entities p he
      omega
    · have hps := span_of_mem_entitiesOf ps he
      omega

end

end Phrase

/-- An entity ends before a later one begins, or the later one lies inside it. -/
def NestedOrDisjoint (e later : Entity) : Prop :=
  e.stop ≤ later.start ∨ e.start ≤ later.start ∧ later.stop ≤ e.stop

namespace Phrase

mutual

/-- Of two entities the later one lies behind or inside the earlier one. -/
theorem pairwise_entities (p : Phrase) (start rawStart : Nat) :
    (entities none start rawStart p).Pairwise NestedOrDisjoint := by
  match p with
  | word text => exact .nil
  | substitution raw value => exact .nil
  | entity slot none inner =>
    refine List.pairwise_cons.2 ⟨fun e he => .inr ?_, pairwise_entitiesOf inner start rawStart⟩
    have hspan := span_of_mem_entitiesOf inner he
    exact ⟨hspan.1, hspan.2.2⟩
  | entity slot (some value) inner =>
    -- Everything inside covers the value.
    have hcover : ∀ e ∈ entitiesOf (some (start, start + (Text.words value).length)) start
        rawStart inner, e.start = start ∧ e.stop = start + (Text.words value).length :=
      fun e he => span_of_mem_entitiesOf_some he
    refine List.pairwise_cons.2 ⟨fun e he => .inr ?_, ?_⟩
    · obtain ⟨hstart, hstop⟩ := hcover e he
      exact ⟨hstart.ge, hstop.le⟩
    · refine List.pairwise_of_forall_mem_list fun e he e' he' => .inr ?_
      obtain ⟨hstart, hstop⟩ := hcover e he
      obtain ⟨hstart', hstop'⟩ := hcover e' he'
      omega

theorem pairwise_entitiesOf (ps : List Phrase) (start rawStart : Nat) :
    (entitiesOf none start rawStart ps).Pairwise NestedOrDisjoint := by
  match ps with
  | [] => exact .nil
  | p :: ps =>
    refine List.pairwise_append.2 ⟨pairwise_entities p start rawStart,
      pairwise_entitiesOf ps _ _, fun e he e' he' => .inl ?_⟩
    have hp := span_of_mem_entities p he
    have hps := span_of_mem_entitiesOf ps he'
    omega

end

/-! ### Places -/

/-- An entity with the phrases before and after it, but without those inside it. -/
structure Frame where
  /-- The phrases before the entity. -/
  before : List Phrase
  /-- The name of the entity. -/
  slot : String
  /-- The given value of the entity. -/
  value : Option String
  /-- The phrases after the entity. -/
  after : List Phrase

namespace Frame

/-- The entity around some phrases. -/
def entity (f : Frame) (inner : List Phrase) : Phrase := .entity f.slot f.value inner

/-- The entity around some phrases, between the phrases before and after it. -/
def fill (f : Frame) (inner : List Phrase) : List Phrase := f.before ++ f.entity inner :: f.after

end Frame

/-- Where an entity stands among some phrases. -/
structure Place where
  /-- The entities around it, outermost first. -/
  around : List Frame
  /-- The entity itself. -/
  frame : Frame
  /-- The phrases inside it. -/
  inner : List Phrase

/-- Some phrases inside of some entities, outermost first. -/
def fillAll (around : List Frame) (ps : List Phrase) : List Phrase := around.foldr Frame.fill ps

theorem fillAll_append {outer around : List Frame} {ps : List Phrase} :
    fillAll (outer ++ around) ps = fillAll outer (fillAll around ps) := List.foldr_append

/-- The symbols before an entity, which stands inside of some others. -/
def front : List Frame → Frame → List Symbol
  | [], f => symbolsOf f.before
  | g :: around, f => symbolsOf g.before ++ .openEntity g.slot g.value :: front around f

namespace Place

/-- All phrases around the place. -/
def phrases (p : Place) : List Phrase := fillAll p.around (p.frame.fill p.inner)

/-- The entity with the phrases inside it. -/
def entity (p : Place) : Phrase := p.frame.entity p.inner

/-- How many entities are opened before the entity. -/
def number (p : Place) : Nat := ((front p.around p.frame).filterMap Symbol.opened?).length

end Place

mutual

/-- Every entity of a phrase has a place. -/
theorem exists_place (p : Phrase) (before after : List Phrase) {i : Nat}
    (hi : i < (slots [p]).length) :
    ∃ place : Place, place.phrases = before ++ p :: after ∧
      place.number = (slots before).length + i := by
  match p with
  | .word text => cases hi
  | .substitution raw value => cases hi
  | .entity slot value inner =>
    rw [slots_singleton, slots_entity] at hi
    rcases i with _ | i
    · exact ⟨⟨[], ⟨before, slot, value, after⟩, inner⟩, rfl, rfl⟩
    · obtain ⟨place, hphrases, hnumber⟩ := exists_placeOf inner [] [] (Nat.lt_of_succ_lt_succ hi)
      refine ⟨⟨⟨before, slot, value, after⟩ :: place.around, place.frame, place.inner⟩, ?_, ?_⟩
      · rw [List.nil_append, List.append_nil] at hphrases
        rw [← hphrases]
        rfl
      · have hnumber : place.number = i := hnumber.trans (Nat.zero_add i)
        rw [Place.number, front, List.filterMap_append, List.length_append, ← hnumber]
        rfl

theorem exists_placeOf (ps : List Phrase) (before after : List Phrase) {i : Nat}
    (hi : i < (slots ps).length) :
    ∃ place : Place, place.phrases = before ++ ps ++ after ∧
      place.number = (slots before).length + i := by
  match ps with
  | [] => cases hi
  | p :: ps =>
    have hslots : (slots (p :: ps)).length = (slots [p]).length + (slots ps).length := by
      rw [← List.length_append, ← slots_append, List.singleton_append]
    by_cases hfirst : i < (slots [p]).length
    · obtain ⟨place, hphrases, hnumber⟩ := exists_place p before (ps ++ after) hfirst
      exact ⟨place, by simpa using hphrases, hnumber⟩
    · obtain ⟨place, hphrases, hnumber⟩ := exists_placeOf ps (before ++ [p]) after
        (i := i - (slots [p]).length) (by omega)
      refine ⟨place, by simpa using hphrases, ?_⟩
      rw [hnumber, slots_append, List.length_append]
      omega

end

/-! ### The entity at a place -/

/-- The span of an entity of which some words are reported, inside one with the given span. -/
def spanOf (f : Frame) (inner : List Phrase) (span : Option (Nat × Nat)) (start : Nat) :
    Nat × Nat :=
  span.getD (start, start + (f.entity inner).words.length)

/-- The entity around some phrases, before which `start` words are reported and `rawStart` words
are matched. -/
def entityOf (f : Frame) (inner : List Phrase) (span : Option (Nat × Nat))
    (start rawStart : Nat) : Entity where
  name := f.slot
  value := Text.joinWords (f.entity inner).words
  rawValue := Text.joinWords (rawWordsOf inner)
  start := (spanOf f inner span start).1
  stop := (spanOf f inner span start).2
  rawStart
  rawStop := rawStart + (rawWordsOf inner).length

/-- The span that the entities inside an entity have to cover, if any. -/
def spanInside (f : Frame) (inner : List Phrase) (span : Option (Nat × Nat)) (start : Nat) :
    Option (Nat × Nat) :=
  if f.value.isSome then some (spanOf f inner span start) else span

/-- The entity that stands inside of some others, among phrases before which `start` words are
reported and `rawStart` words are matched. -/
def entityAt (f : Frame) (inner : List Phrase) : List Frame → Option (Nat × Nat) → Nat → Nat →
    Entity
  | [], span, start, rawStart =>
    entityOf f inner span (start + (wordsOf f.before).length)
      (rawStart + (rawWordsOf f.before).length)
  | g :: around, span, start, rawStart =>
    entityAt f inner around
      (spanInside g (fillAll around (f.fill inner)) span (start + (wordsOf g.before).length))
      (start + (wordsOf g.before).length) (rawStart + (rawWordsOf g.before).length)

section EntityAt

variable {f g : Frame} {inner : List Phrase} {around outer : List Frame}
  {span : Option (Nat × Nat)} {start rawStart : Nat}

theorem entitiesOf_fill : entitiesOf span start rawStart (f.fill inner) =
    entitiesOf span start rawStart f.before ++
      entityOf f inner span (start + (wordsOf f.before).length)
        (rawStart + (rawWordsOf f.before).length) ::
      (entitiesOf (spanInside f inner span (start + (wordsOf f.before).length))
          (start + (wordsOf f.before).length) (rawStart + (rawWordsOf f.before).length) inner ++
        entitiesOf span (start + (wordsOf f.before).length + (f.entity inner).words.length)
          (rawStart + (rawWordsOf f.before).length + (f.entity inner).rawWords.length)
          f.after) := by
  rw [Frame.fill, entitiesOf_append, entitiesOf]
  rfl

/-- The entity at a place is listed behind those that are opened before it. -/
theorem getElem?_entityAt :
    (entitiesOf span start rawStart (fillAll around (f.fill inner)))[((front around f).filterMap
      Symbol.opened?).length]? = some (entityAt f inner around span start rawStart) := by
  induction around generalizing span start rawStart with
  | nil =>
    have hlength : ((front [] f).filterMap Symbol.opened?).length =
        (entitiesOf span start rawStart f.before).length := length_entitiesOf.symm
    rw [fillAll, List.foldr_nil, entitiesOf_fill, hlength,
      List.getElem?_append_right (Nat.le_refl _), Nat.sub_self]
    rfl
  | cons g around ih =>
    have hlength : ((front (g :: around) f).filterMap Symbol.opened?).length =
        (entitiesOf span start rawStart g.before).length +
          (((front around f).filterMap Symbol.opened?).length + 1) := by
      rw [front, List.filterMap_append, List.length_append, length_entitiesOf]
      rfl
    -- Behind what comes before it, the entity around is listed first, and then what is inside.
    rw [fillAll, List.foldr_cons, entitiesOf_fill, hlength,
      List.getElem?_append_right (Nat.le_add_right _ _), Nat.add_sub_cancel_left,
      List.getElem?_cons_succ]
    obtain ⟨hlt, hget⟩ := List.getElem?_eq_some_iff.1 (@ih
      (spanInside g (fillAll around (f.fill inner)) span (start + (wordsOf g.before).length))
      (start + (wordsOf g.before).length) (rawStart + (rawWordsOf g.before).length))
    exact (List.getElem?_append_left hlt).trans (List.getElem?_eq_some_iff.2 ⟨hlt, hget⟩)

theorem name_entityAt : (entityAt f inner around span start rawStart).name = f.slot := by
  induction around generalizing span start rawStart with
  | nil => rfl
  | cons g around ih => exact ih

theorem rawValue_entityAt : (entityAt f inner around span start rawStart).rawValue =
    Text.joinWords (rawWordsOf inner) := by
  induction around generalizing span start rawStart with
  | nil => rfl
  | cons g around ih => exact ih

/-- Its matched words begin behind those that are put out before it. -/
theorem rawStart_entityAt : (entityAt f inner around span start rawStart).rawStart =
    rawStart + ((front around f).flatMap Symbol.rawWords).length := by
  induction around generalizing span start rawStart with
  | nil =>
    rw [front, flatMap_rawWords_symbolsOf]
    rfl
  | cons g around ih =>
    rw [entityAt, ih, front, List.flatMap_append, flatMap_rawWords_symbolsOf, List.length_append,
      Nat.add_assoc]
    rfl

theorem rawStop_entityAt : (entityAt f inner around span start rawStart).rawStop =
    (entityAt f inner around span start rawStart).rawStart + (rawWordsOf inner).length := by
  induction around generalizing span start rawStart with
  | nil => rfl
  | cons g around ih => exact ih

/-- Inside an entity with a value it covers the same words. -/
theorem span_entityAt_some {span : Nat × Nat} :
    (entityAt f inner around (some span) start rawStart).start = span.1 ∧
      (entityAt f inner around (some span) start rawStart).stop = span.2 :=
  span_of_mem_entitiesOf_some (List.mem_of_getElem? getElem?_entityAt)

/-- So it has the span of every entity with a value around it. -/
theorem span_entityAt_append (hvalue : g.value.isSome = true) :
    (entityAt f inner (outer ++ g :: around) span start rawStart).start =
        (entityAt g (fillAll around (f.fill inner)) outer span start rawStart).start ∧
      (entityAt f inner (outer ++ g :: around) span start rawStart).stop =
        (entityAt g (fillAll around (f.fill inner)) outer span start rawStart).stop := by
  induction outer generalizing span start rawStart with
  | nil =>
    have hinside : spanInside g (fillAll around (f.fill inner)) span
        (start + (wordsOf g.before).length) =
        some (spanOf g (fillAll around (f.fill inner)) span
          (start + (wordsOf g.before).length)) := if_pos hvalue
    rw [List.nil_append, entityAt, entityAt, hinside]
    exact span_entityAt_some
  | cons h outer ih =>
    rw [List.cons_append, entityAt, entityAt, fillAll_append]
    exact ih

/-- Where no entity around it has a value, its span covers the words that it reports. -/
theorem exists_reported (haround : ∀ g ∈ around, g.value = none) :
    ∃ before words after, wordsOf (fillAll around (f.fill inner)) = before ++ words ++ after ∧
      (entityAt f inner around none start rawStart).start = start + before.length ∧
      (entityAt f inner around none start rawStart).stop =
        start + before.length + words.length ∧
      (entityAt f inner around none start rawStart).value = Text.joinWords words := by
  induction around generalizing start rawStart with
  | nil =>
    refine ⟨wordsOf f.before, (f.entity inner).words, wordsOf f.after, ?_, rfl, rfl, rfl⟩
    rw [fillAll, List.foldr_nil, Frame.fill, wordsOf_append, wordsOf, List.append_assoc]
  | cons g around ih =>
    obtain ⟨hg, haround⟩ := List.forall_mem_cons.1 haround
    obtain ⟨before, words, after, hwords, hstart, hstop, hvalue⟩ :=
      @ih (start + (wordsOf g.before).length) (rawStart + (rawWordsOf g.before).length) haround
    rw [entityAt, spanInside, hg, Option.isSome_none, if_neg Bool.false_ne_true]
    refine ⟨wordsOf g.before ++ before, words, after ++ wordsOf g.after, ?_, ?_, ?_, hvalue⟩
    · -- An entity without a value reports what is inside it.
      have hentity : (g.entity (fillAll around (f.fill inner))).words =
          wordsOf (fillAll around (f.fill inner)) := by
        rw [Frame.entity, hg, Phrase.words]
      rw [fillAll, List.foldr_cons, Frame.fill, wordsOf_append, wordsOf]
      change _ ++ ((g.entity (fillAll around (f.fill inner))).words ++ _) = _
      rw [hentity, hwords]
      simp only [List.append_assoc]
    · rw [hstart, List.length_append, Nat.add_assoc]
    · rw [hstop, List.length_append]
      omega

/-- Its symbols stand behind those that are put out before it. -/
theorem exists_symbolsOf_fillAll : ∃ back, symbolsOf (fillAll around (f.fill inner)) =
    front around f ++ (f.entity inner).symbols ++ back := by
  induction around with
  | nil =>
    refine ⟨symbolsOf f.after, ?_⟩
    rw [fillAll, List.foldr_nil, Frame.fill, symbolsOf_append, symbolsOf, front,
      List.append_assoc]
  | cons g around ih =>
    obtain ⟨back, hback⟩ := ih
    refine ⟨back ++ [.closeEntity] ++ symbolsOf g.after, ?_⟩
    rw [fillAll, List.foldr_cons, Frame.fill, symbolsOf_append, symbolsOf, Frame.entity, symbols]
    change _ ++ (_ :: symbolsOf (fillAll around (f.fill inner)) ++ _ ++ _) = _
    rw [hback, front]
    simp only [List.append_assoc, List.cons_append]

end EntityAt

end Phrase

/-! ### Transcripts -/

namespace Transcript

open Phrase

/-- The markers of an intent stand for nothing that is matched. -/
theorem flatMap_rawWords_symbols (t : Transcript) :
    t.symbols.flatMap Symbol.rawWords = rawWordsOf t.phrases := by
  match t with
  | plain ps => exact flatMap_rawWords_symbolsOf ps
  | named before name inside after =>
    rw [symbols, List.flatMap_append, List.flatMap_append, List.flatMap_cons, List.flatMap_cons,
      flatMap_rawWords_symbolsOf, flatMap_rawWords_symbolsOf, flatMap_rawWords_symbolsOf, phrases,
      rawWordsOf_append, rawWordsOf_append]
    rfl

/-- They open no entity. -/
theorem filterMap_opened_symbols (t : Transcript) :
    t.symbols.filterMap Symbol.opened? = slots t.phrases := by
  match t with
  | plain ps => rfl
  | named before name inside after =>
    rw [symbols, List.filterMap_append, List.filterMap_append, List.filterMap_cons,
      List.filterMap_cons, phrases, slots_append, slots_append]
    rfl

/-- The symbols before a phrase, but for the markers of an intent. -/
structure IsFront (front symbols : List Symbol) : Prop where
  /-- The same words are matched. -/
  rawWords_eq : front.flatMap Symbol.rawWords = symbols.flatMap Symbol.rawWords
  /-- The same entities are opened. -/
  opened_eq : front.filterMap Symbol.opened? = symbols.filterMap Symbol.opened?

theorem isFront_refl (symbols : List Symbol) : IsFront symbols symbols := ⟨rfl, rfl⟩

theorem IsFront.append {front symbols : List Symbol} (h : IsFront front symbols)
    (xs : List Symbol) : IsFront (front ++ xs) (symbols ++ xs) :=
  ⟨by rw [List.flatMap_append, h.rawWords_eq, List.flatMap_append],
    by rw [List.filterMap_append, h.opened_eq, List.filterMap_append]⟩

/-- A phrase among those of two lists stands in the first or in the second one. -/
theorem append_eq_append_cons {l m before after : List Phrase} {p : Phrase}
    (h : l ++ m = before ++ p :: after) :
    (∃ rest, l = before ++ p :: rest ∧ after = rest ++ m) ∨
      ∃ rest, before = l ++ rest ∧ m = rest ++ p :: after := by
  rcases List.append_eq_append_iff.1 h with ⟨rest, hbefore, hm⟩ | ⟨rest, rfl, hrest⟩
  · exact .inr ⟨rest, hbefore, hm⟩
  · rcases List.cons_eq_append_iff.1 hrest with ⟨rfl, rfl⟩ | ⟨rest, rfl, rfl⟩
    · exact .inr ⟨[], by simp, rfl⟩
    · exact .inl ⟨rest, rfl, rfl⟩

/-- Where a phrase stands among the symbols. -/
theorem exists_symbols_eq {t : Transcript} {before after : List Phrase} {p : Phrase}
    (h : t.phrases = before ++ p :: after) :
    ∃ front back, t.symbols = front ++ p.symbols ++ back ∧ IsFront front (symbolsOf before) := by
  match t with
  | plain ps =>
    obtain rfl : ps = _ := h
    refine ⟨symbolsOf before, symbolsOf after, ?_, isFront_refl _⟩
    rw [symbols, symbolsOf_append, symbolsOf, List.append_assoc]
  | named first name inside last =>
    rcases append_eq_append_cons h with ⟨behind, hboth, rfl⟩ | ⟨between, rfl, rfl⟩
    · rcases append_eq_append_cons hboth with ⟨between, rfl, rfl⟩ | ⟨between, rfl, rfl⟩
      · -- It stands before the intent.
        refine ⟨symbolsOf before, symbolsOf between ++ .openIntent name :: symbolsOf inside ++
          .closeIntent :: symbolsOf last, ?_, isFront_refl _⟩
        simp [symbols, symbolsOf]
      · -- It stands inside the intent.
        refine ⟨symbolsOf first ++ .openIntent name :: symbolsOf between,
          symbolsOf behind ++ .closeIntent :: symbolsOf last, ?_, ?_⟩
        · simp [symbols, symbolsOf]
        · constructor <;> simp [List.filterMap_cons, Symbol.rawWords, Symbol.opened?]
    · -- It stands after the intent.
      refine ⟨symbolsOf first ++ .openIntent name :: symbolsOf inside ++ .closeIntent ::
        symbolsOf between, symbolsOf after, ?_, ?_⟩
      · simp [symbols, symbolsOf]
      · constructor <;> simp [List.filterMap_cons, Symbol.rawWords, Symbol.opened?]

/-- So where an entity stands among the symbols. -/
theorem exists_symbols_eq_of_place {t : Transcript} {place : Place}
    (h : place.phrases = t.phrases) :
    ∃ front back, t.symbols = front ++ place.entity.symbols ++ back ∧
      IsFront front (Phrase.front place.around place.frame) := by
  obtain ⟨around, f, inner⟩ := place
  -- Markers of an intent stand only between phrases that are inside no entity, so it is enough to
  -- look for the outermost entity.
  cases around with
  | nil => exact exists_symbols_eq h.symm
  | cons g around =>
    have hphrases : t.phrases = g.before ++ g.entity (fillAll around (f.fill inner)) :: g.after :=
      h.symm
    obtain ⟨front, back, hsymbols, hfront⟩ := exists_symbols_eq hphrases
    obtain ⟨rest, hrest⟩ := @exists_symbolsOf_fillAll f inner around
    refine ⟨front ++ .openEntity g.slot g.value :: Phrase.front around f,
      rest ++ .closeEntity :: back, ?_, ?_⟩
    · have hentity : (g.entity (fillAll around (f.fill inner))).symbols =
          .openEntity g.slot g.value :: (Phrase.front around f ++ (f.entity inner).symbols ++
            rest) ++ [.closeEntity] := by
        rw [Frame.entity, Phrase.symbols, hrest]
      rw [hsymbols, hentity]
      simp [Place.entity]
    · exact hfront.append (.openEntity g.slot g.value :: Phrase.front around f)

/-! ### What is said about the entities -/

/-- What is said about the entity at a place. -/
structure Reports (t : Transcript) (intent : Intent) (place : Place) (e : Entity) : Prop where
  /-- It has its name. -/
  name_eq : e.name = place.frame.slot
  /-- Its matched words begin behind those that are put out before its opening marker. -/
  front : ∃ front back, t.symbols = front ++ place.entity.symbols ++ back ∧
    (front.filterMap Symbol.opened?).length = place.number ∧
    e.rawStart = (front.flatMap Symbol.rawWords).length
  /-- They are the words that are put out up to its closing marker. -/
  raw : e.rawStart ≤ e.rawStop ∧ e.rawStop ≤ intent.rawTokens.length ∧
    intent.rawTokens.extract e.rawStart e.rawStop = rawWordsOf place.inner ∧
    e.rawValue = Text.joinWords (rawWordsOf place.inner)
  /-- Its value are the reported words of its span, unless an entity around it has a value. -/
  value_eq : (∀ f ∈ place.around, f.value = none) →
    e.value = Text.joinWords (intent.tokens.extract e.start e.stop)
  /-- It covers the same reported words as any entity around it that has a value. -/
  covers : ∀ outer f around, place.around = outer ++ f :: around → f.value.isSome = true →
    ∃ e', intent.entities[(Place.mk outer f (fillAll around
        (place.frame.fill place.inner))).number]? = some e' ∧
      e.start = e'.start ∧ e.stop = e'.stop

/-- What is said about an intent, when a transcript is decoded. -/
structure Describes (t : Transcript) (intent : Intent) : Prop where
  /-- The matched words are those of the symbols. -/
  rawTokens_eq : intent.rawTokens = t.symbols.flatMap Symbol.rawWords
  /-- The reported words are those of the phrases, where the value of an entity takes the place of
  everything inside it. -/
  tokens_eq : intent.tokens = wordsOf t.phrases
  /-- There is one entity for every opening marker, in the order of these. -/
  names_eq : intent.entities.map Entity.name = t.symbols.filterMap Symbol.opened?
  /-- Their spans are spans of the reported words. -/
  spans : ∀ e ∈ intent.entities, e.start ≤ e.stop ∧ e.stop ≤ intent.tokens.length
  /-- Of two of them, one ends before the other one begins, or it lies inside it. -/
  nested : intent.entities.Pairwise NestedOrDisjoint
  /-- Every entity has a place. -/
  exists_place : ∀ i < intent.entities.length, ∃ place : Place,
    place.phrases = t.phrases ∧ place.number = i
  /-- At every place there is an entity. -/
  reports : ∀ place : Place, place.phrases = t.phrases →
    ∃ e, intent.entities[place.number]? = some e ∧ t.Reports intent place e

/-- The middle of three lists. -/
theorem extract_middle {words before middle after : List String} {start stop : Nat}
    (h : words = before ++ middle ++ after) (hstart : start = before.length)
    (hstop : stop = start + middle.length) : words.extract start stop = middle := by
  subst h hstart hstop
  rw [List.extract_eq_take_drop, List.append_assoc, List.drop_left, Nat.add_sub_cancel_left,
    List.take_left]

/-- The entity at a place is what it should be. -/
theorem reports_entityAt {t : Transcript} {place : Place} (h : place.phrases = t.phrases) :
    t.Reports t.intent place (entityAt place.frame place.inner place.around none 0 0) := by
  obtain ⟨front, back, hsymbols, hfront⟩ := exists_symbols_eq_of_place h
  have hrawStart := @rawStart_entityAt place.frame place.inner place.around none 0 0
  have hrawStop := @rawStop_entityAt place.frame place.inner place.around none 0 0
  rw [Nat.zero_add, ← hfront.rawWords_eq] at hrawStart
  have hraw : t.intent.rawTokens = front.flatMap Symbol.rawWords ++ rawWordsOf place.inner ++
      back.flatMap Symbol.rawWords := by
    have hinner := Phrase.flatMap_rawWords_symbols place.entity
    change rawWordsOf t.phrases = _
    rw [← t.flatMap_rawWords_symbols, hsymbols, List.flatMap_append, List.flatMap_append, hinner]
    rfl
  refine ⟨name_entityAt, ⟨front, back, hsymbols, ?_, hrawStart⟩, ⟨?_, ?_, ?_, rawValue_entityAt⟩,
    fun haround => ?_, fun outer f around haround hvalue => ?_⟩
  · rw [hfront.opened_eq]
    rfl
  · rw [hrawStop]
    exact Nat.le_add_right _ _
  · rw [hraw, hrawStop, hrawStart, List.length_append, List.length_append]
    exact Nat.le_add_right _ _
  · exact extract_middle hraw hrawStart hrawStop
  · -- Nothing around it has a value, so its own words are reported where its span says.
    obtain ⟨before, words, after, hwords, hstart, hstop, hvalue⟩ :=
      @exists_reported place.frame place.inner place.around 0 0 haround
    rw [Nat.zero_add] at hstart hstop
    have htokens : t.intent.tokens = before ++ words ++ after := by
      rw [← hwords]
      exact congrArg wordsOf h.symm
    rw [hvalue, extract_middle htokens hstart (by rw [hstop, hstart])]
  · -- An entity around it has a place of its own, in the same phrases.
    refine ⟨entityAt f (fillAll around (place.frame.fill place.inner)) outer none 0 0, ?_, ?_⟩
    · have hphrases : fillAll outer (f.fill (fillAll around (place.frame.fill place.inner))) =
          t.phrases := by
        rw [← h, Place.phrases, haround, fillAll_append]
        rfl
      change (entitiesOf none 0 0 t.phrases)[_]? = _
      rw [← hphrases]
      exact getElem?_entityAt
    · rw [haround]
      exact span_entityAt_append hvalue

/-- A transcript describes the intent that it means. -/
theorem describes_intent (t : Transcript) : t.Describes t.intent where
  rawTokens_eq := t.flatMap_rawWords_symbols.symm
  tokens_eq := rfl
  names_eq := (map_name_entitiesOf t.phrases none 0 0).trans t.filterMap_opened_symbols.symm
  spans e he := by
    obtain ⟨-, hle, hstop⟩ := span_of_mem_entitiesOf t.phrases he
    rw [Nat.zero_add] at hstop
    exact ⟨hle, hstop⟩
  nested := pairwise_entitiesOf t.phrases 0 0
  exists_place i hi := by
    have hslots : i < (slots t.phrases).length := hi.trans_eq length_entitiesOf
    obtain ⟨place, hphrases, hnumber⟩ := exists_placeOf t.phrases [] [] hslots
    exact ⟨place, by simpa using hphrases, hnumber.trans (Nat.zero_add i)⟩
  reports place h := by
    refine ⟨_, ?_, reports_entityAt h⟩
    change (entitiesOf none 0 0 t.phrases)[_]? = _
    rw [← h]
    exact getElem?_entityAt

end Transcript

/-! ### What symbols decode to -/

namespace Decoder

/-- Wherever an entity ends, its words are there that are taken out: the reported ones and the
matched ones, from where the entity was opened. -/
def InRange (symbols : List Symbol) : Prop :=
  ∀ before after, symbols = before ++ .closeEntity :: after →
    ∃ s s' order slot value start rawStart, before.foldlM State.step .initial = .ok s ∧
      s.closeEntity = .ok s' ∧ s.scopes = .entity order slot value start rawStart :: s'.scopes ∧
      start ≤ s.tokens.size ∧ start ≤ s'.tokens.size ∧ rawStart ≤ s'.rawTokens.size

theorem inRange_of_foldlM {symbols : List Symbol} {s : State}
    (h : symbols.foldlM State.step .initial = .ok s) : InRange symbols := by
  rintro before after rfl
  obtain ⟨middle, hbefore, hrest⟩ := State.foldlM_append_iff.1 h
  rw [List.foldlM_cons] at hrest
  obtain ⟨s', hclose, -⟩ := bind_eq_ok_iff.1 hrest
  obtain ⟨order, slot, value, start, rawStart, hscopes, hstart, hstop, hraw, -⟩ :=
    (fits_of_foldlM hbefore).closeEntity hclose
  exact ⟨middle, s', order, slot, value, start, rawStart, hbefore, hclose, hscopes, hstart, hstop,
    hraw⟩

/-- Symbols that decode are those of a transcript, and every transcript of theirs says what they
decode to: the words, the entities with their spans and values, and how the spans lie. No word is
taken out that is not there. -/
theorem decode_spec {symbols : List Symbol} {intent : Intent} (h : decode symbols = .ok intent) :
    InRange symbols ∧ (∃ t : Transcript, t.symbols = symbols) ∧
      ∀ t : Transcript, t.symbols = symbols → t.Describes intent := by
  obtain ⟨s, hfold, -⟩ := bind_eq_ok_iff.1 h
  refine ⟨inRange_of_foldlM hfold, Transcript.exists_of_decode h, fun t ht => ?_⟩
  have hintent := t.decode_symbols
  rw [ht, h] at hintent
  obtain rfl := Except.ok.inj hintent
  exact t.describes_intent

/-- An entity with a value around another one, whose own value is not reported. -/
theorem decode_spec_covered : ∃ symbols intent,
    symbols = [.openIntent "A", .openEntity "outer" (some "X"), .openEntity "inner" none,
      .word "a", .word "b", .closeEntity, .word "c", .closeEntity, .word "d", .closeIntent] ∧
    decode symbols = .ok intent ∧ InRange symbols ∧ (∃ t : Transcript, t.symbols = symbols) ∧
      ∀ t : Transcript, t.symbols = symbols → t.Describes intent := by
  let t : Transcript := .named [] "A" [.entity "outer" (some "X")
    [.entity "inner" none [.word "a", .word "b"], .word "c"], .word "d"] []
  exact ⟨_, _, rfl, t.decode_symbols, decode_spec t.decode_symbols⟩

end Decoder

end Phrasebook
