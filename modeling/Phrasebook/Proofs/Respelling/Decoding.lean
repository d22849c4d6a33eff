import Phrasebook.Intent
import Phrasebook.Proofs.Compile.Phrases
import Phrasebook.Proofs.Respelling.Automaton

/-!
# Decoding words that are spelled anew

A run in a new spelling decodes as the run does in the old one: to the same name, the same
reported words and the same entities over the same spans. Only the matched words are spelled anew,
in the intent and in the span of each entity.

* `IsSpelling`: no word disappears or falls apart when it is spelled anew.
* `Intent.respell`: an intent whose matched words are spelled anew.
* `Decoder.State.step_respell`: every symbol is decoded in the new spelling as in the old one.
* `Intent.ofSymbols_map_respell`: so are the symbols of a run.
-/

namespace Phrasebook

/-- A new spelling of words: only the empty word is spelled as the empty word, and no word falls
apart. -/
structure IsSpelling (f : String → String) : Prop where
  /-- Only the empty word becomes empty. -/
  eq_empty_iff : ∀ word, f word = "" ↔ word = ""
  /-- A word without blanks stays one. -/
  isUnbroken : ∀ word, IsUnbroken word → IsUnbroken (f word)

/-- The words of a text without blanks are spelled as the text is. -/
theorem IsSpelling.words_eq {f : String → String} (hf : IsSpelling f) {raw : String}
    (h : IsUnbroken raw) : Text.words (f raw) = (Text.words raw).map f := by
  by_cases hraw : raw = ""
  · rw [(hf.eq_empty_iff raw).2 hraw, hraw, Text.words_empty]
    rfl
  · rw [Text.words_of_isUnbroken h hraw, Text.words_of_isUnbroken (hf.isUnbroken raw h)
      (mt (hf.eq_empty_iff raw).1 hraw)]
    rfl

/-- What is matched holds no blank. -/
def Symbol.Unbroken : Symbol → Prop
  | word raw | substitution raw _ => IsUnbroken raw
  | openIntent _ | closeIntent | openEntity _ _ | closeEntity => True

/-- An entity with a new spelling of all matched words. -/
def Entity.respell (rawTokens : List String) (entity : Entity) : Entity :=
  { entity with rawValue := Text.joinWords (rawTokens.extract entity.rawStart entity.rawStop) }

/-- An intent with a new spelling of the matched words. -/
def Intent.respell (f : String → String) (intent : Intent) : Intent :=
  { intent with
    rawText := Text.joinWords (intent.rawTokens.map f)
    rawTokens := intent.rawTokens.map f
    entities := intent.entities.map (.respell (intent.rawTokens.map f)) }

/-- Words behind the span of an entity are no part of it. -/
theorem Entity.respell_append {entity : Entity} {rawTokens : List String}
    (h : entity.rawStop ≤ rawTokens.length) (more : List String) :
    entity.respell (rawTokens ++ more) = entity.respell rawTokens := by
  rw [respell, respell, List.extract_eq_take_drop, List.extract_eq_take_drop, ← List.drop_take,
    ← List.drop_take, List.take_append_of_le_length h]

namespace Decoder.State

variable {f : String → String} {s s' : State} {x : Symbol}

/-- What has been decoded, in the new spelling. -/
def respell (f : String → String) (s : State) : State :=
  { s with
    rawTokens := s.rawTokens.map f
    entities := s.entities.map fun (number, entity) =>
      (number, entity.respell (s.rawTokens.toList.map f)) }

/-- The spans of closed entities lie within the matched words. -/
def Covers (s : State) : Prop :=
  ∀ part ∈ s.entities, part.2.rawStop ≤ s.rawTokens.toList.length

/-- Some words have been decoded. -/
def addWords (s : State) (words raw : List String) : State :=
  { s with tokens := s.tokens ++ words.toArray, rawTokens := s.rawTokens ++ raw.toArray }

theorem step_word (w : String) : s.step (.word w) = .ok (s.addWords [w] [w]) := by
  simp [step, addWords]

theorem step_substitution (raw value : String) :
    s.step (.substitution raw value) = .ok (s.addWords (Text.words value) (Text.words raw)) := rfl

/-! ### The spans of entities -/

theorem covers_initial : Covers .initial := fun _ h => absurd h List.not_mem_nil

theorem Covers.addWords (h : s.Covers) (words raw : List String) :
    (s.addWords words raw).Covers := by
  intro part hpart
  refine (h part hpart).trans ?_
  rw [State.addWords, Array.toList_append, List.length_append]
  exact Nat.le_add_right _ _

/-- The span of an entity ends with the words that have been matched when it is closed. -/
theorem Covers.closeEntity (h : s.Covers) (hclose : s.closeEntity = .ok s') : s'.Covers := by
  rw [State.closeEntity] at hclose
  split at hclose
  · next order slot value start rawStart scopes _ =>
    cases hclose
    refine List.forall_mem_cons.2 ⟨le_rfl, ?_⟩
    cases value with
    | none => exact h
    | some value =>
      refine List.forall_mem_map.2 fun ⟨number, entity⟩ hpart => ?_
      have hle := h _ hpart
      dsimp only
      split <;> exact hle
  · cases hclose

theorem Covers.step (h : s.Covers) (hstep : s.step x = .ok s') : s'.Covers := by
  cases x with
  | word w =>
    rw [step_word] at hstep
    cases hstep
    exact h.addWords [w] [w]
  | substitution raw value =>
    cases hstep
    exact h.addWords (Text.words value) (Text.words raw)
  | openIntent name =>
    rw [State.step, State.openIntent] at hstep
    split at hstep <;> cases hstep
    exact h
  | closeIntent =>
    rw [State.step, State.closeIntent] at hstep
    split at hstep <;> cases hstep
    exact h
  | openEntity slot value =>
    cases hstep
    exact h
  | closeEntity => exact h.closeEntity hstep

/-! ### One symbol -/

/-- Words are decoded in the new spelling as in the old one. Entities that are closed stay as they
are. -/
theorem respell_addWords (h : s.Covers) (words raw : List String) :
    (s.addWords words raw).respell f = (s.respell f).addWords words (raw.map f) := by
  simp only [respell, addWords, Array.map_append, List.map_toArray, mk.injEq, true_and, and_true]
  refine List.map_congr_left fun part hpart => ?_
  rw [Array.toList_append, List.map_append, Entity.respell_append]
  rw [List.length_map]
  exact h part hpart

theorem respell_openIntent (name : String) :
    (s.respell f).openIntent name = respell f <$> s.openIntent name := by
  by_cases h : s.scopes.isEmpty ∧ s.name.isNone
  · rw [openIntent, openIntent, if_pos h]
    exact if_pos h
  · rw [openIntent, openIntent, if_neg h]
    exact if_neg h

theorem respell_closeIntent : (s.respell f).closeIntent = respell f <$> s.closeIntent := by
  obtain ⟨tokens, rawTokens, name, scopes, entities, opened⟩ := s
  rcases scopes with _ | ⟨_ | _, scopes⟩ <;> rfl

theorem respell_openEntity (slot : String) (value : Option String) :
    (s.respell f).openEntity slot value = (s.openEntity slot value).respell f := by
  simp only [openEntity, respell, Array.size_map]

theorem between_map (words : Array String) (start stop : Nat) :
    between (words.map f) start stop =
      Text.joinWords ((words.toList.map f).extract start stop) := by
  rw [between, Array.toList_extract, Array.toList_map]

/-- The entity that is closed has the same span in the new spelling. -/
theorem respell_closeEntity : (s.respell f).closeEntity = respell f <$> s.closeEntity := by
  obtain ⟨tokens, rawTokens, name, scopes, entities, opened⟩ := s
  rcases scopes with _ | ⟨_ | ⟨order, slot, value, start, rawStart⟩, scopes⟩
  · rfl
  · rfl
  · refine congrArg Except.ok ?_
    simp only [respell, between_map, Array.size_map]
    cases value with
    | none => rfl
    | some value =>
      simp only [mk.injEq, true_and, and_true, List.map_cons, List.map_map]
      refine congrArg₂ List.cons rfl (List.map_congr_left fun ⟨number, entity⟩ _ => ?_)
      by_cases hinside : order < number
      · simp only [Function.comp_apply, if_pos hinside]
        rfl
      · simp only [Function.comp_apply, if_neg hinside]

/-- Every symbol is decoded in the new spelling as in the old one. -/
theorem step_respell (hf : IsSpelling f) (hs : s.Covers) (hx : x.Unbroken) :
    (s.respell f).step (x.respell f) = respell f <$> s.step x := by
  cases x with
  | word w =>
    rw [step_word, Symbol.respell]
    refine Eq.trans ?_ (congrArg Except.ok (respell_addWords hs [w] [w])).symm
    split
    · next hsame => rw [step_word, List.map_singleton, hsame]
    · next hchanged =>
      -- The word is put out as a substitution, whose two sides are cut into words again.
      have hne : w ≠ "" := fun hempty => hchanged (by rw [hempty, hf.eq_empty_iff])
      have hwords : Text.words w = [w] := Text.words_of_isUnbroken hx hne
      rw [step_substitution, hf.words_eq hx, hwords]
  | substitution raw value =>
    rw [Symbol.respell, step_substitution, step_substitution, hf.words_eq hx]
    exact congrArg Except.ok (respell_addWords hs _ _).symm
  | openIntent name => exact respell_openIntent name
  | closeIntent => exact respell_closeIntent
  | openEntity slot value => exact congrArg Except.ok (respell_openEntity slot value)
  | closeEntity => exact respell_closeEntity

/-! ### Runs -/

theorem respell_initial : respell f .initial = .initial := by
  simp [respell, initial]

theorem foldlM_respell (hf : IsSpelling f) {xs : List Symbol} (hs : s.Covers)
    (hxs : ∀ x ∈ xs, x.Unbroken) :
    (xs.map (Symbol.respell f)).foldlM step (s.respell f) = respell f <$> xs.foldlM step s := by
  induction xs generalizing s with
  | nil => rfl
  | cons x xs ih =>
    obtain ⟨hx, hxs⟩ := List.forall_mem_cons.1 hxs
    rw [List.map_cons, List.foldlM_cons, List.foldlM_cons, step_respell hf hs hx]
    cases hstep : s.step x with
    | error fault => rfl
    | ok s' => exact ih (hs.step hstep) hxs

/-- The numbers stay by which the entities are put in order. -/
theorem map_snd_mergeSort_respell (rawTokens : List String) (entities : List (Nat × Entity)) :
    ((entities.map fun (number, entity) => (number, entity.respell rawTokens)).mergeSort
        fun a b => decide (a.1 ≤ b.1)).map Prod.snd =
      ((entities.mergeSort fun a b => decide (a.1 ≤ b.1)).map Prod.snd).map
        (.respell rawTokens) := by
  rw [← List.map_mergeSort (r := fun a b => decide (a.1 ≤ b.1)) fun _ _ _ _ => rfl, List.map_map,
    List.map_map]
  rfl

/-- When no scope is open, the intent is that of the old spelling. -/
theorem finish_respell : (s.respell f).finish = Intent.respell f <$> s.finish := by
  obtain ⟨tokens, rawTokens, name, scopes, entities, opened⟩ := s
  cases scopes with
  | cons scope scopes => rfl
  | nil =>
    refine congrArg Except.ok ?_
    simp only [respell, Intent.respell, Array.toList_map, map_snd_mergeSort_respell]
    rfl

end Decoder.State

/-- The symbols of a run decode in the new spelling as in the old one. -/
theorem Intent.ofSymbols_map_respell {f : String → String} (hf : IsSpelling f) {xs : List Symbol}
    (hxs : ∀ x ∈ xs, x.Unbroken) :
    ofSymbols (xs.map (Symbol.respell f)) = respell f <$> ofSymbols xs := by
  have hfold := Decoder.State.foldlM_respell hf Decoder.State.covers_initial hxs
  rw [Decoder.State.respell_initial] at hfold
  rw [ofSymbols, ofSymbols, Decoder.decode, Decoder.decode, hfold]
  cases xs.foldlM Decoder.State.step .initial with
  | error fault => rfl
  | ok s =>
    refine (congrArg (Except.mapError Error.malformedPath) (Decoder.State.finish_respell)).trans ?_
    change _ = respell f <$> s.finish.mapError Error.malformedPath
    cases s.finish <;> rfl

end Phrasebook
