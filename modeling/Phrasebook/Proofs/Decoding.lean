import Mathlib.Data.List.Sort
import Phrasebook.Phrase
import Phrasebook.Proofs.Outcome

/-!
# Decoding phrases

Markers that nest decode. What a phrase encloses is decoded while its own scope is open, and when
the phrase ends the scopes are those from before it; its words and its entities have been added.
So a transcript decodes to the intent that it means.

* `Phrase.map_cover_entitiesOf`: what an entity with a value does to those inside it.
* `Decoder.numbered`: entities with their numbers.
* `Decoder.State.Adds`: what some phrases leave as it was, and what they add.
* `Decoder.State.foldlM_symbolsOf`: phrases decode in every state.
* `Transcript.decode_symbols`: a transcript decodes to the intent that it means.
-/

namespace Phrasebook

/-! ### Entities inside of one with a value -/

/-- The entity with another span of reported words. -/
def Entity.cover (span : Nat × Nat) (e : Entity) : Entity :=
  { e with
    start := span.1
    stop := span.2 }

namespace Phrase

mutual

/-- Entities that are made to cover a span are those inside an entity with this span. -/
theorem map_cover_entities (span : Nat × Nat) (p : Phrase) (outer : Option (Nat × Nat))
    (start rawStart : Nat) :
    (entities outer start rawStart p).map (Entity.cover span) =
      entities (some span) start rawStart p := by
  match p with
  | word text => rfl
  | substitution raw value => rfl
  | entity slot none inner =>
    refine congrArg (_ :: ·) ?_
    exact map_cover_entitiesOf span inner outer start rawStart
  | entity slot (some value) inner =>
    refine congrArg (_ :: ·) ?_
    exact map_cover_entitiesOf span inner (some _) start rawStart

theorem map_cover_entitiesOf (span : Nat × Nat) (ps : List Phrase) (outer : Option (Nat × Nat))
    (start rawStart : Nat) :
    (entitiesOf outer start rawStart ps).map (Entity.cover span) =
      entitiesOf (some span) start rawStart ps := by
  match ps with
  | [] => rfl
  | p :: ps =>
    rw [entitiesOf, List.map_append, map_cover_entities span p, map_cover_entitiesOf span ps,
      entitiesOf]

end

end Phrase

namespace Decoder

/-! ### Numbers -/

/-- Entities with their numbers, of which the first is given. -/
def numbered (first : Nat) (entities : List Entity) : List (Nat × Entity) :=
  (entities.zipIdx first).map Prod.swap

variable {first : Nat} {es es' : List Entity}

@[simp]
theorem numbered_nil : numbered first [] = [] := rfl

theorem numbered_cons {e : Entity} :
    numbered first (e :: es) = (first, e) :: numbered (first + 1) es := by
  rw [numbered, List.zipIdx_cons, List.map_cons]
  rfl

theorem numbered_append :
    numbered first (es ++ es') = numbered first es ++ numbered (first + es.length) es' := by
  rw [numbered, List.zipIdx_append, List.map_append]
  rfl

/-- The numbers follow one another. -/
theorem map_fst_numbered : (numbered first es).map Prod.fst = List.range' first es.length := by
  rw [numbered, List.map_map]
  exact List.zipIdx_map_snd first es

theorem map_snd_numbered : (numbered first es).map Prod.snd = es := by
  rw [numbered, List.map_map]
  exact List.zipIdx_map_fst first es

theorem mem_numbered {part : Nat × Entity} (h : part ∈ numbered first es) :
    first ≤ part.1 ∧ part.1 < first + es.length := by
  have hnumber : part.1 ∈ (numbered first es).map Prod.fst := List.mem_map_of_mem h
  rwa [map_fst_numbered, List.mem_range'_1] at hnumber

/-- Entities that are put in the order of their numbers come out as they were numbered. -/
theorem mergeSort_of_perm_numbered {parts : List (Nat × Entity)}
    (h : parts.Perm (numbered first es)) :
    (parts.mergeSort fun a b => decide (a.1 ≤ b.1)).map Prod.snd = es := by
  have hincreasing : (numbered first es).Pairwise fun a b => a.1 < b.1 := by
    rw [← List.pairwise_map, map_fst_numbered]
    exact List.pairwise_lt_range'
  have hsorted : (parts.mergeSort fun a b => decide (a.1 ≤ b.1)).Pairwise fun a b =>
      a.1 ≤ b.1 := by
    refine (List.pairwise_mergeSort ?_ ?_ parts).imp fun hle => of_decide_eq_true hle
    · intro a b c hab hbc
      exact decide_eq_true ((of_decide_eq_true hab).trans (of_decide_eq_true hbc))
    · intro a b
      simpa using Nat.le_total a.1 b.1
  have hperm := (parts.mergeSort_perm fun a b => decide (a.1 ≤ b.1)).trans h
  -- Different entities have different numbers, so there is only one order.
  have heq : parts.mergeSort (fun a b => decide (a.1 ≤ b.1)) = numbered first es := by
    refine hperm.eq_of_pairwise (fun a b ha hb hab hba => ?_) hsorted
      (hincreasing.imp fun hlt => hlt.le)
    have hnodup : ((numbered first es).map Prod.fst).Nodup := by
      rw [map_fst_numbered]
      exact List.nodup_range'
    exact List.inj_on_of_nodup_map hnodup (hperm.mem_iff.1 ha) hb (hab.antisymm hba)
  rw [heq, map_snd_numbered]

namespace State

/-! ### What phrases add -/

/-- The entities of some phrases that follow what has been decoded. -/
def entitiesAfter (s : State) (ps : List Phrase) : List Entity :=
  Phrase.entitiesOf none s.tokens.size s.rawTokens.size ps

/-- Every closed entity has been opened: its number is smaller than that of the next one. -/
def Counted (s : State) : Prop := ∀ part ∈ s.entities, part.1 < s.opened

/-- The words and the entities of some phrases have been added, and the open scopes and the name
are as before. -/
structure Adds (s s' : State) (ps : List Phrase) : Prop where
  /-- The same scopes are open. -/
  scopes_eq : s'.scopes = s.scopes
  /-- The name is the same. -/
  name_eq : s'.name = s.name
  /-- The reported words are added to those from before. -/
  tokens_eq : s'.tokens.toList = s.tokens.toList ++ Phrase.wordsOf ps
  /-- The matched words are added to those from before. -/
  rawTokens_eq : s'.rawTokens.toList = s.rawTokens.toList ++ Phrase.rawWordsOf ps
  /-- Every entity has been opened. -/
  opened_eq : s'.opened = s.opened + (s.entitiesAfter ps).length
  /-- Every entity has been closed, with its number. -/
  entities_perm :
    s'.entities.Perm (s.entities ++ numbered s.opened (s.entitiesAfter ps))

namespace Adds

variable {s s' s'' : State} {ps qs : List Phrase}

theorem refl (s : State) : Adds s s [] :=
  ⟨rfl, rfl, (List.append_nil _).symm, (List.append_nil _).symm, rfl,
    by rw [entitiesAfter, Phrase.entitiesOf, numbered_nil, List.append_nil]⟩

/-- A phrase without entities adds its words. -/
theorem of_leaf {p : Phrase} {tokens rawTokens : Array String}
    (hentities : s.entitiesAfter [p] = []) (htokens : tokens.toList = s.tokens.toList ++ p.words)
    (hraw : rawTokens.toList = s.rawTokens.toList ++ p.rawWords) :
    Adds s { s with tokens, rawTokens } [p] where
  scopes_eq := rfl
  name_eq := rfl
  tokens_eq := by rw [htokens, Phrase.wordsOf, Phrase.wordsOf, List.append_nil]
  rawTokens_eq := by rw [hraw, Phrase.rawWordsOf, Phrase.rawWordsOf, List.append_nil]
  opened_eq := by rw [hentities, List.length_nil, Nat.add_zero]
  entities_perm := by rw [hentities, numbered_nil, List.append_nil]

/-- The same is added under another name and inside other scopes. -/
theorem relabel (h : Adds s s' ps) (name : Option String) (scopes : List Scope) :
    Adds { s with name, scopes } { s' with name, scopes } ps :=
  ⟨rfl, rfl, h.tokens_eq, h.rawTokens_eq, h.opened_eq, h.entities_perm⟩

theorem size_tokens (h : Adds s s' ps) :
    s'.tokens.size = s.tokens.size + (Phrase.wordsOf ps).length := by
  rw [← Array.length_toList, h.tokens_eq, List.length_append, Array.length_toList]

theorem size_rawTokens (h : Adds s s' ps) :
    s'.rawTokens.size = s.rawTokens.size + (Phrase.rawWordsOf ps).length := by
  rw [← Array.length_toList, h.rawTokens_eq, List.length_append, Array.length_toList]

theorem entitiesAfter_append (h : Adds s s' ps) :
    s.entitiesAfter (ps ++ qs) = s.entitiesAfter ps ++ s'.entitiesAfter qs := by
  rw [entitiesAfter, Phrase.entitiesOf_append, entitiesAfter, entitiesAfter, h.size_tokens,
    h.size_rawTokens]

theorem counted (h : Adds s s' ps) (hs : s.Counted) : s'.Counted := by
  intro part hpart
  rw [h.opened_eq]
  rcases List.mem_append.1 (h.entities_perm.mem_iff.1 hpart) with hpart | hpart
  · exact Nat.lt_add_right _ (hs part hpart)
  · exact (mem_numbered hpart).2

theorem trans (h : Adds s s' ps) (h' : Adds s' s'' qs) : Adds s s'' (ps ++ qs) where
  scopes_eq := h'.scopes_eq.trans h.scopes_eq
  name_eq := h'.name_eq.trans h.name_eq
  tokens_eq := by
    rw [h'.tokens_eq, h.tokens_eq, Phrase.wordsOf_append, List.append_assoc]
  rawTokens_eq := by
    rw [h'.rawTokens_eq, h.rawTokens_eq, Phrase.rawWordsOf_append, List.append_assoc]
  opened_eq := by
    rw [h'.opened_eq, h.opened_eq, h.entitiesAfter_append, List.length_append, Nat.add_assoc]
  entities_perm := by
    rw [h.entitiesAfter_append, numbered_append, ← List.append_assoc, ← h.opened_eq]
    exact h'.entities_perm.trans (h.entities_perm.append_right _)

end Adds

/-- The words behind those that were there before. -/
theorem between_of_toList_eq {words : Array String} {before added : List String} {start : Nat}
    (h : words.toList = before ++ added) (hstart : before.length = start) :
    between words start words.size = Text.joinWords added := by
  rw [between, Array.toList_extract, List.extract_eq_take_drop, h, ← hstart, List.drop_left]
  refine congrArg Text.joinWords (List.take_of_length_le ?_)
  rw [← Array.length_toList, h, List.length_append]
  omega

/-- When an entity with a value ends, the entities that were opened inside it cover it, and those
from before it stay. -/
theorem map_cover_perm {s : State} {parts : List (Nat × Entity)} (hs : s.Counted)
    (h : parts.Perm (s.entities ++ numbered (s.opened + 1) es)) (span : Nat × Nat) :
    (parts.map fun (number, entity) =>
      if s.opened < number then (number, entity.cover span) else (number, entity)).Perm
      (s.entities ++ numbered (s.opened + 1) (es.map (Entity.cover span))) := by
  refine (h.map _).trans (.of_eq ?_)
  rw [List.map_append]
  congr 1
  · refine (List.map_congr_left fun part hpart => ?_).trans (List.map_id s.entities)
    exact if_neg (Nat.lt_asymm (hs part hpart))
  · rw [numbered, numbered, List.zipIdx_map, List.map_map, List.map_map]
    refine List.map_congr_left fun ⟨e, number⟩ hmem => ?_
    exact if_pos (List.le_snd_of_mem_zipIdx hmem)

/-- The span of the entities inside one, when it has a value. -/
def coveredIn (s : State) (slot : String) (value : Option String) (inner : List Phrase) :
    Option (Nat × Nat) :=
  if value.isSome then
    some (s.tokens.size, s.tokens.size + (Phrase.entity slot value inner).words.length)
  else none

/-- The state behind an entity, when its words and the entities inside it have been added. -/
theorem adds_entity {s s' : State} {slot : String} {value : Option String} {inner : List Phrase}
    {parts : List (Nat × Entity)} {inside : List Entity}
    (hinside : inside =
      Phrase.entitiesOf (s.coveredIn slot value inner) s.tokens.size s.rawTokens.size inner)
    (hscopes : s'.scopes = s.scopes) (hname : s'.name = s.name)
    (htokens : s'.tokens.toList = s.tokens.toList ++ (Phrase.entity slot value inner).words)
    (hraw : s'.rawTokens.toList = s.rawTokens.toList ++ Phrase.rawWordsOf inner)
    (hopened : s'.opened = s.opened + 1 + inside.length)
    (hparts : parts.Perm (s.entities ++ numbered (s.opened + 1) inside))
    (hentities : s'.entities = (s.opened, {
      name := slot
      value := between s'.tokens s.tokens.size s'.tokens.size
      rawValue := between s'.rawTokens s.rawTokens.size s'.rawTokens.size
      start := s.tokens.size
      stop := s'.tokens.size
      rawStart := s.rawTokens.size
      rawStop := s'.rawTokens.size }) :: parts) : Adds s s' [.entity slot value inner] := by
  have hsize : s'.tokens.size =
      s.tokens.size + (Phrase.entity slot value inner).words.length := by
    rw [← Array.length_toList, htokens, List.length_append, Array.length_toList]
  have hrawSize : s'.rawTokens.size = s.rawTokens.size + (Phrase.rawWordsOf inner).length := by
    rw [← Array.length_toList, hraw, List.length_append, Array.length_toList]
  rw [between_of_toList_eq htokens Array.length_toList,
    between_of_toList_eq hraw Array.length_toList, hsize, hrawSize] at hentities
  -- The entity itself is the first one of the phrase.
  have hafter : s.entitiesAfter [.entity slot value inner] = {
      name := slot
      value := Text.joinWords (Phrase.entity slot value inner).words
      rawValue := Text.joinWords (Phrase.rawWordsOf inner)
      start := s.tokens.size
      stop := s.tokens.size + (Phrase.entity slot value inner).words.length
      rawStart := s.rawTokens.size
      rawStop := s.rawTokens.size + (Phrase.rawWordsOf inner).length } :: inside := by
    rw [hinside, entitiesAfter, Phrase.entitiesOf, Phrase.entitiesOf, List.append_nil]
    rfl
  refine ⟨hscopes, hname, ?_, ?_, ?_, ?_⟩
  · rw [htokens, Phrase.wordsOf, Phrase.wordsOf, List.append_nil]
  · rw [hraw, Phrase.rawWordsOf, Phrase.rawWords, Phrase.rawWordsOf, List.append_nil]
  · rw [hopened, hafter, List.length_cons]
    omega
  · rw [hentities, hafter, numbered_cons]
    exact (hparts.cons _).trans List.perm_middle.symm

/-- What is decoded inside an entity is decoded around it when the entity ends. -/
theorem Adds.exists_closeEntity {s s' : State} {slot : String} {value : Option String}
    {inner : List Phrase} (hs : s.Counted) (h : Adds (s.openEntity slot value) s' inner) :
    ∃ s'', s'.closeEntity = .ok s'' ∧ Adds s s'' [.entity slot value inner] := by
  obtain ⟨tokens, rawTokens, name, scopes, entities, opened⟩ := s'
  obtain ⟨hscopes, hname, htokens, hraw, hopened, hperm⟩ := h
  obtain rfl : scopes = _ := hscopes
  cases value with
  | none => exact ⟨_, rfl, adds_entity rfl rfl hname htokens hraw hopened hperm rfl⟩
  | some value =>
    have hvalue : (tokens.extract 0 s.tokens.size ++ (Text.words value).toArray).toList =
        s.tokens.toList ++ Text.words value := by
      rw [Array.toList_append, Array.toList_extract, List.extract_eq_take_drop, htokens]
      simp [openEntity]
    have hsize : (tokens.extract 0 s.tokens.size ++ (Text.words value).toArray).size =
        s.tokens.size + (Text.words value).length := by
      rw [← Array.length_toList, hvalue, List.length_append, Array.length_toList]
    have hinside := Phrase.map_cover_entitiesOf
      (s.tokens.size, s.tokens.size + (Text.words value).length) inner none s.tokens.size
      s.rawTokens.size
    refine ⟨_, rfl, adds_entity hinside rfl hname hvalue hraw ?_ ?_ rfl⟩
    · rw [List.length_map]
      exact hopened
    · have hcovered := map_cover_perm hs hperm
        (s.tokens.size, s.tokens.size + (Text.words value).length)
      rw [← hsize] at hcovered ⊢
      exact hcovered

/-- Symbols one after another are decoded one after another. -/
theorem foldlM_append_iff {s s' : State} {xs ys : List Symbol} :
    (xs ++ ys).foldlM State.step s = .ok s' ↔
      ∃ middle, xs.foldlM State.step s = .ok middle ∧ ys.foldlM State.step middle = .ok s' := by
  rw [List.foldlM_append, bind_eq_ok_iff]

theorem foldlM_singleton {s : State} {x : Symbol} : [x].foldlM State.step s = s.step x := by
  rw [List.foldlM_cons]
  exact bind_pure _

/-- A scope is opened, what it encloses is decoded, and the scope is closed. -/
theorem foldlM_enclosed {s opened inside closed : State} {opening closing : Symbol}
    {symbols : List Symbol} (hopen : s.step opening = .ok opened)
    (hinside : symbols.foldlM State.step opened = .ok inside)
    (hclose : inside.step closing = .ok closed) :
    (opening :: symbols ++ [closing]).foldlM State.step s = .ok closed := by
  refine foldlM_append_iff.2 ⟨inside, ?_, foldlM_singleton.trans hclose⟩
  rw [List.foldlM_cons]
  exact bind_eq_ok_iff.2 ⟨opened, hopen, hinside⟩

mutual

/-- A phrase decodes in every state. -/
theorem foldlM_symbols (p : Phrase) {s : State} (hs : s.Counted) :
    ∃ s', p.symbols.foldlM State.step s = .ok s' ∧ Adds s s' [p] := by
  match p with
  | .word text =>
    exact ⟨_, rfl, .of_leaf rfl Array.toList_push Array.toList_push⟩
  | .substitution raw value =>
    exact ⟨_, rfl, .of_leaf rfl Array.toList_append Array.toList_append⟩
  | .entity slot value inner =>
    have hcounted : (s.openEntity slot value).Counted := fun part hpart =>
      Nat.lt_succ_of_lt (hs part hpart)
    obtain ⟨s', hinner, hadds⟩ := foldlM_symbolsOf inner hcounted
    obtain ⟨s'', hclose, hadds⟩ := hadds.exists_closeEntity hs
    exact ⟨s'', foldlM_enclosed rfl hinner hclose, hadds⟩

/-- Phrases decode in every state. -/
theorem foldlM_symbolsOf (ps : List Phrase) {s : State} (hs : s.Counted) :
    ∃ s', (Phrase.symbolsOf ps).foldlM State.step s = .ok s' ∧ Adds s s' ps := by
  match ps with
  | [] => exact ⟨s, rfl, .refl s⟩
  | p :: ps =>
    obtain ⟨s', hfirst, hadds⟩ := foldlM_symbols p hs
    obtain ⟨s'', hrest, hadds'⟩ := foldlM_symbolsOf ps (hadds.counted hs)
    exact ⟨s'', foldlM_append_iff.2 ⟨s', hfirst, hrest⟩, hadds.trans hadds'⟩

end

theorem counted_initial : Counted .initial := fun _ h => absurd h List.not_mem_nil

/-- A transcript decodes, and its phrases are added under the name of its intent. -/
theorem foldlM_transcript (t : Transcript) :
    ∃ s, t.symbols.foldlM State.step .initial = .ok s ∧
      Adds { State.initial with name := t.name? } s t.phrases := by
  match t with
  | .plain ps => exact foldlM_symbolsOf ps counted_initial
  | .named before name inside after =>
    obtain ⟨s₁, hbefore, hadds₁⟩ := foldlM_symbolsOf before counted_initial
    have hopen : s₁.step (.openIntent name) =
        .ok { s₁ with name := some name, scopes := [.intent] } := by
      rw [step, openIntent, hadds₁.scopes_eq, hadds₁.name_eq]
      rfl
    have hcounted₁ := hadds₁.counted counted_initial
    obtain ⟨s₂, hinside, hadds₂⟩ := foldlM_symbolsOf inside
      (s := { s₁ with name := some name, scopes := [.intent] }) hcounted₁
    have hclose : s₂.step .closeIntent = .ok { s₂ with scopes := [] } := by
      rw [step, closeIntent, hadds₂.scopes_eq]
    obtain ⟨s₃, hafter, hadds₃⟩ := foldlM_symbolsOf after
      (s := { s₂ with scopes := [] }) (hadds₂.counted hcounted₁)
    refine ⟨s₃, ?_, ?_⟩
    · have hscope := foldlM_enclosed hopen hinside hclose
      have hall := foldlM_append_iff.2 ⟨s₁, hbefore, foldlM_append_iff.2 ⟨_, hscope, hafter⟩⟩
      rw [Transcript.symbols]
      simpa only [List.append_assoc, List.cons_append, List.nil_append] using hall
    · -- Seen from outside, the intent is only a name.
      have hname : s₂.name = some name := hadds₂.name_eq
      rw [hname] at hadds₃
      exact ((hadds₁.relabel (some name) []).trans (hadds₂.relabel (some name) [])).trans hadds₃

/-- What has been decoded is the intent that is meant. -/
theorem Adds.finish_eq {s : State} {t : Transcript}
    (h : Adds { State.initial with name := t.name? } s t.phrases) : s.finish = .ok t.intent := by
  obtain ⟨tokens, rawTokens, name, scopes, entities, opened⟩ := s
  obtain ⟨hscopes, hname, htokens, hraw, -, hperm⟩ := h
  obtain rfl : scopes = [] := hscopes
  obtain rfl : name = t.name? := hname
  have hentities := mergeSort_of_perm_numbered hperm
  have htokens : tokens.toList = Phrase.wordsOf t.phrases := htokens
  have hraw : rawTokens.toList = Phrase.rawWordsOf t.phrases := hraw
  refine congrArg Except.ok ?_
  rw [Transcript.intent, ← htokens, ← hraw]
  exact congrArg _ hentities

end State

end Decoder

/-- A transcript decodes to the intent that it means. -/
theorem Transcript.decode_symbols (t : Transcript) : Decoder.decode t.symbols = .ok t.intent := by
  obtain ⟨s, hdecode, hadds⟩ := Decoder.State.foldlM_transcript t
  exact bind_eq_ok_iff.2 ⟨s, hdecode, hadds.finish_eq⟩

/-- Phrases inside an intent decode to an intent of its name, which is certain, and in which the
words of the phrases are matched. -/
theorem Transcript.exists_ofSymbols (name : String) (ps : List Phrase) :
    ∃ intent, Intent.ofSymbols (.openIntent name :: Phrase.symbolsOf ps ++ [.closeIntent]) =
        .ok intent ∧
      intent.name = some name ∧ intent.confidence = 1 ∧
      intent.rawTokens = Phrase.rawWordsOf ps := by
  refine ⟨(named [] name ps []).intent, mapError_eq_ok_iff.2 ?_, rfl, rfl, ?_⟩
  · exact decode_symbols (named [] name ps [])
  · exact congrArg Phrase.rawWordsOf (List.append_nil ps)

end Phrasebook
