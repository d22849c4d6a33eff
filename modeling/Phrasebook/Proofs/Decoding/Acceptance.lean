import Phrasebook.Proofs.Decoding.Nesting

/-!
# Which symbols decode

Symbols decode exactly when their markers match, at most one intent is opened, and it stands inside
no entity. All three are said of the symbols alone, without scopes that are opened and closed one
after another. Symbols that do not decode are refused at the first of them behind which nothing
could make them decode; or else they end too early, and the scopes that are left open are counted.

* `Symbol.Balanced`, `Symbol.WellNested`: how markers have to stand.
* `Decoder.scopes_of_balanced`: what matching markers do inside an open scope.
* `Symbol.WellNested.exists_transcript`: well-nested symbols are those of a transcript.
* `Decoder.exists_decode_iff`: they are the symbols that decode.
* `Decoder.wellNested_closed`: what has been decoded so far could be completed.
* `Symbol.Refused`: what is wrong with other symbols.
* `Decoder.ofSymbols_spec`: what symbols decode to, or why they do not.
-/

namespace Phrasebook

namespace Symbol

/-! ### Markers that match -/

/-- The name of the intent that a symbol opens. -/
def intent? : Symbol → Option String
  | openIntent name => some name
  | word _ | substitution _ _ | closeIntent | openEntity _ _ | closeEntity => none

/-- The names of the intents that some symbols open, in their order. -/
def intents (symbols : List Symbol) : List String := symbols.filterMap intent?

/-- The markers among some symbols match. What is opened is closed by a marker of its own kind, and
the markers between the two match as well. -/
inductive Balanced : List Symbol → Prop
  /-- There are no symbols. -/
  | nil : Balanced []
  /-- The first symbol is not a marker. -/
  | leaf {x : Symbol} {behind : List Symbol} (unmarked : x.isMarker = false)
    (rest : Balanced behind) : Balanced (x :: behind)
  /-- An intent is opened and closed. -/
  | intent {name : String} {inside behind : List Symbol} (within : Balanced inside)
    (rest : Balanced behind) : Balanced (.openIntent name :: inside ++ .closeIntent :: behind)
  /-- An entity is opened and closed. -/
  | entity {slot : String} {value : Option String} {inside behind : List Symbol}
    (within : Balanced inside) (rest : Balanced behind) :
    Balanced (.openEntity slot value :: inside ++ .closeEntity :: behind)

/-- No intent is opened between the marker that opens an entity and the one that closes it. -/
def OutsideEntities (symbols : List Symbol) : Prop :=
  ∀ before slot value inside behind,
    symbols = before ++ .openEntity slot value :: inside ++ .closeEntity :: behind →
      Balanced inside → intents inside = []

/-- The markers match, and there is at most one intent, which stands inside no entity. -/
structure WellNested (symbols : List Symbol) : Prop where
  /-- The markers match. -/
  balanced : Balanced symbols
  /-- At most one intent is opened. -/
  once : (intents symbols).length ≤ 1
  /-- It is not opened inside an entity. -/
  outside : OutsideEntities symbols

variable {x : Symbol} {symbols : List Symbol}

theorem intents_cons {behind : List Symbol} :
    intents (x :: behind) = x.intent?.toList ++ intents behind := by
  cases x <;> rfl

theorem intent?_of_unmarked (h : x.isMarker = false) : x.intent? = none := by
  cases x with
  | word _ | substitution _ _ => rfl
  | openIntent _ | closeIntent | openEntity _ _ | closeEntity => cases h

theorem intents_append {behind : List Symbol} :
    intents (symbols ++ behind) = intents symbols ++ intents behind := List.filterMap_append

/-- What opens and closes a scope opens no other intent. -/
theorem intents_scope {opening closing : Symbol} {inside behind : List Symbol}
    (hclosing : closing.intent? = none) :
    intents (opening :: inside ++ closing :: behind) =
      opening.intent?.toList ++ (intents inside ++ intents behind) := by
  simp [intents_cons, intents_append, hclosing]

/-- Where no intent is inside an entity, none is inside one of those further behind. -/
theorem OutsideEntities.of_eq_append {all front : List Symbol} (h : OutsideEntities all)
    (heq : all = front ++ symbols) : OutsideEntities symbols := by
  intro before slot value inside behind hsplit
  refine h (front ++ before) slot value inside behind ?_
  simp [heq, hsplit]

/-! ### Well-nested symbols are those of a transcript -/

/-- A symbol that is no marker is that of a phrase. -/
theorem exists_phrase_of_unmarked (h : x.isMarker = false) : ∃ p : Phrase, p.symbols = [x] := by
  cases x with
  | word w => exact ⟨.word w, rfl⟩
  | substitution raw value => exact ⟨.substitution raw value, rfl⟩
  | openIntent _ | closeIntent | openEntity _ _ | closeEntity => cases h

/-- Matching markers without an intent are those of phrases. -/
theorem Balanced.exists_phrases (h : Balanced symbols) (hnone : intents symbols = []) :
    ∃ ps, Phrase.symbolsOf ps = symbols := by
  induction h with
  | nil => exact ⟨[], rfl⟩
  | @leaf x behind unmarked rest ih =>
    rw [intents_cons, List.append_eq_nil_iff] at hnone
    obtain ⟨p, hp⟩ := exists_phrase_of_unmarked unmarked
    obtain ⟨ps, rfl⟩ := ih hnone.2
    exact ⟨p :: ps, by rw [Phrase.symbolsOf, hp, List.singleton_append]⟩
  | intent within rest => cases hnone
  | @entity slot value inside behind within rest ihInside ihBehind =>
    rw [intents_scope rfl, List.append_eq_nil_iff, List.append_eq_nil_iff] at hnone
    obtain ⟨ps, rfl⟩ := ihInside hnone.2.1
    obtain ⟨qs, rfl⟩ := ihBehind hnone.2.2
    exact ⟨.entity slot value ps :: qs, by simp [Phrase.symbolsOf, Phrase.symbols]⟩

/-- A phrase may be put before a transcript. -/
theorem exists_transcript_append (p : Phrase) (t : Transcript) :
    ∃ t' : Transcript, t'.symbols = p.symbols ++ t.symbols := by
  cases t with
  | plain ps => exact ⟨.plain (p :: ps), rfl⟩
  | named before name inside after =>
    refine ⟨.named (p :: before) name inside after, ?_⟩
    simp [Transcript.symbols, Phrase.symbolsOf]

/-- Matching markers with at most one intent, outside of all entities, are those of a
transcript. -/
theorem Balanced.exists_transcript (h : Balanced symbols) (honce : (intents symbols).length ≤ 1)
    (houtside : OutsideEntities symbols) : ∃ t : Transcript, t.symbols = symbols := by
  induction h with
  | nil => exact ⟨.plain [], rfl⟩
  | @leaf x behind unmarked rest ih =>
    rw [intents_cons, List.length_append] at honce
    obtain ⟨p, hp⟩ := exists_phrase_of_unmarked unmarked
    have hbehind : OutsideEntities behind := houtside.of_eq_append List.singleton_append.symm
    obtain ⟨t, rfl⟩ := ih (by omega) hbehind
    rw [← List.singleton_append, ← hp]
    exact exists_transcript_append p t
  | @intent name inside behind within rest _ _ =>
    -- This intent is the only one, so there is none inside it and none behind it.
    rw [intents_scope rfl, List.length_append, List.length_append] at honce
    have hname : (openIntent name).intent?.toList.length = 1 := rfl
    obtain ⟨ps, rfl⟩ := within.exists_phrases (List.length_eq_zero_iff.1 (by omega))
    obtain ⟨qs, rfl⟩ := rest.exists_phrases (List.length_eq_zero_iff.1 (by omega))
    exact ⟨.named [] name ps qs, rfl⟩
  | @entity slot value inside behind within rest _ ih =>
    obtain ⟨ps, rfl⟩ := within.exists_phrases (houtside [] slot value inside behind rfl within)
    -- The entity is a phrase, and the intent is looked for behind it.
    have hsymbols : .openEntity slot value :: Phrase.symbolsOf ps ++ .closeEntity :: behind =
        (Phrase.entity slot value ps).symbols ++ behind := by
      simp [Phrase.symbols]
    rw [hsymbols] at honce houtside ⊢
    rw [intents_append, List.length_append] at honce
    obtain ⟨t, rfl⟩ := ih (by omega) (houtside.of_eq_append rfl)
    exact exists_transcript_append (.entity slot value ps) t

theorem WellNested.exists_transcript (h : WellNested symbols) :
    ∃ t : Transcript, t.symbols = symbols :=
  h.balanced.exists_transcript h.once h.outside

/-! ### The symbols of a transcript are well nested -/

mutual

/-- The markers of a phrase match. -/
theorem balanced_symbols (p : Phrase) {behind : List Symbol} (h : Balanced behind) :
    Balanced (p.symbols ++ behind) := by
  match p with
  | .word text => exact .leaf rfl h
  | .substitution raw value => exact .leaf rfl h
  | .entity slot value inner =>
    have hinner : Balanced (Phrase.symbolsOf inner) := by
      simpa using balanced_symbolsOf inner .nil
    have hentity : Balanced (.openEntity slot value :: Phrase.symbolsOf inner ++
        .closeEntity :: behind) := .entity hinner h
    simpa [Phrase.symbols] using hentity

theorem balanced_symbolsOf (ps : List Phrase) {behind : List Symbol} (h : Balanced behind) :
    Balanced (Phrase.symbolsOf ps ++ behind) := by
  match ps with
  | [] => exact h
  | p :: ps =>
    rw [Phrase.symbolsOf, List.append_assoc]
    exact balanced_symbols p (balanced_symbolsOf ps h)

end

/-- The markers of a transcript match. -/
theorem balanced_transcript (t : Transcript) : Balanced t.symbols := by
  cases t with
  | plain ps => simpa [Transcript.symbols] using balanced_symbolsOf ps .nil
  | named before name inside after =>
    have hinside : Balanced (Phrase.symbolsOf inside) := by
      simpa using balanced_symbolsOf inside .nil
    have hafter : Balanced (Phrase.symbolsOf after) := by
      simpa using balanced_symbolsOf after .nil
    have hintent : Balanced (.openIntent name :: Phrase.symbolsOf inside ++
        .closeIntent :: Phrase.symbolsOf after) := .intent hinside hafter
    simpa [Transcript.symbols] using balanced_symbolsOf before hintent

end Symbol

namespace Decoder

open Phrasebook.Symbol

variable {s s' : State} {x : Symbol} {symbols : List Symbol}

/-- A symbol that opens an intent gives the name, and any other symbol keeps it. -/
theorem name_of_step (h : s.step x = .ok s') :
    s'.name.toList = s.name.toList ++ x.intent?.toList := by
  cases x with
  | word w => cases h; simp [Symbol.intent?]
  | substitution raw value => cases h; simp [Symbol.intent?]
  | openEntity slot value => cases h; simp [Symbol.intent?, State.openEntity]
  | openIntent name =>
    rw [State.step, State.openIntent] at h
    split at h
    · next hnone =>
      -- An intent is opened only where there has been no other one.
      cases h
      simp [Symbol.intent?, Option.isNone_iff_eq_none.1 hnone.2]
    · cases h
  | closeIntent =>
    rw [State.step, State.closeIntent] at h
    split at h
    · cases h
      simp [Symbol.intent?]
    · cases h
  | closeEntity =>
    rw [State.step, State.closeEntity] at h
    split at h
    · cases h
      simp [Symbol.intent?]
    · cases h

/-- So the name is that of the intent that has been opened, and there is at most one. -/
theorem name_of_foldlM (h : symbols.foldlM State.step s = .ok s') :
    s'.name.toList = s.name.toList ++ intents symbols := by
  induction symbols generalizing s with
  | nil =>
    cases h
    simp [intents]
  | cons x symbols ih =>
    rw [List.foldlM_cons] at h
    obtain ⟨middle, hstep, hrest⟩ := bind_eq_ok_iff.1 h
    rw [ih hrest, name_of_step hstep, intents_cons, List.append_assoc]

/-- A symbol that is no marker keeps the open scopes. -/
theorem scopes_of_unmarked (hx : x.isMarker = false) (h : s.step x = .ok s') :
    s'.scopes = s.scopes := by
  cases x with
  | word w => cases h; rfl
  | substitution raw value => cases h; rfl
  | openIntent _ | closeIntent | openEntity _ _ | closeEntity => cases hx

/-- Matching markers that are decoded while some scope is open leave the same scopes open, and no
intent is among them. -/
theorem scopes_of_balanced {scopes : List Scope} (hbalanced : Balanced symbols)
    (hscopes : s.scopes = scopes) (hopen : scopes ≠ [])
    (h : symbols.foldlM State.step s = .ok s') : s'.scopes = scopes ∧ intents symbols = [] := by
  induction hbalanced generalizing s s' scopes with
  | nil =>
    cases h
    exact ⟨hscopes, rfl⟩
  | @leaf x behind unmarked rest ih =>
    rw [List.foldlM_cons] at h
    obtain ⟨middle, hstep, hrest⟩ := bind_eq_ok_iff.1 h
    have hkept : middle.scopes = s.scopes := scopes_of_unmarked unmarked hstep
    obtain ⟨hscopes', hnone⟩ := ih (hkept.trans hscopes) hopen hrest
    refine ⟨hscopes', ?_⟩
    rw [intents_cons, intent?_of_unmarked unmarked, hnone]
    rfl
  | @intent name inside behind within rest _ _ =>
    -- An intent is opened only where no scope is open.
    rw [List.cons_append, List.foldlM_cons] at h
    obtain ⟨middle, hstep, -⟩ := bind_eq_ok_iff.1 h
    rw [State.step, State.openIntent, if_neg (by simp [hscopes, hopen])] at hstep
    cases hstep
  | @entity slot value inside behind within rest ihInside ihBehind =>
    obtain ⟨middle, hinside, hbehind⟩ := State.foldlM_append_iff.1 h
    rw [List.foldlM_cons] at hinside hbehind
    obtain ⟨opened, hstep, hinside⟩ := bind_eq_ok_iff.1 hinside
    cases hstep
    obtain ⟨hmiddle, hnone⟩ := ihInside rfl (List.cons_ne_nil _ _) hinside
    -- Behind what is inside, the scope of the entity is the innermost one, and it is closed.
    obtain ⟨closed, hclose, hbehind⟩ := bind_eq_ok_iff.1 hbehind
    have hclosed : closed.scopes = s.scopes := by
      rw [State.step, State.closeEntity, hmiddle] at hclose
      cases hclose
      rfl
    obtain ⟨hscopes', hnone'⟩ := ihBehind (hclosed.trans hscopes) hopen hbehind
    refine ⟨hscopes', ?_⟩
    rw [Symbol.intents_scope rfl, hnone, hnone']
    rfl

/-- Symbols that decode are well nested. -/
theorem wellNested_of_decode {intent : Intent} (h : decode symbols = .ok intent) :
    WellNested symbols := by
  obtain ⟨s, hfold, -⟩ := bind_eq_ok_iff.1 h
  obtain ⟨t, rfl⟩ := Transcript.exists_of_decode h
  refine ⟨Symbol.balanced_transcript t, ?_, ?_⟩
  · -- All intents that are opened are in the name at the end, which is one at most.
    have hname : s.name.toList = intents t.symbols := name_of_foldlM hfold
    rw [← hname]
    cases s.name <;> simp
  · intro before slot value inside behind heq hinside
    -- What is inside the entity has been decoded while its scope was open.
    rw [heq] at hfold
    obtain ⟨middle, hfold, -⟩ := State.foldlM_append_iff.1 hfold
    obtain ⟨outer, -, hentity⟩ := State.foldlM_append_iff.1 hfold
    rw [List.foldlM_cons] at hentity
    obtain ⟨opened, hstep, hentity⟩ := bind_eq_ok_iff.1 hentity
    cases hstep
    exact (scopes_of_balanced hinside rfl (List.cons_ne_nil _ _) hentity).2

/-- What has been decoded has the name of the first intent that is opened, and full confidence if
there is one. -/
theorem name_of_decode {intent : Intent} (h : decode symbols = .ok intent) :
    intent.name = (intents symbols).head? ∧
      intent.confidence = if intents symbols = [] then 0 else 1 := by
  obtain ⟨s, hfold, hfinish⟩ := bind_eq_ok_iff.1 h
  have hname : s.name.toList = intents symbols := name_of_foldlM hfold
  rw [State.finish] at hfinish
  split at hfinish
  · cases hfinish
    rw [← hname]
    cases s.name <;> simp
  · cases hfinish

/-- The symbols that decode are those that are well nested. -/
theorem exists_decode_iff : (∃ intent, decode symbols = .ok intent) ↔ WellNested symbols := by
  constructor
  · rintro ⟨intent, h⟩
    exact wellNested_of_decode h
  · intro h
    obtain ⟨t, rfl⟩ := h.exists_transcript
    exact ⟨t.intent, t.decode_symbols⟩

/-! ### What is wrong with other symbols -/

/-- The marker that closes a scope. -/
def Scope.closing : Scope → Symbol
  | .intent => .closeIntent
  | .entity _ _ _ _ _ => .closeEntity

/-- When the open scopes are closed, and phrases put before that, there is a transcript. -/
theorem Unfinished.exists_closed {scopes : List Scope} {name : Option String}
    (h : Unfinished scopes name symbols) (qs : List Phrase) :
    ∃ t : Transcript, t.symbols =
      symbols ++ Phrase.symbolsOf qs ++ scopes.map Scope.closing := by
  induction h generalizing qs with
  | plain ps => exact ⟨.plain (ps ++ qs), by simp [Transcript.symbols]⟩
  | inside before name ps =>
    exact ⟨.named before name (ps ++ qs) [],
      by simp [Transcript.symbols, Scope.closing, Phrase.symbolsOf]⟩
  | behind before name inside ps =>
    exact ⟨.named before name inside (ps ++ qs), by simp [Transcript.symbols]⟩
  | entity around order slot value start rawStart ps ih =>
    -- The innermost scope is closed first, and it is a phrase of the scope around it.
    obtain ⟨t, ht⟩ := ih [.entity slot value (ps ++ qs)]
    refine ⟨t, ht.trans ?_⟩
    simp [Phrase.symbolsOf, Phrase.symbols, Scope.closing]

/-- When the scopes that are open behind some symbols are closed, the symbols are well nested. -/
theorem wellNested_closed (h : symbols.foldlM State.step .initial = .ok s) :
    WellNested (symbols ++ s.scopes.map Scope.closing) := by
  obtain ⟨t, ht⟩ := ((Unfinished.plain []).foldlM (s := .initial) h).exists_closed []
  have hsymbols : t.symbols = symbols ++ s.scopes.map Scope.closing := by
    simpa [Phrase.symbolsOf] using ht
  rw [← hsymbols]
  exact wellNested_of_decode t.decode_symbols

end Decoder

namespace Symbol

/-- What is wrong with a symbol that stands where it must not. -/
def fault? : Symbol → Option PathFault
  | openIntent name => some (.intentInsideScope name)
  | closeIntent => some .intentNotOpen
  | closeEntity => some .entityNotOpen
  | word _ | substitution _ _ | openEntity _ _ => none

/-- Some symbols are the first ones of well-nested symbols. -/
def IsViable (symbols : List Symbol) : Prop := ∃ rest, WellNested (symbols ++ rest)

/-- What is wrong with some symbols. -/
inductive Refused : List Symbol → PathFault → Prop
  /-- With this symbol they are no longer the first ones of well-nested symbols. -/
  | misplaced {before behind : List Symbol} {x : Symbol} {fault : PathFault}
    (viable : IsViable before) (stuck : ¬ IsViable (before ++ [x]))
    (fault_eq : x.fault? = some fault) : Refused (before ++ x :: behind) fault
  /-- Only some markers are missing at the end that close scopes. -/
  | leftOpen {symbols closing : List Symbol} (ne_nil : closing ≠ [])
    (closes : ∀ x ∈ closing, x = closeIntent ∨ x = closeEntity)
    (completed : WellNested (symbols ++ closing)) : Refused symbols (.leftOpen closing.length)

end Symbol

namespace Decoder

open Phrasebook.Symbol

variable {s s' : State} {x : Symbol} {symbols : List Symbol}

/-- A symbol that is refused is a marker, and the fault says which. -/
theorem fault?_of_step {fault : PathFault} (h : s.step x = .error fault) :
    x.fault? = some fault := by
  cases x with
  | word _ | substitution _ _ | openEntity _ _ => cases h
  | openIntent name =>
    rw [State.step, State.openIntent] at h
    split at h
    · cases h
    · cases h
      rfl
  | closeIntent =>
    rw [State.step, State.closeIntent] at h
    split at h
    · cases h
    · cases h
      rfl
  | closeEntity =>
    rw [State.step, State.closeEntity] at h
    split at h
    · cases h
    · cases h
      rfl

/-- Symbols that do not decode are refused for what is wrong with them. -/
theorem refused_of_decode {fault : PathFault} (h : decode symbols = .error fault) :
    Refused symbols fault := by
  rcases bind_eq_error_iff.1 h with hfold | ⟨s, hfold, hfinish⟩
  · obtain ⟨before, x, behind, s, rfl, hbefore, hstep⟩ := exists_of_foldlM_eq_error hfold
    refine .misplaced ?_ ?_ (fault?_of_step hstep)
    · -- The scopes that are open before the symbol could all be closed.
      exact ⟨_, wellNested_closed hbefore⟩
    · rintro ⟨rest, hrest⟩
      -- With the rest the symbols would decode, and come past the step that failed.
      obtain ⟨intent, hdecode⟩ := exists_decode_iff.2 hrest
      obtain ⟨s', hall, -⟩ := bind_eq_ok_iff.1 hdecode
      obtain ⟨middle, hmiddle, -⟩ := State.foldlM_append_iff.1 hall
      obtain ⟨s'', hbefore', hstep'⟩ := State.foldlM_append_iff.1 hmiddle
      cases hbefore.symm.trans hbefore'
      rw [State.foldlM_singleton, hstep] at hstep'
      cases hstep'
  · rw [State.finish] at hfinish
    split at hfinish
    · cases hfinish
    · next hopen =>
      cases hfinish
      have hrefused := Refused.leftOpen (by simpa using hopen) ?_ (wellNested_closed hfold)
      · rwa [List.length_map] at hrefused
      · intro x hx
        obtain ⟨scope, -, rfl⟩ := List.mem_map.1 hx
        cases scope with
        | intent => exact .inl rfl
        | entity => exact .inr rfl

/-- What symbols decode to, or why they do not. They decode exactly when they are well nested. Then
there is a name exactly when an intent is opened, which has this name, and the confidence is one
with a name and zero without. Other symbols are a malformed path, and the fault is that of the
first symbol behind which nothing could make them decode, or else the number of scopes that are
left open. -/
theorem ofSymbols_spec (symbols : List Symbol) :
    ((∃ intent, Intent.ofSymbols symbols = .ok intent) ↔ WellNested symbols) ∧
      (∀ intent, Intent.ofSymbols symbols = .ok intent →
        intent.name = (intents symbols).head? ∧
          intent.confidence = if intents symbols = [] then 0 else 1) ∧
      ∀ error, Intent.ofSymbols symbols = .error error →
        ∃ fault, error = .malformedPath fault ∧ Refused symbols fault := by
  refine ⟨?_, fun intent h => ?_, fun error h => ?_⟩
  · simp only [Intent.ofSymbols, mapError_eq_ok_iff]
    exact exists_decode_iff
  · rw [Intent.ofSymbols, mapError_eq_ok_iff] at h
    exact name_of_decode h
  · rw [Intent.ofSymbols] at h
    cases hdecode : decode symbols with
    | ok intent =>
      rw [hdecode] at h
      cases h
    | error fault =>
      rw [hdecode] at h
      cases h
      exact ⟨fault, rfl, refused_of_decode hdecode⟩

end Decoder

end Phrasebook
