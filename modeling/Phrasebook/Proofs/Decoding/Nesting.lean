import Phrasebook.Proofs.Decoding

/-!
# Symbols that decode are nested

While symbols are decoded, they are those of phrases in which the open scopes have not ended yet.
A symbol that closes a scope is accepted only where this scope is the innermost one, so symbols
that decode are those of a transcript. The words from the beginning of an open entity on are
always there, so the words of an entity can be taken out when it ends.

* `Decoder.Unfinished`: the symbols of phrases in which some scopes have been left open.
* `Decoder.Unfinished.step`, `Transcript.exists_of_decode`: what decodes is a transcript.
* `Decoder.Fits`: where the words of open entities begin.
* `Decoder.Fits.step`, `Decoder.fits_of_foldlM`: the words of an entity are there when it ends.
-/

namespace Phrasebook

namespace Decoder

variable {s s' : State} {x : Symbol} {symbols : List Symbol} {scopes : List Scope}
  {name : Option String}

/-! ### Scopes that have been left open -/

/-- The symbols of phrases, of which some may stand inside an intent, in which the given scopes
have been left open. -/
inductive Unfinished : List Scope → Option String → List Symbol → Prop
  /-- There has been no intent. -/
  | plain (ps : List Phrase) : Unfinished [] none (Phrase.symbolsOf ps)
  /-- The intent is open. -/
  | inside (before : List Phrase) (name : String) (ps : List Phrase) :
    Unfinished [.intent] (some name)
      (Phrase.symbolsOf before ++ .openIntent name :: Phrase.symbolsOf ps)
  /-- The intent has ended. -/
  | behind (before : List Phrase) (name : String) (inside ps : List Phrase) :
    Unfinished [] (some name) (Transcript.named before name inside ps).symbols
  /-- An entity is open. -/
  | entity {scopes : List Scope} {name : Option String} {symbols : List Symbol}
    (around : Unfinished scopes name symbols) (order : Nat) (slot : String)
    (value : Option String) (start rawStart : Nat) (ps : List Phrase) :
    Unfinished (.entity order slot value start rawStart :: scopes) name
      (symbols ++ .openEntity slot value :: Phrase.symbolsOf ps)

/-- More phrases may follow in the innermost scope. -/
theorem Unfinished.append (h : Unfinished scopes name symbols) (qs : List Phrase) :
    Unfinished scopes name (symbols ++ Phrase.symbolsOf qs) := by
  cases h with
  | plain ps =>
    rw [← Phrase.symbolsOf_append]
    exact .plain (ps ++ qs)
  | inside before name ps =>
    rw [List.append_assoc, List.cons_append, ← Phrase.symbolsOf_append]
    exact .inside before name (ps ++ qs)
  | behind before name inside ps =>
    have hsymbols : (Transcript.named before name inside ps).symbols ++ Phrase.symbolsOf qs =
        (Transcript.named before name inside (ps ++ qs)).symbols := by
      simp [Transcript.symbols]
    rw [hsymbols]
    exact .behind before name inside (ps ++ qs)
  | entity around order slot value start rawStart ps =>
    rw [List.append_assoc, List.cons_append, ← Phrase.symbolsOf_append]
    exact .entity around order slot value start rawStart (ps ++ qs)

/-- One more symbol keeps the scopes and the symbols together. -/
theorem Unfinished.step (h : Unfinished s.scopes s.name symbols) (hstep : s.step x = .ok s') :
    Unfinished s'.scopes s'.name (symbols ++ [x]) := by
  obtain ⟨tokens, rawTokens, name, scopes, entities, opened⟩ := s
  cases x with
  | word w =>
    cases hstep
    exact h.append [.word w]
  | substitution raw value =>
    cases hstep
    exact h.append [.substitution raw value]
  | openIntent name =>
    rw [State.step, State.openIntent] at hstep
    split at hstep
    · next hnone =>
      cases hstep
      obtain ⟨hscopes, hname⟩ := hnone
      obtain rfl := List.isEmpty_iff.1 hscopes
      obtain rfl := Option.isNone_iff_eq_none.1 hname
      cases h with
      | plain ps => exact .inside ps name []
    · cases hstep
  | closeIntent =>
    rw [State.step, State.closeIntent] at hstep
    split at hstep
    · next hscopes =>
      cases hstep
      obtain rfl := hscopes
      cases h with
      | inside before name ps => exact .behind before name ps []
    · cases hstep
  | openEntity slot value =>
    cases hstep
    exact h.entity opened slot value tokens.size rawTokens.size []
  | closeEntity =>
    rw [State.step, State.closeEntity] at hstep
    split at hstep
    · next order slot value start rawStart scopes hscopes =>
      cases hstep
      obtain rfl := hscopes
      cases h with
      | entity around _ _ _ _ _ ps =>
        -- The scope and what it encloses are a phrase of the scope around it.
        have hclosed := around.append [.entity slot value ps]
        rw [Phrase.symbolsOf, Phrase.symbols, Phrase.symbolsOf, List.append_nil,
          ← List.append_assoc] at hclosed
        exact hclosed
    · cases hstep

theorem Unfinished.foldlM {xs : List Symbol} (h : Unfinished s.scopes s.name symbols)
    (hfold : xs.foldlM State.step s = .ok s') : Unfinished s'.scopes s'.name (symbols ++ xs) := by
  induction xs generalizing s symbols with
  | nil =>
    cases hfold
    rwa [List.append_nil]
  | cons x xs ih =>
    rw [List.foldlM_cons] at hfold
    obtain ⟨middle, hstep, hrest⟩ := bind_eq_ok_iff.1 hfold
    have hall := ih (h.step hstep) hrest
    rwa [List.append_assoc] at hall

/-- Without open scopes the symbols are those of a transcript. -/
theorem Unfinished.exists_transcript (h : Unfinished [] name symbols) :
    ∃ t : Transcript, t.symbols = symbols := by
  cases h with
  | plain ps => exact ⟨.plain ps, rfl⟩
  | behind before name inside ps => exact ⟨.named before name inside ps, rfl⟩

/-! ### The words of open entities -/

/-- Where the words of the open entities begin, from the innermost scope outwards: not behind the
given numbers of reported and matched words, and not behind those of the scopes further in. -/
def Fits : List Scope → Nat → Nat → Prop
  | [], _, _ => True
  | .intent :: scopes, size, rawSize => Fits scopes size rawSize
  | .entity _ _ _ start rawStart :: scopes, size, rawSize =>
    start ≤ size ∧ rawStart ≤ rawSize ∧ Fits scopes start rawStart

/-- More words may come. -/
theorem Fits.mono {size size' rawSize rawSize' : Nat} (h : Fits scopes size rawSize)
    (hsize : size ≤ size') (hraw : rawSize ≤ rawSize') : Fits scopes size' rawSize' := by
  induction scopes with
  | nil => trivial
  | cons scope scopes ih =>
    cases scope with
    | intent => exact ih h
    | entity order slot value start rawStart =>
      obtain ⟨hstart, hrawStart, hrest⟩ := h
      exact ⟨hstart.trans hsize, hrawStart.trans hraw, hrest⟩

/-- When an entity ends, its words are there: the reported ones up to the new end, with or without
a value, and the matched ones. -/
theorem Fits.closeEntity (h : Fits s.scopes s.tokens.size s.rawTokens.size)
    (hclose : s.closeEntity = .ok s') :
    ∃ order slot value start rawStart,
      s.scopes = .entity order slot value start rawStart :: s'.scopes ∧
      start ≤ s.tokens.size ∧ start ≤ s'.tokens.size ∧ rawStart ≤ s'.rawTokens.size ∧
      Fits s'.scopes start rawStart := by
  obtain ⟨tokens, rawTokens, name, scopes, entities, opened⟩ := s
  rw [State.closeEntity] at hclose
  split at hclose
  · next order slot value start rawStart scopes hscopes =>
    cases hclose
    obtain rfl := hscopes
    obtain ⟨hstart, hrawStart, hrest⟩ := h
    refine ⟨order, slot, value, start, rawStart, rfl, hstart, ?_, hrawStart, hrest⟩
    cases value with
    | none => exact hstart
    | some value =>
      -- What is left of the words ends where the entity begins, and the value comes behind it.
      have hstart : start ≤ tokens.size := hstart
      change start ≤ (tokens.extract 0 start ++ (Text.words value).toArray).size
      rw [Array.size_append, Array.size_extract]
      omega
  · cases hclose

/-- One more symbol keeps the words of the open entities. -/
theorem Fits.step (h : Fits s.scopes s.tokens.size s.rawTokens.size)
    (hstep : s.step x = .ok s') : Fits s'.scopes s'.tokens.size s'.rawTokens.size := by
  cases x with
  | word w =>
    cases hstep
    rw [Array.size_push, Array.size_push]
    exact h.mono (Nat.le_succ _) (Nat.le_succ _)
  | substitution raw value =>
    cases hstep
    rw [Array.size_append, Array.size_append]
    exact h.mono (Nat.le_add_right _ _) (Nat.le_add_right _ _)
  | openIntent name =>
    rw [State.step, State.openIntent] at hstep
    split at hstep
    · cases hstep
      trivial
    · cases hstep
  | closeIntent =>
    rw [State.step, State.closeIntent] at hstep
    split at hstep
    · next hscopes =>
      cases hstep
      rwa [hscopes] at h
    · cases hstep
  | openEntity slot value =>
    cases hstep
    exact ⟨le_rfl, le_rfl, h⟩
  | closeEntity =>
    obtain ⟨order, slot, value, start, rawStart, -, -, hsize, hraw, hrest⟩ :=
      h.closeEntity hstep
    exact hrest.mono hsize hraw

/-- So whatever has been decoded, the words of the open entities are there. -/
theorem fits_of_foldlM (h : symbols.foldlM State.step .initial = .ok s) :
    Fits s.scopes s.tokens.size s.rawTokens.size :=
  foldlM_preserves (b := .initial)
    (P := fun s : State => Fits s.scopes s.tokens.size s.rawTokens.size)
    (fun _ hs _ _ _ hstep => hs.step hstep) trivial h

end Decoder

/-- Symbols that decode are those of a transcript. -/
theorem Transcript.exists_of_decode {symbols : List Symbol} {intent : Intent}
    (h : Decoder.decode symbols = .ok intent) : ∃ t : Transcript, t.symbols = symbols := by
  obtain ⟨s, hfold, hfinish⟩ := bind_eq_ok_iff.1 h
  have hopen := (Decoder.Unfinished.plain []).foldlM (s := .initial) hfold
  rw [Decoder.State.finish] at hfinish
  split at hfinish
  · next hscopes =>
    rw [List.isEmpty_iff.1 hscopes] at hopen
    exact hopen.exists_transcript
  · cases hfinish

end Phrasebook
