import Phrasebook.Proofs.Automaton.Simulation
import Phrasebook.Proofs.Recognition.Decoded

/-!
# Filters of intents

A filter keeps a recognizer from opening certain intents. The runs that are left are those of the
automaton of the other intents alone: only the first arc, which chooses the intent, has another
place there. So with a filter the same is recognized as if only the intents that pass it had been
compiled.

* `Renumbered`: choices that begin with the place of an element, among all and among those kept.
* `Automaton.Offers`: what is made of the accepted runs that pass a filter.
* `Policy`: how alignments are made of runs, and how the best one is reported. Both recognizers
  follow one (`StrictRecognizer.recognizes`, `FuzzyRecognizer.recognizes`).
* `FiltersAs`: what a filter comes to.
* `Grammar.filters_of_compile`: what it comes to in a compiled grammar.
-/

namespace Phrasebook

/-! ### Places among the elements that are kept -/

section Renumbered

variable {α : Type} {keep : α → Bool} {l : List α} {x : α}

/-- Where an element that is kept stands among those that are kept. -/
theorem getElem?_filter_countP {i : Nat} (h : l[i]? = some x) (hx : keep x = true) :
    (l.filter keep)[(l.take i).countP keep]? = some x := by
  obtain ⟨hi, rfl⟩ := List.getElem?_eq_some_iff.1 h
  have hsplit : l.filter keep =
      (l.take i).filter keep ++ l[i] :: (l.drop (i + 1)).filter keep := by
    rw [← List.filter_cons_of_pos hx, ← List.drop_eq_getElem_cons hi, ← List.filter_append,
      List.take_append_drop]
  rw [hsplit, List.countP_eq_length_filter, List.getElem?_append_right (Nat.le_refl _),
    Nat.sub_self, List.getElem?_cons_zero]

/-- Every element among those that are kept stands somewhere among all. -/
theorem exists_of_getElem?_filter {j : Nat} (h : (l.filter keep)[j]? = some x) :
    ∃ i, l[i]? = some x ∧ keep x = true ∧ (l.take i).countP keep = j := by
  induction l generalizing j with
  | nil => simp at h
  | cons y l ih =>
    by_cases hy : keep y = true
    · rw [List.filter_cons_of_pos hy] at h
      rcases j with _ | j
      · obtain rfl := Option.some.inj h
        exact ⟨0, rfl, hy, rfl⟩
      · obtain ⟨i, hi, hx, rfl⟩ := ih h
        exact ⟨i + 1, hi, hx, by rw [List.take_succ_cons, List.countP_cons_of_pos hy]⟩
    · rw [List.filter_cons_of_neg hy] at h
      obtain ⟨i, hi, hx, rfl⟩ := ih h
      exact ⟨i + 1, hi, hx, by rw [List.take_succ_cons, List.countP_cons_of_neg hy]⟩

/-- Of two elements, the one that comes later has more elements before it that are kept, when the
other one is kept. -/
theorem countP_take_lt {i j : Nat} (h : l[i]? = some x) (hx : keep x = true) (hij : i < j) :
    (l.take i).countP keep < (l.take j).countP keep := by
  have hnext : (l.take (i + 1)).countP keep = (l.take i).countP keep + 1 := by
    rw [List.take_add_one, h, List.countP_append, Option.toList_some, List.countP_singleton,
      if_pos hx]
  have hlater : (l.take (i + 1)).countP keep ≤ (l.take j).countP keep :=
    (List.take_sublist_take_left hij).countP_le
  omega

/-- Choices that begin with the place of an element that is kept, and the same choices with its
place among the elements that are kept. -/
def Renumbered (keep : α → Bool) (l : List α) (choices others : List Nat) : Prop :=
  ∃ i x rest, l[i]? = some x ∧ keep x = true ∧ choices = i :: rest ∧
    others = (l.take i).countP keep :: rest

/-- The order of choices stays as it is. -/
theorem Renumbered.lt {c c' d d' : List Nat} (hc : Renumbered keep l c c')
    (hd : Renumbered keep l d d') (h : c < d) : c' < d' := by
  obtain ⟨i, x, rest, hi, hx, rfl, rfl⟩ := hc
  obtain ⟨j, y, rest', hj, hy, rfl, rfl⟩ := hd
  rcases List.cons_lt_cons_iff.1 h with hij | ⟨rfl, hrest⟩
  · -- The place itself is kept, so it counts for the later one.
    exact List.cons_lt_cons_iff.2 (.inl (countP_take_lt hi hx hij))
  · exact List.cons_lt_cons_iff.2 (.inr ⟨rfl, hrest⟩)

end Renumbered

/-- Arcs with the same labels make the same choices. -/
theorem choicesOf_eq_of_map_label_eq {arcs arcs' : List Automaton.Arc}
    (h : arcs.map Automaton.Arc.label = arcs'.map Automaton.Arc.label) (run used : List Nat) :
    Matching.choicesOf run arcs used = Matching.choicesOf run arcs' used := by
  induction arcs generalizing arcs' run used with
  | nil =>
    obtain rfl := List.map_eq_nil_iff.1 h.symm
    rfl
  | cons arc arcs ih =>
    obtain ⟨arc', arcs', rfl, hlabel, hrest⟩ := List.map_eq_cons_iff.1 h.symm
    rcases run with _ | ⟨i, run⟩
    · rw [Matching.choicesOf, Matching.choicesOf] <;> simp
    · have hsilent : arc'.isSilent = arc.isSilent := congrArg (·.1.isNone) hlabel
      rw [FuzzyRecognizer.choicesOf_cons, FuzzyRecognizer.choicesOf_cons, hsilent,
        ih hrest.symm, ih hrest.symm]

/-- Choices among all places come from the run that makes them. -/
theorem Renumbered.choicesOf {α : Type} {keep : α → Bool} {l : List α} {run run' : List Nat}
    {arcs arcs' : List Automaton.Arc} (h : Renumbered keep l run run')
    (hlabels : arcs.map Automaton.Arc.label = arcs'.map Automaton.Arc.label) (harcs : arcs ≠ [])
    (used : List Nat) :
    Renumbered keep l (Matching.choicesOf run arcs used) (Matching.choicesOf run' arcs' used) := by
  obtain ⟨i, x, rest, hi, hx, rfl, rfl⟩ := h
  obtain ⟨arc, arcs, rfl⟩ := List.exists_cons_of_ne_nil harcs
  rw [← choicesOf_eq_of_map_label_eq hlabels, FuzzyRecognizer.choicesOf_cons,
    FuzzyRecognizer.choicesOf_cons]
  exact ⟨i, x, _, hi, hx, rfl, rfl⟩

/-! ### Outputs that pass a filter -/

/-- No intent outside of a filter is opened. -/
def Passes (filter : Option WordSet) (output : List Symbol) : Prop :=
  ∀ names ∈ filter, ∀ name, .openIntent name ∈ output → name ∈ names

theorem passes_none {output : List Symbol} : Passes none output := by
  rintro names ⟨⟩

/-- Arcs may be taken when their output passes the filter. -/
theorem isAllowed_iff_passes {filter : Option WordSet} {arcs : List Automaton.Arc} :
    (∀ arc ∈ arcs, arc.isAllowed filter = true) ↔
      Passes filter (Utterance.ofArcs arcs).output := by
  have houtput : ∀ name, .openIntent name ∈ (Utterance.ofArcs arcs).output ↔
      ∃ arc ∈ arcs, arc.output = some (.openIntent name) := fun name => List.mem_filterMap
  constructor
  · rintro h names rfl name hname
    obtain ⟨arc, harc, hsymbol⟩ := (houtput name).1 hname
    have hallowed := h arc harc
    unfold Automaton.Arc.isAllowed at hallowed
    rw [hsymbol] at hallowed
    exact WordSet.contains_eq_true_iff.1 hallowed
  · intro h arc harc
    unfold Automaton.Arc.isAllowed
    split
    · next names name hsymbol =>
      have hopened := (houtput name).2 ⟨arc, harc, hsymbol⟩
      exact WordSet.contains_eq_true_iff.2 (h names rfl name hopened)
    · rfl

mutual

/-- Phrases open no intent. -/
theorem Phrase.openIntent_not_mem_symbols {name : String} (p : Phrase) :
    .openIntent name ∉ p.symbols := by
  match p with
  | .word text => simp [symbols]
  | .substitution raw value => simp [symbols]
  | .entity slot value inner => simp [symbols, openIntent_not_mem_symbolsOf inner]

theorem Phrase.openIntent_not_mem_symbolsOf {name : String} (ps : List Phrase) :
    .openIntent name ∉ symbolsOf ps := by
  match ps with
  | [] => exact List.not_mem_nil
  | p :: ps =>
    rw [symbolsOf, List.mem_append, not_or]
    exact ⟨openIntent_not_mem_symbols p, openIntent_not_mem_symbolsOf ps⟩

end

/-! ### The runs that pass -/

/-- What is made of the accepted runs that pass a filter. What a run consumes and puts out, the
number of its arcs and places for its words make an alignment, when `makes` says so. -/
def Automaton.Offers (a : Automaton) (filter : Option WordSet)
    (makes : Utterance → Nat → List Nat → Alignment → Prop) (choices : List Nat)
    (found : Alignment) : Prop :=
  ∃ run arcs used, a.Accepts run arcs ∧ Passes filter (Utterance.ofArcs arcs).output ∧
    makes (Utterance.ofArcs arcs) arcs.length used found ∧
    choices = Matching.choicesOf run arcs used

open Phrasebook.Alignment (Optimal)

section Merged

variable {intents : List (String × Automaton)} {names : WordSet}

/-- Every utterance of some intents is phrased. -/
def ArePhrased (intents : List (String × Automaton)) : Prop :=
  ∀ part ∈ intents, ∃ us, part.2.Spells us ∧ ∀ u ∈ us, u.IsPhrased

/-- Whether the name of an intent is one of some names. -/
def isNamed (names : WordSet) (part : String × Automaton) : Bool := names.contains part.1

theorem isNamed_iff {part : String × Automaton} : isNamed names part = true ↔ part.1 ∈ names :=
  WordSet.contains_eq_true_iff

theorem ArePhrased.filter (h : ArePhrased intents) (names : WordSet) :
    ArePhrased (intents.filter (isNamed names)) :=
  fun part hpart => h part (List.mem_filter.1 hpart).1

variable {run : List Nat} {arcs : List Automaton.Arc}

/-- An accepted run takes some arc: it begins where no run stops. -/
theorem ne_nil_of_accepts (hrun : (mergeIntents intents).Accepts run arcs) : arcs ≠ [] := by
  rintro rfl
  obtain ⟨stop, hrun, hfinal⟩ := hrun
  cases hrun
  cases hfinal

/-- An accepted run goes through one of the intents, which it chooses by its first arc. It opens
no other one and decodes to this one. -/
theorem ArePhrased.exists_part (h : ArePhrased intents) (names : WordSet)
    (hrun : (mergeIntents intents).Accepts run arcs) :
    ∃ i rest part, run = i :: rest ∧ intents[i]? = some part ∧
      (Passes (some names) (Utterance.ofArcs arcs).output ↔ part.1 ∈ names) ∧
      (Utterance.ofArcs arcs).DecodesAs part.1 := by
  obtain ⟨i, rest, part, run', arcs', rfl, hpart, hrun', heq⟩ :=
    exists_intent_of_accepts (fun part hpart => (h part hpart).imp fun us hus => hus.1) hrun
  obtain ⟨us, hus, hphrased⟩ := h part (List.mem_of_getElem? hpart)
  have hu := hphrased _ (hus.mem_of_accepts hrun')
  refine ⟨i, rest, part, rfl, hpart, ?_, by rw [heq]; exact hu.decodesAs part.1⟩
  obtain ⟨⟨ps, houtput, -⟩, -⟩ := hu
  rw [heq, Utterance.inIntent, houtput]
  constructor
  · exact fun hpasses => hpasses names rfl part.1 List.mem_cons_self
  · rintro hnamed _ ⟨⟩ name hname
    simp [Phrase.openIntent_not_mem_symbolsOf] at hname
    rwa [hname]

/-- A run through an intent is one through this intent among other ones. -/
theorem ArePhrased.exists_accepts (h : ArePhrased intents) {others : List (String × Automaton)}
    {i j : Nat} {part : String × Automaton} (hi : intents[i]? = some part)
    (hj : others[j]? = some part) (hrun : (mergeIntents intents).Accepts (i :: run) arcs) :
    ∃ arcs', (mergeIntents others).Accepts (j :: run) arcs' ∧
      arcs.map Automaton.Arc.label = arcs'.map Automaton.Arc.label := by
  obtain ⟨us, hus, -⟩ := h part (List.mem_of_getElem? hi)
  refine Automaton.exists_accepts_union
    (hus.wrap (.openIntent part.1) .closeIntent).tidy.wellFormed ?_ ?_ hrun
  · rw [List.getElem?_map, hi, Option.map_some]
  · rw [List.getElem?_map, hj, Option.map_some]

/-- A run that passes is one of the automaton of the intents that pass. -/
theorem ArePhrased.exists_renumbered (h : ArePhrased intents)
    (hrun : (mergeIntents intents).Accepts run arcs)
    (hpasses : Passes (some names) (Utterance.ofArcs arcs).output) :
    ∃ run' arcs', Renumbered (isNamed names) intents run run' ∧
      (mergeIntents (intents.filter (isNamed names))).Accepts run' arcs' ∧
      arcs.map Automaton.Arc.label = arcs'.map Automaton.Arc.label := by
  obtain ⟨i, rest, part, rfl, hpart, hnamed, -⟩ := h.exists_part names hrun
  have hkeep := isNamed_iff.2 (hnamed.1 hpasses)
  obtain ⟨arcs', hrun', hlabels⟩ :=
    h.exists_accepts hpart (getElem?_filter_countP hpart hkeep) hrun
  exact ⟨_, arcs', ⟨i, part, rest, hpart, hkeep, rfl, rfl⟩, hrun', hlabels⟩

/-- A run of the automaton of the intents that pass is one that passes. -/
theorem ArePhrased.exists_of_renumbered (h : ArePhrased intents)
    (hrun : (mergeIntents (intents.filter (isNamed names))).Accepts run arcs) :
    ∃ run' arcs', Renumbered (isNamed names) intents run' run ∧
      (mergeIntents intents).Accepts run' arcs' ∧
      Passes (some names) (Utterance.ofArcs arcs').output ∧
      arcs'.map Automaton.Arc.label = arcs.map Automaton.Arc.label := by
  obtain ⟨j, rest, part, rfl, hplace, hnamed, -⟩ := (h.filter names).exists_part names hrun
  obtain ⟨i, hpart, hkeep, rfl⟩ := exists_of_getElem?_filter hplace
  obtain ⟨arcs', hrun', hlabels⟩ := (h.filter names).exists_accepts hplace hpart hrun
  refine ⟨_, arcs', ⟨i, part, rest, hpart, hkeep, rfl, rfl⟩, hrun', ?_, hlabels.symm⟩
  rw [← Automaton.ofArcs_eq_of_map_label_eq hlabels]
  exact hnamed.2 (isNamed_iff.1 hkeep)

/-- The best that is offered with a filter is the best that the intents offer that pass it. -/
theorem ArePhrased.optimal_filter (h : ArePhrased intents)
    {makes : Utterance → Nat → List Nat → Alignment → Prop} {o p : Option Alignment}
    (ho : Optimal ((mergeIntents intents).Offers (some names) makes) o)
    (hp : Optimal ((mergeIntents (intents.filter (isNamed names))).Offers none makes) p) :
    o = p := by
  -- The same alignments are offered, and their choices keep their order.
  refine ho.eq_of_corresponds hp (R := Renumbered (isNamed names) intents) ?_ ?_
    fun _ _ _ _ => Renumbered.lt
  · rintro _ found ⟨run, arcs, used, hrun, hpasses, hmakes, rfl⟩
    obtain ⟨run', arcs', hplaces, hrun', hlabels⟩ := h.exists_renumbered hrun hpasses
    refine ⟨_, hplaces.choicesOf hlabels (ne_nil_of_accepts hrun) used,
      run', arcs', used, hrun', passes_none, ?_, rfl⟩
    have hlength : arcs.length = arcs'.length := by simpa using congrArg List.length hlabels
    rwa [← Automaton.ofArcs_eq_of_map_label_eq hlabels, ← hlength]
  · rintro _ found ⟨run, arcs, used, hrun, -, hmakes, rfl⟩
    obtain ⟨run', arcs', hplaces, hrun', hpasses, hlabels⟩ := h.exists_of_renumbered hrun
    refine ⟨_, hplaces.choicesOf hlabels (ne_nil_of_accepts hrun') used,
      run', arcs', used, hrun', hpasses, ?_, rfl⟩
    have hlength : arcs'.length = arcs.length := by simpa using congrArg List.length hlabels
    rwa [Automaton.ofArcs_eq_of_map_label_eq hlabels, hlength]

end Merged

/-! ### What recognizers make of runs -/

/-- How alignments are made of runs, and how the best one is reported. -/
structure Policy where
  /-- What a run consumes and puts out, the number of its arcs and places for its words make an
  alignment. -/
  makes : Utterance → Nat → List Nat → Alignment → Prop
  /-- The recognition that the best alignment comes to. -/
  report : Option Alignment → Recognition
  /-- An alignment has the output of its run. -/
  output_eq : ∀ {u n used found}, makes u n used found → found.output = u.output
  /-- An intent that is reported is one that an alignment decodes to. -/
  reads : ∀ {best name}, (report best).intent.name = some name → ∃ found intent,
    best = some found ∧ Intent.ofSymbols found.output = .ok intent ∧ intent.name = some name

/-- What is recognized is what the best alignment comes to that is offered with a filter. -/
def Policy.Recognizes (policy : Policy) (a : Automaton) (filter : Option WordSet)
    (recognition : Recognition) : Prop :=
  ∃ best, Optimal (a.Offers filter policy.makes) best ∧ recognition = policy.report best

namespace StrictRecognizer

/-- Strict recognition takes the first of the runs that consume the words. -/
def policy (tokens : List String) : Policy where
  makes u _ used found := u.words = tokens ∧ used = [] ∧ found = ⟨0, 0, u.output, []⟩
  report best :=
    match (if tokens.isEmpty then none else best).map (Intent.ofSymbols ·.output) with
    | some (.ok intent) => ⟨intent, none⟩
    | _ => ⟨.noMatch tokens, none⟩
  output_eq := by
    rintro u n used found ⟨-, -, rfl⟩
    rfl
  reads := by
    intro best name h
    split at h
    · next intent hread =>
      obtain ⟨found, hfound, hdecode⟩ := Option.map_eq_some_iff.1 hread
      split at hfound
      · cases hfound
      · exact ⟨found, intent, hfound, hdecode, h⟩
    · cases h

/-- Without places for its words, the choices of a run are those of its arcs. -/
theorem choicesOf_nil_right {a : Automaton} {state stop : Nat} {run : List Nat}
    {arcs : List Automaton.Arc} (h : a.Follows state run arcs stop) :
    Matching.choicesOf run arcs [] = run := by
  induction h with
  | nil => exact FuzzyRecognizer.choicesOf_nil
  | cons _ _ ih =>
    rw [FuzzyRecognizer.choicesOf_cons, List.head?_nil, Option.toList_none, List.nil_append,
      List.tail_nil, ih, ite_self]

/-- What is offered to strict recognition are the outputs of the runs that finish. -/
theorem offers_iff {r : StrictRecognizer} {tokens : List String} {choices : List Nat}
    {found : Alignment} :
    r.automaton.Offers r.filter (policy tokens).makes choices found ↔
      ∃ arcs, r.Finishes r.automaton.start tokens choices arcs ∧
        found = ⟨0, 0, (Utterance.ofArcs arcs).output, []⟩ := by
  constructor
  · rintro ⟨run, arcs, used, ⟨stop, hrun, hfinal⟩, hpasses, ⟨hwords, rfl, rfl⟩, rfl⟩
    rw [choicesOf_nil_right hrun]
    exact ⟨arcs, ⟨⟨stop, hrun, hfinal⟩, isAllowed_iff_passes.2 hpasses, hwords⟩, rfl⟩
  · rintro ⟨arcs, ⟨⟨stop, hrun, hfinal⟩, hallowed, hwords⟩, rfl⟩
    exact ⟨choices, arcs, [], ⟨stop, hrun, hfinal⟩, isAllowed_iff_passes.1 hallowed,
      ⟨hwords, rfl, rfl⟩, (choicesOf_nil_right hrun).symm⟩

/-- What is found is the best of what is offered. -/
theorem optimal_findPath {r : StrictRecognizer} (ha : r.automaton.WellFormed)
    (hacyclic : Graph.AcyclicFrom r.automaton.targets r.automaton.start) (tokens : List String) :
    Optimal (r.automaton.Offers r.filter (policy tokens).makes)
      ((r.findPath tokens).map (⟨0, 0, ·, []⟩)) := by
  have hspec := findPath_spec ha hacyclic tokens
  cases hfind : r.findPath tokens with
  | none =>
    rw [hfind] at hspec
    intro choices found hoffered
    obtain ⟨arcs, hfinishes, -⟩ := offers_iff.1 hoffered
    exact hspec choices arcs hfinishes
  | some output =>
    rw [hfind] at hspec
    obtain ⟨run, arcs, hfinishes, hleast, rfl⟩ := hspec
    refine ⟨run, offers_iff.2 ⟨arcs, hfinishes, rfl⟩, fun others found hoffered => ?_⟩
    obtain ⟨arcs', hfinishes', rfl⟩ := offers_iff.1 hoffered
    have hle := List.not_lt.1 (hleast others arcs' hfinishes')
    rcases List.le_iff_lt_or_eq.1 hle with hlt | rfl
    · exact .inr (.inr ⟨rfl, .inr ⟨rfl, hlt⟩⟩)
    · -- The same choices are those of one run, which has one output.
      obtain ⟨stop, hrun, -⟩ := hfinishes.stops
      obtain ⟨stop', hrun', -⟩ := hfinishes'.stops
      obtain ⟨rfl, -⟩ := hrun.unique hrun'
      exact .inl ⟨rfl, rfl⟩

/-- Strict recognition that drops no words follows its policy. -/
theorem recognizes {a : Automaton} {us : List Utterance} (ha : a.Spells us)
    (filter : Option WordSet) (tokens : List String) :
    (policy tokens).Recognizes a filter
      ((StrictRecognizer.new a false filter).recognize tokens) := by
  refine ⟨_, optimal_findPath (r := .new a false filter) ha.tidy.wellFormed
    ha.yields.acyclicFrom tokens, ?_⟩
  have hkept : (StrictRecognizer.new a false filter).kept tokens = tokens := rfl
  simp only [recognize, hkept, policy]
  by_cases htokens : tokens.isEmpty = true
  · simp only [htokens, if_true]
    rfl
  · simp only [htokens, if_false, Option.map_map, Bool.false_eq_true]
    rfl

end StrictRecognizer

namespace FuzzyRecognizer

/-- Fuzzy recognition takes the best of the runs whose words are matched somewhere. -/
def policy (r : FuzzyRecognizer) (tokens : List String) : Policy where
  makes u n used found := ∃ cost, Picks (r.input tokens) 0 u.words used cost ∧
    used ≠ [] ∧ found = ⟨cost, n, u.output, used⟩
  report best :=
    let found := if tokens.isEmpty then none else best
    match found.map fun a => (a, Intent.ofSymbols a.output) with
    | some (a, .ok intent) =>
      ⟨{ intent with confidence := confidence a.cost tokens.length },
        some (r.diagnose tokens a.used)⟩
    | _ => ⟨.noMatch tokens, some (r.diagnose tokens [])⟩
  output_eq := by
    rintro u n used found ⟨cost, -, -, rfl⟩
    rfl
  reads := by
    intro best name h
    dsimp only at h
    split at h
    · next a intent hread =>
      obtain ⟨found, hfound, heq⟩ := Option.map_eq_some_iff.1 hread
      obtain ⟨rfl, hdecode⟩ := Prod.mk.inj heq
      split at hfound
      · cases hfound
      · exact ⟨found, intent, hfound, hdecode, h⟩
    · cases h

/-- What is offered to fuzzy recognition are the alignments that it looks for. -/
theorem offers_iff {r : FuzzyRecognizer} {tokens : List String} {choices : List Nat}
    {found : Alignment} :
    r.automaton.Offers r.filter (r.policy tokens).makes choices found ↔
      r.Continues (r.input tokens) 0 r.automaton.start false choices found := by
  rw [continues_iff_follows]
  constructor
  · rintro ⟨run, arcs, used, hrun, hpasses, ⟨cost, hpicks, hused, rfl⟩, rfl⟩
    obtain ⟨stop, hrun, hfinal⟩ := hrun
    exact ⟨run, arcs, used, cost, stop, hrun, hfinal, isAllowed_iff_passes.2 hpasses, hpicks,
      .inr hused, rfl, rfl⟩
  · rintro ⟨run, arcs, used, cost, stop, hrun, hfinal, hallowed, hpicks, hused, rfl, rfl⟩
    exact ⟨run, arcs, used, ⟨stop, hrun, hfinal⟩, isAllowed_iff_passes.1 hallowed,
      ⟨cost, hpicks, hused.resolve_left Bool.false_ne_true, rfl⟩, rfl⟩

/-- Fuzzy recognition follows its policy. -/
theorem recognizes {r : FuzzyRecognizer} (ha : r.automaton.WellFormed)
    (horder : Graph.IsOrder r.automaton.size r.automaton.silentTargets r.order)
    (tokens : List String) :
    (r.policy tokens).Recognizes r.automaton r.filter (r.recognize tokens) :=
  ⟨r.bestAlignment tokens,
    (optimal_bestAlignment ha horder tokens).congr fun _ _ => offers_iff.symm, rfl⟩

end FuzzyRecognizer

/-! ### What a filter comes to -/

namespace Policy.Recognizes

variable {policy : Policy} {intents : List (String × Automaton)} {names : WordSet}
  {filter : Option WordSet} {recognition other : Recognition} {name : String}

/-- With a filter the same is recognized as when only the intents are there that pass it. -/
theorem eq_of_filter (hintents : ArePhrased intents)
    (h : policy.Recognizes (mergeIntents intents) (some names) recognition)
    (h' : policy.Recognizes (mergeIntents (intents.filter (isNamed names))) none other) :
    recognition = other := by
  obtain ⟨best, hbest, rfl⟩ := h
  obtain ⟨best', hbest', rfl⟩ := h'
  rw [hintents.optimal_filter hbest hbest']

/-- An intent is recognized only in an alignment that passes the filter, and whose output passes
those filters that have the name of the intent. -/
theorem exists_found (hintents : ArePhrased intents)
    (h : policy.Recognizes (mergeIntents intents) filter recognition)
    (hname : recognition.intent.name = some name) :
    ∃ found, Optimal ((mergeIntents intents).Offers filter policy.makes) (some found) ∧
      recognition = policy.report (some found) ∧ Passes filter found.output ∧
      ∀ names, Passes (some names) found.output ↔ name ∈ names := by
  obtain ⟨best, hbest, rfl⟩ := h
  obtain ⟨found, intent, rfl, hdecode, hintent⟩ := policy.reads hname
  refine ⟨found, hbest, rfl, ?_⟩
  obtain ⟨_, ⟨run, arcs, used, hrun, hpasses, hmakes, -⟩, -⟩ := hbest
  rw [policy.output_eq hmakes] at hdecode ⊢
  refine ⟨hpasses, fun names => ?_⟩
  -- What is decoded is the intent that the run goes through.
  obtain ⟨_, _, part, -, -, hnamed, intent', hdecode', hintent', -⟩ :=
    hintents.exists_part names hrun
  obtain rfl := Except.ok.inj (hdecode.symm.trans hdecode')
  obtain rfl := Option.some.inj (hintent.symm.trans hintent')
  exact hnamed

/-- An intent that is recognized passes the filter. -/
theorem contains_name (hintents : ArePhrased intents)
    (h : policy.Recognizes (mergeIntents intents) (some names) recognition)
    (hname : recognition.intent.name = some name) : name ∈ names := by
  obtain ⟨found, -, -, hpasses, hiff⟩ := h.exists_found hintents hname
  exact (hiff names).1 hpasses

/-- An intent that is recognized is still recognized with a filter that it passes and that lets
nothing else pass. -/
theorem eq_of_narrower (hintents : ArePhrased intents)
    (h : policy.Recognizes (mergeIntents intents) filter recognition)
    (h' : policy.Recognizes (mergeIntents intents) (some names) other)
    (hnarrower : ∀ wide ∈ filter, ∀ name, name ∈ names → name ∈ wide)
    (hname : recognition.intent.name = some name) (hkeep : name ∈ names) :
    other = recognition := by
  obtain ⟨found, hbest, rfl, -, hiff⟩ := h.exists_found hintents hname
  obtain ⟨best, hbest', rfl⟩ := h'
  -- The best of all is the best of those that pass, as it passes itself.
  have hfound := hbest.restrict (P := fun a => Passes (some names) a.output)
    ((hiff names).2 hkeep)
  rw [(hfound.congr fun choices a => ?_).unique hbest']
  -- What is offered and passes is what is offered with the narrower filter.
  constructor
  · rintro ⟨⟨run, arcs, used, hrun, -, hmakes, rfl⟩, hpasses⟩
    rw [policy.output_eq hmakes] at hpasses
    exact ⟨run, arcs, used, hrun, hpasses, hmakes, rfl⟩
  · rintro ⟨run, arcs, used, hrun, hpasses, hmakes, rfl⟩
    refine ⟨⟨run, arcs, used, hrun, fun wide hwide name hopen => ?_, hmakes, rfl⟩, ?_⟩
    · exact hnarrower wide hwide name (hpasses names rfl name hopen)
    · rwa [policy.output_eq hmakes]

end Policy.Recognizes

/-- What a filter comes to, where `recognize` recognizes with some filter and `restricted` when
only those intents are compiled that pass the filter with the given names. -/
structure FiltersAs (names : WordSet) (recognize : Option WordSet → List String → Recognition)
    (restricted : List String → Recognition) : Prop where
  /-- The same is recognized as when only the intents that pass are compiled. -/
  eq_restricted : ∀ tokens, recognize (some names) tokens = restricted tokens
  /-- An intent that is recognized passes. -/
  contains_name : ∀ tokens name, (recognize (some names) tokens).intent.name = some name →
    name ∈ names
  /-- What is recognized of an intent that passes is the same with every filter that lets more
  intents pass, and without one. -/
  eq_of_narrower : ∀ wider : Option WordSet,
    (∀ wide ∈ wider, ∀ name, name ∈ names → name ∈ wide) →
    ∀ tokens name, (recognize wider tokens).intent.name = some name →
      name ∈ names → recognize (some names) tokens = recognize wider tokens

/-- The automaton of those intents that have one of some names. -/
def Compiled.restricted (compiled : Compiled) (names : WordSet) : Automaton :=
  mergeIntents (compiled.intents.filter (isNamed names))

/-- A filter comes to the same as compiling only the intents that pass it, in strict recognition
that drops no words and in fuzzy recognition whatever may be skipped. -/
structure Compiled.Filters (compiled : Compiled) (names : WordSet) : Prop where
  /-- It does in strict recognition. -/
  strict : FiltersAs names
    (fun filter => (StrictRecognizer.new compiled.merged false filter).recognize)
    (StrictRecognizer.new (compiled.restricted names) false none).recognize
  /-- It does in fuzzy recognition. The recognizers exist. -/
  fuzzy : ∀ leniency, ∃ (r : Option WordSet → FuzzyRecognizer) (r' : FuzzyRecognizer),
    (∀ filter, FuzzyRecognizer.new compiled.merged leniency filter = .ok (r filter)) ∧
    FuzzyRecognizer.new (compiled.restricted names) leniency none = .ok r' ∧
    FiltersAs names (fun filter => (r filter).recognize) r'.recognize

/-- Recognizers that follow a policy filter as they should. -/
theorem ArePhrased.filtersAs {intents : List (String × Automaton)} (h : ArePhrased intents)
    {names : WordSet} {recognize : Option WordSet → List String → Recognition}
    {restricted : List String → Recognition} {policy : List String → Policy}
    (hrecognize : ∀ filter tokens,
      (policy tokens).Recognizes (mergeIntents intents) filter (recognize filter tokens))
    (hrestricted : ∀ tokens, (policy tokens).Recognizes
      (mergeIntents (intents.filter (isNamed names))) none (restricted tokens)) :
    FiltersAs names recognize restricted where
  eq_restricted tokens := (hrecognize _ tokens).eq_of_filter h (hrestricted tokens)
  contains_name tokens _ hname := (hrecognize _ tokens).contains_name h hname
  eq_of_narrower wider hwider tokens _ hname hkeep :=
    (hrecognize wider tokens).eq_of_narrower h (hrecognize _ tokens) hwider hname hkeep

/-- Filtering the intents of a compiled grammar comes to the same as compiling only those that
pass: with both recognizers the same is recognized in all words, a match names an intent that
passes, and what is recognized of an intent that passes does not depend on the others. -/
theorem Grammar.filters_of_compile {allowed : Option WordSet} {text : String} {grammar : Grammar}
    {slots : Slots} {casing : Casing} {compiled : Compiled}
    (hgrammar : ofTextWith allowed text = .ok grammar) (hslots : slots.Defined)
    (h : grammar.compile casing slots = .ok compiled) (names : WordSet) :
    compiled.Filters names := by
  have hphrased : ArePhrased compiled.intents :=
    fun part => isPhrased_of_mem_intents hgrammar hslots h
  have hmerged : compiled.merged = mergeIntents compiled.intents :=
    (isPhrased_of_compile hgrammar hslots h).2
  obtain ⟨us, hspells, -⟩ := spells_mergeIntents hphrased
  obtain ⟨vs, hspells', -⟩ := spells_mergeIntents (hphrased.filter names)
  constructor
  · rw [hmerged]
    exact hphrased.filtersAs (fun filter => StrictRecognizer.recognizes hspells filter)
      (StrictRecognizer.recognizes hspells' none)
  · intro leniency
    rw [hmerged]
    obtain ⟨order, heq, horder⟩ := hspells.exists_silentOrder
    obtain ⟨order', heq', horder'⟩ := hspells'.exists_silentOrder
    refine ⟨fun filter => ⟨mergeIntents compiled.intents, order, leniency, filter⟩,
      ⟨compiled.restricted names, order', leniency, none⟩,
      fun filter => by rw [FuzzyRecognizer.new, heq],
      by rw [FuzzyRecognizer.new, Compiled.restricted, heq'], ?_⟩
    exact hphrased.filtersAs
      (fun filter tokens => FuzzyRecognizer.recognizes
        (r := ⟨mergeIntents compiled.intents, order, leniency, filter⟩)
        hspells.tidy.wellFormed horder tokens)
      fun tokens => FuzzyRecognizer.recognizes
        (r := ⟨compiled.restricted names, order', leniency, none⟩)
        hspells'.tidy.wellFormed horder' tokens

/-- Two intents with a sentence in common, of which one is disabled. -/
theorem Grammar.filters_of_compile_shared : ∃ grammar slots compiled,
    ofTextWith none "[Light]\nturn it on | turn on the $room\n[Radio]\nturn it on" = .ok grammar ∧
    Slots.Defined slots ∧ grammar.compile .lower slots = .ok compiled ∧
    compiled.Filters (.ofList ["Radio"]) := by
  obtain ⟨grammar, slots, compiled, hgrammar, hslots, hcompile, -⟩ := @exists_compile
    "[Light]\nturn it on | turn on the $room\n[Radio]\nturn it on" "room"
    ["kitchen", "hall:lobby"] .lower (fun _ _ => true) (by decide +kernel)
  exact ⟨grammar, slots, compiled, hgrammar, hslots, hcompile,
    filters_of_compile hgrammar hslots hcompile _⟩

end Phrasebook
