import Phrasebook.Proofs.Automaton.Checked
import Phrasebook.Proofs.Recognition.Continuation
import Phrasebook.Proofs.Recognition.FirstRun

/-!
# Recognition that checks which states it looks up

The recognizers of this file have no result when they look up a number of no state, be it among
the states of the automaton, among the marks of a search or in a row of the table. On a
well-formed automaton they have the results of the others.

The pairs of a position and a state are numbered, and the number of a pair whose state is not
there would be that of another pair. Such a number is refused as well.

* `StrictRecognizer.findPath?`, `FuzzyRecognizer.new?`, `FuzzyRecognizer.bestAlignment?`: the
  operations that check.
* `StrictRecognizer.findPath?_eq`, `FuzzyRecognizer.new?_eq`, `FuzzyRecognizer.bestAlignment?_eq`:
  they have results, and those of the others.
-/

namespace Phrasebook

namespace StrictRecognizer

variable {r : StrictRecognizer} {tokens : List String}

/-- The output of the first run that is found from the points in `todo`. -/
def search? {n : Nat} (r : StrictRecognizer) (width : Nat) (todo : List Visit) (seen : Marks n) :
    Option (Option (List Symbol)) :=
  match todo with
  | [] => some none
  | v :: rest =>
    if v.key width < n then
      if seen.isNew (v.key width) then do
        if v.rest.isEmpty && (← r.automaton.isFinalAt? v.state) then some (some v.output.reverse)
        else
          let arcs ← r.automaton.arcsAt? v.state
          let next := (arcs.filter (Automaton.Arc.isAllowed r.filter)).filterMap v.follow?
          search? r width (next ++ rest) (seen.mark (v.key width))
      else search? r width rest seen
    else none
termination_by (seen.unmarked, todo.length)
decreasing_by
  · exact Prod.Lex.left _ _ (Marks.unmarked_mark_lt ‹_›)
  · exact Prod.Lex.right _ (Nat.lt_succ_self _)

/-- The output of the first run that consumes the words. -/
def findPath? (r : StrictRecognizer) (tokens : List String) : Option (Option (List Symbol)) :=
  let width := tokens.length + 1
  r.search? width [⟨r.automaton.start, tokens, []⟩] (.none (r.automaton.size * width))

/-- A point is at a state, with a rest of the words. -/
def Visit.IsAt (r : StrictRecognizer) (tokens : List String) (v : Visit) : Prop :=
  v.state < r.automaton.size ∧ v.rest <:+ tokens

/-- The pairs of a state and a rest of the words are numbered in turn. -/
theorem Visit.IsAt.key_lt {v : Visit} (h : v.IsAt r tokens) :
    v.key (tokens.length + 1) < r.automaton.size * (tokens.length + 1) :=
  StrictRecognizer.key_lt h.1 h.2

theorem search?_eq (ha : r.automaton.WellFormed) {todo : List Visit}
    {seen : Marks (r.automaton.size * (tokens.length + 1))}
    (htodo : ∀ v ∈ todo, v.IsAt r tokens) :
    r.search? (tokens.length + 1) todo seen = some (r.search (tokens.length + 1) todo seen) := by
  fun_induction search r (tokens.length + 1) todo seen with
  | case1 => rw [search?]
  | case2 seen v rest hnew hstops =>
    obtain ⟨hv, hrest⟩ := List.forall_mem_cons.1 htodo
    rw [search?, if_pos hv.key_lt, if_pos hnew, Automaton.isFinalAt?_eq hv.1]
    exact if_pos hstops
  | case3 seen v rest hnew hgoes next ih =>
    obtain ⟨hv, hrest⟩ := List.forall_mem_cons.1 htodo
    rw [search?, if_pos hv.key_lt, if_pos hnew, Automaton.isFinalAt?_eq hv.1,
      Automaton.arcsAt?_eq hv.1]
    refine (if_neg hgoes).trans (ih (List.forall_mem_append.2 ⟨fun u hu => ?_, hrest⟩))
    obtain ⟨hstate, hsuffix⟩ := lt_of_mem_next ha hu
    exact ⟨hstate, hsuffix.trans hv.2⟩
  | case4 seen v rest hold ih =>
    obtain ⟨hv, hrest⟩ := List.forall_mem_cons.1 htodo
    rw [search?, if_pos hv.key_lt, if_neg hold]
    exact ih hrest

/-- The search for a run looks up nothing but states. -/
theorem findPath?_eq (ha : r.automaton.WellFormed) (tokens : List String) :
    r.findPath? tokens = some (r.findPath tokens) :=
  search?_eq ha (List.forall_mem_singleton.2 ⟨ha.start_lt, List.suffix_refl tokens⟩)

end StrictRecognizer

namespace FuzzyRecognizer

variable {r : FuzzyRecognizer}

/-- The arcs, each with the state that it leaves. Both ends of an arc have to be there, whether or
not it consumes a word. -/
def joined? (a : Automaton) : Option (List (Nat × Automaton.Arc)) :=
  (List.range a.size).flatMapM fun state => do
    (← a.arcsAt? state).mapM fun arc =>
      if arc.target < a.size then some (state, arc) else none

/-- The recognizer of an automaton, in which no state may lead back to itself over arcs that
consume nothing. -/
def new? (a : Automaton) (leniency : Leniency) (filter : Option WordSet) :
    Option (Except Error FuzzyRecognizer) := do
  let silent := (← joined? a).filter fun (_, arc) => arc.isSilent
  match ← Graph.orderOfEdges? a.size (silent.map fun (state, arc) => (state, arc.target)) with
  | .ok order => some (.ok { automaton := a, order, leniency, filter })
  | .error state => some (.error (.malformedPath (.silentCycle state)))

theorem joined?_eq {a : Automaton} (ha : a.WellFormed) :
    joined? a = some ((List.range a.size).flatMap fun state => (a.arcs state).map (state, ·)) := by
  refine flatMapM_eq_some fun state hstate => ?_
  rw [Automaton.arcsAt?_eq (List.mem_range.1 hstate)]
  exact mapM_eq_some fun arc harc => if_pos (ha.target_lt state arc harc)

/-- The making of a recognizer looks up nothing but states. -/
theorem new?_eq {a : Automaton} (ha : a.WellFormed) (leniency : Leniency)
    (filter : Option WordSet) : new? a leniency filter = some (new a leniency filter) := by
  have hsilent : (((List.range a.size).flatMap fun state => (a.arcs state).map (state, ·)).filter
      fun (_, arc) => arc.isSilent).map (fun (state, arc) => (state, arc.target)) =
        a.silentEdges := by
    simp only [List.filter_flatMap, List.map_flatMap, List.filter_map, List.map_map,
      Automaton.silentEdges, Automaton.silentTargets]
    rfl
  have horder : Graph.orderOfEdges? a.size a.silentEdges = some a.silentOrder :=
    Graph.orderOfEdges?_eq fun _ => Automaton.silentEdges_lt ha
  rw [new?, joined?_eq ha, new]
  simp only [Option.bind_eq_bind, Option.bind_some, hsilent, horder]
  cases a.silentOrder <;> rfl

/-- An arc to a number of no state is noticed also when it consumes a word. -/
example : new? ⟨#[⟨[⟨some "on", none, 0, 1⟩], none⟩], 0⟩ ⟨∅, none, true⟩ none = none := by cbv

/-! ### Pairs of a position and a state -/

section Alignments

variable (r : FuzzyRecognizer)

/-- The number of a pair of a position and a state, which has to be there. -/
def key? (position state : Nat) : Option Nat :=
  if state < r.automaton.size then some (r.key position state) else none

/-- The pairs of position and state that an alignment can come to next. -/
def followers? (input : Array InputToken) (pair : Nat) : Option (List Nat) := do
  let position := pair / r.automaton.size
  let rest := (input.extract position).toList
  let arcs ← r.automaton.arcsAt? (pair % r.automaton.size)
  (arcs.filter (Automaton.Arc.isAllowed r.filter)).flatMapM fun arc =>
    match arc.input with
    | none => do return [← r.key? position arc.target]
    | some word =>
      (InputToken.occurrences word 0 0 rest).flatMapM fun (skipped, _) => do
        return [← r.key? (position + skipped + 1) arc.target]

/-- The pairs of position and state that some alignment can come to. -/
def reachable? (input : List InputToken) :
    Option (Marks ((input.length + 1) * r.automaton.size)) := do
  Graph.reach? (r.followers? input.toArray) [← r.key? 0 r.automaton.start] (.none _)

/-- Whether some alignment can come to a state at a position. -/
def isLive? {n : Nat} (live : Marks n) (position state : Nat) : Option Bool := do
  live.contains? (← r.key? position state)

/-- The continuations along an arc. -/
def along? (here : Array Continuations) (later : List (Array Continuations))
    (rest : List InputToken) (position : Nat) (begun : Bool) (arc : Automaton.Arc) :
    Option (List Alignment) :=
  match arc.input with
  | none => do return (((← here[arc.target]?).get begun).map (.pass arc)).toList
  | some word =>
    (InputToken.occurrences word 0 0 rest).filterMapM fun (skipped, cost) => do
      let behind ← later[skipped]?
      return (← behind[arc.target]?).begun.map (.take arc cost (position + skipped))

/-- The best continuation from a state, with or without a word matched before. -/
def bestFrom? (here : Array Continuations) (later : List (Array Continuations))
    (rest : List InputToken) (position state : Nat) (begun : Bool) :
    Option (Option Alignment) := do
  let stops :=
    if begun && (← r.automaton.isFinalAt? state) then
      ((InputToken.skipAll? rest).map Alignment.stop).toList
    else []
  let arcs ← r.automaton.arcsAt? state
  let onward ← (arcs.filter (Automaton.Arc.isAllowed r.filter)).flatMapM
    (along? here later rest position begun)
  return Alignment.best (stops ++ onward)

/-- The continuations of every state at a position. -/
def row? (live : Nat → Option Bool) (later : List (Array Continuations))
    (rest : List InputToken) (position : Nat) : Option (Array Continuations) := do
  let states ← r.order.reverse.filterMapM fun state => do
    return if ← live state then some state else none
  states.foldlM (fun row state => do
    let fresh ← r.bestFrom? row later rest position state false
    let begun ← r.bestFrom? row later rest position state true
    if state < row.size then some (row.setIfInBounds state ⟨fresh, begun⟩) else none)
    (Array.replicate r.automaton.size .none)

/-- The rows of all positions from the one before `rest` on. -/
def rows? {n : Nat} (live : Marks n) (total : Nat) :
    List InputToken → Option (List (Array Continuations))
  | [] => do return [← r.row? (r.isLive? live total) [] [] total]
  | t :: ts => do
    let later ← rows? live total ts
    let position := total - (ts.length + 1)
    return (← r.row? (r.isLive? live position) later (t :: ts) position) :: later

/-- The best alignment of some words. -/
def bestAlignment? (tokens : List String) : Option (Option Alignment) := do
  let input := r.input tokens
  let live ← r.reachable? input
  let first ← (← r.rows? live input.length input).head?
  return (← first[r.automaton.start]?).fresh

end Alignments

variable {input rest : List InputToken} {position state : Nat}

theorem key?_eq (h : state < r.automaton.size) :
    r.key? position state = some (r.key position state) := if_pos h

/-- A word is found before the end. -/
theorem lt_of_mem_occurrences {word : String} {place : Nat × Nat} {skipped cost : Nat}
    (h : place ∈ InputToken.occurrences word skipped cost rest) :
    place.1 < skipped + rest.length := by
  induction rest generalizing skipped cost with
  | nil => cases h
  | cons t ts ih =>
    have hlater : ∀ {cost}, place ∈ InputToken.occurrences word (skipped + 1) cost ts →
        place.1 < skipped + (t :: ts).length := fun h => by
      have := ih h
      rw [List.length_cons]
      omega
    have hhere : skipped < skipped + (t :: ts).length := by simp
    rw [InputToken.occurrences] at h
    cases hcost : t.cost? with
    | none =>
      rw [hcost] at h
      dsimp only at h
      split at h
      · cases List.mem_singleton.1 h
        exact hhere
      · cases h
    | some c =>
      rw [hcost] at h
      dsimp only at h
      split at h
      · rcases List.mem_cons.1 h with rfl | h
        · exact hhere
        · exact hlater h
      · exact hlater h

/-- The pairs that an alignment can come to next are pairs of a position and a state. -/
theorem lt_of_mem_followers (ha : r.automaton.WellFormed) {pair next : Nat}
    (hpair : pair < (input.length + 1) * r.automaton.size)
    (h : next ∈ r.followers input.toArray pair) :
    next < (input.length + 1) * r.automaton.size := by
  have hposition : pair / r.automaton.size ≤ input.length := by
    rw [Nat.mul_comm] at hpair
    exact Nat.le_of_lt_succ (Nat.div_lt_of_lt_mul hpair)
  obtain ⟨arc, harc, h⟩ := List.mem_flatMap.1 h
  have htarget := ha.target_lt _ arc (List.mem_filter.1 harc).1
  cases hinput : arc.input with
  | none =>
    rw [hinput] at h
    cases List.mem_singleton.1 h
    exact key_lt hposition htarget
  | some word =>
    rw [hinput] at h
    obtain ⟨place, hplace, rfl⟩ := List.mem_map.1 h
    have hlt := lt_of_mem_occurrences hplace
    refine key_lt ?_ htarget
    simp only [Array.length_toList, Array.size_extract, List.size_toArray] at hlt
    omega

theorem followers?_eq (ha : r.automaton.WellFormed) {input : Array InputToken} {pair : Nat} :
    r.followers? input pair = some (r.followers input pair) := by
  have hstate : pair % r.automaton.size < r.automaton.size :=
    Nat.mod_lt _ (Nat.lt_of_le_of_lt (Nat.zero_le _) ha.start_lt)
  rw [followers?, Automaton.arcsAt?_eq hstate]
  refine flatMapM_eq_some fun arc harc => ?_
  have htarget := ha.target_lt _ arc (List.mem_filter.1 harc).1
  cases arc.input with
  | none => rw [key?_eq htarget]; rfl
  | some word =>
    dsimp only
    rw [List.map_eq_flatMap]
    refine flatMapM_eq_some fun place _ => ?_
    rw [key?_eq htarget]
    rfl

theorem reachable?_eq (ha : r.automaton.WellFormed) (input : List InputToken) :
    r.reachable? input = some (r.reachable input) := by
  rw [reachable?, key?_eq ha.start_lt]
  exact Graph.reach?_eq (fun _ _ => followers?_eq ha)
    (fun _ hpair _ => lt_of_mem_followers ha hpair)
    (List.forall_mem_singleton.2 (key_lt (Nat.zero_le _) ha.start_lt))

/-! ### Rows -/

variable {later : List (Array Continuations)} {begun : Bool}

/-- Rows have a place for every state of the automaton. -/
def AreRows (r : FuzzyRecognizer) (rows : List (Array Continuations)) : Prop :=
  ∀ row ∈ rows, row.size = r.automaton.size

theorem getElem?_eq_inRow {row : Array Continuations} (h : state < row.size) :
    row[state]? = some (inRow row state) := by
  rw [inRow, Array.getElem?_eq_getElem h]
  rfl

theorem along?_eq {here : Array Continuations} {arc : Automaton.Arc}
    (hhere : here.size = r.automaton.size) (hlater : r.AreRows later)
    (hlength : later.length = rest.length) (htarget : arc.target < r.automaton.size) :
    along? here later rest position begun arc =
      some (along (inRow here) (later.map inRow) rest position begun arc) := by
  rw [along?, along]
  cases arc.input with
  | none => rw [getElem?_eq_inRow (hhere ▸ htarget)]; rfl
  | some word =>
    refine filterMapM_eq_some ?_
    rintro ⟨skipped, cost⟩ hplace
    -- A word is found before the end, and there is a row behind every word.
    have hlt : skipped < later.length := by
      rw [hlength]
      exact Nat.zero_add rest.length ▸ lt_of_mem_occurrences hplace
    have hrow := hlater _ (List.getElem_mem hlt)
    simp only [List.getElem?_map, List.getElem?_eq_getElem hlt, Option.bind_eq_bind,
      Option.bind_some, Option.map_some, getElem?_eq_inRow (hrow ▸ htarget)]
    cases (inRow later[skipped] arc.target).begun <;> rfl

theorem bestFrom?_eq {here : Array Continuations} (ha : r.automaton.WellFormed)
    (hhere : here.size = r.automaton.size) (hlater : r.AreRows later)
    (hlength : later.length = rest.length) (hstate : state < r.automaton.size) :
    r.bestFrom? here later rest position state begun =
      some (r.bestFrom (inRow here) (later.map inRow) rest position state begun) := by
  have honward : (r.automaton.allowedArcs r.filter state).flatMapM
      (along? here later rest position begun) =
        some ((r.automaton.allowedArcs r.filter state).flatMap
          (along (inRow here) (later.map inRow) rest position begun)) :=
    flatMapM_eq_some fun arc harc =>
      along?_eq hhere hlater hlength (ha.target_lt state arc (List.mem_filter.1 harc).1)
  rw [Automaton.allowedArcs] at honward
  rw [bestFrom?, Automaton.isFinalAt?_eq hstate, Automaton.arcsAt?_eq hstate]
  simp only [Option.bind_eq_bind, Option.bind_some]
  rw [honward]
  rfl

theorem row?_eq {live? : Nat → Option Bool} {live : Nat → Bool} (ha : r.automaton.WellFormed)
    (horder : ∀ state ∈ r.order, state < r.automaton.size)
    (hlive : ∀ state < r.automaton.size, live? state = some (live state))
    (hlater : r.AreRows later) (hlength : later.length = rest.length) :
    r.row? live? later rest position = some (r.row live (later.map inRow) rest position) ∧
      (r.row live (later.map inRow) rest position).size = r.automaton.size := by
  have hstates : (r.order.reverse.filterMapM fun state => do
      return if ← live? state then some state else none) =
        some (r.order.reverse.filter live) := by
    rw [← List.filterMap_eq_filter]
    refine filterMapM_eq_some fun state hstate => ?_
    rw [hlive state (horder state (List.mem_reverse.1 hstate))]
    rfl
  rw [row?, row]
  simp only [Option.bind_eq_bind] at hstates ⊢
  rw [hstates, Option.bind_some]
  -- A row keeps its size while it is filled in, and the rows behind it are complete.
  refine foldlM_eq_some (P := fun row : Array Continuations => row.size = r.automaton.size)
    (fun row hrow state hstate => ?_) Array.size_replicate
  have hlt := horder state (List.mem_reverse.1 (List.mem_filter.1 hstate).1)
  rw [bestFrom?_eq ha hrow hlater hlength hlt, bestFrom?_eq ha hrow hlater hlength hlt]
  exact ⟨if_pos (hrow ▸ hlt), by rw [Array.size_setIfInBounds, hrow]⟩

/-- The rows have a place for every state, so that nothing else is looked up in them. -/
theorem rows?_eq (ha : r.automaton.WellFormed)
    (horder : ∀ state ∈ r.order, state < r.automaton.size) {total : Nat}
    (live : Marks ((total + 1) * r.automaton.size)) (hlength : rest.length ≤ total) :
    ∃ rows, r.rows? live total rest = some rows ∧ r.rows live total rest = rows.map inRow ∧
      r.AreRows rows ∧ rows.length = rest.length + 1 := by
  have hlive : ∀ position ≤ total, ∀ state < r.automaton.size,
      r.isLive? live position state = some (live.contains (r.key position state)) := by
    intro position hposition state hstate
    rw [isLive?, key?_eq hstate]
    exact Marks.contains?_eq (key_lt hposition hstate)
  induction rest with
  | nil =>
    obtain ⟨hrow, hsize⟩ := @row?_eq r [] total [] _ _ ha horder (hlive total (Nat.le_refl _))
      (List.forall_mem_nil _) rfl
    refine ⟨[_], ?_, rfl, List.forall_mem_singleton.2 hsize, rfl⟩
    rw [rows?, hrow]
    rfl
  | cons t ts ih =>
    obtain ⟨later, hrows?, hrows, hlater, hlaterLength⟩ := ih (Nat.le_of_succ_le hlength)
    obtain ⟨hrow, hsize⟩ := @row?_eq r (t :: ts) (total - (ts.length + 1)) later _ _ ha horder
      (hlive _ (Nat.sub_le _ _)) hlater hlaterLength
    refine ⟨_ :: later, ?_, ?_, List.forall_mem_cons.2 ⟨hsize, hlater⟩,
      congrArg (· + 1) hlaterLength⟩
    · rw [rows?, hrows?]
      simp only [Option.bind_eq_bind, Option.bind_some]
      rw [hrow]
      rfl
    · rw [rows, hrows]
      rfl

/-- The search for the best alignment looks up nothing but states. -/
theorem bestAlignment?_eq (ha : r.automaton.WellFormed)
    (horder : ∀ state ∈ r.order, state < r.automaton.size) (tokens : List String) :
    r.bestAlignment? tokens = some (r.bestAlignment tokens) := by
  obtain ⟨rows, hrows?, hrows, hsizes, hlength⟩ :=
    rows?_eq ha horder (r.reachable (r.input tokens)) (Nat.le_refl (r.input tokens).length)
  obtain ⟨first, rest, rfl⟩ := List.exists_cons_of_length_eq_add_one hlength
  have hfirst : first.size = r.automaton.size := hsizes first List.mem_cons_self
  rw [bestAlignment?, bestAlignment]
  simp only [reachable?_eq ha, Option.bind_eq_bind, Option.bind_some, hrows?, hrows,
    List.head?_cons, List.map_cons, getElem?_eq_inRow (hfirst ▸ ha.start_lt)]
  rfl

end FuzzyRecognizer

end Phrasebook
