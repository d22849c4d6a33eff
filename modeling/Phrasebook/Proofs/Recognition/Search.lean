import Mathlib.Algebra.Ring.Nat
import Phrasebook.Proofs.Recognition.Agreement

/-!
# Strict recognition as a search with a stack

The search keeps the way from the start to the last point on a stack, together with how many arcs
of each point on the way have been tried. It ends in every automaton, because each turn uses up
an arc or leaves a point, and no point is entered twice.

A point that is marked is passed over even when it is still on the way, so a run through it may be
lost. Such a run comes through a point of the way twice, or is not the first: from a marked point
nothing finishes without coming through the way (`Barred`). So what is found is the first of the
runs that come to no point twice.

* `StrictRecognizer.Search.turn`: what the search does next.
* `StrictRecognizer.Search.Ends`: what it comes to, and after how many turns.
* `StrictRecognizer.Barred`: from a point no run finishes without coming through a way.
* `StrictRecognizer.Way`: how the search has come to its last point.
* `StrictRecognizer.IsFirstSimple`: the output of the first run that comes to no point twice.
* `StrictRecognizer.search_exact`: the search ends, finds something exactly when a run finishes,
  and finds the first run that comes to no point twice.
-/

namespace Phrasebook

namespace StrictRecognizer

variable {r : StrictRecognizer} {tokens : List String} {width n : Nat}

/-- Whether a run finishes at a point at once. -/
def stops (r : StrictRecognizer) (v : Visit) : Bool :=
  v.rest.isEmpty && r.automaton.isFinal v.state

theorem stops_iff {v : Visit} :
    r.stops v = true ↔ v.rest = [] ∧ r.automaton.isFinal v.state = true := by
  simp [stops]

/-- The point at which the search for the runs that consume some words begins. -/
def origin (r : StrictRecognizer) (tokens : List String) : Visit :=
  ⟨r.automaton.start, tokens, []⟩

/-- A point on the way of a search. -/
structure Frame where
  /-- The point. -/
  visit : Visit
  /-- How many of its arcs have been tried. -/
  tried : Nat

/-- How far a search has come. -/
structure Search (n : Nat) where
  /-- The way to the last point, which comes first. -/
  frames : List Frame
  /-- The points that have been entered. -/
  seen : Marks n

namespace Search

/-- Enters a point. The search is over when a run finishes there. -/
def enter (r : StrictRecognizer) (width : Nat) (u : Visit) (frames : List Frame)
    (seen : Marks n) : Search n ⊕ List Symbol :=
  if r.stops u then .inr u.output.reverse
  else .inl ⟨⟨u, 0⟩ :: frames, seen.mark (u.key width)⟩

/-- What a search does in its last point: it goes back when there is no arc to try, and otherwise
along the next arc if that leads to a point that has not been entered. -/
def turn (r : StrictRecognizer) (width : Nat) (last : Frame) (frames : List Frame)
    (seen : Marks n) : Search n ⊕ List Symbol :=
  match (r.automaton.arcs last.visit.state)[last.tried]? with
  | none => .inl ⟨frames, seen⟩
  | some arc =>
    let back := ⟨last.visit, last.tried + 1⟩ :: frames
    match r.nextOf last.visit arc with
    | none => .inl ⟨back, seen⟩
    | some u => if seen.isNew (u.key width) then enter r width u back seen else .inl ⟨back, seen⟩

/-- The search for the runs that consume some words. -/
def begin (r : StrictRecognizer) (tokens : List String) :
    Search (r.automaton.size * (tokens.length + 1)) ⊕ List Symbol :=
  enter r (tokens.length + 1) (r.origin tokens) [] (.none _)

/-- A search ends after some turns, with the output of a run or with nothing. -/
inductive Ends (r : StrictRecognizer) (width : Nat) :
    Nat → Search n ⊕ List Symbol → Option (List Symbol) → Prop
  /-- A run has been found. -/
  | found (output : List Symbol) : Ends r width 0 (.inr output) (some output)
  /-- There is no point to go on from. -/
  | exhausted (seen : Marks n) : Ends r width 0 (.inl ⟨[], seen⟩) none
  /-- The search goes on. -/
  | turn {turns : Nat} {last : Frame} {frames : List Frame} {seen : Marks n}
    {result : Option (List Symbol)}
    (rest : Ends r width turns (turn r width last frames seen) result) :
    Ends r width (turns + 1) (.inl ⟨last :: frames, seen⟩) result

/-- A search ends in one way only. -/
theorem Ends.unique {turns turns' : Nat} {s : Search n ⊕ List Symbol}
    {result result' : Option (List Symbol)} (h : Ends r width turns s result)
    (h' : Ends r width turns' s result') : turns = turns' ∧ result = result' := by
  induction h generalizing turns' with
  | found =>
    cases h'
    exact ⟨rfl, rfl⟩
  | exhausted =>
    cases h'
    exact ⟨rfl, rfl⟩
  | turn _ ih =>
    cases h' with
    | turn rest =>
      obtain ⟨rfl, rfl⟩ := ih rest
      exact ⟨rfl, rfl⟩

/-! ### What a turn does -/

variable {last : Frame} {frames : List Frame} {seen : Marks n} {arc : Automaton.Arc} {u : Visit}

theorem turn_of_none (h : (r.automaton.arcs last.visit.state)[last.tried]? = none) :
    turn r width last frames seen = .inl ⟨frames, seen⟩ := by
  rw [turn, h]

theorem turn_of_blocked (h : (r.automaton.arcs last.visit.state)[last.tried]? = some arc)
    (hnext : r.nextOf last.visit arc = none) :
    turn r width last frames seen = .inl ⟨⟨last.visit, last.tried + 1⟩ :: frames, seen⟩ := by
  simp only [turn, h, hnext]

theorem turn_of_old (h : (r.automaton.arcs last.visit.state)[last.tried]? = some arc)
    (hnext : r.nextOf last.visit arc = some u) (hold : seen.isNew (u.key width) = false) :
    turn r width last frames seen = .inl ⟨⟨last.visit, last.tried + 1⟩ :: frames, seen⟩ := by
  simp [turn, h, hnext, hold]

theorem turn_of_new (h : (r.automaton.arcs last.visit.state)[last.tried]? = some arc)
    (hnext : r.nextOf last.visit arc = some u) (hnew : seen.isNew (u.key width) = true) :
    turn r width last frames seen =
      enter r width u (⟨last.visit, last.tried + 1⟩ :: frames) seen := by
  simp only [turn, h, hnext, hnew, if_true]

/-! ### The search ends -/

/-- The points to be looked at: what comes after the arcs that have not been tried. -/
def todo (r : StrictRecognizer) (frames : List Frame) : List Visit :=
  frames.flatMap fun f =>
    ((r.automaton.arcs f.visit.state).drop f.tried).filterMap (r.nextOf f.visit)

/-- The number of arcs of a state, and one more for leaving it. -/
def cost (a : Automaton) (state : Nat) : Nat := 1 + (a.arcs state).length

/-- How many turns a search can take at most: those in the points of the way, and those in all
points that have not been entered. -/
def potential (r : StrictRecognizer) (width : Nat) (s : Search n) : Nat :=
  s.seen.pending (fun key => cost r.automaton (key / width)) +
    (s.frames.map fun f => 1 + ((r.automaton.arcs f.visit.state).length - f.tried)).sum

/-- The rests of the words at the points of the way are counted below the width. -/
def Fits (width : Nat) (frames : List Frame) : Prop :=
  ∀ f ∈ frames, f.visit.rest.length < width

theorem todo_cons_of_none (h : (r.automaton.arcs last.visit.state)[last.tried]? = none) :
    todo r (last :: frames) = todo r frames := by
  rw [todo, List.flatMap_cons, List.drop_eq_nil_of_le (List.getElem?_eq_none_iff.1 h)]
  rfl

theorem todo_cons_of_some (h : (r.automaton.arcs last.visit.state)[last.tried]? = some arc) :
    todo r (last :: frames) =
      (r.nextOf last.visit arc).toList ++ todo r (⟨last.visit, last.tried + 1⟩ :: frames) := by
  obtain ⟨hlt, rfl⟩ := List.getElem?_eq_some_iff.1 h
  rw [todo, List.flatMap_cons, List.drop_eq_getElem_cons hlt, List.filterMap_cons]
  cases r.nextOf last.visit (r.automaton.arcs last.visit.state)[last.tried] <;> rfl

theorem search_of_old {todo : List Visit} (h : seen.isNew (u.key width) = false) :
    r.search width (u :: todo) seen = r.search width todo seen := by
  rw [search, if_neg (by simp [h])]

theorem search_of_new {todo : List Visit} (h : seen.isNew (u.key width) = true) :
    r.search width (u :: todo) seen = if r.stops u then some u.output.reverse else
      r.search width (r.next u ++ todo) (seen.mark (u.key width)) := by
  rw [search, if_pos h]
  rfl

theorem key_div (h : u.rest.length < width) : u.key width / width = u.state := by
  rw [Visit.key, Nat.mul_comm, Nat.mul_add_div (by omega), Nat.div_eq_of_lt h, Nat.add_zero]

theorem rest_length_le_of_nextOf {v : Visit} (h : r.nextOf v arc = some u) :
    u.rest.length ≤ v.rest.length := by
  obtain ⟨-, -, hrest, -⟩ := nextOf_eq_some_iff.1 h
  simp [hrest]

/-- Entering a new point takes its turns off what is pending and adds them to the way. -/
theorem potential_enter (h : seen.isNew (u.key width) = true) (hfits : u.rest.length < width) :
    potential r width ⟨⟨u, 0⟩ :: frames, seen.mark (u.key width)⟩ =
      potential r width ⟨frames, seen⟩ := by
  have hpending := Marks.pending_mark (fun key => cost r.automaton (key / width)) h
  simp only [key_div hfits] at hpending
  have hcost : cost r.automaton u.state = 1 + (r.automaton.arcs u.state).length := rfl
  simp only [potential, List.map_cons, List.sum_cons, Nat.sub_zero, ← hpending]
  omega

/-- A turn along an arc takes one off the turns that the way allows. -/
theorem potential_back (h : (r.automaton.arcs last.visit.state)[last.tried]? = some arc) :
    potential r width ⟨⟨last.visit, last.tried + 1⟩ :: frames, seen⟩ + 1 =
      potential r width ⟨last :: frames, seen⟩ := by
  obtain ⟨hlt, -⟩ := List.getElem?_eq_some_iff.1 h
  simp only [potential, List.map_cons, List.sum_cons]
  omega

theorem Fits.back (h : Fits width (last :: frames)) {tried : Nat} :
    Fits width (⟨last.visit, tried⟩ :: frames) :=
  List.forall_mem_cons.2 (List.forall_mem_cons.1 h)

/-- A new point that is entered is searched next, before what is left to be looked at. -/
theorem exists_ends_enter (hnew : seen.isNew (u.key width) = true) {bound : Nat}
    (hrest : ∃ turns ≤ bound, Ends r width turns
      (.inl ⟨⟨u, 0⟩ :: frames, seen.mark (u.key width)⟩)
      (r.search width (todo r (⟨u, 0⟩ :: frames)) (seen.mark (u.key width)))) :
    ∃ turns ≤ bound, Ends r width turns (enter r width u frames seen)
      (r.search width (u :: todo r frames) seen) := by
  rw [search_of_new hnew, enter]
  cases r.stops u with
  | true => exact ⟨0, Nat.zero_le _, .found _⟩
  | false =>
    rw [next_eq_filterMap]
    exact hrest

/-- From every point of its run the search ends, as the search for what is left to be looked at
does. -/
theorem exists_ends (s : Search n) (hfits : Fits width s.frames) :
    ∃ turns ≤ potential r width s,
      Ends r width turns (.inl s) (r.search width (todo r s.frames) s.seen) := by
  induction hbound : potential r width s using Nat.strongRecOn generalizing s with
  | ind bound ih =>
    subst hbound
    obtain ⟨frames, seen⟩ := s
    cases frames with
    | nil =>
      refine ⟨0, Nat.zero_le _, ?_⟩
      rw [todo, List.flatMap_nil, search]
      exact .exhausted seen
    | cons last frames =>
      -- It is enough that what the turn leaves ends within one turn less.
      suffices hturn : ∃ turns < potential r width ⟨last :: frames, seen⟩,
          Ends r width turns (turn r width last frames seen)
            (r.search width (todo r (last :: frames)) seen) by
        obtain ⟨turns, hlt, hends⟩ := hturn
        exact ⟨turns + 1, hlt, .turn hends⟩
      cases harc : (r.automaton.arcs last.visit.state)[last.tried]? with
      | none =>
        -- All arcs of the point have been tried, and it is left.
        have hlt : potential r width ⟨frames, seen⟩ < potential r width ⟨last :: frames, seen⟩ := by
          simp only [potential, List.map_cons, List.sum_cons]
          omega
        obtain ⟨turns, hle, hends⟩ := ih _ hlt ⟨frames, seen⟩ (List.forall_mem_cons.1 hfits).2 rfl
        rw [turn_of_none harc, todo_cons_of_none harc]
        exact ⟨turns, Nat.lt_of_le_of_lt hle hlt, hends⟩
      | some arc =>
        have hpotential : potential r width ⟨⟨last.visit, last.tried + 1⟩ :: frames, seen⟩ + 1 =
            potential r width ⟨last :: frames, seen⟩ := potential_back harc
        have hback := ih _ (Nat.lt_of_succ_le (Nat.le_of_eq hpotential)) ⟨_, seen⟩ hfits.back rfl
        have hlast := (List.forall_mem_cons.1 hfits).1
        rw [todo_cons_of_some harc, ← hpotential]
        cases hnext : r.nextOf last.visit arc with
        | none =>
          rw [turn_of_blocked harc hnext]
          obtain ⟨turns, hle, hends⟩ := hback
          exact ⟨turns, Nat.lt_succ_of_le hle, hends⟩
        | some u =>
          have hu : u.rest.length < width :=
            Nat.lt_of_le_of_lt (rest_length_le_of_nextOf hnext) hlast
          cases hnew : seen.isNew (u.key width) with
          | false =>
            -- Both searches pass over a point that has been entered before.
            rw [turn_of_old harc hnext hnew, Option.toList_some, List.singleton_append,
              search_of_old hnew]
            obtain ⟨turns, hle, hends⟩ := hback
            exact ⟨turns, Nat.lt_succ_of_le hle, hends⟩
          | true =>
            -- The turns that a new point allows were pending before.
            rw [turn_of_new harc hnext hnew, Option.toList_some, List.singleton_append]
            have henter : potential r width ⟨⟨u, 0⟩ :: ⟨last.visit, last.tried + 1⟩ :: frames,
                seen.mark (u.key width)⟩ =
                  potential r width ⟨⟨last.visit, last.tried + 1⟩ :: frames, seen⟩ :=
              potential_enter hnew hu
            have hdeeper := ih _ (by rw [henter]; omega)
              ⟨⟨u, 0⟩ :: ⟨last.visit, last.tried + 1⟩ :: frames, seen.mark (u.key width)⟩
              (List.forall_mem_cons.2 ⟨hu, hfits.back⟩) rfl
            rw [henter] at hdeeper
            obtain ⟨turns, hle, hends⟩ := exists_ends_enter hnew hdeeper
            exact ⟨turns, Nat.lt_succ_of_le hle, hends⟩

/-! ### How long a search can take -/

theorem sum_div {f : Nat → Nat} {size : Nat} (h : 0 < width) :
    ((List.range (size * width)).map fun key => f (key / width)).sum =
      ((List.range size).map f).sum * width := by
  induction size with
  | zero => simp
  | succ size ih =>
    -- The keys of the last state follow those of all others.
    have hlast : ∀ i ∈ List.range width, f ((size * width + i) / width) = f size := by
      intro i hi
      have hlt := List.mem_range.1 hi
      rw [Nat.mul_comm, Nat.mul_add_div h, Nat.div_eq_of_lt hlt, Nat.add_zero]
    rw [Nat.succ_mul, List.range_add, List.map_append, List.sum_append, ih, List.map_map,
      Function.comp_def, List.map_congr_left hlast, List.range_succ, List.map_append,
      List.sum_append, Nat.add_mul]
    simp [Nat.mul_comm]

/-- All points together have as many turns as there are states and arcs, each as often as there
are rests of the words. -/
theorem pending_none {a : Automaton} (h : 0 < width) :
    (Marks.none (a.size * width)).pending (fun key => cost a (key / width)) =
      (a.size + a.arcCount) * width := by
  have hcost : cost a = fun state => (a.arcs state).length + 1 :=
    funext fun _ => Nat.add_comm _ _
  rw [Marks.pending_none, ← List.foldr_map, ← List.sum_eq_foldr, sum_div h, hcost,
    List.sum_eq_foldr, List.foldr_map, a.foldr_length_arcs]

/-- In every automaton the search ends with what is found. -/
theorem exists_ends_begin (ha : r.automaton.WellFormed) (tokens : List String) :
    ∃ turns ≤ (r.automaton.size + r.automaton.arcCount) * (tokens.length + 1),
      Ends r (tokens.length + 1) turns (begin r tokens) (r.findPath tokens) := by
  let seen : Marks (r.automaton.size * (tokens.length + 1)) := .none _
  have hnew : seen.isNew ((r.origin tokens).key (tokens.length + 1)) = true :=
    Marks.isNew_iff.2 ⟨key_lt ha.start_lt (List.suffix_refl _), Marks.contains_none⟩
  have hfits : Fits (tokens.length + 1) [⟨r.origin tokens, 0⟩] :=
    List.forall_mem_singleton.2 (Nat.lt_succ_self _)
  have hends := exists_ends (r := r)
    ⟨_, seen.mark ((r.origin tokens).key (tokens.length + 1))⟩ hfits
  rw [potential_enter hnew (Nat.lt_succ_self _), potential, pending_none (Nat.succ_pos _)] at hends
  exact exists_ends_enter hnew hends

end Search

/-! ### Points from which nothing finishes without the way -/

/-- The state of a point, with the number of words that have been consumed. -/
def Visit.point (tokens : List String) (v : Visit) : Nat × Nat :=
  (v.state, tokens.length - v.rest.length)

/-- The points of a way, the last one first. -/
def trail (tokens : List String) (frames : List Frame) : List (Nat × Nat) :=
  frames.map fun f => f.visit.point tokens

/-- No run finishes from a point without coming through a way. -/
def Barred (r : StrictRecognizer) (tokens : List String) (way : List (Nat × Nat)) (v : Visit) :
    Prop :=
  ∀ run arcs, r.Finishes v.state v.rest run arcs →
    ∃ q ∈ Automaton.points v.state (v.point tokens).2 arcs, q ∈ way

variable {u v x : Visit} {arc : Automaton.Arc} {way : List (Nat × Nat)}

theorem rest_eq_of_point_eq (hu : u.rest <:+ tokens) (hv : v.rest <:+ tokens)
    (h : u.point tokens = v.point tokens) : u.state = v.state ∧ u.rest = v.rest := by
  obtain ⟨hstate, hposition⟩ := Prod.mk.inj h
  have hulength := hu.length_le
  have hvlength := hv.length_le
  have hlength : u.rest.length = v.rest.length := by omega
  have hsuffix := List.suffix_of_suffix_length_le hu hv (Nat.le_of_eq hlength)
  exact ⟨hstate, hsuffix.eq_of_length hlength⟩

theorem key_eq_of_point_eq (hu : u.rest <:+ tokens) (hv : v.rest <:+ tokens)
    (h : u.point tokens = v.point tokens) : u.key width = v.key width := by
  obtain ⟨hstate, hrest⟩ := rest_eq_of_point_eq hu hv h
  rw [Visit.key, Visit.key, hstate, hrest]

theorem suffix_of_nextOf (hv : v.rest <:+ tokens) (h : r.nextOf v arc = some u) :
    u.rest <:+ tokens := by
  obtain ⟨-, -, hrest, -⟩ := nextOf_eq_some_iff.1 h
  exact (hrest ▸ List.suffix_append _ _ : u.rest <:+ v.rest).trans hv

/-- A run comes through the point in which it begins, and then through those of what follows. -/
theorem points_cons (hv : v.rest <:+ tokens) (h : r.nextOf v arc = some u)
    {arcs : List Automaton.Arc} :
    Automaton.points v.state (v.point tokens).2 (arc :: arcs) =
      v.point tokens :: Automaton.points u.state (u.point tokens).2 arcs := by
  obtain ⟨-, hstate, hrest, -⟩ := nextOf_eq_some_iff.1 h
  have hlength := hv.length_le
  rw [hrest, List.length_append] at hlength
  have hposition : (v.point tokens).2 + arc.input.toList.length = (u.point tokens).2 := by
    simp only [Visit.point, hrest, List.length_append]
    omega
  rw [Automaton.points, hposition, ← hstate]
  rfl

theorem point_mem_points {arcs : List Automaton.Arc} :
    v.point tokens ∈ Automaton.points v.state (v.point tokens).2 arcs := by
  cases arcs <;> exact List.mem_cons_self

/-- A run that finishes also finishes from each point that it comes through. -/
theorem Finishes.exists_suffix {run : List Nat} {arcs : List Automaton.Arc}
    (h : r.Finishes u.state u.rest run arcs) (hu : u.rest <:+ tokens) (hv : v.rest <:+ tokens)
    (hmem : v.point tokens ∈ Automaton.points u.state (u.point tokens).2 arcs) :
    ∃ run' arcs', r.Finishes v.state v.rest run' arcs' ∧ run'.length ≤ run.length ∧
      Automaton.points v.state (v.point tokens).2 arcs' ⊆
        Automaton.points u.state (u.point tokens).2 arcs := by
  -- The run is followed until it comes to the point.
  induction run generalizing u arcs with
  | nil =>
    obtain ⟨stop, hrun, -⟩ := h.stops
    cases hrun
    obtain ⟨hstate, hrest⟩ := rest_eq_of_point_eq hv hu (List.mem_singleton.1 hmem)
    rw [Visit.point, hstate, hrest]
    exact ⟨[], [], h, Nat.le_refl _, fun _ hq => hq⟩
  | cons i run ih =>
    obtain ⟨stop, hrun, -⟩ := id h.stops
    cases hrun with
    | @cons _ _ _ arc _ arcs _ _ =>
      obtain ⟨-, w, hw, hrest⟩ := finishes_cons_iff.1 h
      rw [points_cons hu hw] at hmem
      rcases List.mem_cons.1 hmem with heq | hmem
      · obtain ⟨hstate, hrests⟩ := rest_eq_of_point_eq hv hu heq
        rw [Visit.point, hstate, hrests]
        exact ⟨i :: run, arc :: arcs, h, Nat.le_refl _, fun _ hq => hq⟩
      · obtain ⟨run', arcs', hfinishes, hlength, hsub⟩ := ih hrest (suffix_of_nextOf hu hw) hmem
        refine ⟨run', arcs', hfinishes, Nat.le_succ_of_le hlength, ?_⟩
        rw [points_cons hu hw]
        exact List.subset_cons_of_subset _ hsub

theorem barred_of_mem (h : v.point tokens ∈ way) : r.Barred tokens way v :=
  fun _ _ _ => ⟨_, point_mem_points, h⟩

/-- When a point is left, it is barred by the way to it: a run that comes back to it is followed
from there on. -/
theorem barred_of_next (hv : v.rest <:+ tokens) (hstop : r.stops v = false)
    (hnext : ∀ u ∈ r.next v, r.Barred tokens (v.point tokens :: way) u) :
    r.Barred tokens way v := by
  intro run
  induction hlength : run.length using Nat.strongRecOn generalizing run with
  | ind length ih =>
    intro arcs h
    obtain ⟨⟨stop, hrun, hfinal⟩, -, hwords⟩ := id h
    cases hrun with
    | nil =>
      have hstops : r.stops v = true := stops_iff.2 ⟨hwords.symm, hfinal⟩
      rw [hstop] at hstops
      cases hstops
    | @cons _ i _ arc run arcs first _ =>
      obtain ⟨-, u, hu, hrest⟩ := finishes_cons_iff.1 h
      have hsuffix := suffix_of_nextOf hv hu
      obtain ⟨q, hq, hway⟩ :=
        hnext u (mem_next_iff.2 ⟨arc, List.mem_of_getElem? first, hu⟩) _ _ hrest
      rw [points_cons hv hu]
      rcases List.mem_cons.1 hway with rfl | hway
      · -- The rest of the run from its second visit of the point is shorter.
        obtain ⟨run', arcs', h', hle, hsub⟩ := hrest.exists_suffix hsuffix hv hq
        have hlt : run'.length < length := by
          rw [← hlength]
          exact Nat.lt_succ_of_le hle
        obtain ⟨q, hq, hway⟩ := ih _ hlt run' rfl arcs' h'
        exact ⟨q, List.mem_cons_of_mem _ (hsub hq), hway⟩
      · exact ⟨q, List.mem_cons_of_mem _ hq, hway⟩

/-- What a way bars is still barred when its last point has been left. -/
theorem Barred.of_cons (h : r.Barred tokens (v.point tokens :: way) x)
    (hv : r.Barred tokens way v) (hsuffix : v.rest <:+ tokens) (hx : x.rest <:+ tokens) :
    r.Barred tokens way x := by
  intro run arcs hfinishes
  obtain ⟨q, hq, hway⟩ := h run arcs hfinishes
  rcases List.mem_cons.1 hway with rfl | hway
  · obtain ⟨run', arcs', h', -, hsub⟩ := hfinishes.exists_suffix hx hsuffix hq
    obtain ⟨q, hq, hway⟩ := hv run' arcs' h'
    exact ⟨q, hsub hq, hway⟩
  · exact ⟨q, hq, hway⟩

theorem Barred.cons (h : r.Barred tokens way x) (q : Nat × Nat) :
    r.Barred tokens (q :: way) x := by
  intro run arcs hfinishes
  obtain ⟨p, hp, hway⟩ := h run arcs hfinishes
  exact ⟨p, hp, List.mem_cons_of_mem _ hway⟩

/-! ### The way to a point -/

/-- The arcs of a point that have been tried lead to points that the way to it bars. -/
def Explored (r : StrictRecognizer) (tokens : List String) (frames : List Frame) (v : Visit)
    (tried : Nat) : Prop :=
  ∀ i < tried, ∀ arc u, (r.automaton.arcs v.state)[i]? = some arc → r.nextOf v arc = some u →
    r.Barred tokens (v.point tokens :: trail tokens frames) u

/-- A run leads by some frames to a point. No run finishes at the points before it, and what comes
after their earlier arcs has been searched. -/
inductive Way (r : StrictRecognizer) (tokens : List String) :
    List Frame → Visit → List Nat → List Automaton.Arc → Prop
  /-- The search begins at the start. -/
  | origin : Way r tokens [] (r.origin tokens) [] []
  /-- The way goes on along the arc that was tried last. -/
  | step {frames : List Frame} {v u : Visit} {run : List Nat} {arcs : List Automaton.Arc}
    {i : Nat} {arc : Automaton.Arc} (before : Way r tokens frames v run arcs)
    (stays : r.stops v = false) (explored : Explored r tokens frames v i)
    (here : (r.automaton.arcs v.state)[i]? = some arc) (next : r.nextOf v arc = some u) :
    Way r tokens (⟨v, i + 1⟩ :: frames) u (run ++ [i]) (arcs ++ [arc])

namespace Way

variable {frames : List Frame} {run : List Nat} {arcs : List Automaton.Arc}

theorem suffix (h : Way r tokens frames v run arcs) : v.rest <:+ tokens := by
  induction h with
  | origin => exact List.suffix_refl _
  | step _ _ _ _ next ih => exact suffix_of_nextOf ih next

theorem suffix_of_mem (h : Way r tokens frames v run arcs) {f : Frame} (hf : f ∈ frames) :
    f.visit.rest <:+ tokens := by
  induction h with
  | origin => cases hf
  | step before _ _ _ _ ih =>
    rcases List.mem_cons.1 hf with rfl | hf
    · exact before.suffix
    · exact ih hf

/-- A run that finishes at the last point is the end of one from the start. -/
theorem finishes (h : Way r tokens frames v run arcs) {run' : List Nat}
    {arcs' : List Automaton.Arc} (hrest : r.Finishes v.state v.rest run' arcs') :
    r.Finishes r.automaton.start tokens (run ++ run') (arcs ++ arcs') := by
  induction h generalizing run' arcs' with
  | origin => exact hrest
  | step _ _ _ here next ih =>
    rw [List.append_assoc, List.append_assoc]
    exact ih (finishes_cons_iff.2 ⟨here, _, next, hrest⟩)

/-- A run that goes on from the last point comes through the way first. -/
theorem points_append (h : Way r tokens frames v run arcs) (arcs' : List Automaton.Arc) :
    Automaton.points r.automaton.start 0 (arcs ++ arcs') =
      (trail tokens frames).reverse ++ Automaton.points v.state (v.point tokens).2 arcs' := by
  induction h generalizing arcs' with
  | origin =>
    rw [show ((r.origin tokens).point tokens).2 = 0 from Nat.sub_self _]
    rfl
  | step before _ _ _ next ih =>
    rw [List.append_assoc, List.singleton_append, ih, points_cons before.suffix next, trail,
      trail, List.map_cons, List.reverse_cons, List.append_assoc, List.singleton_append]

/-- What has been put out is the output of the run. -/
theorem output_eq (h : Way r tokens frames v run arcs) :
    v.output.reverse = (Utterance.ofArcs arcs).output := by
  induction h with
  | origin => rfl
  | @step _ v u _ _ _ arc _ _ _ _ next ih =>
    have houtput : u.output.reverse ++ (Utterance.ofArcs []).output =
        v.output.reverse ++ (Utterance.ofArcs [arc]).output := output_of_nextOf next
    rw [Utterance.ofArcs_append, Utterance.output_append, ← ih, ← houtput]
    exact (List.append_nil _).symm

/-- A run that finishes, and comes to no point twice, follows the way or comes after every run
that does. -/
theorem extends_or_lt (h : Way r tokens frames v run arcs) {run' : List Nat}
    {arcs' : List Automaton.Arc} (hfinishes : r.Finishes r.automaton.start tokens run' arcs')
    (hnodup : (Automaton.points r.automaton.start 0 arcs').Nodup) :
    (∃ run'' arcs'', run' = run ++ run'' ∧ arcs' = arcs ++ arcs'' ∧
      r.Finishes v.state v.rest run'' arcs'') ∨ ∀ more, run ++ more < run' := by
  induction h with
  | origin => exact .inl ⟨run', arcs', rfl, rfl, hfinishes⟩
  | @step frames v u run arcs i arc before stays explored here next ih =>
    rcases ih with ⟨rest, arcsRest, rfl, rfl, hrest⟩ | hlt
    · obtain ⟨⟨stop, hrun, hfinal⟩, -, hwords⟩ := id hrest
      cases hrun with
      | nil =>
        have hstops : r.stops v = true := stops_iff.2 ⟨hwords.symm, hfinal⟩
        rw [stays] at hstops
        cases hstops
      | @cons _ j _ arc' rest arcsRest first _ =>
        obtain ⟨-, w, hw, hbehind⟩ := finishes_cons_iff.1 hrest
        rcases Nat.lt_trichotomy j i with hless | rfl | hgreater
        · -- Behind an arc that was tried before, the run comes back to the way.
          obtain ⟨q, hq, hway⟩ := explored j hless arc' w first hw _ _ hbehind
          rw [before.points_append, points_cons before.suffix hw] at hnodup
          obtain ⟨-, hpoints, hdisjoint⟩ := List.nodup_append.1 hnodup
          rcases List.mem_cons.1 hway with rfl | hway
          · exact absurd hq (List.nodup_cons.1 hpoints).1
          · exact absurd rfl
              (hdisjoint q (List.mem_reverse.2 hway) q (List.mem_cons_of_mem _ hq))
        · cases here.symm.trans first
          cases next.symm.trans hw
          exact .inl ⟨rest, arcsRest, by simp, by simp, hbehind⟩
        · refine .inr fun more => ?_
          rw [List.append_assoc, List.singleton_append]
          exact List.append_left_lt (List.cons_lt_cons_iff.2 (.inl hgreater))
    · refine .inr fun more => ?_
      rw [List.append_assoc]
      exact hlt _

end Way

/-! ### The first run is found -/

/-- The output of the first run that finishes and comes to no point twice. -/
def IsFirstSimple (r : StrictRecognizer) (tokens : List String) (output : List Symbol) : Prop :=
  ∃ run arcs, r.Finishes r.automaton.start tokens run arcs ∧
    (Automaton.points r.automaton.start 0 arcs).Nodup ∧
    (∀ run' arcs', r.Finishes r.automaton.start tokens run' arcs' →
      (Automaton.points r.automaton.start 0 arcs').Nodup → ¬ run' < run) ∧
    output = (Utterance.ofArcs arcs).output

/-- A run that finishes at the end of a way is the first. -/
theorem Way.isFirstSimple {frames : List Frame} {run : List Nat} {arcs : List Automaton.Arc}
    (h : Way r tokens frames v run arcs) (hstops : r.stops v = true)
    (hnodup : (v.point tokens :: trail tokens frames).Nodup) :
    r.IsFirstSimple tokens v.output.reverse := by
  obtain ⟨hrest, hfinal⟩ := stops_iff.1 hstops
  have hhere : r.Finishes v.state v.rest [] [] :=
    ⟨⟨v.state, .nil _, hfinal⟩, by simp, hrest.symm⟩
  have hfinishes := h.finishes hhere
  have hpoints := h.points_append []
  rw [List.append_nil] at hfinishes hpoints
  rw [List.append_nil] at hfinishes
  refine ⟨run, arcs, hfinishes, ?_, fun run' arcs' h' hnodup' => ?_, h.output_eq⟩
  · rw [hpoints]
    have hreverse := (List.reverse_perm _).nodup_iff.2 hnodup
    rwa [List.reverse_cons] at hreverse
  · rcases h.extends_or_lt h' hnodup' with ⟨rest, _, rfl, -⟩ | hlt
    · exact List.not_lt.2 List.le_append_left
    · have hless := hlt []
      rw [List.append_nil] at hless
      exact List.lt_asymm hless

/-- What holds while the search is in a point. -/
structure Searching (r : StrictRecognizer) (tokens : List String) (last : Frame)
    (frames : List Frame) (seen : Marks n) : Prop where
  /-- The way leads there. -/
  way : ∃ run arcs, Way r tokens frames last.visit run arcs
  /-- No run finishes there at once. -/
  stays : r.stops last.visit = false
  /-- What comes after the arcs that have been tried has been searched. -/
  explored : Explored r tokens frames last.visit last.tried
  /-- The points of the way have been entered. -/
  marked : ∀ f ∈ last :: frames, seen.contains (f.visit.key (tokens.length + 1)) = true
  /-- The way comes to no point twice. -/
  nodup : (trail tokens (last :: frames)).Nodup
  /-- From a point that has been entered, nothing finishes without coming through the way. -/
  barred : ∀ v : Visit, v.state < r.automaton.size → v.rest <:+ tokens →
    seen.contains (v.key (tokens.length + 1)) = true →
    r.Barred tokens (trail tokens (last :: frames)) v

/-- The search is as it should be, or what it has found is. -/
def Sound (r : StrictRecognizer) (tokens : List String) : Search n ⊕ List Symbol → Prop
  | .inr output => r.IsFirstSimple tokens output
  | .inl ⟨[], _⟩ => True
  | .inl ⟨last :: frames, seen⟩ => Searching r tokens last frames seen

variable {last : Frame} {frames : List Frame}
  {seen : Marks (r.automaton.size * (tokens.length + 1))}

theorem Explored.succ {i : Nat} (h : Explored r tokens frames v i)
    (hi : ∀ arc u, (r.automaton.arcs v.state)[i]? = some arc → r.nextOf v arc = some u →
      r.Barred tokens (v.point tokens :: trail tokens frames) u) :
    Explored r tokens frames v (i + 1) := by
  intro j hj
  rcases Nat.lt_succ_iff_lt_or_eq.1 hj with hj | rfl
  · exact h j hj
  · exact hi

/-- Entering a new point at the end of a way keeps everything as it should be. -/
theorem sound_enter {run : List Nat} {arcs : List Automaton.Arc}
    (hway : Way r tokens frames u run arcs)
    (hnew : seen.isNew (u.key (tokens.length + 1)) = true)
    (hmarked : ∀ f ∈ frames, seen.contains (f.visit.key (tokens.length + 1)) = true)
    (hnodup : (trail tokens frames).Nodup)
    (hbarred : ∀ v : Visit, v.state < r.automaton.size → v.rest <:+ tokens →
      seen.contains (v.key (tokens.length + 1)) = true →
      r.Barred tokens (trail tokens frames) v) :
    r.Sound tokens (Search.enter r (tokens.length + 1) u frames seen) := by
  obtain ⟨hlt, hnot⟩ := Marks.isNew_iff.1 hnew
  -- The points of the way are marked, and this one is not.
  have hfresh : u.point tokens ∉ trail tokens frames := by
    intro hmem
    obtain ⟨f, hf, hpoint⟩ := List.mem_map.1 hmem
    have hkey : f.visit.key (tokens.length + 1) = u.key (tokens.length + 1) :=
      key_eq_of_point_eq (hway.suffix_of_mem hf) hway.suffix hpoint
    rw [← hkey, hmarked f hf] at hnot
    cases hnot
  have hnodup' := List.nodup_cons.2 ⟨hfresh, hnodup⟩
  rw [Search.enter]
  cases hstops : r.stops u with
  | true => exact hway.isFirstSimple hstops hnodup'
  | false =>
    refine ⟨⟨run, arcs, hway⟩, hstops, fun _ hi => absurd hi (Nat.not_lt_zero _), ?_, hnodup',
      fun v hstate hsuffix hmark => ?_⟩
    · refine List.forall_mem_cons.2 ⟨?_, fun f hf => ?_⟩
      · simp [hlt]
      · rw [Marks.contains_mark, hmarked f hf, Bool.or_true]
    · rw [Marks.contains_mark, Bool.or_eq_true, decide_eq_true_eq] at hmark
      rcases hmark with ⟨hkey, -⟩ | hmark
      · obtain ⟨hstates, hrests⟩ := key_injective hway.suffix hsuffix hkey
        refine barred_of_mem ?_
        rw [Visit.point, ← hstates, ← hrests]
        exact List.mem_cons_self
      · exact (hbarred v hstate hsuffix hmark).cons _

/-- Leaving a point, all arcs of which have been tried, keeps everything as it should be. -/
theorem Searching.leave (h : Searching r tokens last frames seen)
    (hnone : (r.automaton.arcs last.visit.state)[last.tried]? = none) :
    r.Sound tokens (.inl ⟨frames, seen⟩) := by
  obtain ⟨u, tried⟩ := last
  obtain ⟨run, arcs, hway⟩ := h.way
  have hsuffix := hway.suffix
  have hlast : r.Barred tokens (trail tokens frames) u := by
    refine barred_of_next hsuffix h.stays fun w hw => ?_
    obtain ⟨arc, harc, hnext⟩ := mem_next_iff.1 hw
    obtain ⟨i, hi⟩ := List.mem_iff_getElem?.1 harc
    obtain ⟨hlt, -⟩ := List.getElem?_eq_some_iff.1 hi
    exact h.explored i (Nat.lt_of_lt_of_le hlt (List.getElem?_eq_none_iff.1 hnone)) arc w hi hnext
  cases hway with
  | origin => trivial
  | step before stays explored here next =>
    refine ⟨⟨_, _, before⟩, stays, explored.succ fun arc' w hi hw => ?_,
      fun f hf => h.marked f (List.mem_cons_of_mem _ hf), (List.nodup_cons.1 h.nodup).2,
      fun v hstate hv hmark => (h.barred v hstate hv hmark).of_cons hlast hsuffix hv⟩
    cases here.symm.trans hi
    cases next.symm.trans hw
    exact hlast

/-- A turn keeps everything as it should be. -/
theorem Searching.turn (ha : r.automaton.WellFormed) (h : Searching r tokens last frames seen) :
    r.Sound tokens (Search.turn r (tokens.length + 1) last frames seen) := by
  obtain ⟨run, arcs, hway⟩ := h.way
  -- Trying an arc leaves the way as it is.
  have hback : (∀ arc u, (r.automaton.arcs last.visit.state)[last.tried]? = some arc →
      r.nextOf last.visit arc = some u → r.Barred tokens (trail tokens (last :: frames)) u) →
      Searching r tokens ⟨last.visit, last.tried + 1⟩ frames seen := fun hbarred =>
    ⟨⟨run, arcs, hway⟩, h.stays, h.explored.succ hbarred,
      List.forall_mem_cons.2 (List.forall_mem_cons.1 h.marked), h.nodup, h.barred⟩
  cases harc : (r.automaton.arcs last.visit.state)[last.tried]? with
  | none =>
    rw [Search.turn_of_none harc]
    exact h.leave harc
  | some arc =>
    cases hnext : r.nextOf last.visit arc with
    | none =>
      rw [Search.turn_of_blocked harc hnext]
      refine hback fun arc' u hi hu => ?_
      cases harc.symm.trans hi
      cases hnext.symm.trans hu
    | some u =>
      have hmem : u ∈ r.next last.visit := mem_next_iff.2 ⟨arc, List.mem_of_getElem? harc, hnext⟩
      obtain ⟨hstate, -⟩ := lt_of_mem_next ha hmem
      have hsuffix := suffix_of_nextOf hway.suffix hnext
      cases hnew : seen.isNew (u.key (tokens.length + 1)) with
      | true =>
        rw [Search.turn_of_new harc hnext hnew]
        exact sound_enter (hway.step h.stays h.explored harc hnext) hnew
          (List.forall_mem_cons.2 (List.forall_mem_cons.1 h.marked)) h.nodup h.barred
      | false =>
        rw [Search.turn_of_old harc hnext hnew]
        refine hback fun arc' w hi hw => ?_
        cases harc.symm.trans hi
        cases hnext.symm.trans hw
        refine h.barred u hstate hsuffix ?_
        have hlt := key_lt hstate hsuffix
        simpa [Marks.isNew, Marks.contains, hlt] using hnew

/-- A search that is as it should be finds the first run. -/
theorem Sound.of_ends (ha : r.automaton.WellFormed) {turns : Nat}
    {s : Search (r.automaton.size * (tokens.length + 1)) ⊕ List Symbol}
    {result : Option (List Symbol)} (hends : Search.Ends r (tokens.length + 1) turns s result)
    (h : r.Sound tokens s) : ∀ output, result = some output → r.IsFirstSimple tokens output := by
  induction hends with
  | found =>
    rintro _ ⟨⟩
    exact h
  | exhausted => nofun
  | turn _ ih => exact ih (Searching.turn ha h)

/-- The search ends in every automaton, in one way, after a number of turns that is bounded by the
states and arcs and by the words. It finds something exactly when a run over arcs that may be
taken consumes the words, and then the output of the first of those runs that come to no point
twice. -/
theorem search_exact (ha : r.automaton.WellFormed) (tokens : List String) :
    (∃ bound ≤ (r.automaton.size + r.automaton.arcCount) * (tokens.length + 1),
      ∀ turns result, Search.Ends r (tokens.length + 1) turns (Search.begin r tokens) result ↔
        turns = bound ∧ r.findPath tokens = result) ∧
    ((∃ output, r.findPath tokens = some output) ↔
      ∃ run arcs, r.Finishes r.automaton.start tokens run arcs) ∧
    ∀ output, r.findPath tokens = some output → r.IsFirstSimple tokens output := by
  obtain ⟨bound, hle, hends⟩ := Search.exists_ends_begin ha tokens
  refine ⟨⟨bound, hle, fun turns result => ⟨fun h => ?_, ?_⟩⟩, exists_findPath_iff ha,
    Sound.of_ends ha hends ?_⟩
  · exact h.unique hends |>.imp_right Eq.symm
  · rintro ⟨rfl, rfl⟩
    exact hends
  · exact sound_enter Way.origin
      (Marks.isNew_iff.2 ⟨key_lt ha.start_lt (List.suffix_refl _), Marks.contains_none⟩)
      (by simp) List.nodup_nil (fun _ _ _ hmark => by simp at hmark)

/-- Two states that lead to each other without a word, before one word that both consume. -/
def roundabout : Automaton where
  states := #[⟨[⟨none, none, 0, 1⟩, ⟨some "a", none, 0, 2⟩], none⟩,
    ⟨[⟨none, none, 0, 0⟩, ⟨some "a", some (.word "b"), 0, 2⟩], none⟩, ⟨[], some 0⟩]
  start := 0

theorem search_exact_roundabout :
    roundabout.WellFormed ∧ roundabout.isAcyclic = false ∧
      (new roundabout false none).findPath ["a"] = some [.word "b"] ∧
      (new roundabout false none).IsFirstSimple ["a"] [.word "b"] := by
  have hwell : roundabout.WellFormed := by
    have htarget : ∀ state < roundabout.size, ∀ arc ∈ roundabout.arcs state,
        arc.target < roundabout.size := by decide
    exact ⟨by decide, fun state arc harc =>
      htarget state (Automaton.lt_size_of_mem_arcs harc) arc harc⟩
  obtain ⟨⟨_, _, hends⟩, _, hfirst⟩ := search_exact (r := new roundabout false none) hwell ["a"]
  have hfind : (new roundabout false none).findPath ["a"] = some [.word "b"] :=
    ((hends 3 _).1 (.turn (.turn (.turn (.found _))))).2
  exact ⟨hwell, by decide +kernel, hfind, hfirst _ hfind⟩

end StrictRecognizer

end Phrasebook
