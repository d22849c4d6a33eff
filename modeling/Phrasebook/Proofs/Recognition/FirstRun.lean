import Phrasebook.Proofs.Automaton.Yield
import Phrasebook.Recognition.Strict

/-!
# Strict recognition finds the first run

The search marks each pair of a state and a rest of the words and comes to it only once. That
loses nothing where no state can come back to itself: what was marked before and can still
finish leads to the first point to be looked at that can finish, so that point is new.

* `StrictRecognizer.Finishes`: a run from a state consumes some words and stops in a final state.
* `StrictRecognizer.FirstAlive`: the first of some points from which a run finishes.
* `StrictRecognizer.IsFirst`: the output of the first run that finishes from some points.
* `StrictRecognizer.Ahead`: what is marked leads to what is looked at.
* `StrictRecognizer.isFirst_search`, `StrictRecognizer.findPath_spec`: what the search finds.
-/

namespace Phrasebook

namespace StrictRecognizer

variable {r : StrictRecognizer}

/-- A run over arcs that may be taken consumes exactly some words and stops in a final state. -/
structure Finishes (r : StrictRecognizer) (state : Nat) (rest : List String) (run : List Nat)
    (arcs : List Automaton.Arc) : Prop where
  /-- The run stops in a final state. -/
  stops : ∃ stop, r.automaton.Follows state run arcs stop ∧ r.automaton.isFinal stop = true
  /-- Every arc may be taken. -/
  allowed : ∀ arc ∈ arcs, arc.isAllowed r.filter = true
  /-- The words are consumed. -/
  words : (Utterance.ofArcs arcs).words = rest

/-- No run finishes. -/
def Dead (r : StrictRecognizer) (state : Nat) (rest : List String) : Prop :=
  ∀ run arcs, ¬ r.Finishes state rest run arcs

/-- The first of some points of the search from which a run finishes. -/
def FirstAlive (r : StrictRecognizer) (todo : List Visit) (v : Visit) : Prop :=
  ∃ pre post, todo = pre ++ v :: post ∧ (∀ u ∈ pre, r.Dead u.state u.rest) ∧
    ¬ r.Dead v.state v.rest

/-- The output of the first run that finishes from some points of the search: from the first point
that is not dead, the run that comes before all others. Without such a point there is none. -/
def IsFirst (r : StrictRecognizer) (todo : List Visit) : Option (List Symbol) → Prop
  | none => ∀ v ∈ todo, r.Dead v.state v.rest
  | some output => ∃ v run arcs, r.FirstAlive todo v ∧ r.Finishes v.state v.rest run arcs ∧
      (∀ run' arcs', r.Finishes v.state v.rest run' arcs' → ¬ run' < run) ∧
      output = v.output.reverse ++ (Utterance.ofArcs arcs).output

/-! ### Points from which a run finishes -/

theorem FirstAlive.mem {todo : List Visit} {v : Visit} (h : r.FirstAlive todo v) : v ∈ todo := by
  obtain ⟨pre, post, rfl, _, _⟩ := h
  exact List.mem_append_right _ List.mem_cons_self

/-- The first such point is the first point, or else the first point is dead. -/
theorem firstAlive_cons_iff {u v : Visit} {rest : List Visit} :
    r.FirstAlive (u :: rest) v ↔
      v = u ∧ ¬ r.Dead u.state u.rest ∨ r.Dead u.state u.rest ∧ r.FirstAlive rest v := by
  constructor
  · rintro ⟨pre, post, hsplit, hpre, hv⟩
    cases pre with
    | nil =>
      obtain ⟨rfl, rfl⟩ := List.cons.inj hsplit
      exact .inl ⟨rfl, hv⟩
    | cons first pre =>
      obtain ⟨rfl, rfl⟩ := List.cons.inj hsplit
      obtain ⟨hu, hpre⟩ := List.forall_mem_cons.1 hpre
      exact .inr ⟨hu, pre, post, rfl, hpre, hv⟩
  · rintro (⟨rfl, hv⟩ | ⟨hu, pre, post, rfl, hpre, hv⟩)
    · exact ⟨[], rest, rfl, by simp, hv⟩
    · exact ⟨u :: pre, post, rfl, List.forall_mem_cons.2 ⟨hu, hpre⟩, hv⟩

theorem firstAlive_append_iff {todo rest : List Visit} {v : Visit} :
    r.FirstAlive (todo ++ rest) v ↔
      r.FirstAlive todo v ∨ (∀ u ∈ todo, r.Dead u.state u.rest) ∧ r.FirstAlive rest v := by
  induction todo with
  | nil =>
    have hnil : ¬ r.FirstAlive [] v := fun h => List.not_mem_nil h.mem
    simp [hnil]
  | cons u todo ih =>
    rw [List.cons_append, firstAlive_cons_iff, firstAlive_cons_iff, ih, List.forall_mem_cons]
    tauto

/-- If not all points are dead, there is a first one that is not. -/
theorem exists_firstAlive {todo : List Visit} (h : ¬ ∀ u ∈ todo, r.Dead u.state u.rest) :
    ∃ v, r.FirstAlive todo v := by
  induction todo with
  | nil => simp at h
  | cons u todo ih =>
    by_cases hu : r.Dead u.state u.rest
    · obtain ⟨v, hv⟩ := ih fun hall => h (List.forall_mem_cons.2 ⟨hu, hall⟩)
      exact ⟨v, firstAlive_cons_iff.2 (.inr ⟨hu, hv⟩)⟩
    · exact ⟨u, firstAlive_cons_iff.2 (.inl ⟨rfl, hu⟩)⟩

/-! ### One step -/

/-- What comes after the arcs of a point, in their order. -/
def next (r : StrictRecognizer) (v : Visit) : List Visit :=
  (r.automaton.allowedArcs r.filter v.state).filterMap v.follow?

/-- What comes after an arc that may be taken. -/
def nextOf (r : StrictRecognizer) (v : Visit) (arc : Automaton.Arc) : Option Visit :=
  if arc.isAllowed r.filter = true then v.follow? arc else none

theorem next_eq_filterMap {v : Visit} :
    r.next v = (r.automaton.arcs v.state).filterMap (r.nextOf v) := by
  rw [next, Automaton.allowedArcs, List.filterMap_filter]
  rfl

theorem mem_next_iff {u v : Visit} :
    u ∈ r.next v ↔ ∃ arc ∈ r.automaton.arcs v.state, r.nextOf v arc = some u := by
  rw [next_eq_filterMap, List.mem_filterMap]

theorem nextOf_eq_some_iff {u v : Visit} {arc : Automaton.Arc} :
    r.nextOf v arc = some u ↔ arc.isAllowed r.filter = true ∧ u.state = arc.target ∧
      v.rest = arc.input.toList ++ u.rest ∧ u.output = arc.output.toList ++ v.output := by
  obtain ⟨state, rest, output⟩ := u
  rw [nextOf, Visit.follow?]
  by_cases hallowed : arc.isAllowed r.filter = true
  · rw [if_pos hallowed]
    cases hinput : arc.input with
    | none => simp [hallowed, eq_comm]
    | some word =>
      cases hrest : v.rest with
      | nil => simp
      | cons token rest => by_cases heq : word = token <;> simp [hallowed, heq, eq_comm]
  · simp [hallowed]

/-- A run that begins with an arc finishes when what comes after it does. -/
theorem finishes_cons_iff {v : Visit} {i : Nat} {run : List Nat} {arc : Automaton.Arc}
    {arcs : List Automaton.Arc} :
    r.Finishes v.state v.rest (i :: run) (arc :: arcs) ↔
      (r.automaton.arcs v.state)[i]? = some arc ∧
        ∃ u, r.nextOf v arc = some u ∧ r.Finishes u.state u.rest run arcs := by
  constructor
  · rintro ⟨⟨stop, hrun, hfinal⟩, hallowed, hwords⟩
    obtain ⟨harc, hallowed⟩ := List.forall_mem_cons.1 hallowed
    rw [Utterance.ofArcs_cons, Utterance.words_append] at hwords
    cases hrun with
    | cons first rest =>
      exact ⟨first, ⟨arc.target, _, _⟩, nextOf_eq_some_iff.2 ⟨harc, rfl, hwords.symm, rfl⟩,
        ⟨stop, rest, hfinal⟩, hallowed, rfl⟩
  · rintro ⟨first, u, hu, ⟨stop, hrun, hfinal⟩, hallowed, hwords⟩
    obtain ⟨harc, hstate, hrest, _⟩ := nextOf_eq_some_iff.1 hu
    rw [hstate] at hrun
    refine ⟨⟨stop, .cons first hrun, hfinal⟩, List.forall_mem_cons.2 ⟨harc, hallowed⟩, ?_⟩
    rw [Utterance.ofArcs_cons, Utterance.words_append, hwords, hrest]
    rfl

/-- The output along an arc is kept. -/
theorem output_of_nextOf {u v : Visit} {arc : Automaton.Arc} {arcs : List Automaton.Arc}
    (h : r.nextOf v arc = some u) :
    u.output.reverse ++ (Utterance.ofArcs arcs).output =
      v.output.reverse ++ (Utterance.ofArcs (arc :: arcs)).output := by
  obtain ⟨-, -, -, houtput⟩ := nextOf_eq_some_iff.1 h
  rw [Utterance.ofArcs_cons, Utterance.output_append, Utterance.ofArc, houtput,
    List.reverse_append, List.append_assoc]
  cases arc.output <;> rfl

/-- A point is dead when no run finishes there at once and all points that come after it are. -/
theorem dead_of_next {v : Visit}
    (hstop : ¬ (v.rest = [] ∧ r.automaton.isFinal v.state = true))
    (hnext : ∀ u ∈ r.next v, r.Dead u.state u.rest) : r.Dead v.state v.rest := by
  intro run arcs h
  obtain ⟨⟨stop, hrun, hfinal⟩, hallowed, hwords⟩ := id h
  cases hrun with
  | nil => exact hstop ⟨hwords.symm, hfinal⟩
  | @cons _ i _ arc run arcs first rest =>
    obtain ⟨_, u, hu, hfinishes⟩ := finishes_cons_iff.1 h
    exact hnext u (mem_next_iff.2 ⟨arc, List.mem_of_getElem? first, hu⟩) run arcs hfinishes

/-- The first point behind an arc that is not dead is that of the first such arc. -/
theorem FirstAlive.exists_arc {u v : Visit} {arcs : List Automaton.Arc}
    (h : r.FirstAlive (arcs.filterMap (r.nextOf v)) u) :
    ∃ (i : Nat) (arc : Automaton.Arc), arcs[i]? = some arc ∧ r.nextOf v arc = some u ∧
      ∀ j < i, ∀ arc' w,
        arcs[j]? = some arc' → r.nextOf v arc' = some w → r.Dead w.state w.rest := by
  obtain ⟨pre, post, hsplit, hpre, _⟩ := h
  obtain ⟨before, after, rfl, hbefore, hafter⟩ := List.filterMap_eq_append_iff.1 hsplit
  obtain ⟨passed, arc, behind, rfl, hpassed, hnext, -⟩ := List.filterMap_eq_cons_iff.1 hafter
  rw [← List.append_assoc]
  refine ⟨(before ++ passed).length, arc, ?_, hnext, fun j hj arc' w hw hnext' => ?_⟩
  · rw [List.getElem?_append_right (Nat.le_refl _), Nat.sub_self, List.getElem?_cons_zero]
  · -- An earlier arc leads to one of the dead points, or nowhere.
    rw [List.getElem?_append_left hj] at hw
    rcases List.mem_append.1 (List.mem_of_getElem? hw) with hmem | hmem
    · exact hpre w (hbefore ▸ List.mem_filterMap.2 ⟨arc', hmem, hnext'⟩)
    · rw [hpassed arc' hmem] at hnext'
      cases hnext'

/-- A run that stops at once is the first. -/
theorem isFirst_of_stop {v : Visit} {rest : List Visit} (hrest : v.rest = [])
    (hfinal : r.automaton.isFinal v.state = true) :
    r.IsFirst (v :: rest) (some v.output.reverse) := by
  have hstops : r.Finishes v.state v.rest [] [] :=
    ⟨⟨v.state, .nil _, hfinal⟩, by simp, hrest.symm⟩
  refine ⟨v, [], [], firstAlive_cons_iff.2 (.inl ⟨rfl, fun hdead => hdead _ _ hstops⟩), hstops,
    fun run' _ _ => List.not_lt_nil run', ?_⟩
  rw [Utterance.ofArcs_nil]
  exact (List.append_nil _).symm

/-- A dead point does not matter. -/
theorem IsFirst.of_dead {v : Visit} {rest : List Visit} {found : Option (List Symbol)}
    (h : r.IsFirst rest found) (hv : r.Dead v.state v.rest) : r.IsFirst (v :: rest) found := by
  cases found with
  | none => exact List.forall_mem_cons.2 ⟨hv, h⟩
  | some output =>
    obtain ⟨u, run, arcs, hu, hfirst⟩ := h
    exact ⟨u, run, arcs, firstAlive_cons_iff.2 (.inr ⟨hv, hu⟩), hfirst⟩

/-- A point stands for those that come after it, unless a run stops there. -/
theorem IsFirst.of_next {v : Visit} {rest : List Visit} {found : Option (List Symbol)}
    (h : r.IsFirst (r.next v ++ rest) found)
    (hstop : ¬ (v.rest = [] ∧ r.automaton.isFinal v.state = true)) :
    r.IsFirst (v :: rest) found := by
  cases found with
  | none =>
    obtain ⟨hnext, hrest⟩ := List.forall_mem_append.1 h
    exact List.forall_mem_cons.2 ⟨dead_of_next hstop hnext, hrest⟩
  | some output =>
    obtain ⟨u, run, arcs, hu, hfinishes, hleast, rfl⟩ := h
    rcases firstAlive_append_iff.1 hu with hu | ⟨hdead, hu⟩
    · -- The arc that leads to the point has the earliest place of all whose targets can finish.
      rw [next_eq_filterMap] at hu
      obtain ⟨i, arc, hi, hu, hearlier⟩ := hu.exists_arc
      have hrun : r.Finishes v.state v.rest (i :: run) (arc :: arcs) :=
        finishes_cons_iff.2 ⟨hi, u, hu, hfinishes⟩
      refine ⟨v, i :: run, arc :: arcs,
        firstAlive_cons_iff.2 (.inl ⟨rfl, fun hdead => hdead _ _ hrun⟩), hrun,
        fun run' arcs' h hlt => ?_, output_of_nextOf hu⟩
      obtain ⟨⟨stop, hrun', hfinal⟩, _, hwords⟩ := id h
      cases hrun' with
      | nil => exact hstop ⟨hwords.symm, hfinal⟩
      | @cons _ j _ arc' run' arcs' hj _ =>
        obtain ⟨_, w, hw, hfinishes'⟩ := finishes_cons_iff.1 h
        rcases List.cons_lt_cons_iff.1 hlt with hless | ⟨rfl, hless⟩
        · exact hearlier j hless arc' w hj hw _ _ hfinishes'
        · cases hi.symm.trans hj
          cases hu.symm.trans hw
          exact hleast _ _ hfinishes' hless
    · -- Nothing that comes after the point can finish.
      have hv := dead_of_next hstop hdead
      exact IsFirst.of_dead ⟨u, run, arcs, hu, hfinishes, hleast, rfl⟩ hv

/-! ### The search -/

/-- What is marked and can still finish leads, by some arc at least, to the first point to be
looked at that can finish. -/
def Ahead {n : Nat} (r : StrictRecognizer) (tokens : List String) (todo : List Visit)
    (seen : Marks n) : Prop :=
  ∀ v : Visit, v.state < r.automaton.size → v.rest <:+ tokens →
    seen.contains (v.key (tokens.length + 1)) = true → ¬ r.Dead v.state v.rest →
    ∃ u, r.FirstAlive todo u ∧
      ∃ w ∈ r.automaton.targets v.state, Graph.Reaches r.automaton.targets w u.state

/-- The points to be looked at are at states that can be reached, with a rest of the words. -/
def Valid (r : StrictRecognizer) (tokens : List String) (todo : List Visit) : Prop :=
  ∀ v ∈ todo, v.state < r.automaton.size ∧ v.rest <:+ tokens ∧
    Graph.Reaches r.automaton.targets r.automaton.start v.state

theorem key_lt {tokens : List String} {v : Visit} {size : Nat} (hstate : v.state < size)
    (hrest : v.rest <:+ tokens) :
    v.key (tokens.length + 1) < size * (tokens.length + 1) := by
  have hlength := hrest.length_le
  calc v.state * (tokens.length + 1) + v.rest.length
      < v.state * (tokens.length + 1) + (tokens.length + 1) := by omega
    _ = (v.state + 1) * (tokens.length + 1) := (Nat.succ_mul _ _).symm
    _ ≤ size * (tokens.length + 1) := Nat.mul_le_mul_right _ hstate

/-- Points with the same number have the same state and the same rest. -/
theorem key_injective {tokens : List String} {u v : Visit} (hu : u.rest <:+ tokens)
    (hv : v.rest <:+ tokens) (h : u.key (tokens.length + 1) = v.key (tokens.length + 1)) :
    u.state = v.state ∧ u.rest = v.rest := by
  have hulength := Nat.lt_succ_of_le hu.length_le
  have hvlength := Nat.lt_succ_of_le hv.length_le
  rw [Visit.key, Visit.key] at h
  have hmod := congrArg (· % (tokens.length + 1)) h
  simp only [Nat.mul_add_mod_self_right, Nat.mod_eq_of_lt hulength,
    Nat.mod_eq_of_lt hvlength] at hmod
  have hstate : u.state = v.state := by
    rw [hmod] at h
    exact Nat.eq_of_mul_eq_mul_right (Nat.succ_pos _) (Nat.add_right_cancel h)
  exact ⟨hstate, (List.suffix_of_suffix_length_le hu hv (Nat.le_of_eq hmod)).eq_of_length hmod⟩

theorem mem_targets_of_mem_next {u v : Visit} (h : u ∈ r.next v) :
    u.state ∈ r.automaton.targets v.state := by
  obtain ⟨arc, harc, hu⟩ := mem_next_iff.1 h
  exact List.mem_map.2 ⟨arc, harc, (nextOf_eq_some_iff.1 hu).2.1.symm⟩

/-- What comes after a point is at a state, with a rest of the words that are left there. -/
theorem lt_of_mem_next {u v : Visit} (ha : r.automaton.WellFormed) (h : u ∈ r.next v) :
    u.state < r.automaton.size ∧ u.rest <:+ v.rest := by
  obtain ⟨arc, harc, hu⟩ := mem_next_iff.1 h
  obtain ⟨-, htarget, hwords, -⟩ := nextOf_eq_some_iff.1 hu
  exact ⟨htarget ▸ ha.target_lt _ arc harc, hwords ▸ List.suffix_append _ _⟩

/-- What comes after a point is valid. -/
theorem Valid.next {tokens : List String} {v : Visit} {rest : List Visit}
    (ha : r.automaton.WellFormed) (h : r.Valid tokens (v :: rest)) :
    r.Valid tokens (r.next v ++ rest) := by
  obtain ⟨⟨hstate, hsuffix, hreach⟩, hrest⟩ := List.forall_mem_cons.1 h
  refine List.forall_mem_append.2 ⟨fun u hu => ?_, hrest⟩
  obtain ⟨hustate, husuffix⟩ := lt_of_mem_next ha hu
  exact ⟨hustate, husuffix.trans hsuffix, hreach.tail (mem_targets_of_mem_next hu)⟩

/-- What comes after a dead point is dead. -/
theorem Dead.of_mem_next {u v : Visit} (hv : r.Dead v.state v.rest) (h : u ∈ r.next v) :
    r.Dead u.state u.rest := by
  obtain ⟨arc, harc, hu⟩ := mem_next_iff.1 h
  obtain ⟨i, hi⟩ := List.mem_iff_getElem?.1 harc
  exact fun run arcs hfinishes => hv _ _ (finishes_cons_iff.2 ⟨hi, u, hu, hfinishes⟩)

/-- Looking at a new point keeps what is ahead. -/
theorem Ahead.next {tokens : List String} {v : Visit} {rest : List Visit} {n : Nat}
    {seen : Marks n} (h : r.Ahead tokens (v :: rest) seen) (hsuffix : v.rest <:+ tokens)
    (hstop : ¬ (v.rest = [] ∧ r.automaton.isFinal v.state = true)) :
    r.Ahead tokens (r.next v ++ rest) (seen.mark (v.key (tokens.length + 1))) := by
  intro p hstate hprest hmark hp
  rw [Marks.contains_mark, Bool.or_eq_true, decide_eq_true_eq] at hmark
  rcases hmark with ⟨hkey, _⟩ | hmark
  · -- The new point itself leads to the first one behind it that can finish.
    obtain ⟨hstates, hrests⟩ := key_injective hsuffix hprest hkey
    rw [← hstates, ← hrests] at hp
    obtain ⟨u, hu⟩ := exists_firstAlive fun hall => hp (dead_of_next hstop hall)
    rw [← hstates]
    exact ⟨u, firstAlive_append_iff.2 (.inl hu), u.state, mem_targets_of_mem_next hu.mem, .refl _⟩
  · obtain ⟨u, hu, w, hw, hreach⟩ := h p hstate hprest hmark hp
    rcases firstAlive_cons_iff.1 hu with ⟨rfl, halive⟩ | ⟨hdead, hu⟩
    · -- What leads to the new point leads on from there.
      obtain ⟨u', hu'⟩ := exists_firstAlive fun hall => halive (dead_of_next hstop hall)
      exact ⟨u', firstAlive_append_iff.2 (.inl hu'), w, hw,
        hreach.tail (mem_targets_of_mem_next hu'.mem)⟩
    · have hbehind : ∀ x ∈ r.next v, r.Dead x.state x.rest := fun x hx => hdead.of_mem_next hx
      exact ⟨u, firstAlive_append_iff.2 (.inr ⟨hbehind, hu⟩), w, hw, hreach⟩

/-- The search finds the output of the first run that finishes, where no state that can be
reached comes back to itself. -/
theorem isFirst_search {tokens : List String} {todo : List Visit}
    {seen : Marks (r.automaton.size * (tokens.length + 1))} (ha : r.automaton.WellFormed)
    (hacyclic : Graph.AcyclicFrom r.automaton.targets r.automaton.start)
    (hvalid : r.Valid tokens todo) (hahead : r.Ahead tokens todo seen) :
    r.IsFirst todo (r.search (tokens.length + 1) todo seen) := by
  fun_induction r.search (tokens.length + 1) todo seen with
  | case1 => simp [IsFirst]
  | case2 seen v rest hnew hstop =>
    rw [Bool.and_eq_true, List.isEmpty_iff] at hstop
    exact isFirst_of_stop hstop.1 hstop.2
  | case3 seen v rest hnew hstop next ih =>
    rw [Bool.and_eq_true, List.isEmpty_iff] at hstop
    have hsuffix := (hvalid v List.mem_cons_self).2.1
    exact (ih (hvalid.next ha) (hahead.next hsuffix hstop)).of_next hstop
  | case4 seen v rest hold ih =>
    obtain ⟨⟨hstate, hsuffix, hreach⟩, hrest⟩ := List.forall_mem_cons.1 hvalid
    have hmark : seen.contains (v.key (tokens.length + 1)) = true := by
      have hlt := key_lt hstate hsuffix
      simpa [Marks.isNew, Marks.contains, hlt] using hold
    -- A marked point that can finish would lead back to itself.
    have hdead : r.Dead v.state v.rest := by
      refine Classical.byContradiction fun hv => ?_
      obtain ⟨u, hu, w, hw, back⟩ := hahead v hstate hsuffix hmark hv
      rcases firstAlive_cons_iff.1 hu with ⟨rfl, _⟩ | ⟨hdead, _⟩
      · exact hacyclic _ hreach ⟨w, hw, back⟩
      · exact hv hdead
    refine (ih hrest fun p hpstate hprest hpmark hp => ?_).of_dead hdead
    obtain ⟨u, hu, hbehind⟩ := hahead p hpstate hprest hpmark hp
    rcases firstAlive_cons_iff.1 hu with ⟨rfl, halive⟩ | ⟨_, hu⟩
    · exact absurd hdead halive
    · exact ⟨u, hu, hbehind⟩

/-- What is found is the output of the first accepted run over arcs that may be taken that
consumes the words, and nothing is found only without such a run. -/
theorem findPath_spec (ha : r.automaton.WellFormed)
    (hacyclic : Graph.AcyclicFrom r.automaton.targets r.automaton.start) (tokens : List String) :
    match r.findPath tokens with
    | none => ∀ run arcs, ¬ r.Finishes r.automaton.start tokens run arcs
    | some output => ∃ run arcs, r.Finishes r.automaton.start tokens run arcs ∧
        (∀ run' arcs', r.Finishes r.automaton.start tokens run' arcs' → ¬ run' < run) ∧
        output = (Utterance.ofArcs arcs).output := by
  have hfirst : r.IsFirst [⟨r.automaton.start, tokens, []⟩]
      (r.search (tokens.length + 1) _ (.none _)) := isFirst_search ha hacyclic
    (List.forall_mem_singleton.2 ⟨ha.start_lt, List.suffix_refl _, .refl _⟩)
    (fun p _ _ hmark _ => by simp at hmark)
  rw [findPath]
  split
  · next hfound =>
    rw [hfound] at hfirst
    exact hfirst _ List.mem_cons_self
  · next output hfound =>
    rw [hfound] at hfirst
    obtain ⟨v, run, arcs, hv, hfinishes, hleast, rfl⟩ := hfirst
    obtain rfl := List.mem_singleton.1 hv.mem
    exact ⟨run, arcs, hfinishes, hleast, rfl⟩

end StrictRecognizer

end Phrasebook
