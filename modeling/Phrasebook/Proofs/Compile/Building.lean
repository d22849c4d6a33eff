import Phrasebook.Compiler
import Phrasebook.Proofs.Compile.Meaning

/-!
# What a compiler builds

A compiler looks for what a template refers to, first among what it has built and then in its
store. When all of that has been built, or when there is no store, nothing is read from a file, and
what the compiler builds is what the grammar comes to by itself.

* `Template.build_settled`: a template is built without doing anything else when what it refers to
  is found so.
* `Grammar.uses`: what a node refers to.
* `Compiler.buildNode_eq`: a node is built from what was built before, and then kept.
* `Compiler.building`: building some nodes, as one computation.
* `Compiler.fst_compile`: the outcome of a compilation without a store.
-/

namespace Phrasebook

/-! ### Templates -/

namespace Template

variable {m : Type → Type} [Monad m] [LawfulMonad m] {resolve : Node → Except Error Automaton}
  {find : Node → ExceptT Error m Automaton} {intent : String}

mutual

/-- When what a template refers to is found without doing anything else, so is its automaton. -/
theorem build_settled {t : Template}
    (h : ∀ r ∈ t.mentions,
      find (.ofReference intent r) = settled (resolve (.ofReference intent r))) :
    t.build find intent = settled (t.build resolve intent) := by
  match t with
  | word text substitution => rfl
  | sequence items =>
    rw [build, build, settled_bind, buildAll_settled h]
    rfl
  | alternation branches =>
    rw [build, build, settled_bind, buildAll_settled h]
    rfl
  | optional inner =>
    rw [build, build, settled_bind, build_settled (t := inner) h]
    rfl
  | ruleRef name => exact h _ List.mem_cons_self
  | slotRef name =>
    have hfind := h _ List.mem_cons_self
    rw [Node.ofReference] at hfind
    rw [build, build, settled_bind, hfind]
    rfl
  | tagged inner tag =>
    rcases eq_slotRef_or_ne inner with ⟨name, rfl⟩ | hne
    · have hfind := h _ List.mem_cons_self
      rw [Node.ofReference] at hfind
      rw [build, build, settled_bind, hfind]
      rfl
    · rw [build_tagged_of_ne hne, build_tagged_of_ne hne, settled_bind,
        build_settled (t := inner) h]
      rfl
  | substituted inner value =>
    rw [build, build, settled_bind, build_settled (t := inner) h]
    rfl

theorem buildAll_settled {ts : List Template}
    (h : ∀ r ∈ mentionsAll ts,
      find (.ofReference intent r) = settled (resolve (.ofReference intent r))) :
    buildAll find intent ts = settled (buildAll resolve intent ts) := by
  match ts with
  | [] => rfl
  | t :: ts =>
    rw [buildAll, buildAll, settled_bind, build_settled fun r hr => h r (List.mem_append_left _ hr)]
    refine bind_congr fun a => ?_
    rw [settled_bind, buildAll_settled fun r hr => h r (List.mem_append_right _ hr)]
    rfl

end

end Template

/-! ### Nodes -/

namespace Grammar

/-- What the templates of a node refer to. -/
def uses (grammar : Grammar) (slots : Slots) : Node → List Node
  | .slot name =>
    match slots.find? name with
    | none => []
    | some values => (Template.mentionsAll values).map (.ofReference ("$" ++ name))
  | .rule qualified =>
    match grammar.rule? qualified with
    | none => []
    | some (owner, body) => body.mentions.map (.ofReference owner)
  | .intent name =>
    match grammar.section? name with
    | none => []
    | some s => s.template.mentions.map (.ofReference name)

/-- When everything that a node refers to is found without doing anything else, so is its
automaton. -/
theorem buildNodeWith_settled {m : Type → Type} [Monad m] [LawfulMonad m] {grammar : Grammar}
    {slots : Slots} {resolve : Node → Except Error Automaton}
    {find : Node → ExceptT Error m Automaton} {node : Node}
    (h : ∀ needed ∈ grammar.uses slots node, find needed = settled (resolve needed)) :
    grammar.buildNodeWith slots find node =
      settled (grammar.buildNodeWith slots resolve node) := by
  cases node with
  | slot name =>
    rw [uses] at h
    rw [buildNodeWith, buildNodeWith]
    cases hfind : slots.find? name with
    | none => rfl
    | some values =>
      simp only [hfind, List.forall_mem_map] at h
      change _ = settled (_ >>= _)
      rw [settled_bind, ← Template.buildAll_settled h]
      rfl
  | rule qualified =>
    rw [uses] at h
    rw [buildNodeWith, buildNodeWith]
    cases hfind : grammar.rule? qualified with
    | none => rfl
    | some found =>
      simp only [hfind, List.forall_mem_map] at h
      exact Template.build_settled h
  | intent name =>
    rw [uses] at h
    rw [buildNodeWith, buildNodeWith]
    cases hfind : grammar.section? name with
    | none => rfl
    | some s =>
      simp only [hfind, List.forall_mem_map] at h
      exact Template.build_settled h

end Grammar

/-! ### Compilers -/

namespace Compiler

variable {m : Type → Type} [Monad m] [LawfulMonad m] [Files m] {c : Compiler}
  {grammar : Grammar} {slots : Slots}

/-- A node has been built, or there is no store in which it could be found. -/
def Knows (c : Compiler) (node : Node) : Prop :=
  c.store = none ∨ ∃ a, Parts.resolve c.built node = .ok a

omit [LawfulMonad m] in
/-- No file is read for what is known. -/
theorem fetch_eq {node : Node} (h : c.Knows node) :
    (c.fetch node : ExceptT Error m Automaton) = settled (Parts.resolve c.built node) := by
  rw [Knows, Parts.resolve] at h
  rw [fetch, Parts.resolve]
  cases hfind : Parts.find? c.built node with
  | some a => rfl
  | none =>
    rw [hfind] at h
    have hstore : c.store = none := by
      refine h.resolve_right ?_
      rintro ⟨a, ha⟩
      cases ha
    rw [hstore]
    rfl

/-- A node is built from what was built before, and then kept. -/
theorem buildNode_eq {node : Node} (h : ∀ needed ∈ grammar.uses slots node, c.Knows needed) :
    (c.buildNode grammar slots node : ExceptT Error m Automaton) = do
      let a ← settled (grammar.buildNode slots c.built node)
      c.withStore fun store => store.write node.artifactName a
      return a := by
  rw [buildNode, Grammar.buildNodeWith_settled fun needed hneeded => fetch_eq (h needed hneeded)]
  rfl

/-- The automata of the intents that have been built are put together, and the result is kept. -/
theorem merge_eq (h : ∀ s ∈ grammar, c.Knows (.intent s.intent)) :
    (c.merge grammar : ExceptT Error m Compiled) = do
      let intents ← settled (grammar.mapM fun s => do
        return (s.intent, ← Parts.resolve c.built (.intent s.intent)))
      c.withStore fun store => store.writeMerged (mergeIntents intents)
      return { intents, merged := mergeIntents intents, parts := c.built } := by
  rw [merge, mapM_settled fun s hs => ?_]
  rw [fetch_eq (h s hs), settled_bind]
  rfl

/-! ### Compilation as one computation -/

/-- Building some nodes one after another; the result is the compiler afterwards. -/
def building (grammar : Grammar) (slots : Slots) (c : Compiler) (order : List Node) :
    ExceptT Error m Compiler :=
  ExceptT.mk ((fun outcome => outcome.1.map fun _ => outcome.2) <$>
    buildNodes grammar slots c order)

theorem building_nil : (building grammar slots c [] : ExceptT Error m Compiler) = pure c :=
  ExceptT.ext (map_pure _ _)

theorem building_cons (node : Node) (order : List Node) :
    (building grammar slots c (node :: order) : ExceptT Error m Compiler) =
      c.buildNode grammar slots node >>= fun a =>
        building grammar slots { c with built := c.built ++ [(node, a)] } order := by
  refine ExceptT.ext ?_
  rw [building, buildNodes, ExceptT.run_bind, ExceptT.run_mk, map_bind]
  refine bind_congr fun built => ?_
  cases built with
  | error e => exact map_pure _ _
  | ok a => rfl

/-- The nodes are put in order, then built, and then the automata of the intents are put
together. -/
theorem fst_compileWords_eq_building (c : Compiler) (grammar : Grammar) (slots : Slots) :
    Prod.fst <$> (c.compileWords grammar slots : m (Except Error Compiled × Compiler)) =
      (settled (grammar.buildOrder slots) >>= fun order =>
        building grammar slots c order >>= fun c => c.merge grammar).run := by
  rw [compileWords, ExceptT.run_bind, run_settled, pure_bind]
  cases grammar.buildOrder slots with
  | error e => exact map_pure _ _
  | ok order =>
    dsimp only
    rw [building, ExceptT.run_bind, ExceptT.run_mk, map_bind, bind_map_left]
    refine bind_congr fun outcome => ?_
    obtain ⟨built, c'⟩ := outcome
    cases built with
    | error e => exact map_pure _ _
    | ok _ => exact (map_bind _ _ _).trans ((bind_congr fun _ => map_pure _ _).trans (bind_pure _))

/-! ### Without a store -/

section WithoutStore

variable (hstore : c.store = none)
include hstore

omit [LawfulMonad m] [Files m] in
theorem withStore_eq (action : Store → ExceptT Error m Unit) :
    c.withStore action = pure () := by
  rw [withStore, hstore]

/-- Without a store, a node is built as the grammar builds it. -/
theorem buildNode_eq_settled (node : Node) :
    (c.buildNode grammar slots node : ExceptT Error m Automaton) =
      settled (grammar.buildNode slots c.built node) := by
  rw [buildNode_eq fun _ _ => .inl hstore]
  simp only [withStore_eq hstore, pure_bind, bind_pure]

/-- So are all nodes, one after another. -/
theorem building_eq_settled (order : List Node) :
    (building grammar slots c order : ExceptT Error m Compiler) =
      settled (order.foldlM (fun parts node => do
        return parts ++ [(node, ← grammar.buildNode slots parts node)]) c.built) >>= fun parts =>
          pure { c with built := parts } := by
  induction order generalizing c with
  | nil =>
    change _ = settled (.ok c.built) >>= _
    rw [building_nil, settled_ok_bind]
  | cons node order ih =>
    rw [building_cons, buildNode_eq_settled hstore, List.foldlM_cons]
    cases grammar.buildNode slots c.built node with
    | error e => exact (settled_error_bind e _).trans (settled_error_bind e _).symm
    | ok a =>
      rw [settled_ok_bind]
      exact @ih { c with built := c.built ++ [(node, a)] } hstore

/-- Without a store, nothing is done but to put the automata of the intents together. -/
theorem merge_eq_settled (grammar : Grammar) :
    (c.merge grammar : ExceptT Error m Compiled) = settled do
      let intents ← grammar.mapM fun s => do
        return (s.intent, ← Parts.resolve c.built (.intent s.intent))
      return { intents, merged := mergeIntents intents, parts := c.built } := by
  rw [merge_eq fun _ _ => .inl hstore, settled_bind]
  simp only [withStore_eq hstore, pure_bind]
  rfl

theorem fst_compileWords (hbuilt : c.built = []) (grammar : Grammar) (slots : Slots) :
    Prod.fst <$> (c.compileWords grammar slots : m (Except Error Compiled × Compiler)) =
      pure (grammar.compileWords slots) := by
  rw [fst_compileWords_eq_building, ← run_settled]
  refine congrArg ExceptT.run ?_
  rw [Grammar.compileWords, settled_bind]
  refine bind_congr fun order => ?_
  rw [settled_bind, building_eq_settled hstore order, bind_assoc, hbuilt]
  refine bind_congr fun parts => ?_
  rw [pure_bind]
  exact @merge_eq_settled m _ _ _ { c with built := parts } hstore grammar

/-- Without a store, what a grammar compiles to is all that there is to the outcome. -/
theorem fst_compile (grammar : Grammar) (slots : Slots) :
    Prod.fst <$> (c.compile grammar slots : m (Except Error Compiled × Compiler)) =
      pure (grammar.compile c.casing slots) := by
  rw [compile, withStore_eq hstore, ExceptT.run_pure, pure_bind]
  exact @fst_compileWords m _ _ _ { c with built := [] } hstore rfl _ _

end WithoutStore

end Compiler

end Phrasebook
