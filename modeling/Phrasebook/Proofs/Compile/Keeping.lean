import Phrasebook.Proofs.Compile.Success

/-!
# What a compiler keeps

A compiler keeps each automaton as soon as it is built, and looks in its store for what it does
not remember. Along the order in which a grammar is built it remembers everything that it looks
for. So nothing is ever read from the store, whatever is in it, and the outcome is that of working
everything out first and keeping it afterwards.

* `Grammar.needs_of_mem_uses`: a node needs what its templates refer to.
* `Compiler.building_eq`: along a schedule everything is built and kept, and nothing is read.
* `Compiler.keep`: keeping what a grammar has been compiled to.
* `Compiler.fst_compile_eq_keep`: a compilation removes the automaton of all intents, works
  everything out and keeps it.
-/

namespace Phrasebook

namespace Grammar

variable {P : Template → Prop} {grammar : Grammar} {slots : Slots} {needed node : Node}

/-- What is found under a qualified name is a rule of one of the sections. -/
theorem exists_of_rule? {qualified owner : String} {body : Template}
    (h : grammar.rule? qualified = some (owner, body)) :
    ∃ s ∈ grammar, s.intent = owner ∧ ∃ entry ∈ s.rules.entries,
      s.ruleNode entry.1 = .rule qualified ∧ entry.2 = body := by
  simp only [rule?, Option.bind_eq_bind, Option.bind_eq_some_iff, Prod.exists] at h
  obtain ⟨owner', rule, hcut, s, hsection, body', hbody, heq⟩ := h
  cases heq
  have hintent : s.intent = owner := by simpa using List.find?_some hsection
  refine ⟨s, List.mem_of_find?_eq_some hsection, hintent, _, Table.mem_of_find? hbody, ?_, rfl⟩
  rw [Section.ruleNode, hintent]
  refine congrArg Node.rule (String.toList_inj.1 ?_)
  simpa using (Text.cut_eq_some_iff.1 hcut).1.symm

/-- A node needs what its templates refer to. -/
theorem needs_of_mem_uses (hslots : slots.Holds P) (h : needed ∈ grammar.uses slots node) :
    grammar.Needs needed node := by
  cases node with
  | slot name =>
    rw [uses] at h
    split at h
    · cases h
    · next values hvalues =>
      -- The values of a slot refer to nothing.
      obtain ⟨r, hr, -⟩ := List.mem_map.1 h
      rw [Template.mentionsAll_eq_flatMap] at hr
      obtain ⟨t, ht, hr⟩ := List.mem_flatMap.1 hr
      rw [(Table.Holds.find? hslots hvalues t ht).2] at hr
      cases hr
  | rule qualified =>
    rw [uses] at h
    split at h
    · cases h
    · next owner body hrule =>
      obtain ⟨r, hr, rfl⟩ := List.mem_map.1 h
      obtain ⟨s, hs, rfl, entry, hentry, hnode, rfl⟩ := exists_of_rule? hrule
      refine ⟨⟨.rule qualified, s.intent, r⟩, List.mem_flatMap.2 ⟨s, hs, ?_⟩, rfl⟩
      refine List.mem_append_left _ (List.mem_flatMap.2 ⟨entry, hentry, ?_⟩)
      rw [hnode]
      exact List.mem_map_of_mem hr
  | intent name =>
    rw [uses] at h
    split at h
    · cases h
    · next s hsection =>
      obtain ⟨r, hr, rfl⟩ := List.mem_map.1 h
      obtain rfl : s.intent = name := by simpa using List.find?_some hsection
      refine ⟨⟨.intent s.intent, s.intent, r⟩,
        List.mem_flatMap.2 ⟨s, List.mem_of_find?_eq_some hsection, ?_⟩, rfl⟩
      rw [Section.template, Template.mentions, Template.mentionsAll_eq_flatMap] at hr
      obtain ⟨t, ht, hr⟩ := List.mem_flatMap.1 hr
      exact List.mem_append_right _ (List.mem_flatMap.2 ⟨t, ht, List.mem_map_of_mem hr⟩)

end Grammar

namespace Compiler

variable {m : Type → Type} [Monad m] [LawfulMonad m] [Files m] {c : Compiler}
  {grammar : Grammar} {slots : Slots} {order rest : List Node}

/-! ### Building and keeping -/

/-- Keeps the automaton of a node. -/
def keepPart (c : Compiler) (part : Node × Automaton) : ExceptT Error m Unit :=
  c.withStore fun store => store.write part.1.artifactName part.2

/-- Keeps what a grammar has been compiled to. -/
def keep (c : Compiler) (compiled : Compiled) : ExceptT Error m Unit := do
  forM compiled.parts c.keepPart
  c.withStore fun store => store.writeMerged compiled.merged

variable {P : Template → Prop} (hgrammar : Section.Proper P grammar) (hslots : slots.Holds P)
include hgrammar hslots

/-- Along a schedule every node is built from what the compiler remembers, and then kept. -/
theorem building_eq (hschedule : grammar.IsSchedule slots order)
    (h : c.built.map Prod.fst ++ rest = order) :
    ∃ parts, (rest.foldlM (fun parts node => do
        return parts ++ [(node, ← grammar.buildNode slots parts node)]) c.built) =
          .ok (c.built ++ parts) ∧
      (building grammar slots c rest : ExceptT Error m Compiler) =
        forM parts c.keepPart >>= fun _ => pure { c with built := c.built ++ parts } := by
  -- By induction on what is left of the schedule: what stands before it has been built.
  induction rest generalizing c with
  | nil =>
    refine ⟨[], by rw [List.append_nil]; rfl, ?_⟩
    rw [building_nil, List.append_nil, List.forM_nil, pure_bind]
  | cons node rest ih =>
    have hbuilt : ∀ needed, grammar.Needs needed node →
        ∃ a, Parts.resolve c.built needed = .ok a := fun needed hneeds =>
      Parts.exists_resolve (hschedule.precedes _ node rest h.symm needed hneeds)
    obtain ⟨a, ha⟩ := Grammar.exists_buildNode_of_names hgrammar hslots
      (hschedule.names node (h ▸ by simp)) hbuilt
    have hnode : (c.buildNode grammar slots node : ExceptT Error m Automaton) =
        c.keepPart (node, a) >>= fun _ => pure a := by
      -- What the node refers to is needed, so that the compiler remembers it.
      rw [buildNode_eq fun needed hneeded =>
        .inr (hbuilt needed (Grammar.needs_of_mem_uses hslots hneeded)), ha]
      exact pure_bind a _
    obtain ⟨parts, hparts, heq⟩ := @ih { c with built := c.built ++ [(node, a)] } (by simpa using h)
    refine ⟨(node, a) :: parts, ?_, ?_⟩
    · rw [List.foldlM_cons, ha, List.append_cons]
      exact hparts
    · rw [building_cons, hnode, bind_assoc, List.forM_cons, bind_assoc, List.append_cons]
      refine bind_congr fun _ => ?_
      rw [pure_bind, heq]
      rfl

/-- A compiler that remembers nothing works everything out before it keeps anything. -/
theorem fst_compileWords_eq_keep (hbuilt : c.built = []) :
    Prod.fst <$> (c.compileWords grammar slots : m (Except Error Compiled × Compiler)) =
      (settled (grammar.compileWords slots) >>= fun compiled =>
        c.keep compiled >>= fun _ => pure compiled).run := by
  rw [fst_compileWords_eq_building]
  refine congrArg ExceptT.run ?_
  cases horder : grammar.buildOrder slots with
  | error e =>
    have hcompile : grammar.compileWords slots = .error e := congrArg (· >>= _) horder
    rw [hcompile, settled_error_bind, settled_error_bind]
  | ok order =>
    have hschedule := Grammar.isSchedule_of_buildOrder hgrammar horder
    obtain ⟨parts, hparts, hbuilding⟩ := @building_eq m _ _ _ c _ _ order order _ hgrammar hslots
      hschedule (by rw [hbuilt]; rfl)
    obtain ⟨compiled, hcompile, hnodes⟩ := Grammar.exists_compileWords hgrammar hslots horder
    rw [hcompile, settled_ok_bind, settled_ok_bind, hbuilding, bind_assoc, keep, bind_assoc]
    obtain ⟨order', horder', hcompile⟩ := bind_eq_ok_iff.1 hcompile
    cases horder.symm.trans horder'
    obtain ⟨built, hbuild, hcompile⟩ := bind_eq_ok_iff.1 hcompile
    rw [hbuilt] at hparts
    cases hparts.symm.trans hbuild
    obtain ⟨intents, hintents, hcompile⟩ := bind_eq_ok_iff.1 hcompile
    cases hcompile
    refine bind_congr fun _ => ?_
    rw [pure_bind, merge_eq, hbuilt, hintents, settled_ok_bind]
    · rfl
    · exact fun s hs => .inr (Parts.exists_resolve (hbuilt ▸ hnodes ▸ hschedule.intent_mem s hs))

omit hgrammar hslots in
/-- A compilation removes the automaton of all intents, works everything out and then keeps it.
Nothing is read from the store. -/
theorem fst_compile_eq_keep {allowed : Option WordSet} {text : String}
    (hgrammar : Grammar.ofTextWith allowed text = .ok grammar) (hslots : slots.Defined) :
    Prod.fst <$> (c.compile grammar slots : m (Except Error Compiled × Compiler)) =
      (c.withStore Store.removeMerged >>= fun _ =>
        settled (grammar.compile c.casing slots) >>= fun compiled =>
          c.keep compiled >>= fun _ => pure compiled).run := by
  have hproper := Section.proper_mapWords_of_ofTextWith c.casing.apply hgrammar
  have hholds := hslots.holds_mapWords c.casing.apply
  rw [compile, ExceptT.run_bind, map_bind]
  refine bind_congr fun removed => ?_
  cases removed with
  | error e => exact map_pure _ _
  | ok _ => exact @fst_compileWords_eq_keep m _ _ _ { c with built := [] } _ _ _ hproper hholds rfl

end Compiler

end Phrasebook
