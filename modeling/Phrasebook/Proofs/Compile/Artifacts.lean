import Phrasebook.Proofs.Compile.Keeping
import Phrasebook.Proofs.Respelling.Compile
import Phrasebook.Proofs.Store

/-!
# What a compilation leaves in a store

The automaton of all intents is removed first and kept last. So when a compilation fails after
that, there is none; and when it succeeds, the store holds exactly what the grammar was compiled
to. What was in the store before has no influence on the outcome.

* `Grammar.artifactName_inj`: different nodes have different names.
* `Store.Holds`: a store holds what a grammar was compiled to.
* `Compiler.leaves_of_compile`: what is in the store after a compilation.
* `Compiler.outcome_eq_of_refusals_eq`: what was in the store before makes no difference.
-/

namespace Phrasebook

/-! ### Names of nodes -/

namespace Grammar

variable {P : Template → Prop} {grammar : Grammar} {slots : Slots} {node other : Node}

/-- The nodes of a grammar are its intents and their rules. -/
theorem exists_of_mem_nodes (h : node ∈ grammar.nodes) : ∃ s ∈ grammar,
    node = .intent s.intent ∨ ∃ entry ∈ s.rules.entries, node = s.ruleNode entry.1 := by
  obtain ⟨s, hs, h⟩ := List.mem_flatMap.1 h
  refine ⟨s, hs, (List.mem_cons.1 h).imp_right fun h => ?_⟩
  obtain ⟨rule, hrule, rfl⟩ := List.mem_map.1 h
  obtain ⟨entry, hentry, rfl⟩ := List.mem_map.1 hrule
  exact ⟨entry, hentry, rfl⟩

section

variable (hgrammar : Section.Proper P grammar)
include hgrammar

/-- The names of intents and rules consist of identifiers and points. -/
theorem isIdentifierChar_or_eq_of_mem (hnode : node ∈ grammar.nodes) {c : Char}
    (hc : c ∈ node.artifactName.toList) : isIdentifierChar c = true ∨ c = '.' := by
  obtain ⟨s, hs, rfl | ⟨entry, hentry, rfl⟩⟩ := exists_of_mem_nodes hnode
  · exact .inl (isIdentifierChar_of_mem (hgrammar.named s hs).intent hc)
  · rw [Section.ruleNode, Node.artifactName, String.toList_append, String.toList_append,
      List.mem_append, List.mem_append] at hc
    rcases hc with (hc | hc) | hc
    · exact .inl (isIdentifierChar_of_mem (hgrammar.named s hs).intent hc)
    · exact .inr (by simpa using hc)
    · exact .inl (isIdentifierChar_of_mem ((hgrammar.named s hs).rules entry hentry) hc)

/-- The names of intents are those without a point. -/
theorem mem_artifactName_iff (hnode : node ∈ grammar.nodes) :
    '.' ∈ node.artifactName.toList ↔ ∃ qualified, node = .rule qualified := by
  obtain ⟨s, hs, rfl | ⟨entry, hentry, rfl⟩⟩ := exists_of_mem_nodes hnode
  · exact iff_of_false (hgrammar.pointless s hs).intent fun ⟨_, h⟩ => by cases h
  · exact iff_of_true (by simp [Section.ruleNode, Node.artifactName]) ⟨_, rfl⟩

/-- No other character is in the name of an intent or a rule. -/
theorem not_mem_artifactName (hnode : node ∈ grammar.nodes) {c : Char}
    (hchar : isIdentifierChar c = false) (hc : c ≠ '.') : c ∉ node.artifactName.toList := by
  intro hmem
  rcases isIdentifierChar_or_eq_of_mem hgrammar hnode hmem with h | h
  · exact Bool.false_ne_true (hchar.symm.trans h)
  · exact hc h

/-- Different nodes have different names. -/
theorem artifactName_inj (hnode : grammar.Names slots node) (hother : grammar.Names slots other)
    (h : node.artifactName = other.artifactName) : node = other := by
  have hdollar : ∀ name, '$' ∈ (Node.slot name).artifactName.toList := fun name => by
    simp [Node.artifactName]
  rcases hnode with hnode | ⟨name, rfl, -⟩ <;> rcases hother with hother | ⟨name', rfl, -⟩
  · -- A point tells rules from intents.
    have hpoint := mem_artifactName_iff hgrammar hnode
    rw [h, mem_artifactName_iff hgrammar hother] at hpoint
    obtain ⟨s, -, rfl | ⟨entry, -, rfl⟩⟩ := exists_of_mem_nodes hnode <;>
      obtain ⟨s', -, rfl | ⟨entry', -, rfl⟩⟩ := exists_of_mem_nodes hother
    · exact congrArg Node.intent h
    · obtain ⟨_, hrule⟩ := hpoint.1 ⟨_, rfl⟩
      cases hrule
    · obtain ⟨_, hrule⟩ := hpoint.2 ⟨_, rfl⟩
      cases hrule
    · exact congrArg Node.rule h
  · exact absurd (h ▸ hdollar name') (not_mem_artifactName hgrammar hnode (by decide) (by decide))
  · exact absurd (h ▸ hdollar name) (not_mem_artifactName hgrammar hother (by decide) (by decide))
  · have hname : name = name' := by
      rw [Node.artifactName, Node.artifactName] at h
      exact String.toList_inj.1 (by simpa using congrArg String.toList h)
    rw [hname]

/-- No name holds a slash when that of no slot does. -/
theorem slashless_artifactName (hslots : ∀ name ∈ slots.names, '/' ∉ name.toList)
    (hnode : grammar.Names slots node) : '/' ∉ node.artifactName.toList := by
  rcases hnode with hnode | ⟨name, rfl, hname⟩
  · exact not_mem_artifactName hgrammar hnode (by decide) (by decide)
  · have hslash := hslots name (Table.isSome_find?_iff.1 hname)
    simpa [Node.artifactName] using hslash

end

end Grammar

/-! ### Keeping what was compiled -/

/-- A store holds what a grammar was compiled to: the automaton of each node and that of all
intents. -/
structure Store.Holds (store : Store) (compiled : Compiled) (tree : FileTree) : Prop where
  /-- The automaton of all intents is in its file. -/
  merged : tree.read store.mergedPath = .ok compiled.merged.text.toUTF8
  /-- The automaton of each node is in the file of its name. -/
  parts : ∀ part ∈ compiled.parts,
    tree.read (store.pathFor part.1.artifactName) = .ok part.2.text.toUTF8

namespace Compiler

open Disk

variable {c : Compiler} {store : Store} {disk after : Disk}

theorem keepPart_eq {m : Type → Type} [Monad m] [Files m] (hstore : c.store = some store)
    (part : Node × Automaton) : (c.keepPart part : ExceptT Error m Unit) =
      Store.writeFile (store.pathFor part.1.artifactName) part.2 := by
  rw [keepPart, withStore, hstore]
  rfl

theorem keep_eq {m : Type → Type} [Monad m] [Files m] (hstore : c.store = some store)
    (compiled : Compiled) : (c.keep compiled : ExceptT Error m Unit) =
      forM compiled.parts c.keepPart >>= fun _ =>
        Store.writeFile store.mergedPath compiled.merged := by
  rw [keep, withStore, hstore]
  rfl

/-- The files that are written to keep some automata. -/
def filesForParts (store : Store) (parts : Parts) : List String :=
  parts.flatMap fun part => Store.filesFor (store.pathFor part.1.artifactName)

theorem changesAt_keepParts (hstore : c.store = some store) (parts : Parts) :
    ChangesAt (filesForParts store parts) (forM parts c.keepPart) := by
  refine ChangesAt.forM fun part => ?_
  rw [keepPart_eq hstore]
  exact Store.changesAt_writeFile _ _

/-- The names of the automata are different and hold no slash. -/
structure Named (parts : Parts) : Prop where
  /-- They are different. -/
  distinct : (parts.map fun part => part.1.artifactName).Nodup
  /-- None holds a slash. -/
  slashless : ∀ part ∈ parts, '/' ∉ part.1.artifactName.toList

theorem apart_filesForParts_merged {parts : Parts}
    (hslashless : ∀ part ∈ parts, '/' ∉ part.1.artifactName.toList) :
    ∀ p ∈ filesForParts store parts, ∀ q ∈ Store.filesFor store.mergedPath, Path.Apart p q := by
  intro p hp
  obtain ⟨part, hpart, hp⟩ := List.mem_flatMap.1 hp
  exact Store.apart_filesFor_merged (hslashless part hpart) store p hp

/-- Once some automata have been kept, their texts are in their files. -/
theorem read_of_keepParts (hstore : c.store = some store) {parts : Parts} (hparts : Named parts)
    (h : perform (forM parts c.keepPart).run disk = (.ok (), after)) :
    ∀ part ∈ parts, after.tree.read (store.pathFor part.1.artifactName) =
      .ok part.2.text.toUTF8 := by
  obtain ⟨hdistinct, hslashless⟩ := hparts
  induction parts generalizing disk with
  | nil => exact fun _ h => absurd h List.not_mem_nil
  | cons part parts ih =>
    obtain ⟨hpart, hrest⟩ := List.forall_mem_cons.1 hslashless
    obtain ⟨hnew, hdistinct⟩ := List.nodup_cons.1 hdistinct
    rw [List.forM_cons] at h
    obtain ⟨_, middle, hfirst, hlater⟩ := perform_run_bind_eq_ok_iff.1 h
    refine List.forall_mem_cons.2 ⟨?_, ih hlater hdistinct hrest⟩
    rw [keepPart_eq hstore] at hfirst
    -- What is kept later goes to other files.
    have hchanged := changesAt_keepParts hstore parts middle
    rw [hlater] at hchanged
    refine (hchanged.read_iff fun p hp => ?_).2 (Store.read_of_writeFile hfirst)
    obtain ⟨other, hother, hp⟩ := List.mem_flatMap.1 hp
    refine Store.apart_filesFor (hrest other hother) hpart (fun heq => hnew ?_) store p hp _
      (by simp [Store.filesFor])
    exact List.mem_map.2 ⟨other, hother, heq⟩

variable {compiled : Compiled}

/-- Once everything has been kept, the store holds it. -/
theorem holds_of_keep (hstore : c.store = some store) (hparts : Named compiled.parts)
    (h : perform (c.keep compiled).run disk = (.ok (), after)) :
    store.Holds compiled after.tree := by
  rw [keep_eq hstore] at h
  obtain ⟨_, middle, hfirst, hmerged⟩ := perform_run_bind_eq_ok_iff.1 h
  refine ⟨Store.read_of_writeFile hmerged, fun part hpart => ?_⟩
  have hchanged := Store.changesAt_writeFile store.mergedPath compiled.merged middle
  rw [hmerged] at hchanged
  refine (hchanged.read_iff fun p hp => ?_).2 (read_of_keepParts hstore hparts hfirst part hpart)
  exact (Store.apart_filesFor_merged (hparts.slashless part hpart) store _
    (by simp [Store.filesFor]) p hp).symm

/-- As long as not everything has been kept, there is no automaton of all intents where there was
none. -/
theorem absent_of_keep_error {e : Error} (hstore : c.store = some store)
    (hparts : Named compiled.parts) (h : perform (c.keep compiled).run disk = (.error e, after))
    (habsent : disk.tree.Absent store.mergedPath) : after.tree.Absent store.mergedPath := by
  have hkept := changesAt_keepParts hstore compiled.parts disk
  have hapart : ∀ p ∈ filesForParts store compiled.parts, Path.Apart p store.mergedPath :=
    fun p hp => apart_filesForParts_merged hparts.slashless p hp _ (by simp [Store.filesFor])
  rw [keep_eq hstore] at h
  rcases perform_run_bind_eq_error_iff.1 h with hrun | ⟨_, middle, hrun, hmerged⟩
  · rw [hrun] at hkept
    exact hkept.absent hapart habsent
  · rw [hrun] at hkept
    -- The last file could not be written, so that only its draft may be there.
    refine (Store.changedAt_of_writeFile_error hmerged).absent (fun p hp => ?_)
      (hkept.absent hapart habsent)
    rw [List.mem_singleton.1 hp]
    exact Store.apart_draft_merged store

/-- What is done with the store succeeds unless a change is refused, if it does so with any. -/
theorem comesTo_withStore (c : Compiler) {action : Store → ExceptT Error (StateM Disk) Unit}
    (h : ∀ store, ComesTo (action store) (.ok ())) : ComesTo (c.withStore action) (.ok ()) := by
  rw [withStore]
  split
  · exact .of_settled (.ok ())
  · exact h _

theorem comesTo_keep (c : Compiler) (compiled : Compiled) :
    ComesTo (c.keep compiled) (.ok ()) := by
  have hpart : ∀ part, ComesTo (c.keepPart part) (.ok ()) := fun part =>
    c.comesTo_withStore fun store => Store.comesTo_writeFile _ _
  exact (ComesTo.forM hpart).bind (c.comesTo_withStore fun store => Store.comesTo_writeFile _ _)

section Compile

variable {allowed : Option WordSet} {text : String} {grammar : Grammar} {slots : Slots}
  (hgrammar : Grammar.ofTextWith allowed text = .ok grammar) (hslots : slots.Defined)
include hgrammar hslots

/-- What a compilation gives and what it leaves on the disk. -/
theorem perform_compile (c : Compiler) (disk : Disk) :
    ((perform (c.compile grammar slots) disk).1.1, (perform (c.compile grammar slots) disk).2) =
      perform (c.withStore Store.removeMerged >>= fun _ =>
        settled (grammar.compile c.casing slots) >>= fun compiled =>
          c.keep compiled >>= fun _ => pure compiled).run disk :=
  congrArg (perform · disk) (fst_compile_eq_keep hgrammar hslots)

/-- The nodes of what a grammar is compiled to are those of the build order. -/
theorem buildOrder_of_compile {casing : Casing} (h : grammar.compile casing slots = .ok compiled) :
    grammar.buildOrder slots = .ok (compiled.parts.map Prod.fst) := by
  obtain ⟨order, horder, -⟩ := bind_eq_ok_iff.1 h
  obtain ⟨compiled', hcompile, hnodes⟩ := Grammar.exists_compileWords
    (Section.proper_mapWords_of_ofTextWith casing.apply hgrammar)
    (hslots.holds_mapWords casing.apply) horder
  cases hcompile.symm.trans h
  rw [hnodes, ← horder, Grammar.buildOrder_mapWords]

omit hslots in
/-- Along the build order all nodes have a name of their own, without a slash. -/
theorem distinct_of_buildOrder (hnames : ∀ name ∈ slots.names, '/' ∉ name.toList)
    {order : List Node} (h : grammar.buildOrder slots = .ok order) :
    (order.map Node.artifactName).Nodup ∧ ∀ node ∈ order, '/' ∉ node.artifactName.toList := by
  have hproper := Section.proper_of_ofTextWith (P := fun _ => True) (fun _ _ _ _ _ => trivial)
    hgrammar
  have hschedule := Grammar.isSchedule_of_buildOrder hproper h
  refine ⟨hschedule.nodup.map_on fun a ha b hb heq => ?_, fun node hnode => ?_⟩
  · exact Grammar.artifactName_inj hproper (hschedule.names a ha) (hschedule.names b hb) heq
  · exact Grammar.slashless_artifactName hproper hnames (hschedule.names node hnode)

omit hslots in
/-- Different nodes have different files. -/
theorem apart_of_buildOrder (hnames : ∀ name ∈ slots.names, '/' ∉ name.toList)
    {order : List Node} (h : grammar.buildOrder slots = .ok order) (store : Store) {a b : Node}
    (ha : a ∈ order) (hb : b ∈ order) (hne : a ≠ b) :
    ∀ p ∈ Store.filesFor (store.pathFor a.artifactName),
      ∀ q ∈ Store.filesFor (store.pathFor b.artifactName), Path.Apart p q := by
  obtain ⟨hdistinct, hslashless⟩ := distinct_of_buildOrder hgrammar hnames h
  refine Store.apart_filesFor (hslashless a ha) (hslashless b hb) (fun heq => hne ?_) store
  exact List.inj_on_of_nodup_map hdistinct ha hb heq

theorem named_of_compile (hnames : ∀ name ∈ slots.names, '/' ∉ name.toList) {casing : Casing}
    (h : grammar.compile casing slots = .ok compiled) : Named compiled.parts := by
  obtain ⟨hdistinct, hslashless⟩ := distinct_of_buildOrder hgrammar hnames
    (buildOrder_of_compile hgrammar hslots h)
  rw [List.map_map] at hdistinct
  exact ⟨hdistinct, fun part hpart => hslashless _ (List.mem_map_of_mem hpart)⟩

/-- After the automaton of all intents has been removed, a compilation keeps what the grammar comes
to. -/
theorem perform_compile_of_removed {c : Compiler} {store : Store} (hstore : c.store = some store)
    {disk cleared : Disk} (hremoved : perform store.removeMerged.run disk = (.ok (), cleared)) :
    ((perform (c.compile grammar slots) disk).1.1, (perform (c.compile grammar slots) disk).2) =
      match grammar.compile c.casing slots with
      | .error e => (.error e, cleared)
      | .ok compiled => perform (c.keep compiled >>= fun _ => pure compiled).run cleared := by
  rw [perform_compile hgrammar hslots, perform_run_bind, withStore, hstore]
  dsimp only
  rw [hremoved]
  cases grammar.compile c.casing slots with
  | error e => rw [settled_error_bind]; rfl
  | ok compiled => rw [settled_ok_bind]

section Removed

variable (hnames : ∀ name ∈ slots.names, '/' ∉ name.toList) {c c' : Compiler} {store : Store}
  (hstore : c.store = some store) {disk cleared after : Disk}
  (hremoved : perform store.removeMerged.run disk = (.ok (), cleared))
include hnames hstore hremoved

/-- A compilation that fails leaves no automaton of all intents. -/
theorem absent_of_compile {e : Error}
    (h : perform (c.compile grammar slots) disk = ((.error e, c'), after)) :
    after.tree.Absent store.mergedPath := by
  have habsent := Store.absent_of_removeMerged hremoved
  have hrun := perform_compile_of_removed hgrammar hslots hstore hremoved
  rw [h] at hrun
  cases hcompile : grammar.compile c.casing slots with
  | error e' =>
    rw [hcompile] at hrun
    cases hrun
    exact habsent
  | ok compiled =>
    rw [hcompile] at hrun
    rcases perform_run_bind_eq_error_iff.1 hrun.symm with hkeep | ⟨_, _, -, hdone⟩
    · exact absent_of_keep_error hstore
        (named_of_compile hgrammar hslots hnames hcompile) hkeep habsent
    · cases hdone

/-- A compilation that succeeds leaves what it gives. -/
theorem holds_of_compile
    (h : perform (c.compile grammar slots) disk = ((.ok compiled, c'), after)) :
    store.Holds compiled after.tree ∧
      grammar.buildOrder slots = .ok (compiled.parts.map Prod.fst) := by
  have hrun := perform_compile_of_removed hgrammar hslots hstore hremoved
  rw [h] at hrun
  cases hcompile : grammar.compile c.casing slots with
  | error e =>
    rw [hcompile] at hrun
    cases hrun
  | ok compiled' =>
    rw [hcompile] at hrun
    obtain ⟨_, kept, hkeep, hdone⟩ := perform_run_bind_eq_ok_iff.1 hrun.symm
    cases hdone
    exact ⟨holds_of_keep hstore (named_of_compile hgrammar hslots hnames hcompile) hkeep,
      buildOrder_of_compile hgrammar hslots hcompile⟩

end Removed

/-- Once the automaton of all intents has been removed, a compilation that fails leaves none, and
one that succeeds leaves exactly what it gives: its own automaton of all intents, and under the
name of each node of the build order the automaton of the node. Different nodes never share a file
or a draft. -/
theorem leaves_of_compile (hnames : ∀ name ∈ slots.names, '/' ∉ name.toList) {c : Compiler}
    {store : Store} (hstore : c.store = some store) {disk : Disk}
    (hremoved : (perform store.removeMerged.run disk).1 = .ok ()) :
    ∃ outcome c' after, perform (c.compile grammar slots) disk = ((outcome, c'), after) ∧
      (∀ e, outcome = .error e → after.tree.Absent store.mergedPath) ∧
      (∀ compiled, outcome = .ok compiled → store.Holds compiled after.tree ∧
        grammar.buildOrder slots = .ok (compiled.parts.map Prod.fst)) ∧
      ∀ order, grammar.buildOrder slots = .ok order → ∀ a ∈ order, ∀ b ∈ order, a ≠ b →
        ∀ p ∈ Store.filesFor (store.pathFor a.artifactName),
          ∀ q ∈ Store.filesFor (store.pathFor b.artifactName), Path.Apart p q := by
  have hcleared : perform store.removeMerged.run disk =
      (.ok (), (perform store.removeMerged.run disk).2) := Prod.ext hremoved rfl
  rcases hrun : perform (c.compile grammar slots) disk with ⟨⟨outcome, c'⟩, after⟩
  refine ⟨outcome, c', after, rfl, ?_, ?_, fun order horder a ha b hb hne =>
    apart_of_buildOrder hgrammar hnames horder store ha hb hne⟩
  · rintro e rfl
    exact absent_of_compile hgrammar hslots hnames hstore hcleared hrun
  · rintro compiled rfl
    exact holds_of_compile hgrammar hslots hnames hstore hcleared hrun

omit hgrammar hslots in
/-- The disk is full when the first draft is made, and the automaton of all intents of an earlier
grammar was there. -/
theorem leaves_of_compile_full : ∃ grammar slots, ∃ disk : Disk,
    Grammar.ofTextWith none "[Lights]\nstate = on | off\nturn <state> $room" = .ok grammar ∧
    Slots.define ∅ "room" ["kitchen", "living room:hall"] = .ok slots ∧
    disk.tree.isFile "s/intent.fst.json" = true ∧
    (∀ name ∈ slots.names, '/' ∉ name.toList) ∧
    (perform (Store.removeMerged ⟨"s"⟩).run disk).1 = .ok () ∧
    ∃ outcome c' after,
      perform ((new .upper (some ⟨"s"⟩)).compile grammar slots) disk = ((outcome, c'), after) ∧
      (∀ e, outcome = .error e → after.tree.Absent (Store.mergedPath ⟨"s"⟩)) ∧
      (∀ compiled, outcome = .ok compiled → Store.Holds ⟨"s"⟩ compiled after.tree ∧
        grammar.buildOrder slots = .ok (compiled.parts.map Prod.fst)) ∧
      ∀ order, grammar.buildOrder slots = .ok order → ∀ a ∈ order, ∀ b ∈ order, a ≠ b →
        ∀ p ∈ Store.filesFor (Store.pathFor ⟨"s"⟩ a.artifactName),
          ∀ q ∈ Store.filesFor (Store.pathFor ⟨"s"⟩ b.artifactName), Path.Apart p q := by
  have hread : (do
      let grammar ← Grammar.ofTextWith none "[Lights]\nstate = on | off\nturn <state> $room"
      let slots ← Slots.define ∅ "room" ["kitchen", "living room:hall"]
      return (grammar.length, slots.names)) = .ok (1, ["room"]) := by decide +kernel
  obtain ⟨grammar, hgrammar, hread⟩ := bind_eq_ok_iff.1 hread
  obtain ⟨slots, hslots, hread⟩ := bind_eq_ok_iff.1 hread
  have hnames : slots.names = ["room"] := (Prod.mk.inj (Except.ok.inj hread)).2
  let disk : Disk := ⟨.ofList [("s", .directory), ("s/fsts", .directory),
    ("s/intent.fst.json", .file .empty)], [none, some ⟨28, "No space left on device", none⟩], 0⟩
  have hslash : ∀ name ∈ slots.names, '/' ∉ name.toList := by
    rw [hnames]
    decide
  have hremoved : (perform (Store.removeMerged ⟨"s"⟩).run disk).1 = .ok () := by decide +kernel
  exact ⟨grammar, slots, disk, hgrammar, hslots, by decide +kernel, hslash, hremoved,
    leaves_of_compile hgrammar (.define .empty hslots) hslash rfl hremoved⟩

/-- A compilation comes to what the grammar comes to by itself, unless a change is refused. -/
theorem eq_or_refusals_lt_of_compile (c : Compiler) (disk : Disk) :
    (perform (c.compile grammar slots) disk).1.1 = grammar.compile c.casing slots ∨
      disk.refusals < (perform (c.compile grammar slots) disk).2.refusals := by
  have hremove : ComesTo (c.withStore Store.removeMerged) (.ok ()) :=
    c.comesTo_withStore Store.comesTo_removeMerged
  have hwhole : ComesTo (c.withStore Store.removeMerged >>= fun _ =>
      settled (grammar.compile c.casing slots) >>= fun compiled =>
        c.keep compiled >>= fun _ => pure compiled) (grammar.compile c.casing slots) := by
    refine hremove.bind ?_
    cases grammar.compile c.casing slots with
    | error e =>
      rw [settled_error_bind]
      exact .of_settled _
    | ok compiled =>
      rw [settled_ok_bind]
      exact (comesTo_keep c compiled).bind (.of_settled (.ok compiled))
  have hrun := perform_compile hgrammar hslots c disk
  obtain ⟨-, hends⟩ := hwhole disk
  rwa [← hrun] at hends

/-- What is in the store, what the compiler has built before and where it keeps automata make no
difference: as long as no change is refused, a compilation comes to what it comes to without a
store. -/
theorem outcome_eq_of_refusals_eq {c : Compiler} {disk : Disk}
    (h : (perform (c.compile grammar slots) disk).2.refusals = disk.refusals) (other : Disk) :
    (perform (c.compile grammar slots) disk).1.1 =
      (perform ((new c.casing none).compile grammar slots) other).1.1 := by
  have hfresh := congrArg (perform · other)
    (@fst_compile (StateM Disk) _ _ _ (new c.casing none) rfl grammar slots)
  have houtcome := (eq_or_refusals_lt_of_compile hgrammar hslots c disk).resolve_right
    (Nat.not_lt.2 h.le)
  exact houtcome.trans (congrArg Prod.fst hfresh).symm

omit hgrammar hslots in
/-- The compiler has built another slot of the same name before, and the store has a file for it
that is no automaton. -/
theorem outcome_eq_of_refusals_eq_stale : ∃ grammar slots, ∃ c : Compiler, ∃ disk : Disk,
    Grammar.ofTextWith none "[Lights]\nstate = on | off\nturn <state> $room" = .ok grammar ∧
    Slots.define ∅ "room" ["kitchen", "living room:hall"] = .ok slots ∧
    (Parts.find? c.built (.slot "room")).isSome = true ∧
    disk.tree.isFile "s/fsts/$room.fst.json" = true ∧
    (perform (c.compile grammar slots) disk).2.refusals = disk.refusals ∧
    ∀ other, (perform (c.compile grammar slots) disk).1.1 =
      (perform ((new c.casing none).compile grammar slots) other).1.1 := by
  let c : Compiler := ⟨.upper, some ⟨"s"⟩, [(.slot "room", .epsilon)]⟩
  let disk : Disk := ⟨.ofList [("s", .directory), ("s/fsts", .directory),
    ("s/intent.fst.json", .file .empty), ("s/fsts/$room.fst.json", .file "[]".toUTF8)], [], 0⟩
  have hrun : (do
      let grammar ← Grammar.ofTextWith none "[Lights]\nstate = on | off\nturn <state> $room"
      let slots ← Slots.define ∅ "room" ["kitchen", "living room:hall"]
      return (perform (c.compile grammar slots) disk).2.refusals) = .ok 0 := by decide +kernel
  obtain ⟨grammar, hgrammar, hrun⟩ := bind_eq_ok_iff.1 hrun
  obtain ⟨slots, hslots, hrun⟩ := bind_eq_ok_iff.1 hrun
  have hrefusals : (perform (c.compile grammar slots) disk).2.refusals = disk.refusals :=
    Except.ok.inj hrun
  exact ⟨grammar, slots, c, disk, hgrammar, hslots, by decide +kernel, by decide +kernel, hrefusals,
    outcome_eq_of_refusals_eq hgrammar (.define .empty hslots) hrefusals⟩

end Compile

end Compiler

end Phrasebook
