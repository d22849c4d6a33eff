import Phrasebook.Recognition.Fuzzy

/-!
# Best alignments

Alignments are made by choices, which are listed as numbers. Of two alignments the cheaper one is
better, then the one with fewer arcs, then the one whose choices come first. The search compares
only costs and arcs, and keeps the first of equally good alignments; that is right as long as it
looks at them in the order of their choices.

* `Alignment.Ahead`: an alignment by some choices is better than another one.
* `Alignment.Optimal`: the best of a family of alignments.
* `Alignment.best_append`: the best of two lists, one after the other.
* `Alignment.Optimal.prefer`, `Alignment.Optimal.map`: the best of two families, of which one has
  the earlier choices, and the best of a family that is extended.
* `Alignment.Optimal.eq_of_corresponds`: families with the same alignments in the same order have
  the same best.
* `Alignment.Optimal.cost_arcs_eq`: with the same alignments in any order, the best costs the same
  and has as many arcs.
-/

namespace Phrasebook

namespace Alignment

/-! ### The first of the best -/

/-- The better of two alignments that were found, or else the first. -/
def prefer : Option Alignment → Option Alignment → Option Alignment
  | none, b => b
  | some a, none => some a
  | some a, some b => if b.beats a then some b else some a

theorem beats_iff {a b : Alignment} :
    a.beats b = true ↔ a.cost < b.cost ∨ a.cost = b.cost ∧ a.arcs < b.arcs := by
  simp [beats]

@[simp]
theorem prefer_none {o : Option Alignment} : prefer o none = o := by
  cases o <;> rfl

@[simp]
theorem none_prefer {o : Option Alignment} : prefer none o = o := rfl

theorem beats_trans {a b c : Alignment} (h : c.beats b = true) (h' : b.beats a = true) :
    c.beats a = true := by
  rw [beats_iff] at h h' ⊢
  omega

theorem not_beats_trans {a b c : Alignment} (h : ¬ c.beats b = true) (h' : ¬ b.beats a = true) :
    ¬ c.beats a = true := by
  rw [beats_iff] at h h' ⊢
  omega

theorem prefer_assoc {o p q : Option Alignment} :
    prefer (prefer o p) q = prefer o (prefer p q) := by
  rcases o with _ | a
  · rfl
  rcases p with _ | b
  · rfl
  rcases q with _ | c
  · rw [prefer_none, prefer_none]
  by_cases hba : b.beats a = true
  · by_cases hcb : c.beats b = true
    · simp only [prefer, hba, hcb, beats_trans hcb hba, if_true]
    · simp only [prefer, hba, hcb, if_true, if_false, Bool.false_eq_true]
  · by_cases hcb : c.beats b = true
    · simp only [prefer, hba, hcb, if_true, if_false, Bool.false_eq_true]
    · simp only [prefer, hba, hcb, not_beats_trans hcb hba, if_false, Bool.false_eq_true]

theorem best_eq_foldl (l : List Alignment) :
    best l = l.foldl (fun found a => prefer found (some a)) none := by
  rw [best]
  congr 1
  funext found a
  cases found <;> rfl

theorem foldl_prefer {l : List Alignment} {o : Option Alignment} :
    l.foldl (fun found a => prefer found (some a)) o = prefer o (best l) := by
  rw [best_eq_foldl]
  induction l generalizing o with
  | nil => rw [List.foldl_nil, List.foldl_nil, prefer_none]
  | cons a l ih =>
    rw [List.foldl_cons, List.foldl_cons, ih, ih (o := prefer none (some a)), prefer_assoc,
      none_prefer]

theorem best_cons {a : Alignment} {l : List Alignment} :
    best (a :: l) = prefer (some a) (best l) := by
  rw [best_eq_foldl, List.foldl_cons, foldl_prefer, none_prefer]

/-- The best of two lists is the better of their best ones. -/
theorem best_append {l l' : List Alignment} :
    best (l ++ l') = prefer (best l) (best l') := by
  rw [best_eq_foldl, List.foldl_append, foldl_prefer, ← best_eq_foldl]

@[simp]
theorem best_toList {o : Option Alignment} : best o.toList = o := by
  cases o <;> rfl

/-! ### Families of alignments -/

/-- An alignment by some choices is better than another one: it is cheaper, or as cheap with
fewer arcs, or as cheap with as many arcs and its choices come first. -/
def Ahead (a : Alignment) (choices : List Nat) (b : Alignment) (others : List Nat) : Prop :=
  a.cost < b.cost ∨ a.cost = b.cost ∧ (a.arcs < b.arcs ∨ a.arcs = b.arcs ∧ choices < others)

theorem Ahead.trans {a b e : Alignment} {c d f : List Nat} (h : Ahead a c b d)
    (h' : Ahead b d e f) : Ahead a c e f := by
  unfold Ahead at h h' ⊢
  rcases h with hcost | ⟨hcost, harcs | ⟨harcs, hlt⟩⟩
  · omega
  · omega
  · rw [hcost, harcs]
    exact h'.imp_right (.imp_right (.imp_right (.imp_right (List.lt_trans hlt))))

theorem ahead_of_beats {a b : Alignment} (c d : List Nat) (h : b.beats a = true) :
    Ahead b d a c := by
  rw [beats_iff] at h
  exact h.imp_right (.imp_right .inl)

theorem ahead_of_not_beats {a b : Alignment} {c d : List Nat} (h : ¬ b.beats a = true)
    (hlt : c < d) : Ahead a c b d := by
  rw [beats_iff] at h
  rcases Nat.lt_trichotomy a.cost b.cost with hcost | hcost | hcost
  · exact .inl hcost
  · rcases Nat.lt_trichotomy a.arcs b.arcs with harcs | harcs | harcs
    · exact .inr ⟨hcost, .inl harcs⟩
    · exact .inr ⟨hcost, .inr ⟨harcs, hlt⟩⟩
    · omega
  · omega

/-- What was found is the best of a family of alignments, given with their choices. Nothing is
found only in the family without members. -/
def Optimal (family : List Nat → Alignment → Prop) : Option Alignment → Prop
  | none => ∀ choices a, ¬ family choices a
  | some a => ∃ choices, family choices a ∧
      ∀ others b, family others b → (others = choices ∧ b = a) ∨ Ahead a choices b others

variable {S T : List Nat → Alignment → Prop} {o p : Option Alignment}

theorem Optimal.congr (h : Optimal S o) (hST : ∀ choices a, S choices a ↔ T choices a) :
    Optimal T o := by
  have heq : S = T := funext fun choices => funext fun a => propext (hST choices a)
  rwa [← heq]

/-- The better of the best of two families is the best of both, when the choices of the first
family come first. -/
theorem Optimal.prefer (h : Optimal S o) (h' : Optimal T p)
    (hlt : ∀ choices a others b, S choices a → T others b → choices < others) :
    Optimal (fun choices a => S choices a ∨ T choices a) (prefer o p) := by
  rcases o with _ | a
  · exact h'.congr fun choices b => (or_iff_right (h choices b)).symm
  rcases p with _ | b
  · exact h.congr fun choices b => (or_iff_left (h' choices b)).symm
  obtain ⟨c, hc, hbest⟩ := h
  obtain ⟨d, hd, hbest'⟩ := h'
  have hcd : c < d := hlt c a d b hc hd
  by_cases hbeats : b.beats a = true
  · rw [Alignment.prefer, if_pos hbeats]
    have hahead := ahead_of_beats c d hbeats
    refine ⟨d, .inr hd, fun others e he => he.elim (fun he => .inr ?_) (hbest' others e)⟩
    rcases hbest others e he with ⟨rfl, rfl⟩ | hrest
    · exact hahead
    · exact hahead.trans hrest
  · rw [Alignment.prefer, if_neg hbeats]
    have hahead := ahead_of_not_beats hbeats hcd
    refine ⟨c, .inl hc, fun others e he => he.elim (hbest others e) (fun he => .inr ?_)⟩
    rcases hbest' others e he with ⟨rfl, rfl⟩ | hrest
    · exact hahead
    · exact hahead.trans hrest

/-- The best of a family is that of the extended family, when extending keeps the order. -/
theorem Optimal.map (h : Optimal S o) {f : List Nat → List Nat} {g : Alignment → Alignment}
    (hmono : ∀ a c b d, Ahead a c b d → Ahead (g a) (f c) (g b) (f d)) :
    Optimal (fun choices b => ∃ c a, S c a ∧ choices = f c ∧ b = g a) (o.map g) := by
  rcases o with _ | a
  · rintro _ _ ⟨c, a, hc, _⟩
    exact h c a hc
  · obtain ⟨c, hc, hbest⟩ := h
    refine ⟨f c, ⟨c, a, hc, rfl, rfl⟩, ?_⟩
    rintro _ _ ⟨d, b, hd, rfl, rfl⟩
    rcases hbest d b hd with ⟨rfl, rfl⟩ | hahead
    · exact .inl ⟨rfl, rfl⟩
    · exact .inr (hmono a c b d hahead)

/-- The best of two families is the same when both have the same alignments and their choices come
in the same order. -/
theorem Optimal.eq_of_corresponds (h : Optimal S o) (h' : Optimal T p)
    {R : List Nat → List Nat → Prop}
    (hright : ∀ choices a, S choices a → ∃ others, R choices others ∧ T others a)
    (hleft : ∀ others a, T others a → ∃ choices, R choices others ∧ S choices a)
    (hlt : ∀ c c' d d', R c c' → R d d' → c < d → c' < d') : o = p := by
  rcases o with _ | a
  · rcases p with _ | b
    · rfl
    · obtain ⟨others, hb, -⟩ := h'
      obtain ⟨choices, -, hb⟩ := hleft others b hb
      exact absurd hb (h choices b)
  rcases p with _ | b
  · obtain ⟨choices, ha, -⟩ := h
    obtain ⟨others, -, ha⟩ := hright choices a ha
    exact absurd ha (h' others a)
  obtain ⟨c, hc, hbest⟩ := h
  obtain ⟨d, hd, hbest'⟩ := h'
  obtain ⟨c', hcc, hc'⟩ := hright c a hc
  obtain ⟨d', hdd, hd'⟩ := hleft d b hd
  rcases hbest d' b hd' with ⟨-, rfl⟩ | hab
  · rfl
  rcases hbest' c' a hc' with ⟨-, rfl⟩ | hba
  · rfl
  -- Otherwise each of the two would be better than the other one.
  rcases hab with hcost | ⟨hcost, harcs | ⟨harcs, hchoices⟩⟩ <;>
    rcases hba with hcost' | ⟨hcost', harcs' | ⟨harcs', hchoices'⟩⟩
  all_goals try omega
  exact absurd hchoices' (List.lt_asymm (hlt c c' d' d hcc hdd hchoices))

/-- The best of two families costs the same and has as many arcs when both have the same
alignments, in whatever order their choices come. -/
theorem Optimal.cost_arcs_eq (h : Optimal S o) (h' : Optimal T p)
    (hright : ∀ choices a, S choices a → ∃ others, T others a)
    (hleft : ∀ others a, T others a → ∃ choices, S choices a) :
    o.map (fun a => (a.cost, a.arcs)) = p.map fun a => (a.cost, a.arcs) := by
  rcases o with _ | a
  · rcases p with _ | b
    · rfl
    · obtain ⟨others, hb, -⟩ := h'
      obtain ⟨choices, hb⟩ := hleft others b hb
      exact absurd hb (h choices b)
  rcases p with _ | b
  · obtain ⟨choices, ha, -⟩ := h
    obtain ⟨others, ha⟩ := hright choices a ha
    exact absurd ha (h' others a)
  obtain ⟨c, hc, hbest⟩ := h
  obtain ⟨d, hd, hbest'⟩ := h'
  obtain ⟨c', hc'⟩ := hright c a hc
  obtain ⟨d', hd'⟩ := hleft d b hd
  rcases hbest d' b hd' with ⟨-, rfl⟩ | hab
  · rfl
  rcases hbest' c' a hc' with ⟨-, rfl⟩ | hba
  · rfl
  -- Neither is ahead of the other one by its cost or its arcs.
  unfold Ahead at hab hba
  rw [Option.map_some, Option.map_some, show a.cost = b.cost by omega,
    show a.arcs = b.arcs by omega]

/-- The best of a family is the best of those members of which something holds, when it holds of
the best. -/
theorem Optimal.restrict {a : Alignment} (h : Optimal S (some a)) {P : Alignment → Prop}
    (ha : P a) : Optimal (fun choices b => S choices b ∧ P b) (some a) := by
  obtain ⟨choices, hchoices, hbest⟩ := h
  exact ⟨choices, ⟨hchoices, ha⟩, fun others b hb => hbest others b hb.1⟩

/-- A family has only one best member. -/
theorem Optimal.unique (h : Optimal S o) (h' : Optimal S p) : o = p :=
  h.eq_of_corresponds h' (R := Eq) (fun choices _ ha => ⟨choices, rfl, ha⟩)
    (fun choices _ ha => ⟨choices, rfl, ha⟩) fun _ _ _ _ hc hd hlt => hc ▸ hd ▸ hlt

end Alignment

end Phrasebook
