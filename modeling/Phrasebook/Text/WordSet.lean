/-!
# Sets of words

A finite set of words is the list of its members in increasing order. Words compare character
by character, by code point, so the order is also that of their encoded bytes. Two sets with
the same members are the same list (`WordSet.ext`), and membership after `insert` and `ofList`
is as expected (`WordSet.mem_insert`, `WordSet.mem_ofList`).
-/

namespace Phrasebook

/-- A finite set of words, listed in increasing order without repetition. -/
structure WordSet where
  /-- The members in increasing order. -/
  toList : List String
  /-- The list increases strictly. -/
  increasing : toList.Pairwise (· < ·)

namespace WordSet

theorem increasing_nil : ([] : List String).Pairwise (· < ·) := .nil

/-- The set without members. -/
def empty : WordSet := ⟨[], increasing_nil⟩

instance : EmptyCollection WordSet := ⟨empty⟩
instance : Inhabited WordSet := ⟨empty⟩

instance : Membership String WordSet := ⟨fun s word => word ∈ s.toList⟩

instance (word : String) (s : WordSet) : Decidable (word ∈ s) :=
  inferInstanceAs (Decidable (word ∈ s.toList))

/-- Whether the word is a member. -/
def contains (s : WordSet) (word : String) : Bool :=
  decide (word ∈ s)

@[simp]
theorem contains_eq_true_iff {s : WordSet} {word : String} :
    s.contains word = true ↔ word ∈ s := by
  simp [contains]

/-- Puts a word into its place in an increasing list, unless it is there already. -/
def insertInto (word : String) : List String → List String
  | [] => [word]
  | w :: ws =>
    if word < w then word :: w :: ws
    else if word = w then w :: ws
    else w :: insertInto word ws

theorem mem_insertInto {word x : String} {ws : List String} :
    x ∈ insertInto word ws ↔ x = word ∨ x ∈ ws := by
  induction ws with
  | nil => simp [insertInto]
  | cons w ws ih =>
    simp only [insertInto]
    split
    · simp
    · split
      · simp_all
      · simp only [List.mem_cons, ih]
        grind

/-- Insertion keeps an increasing list increasing. -/
theorem pairwise_insertInto {word : String} {ws : List String} (h : ws.Pairwise (· < ·)) :
    (insertInto word ws).Pairwise (· < ·) := by
  induction ws with
  | nil => simp [insertInto]
  | cons w ws ih =>
    have ⟨hw, hws⟩ := List.pairwise_cons.1 h
    simp only [insertInto]
    split
    · next hlt =>
      refine List.pairwise_cons.2 ⟨fun x hx => ?_, h⟩
      rcases List.mem_cons.1 hx with rfl | hx
      · exact hlt
      · exact String.lt_trans hlt (hw x hx)
    · split
      · exact h
      · next hlt hne =>
        refine List.pairwise_cons.2 ⟨fun x hx => ?_, ih hws⟩
        rcases mem_insertInto.1 hx with rfl | hx
        · have hle : w ≤ x := String.not_lt.1 hlt
          exact Std.lt_of_le_of_ne hle (Ne.symm hne)
        · exact hw x hx

/-- The set with one more member. -/
def insert (word : String) (s : WordSet) : WordSet :=
  ⟨insertInto word s.toList, pairwise_insertInto s.increasing⟩

@[simp]
theorem mem_insert {word x : String} {s : WordSet} : x ∈ s.insert word ↔ x = word ∨ x ∈ s :=
  mem_insertInto

/-- The set of the words of a list. -/
def ofList (ws : List String) : WordSet :=
  ws.foldl (fun s word => s.insert word) ∅

@[simp]
theorem not_mem_empty {x : String} : ¬ x ∈ (∅ : WordSet) :=
  List.not_mem_nil

@[simp]
theorem mem_ofList {x : String} {ws : List String} : x ∈ ofList ws ↔ x ∈ ws := by
  have go : ∀ (ws : List String) (s : WordSet),
      x ∈ ws.foldl (fun s word => s.insert word) s ↔ x ∈ ws ∨ x ∈ s := by
    intro ws
    induction ws with
    | nil => simp
    | cons w ws ih => intro s; simp only [List.foldl_cons, ih, mem_insert, List.mem_cons]; grind
  simpa [ofList] using go ws ∅

/-- Sets with the same members are equal. -/
@[ext]
theorem ext {s t : WordSet} (h : ∀ x, x ∈ s ↔ x ∈ t) : s = t := by
  have hlist : s.toList = t.toList := by
    have hs := s.increasing
    have ht := t.increasing
    have hst : ∀ x, x ∈ s.toList ↔ x ∈ t.toList := h
    generalize s.toList = a at *
    generalize t.toList = b at *
    induction a generalizing b with
    | nil =>
      cases b with
      | nil => rfl
      | cons y ys => exact absurd ((hst y).2 List.mem_cons_self) List.not_mem_nil
    | cons x xs ih =>
      cases b with
      | nil => exact absurd ((hst x).1 List.mem_cons_self) List.not_mem_nil
      | cons y ys =>
        have ⟨hx, hxs⟩ := List.pairwise_cons.1 hs
        have ⟨hy, hys⟩ := List.pairwise_cons.1 ht
        have hxy : x = y := by
          rcases List.mem_cons.1 ((hst x).1 List.mem_cons_self) with h | h
          · exact h
          · rcases List.mem_cons.1 ((hst y).2 List.mem_cons_self) with h' | h'
            · exact h'.symm
            · exact absurd (hy x h) (String.lt_asymm (hx y h'))
        subst hxy
        congr 1
        refine ih hxs ys hys fun z => ⟨fun hz => ?_, fun hz => ?_⟩
        · rcases List.mem_cons.1 ((hst z).1 (List.mem_cons_of_mem _ hz)) with rfl | h
          · exact absurd (hx z hz) (String.lt_irrefl z)
          · exact h
        · rcases List.mem_cons.1 ((hst z).2 (List.mem_cons_of_mem _ hz)) with rfl | h
          · exact absurd (hy z hz) (String.lt_irrefl z)
          · exact h
  cases s
  cases t
  cases hlist
  rfl

end WordSet

end Phrasebook
