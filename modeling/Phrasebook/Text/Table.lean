/-!
# Tables keyed by names

A table holds one value for each of finitely many names, and lists them in increasing order of
the names. The rules of a section, the value lists of slots, the fields of a record and the
paths of a file tree are kept in tables.

Every operation is described by what `find?` answers afterwards (`Table.find?_insert`,
`Table.find?_erase`, `Table.find?_map`).
-/

namespace Phrasebook

universe u v

/-- One value for each of finitely many names, in increasing order of the names. -/
structure Table (α : Type u) where
  /-- The names with their values. -/
  entries : List (String × α)
  /-- The names increase strictly. -/
  increasing : (entries.map Prod.fst).Pairwise (· < ·)

namespace Table

variable {α : Type u} {β : Type v}

/-- The table without entries. -/
def empty : Table α := ⟨[], .nil⟩

instance : EmptyCollection (Table α) := ⟨empty⟩
instance : Inhabited (Table α) := ⟨empty⟩

/-- The names that have a value, in increasing order. -/
def names (t : Table α) : List String := t.entries.map Prod.fst

/-- The values, in the order of their names. -/
def values (t : Table α) : List α := t.entries.map Prod.snd

/-- The number of entries. -/
def size (t : Table α) : Nat := t.entries.length

/-- The value listed for a name. -/
def lookup (name : String) : List (String × α) → Option α
  | [] => none
  | (n, a) :: rest => if n = name then some a else lookup name rest

/-- The value of a name, if it has one. -/
def find? (t : Table α) (name : String) : Option α := lookup name t.entries

/-- Whether a name has a value. -/
def contains (t : Table α) (name : String) : Bool := (t.find? name).isSome

/-- Puts an entry into its place, in the stead of an earlier entry of its name. -/
def insertInto (name : String) (value : α) : List (String × α) → List (String × α)
  | [] => [(name, value)]
  | (n, a) :: rest =>
    if name < n then (name, value) :: (n, a) :: rest
    else if name = n then (name, value) :: rest
    else (n, a) :: insertInto name value rest

theorem mem_names_insertInto {name x : String} {value : α} {es : List (String × α)} :
    x ∈ (insertInto name value es).map Prod.fst ↔ x = name ∨ x ∈ es.map Prod.fst := by
  induction es with
  | nil => simp [insertInto]
  | cons e es ih =>
    obtain ⟨n, a⟩ := e
    simp only [insertInto]
    split
    · simp
    · split
      · simp_all
      · simp only [List.map_cons, List.mem_cons, ih]
        grind

/-- Insertion keeps the names increasing. -/
theorem pairwise_insertInto {name : String} {value : α} {es : List (String × α)}
    (h : (es.map Prod.fst).Pairwise (· < ·)) :
    ((insertInto name value es).map Prod.fst).Pairwise (· < ·) := by
  induction es with
  | nil => simp [insertInto]
  | cons e es ih =>
    obtain ⟨n, a⟩ := e
    have ⟨hn, hes⟩ := List.pairwise_cons.1 h
    simp only [insertInto]
    split
    · next hlt =>
      refine List.pairwise_cons.2 ⟨fun x hx => ?_, h⟩
      rcases List.mem_cons.1 hx with rfl | hx
      · exact hlt
      · exact String.lt_trans hlt (hn x hx)
    · split
      · next _ heq => subst heq; exact List.pairwise_cons.2 ⟨hn, hes⟩
      · next hlt hne =>
        refine List.pairwise_cons.2 ⟨fun x hx => ?_, ih hes⟩
        rcases mem_names_insertInto.1 hx with rfl | hx
        · exact Std.lt_of_le_of_ne (String.not_lt.1 hlt) (Ne.symm hne)
        · exact hn x hx

/-- The table in which `name` has `value`, whatever it had before. -/
def insert (t : Table α) (name : String) (value : α) : Table α :=
  ⟨insertInto name value t.entries, pairwise_insertInto t.increasing⟩

/-- The table in which `name` has no value. -/
def erase (t : Table α) (name : String) : Table α :=
  ⟨t.entries.filter (·.1 ≠ name),
    t.increasing.sublist (List.filter_sublist.map Prod.fst)⟩

/-- The table with every value changed by `f`. -/
def map (f : α → β) (t : Table α) : Table β :=
  ⟨t.entries.map fun (n, a) => (n, f a), by
    simpa [List.map_map, Function.comp_def] using t.increasing⟩

/-- The table of a list of entries; of two entries of one name the later counts. -/
def ofList (es : List (String × α)) : Table α :=
  es.foldl (fun t (n, a) => t.insert n a) ∅

theorem lookup_insertInto {name x : String} {value : α} {es : List (String × α)}
    (h : (es.map Prod.fst).Pairwise (· < ·)) :
    lookup x (insertInto name value es) = if x = name then some value else lookup x es := by
  induction es with
  | nil => by_cases hx : x = name <;> simp [insertInto, lookup, hx, Ne.symm]
  | cons e es ih =>
    obtain ⟨n, a⟩ := e
    have ⟨hn, hes⟩ := List.pairwise_cons.1 h
    simp only [insertInto]
    split
    · by_cases hx : x = name
      · simp [lookup, hx]
      · simp [lookup, hx, Ne.symm hx]
    · split
      · next heq =>
        by_cases hx : x = name
        · simp [lookup, hx]
        · simp [lookup, hx, Ne.symm hx, ← heq]
      · next hne =>
        simp only [lookup, ih hes]
        by_cases hx : x = name
        · subst hx; simp [Ne.symm hne]
        · simp [hx]

@[simp]
theorem find?_insert {t : Table α} {name x : String} {value : α} :
    (t.insert name value).find? x = if x = name then some value else t.find? x :=
  lookup_insertInto t.increasing

@[simp]
theorem find?_erase {t : Table α} {name x : String} :
    (t.erase name).find? x = if x = name then none else t.find? x := by
  simp only [find?, erase]
  induction t.entries with
  | nil => simp [lookup]
  | cons e es ih =>
    obtain ⟨n, a⟩ := e
    by_cases hn : n = name
    · subst hn
      simp only [ne_eq, decide_not, List.filter_cons, decide_true, Bool.not_true,
        Bool.false_eq_true, ↓reduceIte]
      rw [show (es.filter fun p => !decide (p.1 = n)) = es.filter (·.1 ≠ n) by simp, ih]
      by_cases hx : x = n
      · simp [hx]
      · simp [hx, lookup, Ne.symm hx]
    · simp only [ne_eq, decide_not, List.filter_cons, hn, decide_false, Bool.not_false, ↓reduceIte,
        lookup]
      rw [show (es.filter fun p => !decide (p.1 = name)) = es.filter (·.1 ≠ name) by simp, ih]
      by_cases hx : x = name
      · subst hx; simp [hn]
      · simp [hx]

@[simp]
theorem find?_map {t : Table α} {f : α → β} {name : String} :
    (t.map f).find? name = (t.find? name).map f := by
  simp only [find?, map]
  induction t.entries with
  | nil => rfl
  | cons e es ih =>
    obtain ⟨n, a⟩ := e
    simp only [List.map_cons, lookup, ih]
    split <;> simp

end Table

end Phrasebook
