import Mathlib.Data.List.Forall2
import Phrasebook.Error

/-!
# Successful computations

A computation that may fail succeeds when each of its steps does. The lemmas of this file take a
successful computation apart, and find the step at which another one fails. Where computations may
also do something else, one whose outcome is settled does not.

* `exists_of_mem_left`, `exists_of_mem_right`: members of two lists that correspond.
* `bind_eq_ok_iff`, `map_eq_ok_iff`, `mapError_eq_ok_iff`: single steps.
* `foldlM_preserves`, `foldlM_establishes`, `mapM_eq_ok_iff`, `exists_mapM_eq_ok`: a step for each
  member of a list.
* `exists_of_foldlM_eq_error`: the first member whose step fails.
* `settled`: the computation with a given outcome, which does nothing else.
-/

namespace Phrasebook

universe u v w

variable {ε : Type u} {ε' : Type w} {α β : Type v}

/-! ### Lists that correspond -/

section Correspond

variable {R : α → β → Prop} {as : List α} {bs : List β}

/-- A member of the first list corresponds to one of the second list. -/
theorem exists_of_mem_left {a : α} (h : List.Forall₂ R as bs) (ha : a ∈ as) : ∃ b ∈ bs, R a b := by
  obtain ⟨i, hi, rfl⟩ := List.mem_iff_getElem.1 ha
  have hi' : i < bs.length := h.length_eq ▸ hi
  exact ⟨bs[i], List.getElem_mem hi', h.get hi hi'⟩

/-- A member of the second list corresponds to one of the first list. -/
theorem exists_of_mem_right {b : β} (h : List.Forall₂ R as bs) (hb : b ∈ bs) : ∃ a ∈ as, R a b :=
  exists_of_mem_left h.flip hb

end Correspond

/-! ### Steps -/

/-- A computation with two steps succeeds when both of them do. -/
theorem bind_eq_ok_iff {x : Except ε α} {f : α → Except ε β} {b : β} :
    (x >>= f) = .ok b ↔ ∃ a, x = .ok a ∧ f a = .ok b := by
  cases x with
  | error e => simp [bind, Except.bind]
  | ok a => simp [bind, Except.bind]

/-- A computation with two steps fails when the first of them fails, or else the second. -/
theorem bind_eq_error_iff {x : Except ε α} {f : α → Except ε β} {e : ε} :
    (x >>= f) = .error e ↔ x = .error e ∨ ∃ a, x = .ok a ∧ f a = .error e := by
  cases x with
  | error e => simp [bind, Except.bind]
  | ok a => simp [bind, Except.bind]

@[simp]
theorem pure_eq_ok_iff {a b : α} : (pure a : Except ε α) = .ok b ↔ a = b := by
  simp [pure, Except.pure]

/-- A changed result is that of a successful computation. -/
theorem map_eq_ok_iff {x : Except ε α} {f : α → β} {b : β} :
    f <$> x = .ok b ↔ ∃ a, x = .ok a ∧ f a = b := by
  cases x with
  | error e => simp [Functor.map, Except.map]
  | ok a => simp [Functor.map, Except.map]

/-- Changing the error changes no result. -/
theorem mapError_eq_ok_iff {x : Except ε α} {f : ε → ε'} {a : α} :
    x.mapError f = .ok a ↔ x = .ok a := by
  cases x <;> simp [Except.mapError]

/-- The optional result is there when the computation succeeds. -/
theorem toOption_eq_some_iff {x : Except ε α} {a : α} : x.toOption = some a ↔ x = .ok a := by
  cases x <;> simp [Except.toOption]

/-- What every step preserves holds at the end. -/
theorem foldlM_preserves {f : β → α → Except ε β} {P : β → Prop} {b c : β} {l : List α}
    (hstep : ∀ b, P b → ∀ a ∈ l, ∀ b', f b a = .ok b' → P b') (hb : P b)
    (h : l.foldlM f b = .ok c) : P c := by
  induction l generalizing b with
  | nil =>
    rw [List.foldlM_nil, pure_eq_ok_iff] at h
    exact h ▸ hb
  | cons a l ih =>
    rw [List.foldlM_cons, bind_eq_ok_iff] at h
    obtain ⟨b', hfirst, hrest⟩ := h
    exact ih (fun b hb a ha => hstep b hb a (List.mem_cons_of_mem _ ha))
      (hstep b hb a List.mem_cons_self b' hfirst) hrest

/-- When the steps for the members of a list fail, then there is a first member whose step fails. -/
theorem exists_of_foldlM_eq_error {f : β → α → Except ε β} {b : β} {l : List α} {e : ε}
    (h : l.foldlM f b = .error e) :
    ∃ before a behind c, l = before ++ a :: behind ∧ before.foldlM f b = .ok c ∧
      f c a = .error e := by
  induction l generalizing b with
  | nil => cases h
  | cons a l ih =>
    rw [List.foldlM_cons, bind_eq_error_iff] at h
    rcases h with hfirst | ⟨b', hfirst, hrest⟩
    · exact ⟨[], a, l, b, rfl, rfl, hfirst⟩
    · obtain ⟨before, x, behind, c, rfl, hbefore, hstep⟩ := ih hrest
      refine ⟨a :: before, x, behind, c, rfl, ?_, hstep⟩
      rw [List.foldlM_cons, hfirst]
      exact hbefore

/-- What the step for a member of a list brings about holds at the end when every step keeps
it. -/
theorem foldlM_establishes {f : β → α → Except ε β} {P : α → β → Prop} {b c : β} {l : List α}
    (hmake : ∀ b, ∀ a ∈ l, ∀ b', f b a = .ok b' → P a b')
    (hkeep : ∀ a b x b', P a b → f b x = .ok b' → P a b') (h : l.foldlM f b = .ok c) :
    ∀ a ∈ l, P a c := by
  induction l generalizing b with
  | nil => exact fun _ ha => absurd ha List.not_mem_nil
  | cons a l ih =>
    rw [List.foldlM_cons, bind_eq_ok_iff] at h
    obtain ⟨b', hfirst, hrest⟩ := h
    refine List.forall_mem_cons.2
      ⟨?_, ih (fun b x hx => hmake b x (List.mem_cons_of_mem _ hx)) hrest⟩
    exact foldlM_preserves (fun b hb x _ b' hstep => hkeep a b x b' hb hstep)
      (hmake b a List.mem_cons_self b' hfirst) hrest

/-- The results of a step for each member are those of the members in their order. -/
theorem mapM_eq_ok_iff {f : α → Except ε β} {l : List α} {l' : List β} :
    l.mapM f = .ok l' ↔ List.Forall₂ (fun a b => f a = .ok b) l l' := by
  induction l generalizing l' with
  | nil =>
    rw [List.mapM_nil, pure_eq_ok_iff, List.forall₂_nil_left_iff]
    exact eq_comm
  | cons a l ih =>
    rw [List.mapM_cons, bind_eq_ok_iff, List.forall₂_cons_left_iff]
    constructor
    · rintro ⟨b, hb, h⟩
      obtain ⟨bs, hbs, h⟩ := bind_eq_ok_iff.1 h
      obtain rfl := pure_eq_ok_iff.1 h
      exact ⟨b, bs, hb, ih.1 hbs, rfl⟩
    · rintro ⟨b, bs, hb, hbs, rfl⟩
      exact ⟨b, hb, bind_eq_ok_iff.2 ⟨bs, ih.2 hbs, rfl⟩⟩

/-- A step for each member succeeds when every one of them does. -/
theorem exists_mapM_eq_ok {f : α → Except ε β} {l : List α}
    (h : ∀ a ∈ l, ∃ b, f a = .ok b) : ∃ l', l.mapM f = .ok l' := by
  induction l with
  | nil => exact ⟨[], rfl⟩
  | cons a l ih =>
    obtain ⟨b, hb⟩ := h a List.mem_cons_self
    obtain ⟨bs, hbs⟩ := ih fun a ha => h a (List.mem_cons_of_mem _ ha)
    exact ⟨b :: bs, by rw [List.mapM_cons, hb, hbs]; rfl⟩

/-! ### Settled outcomes -/

section Settled

variable {ε α β : Type} {m : Type → Type} [Monad m]

/-- The computation with a given outcome. -/
def settled (x : Except ε α) : ExceptT ε m α := ExceptT.mk (pure x)

theorem run_settled (x : Except ε α) : (settled x : ExceptT ε m α).run = pure x := rfl

variable [LawfulMonad m]

theorem settled_bind (x : Except ε α) (f : α → Except ε β) :
    (settled (x >>= f) : ExceptT ε m β) = settled x >>= fun a => settled (f a) := by
  refine ExceptT.ext ?_
  rw [ExceptT.run_bind, run_settled, run_settled, pure_bind]
  cases x <;> rfl

theorem settled_ok_bind (a : α) (f : α → ExceptT ε m β) : settled (.ok a) >>= f = f a :=
  pure_bind a f

theorem settled_error_bind (e : ε) (f : α → ExceptT ε m β) :
    settled (.error e) >>= f = settled (.error e) := by
  refine ExceptT.ext ?_
  rw [ExceptT.run_bind, run_settled, pure_bind, run_settled]

theorem mapM_settled {γ : Type} {f : γ → Except ε α} {g : γ → ExceptT ε m α} {l : List γ}
    (h : ∀ c ∈ l, g c = settled (f c)) : l.mapM g = settled (l.mapM f) := by
  induction l with
  | nil => rfl
  | cons c l ih =>
    obtain ⟨hc, hl⟩ := List.forall_mem_cons.1 h
    rw [List.mapM_cons, List.mapM_cons, settled_bind, hc, ih hl]
    refine bind_congr fun a => ?_
    rw [settled_bind]
    rfl

theorem foldlM_settled {γ : Type} {f : β → γ → Except ε β} {g : β → γ → ExceptT ε m β}
    {l : List γ} {b : β} (h : ∀ b, ∀ c ∈ l, g b c = settled (f b c)) :
    l.foldlM g b = settled (l.foldlM f b) := by
  induction l generalizing b with
  | nil => rfl
  | cons c l ih =>
    rw [List.foldlM_cons, List.foldlM_cons, settled_bind, h b c List.mem_cons_self]
    exact bind_congr fun b => ih fun b c hc => h b c (List.mem_cons_of_mem _ hc)

end Settled

end Phrasebook
