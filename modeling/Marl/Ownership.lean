import Mathlib.Logic.Basic

/-!
# Single ownership

Both `move_only_function` and `Thread` keep a resource (a callable object, a `Thread::Impl`) in at most one
variable at a time, and release it when that variable lets go of it. `Inv own alive` says this of a map `own` from
variables to the resource each owns and the set `alive` of resources not yet released. The two ways an operation
changes ownership keep it: one variable releases what it owned and takes a fresh resource or nothing
(`Inv.rebind`), or one variable hands its resource to another (`Inv.transfer`).
-/

namespace Marl.Ownership

/-- Single ownership: the live resources are exactly the owned ones, and no two variables own the same one. -/
structure Inv (own : Nat → Option Nat) (alive : Nat → Bool) : Prop where
  alive_iff : ∀ o, alive o = true ↔ ∃ i, own i = some o
  unique : ∀ i j o, own i = some o → own j = some o → i = j

variable {own own' : Nat → Option Nat} {alive alive' : Nat → Bool} {i j : Nat}

theorem Inv.owned (hw : Inv own alive) {k o : Nat} (h : own k = some o) : alive o = true :=
  (hw.alive_iff o).2 ⟨k, h⟩

/-- Variable `i` gives up what it owned (which dies) and comes to own `new` (a fresh resource, or nothing); no other
variable changes. -/
theorem Inv.rebind (hw : Inv own alive) (new : Option Nat) (hown : ∀ k, own' k = if k = i then new else own k)
    (halive : ∀ x, alive' x = true ↔ (alive x = true ∧ own i ≠ some x) ∨ new = some x)
    (hfresh : ∀ n, new = some n → alive n = false) : Inv own' alive' := by
  constructor
  · intro x
    rw [halive]
    constructor
    · rintro (⟨hx, hne⟩ | hx)
      · obtain ⟨k, hk⟩ := (hw.alive_iff x).1 hx
        have hki : k ≠ i := fun e => hne (e ▸ hk)
        exact ⟨k, by rw [hown, if_neg hki, hk]⟩
      · exact ⟨i, by rw [hown, if_pos rfl, hx]⟩
    · rintro ⟨k, hk⟩
      rw [hown] at hk
      split at hk
      · exact Or.inr hk
      · exact Or.inl ⟨hw.owned hk, fun e => ‹¬k = i› (hw.unique _ _ _ hk e)⟩
  · intro a b x ha hb
    rw [hown] at ha hb
    split at ha <;> split at hb
    · subst_vars; rfl
    · exact absurd (hw.owned hb) (by simp [hfresh x ha])
    · exact absurd (hw.owned ha) (by simp [hfresh x hb])
    · exact hw.unique _ _ _ ha hb

/-- Variable `j` hands the resource `o` it owns to variable `i`, which owned nothing: `i` then owns `o'`, either
`o` itself or a fresh resource that replaces it. -/
theorem Inv.transfer (hw : Inv own alive) {o : Nat} (o' : Nat) (hij : i ≠ j) (hj : own j = some o) (hi : own i = none)
    (hown : ∀ k, own' k = if k = i then some o' else if k = j then none else own k)
    (halive : ∀ x, alive' x = ((alive x && x != o) || x == o'))
    (hfresh : alive o' = true → o' = o) : Inv own' alive' := by
  constructor
  · intro x
    rw [halive]
    simp only [Bool.or_eq_true, Bool.and_eq_true, bne_iff_ne, ne_eq, beq_iff_eq]
    constructor
    · rintro (⟨hx, hne⟩ | rfl)
      · obtain ⟨k, hk⟩ := (hw.alive_iff x).1 hx
        have hkj : k ≠ j := fun e => hne (Option.some.inj (hk.symm.trans (e ▸ hj)))
        have hki : k ≠ i := fun e => by simp [e, hi] at hk
        exact ⟨k, by rw [hown, if_neg hki, if_neg hkj, hk]⟩
      · exact ⟨i, by rw [hown, if_pos rfl]⟩
    · rintro ⟨k, hk⟩
      rw [hown] at hk
      split at hk
      · exact Or.inr (Option.some.inj hk).symm
      · split at hk
        · cases hk
        · refine Or.inl ⟨hw.owned hk, fun e => ‹¬k = j› (hw.unique _ _ _ hk (e ▸ hj))⟩
  · intro a b x ha hb
    rw [hown] at ha hb
    have key : ∀ k, k ≠ i → k ≠ j → own k = some x → x ≠ o' := by
      intro k hki hkj hk e
      subst e
      exact hkj (hw.unique _ _ _ hk (hfresh (hw.owned hk) ▸ hj))
    split at ha <;> split at hb
    · subst_vars; rfl
    · split at hb
      · cases hb
      · exact absurd (Option.some.inj ha).symm (key b ‹_› ‹_› hb)
    · split at ha
      · cases ha
      · exact absurd (Option.some.inj hb).symm (key a ‹_› ‹_› ha)
    · split at ha
      · cases ha
      · split at hb
        · cases hb
        · exact hw.unique _ _ _ ha hb

/-- When no variable owns anything, every resource has been released. -/
theorem Inv.none_alive (hw : Inv own alive) (h : ∀ i, own i = none) (o : Nat) : alive o = false := by
  cases ha : alive o
  · rfl
  · obtain ⟨i, hi⟩ := (hw.alive_iff o).1 ha
    simp [h i] at hi

end Marl.Ownership
