import Mathlib.Data.Finset.Card

/-!
# Reference counts

An object has a count, which is changed by one at a time. Some of the references to it are owned outside
of what is looked at, and only their number is known; each of the others has a holder. `Counted` says
that the count is that of all of them: it is zero only when there is none.
-/

namespace RefCount

variable {α : Type*} {refcnt vars : ℕ} {P Q : α → Prop} {a b : α}

/-- The count is that of the references owned outside, and of the holders. -/
def Counted (refcnt vars : ℕ) (P : α → Prop) : Prop :=
  ∃ held : Finset α, (∀ a, a ∈ held ↔ P a) ∧ refcnt = vars + held.card

namespace Counted

theorem congr (h : Counted refcnt vars P) (hQ : ∀ a, Q a ↔ P a) : Counted refcnt vars Q := by
  obtain ⟨held, hheld, hcard⟩ := h
  exact ⟨held, fun a => (hheld a).trans (hQ a).symm, hcard⟩

theorem ne_zero_of_holder (h : Counted refcnt vars P) (ha : P a) : refcnt ≠ 0 := by
  obtain ⟨held, hheld, hcard⟩ := h
  have hpos := Finset.card_pos.mpr ⟨a, (hheld a).mpr ha⟩
  omega

theorem ne_zero_of_vars (h : Counted refcnt vars P) (hvars : vars ≠ 0) : refcnt ≠ 0 := by
  obtain ⟨held, -, hcard⟩ := h
  omega

/-- What nothing refers to has a count of zero, and nothing else has. -/
theorem eq_zero_iff (h : Counted refcnt vars P) : refcnt = 0 ↔ vars = 0 ∧ ∀ a, ¬ P a := by
  obtain ⟨held, hheld, hcard⟩ := h
  refine ⟨fun hzero => ?_, fun ⟨hvars, hnone⟩ => ?_⟩
  · obtain rfl := Finset.card_eq_zero.mp (by omega : held.card = 0)
    exact ⟨by omega, fun a ha => Finset.notMem_empty a ((hheld a).mpr ha)⟩
  · rw [hcard, hvars, Finset.eq_empty_of_forall_notMem fun a ha => hnone a ((hheld a).mp ha)]
    rfl

/-- A reference outside is copied. -/
theorem dup (h : Counted refcnt vars P) : Counted (refcnt + 1) (vars + 1) P := by
  obtain ⟨held, hheld, hcard⟩ := h
  exact ⟨held, hheld, by omega⟩

/-- A reference outside is dropped. -/
theorem drop (h : Counted refcnt vars P) (hvars : vars ≠ 0) : Counted (refcnt - 1) (vars - 1) P := by
  obtain ⟨held, hheld, hcard⟩ := h
  exact ⟨held, hheld, by omega⟩

/-- A holder gets a reference. -/
theorem hold (h : Counted refcnt vars P) (ha : ¬ P a) (hQ : ∀ b, Q b ↔ b = a ∨ P b) :
    Counted (refcnt + 1) vars Q := by
  classical
  obtain ⟨held, hheld, hcard⟩ := h
  have hnot : a ∉ held := (hheld a).not.mpr ha
  refine ⟨insert a held, fun b => ?_, ?_⟩
  · rw [Finset.mem_insert, hheld, hQ]
  · rw [Finset.card_insert_of_notMem hnot]
    omega

/-- A holder drops its reference. -/
theorem release (h : Counted refcnt vars P) (ha : P a) (hQ : ∀ b, Q b ↔ b ≠ a ∧ P b) :
    Counted (refcnt - 1) vars Q := by
  classical
  obtain ⟨held, hheld, hcard⟩ := h
  have hmem : a ∈ held := (hheld a).mpr ha
  have hpos := Finset.card_pos.mpr ⟨a, hmem⟩
  refine ⟨held.erase a, fun b => ?_, ?_⟩
  · rw [Finset.mem_erase, hheld, hQ]
  · rw [Finset.card_erase_of_mem hmem]
    omega

/-- A holder gives its reference away. -/
theorem give (h : Counted refcnt vars P) (ha : P a) (hQ : ∀ b, Q b ↔ b ≠ a ∧ P b) :
    Counted refcnt (vars + 1) Q := by
  have hne := h.ne_zero_of_holder ha
  have hgive := (h.release ha hQ).dup
  rwa [Nat.sub_add_cancel (Nat.one_le_iff_ne_zero.mpr hne)] at hgive

/-- A holder passes its reference on. -/
theorem pass (h : Counted refcnt vars P) (ha : P a) (hb : ¬ P b)
    (hQ : ∀ c, Q c ↔ c = b ∨ c ≠ a ∧ P c) : Counted refcnt vars Q := by
  have hne := h.ne_zero_of_holder ha
  have hpass := (h.release ha fun _ => Iff.rfl).hold (fun h => hb h.2) hQ
  rwa [Nat.sub_add_cancel (Nat.one_le_iff_ne_zero.mpr hne)] at hpass

end Counted

end RefCount
