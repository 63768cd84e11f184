import Mathlib.Data.List.Basic
import Mathlib.Logic.Function.Basic

/-!
# Linked lists whose cells have owners

`link` says of each address that is allocated which address follows it, if one does; `own` says to whom
an address belongs. A list in memory is the chain of addresses from a head to the end. `Owned` says that
there is such a chain, and that one owner has all of it: whoever changes only what it has leaves the
lists of others as they are.
-/

namespace OwnedList

variable {α β : Type*} {link link' : α → Option (Option α)} {own own' : α → Option β}
  {x : Option α} {a : α} {o : β} {L L' : List α}

/-! ## Chains -/

/-- From the head `x` the addresses `L` follow one another, to the end. -/
inductive Chain (link : α → Option (Option α)) : Option α → List α → Prop where
  | nil : Chain link none []
  | cons {a : α} {x : Option α} {L : List α} : link a = some x → Chain link x L →
      Chain link (some a) (a :: L)

theorem Chain.unique (h : Chain link x L) (h' : Chain link x L') : L = L' := by
  induction h generalizing L' with
  | nil =>
    cases h'
    rfl
  | cons ha _ ih =>
    cases h' with
    | cons ha' h' =>
      rw [ha] at ha'
      cases ha'
      rw [ih h']

theorem Chain.exists_of_mem (h : Chain link x L) (ha : a ∈ L) :
    ∃ L', Chain link (some a) L' ∧ L'.length ≤ L.length := by
  induction h with
  | nil => cases ha
  | cons hb hchain ih =>
    rcases List.mem_cons.mp ha with rfl | ha
    · exact ⟨_, .cons hb hchain, Nat.le_refl _⟩
    · obtain ⟨L', hL', hlen⟩ := ih ha
      exact ⟨L', hL', Nat.le_succ_of_le hlen⟩

/-- A chain does not come back to its head, as it would never end. -/
theorem Chain.notMem (h : Chain link (some a) (a :: L)) : a ∉ L := by
  intro ha
  cases h with
  | cons hlink hchain =>
    obtain ⟨L', hL', hlen⟩ := hchain.exists_of_mem ha
    rw [hL'.unique (.cons hlink hchain), List.length_cons] at hlen
    exact absurd hlen (Nat.not_succ_le_self _)

theorem Chain.congr (h : Chain link x L) (hlink : ∀ a ∈ L, link' a = link a) : Chain link' x L := by
  induction h with
  | nil => exact .nil
  | cons ha _ ih =>
    refine .cons ?_ (ih fun b hb => hlink b (List.mem_cons_of_mem _ hb))
    rw [hlink _ List.mem_cons_self, ha]

/-! ## Owners -/

/-- The list from a head on belongs to an owner. -/
def Owned (link : α → Option (Option α)) (own : α → Option β) (o : β) (x : Option α) : Prop :=
  ∃ L, Chain link x L ∧ ∀ a ∈ L, own a = some o

theorem Owned.nil : Owned link own o none := ⟨[], .nil, fun _ h => by cases h⟩

theorem Owned.head (h : Owned link own o (some a)) : own a = some o := by
  obtain ⟨L, hchain, hown⟩ := h
  cases hchain with
  | cons _ _ => exact hown a List.mem_cons_self

/-- What an owner has stays with it, and is linked as before. -/
def Keeps (link link' : α → Option (Option α)) (own own' : α → Option β) (o : β) : Prop :=
  ∀ a, own a = some o → own' a = some o ∧ link' a = link a

theorem Keeps.refl : Keeps link link own own o := fun _ h => ⟨h, rfl⟩

theorem Keeps.trans {link'' : α → Option (Option α)} {own'' : α → Option β}
    (h : Keeps link link' own own' o) (h' : Keeps link' link'' own' own'' o) :
    Keeps link link'' own own'' o := by
  intro a ha
  obtain ⟨hown, hlink⟩ := h a ha
  obtain ⟨hown', hlink'⟩ := h' a hown
  exact ⟨hown', hlink'.trans hlink⟩

theorem Owned.keep (h : Owned link own o x) (hkeep : Keeps link link' own own' o) :
    Owned link' own' o x := by
  obtain ⟨L, hchain, hown⟩ := h
  exact ⟨L, hchain.congr fun a ha => (hkeep a (hown a ha)).2, fun a ha => (hkeep a (hown a ha)).1⟩

variable [DecidableEq α]

/-- What the owner does not have is linked otherwise. -/
theorem Keeps.relink (ha : own a ≠ some o) (y : Option (Option α)) :
    Keeps link (Function.update link a y) own own o := by
  intro b hb
  have hne : b ≠ a := fun h => ha (h ▸ hb)
  exact ⟨hb, Function.update_of_ne hne ..⟩

/-- What the owner does not have changes hands. -/
theorem Keeps.reown (ha : own a ≠ some o) (o' : Option β) :
    Keeps link link own (Function.update own a o') o := by
  intro b hb
  have hne : b ≠ a := fun h => ha (h ▸ hb)
  exact ⟨by rw [Function.update_of_ne hne, hb], rfl⟩

theorem Owned.pop (h : Owned link own o (some a)) (ha : link a = some x) (o' : Option β) :
    Owned link (Function.update own a o') o x := by
  obtain ⟨L, hchain, hown⟩ := h
  cases hchain with
  | @cons _ y L hy hchain =>
    rw [ha] at hy
    cases hy
    have hnot : a ∉ L := (Chain.cons ha hchain).notMem
    refine ⟨L, hchain, fun b hb => ?_⟩
    have hne : b ≠ a := fun h => hnot (h ▸ hb)
    rw [Function.update_of_ne hne]
    exact hown b (List.mem_cons_of_mem _ hb)

theorem Owned.push (h : Owned link own o x) (ha : link a = some x) :
    Owned link (Function.update own a (some o)) o (some a) := by
  obtain ⟨L, hchain, hown⟩ := h
  refine ⟨a :: L, .cons ha hchain, fun b hb => ?_⟩
  by_cases hba : b = a
  · rw [hba, Function.update_self]
  · rw [Function.update_of_ne hba]
    exact hown b ((List.mem_cons.mp hb).resolve_left hba)

end OwnedList
