import Mathlib.Data.List.Basic
import Mathlib.Logic.Relation

/-!
# Traversal with a worklist

A traversal of a forest keeps a list of subtrees that are still to be visited, leftmost first. A
step takes the first one off the list: it puts the parts of the subtree in its place, or handles
the one leaf that the subtree is, or fails and drops the subtree.

`leaves a` stands for the leaves of the subtree `a`, from left to right. Whatever the steps, what has
been handled and what the list still holds are, in their order, all leaves but the dropped ones
(`Steps.handled_append_pending`).
-/

namespace Worklist

variable {α β : Type*}

/-- What has been handled, what is still to be visited, and the subtrees dropped. -/
structure State (α β : Type*) where
  handled : List β
  pending : List α
  dropped : List α

variable (leaves : α → List β)

/-- One step on the first subtree of the list. -/
inductive Step : State α β → State α β → Prop where
  | expand {handled : List β} {a : α} {as pending dropped : List α} :
      leaves a = as.flatMap leaves →
      Step ⟨handled, a :: pending, dropped⟩ ⟨handled, as ++ pending, dropped⟩
  | handle {handled : List β} {a : α} {b : β} {pending dropped : List α} : leaves a = [b] →
      Step ⟨handled, a :: pending, dropped⟩ ⟨handled ++ [b], pending, dropped⟩
  | drop {handled : List β} {a : α} {pending dropped : List α} :
      Step ⟨handled, a :: pending, dropped⟩ ⟨handled, pending, dropped ++ [a]⟩

/-- Any number of steps. -/
abbrev Steps : State α β → State α β → Prop := Relation.ReflTransGen (Step leaves)

variable {leaves}

variable [DecidableEq β]

/-- The leaves of a list that are in none of the dropped subtrees. -/
def remaining (leaves : α → List β) (dropped : List α) (all : List β) : List β :=
  all.filter fun b => dropped.all fun a => b ∉ leaves a

theorem remaining_nil (all : List β) : remaining leaves [] all = all := by
  unfold remaining
  rw [List.filter_eq_self]
  intro b _
  rfl

theorem remaining_sublist (dropped : List α) (all : List β) :
    (remaining leaves dropped all).Sublist all := List.filter_sublist

theorem remaining_append (dropped : List α) (a : α) (all : List β) :
    remaining leaves (dropped ++ [a]) all =
      (remaining leaves dropped all).filter fun b => b ∉ leaves a := by
  unfold remaining
  rw [List.filter_filter]
  congr 1
  funext b
  simp [Bool.and_comm]

/-- What a step leaves to do. -/
theorem Step.handled_append_pending {s s' : State α β} {all : List β} (h : Step leaves s s')
    (hall : all.Nodup)
    (hs : s.handled ++ s.pending.flatMap leaves = remaining leaves s.dropped all) :
    s'.handled ++ s'.pending.flatMap leaves = remaining leaves s'.dropped all := by
  cases h with
  | expand ha =>
    rw [← hs]
    simp only [List.flatMap_append, List.flatMap_cons, ha]
  | handle ha =>
    rw [← hs]
    simp only [List.flatMap_cons, ha, List.append_assoc]
  | @drop handled a pending dropped =>
    simp only [List.flatMap_cons] at hs ⊢
    have hnodup : (handled ++ (leaves a ++ pending.flatMap leaves)).Nodup :=
      hs ▸ hall.sublist (remaining_sublist _ _)
    rw [remaining_append, ← hs]
    -- the leaves of `a` stand between what has been handled and the rest, which have none of them
    obtain ⟨-, hright, hdisjoint⟩ := List.nodup_append.mp hnodup
    obtain ⟨-, -, hdisjoint'⟩ := List.nodup_append.mp hright
    have hhandled : handled.filter (fun b => b ∉ leaves a) = handled := by
      rw [List.filter_eq_self]
      intro b hb
      exact decide_eq_true fun hba => hdisjoint b hb b (List.mem_append_left _ hba) rfl
    have hself : (leaves a).filter (fun b => b ∉ leaves a) = [] := by
      rw [List.filter_eq_nil_iff]
      intro b hb
      simpa using hb
    have hrest : (pending.flatMap leaves).filter (fun b => b ∉ leaves a) =
        pending.flatMap leaves := by
      rw [List.filter_eq_self]
      intro b hb
      exact decide_eq_true fun hba => hdisjoint' b hba b hb rfl
    rw [List.filter_append, List.filter_append, hhandled, hself, hrest, List.nil_append]

/-- **What a traversal has handled and what its list still holds.** -/
theorem Steps.handled_append_pending {s s' : State α β} {all : List β} (h : Steps leaves s s')
    (hall : all.Nodup)
    (hs : s.handled ++ s.pending.flatMap leaves = remaining leaves s.dropped all) :
    s'.handled ++ s'.pending.flatMap leaves = remaining leaves s'.dropped all := by
  induction h with
  | refl => exact hs
  | tail _ hstep ih => exact hstep.handled_append_pending hall ih

end Worklist
