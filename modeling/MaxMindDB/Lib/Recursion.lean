import MaxMindDB.Lib.Raising
import Mathlib.Data.Finset.Card
import Mathlib.Data.List.Chain
import Mathlib.Logic.Relation

/-!
# Recursive calls

A recursive function is given by its bodies: a `Body` returns or raises, or makes a call and goes on
with what it returns; an exception of a call is not caught. `run` allows a number of calls to be in
progress, and raises `spent` when there are more, as an interpreter does. `trace` lists the calls that
are made.

`spent_forever_iff`: when only finitely many arguments call anything, the bound is reached however
large it is exactly when an argument is called while its own call is in progress (`Reenters`);
otherwise a bound of one more than these arguments is never reached (`run_of_not_reenters`).
-/

namespace Recursion

open Except

universe u

variable {α β ε : Type u}

/-- What a function does with an argument. -/
inductive Body (α β ε : Type u) where
  | ret (r : Except ε β)
  | call (a : α) (k : β → Body α β ε)

namespace Body

/-- The outcome, where `f` is the outcome of a call. -/
def exec (f : α → Except ε β) : Body α β ε → Except ε β
  | ret r => r
  | call a k => f a >>= fun b => (k b).exec f

/-- The arguments of the calls that are made. -/
def calls (f : α → Except ε β) : Body α β ε → List α
  | ret _ => []
  | call a k => a :: match f a with
    | .ok b => (k b).calls f
    | .error _ => []

/-- The body does not raise `e` of itself. -/
def Avoids (e : ε) : Body α β ε → Prop
  | ret r => r ≠ .error e
  | call _ k => ∀ b, (k b).Avoids e

variable {f g : α → Except ε β} {body : Body α β ε} {a : α}

theorem exec_call {k : β → Body α β ε} {b : β} (h : f a = .ok b) :
    (call a k).exec f = (k b).exec f := by
  rw [exec, h, ok_bind]

theorem calls_call {k : β → Body α β ε} {b : β} (h : f a = .ok b) :
    (call a k).calls f = a :: (k b).calls f := by
  rw [calls, h]

theorem calls_call_error {k : β → Body α β ε} {e : ε} (h : f a = .error e) :
    (call a k).calls f = [a] := by
  rw [calls, h]

theorem mem_calls_call {k : β → Body α β ε} {x : α} :
    x ∈ (call a k).calls f ↔ x = a ∨ ∃ b, f a = .ok b ∧ x ∈ (k b).calls f := by
  cases hf : f a with
  | error e => simp [calls_call_error hf]
  | ok b => simp [calls_call hf]

/-- A body depends on nothing but the calls it makes. -/
theorem congr (h : ∀ x ∈ body.calls f, f x = g x) :
    body.exec f = body.exec g ∧ body.calls f = body.calls g := by
  induction body with
  | ret r => exact ⟨rfl, rfl⟩
  | call a k ih =>
    cases hf : f a with
    | error e =>
      rw [calls_call_error hf] at h
      have hg : g a = .error e := by rw [← hf, h a List.mem_cons_self]
      rw [exec, exec, hf, hg, calls_call_error hf, calls_call_error hg]
      exact ⟨rfl, rfl⟩
    | ok b =>
      rw [calls_call hf] at h
      have hg : g a = .ok b := by rw [← hf, h a List.mem_cons_self]
      obtain ⟨hexec, hcalls⟩ := ih b fun x hx => h x (List.mem_cons_of_mem _ hx)
      rw [exec_call hf, exec_call hg, calls_call hf, calls_call hg, hexec, hcalls]
      exact ⟨rfl, rfl⟩

theorem exec_of_mem_error {e : ε} (ha : a ∈ body.calls f) (h : f a = .error e) :
    body.exec f = .error e := by
  induction body with
  | ret r => cases ha
  | call a' k ih =>
    cases hf : f a' with
    | error e' =>
      rw [calls_call_error hf, List.mem_singleton] at ha
      subst ha
      rw [exec, h, error_bind]
    | ok b =>
      rw [calls_call hf, List.mem_cons] at ha
      rcases ha with rfl | ha
      · rw [h] at hf
        cases hf
      · rw [exec_call hf]
        exact ih b ha

theorem exists_ok_of_mem {b : β} (h : body.exec f = .ok b) (ha : a ∈ body.calls f) :
    ∃ b', f a = .ok b' := by
  cases hf : f a with
  | error e =>
    rw [exec_of_mem_error ha hf] at h
    cases h
  | ok b' => exact ⟨b', rfl⟩

/-- An exception that a body does not raise of itself is one of a call. -/
theorem exists_of_exec_error {e : ε} (hbody : body.Avoids e) (h : body.exec f = .error e) :
    ∃ x ∈ body.calls f, f x = .error e := by
  induction body with
  | ret r => exact absurd h hbody
  | call a k ih =>
    cases hf : f a with
    | error e' =>
      rw [exec, hf, error_bind] at h
      cases h
      exact ⟨a, by rw [calls_call_error hf]; exact List.mem_singleton_self a, hf⟩
    | ok b =>
      rw [exec_call hf] at h
      obtain ⟨x, hx, hfx⟩ := ih b (hbody b) h
      exact ⟨x, by rw [calls_call hf]; exact List.mem_cons_of_mem _ hx, hfx⟩

theorem exists_ok_of_mem_dropLast (ha : a ∈ (body.calls f).dropLast) : ∃ b, f a = .ok b := by
  induction body with
  | ret r => cases ha
  | call a' k ih =>
    cases hf : f a' with
    | error e =>
      rw [calls_call_error hf] at ha
      cases ha
    | ok b =>
      rw [calls_call hf] at ha
      by_cases hnil : (k b).calls f = []
      · rw [hnil] at ha
        cases ha
      · rw [List.dropLast_cons_of_ne_nil hnil, List.mem_cons] at ha
        rcases ha with rfl | ha
        · exact ⟨b, hf⟩
        · exact ih b ha

theorem calls_subset (h : ∀ x b, f x = .ok b → g x = .ok b) : body.calls f ⊆ body.calls g := by
  induction body with
  | ret r => exact List.Subset.refl _
  | call a k ih =>
    cases hf : f a with
    | error e =>
      rw [calls_call_error hf, calls]
      exact List.cons_subset_cons _ (List.nil_subset _)
    | ok b =>
      rw [calls_call hf, calls_call (h a b hf)]
      exact List.cons_subset_cons _ (ih b)

end Body

/-! ## Bounded runs -/

section

variable (body : α → Body α β ε) (spent : ε)

/-- The outcome of a call, when `n` calls may be in progress. -/
def run : ℕ → α → Except ε β
  | 0, _ => .error spent
  | n + 1, a => (body a).exec (run n)

/-- The arguments of all calls that are made, in their order. -/
def trace : ℕ → α → List α
  | 0, _ => []
  | n + 1, a => a :: ((body a).calls (run body spent n)).flatMap (trace n)

/-- The call of one argument calls another. -/
def Calls (a x : α) : Prop := ∃ n, x ∈ (body a).calls (run body spent n)

/-- A call, or one that it comes to, comes to a call of its own argument. -/
def Reenters (a : α) : Prop :=
  ∃ x, Relation.ReflTransGen (Calls body spent) a x ∧ Relation.TransGen (Calls body spent) x x

end

variable {body : α → Body α β ε} {spent : ε} {a x : α} {n m : ℕ}

theorem ne_spent_of_mem (h : run body spent (n + 1) a ≠ .error spent)
    (hx : x ∈ (body a).calls (run body spent n)) : run body spent n x ≠ .error spent :=
  fun hspent => h (Body.exec_of_mem_error hx hspent)

theorem run_succ (h : run body spent n a ≠ .error spent) :
    run body spent (n + 1) a = run body spent n a := by
  induction n generalizing a with
  | zero => exact absurd rfl h
  | succ n ih =>
    have hcalls : ∀ x ∈ (body a).calls (run body spent n), run body spent n x =
        run body spent (n + 1) x := fun x hx => (ih (ne_spent_of_mem h hx)).symm
    exact (Body.congr hcalls).1.symm

/-- A call that does not reach the bound has the same outcome under every larger one. -/
theorem run_of_le (h : run body spent n a ≠ .error spent) (hle : n ≤ m) :
    run body spent m a = run body spent n a := by
  induction m, hle using Nat.le_induction with
  | base => rfl
  | succ m _ ih => rw [run_succ (by rw [ih]; exact h), ih]

theorem calls_of_le (h : run body spent (n + 1) a ≠ .error spent) (hle : n ≤ m) :
    (body a).calls (run body spent m) = (body a).calls (run body spent n) := by
  have hcalls : ∀ x ∈ (body a).calls (run body spent n), run body spent n x =
      run body spent m x := fun x hx => (run_of_le (ne_spent_of_mem h hx) hle).symm
  exact (Body.congr hcalls).2.symm

theorem trace_of_le (h : run body spent n a ≠ .error spent) (hle : n ≤ m) :
    trace body spent m a = trace body spent n a := by
  induction n generalizing a m with
  | zero => exact absurd rfl h
  | succ n ih =>
    obtain ⟨m, rfl⟩ := Nat.exists_eq_add_of_le' (show 1 ≤ m by omega)
    rw [trace, trace, calls_of_le h (by omega)]
    congr 1
    exact List.flatMap_congr fun x hx => ih (ne_spent_of_mem h hx) (by omega)

theorem Calls.mem (hx : Calls body spent a x) (h : run body spent (n + 1) a ≠ .error spent) :
    x ∈ (body a).calls (run body spent n) := by
  obtain ⟨m, hm⟩ := hx
  have hok : ∀ x b, run body spent m x = .ok b → run body spent (max m n) x = .ok b := by
    intro x b hb
    rw [run_of_le (by rw [hb]; nofun) (Nat.le_max_left m n), hb]
  have hmem := Body.calls_subset hok hm
  rw [calls_of_le h (Nat.le_max_right m n)] at hmem
  exact hmem

theorem Calls.ne_spent (hx : Calls body spent a x) (h : run body spent (n + 1) a ≠ .error spent) :
    run body spent n x ≠ .error spent := ne_spent_of_mem h (hx.mem h)

theorem exists_ok_of_reflTransGen (hx : Relation.ReflTransGen (Calls body spent) a x) {b : β}
    (h : run body spent n a = .ok b) : ∃ m b', run body spent m x = .ok b' := by
  induction hx with
  | refl => exact ⟨n, b, h⟩
  | tail _ hcall ih =>
    obtain ⟨m, b', h⟩ := ih
    cases m with
    | zero => cases h
    | succ m => exact ⟨m, Body.exists_ok_of_mem h (hcall.mem (by rw [h]; nofun))⟩

theorem exists_lt_ne_spent (hx : Relation.TransGen (Calls body spent) a x)
    (h : run body spent n a ≠ .error spent) : ∃ m < n, run body spent m x ≠ .error spent := by
  have hstep : ∀ {a x : α} {n : ℕ}, Calls body spent a x → run body spent n a ≠ .error spent →
      ∃ m < n, run body spent m x ≠ .error spent := by
    intro a x n hcall h
    cases n with
    | zero => exact absurd rfl h
    | succ n => exact ⟨n, Nat.lt_succ_self n, hcall.ne_spent h⟩
  induction hx with
  | single hcall => exact hstep hcall h
  | tail _ hcall ih =>
    obtain ⟨m, hm, h⟩ := ih
    obtain ⟨k, hk, h⟩ := hstep hcall h
    exact ⟨k, hk.trans hm, h⟩

/-- A call that comes to itself reaches every bound. -/
theorem spent_of_transGen (h : Relation.TransGen (Calls body spent) x x) (n : ℕ) :
    run body spent n x = .error spent := by
  induction n using Nat.strong_induction_on with
  | _ n ih =>
    by_contra hne
    obtain ⟨m, hm, h⟩ := exists_lt_ne_spent h hne
    exact h (ih m hm)

theorem Reenters.run_eq (h : Reenters body spent a) (n : ℕ) : run body spent n a = .error spent := by
  obtain ⟨x, hax, hxx⟩ := h
  by_contra hne
  rcases Relation.reflTransGen_iff_eq_or_transGen.mp hax with rfl | hax
  · exact hne (spent_of_transGen hxx n)
  · obtain ⟨m, -, h⟩ := exists_lt_ne_spent hax hne
    exact h (spent_of_transGen hxx m)

/-! ## Calls in progress -/

theorem nodup_of_isChain {as : List α} (h : List.IsChain (Calls body spent) (a :: as))
    (hr : ¬ Reenters body spent a) : (a :: as).Nodup := by
  have hpair : (a :: as).Pairwise (Relation.TransGen (Calls body spent)) :=
    (h.imp fun _ _ hcall => Relation.TransGen.single hcall).pairwise
  have hreach : ∀ x ∈ a :: as, Relation.ReflTransGen (Calls body spent) a x := by
    intro x hx
    rcases List.mem_cons.mp hx with rfl | hx
    · exact .refl
    · exact ((List.pairwise_cons.mp hpair).1 x hx).to_reflTransGen
  refine hpair.imp_of_mem fun {x y} hx _ hxy heq => hr ⟨x, hreach x hx, ?_⟩
  rw [← heq] at hxy
  exact hxy

theorem forall_dropLast_of_isChain {S : Finset α} (hS : ∀ a x, Calls body spent a x → a ∈ S)
    {as : List α} (h : List.IsChain (Calls body spent) as) : ∀ x ∈ as.dropLast, x ∈ S := by
  induction as with
  | nil => simp
  | cons a as ih =>
    cases as with
    | nil => simp
    | cons a' as =>
      rw [List.isChain_cons_cons] at h
      intro x hx
      rw [List.dropLast_cons_cons, List.mem_cons] at hx
      rcases hx with rfl | hx
      · exact hS _ _ h.1
      · exact ih h.2 x hx

/-- **How many calls may be in progress.** -/
theorem length_le_of_isChain {S : Finset α} (hS : ∀ a x, Calls body spent a x → a ∈ S)
    {as : List α} (h : List.IsChain (Calls body spent) (a :: as)) (hr : ¬ Reenters body spent a) :
    as.length ≤ S.card := by
  classical
  have hnodup := (nodup_of_isChain h hr).sublist (List.dropLast_sublist (a :: as))
  have hsub : (a :: as).dropLast.toFinset ⊆ S := by
    intro x hx
    exact forall_dropLast_of_isChain hS h x (List.mem_toFinset.mp hx)
  have hcard := Finset.card_le_card hsub
  rw [List.toFinset_card_of_nodup hnodup, List.length_dropLast, List.length_cons,
    Nat.add_sub_cancel] at hcard
  exact hcard

theorem exists_isChain (hbody : ∀ a, (body a).Avoids spent)
    (h : run body spent n a = .error spent) :
    ∃ as : List α, as.length = n ∧ List.IsChain (Calls body spent) (a :: as) := by
  induction n generalizing a with
  | zero => exact ⟨[], rfl, List.isChain_singleton a⟩
  | succ n ih =>
    obtain ⟨x, hx, hspent⟩ := Body.exists_of_exec_error (hbody a) h
    obtain ⟨as, hlen, hchain⟩ := ih hspent
    exact ⟨x :: as, by rw [List.length_cons, hlen], List.isChain_cons_cons.mpr ⟨⟨n, hx⟩, hchain⟩⟩

/-- What no body raises of itself, no run does, unless it is at the bound. -/
theorem run_ne_error {e : ε} (hbody : ∀ a, (body a).Avoids e) (hne : e ≠ spent) :
    run body spent n a ≠ .error e := by
  induction n generalizing a with
  | zero =>
    rintro ⟨⟩
    exact hne rfl
  | succ n ih =>
    intro h
    obtain ⟨x, -, hx⟩ := Body.exists_of_exec_error (hbody a) h
    exact ih hx

section

variable {S : Finset α} (hbody : ∀ a, (body a).Avoids spent)
  (hS : ∀ a x, Calls body spent a x → a ∈ S)

include hbody hS

/-- Without re-entry, a bound of one more than the arguments that call anything is not reached. -/
theorem run_of_not_reenters (hr : ¬ Reenters body spent a) (hn : S.card < n) :
    run body spent n a ≠ .error spent := by
  intro h
  obtain ⟨as, hlen, hchain⟩ := exists_isChain hbody h
  have := length_le_of_isChain hS hchain hr
  omega

/-- **When every bound is reached.** -/
theorem spent_forever_iff :
    (∀ n, run body spent n a = .error spent) ↔ Reenters body spent a := by
  constructor
  · intro h
    by_contra hr
    exact run_of_not_reenters hbody hS hr (Nat.lt_succ_self _) (h _)
  · exact fun h => h.run_eq

end

end Recursion
