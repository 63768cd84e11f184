import MaxMindDB.Lib.Generator
import Mathlib.Order.Filter.AtTopBot.Basic

/-!
# Calls that may raise

The rules of `Except` as a monad, which push a `do` block down to the outcome of its calls, and
the outcome of a call whose nested calls are bounded: `Settles f r` says that `f` has outcome `r`
under every sufficiently large bound. `Allows ok x out` says that the call returns, or raises only
what `ok` allows, and `out` is what it returns; `RaisesOnly P x` says that it raises nothing but `P`.
-/

namespace Except

universe u v

variable {ε : Type u} {α β : Type v}

@[simp] theorem ok_bind (a : α) (f : α → Except ε β) : ((Except.ok a : Except ε α) >>= f) = f a := rfl

@[simp] theorem error_bind (e : ε) (f : α → Except ε β) :
    ((Except.error e : Except ε α) >>= f) = Except.error e := rfl

@[simp] theorem pure_eq_ok (a : α) : (pure a : Except ε α) = .ok a := rfl

@[simp] theorem throw_eq_error (e : ε) : (throw e : Except ε α) = .error e := rfl

theorem bind_eq_ok {x : Except ε α} {f : α → Except ε β} {b : β} :
    x >>= f = .ok b ↔ ∃ a, x = .ok a ∧ f a = .ok b := by
  cases x <;> simp

theorem bind_ne_error {x : Except ε α} {f : α → Except ε β} {e : ε} (hx : x ≠ .error e)
    (hf : ∀ a, f a ≠ .error e) : x >>= f ≠ .error e := by
  cases x with
  | error e' => exact fun h => hx (by cases h; rfl)
  | ok a => exact hf a

theorem map_bind {γ : Type v} (g : β → γ) (x : Except ε α) (f : α → Except ε β) :
    (x >>= f).map g = x >>= fun a => (f a).map g := by
  cases x <;> rfl

/-- The call returns the value, or raises an exception that `ok` allows. -/
inductive Allows (ok : ε → Prop) : Except ε α → Option α → Prop where
  | returns (a : α) : Allows ok (.ok a) (some a)
  | raises {e : ε} : ok e → Allows ok (.error e) none

variable {ok : ε → Prop}

theorem allows_some {x : Except ε α} {a : α} : Allows ok x (some a) ↔ x = .ok a := by
  constructor
  · rintro ⟨⟩
    rfl
  · rintro rfl
    exact .returns a

theorem allows_none {x : Except ε α} : Allows ok x none ↔ ∃ e, x = .error e ∧ ok e := by
  constructor
  · rintro ⟨⟩
    exact ⟨_, rfl, by assumption⟩
  · rintro ⟨e, rfl, he⟩
    exact .raises he

theorem allows_ok {a : α} {out : Option α} : Allows ok (.ok a) out ↔ out = some a := by
  constructor
  · rintro ⟨⟩
    rfl
  · rintro rfl
    exact .returns a

theorem allows_error {e : ε} {out : Option α} : Allows ok (.error e) out ↔ ok e ∧ out = none := by
  constructor
  · rintro ⟨⟩
    exact ⟨by assumption, rfl⟩
  · rintro ⟨he, rfl⟩
    exact .raises he

theorem allows_bind {x : Except ε α} {f : α → Except ε β} {out : Option β} :
    Allows ok (x >>= f) out ↔
      (Allows ok x none ∧ out = none) ∨ ∃ a, x = .ok a ∧ Allows ok (f a) out := by
  cases x with
  | error e => simp [allows_error]
  | ok a => simp [allows_ok]

/-- Calls that raise nothing that is allowed, one after the other. -/
theorem not_allows_bind {x : Except ε α} {f : α → Except ε β} (hx : ¬ Allows ok x none)
    (hf : ∀ a, ¬ Allows ok (f a) none) : ¬ Allows ok (x >>= f) none := by
  rw [allows_bind]
  rintro (⟨h, -⟩ | ⟨a, -, h⟩)
  · exact hx h
  · exact hf a h

theorem not_allows_ok {a : α} : ¬ Allows ok (.ok a) none := fun h => by cases h

theorem exists_allows {x : Except ε α} : (∃ out, Allows ok x out) ↔ ∀ e, x = .error e → ok e := by
  cases x with
  | error e => simp [allows_error]
  | ok a => simp [allows_ok]

/-- Whatever the call raises is one of these. -/
def RaisesOnly (P : ε → Prop) (x : Except ε α) : Prop := ∀ e, x = .error e → P e

section RaisesOnly

variable {P Q : ε → Prop} {x : Except ε α}

theorem raisesOnly_ok {a : α} : RaisesOnly P (.ok a : Except ε α) := nofun

theorem raisesOnly_error {e : ε} (h : P e) : RaisesOnly P (.error e : Except ε α) := by
  rintro e' ⟨⟩
  exact h

theorem RaisesOnly.bind {f : α → Except ε β} (hx : RaisesOnly P x) (hf : ∀ a, RaisesOnly P (f a)) :
    RaisesOnly P (x >>= f) := by
  cases x with
  | error e => exact raisesOnly_error (hx e rfl)
  | ok a => exact hf a

theorem RaisesOnly.mono (h : RaisesOnly P x) (hPQ : ∀ e, P e → Q e) : RaisesOnly Q x :=
  fun e he => hPQ e (h e he)

theorem RaisesOnly.not_allows (h : RaisesOnly P x) (hok : ∀ e, P e → ¬ ok e) : ¬ Allows ok x none := by
  rw [allows_none]
  rintro ⟨e, he, hallowed⟩
  exact hok e (h e he) hallowed

end RaisesOnly

theorem exists_allows_map {x : Except ε α} (f : α → β) :
    (∃ out, Allows ok (x.map f) out) ↔ ∃ out, Allows ok x out := by
  cases x with
  | error e => simp [Except.map, allows_error]
  | ok a => exact ⟨fun _ => ⟨_, .returns a⟩, fun _ => ⟨_, .returns (f a)⟩⟩

end Except

namespace Raising

open Filter

variable {γ : Type*}

/-- Under every sufficiently large bound the call has outcome `r`. -/
def Settles (f : ℕ → γ) (r : γ) : Prop := ∀ᶠ limit in atTop, f limit = r

theorem settles_const (r : γ) : Settles (fun _ => r) r := Eventually.of_forall fun _ => rfl

/-- A call has at most one settled outcome. -/
theorem Settles.unique {f : ℕ → γ} {r r' : γ} (h : Settles f r) (h' : Settles f r') : r = r' := by
  obtain ⟨n, hn, hn'⟩ := (h.and h').exists
  rw [← hn, hn']

/-- What follows from one nested call fewer being allowed. -/
theorem eventually_succ {P Q : ℕ → Prop} (h : ∀ᶠ n in atTop, P n) (hs : ∀ n, P n → Q (n + 1)) :
    ∀ᶠ n in atTop, Q n := by
  obtain ⟨N, hN⟩ := eventually_atTop.mp h
  refine eventually_atTop.mpr ⟨N + 1, fun n hn => ?_⟩
  obtain ⟨m, rfl⟩ := Nat.exists_eq_add_of_le' (show 1 ≤ n by omega)
  exact hs m (hN m (by omega))

theorem Settles.succ {f g : ℕ → γ} {r : γ} (h : Settles f r) (hg : ∀ n, g (n + 1) = f n) :
    Settles g r := eventually_succ h fun n hn => by rw [hg n, hn]

theorem Settles.exists {f : ℕ → γ} {r : γ} (h : Settles f r) : ∃ n, f n = r := Eventually.exists h

theorem exists_succ_of_eventually {P : ℕ → Prop} (h : ∀ᶠ n in atTop, P n) : ∃ n, P (n + 1) := by
  obtain ⟨n, hn, h⟩ := ((eventually_ge_atTop 1).and h).exists
  obtain ⟨m, rfl⟩ := Nat.exists_eq_add_of_le' hn
  exact ⟨m, h⟩

/-- A call that settles has its outcome under a bound that is not zero. -/
theorem Settles.exists_succ {f : ℕ → γ} {r : γ} (h : Settles f r) : ∃ n, f (n + 1) = r :=
  exists_succ_of_eventually h

universe u v

variable {ε : Type u} {α β : Type v}

theorem Settles.bind_ok {x : ℕ → Except ε α} {a : α} {f : ℕ → α → Except ε β} {r : Except ε β}
    (hx : Settles x (.ok a)) (hf : Settles (fun n => f n a) r) :
    Settles (fun n => x n >>= f n) r := by
  filter_upwards [hx, hf] with n h1 h2
  rw [h1, Except.ok_bind, h2]

/-- A generator that renders finitely many values settles when each rendering does. -/
theorem settles_mapM {γ δ : Type*} {f : ℕ → γ → Except ε δ} {as : List γ}
    (h : ∀ a ∈ as, ∃ b, Settles (fun n => f n a) (.ok b)) :
    ∃ bs, Settles (fun n => Gen.mapM (f n) ⟨as, none⟩) ⟨bs, none⟩ := by
  induction as with
  | nil => exact ⟨[], settles_const _⟩
  | cons a as ih =>
    obtain ⟨b, hb⟩ := h a List.mem_cons_self
    obtain ⟨bs, hbs⟩ := ih fun a' ha' => h a' (List.mem_cons_of_mem _ ha')
    refine ⟨b :: bs, ?_⟩
    filter_upwards [hb, hbs] with n hn hns
    unfold Gen.mapM at hns ⊢
    rw [Gen.mapList, hn, Gen.await_ok, hns]
    rfl

theorem settles_mapM_of_forall₂ {γ δ : Type*} {f : ℕ → γ → Except ε δ} {as : List γ} {bs : List δ}
    (h : List.Forall₂ (fun a b => Settles (fun n => f n a) (.ok b)) as bs) :
    Settles (fun n => Gen.mapM (f n) ⟨as, none⟩) ⟨bs, none⟩ := by
  induction h with
  | nil => exact settles_const _
  | cons hab _ ih =>
    filter_upwards [hab, ih] with n hn hns
    unfold Gen.mapM at hns ⊢
    rw [Gen.mapList, hn, Gen.await_ok, hns]
    rfl

end Raising
