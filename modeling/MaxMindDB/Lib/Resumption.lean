import MaxMindDB.Lib.Raising
import Mathlib.Algebra.BigOperators.Group.List.Basic
import Mathlib.Algebra.GroupWithZero.Nat

/-!
# Generators that are resumed

A generator that is suspended at a `yield` is a stack of frames. `Coroutine.resume` runs the frame on top
until a value is yielded; `Coroutine.next` is a call of `next`, after which a generator that has raised or
run out is finished.

`next_eq`: call by call, the frames yield what the generator yields that they stand for.
`next_of_refuses`: once the calls that frames make are refused, the generator ends without any or raises.
-/

namespace Except

universe u v

variable {ε : Type u} {α β : Type v}

/-- The call is refused with `e`, or goes as the other one does. -/
def Refuses (e : ε) (x y : Except ε α) : Prop := x = .error e ∨ x = y

theorem Refuses.refl (e : ε) (x : Except ε α) : Refuses e x x := .inr rfl

theorem Refuses.refused (e : ε) (x : Except ε α) : Refuses e (.error e) x := .inl rfl

/-- What follows a call goes on as it would have, unless the call is refused. -/
theorem Refuses.bind {e : ε} {x y : Except ε α} {f g : α → Except ε β} (h : Refuses e x y)
    (hfg : ∀ a, Refuses e (f a) (g a)) : Refuses e (x >>= f) (y >>= g) := by
  rcases h with rfl | rfl
  · exact .refused e _
  · cases x with
    | error e' => exact .refl e _
    | ok a => exact hfg a

end Except

namespace Gen

variable {ε α : Type*}

/-- `next(g)`, and what is left of the generator. -/
def next (g : Gen ε α) : Except ε (Option α) × Gen ε α :=
  match g with
  | ⟨a :: as, e⟩ => (.ok (some a), ⟨as, e⟩)
  | ⟨[], some e⟩ => (.error e, done)
  | ⟨[], none⟩ => (.ok none, done)

theorem next_raised_ne {g : Gen ε α} {e : ε} (h : g.raised ≠ some e) :
    g.next.1 ≠ .error e ∧ g.next.2.raised ≠ some e := by
  obtain ⟨yields, raised⟩ := g
  cases yields with
  | cons a as => exact ⟨nofun, h⟩
  | nil =>
    cases raised with
    | none => exact ⟨nofun, nofun⟩
    | some e' =>
      refine ⟨?_, nofun⟩
      rintro ⟨⟩
      exact h rfl

theorem andThen_done (g : Gen ε α) : g.andThen done = g := by
  cases hg : g.raised with
  | none => rw [andThen_of_none hg]; simp [← hg]
  | some e => exact andThen_of_some hg _

/-- `yield from` each of the generators. -/
def all {F : Type*} (g : F → Gen ε α) : List F → Gen ε α
  | [] => done
  | f :: fs => (g f).andThen (all g fs)

@[simp] theorem all_nil {F : Type*} (g : F → Gen ε α) : all g [] = done := rfl

theorem all_cons {F : Type*} (g : F → Gen ε α) (f : F) (fs : List F) :
    all g (f :: fs) = (g f).andThen (all g fs) := rfl

theorem andThen_assoc (g h k : Gen ε α) : (g.andThen h).andThen k = g.andThen (h.andThen k) := by
  cases hg : g.raised with
  | some e => rw [andThen_of_some hg, andThen_of_some hg, andThen_of_some hg]
  | none =>
    cases hh : h.raised with
    | some e => simp [andThen, hg, hh]
    | none => simp [andThen, hg, hh]

theorem all_append {F : Type*} (g : F → Gen ε α) (fs fs' : List F) :
    all g (fs ++ fs') = (all g fs).andThen (all g fs') := by
  induction fs with
  | nil => rfl
  | cons f fs ih => rw [List.cons_append, all_cons, all_cons, ih, andThen_assoc]

end Gen

/-- What a frame does when it is resumed: it yields its last value, or is left for other frames that run
one after the other. -/
inductive Move (α F : Type*) where
  | yields (a : α)
  | calls (fs : List F)

/-- The frames of a generator, which make less and less work. -/
structure Coroutine (ε α F : Type*) where
  body : F → Except ε (Move α F)
  weight : F → ℕ
  weight_lt : ∀ {f fs}, body f = .ok (.calls fs) → (fs.map weight).sum < weight f

namespace Coroutine

variable {ε α F : Type*} (c : Coroutine ε α F)

/-- The next value and the frames that are left then; `none` when the frames run out. -/
def resume (fs : List F) : Except ε (Option (α × List F)) :=
  match fs with
  | [] => .ok none
  | f :: fs =>
    match h : c.body f with
    | .error e => .error e
    | .ok (.yields a) => .ok (some (a, fs))
    | .ok (.calls callees) =>
      have : (callees.map c.weight).sum < c.weight f := c.weight_lt h
      resume (callees ++ fs)
termination_by (fs.map c.weight).sum
decreasing_by simpa using this

/-- `next`. -/
def next (fs : List F) : Except ε (Option α) × List F :=
  match c.resume fs with
  | .error e => (.error e, [])
  | .ok none => (.ok none, [])
  | .ok (some (a, fs)) => (.ok (some a), fs)

variable {c} {f : F} {fs callees : List F}

@[simp] theorem resume_nil : c.resume [] = .ok none := by rw [resume]

theorem resume_of_error {e : ε} (h : c.body f = .error e) : c.resume (f :: fs) = .error e := by
  rw [resume]
  split <;> simp_all

theorem resume_of_yields {a : α} (h : c.body f = .ok (.yields a)) :
    c.resume (f :: fs) = .ok (some (a, fs)) := by
  rw [resume]
  split <;> simp_all

theorem resume_of_calls (h : c.body f = .ok (.calls callees)) :
    c.resume (f :: fs) = c.resume (callees ++ fs) := by
  rw [resume]
  split <;> simp_all

/-- What a frame stands for that makes the given move, when the frames stand for the generators `g`. -/
def moveGen (g : F → Gen ε α) : Except ε (Move α F) → Gen ε α
  | .error e => .raise e
  | .ok (.yields a) => .yield a
  | .ok (.calls fs) => .all g fs

/-- Each frame stands for a generator. -/
def Means (c : Coroutine ε α F) (g : F → Gen ε α) : Prop := ∀ f, g f = moveGen g (c.body f)

/-- **Resumed call by call, the frames yield what they stand for.** -/
theorem next_eq {g : F → Gen ε α} (hg : c.Means g) (fs : List F) :
    (Gen.all g fs).next = ((c.next fs).1, Gen.all g (c.next fs).2) := by
  unfold next
  induction fs using resume.induct c with
  | case1 => rw [resume_nil]; rfl
  | case2 f fs e h =>
    rw [resume_of_error h, Gen.all_cons, hg f, h]
    rfl
  | case3 f fs a h =>
    rw [resume_of_yields h, Gen.all_cons, hg f, h]
    rfl
  | case4 f fs callees h _ ih =>
    have hf : g f = Gen.all g callees := by rw [hg f, h]; rfl
    rw [resume_of_calls h, Gen.all_cons, hf, ← Gen.all_append]
    exact ih

/-- The frames of `c'` make the same calls as those of `c`, some of which are refused with `e`; those that
yield a value make such a call. -/
structure RefusesTo (e : ε) (c' c : Coroutine ε α F) : Prop where
  body : ∀ f, Except.Refuses e (c'.body f) (c.body f)
  yields : ∀ f a, c'.body f ≠ .ok (.yields a)

/-- **A generator whose calls are refused ends, or raises.** -/
theorem next_of_refuses {e : ε} {c' : Coroutine ε α F} (h : RefusesTo e c' c) (fs : List F) :
    (c'.next fs).2 = [] ∧ ((c'.next fs).1 = .error e ∨
      (c'.next fs).1 = (c.next fs).1 ∧ ∀ a, (c'.next fs).1 ≠ .ok (some a)) := by
  unfold next
  induction fs using resume.induct c' with
  | case1 => simp
  | case2 f fs e' h' =>
    rw [resume_of_error h']
    refine ⟨rfl, ?_⟩
    rcases h.body f with hf | hf
    · rw [hf, Except.error.injEq] at h'
      exact .inl (by rw [h'])
    · rw [h'] at hf
      rw [resume_of_error hf.symm]
      exact .inr ⟨rfl, nofun⟩
  | case3 f fs a h' => exact absurd h' (h.yields f a)
  | case4 f fs callees h' _ ih =>
    rcases h.body f with hf | hf
    · rw [hf] at h'
      cases h'
    · rw [h'] at hf
      rw [resume_of_calls h', resume_of_calls hf.symm]
      exact ih

end Coroutine
