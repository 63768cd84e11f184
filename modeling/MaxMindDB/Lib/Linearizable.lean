import MaxMindDB.Lib.RwLock

/-!
# Linearizability

Of a run of threads under a readers-writer lock, what is seen from outside is where a call begins and
where it returns. An atomic object does all of a call at one moment. A history is linearizable when the
atomic object has it too, with a moment for each call between its beginning and its return
(`Linearizes`).

A `Simulation` shows that every history is. Its ghost says what has been, and it holds of all that the
calls may still return: where a call has had its moment and has still to find out what it returns, each
of its answers is followed.
-/

namespace RwLock

open Function (update)

variable {ι σ α P A : Type*}

/-! ## Histories -/

/-- What is seen of a run: a thread enters the code at a point, or leaves it at one. -/
inductive Seen (ι P : Type*) where
  | call (t : ι) (p : P)
  | ret (t : ι) (p : P)

section

variable [DecidableEq ι] (code : P → Instr σ α P) (starts : State ι σ P → ι → P → Prop)

/-- A step in which no call begins or returns. -/
def Inner (s s' : State ι σ P) : Prop :=
  Step code starts s s' ∧ ∀ t, s'.threads t = none ↔ s.threads t = none

/-- A thread goes from a point to another. -/
structure Passage (s s' : State ι σ P) (t : ι) (p q : P) : Prop where
  step : Step code starts s s'
  others : ∀ u, u ≠ t → s'.threads u = s.threads u
  source : s.threads t = some p
  target : s'.threads t = some q
  does : ∃ e, Does code s.memory p e q s'.memory

/-- A run, with its history. -/
inductive Run (s₀ : State ι σ P) : List (Seen ι P) → State ι σ P → Prop where
  | init : Run s₀ [] s₀
  | call {H : List (Seen ι P)} {s : State ι σ P} {t : ι} {p : P} : Run s₀ H s →
      s.threads t = none → starts s t p → Run s₀ (H ++ [.call t p]) (s.move t (some p))
  | inner {H : List (Seen ι P)} {s s' : State ι σ P} : Run s₀ H s → Inner code starts s s' →
      Run s₀ H s'
  | ret {H : List (Seen ι P)} {s : State ι σ P} {t : ι} {p : P} : Run s₀ H s →
      s.threads t = some p → code p = .done → Run s₀ (H ++ [.ret t p]) (s.move t none)

variable {code starts} {s₀ s s' : State ι σ P} {H : List (Seen ι P)}

/-- In an inner step, one thread goes from a point to another. -/
theorem Inner.exists_passage (h : Inner code starts s s') : ∃ t p q, Passage code starts s s' t p q := by
  obtain ⟨t, hothers, ⟨hnone, -, p, -, hp⟩ | ⟨p, e, q, hp, hq, hdoes⟩ | ⟨p, hp, -, -, hnone⟩⟩ :=
    h.1.exists_thread
  · have := (h.2 t).mpr hnone
    rw [hp] at this
    cases this
  · exact ⟨t, p, q, h.1, hothers, hp, hq, e, hdoes⟩
  · have := (h.2 t).mp hnone
    rw [hp] at this
    cases this

theorem inner_of_move {x : State ι σ P} {t : ι} {p q : P} (hx : x.threads = s.threads)
    (ht : s.threads t = some p) (hstep : Step code starts s (x.move t (some q))) :
    Inner code starts s (x.move t (some q)) := by
  refine ⟨hstep, fun u => ?_⟩
  by_cases hu : u = t
  · rw [hu, State.move_threads_self, ht]
    simp
  · rw [State.move_threads_of_ne hu, hx]

/-- Every run has a history. -/
theorem exists_run (h : Steps code starts s₀ s) : ∃ H, Run code starts s₀ H s := by
  induction h with
  | refl => exact ⟨[], .init⟩
  | tail _ hstep ih =>
    obtain ⟨H, hrun⟩ := ih
    cases hstep with
    | start ht hstart => exact ⟨_, hrun.call ht hstart⟩
    | finish ht hcode => exact ⟨_, hrun.ret ht hcode⟩
    | acquireShared ht hcode hw =>
      exact ⟨H, hrun.inner (inner_of_move rfl ht (.acquireShared ht hcode hw))⟩
    | acquireExclusive ht hcode hw hzero =>
      exact ⟨H, hrun.inner (inner_of_move rfl ht (.acquireExclusive ht hcode hw hzero))⟩
    | acquireFails ht hcode => exact ⟨H, hrun.inner (inner_of_move rfl ht (.acquireFails ht hcode))⟩
    | releaseShared ht hcode hr =>
      exact ⟨H, hrun.inner (inner_of_move rfl ht (.releaseShared ht hcode hr))⟩
    | releaseExclusive ht hcode hw =>
      exact ⟨H, hrun.inner (inner_of_move rfl ht (.releaseExclusive ht hcode hw))⟩
    | act a ht hcode => exact ⟨H, hrun.inner (inner_of_move rfl ht (.act a ht hcode))⟩

end

/-! ## Atomic objects -/

/-- How far a call of a thread is with an atomic object: it has begun at a point, or has been done and
returns from a point. -/
inductive Status (P : Type*) where
  | idle
  | called (p : P)
  | decided (q : P)

section

variable [DecidableEq ι] (performs : A → P → P → A → Prop)

/-- The histories of an atomic object, with the object and the calls at their end: `performs a p q a'`
says that a call that begins at `p` may be done on `a`, when it makes it `a'` and returns from `q`. -/
inductive Linearizes (a₀ : A) : List (Seen ι P) → A → (ι → Status P) → Prop where
  | init : Linearizes a₀ [] a₀ fun _ => .idle
  | call {H : List (Seen ι P)} {a : A} {st : ι → Status P} {t : ι} {p : P} :
      Linearizes a₀ H a st → st t = .idle →
      Linearizes a₀ (H ++ [.call t p]) a (update st t (.called p))
  | point {H : List (Seen ι P)} {a a' : A} {st : ι → Status P} {t : ι} {p q : P} :
      Linearizes a₀ H a st → st t = .called p → performs a p q a' →
      Linearizes a₀ H a' (update st t (.decided q))
  | ret {H : List (Seen ι P)} {a : A} {st : ι → Status P} {t : ι} {q : P} :
      Linearizes a₀ H a st → st t = .decided q →
      Linearizes a₀ (H ++ [.ret t q]) a (update st t .idle)

/-- An atomic object has the history. -/
def Linearizable (a₀ : A) (H : List (Seen ι P)) : Prop :=
  ∃ a st, Linearizes performs a₀ H a st

variable {performs} {a₀ a : A} {st : ι → Status P} {H : List (Seen ι P)} {t : ι} {p q : P}

/-! A call that nothing else runs beside is done on the object there is. -/

theorem Linearizes.eq_of_nil (h : Linearizes performs a₀ H a st) (hnil : H = []) :
    a = a₀ ∧ st = fun _ => .idle := by
  induction h with
  | init => exact ⟨rfl, rfl⟩
  | call => cases List.append_ne_nil_of_right_ne_nil _ (List.cons_ne_nil _ _) hnil
  | point _ hcalled _ ih =>
    rw [(ih hnil).2] at hcalled
    cases hcalled
  | ret => cases List.append_ne_nil_of_right_ne_nil _ (List.cons_ne_nil _ _) hnil

theorem Linearizes.of_call (h : Linearizes performs a₀ H a st) (hcall : H = [.call t p]) :
    a = a₀ ∧ st = update (fun _ => .idle) t (.called p) ∨
    ∃ q, performs a₀ p q a ∧ st = update (fun _ => .idle) t (.decided q) := by
  induction h with
  | init => cases hcall
  | call hlin _ _ =>
    obtain ⟨hH, heq⟩ := List.append_inj' (show _ ++ [_] = [] ++ [_] from hcall) rfl
    cases heq
    obtain ⟨rfl, rfl⟩ := hlin.eq_of_nil hH
    exact .inl ⟨rfl, rfl⟩
  | @point _ a' a'' st u p' q' _ hcalled hperforms ih =>
    rcases ih hcall with ⟨rfl, rfl⟩ | ⟨q, -, rfl⟩
    · by_cases hu : u = t
      · rw [hu, Function.update_self] at hcalled
        cases hcalled
        exact .inr ⟨q', hperforms, by rw [hu, Function.update_idem]⟩
      · rw [Function.update_of_ne hu] at hcalled
        cases hcalled
    · by_cases hu : u = t
      · rw [hu, Function.update_self] at hcalled
        cases hcalled
      · rw [Function.update_of_ne hu] at hcalled
        cases hcalled
  | ret _ _ _ =>
    obtain ⟨-, heq⟩ := List.append_inj' (show _ ++ [_] = [] ++ [_] from hcall) rfl
    cases heq

theorem Linearizable.performs_of_alone (h : Linearizable performs a₀ [.call t p, .ret t q]) :
    ∃ a, performs a₀ p q a := by
  obtain ⟨a, st, h⟩ := h
  generalize hH : [Seen.call t p, .ret t q] = H at h
  induction h with
  | init => cases hH
  | call _ _ _ =>
    obtain ⟨-, heq⟩ := List.append_inj' (show [_] ++ [_] = _ ++ [_] from hH) rfl
    cases heq
  | point _ _ _ ih => exact ih hH
  | ret hlin hdecided _ =>
    obtain ⟨hcall, heq⟩ := List.append_inj' (show [_] ++ [_] = _ ++ [_] from hH) rfl
    cases heq
    rcases hlin.of_call hcall.symm with ⟨-, rfl⟩ | ⟨q', hperforms, rfl⟩
    · rw [Function.update_self] at hdecided
      cases hdecided
    · rw [Function.update_self] at hdecided
      cases hdecided
      exact ⟨_, hperforms⟩

end

/-! ## Simulations -/

section

variable [DecidableEq ι]

/-- What is known of the states of a run, with a ghost that goes along (`inv`), and which objects and
calls go with a state (`rel`). A step of the run leads to an object and calls only from those that an
atomic object can have got them from. -/
structure Simulation (code : P → Instr σ α P) (starts : State ι σ P → ι → P → Prop)
    (performs : A → P → P → A → Prop) (G : Type*) where
  inv : State ι σ P → G → Prop
  rel : State ι σ P → G → (ι → Status P) → A → Prop
  total : ∀ {s g}, inv s g → ∃ st a, rel s g st a
  call : ∀ {s g t p}, inv s g → s.threads t = none → starts s t p →
    ∃ g', inv (s.move t (some p)) g' ∧ ∀ st a, rel (s.move t (some p)) g' st a →
      st t = .called p ∧ rel s g (update st t .idle) a
  inner : ∀ {s s' g}, inv s g → Inner code starts s s' →
    ∃ g', inv s' g' ∧ ∀ st a, rel s' g' st a → rel s g st a ∨
      ∃ t p q a₁, st t = .decided q ∧ rel s g (update st t (.called p)) a₁ ∧ performs a₁ p q a
  ret : ∀ {s g t p}, inv s g → s.threads t = some p → code p = .done →
    ∃ g', inv (s.move t none) g' ∧ ∀ st a, rel (s.move t none) g' st a →
      st t = .idle ∧ rel s g (update st t (.decided p)) a

namespace Simulation

variable {code : P → Instr σ α P} {starts : State ι σ P → ι → P → Prop}
  {performs : A → P → P → A → Prop} {G : Type*} (S : Simulation code starts performs G)
  {s₀ s : State ι σ P} {g₀ : G} {a₀ : A} {H : List (Seen ι P)}

theorem update_back {st : ι → Status P} {t : ι} {x : Status P} (h : st t = x) (y : Status P) :
    update (update st t y) t x = st := by
  rw [Function.update_idem, ← h, Function.update_eq_self]

/-- Along a run the ghost goes with its states, and the atomic object has its history with whatever
object and calls go with the state. -/
theorem linearizes (h₀ : S.inv s₀ g₀) (ha₀ : ∀ st a, S.rel s₀ g₀ st a → st = (fun _ => .idle) ∧ a = a₀)
    (hrun : Run code starts s₀ H s) :
    ∃ g, S.inv s g ∧ ∀ st a, S.rel s g st a → Linearizes performs a₀ H a st := by
  induction hrun with
  | init =>
    refine ⟨g₀, h₀, fun st a hrel => ?_⟩
    obtain ⟨rfl, rfl⟩ := ha₀ st a hrel
    exact .init
  | @call H s t p _ ht hstart ih =>
    obtain ⟨g, hinv, hlin⟩ := ih
    obtain ⟨g', hinv', hrel⟩ := S.call hinv ht hstart
    refine ⟨g', hinv', fun st a h => ?_⟩
    obtain ⟨hst, hback⟩ := hrel st a h
    have := (hlin _ _ hback).call (p := p) (Function.update_self ..)
    rwa [update_back hst] at this
  | inner _ hinner ih =>
    obtain ⟨g, hinv, hlin⟩ := ih
    obtain ⟨g', hinv', hrel⟩ := S.inner hinv hinner
    refine ⟨g', hinv', fun st a h => ?_⟩
    rcases hrel st a h with hback | ⟨t, p, q, a₁, hst, hback, hperforms⟩
    · exact hlin _ _ hback
    · have := (hlin _ _ hback).point (Function.update_self ..) hperforms
      rwa [update_back hst] at this
  | ret _ ht hcode ih =>
    obtain ⟨g, hinv, hlin⟩ := ih
    obtain ⟨g', hinv', hrel⟩ := S.ret hinv ht hcode
    refine ⟨g', hinv', fun st a h => ?_⟩
    obtain ⟨hst, hback⟩ := hrel st a h
    have := (hlin _ _ hback).ret (Function.update_self ..)
    rwa [update_back hst] at this

/-- Every history is linearizable. -/
theorem linearizable_of_run (h₀ : S.inv s₀ g₀)
    (ha₀ : ∀ st a, S.rel s₀ g₀ st a → st = (fun _ => .idle) ∧ a = a₀)
    (hrun : Run code starts s₀ H s) : Linearizable performs a₀ H := by
  obtain ⟨g, hinv, hlin⟩ := S.linearizes h₀ ha₀ hrun
  obtain ⟨st, a, hrel⟩ := S.total hinv
  exact ⟨a, st, hlin st a hrel⟩

end Simulation

end

end RwLock
