import Mathlib.Data.Nat.Notation
import Mathlib.Logic.Function.Basic
import Mathlib.Logic.Relation
import Mathlib.Tactic.ByContra

/-!
# Threads under a readers-writer lock

Any number of threads run code over one memory, one instruction at a time in any order. The code is a
flow graph: `code p` is the instruction at the point `p`. A thread may hold the lock shared, with other
threads, or exclusively, with none.

An `Outline` annotates the points of the code, with how the lock is held there and with what is known
there of a view of the memory. When only threads that hold the lock exclusively change the view, and
what is known where the lock is not held survives their changes, the annotations are right in every
reachable state (`Outline.holds_of_steps`).
-/

namespace RwLock

variable {ι σ α P V : Type*}

/-- How a lock is held. -/
inductive Mode where
  | shared
  | exclusive
  deriving DecidableEq

/-- What is done at a point of the code: acquire the lock, or fail to; release it; change the memory and
go on, as an outcome of what is not modelled says; or nothing more. -/
inductive Instr (σ α P : Type*) where
  | acquire (mode : Mode) (ok fail : P)
  | release (mode : Mode) (next : P)
  | act (effect : α → σ → σ × P)
  | done

/-- The memory, how often each thread holds the lock shared, the thread that holds it exclusively, and
where in the code each thread is. -/
structure State (ι σ P : Type*) where
  memory : σ
  readers : ι → ℕ
  writer : Option ι
  threads : ι → Option P

namespace State

/-- Threads that are not in the code, on a memory. -/
def init (m : σ) : State ι σ P := ⟨m, fun _ => 0, none, fun _ => none⟩

variable [DecidableEq ι]

/-- A thread goes to a point of the code, or leaves it. -/
def move (s : State ι σ P) (t : ι) (p : Option P) : State ι σ P :=
  { s with threads := Function.update s.threads t p }

/-- A thread has the lock shared this often. -/
def setReaders (s : State ι σ P) (t : ι) (n : ℕ) : State ι σ P :=
  { s with readers := Function.update s.readers t n }

@[simp] theorem move_memory (s : State ι σ P) (t : ι) (p : Option P) :
    (s.move t p).memory = s.memory := rfl

@[simp] theorem move_readers (s : State ι σ P) (t : ι) (p : Option P) :
    (s.move t p).readers = s.readers := rfl

@[simp] theorem move_writer (s : State ι σ P) (t : ι) (p : Option P) :
    (s.move t p).writer = s.writer := rfl

@[simp] theorem move_threads_self (s : State ι σ P) (t : ι) (p : Option P) :
    (s.move t p).threads t = p := Function.update_self ..

theorem move_threads_of_ne {s : State ι σ P} {t u : ι} {p : Option P} (h : u ≠ t) :
    (s.move t p).threads u = s.threads u := Function.update_of_ne h ..

end State

section

variable [DecidableEq ι] (code : P → Instr σ α P) (starts : State ι σ P → ι → P → Prop)

/-- One thread takes one step; `starts` says where a thread may enter the code. -/
inductive Step : State ι σ P → State ι σ P → Prop where
  | start {s : State ι σ P} {t : ι} {p : P} : s.threads t = none → starts s t p →
      Step s (s.move t (some p))
  | acquireShared {s : State ι σ P} {t : ι} {p ok fail : P} : s.threads t = some p →
      code p = .acquire .shared ok fail → s.writer = none →
      Step s ((s.setReaders t (s.readers t + 1)).move t (some ok))
  | acquireExclusive {s : State ι σ P} {t : ι} {p ok fail : P} : s.threads t = some p →
      code p = .acquire .exclusive ok fail → s.writer = none → (∀ u, s.readers u = 0) →
      Step s (({ s with writer := some t } : State ι σ P).move t (some ok))
  | acquireFails {s : State ι σ P} {t : ι} {p ok fail : P} {mode : Mode} : s.threads t = some p →
      code p = .acquire mode ok fail → Step s (s.move t (some fail))
  | releaseShared {s : State ι σ P} {t : ι} {p next : P} : s.threads t = some p →
      code p = .release .shared next → s.readers t ≠ 0 →
      Step s ((s.setReaders t (s.readers t - 1)).move t (some next))
  | releaseExclusive {s : State ι σ P} {t : ι} {p next : P} : s.threads t = some p →
      code p = .release .exclusive next → s.writer = some t →
      Step s (({ s with writer := none } : State ι σ P).move t (some next))
  | act {s : State ι σ P} {t : ι} {p : P} {effect : α → σ → σ × P} (a : α) :
      s.threads t = some p → code p = .act effect →
      Step s (({ s with memory := (effect a s.memory).1 } : State ι σ P).move t
        (some (effect a s.memory).2))
  | finish {s : State ι σ P} {t : ι} {p : P} : s.threads t = some p → code p = .done →
      Step s (s.move t none)

/-- Any number of steps. -/
abbrev Steps : State ι σ P → State ι σ P → Prop := Relation.ReflTransGen (Step code starts)

/-- Where a thread may go from a point on a memory. -/
inductive Goes (m : σ) : P → Option P → Prop where
  | acquired {p ok fail : P} {mode : Mode} : code p = .acquire mode ok fail → Goes m p (some ok)
  | failed {p ok fail : P} {mode : Mode} : code p = .acquire mode ok fail → Goes m p (some fail)
  | released {p next : P} {mode : Mode} : code p = .release mode next → Goes m p (some next)
  | acted {p : P} {effect : α → σ → σ × P} (a : α) : code p = .act effect →
      Goes m p (some (effect a m).2)
  | finished {p : P} : code p = .done → Goes m p none

/-- What is done at a point: the lock is acquired, or is not, or is released, or the code acts. -/
inductive Event (P : Type*) where
  | acquire (mode : Mode)
  | fail (mode : Mode)
  | release (mode : Mode)
  | act (p : P)

/-- What may be done at a point on a memory, where the thread goes, and the memory it leaves. -/
inductive Does (m : σ) : P → Event P → P → σ → Prop where
  | acquired {p ok fail : P} {mode : Mode} : code p = .acquire mode ok fail →
      Does m p (.acquire mode) ok m
  | failed {p ok fail : P} {mode : Mode} : code p = .acquire mode ok fail →
      Does m p (.fail mode) fail m
  | released {p next : P} {mode : Mode} : code p = .release mode next →
      Does m p (.release mode) next m
  | acted {p : P} {effect : α → σ → σ × P} (a : α) : code p = .act effect →
      Does m p (.act p) (effect a m).2 (effect a m).1

variable {code starts} {s s' : State ι σ P}

/-- A step of a thread that acts, by what its effect comes to. -/
theorem Step.acts {t : ι} {p q : P} {m : σ} {effect : α → σ → σ × P} (a : α)
    (ht : s.threads t = some p) (hcode : code p = .act effect)
    (heffect : effect a s.memory = (m, q)) :
    Step code starts s (({ s with memory := m } : State ι σ P).move t (some q)) := by
  have hstep := (.act a ht hcode : Step code starts s _)
  rwa [heffect] at hstep

/-- A step is one of a single thread: it enters the code, goes on, or leaves it. -/
theorem Step.exists_thread (h : Step code starts s s') : ∃ t,
    (∀ u, u ≠ t → s'.threads u = s.threads u) ∧
    ((s.threads t = none ∧ s'.memory = s.memory ∧ ∃ p, starts s t p ∧ s'.threads t = some p) ∨
      (∃ p e q, s.threads t = some p ∧ s'.threads t = some q ∧
        Does code s.memory p e q s'.memory) ∨
      ∃ p, s.threads t = some p ∧ code p = .done ∧ s'.memory = s.memory ∧ s'.threads t = none) := by
  have hothers : ∀ {t : ι} {q : Option P} {x : State ι σ P}, x.threads = s.threads →
      ∀ u, u ≠ t → (x.move t q).threads u = s.threads u := by
    intro t q x hx u hu
    rw [State.move_threads_of_ne hu, hx]
  cases h with
  | start ht hstart =>
    exact ⟨_, hothers rfl, .inl ⟨ht, rfl, _, hstart, State.move_threads_self ..⟩⟩
  | acquireShared ht hcode =>
    exact ⟨_, hothers rfl, .inr (.inl ⟨_, _, _, ht, State.move_threads_self .., .acquired hcode⟩)⟩
  | acquireExclusive ht hcode =>
    exact ⟨_, hothers rfl, .inr (.inl ⟨_, _, _, ht, State.move_threads_self .., .acquired hcode⟩)⟩
  | acquireFails ht hcode =>
    exact ⟨_, hothers rfl, .inr (.inl ⟨_, _, _, ht, State.move_threads_self .., .failed hcode⟩)⟩
  | releaseShared ht hcode =>
    exact ⟨_, hothers rfl, .inr (.inl ⟨_, _, _, ht, State.move_threads_self .., .released hcode⟩)⟩
  | releaseExclusive ht hcode =>
    exact ⟨_, hothers rfl, .inr (.inl ⟨_, _, _, ht, State.move_threads_self .., .released hcode⟩)⟩
  | act a ht hcode =>
    exact ⟨_, hothers rfl, .inr (.inl ⟨_, _, _, ht, State.move_threads_self .., .acted a hcode⟩)⟩
  | finish ht hcode =>
    exact ⟨_, hothers rfl, .inr (.inr ⟨_, ht, hcode, rfl, State.move_threads_self ..⟩)⟩

omit [DecidableEq ι] in
theorem Does.goes {m m' : σ} {p q : P} {e : Event P} (h : Does code m p e q m') :
    Goes code m p (some q) := by
  cases h with
  | acquired hcode => exact .acquired hcode
  | failed hcode => exact .failed hcode
  | released hcode => exact .released hcode
  | acted a hcode => exact .acted a hcode

theorem Step.thread (h : Step code starts s s') (u : ι) :
    s'.threads u = s.threads u ∨
    (s.threads u = none ∧ ∃ p, starts s u p ∧ s'.threads u = some p) ∨
    ∃ p, s.threads u = some p ∧ Goes code s.memory p (s'.threads u) := by
  obtain ⟨t, hothers, hstep⟩ := h.exists_thread
  by_cases hu : u = t
  · subst hu
    rcases hstep with ⟨hnone, -, hstart⟩ | ⟨p, e, q, hp, hq, hdoes⟩ | ⟨p, hp, hcode, -, hnone⟩
    · exact .inr (.inl ⟨hnone, hstart⟩)
    · rw [hq]
      exact .inr (.inr ⟨p, hp, hdoes.goes⟩)
    · rw [hnone]
      exact .inr (.inr ⟨p, hp, .finished hcode⟩)
  · exact .inl (hothers u hu)

theorem Step.memory (h : Step code starts s s') : s'.memory = s.memory ∨
    ∃ t p effect a, s.threads t = some p ∧ code p = .act effect ∧
      s'.memory = (effect a s.memory).1 := by
  cases h
  case act a ht hcode => exact .inr ⟨_, _, _, a, ht, hcode, rfl⟩
  all_goals exact .inl rfl

end

/-! ## Proof outlines -/

/-- How the lock is held at each point, what is known there of the view of the memory, and what is true
of the view when no thread holds the lock exclusively. -/
structure Outline (code : P → Instr σ α P) (view : σ → V) where
  held : P → Option Mode
  known : P → V → Prop
  inv : V → Prop
  acquire : ∀ {p ok fail mode}, code p = .acquire mode ok fail →
    held p = none ∧ held ok = some mode ∧ held fail = none
  known_acquire : ∀ {p ok fail mode}, code p = .acquire mode ok fail → ∀ v, known p v →
    known fail v ∧ (inv v → known ok v)
  release : ∀ {p next mode}, code p = .release mode next → held p = some mode ∧ held next = none
  known_release : ∀ {p next mode}, code p = .release mode next → ∀ v, known p v →
    known next v ∧ (mode = .exclusive → inv v)
  act : ∀ {p effect}, code p = .act effect → ∀ a m, known p (view m) →
    held (effect a m).2 = held p ∧ known (effect a m).2 (view (effect a m).1) ∧
      (held p ≠ some .exclusive → view (effect a m).1 = view m)
  stable : ∀ {p effect}, code p = .act effect → held p = some .exclusive → ∀ a m,
    known p (view m) → ∀ q, held q = none → known q (view m) → known q (view (effect a m).1)
  done : ∀ {p}, code p = .done → held p = none

namespace Outline

variable {code : P → Instr σ α P} {view : σ → V} (O : Outline code view)

/-- How a thread holds the lock, by where it is. -/
def holding (s : State ι σ P) (t : ι) : Option Mode := (s.threads t).bind O.held

/-- The annotations are right in a state. -/
structure Holds (s : State ι σ P) : Prop where
  readers : ∀ t, s.readers t = if O.holding s t = some .shared then 1 else 0
  writer : ∀ t, s.writer = some t ↔ O.holding s t = some .exclusive
  alone : s.writer ≠ none → ∀ t, s.readers t = 0
  known : ∀ t p, s.threads t = some p → O.known p (view s.memory)
  inv : s.writer = none → O.inv (view s.memory)

variable {O} {s s' : State ι σ P} {t u : ι} {p q : P}

theorem holding_of_thread (h : s.threads t = some p) : O.holding s t = O.held p := by
  rw [holding, h, Option.bind_some]

theorem holds_init {m : σ} (h : O.inv (view m)) : O.Holds (State.init (ι := ι) m) where
  readers _ := rfl
  writer _ := by simp [State.init, holding]
  alone h := absurd rfl h
  known _ _ h := by cases h
  inv _ := h

theorem Holds.known_of_thread (h : O.Holds s) (ht : s.threads t = some p) :
    O.known p (view s.memory) := h.known t p ht

/-- While the lock is held, shared or exclusively, by one thread, no other holds it exclusively. -/
theorem Holds.writer_eq_none (h : O.Holds s) (ht : s.threads t = some p)
    (hp : O.held p = some .shared) : s.writer = none := by
  by_contra hne
  have hzero := h.alone hne t
  rw [h.readers t, holding_of_thread ht, hp, if_pos rfl] at hzero
  cases hzero

theorem Holds.exists_of_writer (h : O.Holds s) (ht : s.writer = some t) :
    ∃ p, s.threads t = some p ∧ O.held p = some .exclusive :=
  Option.bind_eq_some_iff.mp ((h.writer t).mp ht)

theorem Holds.holding_eq_none (h : O.Holds s) (ht : s.writer = some t) (hu : u ≠ t) :
    O.holding s u = none := by
  have hzero := h.alone (by rw [ht]; simp) u
  have hwriter := (h.writer u).not.mp (by rw [ht]; simpa using hu.symm)
  rw [h.readers u] at hzero
  cases hm : O.holding s u with
  | none => rfl
  | some mode =>
    rw [hm] at hzero hwriter
    cases mode with
    | shared => simp at hzero
    | exclusive => exact absurd rfl hwriter

variable [DecidableEq ι]

theorem holding_move_self (p : Option P) : O.holding (s.move t p) t = p.bind O.held := by
  rw [holding, State.move_threads_self]

theorem holding_move_of_ne {p : Option P} (h : u ≠ t) : O.holding (s.move t p) u = O.holding s u := by
  rw [holding, holding, State.move_threads_of_ne h]

theorem known_move {p : Option P} (hself : ∀ q, p = some q → O.known q (view s.memory))
    (hothers : ∀ u q, u ≠ t → s.threads u = some q → O.known q (view s.memory)) :
    ∀ u q, (s.move t p).threads u = some q → O.known q (view (s.move t p).memory) := by
  intro u q hq
  by_cases hu : u = t
  · rw [hu, State.move_threads_self] at hq
    exact hself q hq
  · rw [State.move_threads_of_ne hu] at hq
    exact hothers u q hu hq

theorem Holds.move {p : Option P} (h : O.Holds s) (hp : p.bind O.held = O.holding s t)
    (hknown : ∀ q, p = some q → O.known q (view s.memory)) : O.Holds (s.move t p) := by
  have hholding : ∀ u, O.holding (s.move t p) u = O.holding s u := by
    intro u
    by_cases hu : u = t
    · rw [hu, holding_move_self, hp]
    · exact holding_move_of_ne hu
  refine ⟨fun u => ?_, fun u => ?_, h.alone, ?_, h.inv⟩
  · rw [hholding]
    exact h.readers u
  · rw [hholding]
    exact h.writer u
  · exact known_move hknown fun u q _ => h.known u q

/-- A thread goes to a point where it holds the lock otherwise, or finds the memory changed. -/
theorem Holds.relock {x : State ι σ P} (h : O.Holds s) (hthreads : x.threads = s.threads)
    (hreaders : x.readers t = if O.held p = some .shared then 1 else 0)
    (hwriter : x.writer = some t ↔ O.held p = some .exclusive)
    (hothers : ∀ u, u ≠ t → x.readers u = s.readers u ∧ (x.writer = some u ↔ s.writer = some u))
    (halone : x.writer ≠ none → ∀ u, x.readers u = 0) (hself : O.known p (view x.memory))
    (hknown : ∀ u q, u ≠ t → s.threads u = some q → O.known q (view x.memory))
    (hinv : x.writer = none → O.inv (view x.memory)) : O.Holds (x.move t (some p)) := by
  have hholding : ∀ u, u ≠ t → O.holding (x.move t (some p)) u = O.holding s u := by
    intro u hu
    rw [holding_move_of_ne hu, holding, hthreads, holding]
  refine ⟨fun u => ?_, fun u => ?_, halone, ?_, hinv⟩
  · by_cases hu : u = t
    · rw [hu, holding_move_self]
      exact hreaders
    · rw [hholding u hu]
      exact (hothers u hu).1.trans (h.readers u)
  · by_cases hu : u = t
    · rw [hu, holding_move_self]
      exact hwriter
    · rw [hholding u hu]
      exact (hothers u hu).2.trans (h.writer u)
  · refine known_move (fun q hq => by cases hq; exact hself) fun u q hu hq => ?_
    rw [hthreads] at hq
    exact hknown u q hu hq

theorem Holds.acquireShared (h : O.Holds s) (hnone : O.holding s t = none) (hw : s.writer = none)
    (hp : O.held p = some .shared) (hknown : O.known p (view s.memory)) :
    O.Holds ((s.setReaders t (s.readers t + 1)).move t (some p)) := by
  have hzero : s.readers t = 0 := by simpa [hnone] using h.readers t
  refine h.relock rfl ?_ ?_ (fun u hu => ⟨Function.update_of_ne hu .., Iff.rfl⟩)
    (fun hne => absurd hw hne) hknown (fun u q _ => h.known u q) h.inv
  · simp [State.setReaders, hzero, hp]
  · simp [State.setReaders, hw, hp]

theorem Holds.acquireExclusive (h : O.Holds s) (hw : s.writer = none) (hzero : ∀ u, s.readers u = 0)
    (hp : O.held p = some .exclusive) (hknown : O.known p (view s.memory)) :
    O.Holds (({ s with writer := some t } : State ι σ P).move t (some p)) := by
  refine h.relock rfl ?_ ?_ (fun u hu => ⟨rfl, ?_⟩) (fun _ => hzero) hknown
    (fun u q _ => h.known u q) fun hnone => by cases hnone
  · simp [hzero, hp]
  · simp [hp]
  · simp [hw, hu.symm]

theorem Holds.releaseShared (h : O.Holds s) (ht : O.holding s t = some .shared)
    (hw : s.writer = none) (hp : O.held p = none) (hknown : O.known p (view s.memory)) :
    O.Holds ((s.setReaders t (s.readers t - 1)).move t (some p)) := by
  have hone : s.readers t = 1 := by simpa [ht] using h.readers t
  refine h.relock rfl ?_ ?_ (fun u hu => ⟨Function.update_of_ne hu .., Iff.rfl⟩)
    (fun hne => absurd hw hne) hknown (fun u q _ => h.known u q) h.inv
  · simp [State.setReaders, hone, hp]
  · simp [State.setReaders, hw, hp]

theorem Holds.releaseExclusive (h : O.Holds s) (hw : s.writer = some t) (hp : O.held p = none)
    (hknown : O.known p (view s.memory)) (hinv : O.inv (view s.memory)) :
    O.Holds (({ s with writer := none } : State ι σ P).move t (some p)) := by
  refine h.relock rfl ?_ ?_ (fun u hu => ⟨rfl, ?_⟩) (fun hne => absurd rfl hne) hknown
    (fun u q _ => h.known u q) fun _ => hinv
  · simp [h.alone (by rw [hw]; exact Option.some_ne_none t) t, hp]
  · simp [hp]
  · simp [hw, hu.symm]

/-- A thread that does not hold the lock exclusively leaves the view as it is. -/
theorem Holds.act_of_view {m : σ} (h : O.Holds s) (hp : O.held p = O.holding s t)
    (hview : view m = view s.memory) (hknown : O.known p (view m)) :
    O.Holds (({ s with memory := m } : State ι σ P).move t (some p)) := by
  refine Holds.move ⟨h.readers, h.writer, h.alone, ?_, ?_⟩ hp fun q hq => by cases hq; exact hknown
  · intro u q hq
    rw [hview]
    exact h.known u q hq
  · intro hw
    rw [hview]
    exact h.inv hw

/-- A thread that holds the lock exclusively changes the view. -/
theorem Holds.act_of_writer {m : σ} (h : O.Holds s) (hw : s.writer = some t)
    (hp : O.held p = some .exclusive) (hknown : O.known p (view m))
    (hstable : ∀ q, O.held q = none → O.known q (view s.memory) → O.known q (view m)) :
    O.Holds (({ s with memory := m } : State ι σ P).move t (some p)) := by
  have hne : s.writer ≠ none := by rw [hw]; exact Option.some_ne_none t
  refine h.relock rfl ?_ (iff_of_true hw hp) (fun u _ => ⟨rfl, Iff.rfl⟩) h.alone hknown ?_
    fun hnone => absurd hnone hne
  · simp [h.alone hne t, hp]
  · intro u q hu hq
    have hnone := h.holding_eq_none hw hu
    rw [holding_of_thread hq] at hnone
    exact hstable q hnone (h.known u q hq)

/-! ## Every reachable state -/

variable {starts : State ι σ P → ι → P → Prop}

/-- What may be entered: points at which the lock is not held and nothing has to be known. -/
def Admits (O : Outline code view) (starts : State ι σ P → ι → P → Prop) : Prop :=
  ∀ s t p, starts s t p → O.held p = none ∧ ∀ v, O.known p v

theorem holds_step (hstarts : O.Admits starts) (h : O.Holds s) (hstep : Step code starts s s') :
    O.Holds s' := by
  cases hstep with
  | start ht hstart =>
    obtain ⟨hheld, hknown⟩ := hstarts _ _ _ hstart
    refine h.move ?_ fun q hq => ?_
    · rw [holding, ht, Option.bind_some, hheld, Option.bind_none]
    · cases hq
      exact hknown _
  | acquireShared ht hcode hw =>
    obtain ⟨hp, hok, -⟩ := O.acquire hcode
    have hknown := O.known_acquire hcode _ (h.known_of_thread ht)
    exact h.acquireShared (by rw [holding_of_thread ht, hp]) hw hok (hknown.2 (h.inv hw))
  | acquireExclusive ht hcode hw hzero =>
    obtain ⟨-, hok, -⟩ := O.acquire hcode
    have hknown := O.known_acquire hcode _ (h.known_of_thread ht)
    exact h.acquireExclusive hw hzero hok (hknown.2 (h.inv hw))
  | acquireFails ht hcode =>
    obtain ⟨hp, -, hfail⟩ := O.acquire hcode
    refine h.move (by rw [holding_of_thread ht, hp, Option.bind_some, hfail]) fun q hq => ?_
    cases hq
    exact (O.known_acquire hcode _ (h.known_of_thread ht)).1
  | releaseShared ht hcode _ =>
    obtain ⟨hp, hnext⟩ := O.release hcode
    exact h.releaseShared (by rw [holding_of_thread ht, hp]) (h.writer_eq_none ht hp) hnext
      (O.known_release hcode _ (h.known_of_thread ht)).1
  | releaseExclusive ht hcode hw =>
    obtain ⟨-, hnext⟩ := O.release hcode
    have hknown := O.known_release hcode _ (h.known_of_thread ht)
    exact h.releaseExclusive hw hnext hknown.1 (hknown.2 rfl)
  | @act t p _ a ht hcode =>
    obtain ⟨hheld, hknown, hview⟩ := O.act hcode a _ (h.known_of_thread ht)
    have hholding : O.holding s t = O.held p := holding_of_thread ht
    by_cases hp : O.held p = some .exclusive
    · refine h.act_of_writer ((h.writer _).mpr (hholding.trans hp)) (hheld.trans hp) hknown ?_
      exact O.stable hcode hp a _ (h.known_of_thread ht)
    · exact h.act_of_view (hheld.trans hholding.symm) (hview hp) hknown
  | finish ht hcode =>
    refine h.move ?_ fun q hq => by cases hq
    rw [holding_of_thread ht, O.done hcode, Option.bind_none]

/-- The annotations are right in every state that is reached. -/
theorem holds_of_steps (hstarts : O.Admits starts) (h : O.Holds s) (hsteps : Steps code starts s s') :
    O.Holds s' := by
  induction hsteps with
  | refl => exact h
  | tail _ hstep ih => exact holds_step hstarts ih hstep

end Outline

end RwLock
