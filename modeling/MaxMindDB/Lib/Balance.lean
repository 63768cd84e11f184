import MaxMindDB.Lib.RwLock

/-!
# Balanced calls

A call runs the code of a flow graph from its entry on, over a memory that other threads may change
between any two of its steps. `Brackets` divides the points into those before the lock is acquired,
those at which it is held, and those after. Then a call that returns has acquired the lock and
released it once, or not at all, and what it touches under the lock it touches in between
(`Brackets.balanced`).
-/

namespace RwLock

variable {σ α P : Type*}

/-- How often the lock is held after an event. -/
def Event.hold (n : ℕ) : Event P → ℕ
  | .acquire _ => n + 1
  | .release _ => n - 1
  | .fail _ | .act _ => n

/-- The events on a way through the code, each step on any memory. -/
inductive Path (code : P → Instr σ α P) (p : P) : List (Event P) → P → Prop where
  | nil : Path code p [] p
  | snoc {es : List (Event P)} {q r : P} {e : Event P} {m m' : σ} : Path code p es q →
      Does code m q e r m' → Path code p (es ++ [e]) r

/-! ## Balanced events -/

/-- None of the points touches. -/
def Quiet (touches : P → Prop) (ps : List P) : Prop := ∀ p ∈ ps, ¬ touches p

/-- The lock is acquired and released once, or not at all, and nothing is touched but in between. -/
inductive Balanced (touches : P → Prop) : List (Event P) → Prop where
  | unlocked {pre : List P} : Quiet touches pre → Balanced touches (pre.map .act)
  | failed {pre post : List P} {mode : Mode} : Quiet touches pre → Quiet touches post →
      Balanced touches (pre.map .act ++ .fail mode :: post.map .act)
  | locked {pre inner post : List P} {mode : Mode} : Quiet touches pre → Quiet touches post →
      Balanced touches (pre.map .act ++ .acquire mode ::
        (inner.map .act ++ .release mode :: post.map .act))

variable {touches : P → Prop}

theorem foldl_hold_act (ps : List P) (n : ℕ) : (ps.map Event.act).foldl Event.hold n = n := by
  induction ps with
  | nil => rfl
  | cons p ps ih => exact ih

theorem Balanced.hold {es : List (Event P)} (h : Balanced touches es) (n : ℕ) :
    es.foldl Event.hold n = n := by
  cases h with
  | unlocked => exact foldl_hold_act _ n
  | failed =>
    rw [List.foldl_append, List.foldl_cons, foldl_hold_act, foldl_hold_act]
    rfl
  | locked =>
    rw [List.foldl_append, List.foldl_cons, List.foldl_append, List.foldl_cons, foldl_hold_act,
      foldl_hold_act, foldl_hold_act]
    exact Nat.add_sub_cancel n 1

theorem quiet_nil : Quiet touches [] := fun _ h => by cases h

theorem Quiet.snoc {ps : List P} {p : P} (h : Quiet touches ps) (hp : ¬ touches p) :
    Quiet touches (ps ++ [p]) := by
  intro q hq
  rcases List.mem_append.mp hq with hq | hq
  · exact h q hq
  · obtain rfl := List.mem_singleton.mp hq
    exact hp

theorem map_act_snoc (ps : List P) (p : P) :
    ps.map Event.act ++ [.act p] = (ps ++ [p]).map Event.act := by
  rw [List.map_append, List.map_singleton]

/-- A balanced call may go on where nothing is touched. -/
theorem Balanced.snoc {es : List (Event P)} {p : P} (h : Balanced touches es) (hp : ¬ touches p) :
    Balanced touches (es ++ [.act p]) := by
  cases h with
  | unlocked hpre =>
    rw [map_act_snoc]
    exact .unlocked (hpre.snoc hp)
  | failed hpre hpost =>
    rw [List.append_assoc, List.cons_append, map_act_snoc]
    exact .failed hpre (hpost.snoc hp)
  | locked hpre hpost =>
    rw [List.append_assoc, List.cons_append, List.append_assoc, List.cons_append, map_act_snoc]
    exact .locked hpre (hpost.snoc hp)

/-! ## Brackets -/

/-- Where a point is: before the lock is acquired, where it is held, or after that. -/
inductive Side where
  | before
  | inside (mode : Mode)
  | after

/-- The sides of the points of the code; what touches does so where the lock is held. -/
structure Brackets (code : P → Instr σ α P) (touches : P → Prop) where
  side : P → Side
  acquire : ∀ {p ok fail mode}, code p = .acquire mode ok fail →
    side p = .before ∧ side ok = .inside mode ∧ side fail = .after
  release : ∀ {p next mode}, code p = .release mode next → side p = .inside mode ∧ side next = .after
  act : ∀ {p effect}, code p = .act effect → ∀ a m,
    side (effect a m).2 = side p ∨ side p = .before ∧ side (effect a m).2 = .after
  touching : ∀ {p}, touches p → ∃ mode, side p = .inside mode

/-- What the events have been on the way to a point, by its side. -/
def Trace (touches : P → Prop) (es : List (Event P)) : Side → Prop
  | .before => ∃ pre, Quiet touches pre ∧ es = pre.map .act
  | .inside mode => ∃ pre inner : List P, Quiet touches pre ∧
      es = pre.map .act ++ .acquire mode :: inner.map .act
  | .after => Balanced touches es

namespace Brackets

variable {code : P → Instr σ α P} (B : Brackets code touches) {p q : P} {es : List (Event P)}

include B in
theorem not_touches (h : ∀ mode, B.side q ≠ .inside mode) : ¬ touches q := fun ht => by
  obtain ⟨mode, hmode⟩ := B.touching ht
  exact h mode hmode

theorem trace_act {r : P} (h : Trace touches es (B.side q))
    (hr : B.side r = B.side q ∨ B.side q = .before ∧ B.side r = .after) :
    Trace touches (es ++ [.act q]) (B.side r) := by
  cases hq : B.side q with
  | before =>
    have hquiet : ¬ touches q := B.not_touches fun mode => by rw [hq]; exact fun h => by cases h
    rw [hq] at h
    obtain ⟨pre, hpre, rfl⟩ := h
    rw [map_act_snoc]
    rcases hr with hr | ⟨-, hr⟩
    · rw [hr, hq]
      exact ⟨_, hpre.snoc hquiet, rfl⟩
    · rw [hr]
      exact .unlocked (hpre.snoc hquiet)
  | inside mode =>
    rw [hq] at h hr
    obtain ⟨pre, inner, hpre, rfl⟩ := h
    rcases hr with hr | ⟨hr, -⟩
    · rw [hr, List.append_assoc, List.cons_append, map_act_snoc]
      exact ⟨pre, _, hpre, rfl⟩
    · cases hr
  | after =>
    have hquiet : ¬ touches q := B.not_touches fun mode => by rw [hq]; exact fun h => by cases h
    rw [hq] at h hr
    rcases hr with hr | ⟨hr, -⟩
    · rw [hr]
      exact Balanced.snoc h hquiet
    · cases hr

theorem trace_step {e : Event P} {r : P} {m m' : σ} (h : Trace touches es (B.side q))
    (hdoes : Does code m q e r m') : Trace touches (es ++ [e]) (B.side r) := by
  cases hdoes with
  | acquired hcode =>
    obtain ⟨hq, hr, -⟩ := B.acquire hcode
    rw [hq] at h
    obtain ⟨pre, hpre, rfl⟩ := h
    rw [hr]
    exact ⟨pre, [], hpre, rfl⟩
  | failed hcode =>
    obtain ⟨hq, -, hr⟩ := B.acquire hcode
    rw [hq] at h
    obtain ⟨pre, hpre, rfl⟩ := h
    rw [hr]
    exact Balanced.failed hpre quiet_nil
  | released hcode =>
    obtain ⟨hq, hr⟩ := B.release hcode
    rw [hq] at h
    obtain ⟨pre, inner, hpre, rfl⟩ := h
    rw [hr, List.append_assoc, List.cons_append]
    exact Balanced.locked hpre quiet_nil
  | acted a hcode => exact B.trace_act h (B.act hcode a m)

theorem trace_of_path (hp : B.side p = .before) (h : Path code p es q) :
    Trace touches es (B.side q) := by
  induction h with
  | nil =>
    rw [hp]
    exact ⟨[], quiet_nil, rfl⟩
  | snoc _ hdoes ih => exact B.trace_step ih hdoes

/-- A call that has come from before the lock to after it is balanced. -/
theorem balanced (hp : B.side p = .before) (hq : B.side q = .after) (h : Path code p es q) :
    Balanced touches es := by
  have htrace := B.trace_of_path hp h
  rw [hq] at htrace
  exact htrace

end Brackets

end RwLock
