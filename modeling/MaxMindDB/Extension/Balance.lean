import MaxMindDB.Extension.Lifecycle
import MaxMindDB.Lib.Balance

/-!
# The lock on every path

A call of a method ends at one of many exits. `Pc.side` tells the points before the lock is acquired
from those behind its release; where it is held, the phase of the point says how.

`lock_balanced`: whatever the outcomes of the calls it makes, and whatever other threads do to the memory in
the meantime, a method that returns has acquired the lock and released it once, or has not held it at
all, and has touched `mmdb` in between only.
-/

namespace MaxMindDB.Extension

open RwLock

variable {Entry Data Value : Type}

/-! ## What touches `mmdb` -/

/-- A point that reads the `mmdb` of the reader or writes it, uses what it points to, or frees it. -/
def Pc.TouchesMmdb : Pc Entry Data Value → Prop
  | .getLoad _ _ | .metadataTest | .closeTest _ | .closeFree _ | .closeNull _ => True
  | p => p.UsesMmdb

/-- The memory, with another `mmdb`. -/
def Memory.setMmdb (m : Memory Entry Data) (mmdb : Option (Mmdb Entry Data)) : Memory Entry Data :=
  { m with reader.mmdb := mmdb }

@[simp] theorem Memory.setMmdb_cells (m : Memory Entry Data) (mmdb : Option (Mmdb Entry Data)) :
    (m.setMmdb mmdb).cells = m.cells := rfl

section

variable [Inhabited Entry] {fromEntryDataList : Data → Except PyErr Value} {isDict : Value → Bool}
  {p : Pc Entry Data Value}
  {effect : Bool → Memory Entry Data → Memory Entry Data × Pc Entry Data Value}

/-- What is done at other points depends on no `mmdb`, and leaves it as it is. -/
theorem act_setMmdb (h : code fromEntryDataList isDict p = .act effect) (hp : ¬ p.TouchesMmdb)
    (ok : Bool) (m : Memory Entry Data) (mmdb : Option (Mmdb Entry Data)) :
    effect ok (m.setMmdb mmdb) = ((effect ok m).1.setMmdb mmdb, (effect ok m).2) := by
  cases p <;> cases h
  case getLoad | getLookup | getNetmask | getEntries | getConvert | metadataTest | metadataEntries
      | metadataConvert | closeTest | closeClose | closeFree | closeNull | nextSkip | nextReadNode
      | nextEntries | nextConvert | nextNetwork => exact absurd trivial hp
  case nextStore | nextSwitch | nextTail | nextFree =>
    exact withCell_comm (·.setMmdb mmdb) rfl fun _ _ => rfl
  case nextLeft =>
    cases ok with
    | false => rfl
    | true =>
      simp only [↓reduceIte]
      exact withCell_comm (·.setMmdb mmdb) rfl fun _ _ => rfl
  case nextRight =>
    cases ok with
    | false => rfl
    | true =>
      simp only [↓reduceIte]
      refine withCell_comm (·.setMmdb mmdb) rfl fun record _ => ?_
      cases setBit record.ipPacked record.depth with
      | none => rfl
      | some ipPacked => exact withCell_comm (·.setMmdb mmdb) rfl fun _ _ => rfl
  case nextFrees frees _ =>
    cases frees with
    | nil => rfl
    | cons cur frees =>
      dsimp only
      rw [Memory.setMmdb_cells]
      cases m.cells cur <;> rfl
  case iterCalloc => cases ok <;> rfl
  all_goals rfl

end

/-! ## Sides -/

/-- The first point of a method. -/
def Pc.IsEntry : Pc Entry Data Value → Prop
  | .getParse _ _ | .metadataState | .closeAcquire _ | .enterAcquire | .iterState | .nextState _ => True
  | _ => False

/-- The side of a point. -/
def Pc.side : Pc Entry Data Value → Side
  | .getParse _ _ | .getAcquire _ _ | .metadataState | .metadataAcquire | .closeAcquire _
  | .enterAcquire | .iterState | .iterAcquire | .nextState _ | .nextAcquire _ => .before
  | p => match p.phase.held with
    | some mode => .inside mode
    | none => .after

theorem Pc.side_of_held {p : Pc Entry Data Value} {mode : Mode} (h : p.phase.held = some mode) :
    p.side = .inside mode := by
  cases p <;> cases h <;> rfl

section

variable [Inhabited Entry] {fromEntryDataList : Data → Except PyErr Value} {isDict : Value → Bool}
  {p : Pc Entry Data Value}
  {effect : Bool → Memory Entry Data → Memory Entry Data × Pc Entry Data Value}

theorem act_side (h : code fromEntryDataList isDict p = .act effect) (ok : Bool)
    (m : Memory Entry Data) :
    (effect ok m).2.side = p.side ∨ p.side = .before ∧ (effect ok m).2.side = .after := by
  cases hp : p.phase with
  | outside =>
    cases p <;> cases hp <;> cases h
    all_goals
      dsimp only
      repeat' split
      all_goals first
        | exact .inl rfl
        | exact .inr ⟨rfl, rfl⟩
  | inside =>
    have hside : p.side = .inside .shared := Pc.side_of_held (by rw [hp]; rfl)
    obtain ⟨-, hphase | hphase⟩ := act_inside h hp ok m
    · exact .inl ((Pc.side_of_held (by rw [hphase]; rfl)).trans hside.symm)
    · exact .inl ((Pc.side_of_held (by rw [hphase]; rfl)).trans hside.symm)
  | leaving =>
    rw [act_leaving h hp]
    exact .inl rfl
  | testing | closing stage =>
    cases p <;> cases hp <;> cases h
    all_goals
      dsimp only
      repeat' split
      all_goals exact .inl rfl

variable (fromEntryDataList isDict) in
/-- The sides of the code. -/
def brackets : Brackets (code fromEntryDataList isDict : Pc Entry Data Value → Op Entry Data Value)
    Pc.TouchesMmdb where
  side := Pc.side
  acquire {p _ _ _} h := by cases p <;> cases h <;> exact ⟨rfl, rfl, rfl⟩
  release {p _ _} h := by cases p <;> cases h <;> exact ⟨rfl, rfl⟩
  act h ok m := act_side h ok m
  touching {p} h := by cases p <;> first | exact ⟨_, rfl⟩ | cases h

/-- **The lock is balanced on every path.** Let a method begin, and return after any number of steps,
each of them on any memory and with any outcome of the call it makes. It has acquired the lock and
then released it once, or failed to acquire it, or returned before; so it holds the lock as often as
when it began. What it does outside of the lock neither depends on the `mmdb` of the reader nor
changes it. -/
theorem lock_balanced (hp : p.IsEntry) {es : List (Event (Pc Entry Data Value))} {method : Method}
    {result : Returned Value} (h : Path (code fromEntryDataList isDict) p es (.ret method result)) :
    Balanced Pc.TouchesMmdb es ∧ (∀ n, es.foldl Event.hold n = n) ∧
      ∀ (q : Pc Entry Data Value)
        (effect : Bool → Memory Entry Data → Memory Entry Data × Pc Entry Data Value),
        code fromEntryDataList isDict q = .act effect → ¬ q.TouchesMmdb → ∀ ok m mmdb,
          effect ok (m.setMmdb mmdb) = ((effect ok m).1.setMmdb mmdb, (effect ok m).2) := by
  have hside : p.side = .before := by cases p <;> first | rfl | cases hp
  have hbalanced := (brackets fromEntryDataList isDict).balanced hside rfl h
  exact ⟨hbalanced, hbalanced.hold, fun q effect hq ht ok m mmdb => act_setMmdb hq ht ok m mmdb⟩

end

/-! A thread enters the context of an open reader. -/

theorem sample_balanced : Balanced Pc.TouchesMmdb
      [.acquire .shared, .act (.enterTest : Pc ℕ String String), .release .shared] ∧
    [Event.acquire .shared, .act (.enterTest : Pc ℕ String String), .release .shared].foldl
      Event.hold 2 = 2 := by
  have path : Path (code .ok fun _ => true : Pc ℕ String String → Op ℕ String String) .enterAcquire
      [] .enterAcquire := .nil
  have path := path.snoc (m := .opened sampleMmdb) (.acquired rfl)
  have path := path.snoc (m := .opened sampleMmdb) (.acted true rfl)
  have path := path.snoc (m := .opened sampleMmdb) (.released rfl)
  have hentry : (.enterAcquire : Pc ℕ String String).IsEntry := trivial
  obtain ⟨hbalanced, hhold, -⟩ := lock_balanced hentry path
  exact ⟨hbalanced, hhold 2⟩

end MaxMindDB.Extension
