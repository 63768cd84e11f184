import MaxMindDB.Extension.Operations
import MaxMindDB.Lib.OwnedList

/-!
# The ledger of records

A `struct record` is in the list of an iterator, or a call of `ReaderIter_next` has taken it from there,
or made it and not linked it to the list yet. `Ledger` says that the list of each iterator belongs to
it, and that what belongs to anyone is allocated. Each way in which a call changes a record or a list
hands some records over, and leaves what others have as it is.
-/

namespace MaxMindDB.Extension

open OwnedList RwLock

variable {ι : Type*} {Entry Data Value : Type}

/-! ## Links -/

namespace Memory

/-- What a record that is allocated is linked to. -/
def link (m : Memory Entry Data) (a : ℕ) : Option (Option ℕ) := (m.cells a).map Cell.link

variable {m : Memory Entry Data}

theorem link_eq_none {a : ℕ} : m.link a = none ↔ m.cells a = none := Option.map_eq_none_iff

@[simp] theorem calloc_link (cell : Cell Entry) :
    (m.calloc cell).link = Function.update m.link m.brk (some cell.link) := by
  funext a
  by_cases ha : a = m.brk
  · simp [link, calloc, ha]
  · simp [link, calloc, ha]

@[simp] theorem free_link (cur : ℕ) : (m.free cur).link = Function.update m.link cur none := by
  funext a
  by_cases ha : a = cur
  · simp [link, free, ha]
  · simp [link, free, ha]

theorem setLink_link {cur : ℕ} {x : Option ℕ} (h : m.link cur ≠ none) :
    (m.setLink cur x).link = Function.update m.link cur (some x) := by
  funext a
  by_cases ha : a = cur
  · obtain ⟨cell, hcell⟩ := Option.ne_none_iff_exists'.mp (link_eq_none.not.mp h)
    simp [link, setLink, ha, hcell]
  · simp [link, setLink, ha]

@[simp] theorem setNext_link (i : ℕ) (x : Option ℕ) : (m.setNext i x).link = m.link := rfl

@[simp] theorem setNext_next_self (i : ℕ) (x : Option ℕ) : (m.setNext i x).next i = x :=
  Function.update_self ..

theorem setNext_next_of_ne {i j : ℕ} {x : Option ℕ} (h : j ≠ i) :
    (m.setNext i x).next j = m.next j := Function.update_of_ne h ..

end Memory

/-! ## The ledger -/

/-- Who may have a record. -/
inductive Owner (ι : Type*) where
  /-- It is in the list of an iterator. -/
  | iterator (i : ℕ)
  /-- A call of a thread has taken it, or made it and not linked it to the list yet. -/
  | thread (t : ι)

/-- What is owned is allocated, and the list of each iterator belongs to it. -/
structure Ledger (own : ℕ → Option (Owner ι)) (m : Memory Entry Data) : Prop where
  live : ∀ a, own a ≠ none → m.link a ≠ none
  fresh : ∀ a, m.brk ≤ a → m.link a = none
  lists : ∀ i, Owned m.link own (.iterator i) (m.next i)

namespace Ledger

variable {own : ℕ → Option (Owner ι)} {m : Memory Entry Data} {a b i : ℕ} {x : Option ℕ}
  {o : Owner ι} {t : ι}

theorem live_of_eq (h : Ledger own m) (ha : own a = some o) : m.link a ≠ none :=
  h.live a (by rw [ha]; exact Option.some_ne_none o)

theorem exists_cell (h : Ledger own m) (ha : own a = some o) : ∃ cell, m.cells a = some cell :=
  Option.ne_none_iff_exists'.mp (Memory.link_eq_none.not.mp (h.live_of_eq ha))

theorem own_brk (h : Ledger own m) : own m.brk = none := by
  by_contra hne
  exact h.live m.brk hne (h.fresh m.brk le_rfl)

theorem ne_brk (h : Ledger own m) (ha : own a = some o) : a ≠ m.brk := by
  rintro rfl
  rw [h.own_brk] at ha
  cases ha

theorem lt_brk (h : Ledger own m) (ha : own a = some o) : a < m.brk := by
  by_contra hle
  exact h.live_of_eq ha (h.fresh a (Nat.le_of_not_lt hle))

theorem head (h : Ledger own m) (ha : m.next i = some a) : own a = some (.iterator i) := by
  have hlist := h.lists i
  rw [ha] at hlist
  exact hlist.head

theorem ne_of_thread (ha : own a = some (.thread t)) (ho : o ≠ .thread t) : own a ≠ some o := by
  rw [ha]
  exact fun h => ho (Option.some.inj h).symm

theorem congr {m' : Memory Entry Data} (h : Ledger own m) (hcells : m'.cells = m.cells)
    (hbrk : m'.brk = m.brk) (hnext : m'.next = m.next) : Ledger own m' := by
  have hlink : m'.link = m.link := by
    funext a
    rw [Memory.link, Memory.link, hcells]
  refine ⟨?_, ?_, ?_⟩
  · rw [hlink]
    exact h.live
  · rw [hlink, hbrk]
    exact h.fresh
  · rw [hlink, hnext]
    exact h.lists

/-- A new record belongs to no one before. -/
theorem keeps_calloc (h : Ledger own m) (cell : Cell Entry) (o' : Option (Owner ι)) :
    Keeps m.link (m.calloc cell).link own (Function.update own m.brk o') o := by
  have hne : own m.brk ≠ some o := by
    rw [h.own_brk]
    exact (Option.some_ne_none o).symm
  rw [Memory.calloc_link]
  exact (Keeps.relink hne _).trans (Keeps.reown hne o')

theorem calloc (h : Ledger own m) (cell : Cell Entry) (o : Owner ι) :
    Ledger (Function.update own m.brk (some o)) (m.calloc cell) where
  live a ha := by
    rw [Memory.calloc_link]
    by_cases hbrk : a = m.brk
    · rw [hbrk, Function.update_self]
      exact Option.some_ne_none _
    · rw [Function.update_of_ne hbrk] at ha ⊢
      exact h.live a ha
  fresh a ha := by
    have hlt : m.brk < a := ha
    rw [Memory.calloc_link, Function.update_of_ne hlt.ne']
    exact h.fresh a hlt.le
  lists i := (h.lists i).keep (h.keeps_calloc cell _)

theorem addIterator (h : Ledger own m) (ha : own a = some (.iterator m.made))
    (hlink : m.link a = some none) : Ledger own (m.addIterator a) where
  live := h.live
  fresh := h.fresh
  lists i := by
    by_cases hi : i = m.made
    · subst hi
      refine ⟨[a], ?_, fun b hb => by rw [List.mem_singleton.mp hb, ha]⟩
      have hnext : (m.addIterator a).next m.made = some a := Function.update_self ..
      rw [hnext]
      exact .cons hlink .nil
    · have hnext : (m.addIterator a).next i = m.next i := Function.update_of_ne hi ..
      rw [hnext]
      exact h.lists i

theorem keeps_setLink (h : Ledger own m) (ha : own a = some (.thread t)) (ho : o ≠ .thread t)
    (x : Option ℕ) : Keeps m.link (m.setLink a x).link own own o := by
  rw [Memory.setLink_link (h.live_of_eq ha)]
  exact Keeps.relink (ne_of_thread ha ho) _

theorem setLink (h : Ledger own m) (ha : own a = some (.thread t)) (x : Option ℕ) :
    Ledger own (m.setLink a x) where
  live b hb := by
    rw [Memory.setLink_link (h.live_of_eq ha)]
    by_cases hba : b = a
    · rw [hba, Function.update_self]
      exact Option.some_ne_none x
    · rw [Function.update_of_ne hba]
      exact h.live b hb
  fresh b hb := by
    have hne : b ≠ a := (lt_of_lt_of_le (h.lt_brk ha) hb).ne'
    rw [Memory.setLink_link (h.live_of_eq ha), Function.update_of_ne hne]
    exact h.fresh b hb
  lists i := (h.lists i).keep (h.keeps_setLink ha (fun h => by cases h) x)

theorem keeps_free (ha : own a = some (.thread t)) (ho : o ≠ .thread t) :
    Keeps m.link (m.free a).link own (Function.update own a none) o := by
  have hne := ne_of_thread ha ho
  rw [Memory.free_link]
  exact (Keeps.relink hne _).trans (Keeps.reown hne _)

theorem keeps_pop (h : Ledger own m) (ha : m.next i = some a) (ho : o ≠ .iterator i)
    {o' : Option (Owner ι)} : Keeps m.link m.link own (Function.update own a o') o := by
  refine Keeps.reown ?_ o'
  rw [h.head ha]
  exact fun heq => ho (Option.some.inj heq).symm

theorem keeps_push (ha : own a = some (.thread t)) (hb : own b = some (.thread t)) (i : ℕ)
    (ho : o ≠ .thread t) : Keeps m.link m.link own
      (Function.update (Function.update own b (some (.iterator i))) a (some (.iterator i))) o := by
  intro c hc
  have hca : c ≠ a := fun h => ne_of_thread ha ho (h ▸ hc)
  have hcb : c ≠ b := fun h => ne_of_thread hb ho (h ▸ hc)
  exact ⟨by rw [Function.update_of_ne hca, Function.update_of_ne hcb, hc], rfl⟩

theorem free (h : Ledger own m) (ha : own a = some (.thread t)) :
    Ledger (Function.update own a none) (m.free a) where
  live b hb := by
    by_cases hba : b = a
    · rw [hba, Function.update_self] at hb
      exact absurd rfl hb
    · rw [Function.update_of_ne hba] at hb
      rw [Memory.free_link, Function.update_of_ne hba]
      exact h.live b hb
  fresh b hb := by
    have hne : b ≠ a := (lt_of_lt_of_le (h.lt_brk ha) hb).ne'
    rw [Memory.free_link, Function.update_of_ne hne]
    exact h.fresh b hb
  lists i := (h.lists i).keep (keeps_free ha fun h => by cases h)

theorem pop (h : Ledger own m) (ha : m.next i = some a) (hlink : m.link a = some x) (t : ι) :
    Ledger (Function.update own a (some (.thread t))) (m.setNext i x) where
  live b hb := by
    by_cases hba : b = a
    · rw [Memory.setNext_link, hba, hlink]
      exact Option.some_ne_none x
    · rw [Function.update_of_ne hba] at hb
      exact h.live b hb
  fresh := h.fresh
  lists j := by
    by_cases hj : j = i
    · subst hj
      have hlist := h.lists j
      rw [ha] at hlist
      rw [Memory.setNext_next_self]
      exact hlist.pop hlink _
    · rw [Memory.setNext_next_of_ne hj]
      exact (h.lists j).keep (h.keeps_pop ha fun heq => hj (Owner.iterator.inj heq))

theorem push (h : Ledger own m) (ha : own a = some (.thread t)) (hb : own b = some (.thread t))
    (hlink : m.link a = some (some b)) (hlink' : m.link b = some x)
    (hx : Owned m.link own (.iterator i) x) :
    Ledger (Function.update (Function.update own b (some (.iterator i))) a (some (.iterator i)))
      (m.setNext i (some a)) where
  live c hc := by
    by_cases hca : c = a
    · rw [hca]
      exact h.live_of_eq ha
    · rw [Function.update_of_ne hca] at hc
      by_cases hcb : c = b
      · rw [hcb]
        exact h.live_of_eq hb
      · rw [Function.update_of_ne hcb] at hc
        exact h.live c hc
  fresh := h.fresh
  lists j := by
    by_cases hj : j = i
    · subst hj
      rw [Memory.setNext_next_self]
      exact (hx.push hlink').push hlink
    · rw [Memory.setNext_next_of_ne hj]
      exact (h.lists j).keep (keeps_push ha hb i fun h => by cases h)

end Ledger

end MaxMindDB.Extension
