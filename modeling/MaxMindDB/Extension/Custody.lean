import MaxMindDB.Extension.Ledger

/-!
# What the calls of `next` have

The records that the local variables of a call of `ReaderIter_next` point to are in its custody: from
the store of `ri->next` that takes `cur` from the list, or the `calloc` that makes `left` or `right`,
until it frees them or links them to the list. `Pc.Fits` says so for each point of the code, with what
the call relies on between a load of `ri->next` and the store that goes with it.

`does_passes`: whatever a call does, it hands over records of its own, or takes the head of the list of
its iterator.
-/

namespace MaxMindDB.Extension

open OwnedList RwLock

variable {ι : Type*} {Entry Data Value : Type}

/-! ## The records of a call -/

/-- The records that the local variables of a call of `ReaderIter_next` point to: `cur`, until it is
freed, and `left` and `right`, until they are in the list. -/
def Pc.records : Pc Entry Data Value → List ℕ
  | .nextStore _ cur | .nextSwitch _ cur | .nextSkip _ cur | .nextReadNode _ cur | .nextLeft _ cur _
  | .nextFree _ cur | .nextEntries _ cur | .nextConvert _ cur _ | .nextNetwork _ cur _
  | .nextBuild _ cur _ _ _ => [cur]
  | .nextRight _ cur _ left | .nextLink _ cur left => [cur, left]
  | .nextTail _ cur left right => [cur, left, right]
  | .nextUnlock frees _ | .nextFrees frees _ => frees
  | _ => []

/-- The records that are not in a list any more or not yet: before `ri->next = cur->next`, `cur` is. -/
def Pc.taken : Pc Entry Data Value → List ℕ
  | .nextStore _ _ => []
  | p => p.records

/-- The iterator whose `next` is loaded into `cur` at a point. -/
def Pc.loads : Pc Entry Data Value → Option ℕ
  | .nextLoad i => some i
  | _ => none

/-- The iterator whose `next` is `cur` at a point, and stored as `cur->next`. -/
def Pc.pops : Pc Entry Data Value → Option ℕ
  | .nextStore i _ => some i
  | _ => none

/-- The iterator whose `next` is loaded into `right->next` at a point. -/
def Pc.copies : Pc Entry Data Value → Option ℕ
  | .nextTail i _ _ _ => some i
  | _ => none

/-- The iterator whose `next` is stored as `left` at a point. -/
def Pc.pushes : Pc Entry Data Value → Option ℕ
  | .nextLink i _ _ => some i
  | _ => none

/-! ## Nothing else is used -/

/-- The memory, with another record at an address, or none. -/
def Memory.setCell (m : Memory Entry Data) (a : ℕ) (cell : Option (Cell Entry)) :
    Memory Entry Data :=
  { m with cells := Function.update m.cells a cell }

namespace Memory

variable {m : Memory Entry Data} {a cur : ℕ} {cell : Option (Cell Entry)}

theorem setCell_cells_of_ne (h : cur ≠ a) : (m.setCell a cell).cells cur = m.cells cur :=
  Function.update_of_ne h ..

theorem setCell_calloc (h : m.brk ≠ a) (new : Cell Entry) :
    (m.setCell a cell).calloc new = (m.calloc new).setCell a cell := by
  simp only [calloc, setCell]
  rw [Function.update_comm h.symm]

theorem setCell_free (h : cur ≠ a) : (m.setCell a cell).free cur = (m.free cur).setCell a cell := by
  simp only [free, setCell]
  rw [Function.update_comm h.symm]

theorem setCell_setLink (h : cur ≠ a) (x : Option ℕ) :
    (m.setCell a cell).setLink cur x = (m.setLink cur x).setCell a cell := by
  simp only [setLink, setCell]
  rw [Function.update_of_ne h, Function.update_comm h.symm]

end Memory

section

variable [Inhabited Entry] {fromEntryDataList : Data → Except PyErr Value} {isDict : Value → Bool}
  {p : Pc Entry Data Value} {m : Memory Entry Data} {a : ℕ}
  {effect : Bool → Memory Entry Data → Memory Entry Data × Pc Entry Data Value}

/-- What is done at a point depends on no record but those of the call, and leaves the others as they
are. -/
theorem act_setCell (h : code fromEntryDataList isDict p = .act effect) (ha : a ∉ p.records)
    (hbrk : m.brk ≠ a) (ok : Bool) (cell : Option (Cell Entry)) :
    effect ok (m.setCell a cell) = ((effect ok m).1.setCell a cell, (effect ok m).2) := by
  have hne : ∀ cur ∈ p.records, cur ≠ a := fun cur hcur heq => ha (heq ▸ hcur)
  have hcells : ∀ cur ∈ p.records, (m.setCell a cell).cells cur = m.cells cur :=
    fun cur hcur => Memory.setCell_cells_of_ne (hne cur hcur)
  cases p <;> cases h
  case nextStore | nextSwitch | nextSkip | nextReadNode | nextEntries | nextNetwork =>
    exact withCell_comm (·.setCell a cell) (hcells _ List.mem_cons_self) fun _ _ => rfl
  case nextLeft =>
    cases ok with
    | false => rfl
    | true =>
      simp only [↓reduceIte]
      refine withCell_comm (·.setCell a cell) (hcells _ List.mem_cons_self) fun _ _ => ?_
      rw [Memory.setCell_calloc hbrk]
      rfl
  case nextRight i cur node left =>
    cases ok with
    | false => rfl
    | true =>
      simp only [↓reduceIte]
      refine withCell_comm (·.setCell a cell) (hcells _ List.mem_cons_self) fun record _ => ?_
      cases setBit record.ipPacked record.depth with
      | none => rfl
      | some ipPacked =>
        have hleft : left ∈ (.nextRight i cur node left : Pc Entry Data Value).records := by
          simp [Pc.records]
        refine withCell_comm (·.setCell a cell) (hcells left hleft) fun _ _ => ?_
        rw [Memory.setCell_calloc hbrk, Memory.setCell_setLink (hne left hleft)]
        rfl
  case nextTail i cur left right =>
    have hright : right ∈ (.nextTail i cur left right : Pc Entry Data Value).records := by
      simp [Pc.records]
    refine withCell_comm (·.setCell a cell) (hcells right hright) fun _ _ => ?_
    rw [Memory.setCell_setLink (hne right hright)]
    rfl
  case nextFree =>
    refine withCell_comm (·.setCell a cell) (hcells _ List.mem_cons_self) fun _ _ => ?_
    rw [Memory.setCell_free (hne _ List.mem_cons_self)]
  case nextFrees frees _ =>
    cases frees with
    | nil => rfl
    | cons cur frees =>
      have hcur := hne cur List.mem_cons_self
      dsimp only
      rw [hcells cur List.mem_cons_self]
      cases m.cells cur with
      | none => rfl
      | some _ =>
        dsimp only
        rw [Memory.setCell_free hcur]
  case iterCalloc =>
    cases ok with
    | false => rfl
    | true =>
      simp only [↓reduceIte]
      rw [Memory.setCell_calloc hbrk]
      rfl
  all_goals rfl

end

/-! ## What a thread relies on -/

/-- What a call relies on between a load of `ri->next` and its store. -/
def Pc.Linked (own : ℕ → Option (Owner ι)) (t : ι) (m : Memory Entry Data) :
    Pc Entry Data Value → Prop
  | .nextStore i cur => m.next i = some cur
  | .nextTail _ _ left right => m.link left = some (some right)
  | .nextLink i cur left => ∃ right x, right ∉ [cur, left] ∧ own right = some (.thread t) ∧
    m.link left = some (some right) ∧ m.link right = some x ∧ Owned m.link own (.iterator i) x
  | _ => True

/-- A thread has the records that its call has taken, and is on an iterator that exists. -/
structure Pc.Fits (own : ℕ → Option (Owner ι)) (t : ι) (m : Memory Entry Data)
    (p : Pc Entry Data Value) : Prop where
  nodup : p.taken.Nodup
  has : ∀ cur ∈ p.taken, own cur = some (.thread t)
  made : ∀ i, p.iterator = some i → i < m.made
  linked : p.Linked own t m

section

variable {own own' : ℕ → Option (Owner ι)} {m m' : Memory Entry Data} {p q : Pc Entry Data Value}
  {t : ι} {i : ℕ}

theorem Pc.iterator_of_pops (h : p.pops = some i) : p.iterator = some i := by
  cases p <;> cases h
  rfl

/-- What others do to memory leaves a thread what it relies on, when they leave it its records, and the
iterator whose `next` it has loaded. -/
theorem Pc.Fits.frame (h : p.Fits own t m) (hkeep : Keeps m.link m'.link own own' (.thread t))
    (hnext : ∀ i, p.pops = some i → m'.next i = m.next i)
    (hlist : ∀ i, p.pushes = some i → Keeps m.link m'.link own own' (.iterator i))
    (hmade : m.made ≤ m'.made) : p.Fits own' t m' where
  nodup := h.nodup
  has cur hcur := (hkeep cur (h.has cur hcur)).1
  made i hi := (h.made i hi).trans_le hmade
  linked := by
    have hlinked := h.linked
    have hown := h.has
    cases p
    case nextStore i cur => exact (hnext i rfl).trans hlinked
    case nextTail i cur left right =>
      exact (hkeep left (hown left (by simp [Pc.taken, Pc.records]))).2.trans hlinked
    case nextLink i cur left =>
      obtain ⟨right, x, hne, hright, hleft, hx, hlist'⟩ := hlinked
      have hownleft := hown left (by simp [Pc.taken, Pc.records])
      exact ⟨right, x, hne, (hkeep right hright).1, (hkeep left hownleft).2.trans hleft,
        (hkeep right hright).2.trans hx, hlist'.keep (hlist i rfl)⟩
    all_goals trivial

theorem eq_some_of_eq_or_none {x y : Option ℕ} (h : x = y ∨ x = none) (hx : x = some i) :
    y = some i := by
  rcases h with h | h <;> rw [h] at hx
  · exact hx
  · cases hx

/-- A point is between a load of `next` and its store only where the load has just been done. -/
structure Pc.Opens (p q : Pc Entry Data Value) : Prop where
  pops : q.pops = p.loads ∨ q.pops = none
  pushes : q.pushes = p.copies ∨ q.pushes = none

theorem Pc.Opens.loads_of_pops (h : p.Opens q) (hq : q.pops = some i) :
    some q ≠ some p ∧ p.loads = some i := by
  have hp := eq_some_of_eq_or_none h.pops hq
  refine ⟨fun heq => ?_, hp⟩
  cases heq
  cases p <;> cases hp
  cases hq

theorem Pc.Opens.copies_of_pushes (h : p.Opens q) (hq : q.pushes = some i) :
    some q ≠ some p ∧ p.copies = some i := by
  have hp := eq_some_of_eq_or_none h.pushes hq
  refine ⟨fun heq => ?_, hp⟩
  cases heq
  cases p <;> cases hp
  cases hq

/-- A thread goes from one point to another with what it has, or less of it. -/
structure Pc.Follows (own : ℕ → Option (Owner ι)) (t : ι) (m : Memory Entry Data)
    (p q : Pc Entry Data Value) : Prop where
  taken : q.taken = p.taken ∨ q.taken = []
  iterator : q.iterator = p.iterator ∨ q.iterator = none
  linked : q.Linked own t m
  opens : p.Opens q

theorem Pc.Fits.follow (h : p.Fits own t m) (hq : p.Follows own t m q) : q.Fits own t m := by
  refine ⟨?_, ?_, fun i hi => h.made i (eq_some_of_eq_or_none hq.iterator hi), hq.linked⟩
  · rcases hq.taken with htaken | htaken <;> rw [htaken]
    · exact h.nodup
    · exact .nil
  · rcases hq.taken with htaken | htaken <;> rw [htaken]
    · exact h.has
    · exact fun cur hcur => by cases hcur

theorem Pc.follows_crashed : p.Follows own t m .crashed :=
  ⟨.inr rfl, .inr rfl, trivial, .inr rfl, .inr rfl⟩

end

/-! ## What a step hands over -/

/-- A change of memory leaves the records and the lists as they are. -/
structure Memory.SameRecords (m m' : Memory Entry Data) : Prop where
  cells : m'.cells = m.cells
  brk : m'.brk = m.brk
  next : m'.next = m.next
  made : m'.made = m.made

theorem Memory.SameRecords.refl {m : Memory Entry Data} : m.SameRecords m := ⟨rfl, rfl, rfl, rfl⟩

/-- A point where a record or a list may change. -/
def Pc.ChangesRecords : Pc Entry Data Value → Prop
  | .nextStore _ _ | .nextLeft _ _ _ | .nextRight _ _ _ _ | .nextTail _ _ _ _ | .nextLink _ _ _
  | .nextFree _ _ | .nextFrees _ _ | .iterCalloc => True
  | _ => False

section

variable {own : ℕ → Option (Owner ι)} {m : Memory Entry Data} {p : Pc Entry Data Value} {t : ι}

theorem withMmdb_follows {f : Mmdb Entry Data → Pc Entry Data Value}
    (h : ∀ mmdb, p.Follows own t m (f mmdb)) : p.Follows own t m (withMmdb m f) :=
  withMmdb_of Pc.follows_crashed h

theorem withCell_follows {cur : ℕ}
    {f : QueuedRecord Entry → Option ℕ → Memory Entry Data × Pc Entry Data Value}
    (h : ∀ record link, m.SameRecords (f record link).1 ∧ p.Follows own t m (f record link).2) :
    m.SameRecords (withCell m cur f).1 ∧ p.Follows own t m (withCell m cur f).2 :=
  withCell_of (C := fun x => m.SameRecords x.1 ∧ p.Follows own t m x.2)
    ⟨.refl, Pc.follows_crashed⟩ h

variable [Inhabited Entry] {fromEntryDataList : Data → Except PyErr Value} {isDict : Value → Bool}
  {effect : Bool → Memory Entry Data → Memory Entry Data × Pc Entry Data Value}

theorem act_follows (h : code fromEntryDataList isDict p = .act effect) (hp : ¬ p.ChangesRecords)
    (ok : Bool) (m : Memory Entry Data) :
    m.SameRecords (effect ok m).1 ∧ p.Follows own t m (effect ok m).2 := by
  cases p <;> cases h
  case nextStore | nextLeft | nextRight | nextTail | nextLink | nextFree | nextFrees | iterCalloc =>
    exact absurd trivial hp
  case nextLoad i =>
    refine ⟨.refl, ?_⟩
    dsimp only
    split
    · exact Pc.follows_crashed
    · next cur hcur => exact ⟨.inl rfl, .inl rfl, hcur, .inl rfl, .inr rfl⟩
  case nextSwitch =>
    refine withCell_follows fun record _ => ⟨.refl, ?_⟩
    cases record.type
    all_goals first
      | exact ⟨.inl rfl, .inl rfl, trivial, .inr rfl, .inr rfl⟩
      | exact ⟨.inl rfl, .inr rfl, trivial, .inr rfl, .inr rfl⟩
  case nextSkip | nextReadNode | nextEntries | nextNetwork =>
    refine withCell_follows fun record _ => ⟨.refl, withMmdb_follows fun mmdb => ?_⟩
    repeat' split
    all_goals first
      | exact ⟨.inl rfl, .inl rfl, trivial, .inr rfl, .inr rfl⟩
      | exact ⟨.inl rfl, .inr rfl, trivial, .inr rfl, .inr rfl⟩
  case metadataEntries =>
    refine ⟨.refl, withMmdb_follows fun mmdb => ?_⟩
    repeat' split
    all_goals exact ⟨.inl rfl, .inl rfl, trivial, .inr rfl, .inr rfl⟩
  all_goals
    refine ⟨⟨rfl, rfl, rfl, rfl⟩, ?_⟩
    dsimp only
    repeat' split
    all_goals first
      | exact ⟨.inl rfl, .inl rfl, trivial, .inr rfl, .inr rfl⟩
      | exact ⟨.inl rfl, .inr rfl, trivial, .inr rfl, .inr rfl⟩

end

/-- What a thread at a point hands over: what others have stays with them, but for the record it takes
from an iterator, and so does `next` of the other iterators. -/
structure Pc.Hands (t : ι) (p : Pc Entry Data Value) (own own' : ℕ → Option (Owner ι))
    (m m' : Memory Entry Data) : Prop where
  keeps : ∀ o, o ≠ .thread t → (∀ i, p.pops = some i → o ≠ .iterator i) →
    Keeps m.link m'.link own own' o
  next : ∀ i < m.made, p.pops ≠ some i → p.pushes ≠ some i → m'.next i = m.next i
  made : m.made ≤ m'.made

/-- A thread goes from one point to another, and hands records over on the way. -/
structure Pc.Passes (t : ι) (p q : Pc Entry Data Value) (own own' : ℕ → Option (Owner ι))
    (m m' : Memory Entry Data) : Prop where
  ledger : Ledger own' m'
  fits : q.Fits own' t m'
  hands : p.Hands t own own' m m'
  opens : p.Opens q

section

variable {own : ℕ → Option (Owner ι)} {m m' : Memory Entry Data} {p q : Pc Entry Data Value} {t : ι}
  {i cur left right : ℕ} {node : SearchNode Entry} {cell : Cell Entry}

theorem Memory.SameRecords.link (h : m.SameRecords m') : m'.link = m.link := by
  funext a
  rw [Memory.link, Memory.link, h.cells]

theorem passes_of_follows (hledger : Ledger own m) (hfits : p.Fits own t m)
    (hsame : m.SameRecords m') (hq : p.Follows own t m q) : p.Passes t q own own m m' where
  ledger := hledger.congr hsame.cells hsame.brk hsame.next
  fits := by
    refine (hfits.follow hq).frame ?_ (fun i _ => by rw [hsame.next]) (fun i _ => ?_)
      hsame.made.ge
    all_goals
      rw [hsame.link]
      exact .refl
  hands := by
    refine ⟨fun o _ _ => ?_, fun i _ _ _ => by rw [hsame.next], hsame.made.ge⟩
    rw [hsame.link]
    exact .refl
  opens := hq.opens

theorem passes_here (hledger : Ledger own m) (hfits : p.Fits own t m) (hq : p.Follows own t m q) :
    ∃ own', p.Passes t q own own' m m :=
  ⟨own, passes_of_follows hledger hfits .refl hq⟩

theorem passes_store {x : Option ℕ} (hledger : Ledger own m)
    (hfits : (.nextStore i cur : Pc Entry Data Value).Fits own t m) (hlink : m.link cur = some x) :
    (.nextStore i cur : Pc Entry Data Value).Passes t (.nextSwitch i cur) own
      (Function.update own cur (some (.thread t))) m (m.setNext i x) where
  ledger := hledger.pop hfits.linked hlink t
  fits := by
    refine ⟨by simp [Pc.taken, Pc.records], fun a ha => ?_, hfits.made, trivial⟩
    rw [List.mem_singleton.mp ha, Function.update_self]
  hands := by
    refine ⟨fun o _ ho => hledger.keeps_pop hfits.linked (ho i rfl), fun j _ hj _ => ?_, le_rfl⟩
    exact Memory.setNext_next_of_ne fun h => hj (h ▸ rfl)
  opens := ⟨.inr rfl, .inr rfl⟩

theorem passes_left (hledger : Ledger own m)
    (hfits : (.nextLeft i cur node : Pc Entry Data Value).Fits own t m) :
    (.nextLeft i cur node : Pc Entry Data Value).Passes t (.nextRight i cur node m.brk) own
      (Function.update own m.brk (some (.thread t))) m (m.calloc cell) where
  ledger := hledger.calloc cell _
  fits := by
    have hcur : own cur = some (.thread t) := hfits.has cur List.mem_cons_self
    have hne := hledger.ne_brk hcur
    refine ⟨by simpa [Pc.taken, Pc.records] using hne, fun a ha => ?_, hfits.made, trivial⟩
    rcases List.mem_pair.mp ha with rfl | rfl
    · rw [Function.update_of_ne hne, hcur]
    · rw [Function.update_self]
  hands := ⟨fun o _ _ => hledger.keeps_calloc cell _, fun _ _ _ _ => rfl, le_rfl⟩
  opens := ⟨.inr rfl, .inr rfl⟩

theorem passes_right (hledger : Ledger own m)
    (hfits : (.nextRight i cur node left : Pc Entry Data Value).Fits own t m) :
    (.nextRight i cur node left : Pc Entry Data Value).Passes t (.nextTail i cur left m.brk) own
      (Function.update own m.brk (some (.thread t))) m
      ((m.calloc cell).setLink left (some m.brk)) := by
  have hhas : ∀ a ∈ [cur, left], own a = some (.thread t) := hfits.has
  have hcur := hhas cur (by simp)
  have hleft := hhas left (by simp)
  have hledger' := hledger.calloc cell (.thread t)
  have hleft' : Function.update own m.brk (some (.thread t)) left = some (.thread t) := by
    rw [Function.update_of_ne (hledger.ne_brk hleft), hleft]
  refine ⟨hledger'.setLink hleft' _, ⟨?_, fun a ha => ?_, hfits.made, ?_⟩,
    ⟨?_, fun _ _ _ _ => rfl, le_rfl⟩, .inr rfl, .inr rfl⟩
  · have hne : cur ≠ left := by simpa [Pc.taken, Pc.records] using hfits.nodup
    simp [Pc.taken, Pc.records, hne, hledger.ne_brk hcur, hledger.ne_brk hleft]
  · have ha' : a = cur ∨ a = left ∨ a = m.brk := by simpa [Pc.taken, Pc.records] using ha
    rcases ha' with rfl | rfl | rfl
    · rw [Function.update_of_ne (hledger.ne_brk hcur), hcur]
    · exact hleft'
    · rw [Function.update_self]
  · have hlive := hledger'.live_of_eq hleft'
    change ((m.calloc cell).setLink left (some m.brk)).link left = _
    rw [Memory.setLink_link hlive, Function.update_self]
  · exact fun o ho _ => (hledger.keeps_calloc cell _).trans (hledger'.keeps_setLink hleft' ho _)

theorem passes_tail (hledger : Ledger own m)
    (hfits : (.nextTail i cur left right : Pc Entry Data Value).Fits own t m) :
    (.nextTail i cur left right : Pc Entry Data Value).Passes t (.nextLink i cur left) own own m
      (m.setLink right (m.next i)) := by
  have hhas : ∀ a ∈ [cur, left, right], own a = some (.thread t) := hfits.has
  have hright := hhas right (by simp)
  have hlinked : m.link left = some (some right) := hfits.linked
  have hne : cur ≠ left ∧ cur ≠ right ∧ left ≠ right := by
    simpa [Pc.taken, Pc.records, and_assoc] using hfits.nodup
  have hkeeps : ∀ o, o ≠ .thread t → Keeps m.link (m.setLink right (m.next i)).link own own o :=
    fun o ho => hledger.keeps_setLink hright ho _
  -- `right` is linked to the list as it is, which is the iterator's
  refine ⟨hledger.setLink hright _, ⟨?_, fun a ha => ?_, hfits.made, right, m.next i, ?_, hright,
    ?_, ?_, ?_⟩, ⟨fun o ho _ => hkeeps o ho, fun _ _ _ _ => rfl, le_rfl⟩, .inr rfl, .inl rfl⟩
  · simpa [Pc.taken, Pc.records] using hne.1
  · rcases List.mem_pair.mp ha with rfl | rfl
    · exact hhas a (by simp)
    · exact hhas a (by simp)
  · simpa using ⟨hne.2.1.symm, hne.2.2.symm⟩
  · rw [Memory.setLink_link (hledger.live_of_eq hright), Function.update_of_ne hne.2.2, hlinked]
  · rw [Memory.setLink_link (hledger.live_of_eq hright), Function.update_self]
  · exact (hledger.lists i).keep (hkeeps _ fun h => by cases h)

theorem passes_link (hledger : Ledger own m)
    (hfits : (.nextLink i cur left : Pc Entry Data Value).Fits own t m) :
    ∃ own', (.nextLink i cur left : Pc Entry Data Value).Passes t (.nextFree i cur) own own' m
      (m.setNext i (some left)) := by
  have hhas : ∀ a ∈ [cur, left], own a = some (.thread t) := hfits.has
  have hcur := hhas cur (by simp)
  have hleft := hhas left (by simp)
  have hne : cur ≠ left := by simpa [Pc.taken, Pc.records] using hfits.nodup
  obtain ⟨right, x, hnot, hright, hlink, hx, hlist⟩ := hfits.linked
  have hne' : cur ≠ right := fun h => hnot (h ▸ List.mem_cons_self)
  refine ⟨_, hledger.push hleft hright hlink hx hlist, ⟨?_, fun a ha => ?_, hfits.made, trivial⟩,
    ⟨fun o ho _ => Ledger.keeps_push hleft hright i ho, fun j _ _ hj => ?_, le_rfl⟩,
    .inr rfl, .inr rfl⟩
  · simp [Pc.taken, Pc.records]
  · rw [List.mem_singleton.mp ha, Function.update_of_ne hne, Function.update_of_ne hne', hcur]
  · exact Memory.setNext_next_of_ne fun h => hj (h ▸ rfl)

theorem passes_free {frees : List ℕ} (hledger : Ledger own m) (hfits : p.Fits own t m)
    (hp : p.taken = cur :: frees) (hq : q.taken = frees)
    (hiterator : q.iterator = p.iterator ∨ q.iterator = none)
    (hlinked : q.Linked (Function.update own cur none) t (m.free cur)) (hopens : p.Opens q) :
    p.Passes t q own (Function.update own cur none) m (m.free cur) := by
  have hhas : ∀ a ∈ cur :: frees, own a = some (.thread t) := hp ▸ hfits.has
  have hnodup : (cur :: frees).Nodup := hp ▸ hfits.nodup
  have hcur := hhas cur List.mem_cons_self
  refine ⟨hledger.free hcur, ⟨?_, fun a ha => ?_,
    fun i hi => hfits.made i (eq_some_of_eq_or_none hiterator hi), hlinked⟩,
    ⟨fun o ho _ => Ledger.keeps_free hcur ho, fun _ _ _ _ => rfl, le_rfl⟩, hopens⟩
  · rw [hq]
    exact (List.nodup_cons.mp hnodup).2
  · rw [hq] at ha
    have hne : a ≠ cur := by
      rintro rfl
      exact (List.nodup_cons.mp hnodup).1 ha
    rw [Function.update_of_ne hne]
    exact hhas a (List.mem_cons_of_mem _ ha)

theorem passes_calloc (hledger : Ledger own m) (hcell : cell.link = none) {result : Returned Value}
    {method : Method} : (.iterCalloc : Pc Entry Data Value).Passes t (.ret method result) own
      (Function.update own m.brk (some (.iterator m.made))) m
      ((m.calloc cell).addIterator m.brk) := by
  have hlink : (m.calloc cell).link m.brk = some none := by
    rw [Memory.calloc_link, Function.update_self, hcell]
  refine ⟨(hledger.calloc cell _).addIterator (Function.update_self ..) hlink,
    ⟨.nil, fun _ h => (by cases h), fun _ h => (by cases h), trivial⟩,
    ⟨fun o _ _ => hledger.keeps_calloc cell _, fun j hj _ _ => ?_, Nat.le_succ _⟩,
    .inr rfl, .inr rfl⟩
  exact Function.update_of_ne hj.ne ..

theorem withCell_of_cell (h : m.cells cur = some cell)
    {f : QueuedRecord Entry → Option ℕ → Memory Entry Data × Pc Entry Data Value} :
    withCell m cur f = f cell.record cell.link := by
  rw [withCell, h]

variable [Inhabited Entry] {fromEntryDataList : Data → Except PyErr Value} {isDict : Value → Bool}
  {effect : Bool → Memory Entry Data → Memory Entry Data × Pc Entry Data Value}

/-- Whatever is done at a point, records are handed over as the points say. -/
theorem act_passes (h : code fromEntryDataList isDict p = .act effect) (hledger : Ledger own m)
    (hfits : p.Fits own t m) (ok : Bool) :
    ∃ own', p.Passes t (effect ok m).2 own own' m (effect ok m).1 := by
  cases p
  case nextStore i cur =>
    cases h
    obtain ⟨cell, hcell⟩ := hledger.exists_cell (hledger.head hfits.linked)
    dsimp only
    rw [withCell_of_cell hcell]
    exact ⟨_, passes_store hledger hfits (by rw [Memory.link, hcell, Option.map_some])⟩
  case nextLeft i cur node =>
    cases h
    cases ok with
    | false => exact passes_here hledger hfits ⟨.inl rfl, .inr rfl, trivial, .inr rfl, .inr rfl⟩
    | true =>
      obtain ⟨cell, hcell⟩ := hledger.exists_cell (hfits.has cur List.mem_cons_self)
      simp only [↓reduceIte, withCell_of_cell hcell]
      exact ⟨_, passes_left hledger hfits⟩
  case nextRight i cur node left =>
    cases h
    cases ok with
    | false => exact passes_here hledger hfits ⟨.inl rfl, .inr rfl, trivial, .inr rfl, .inr rfl⟩
    | true =>
      obtain ⟨cell, hcell⟩ := hledger.exists_cell (hfits.has cur List.mem_cons_self)
      simp only [↓reduceIte, withCell_of_cell hcell]
      cases setBit cell.record.ipPacked cell.record.depth with
      | none => exact passes_here hledger hfits Pc.follows_crashed
      | some ipPacked =>
        obtain ⟨cell', hcell'⟩ := hledger.exists_cell (hfits.has left (List.mem_cons_of_mem _ List.mem_cons_self))
        simp only [withCell_of_cell hcell']
        exact ⟨_, passes_right hledger hfits⟩
  case nextTail i cur left right =>
    cases h
    obtain ⟨cell, hcell⟩ := hledger.exists_cell (hfits.has right (by simp [Pc.taken, Pc.records]))
    simp only [withCell_of_cell hcell]
    exact ⟨_, passes_tail hledger hfits⟩
  case nextLink i cur left =>
    cases h
    exact passes_link hledger hfits
  case nextFree i cur =>
    cases h
    obtain ⟨cell, hcell⟩ := hledger.exists_cell (hfits.has cur List.mem_cons_self)
    dsimp only
    rw [withCell_of_cell hcell]
    exact ⟨_, passes_free hledger hfits rfl rfl (.inl rfl) trivial ⟨.inr rfl, .inr rfl⟩⟩
  case nextFrees frees result =>
    cases h
    cases frees with
    | nil => exact passes_here hledger hfits ⟨.inl rfl, .inl rfl, trivial, .inr rfl, .inr rfl⟩
    | cons cur frees =>
      obtain ⟨cell, hcell⟩ := hledger.exists_cell (hfits.has cur List.mem_cons_self)
      dsimp only
      rw [hcell]
      exact ⟨_, passes_free hledger hfits rfl rfl (.inl rfl) trivial ⟨.inr rfl, .inr rfl⟩⟩
  case iterCalloc =>
    cases h
    cases ok with
    | false => exact passes_here hledger hfits ⟨.inl rfl, .inl rfl, trivial, .inr rfl, .inr rfl⟩
    | true => exact ⟨_, passes_calloc hledger rfl⟩
  all_goals
    obtain ⟨hsame, hfollows⟩ := act_follows h (fun h => h) ok m
    exact ⟨own, passes_of_follows hledger hfits hsame hfollows⟩

/-- Whatever is done at a point, the lock or an action, records are handed over as the points say. -/
theorem does_passes {e : Event (Pc Entry Data Value)}
    (h : Does (code fromEntryDataList isDict) m p e q m') (hledger : Ledger own m)
    (hfits : p.Fits own t m) : ∃ own', p.Passes t q own own' m m' := by
  cases h with
  | acted ok hcode => exact act_passes hcode hledger hfits ok
  | acquired hcode | failed hcode | released hcode =>
    refine passes_here hledger hfits ?_
    cases p <;> cases hcode
    all_goals first
      | exact ⟨.inl rfl, .inl rfl, trivial, .inr rfl, .inr rfl⟩
      | exact ⟨.inl rfl, .inr rfl, trivial, .inr rfl, .inr rfl⟩

end

end MaxMindDB.Extension
