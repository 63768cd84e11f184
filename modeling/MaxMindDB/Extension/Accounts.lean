import MaxMindDB.Extension.Tracking

/-!
# Where the records are

A record that is allocated is in the list of an iterator, or a call has it: none is forgotten while it
is allocated. `does_accounts` says so of what a step leaves of the records that its call can reach.
-/

namespace MaxMindDB.Extension

open Octets OwnedList RwLock

variable {ι : Type*} {Entry Data Value : Type}

/-- A record is in the list of an iterator. -/
def Memory.InList (m : Memory Entry Data) (i a : ℕ) : Prop := ∃ L, Chain m.link (m.next i) L ∧ a ∈ L

/-- A call has a record: it has taken it or made it; while `left` is not in the list yet, it also has the
one that is linked to it. -/
def Pc.Has (m : Memory Entry Data) (p : Pc Entry Data Value) (a : ℕ) : Prop :=
  a ∈ p.taken ∨ ∃ i cur left, p = .nextLink i cur left ∧ m.link left = some (some a)

section

variable {own own' : ℕ → Option (Owner ι)} {m m' : Memory Entry Data} {p q : Pc Entry Data Value} {t : ι}
  {i a cur left right : ℕ} {node : SearchNode Entry} {cell : Cell Entry} {x : Option ℕ}

theorem Pc.not_has (htaken : p.taken = []) (h : ∀ i cur left, p ≠ .nextLink i cur left) : ¬ p.Has m a := by
  rintro (ha | ⟨i, cur, left, rfl, -⟩)
  · rw [htaken] at ha
    cases ha
  · exact h _ _ _ rfl

theorem Memory.InList.keep (h : m.InList i a) (hledger : Ledger own m) (hnext : m'.next i = m.next i)
    (hkeep : Keeps m.link m'.link own own' (.iterator i)) : m'.InList i a := by
  obtain ⟨L, hchain, ha⟩ := h
  obtain ⟨L', hchain', hown⟩ := hledger.lists i
  obtain rfl := hchain.unique hchain'
  refine ⟨L, ?_, ha⟩
  rw [hnext]
  exact hchain.congr fun b hb => (hkeep b (hown b hb)).2

theorem Pc.Has.keep (h : p.Has m a) (hfits : p.Fits own t m)
    (hkeep : Keeps m.link m'.link own own' (.thread t)) : p.Has m' a := by
  rcases h with ha | ⟨i, cur, left, rfl, hlink⟩
  · exact .inl ha
  · refine .inr ⟨i, cur, left, rfl, ?_⟩
    rw [(hkeep left (hfits.has left (by simp [Pc.taken, Pc.records]))).2, hlink]

theorem Pc.Passes.inList (h : p.Passes t q own own' m m') (hledger : Ledger own m)
    (hpops : p.pops ≠ some i) (hpushes : p.pushes ≠ some i) (hi : i < m.made) (ha : m.InList i a) :
    m'.InList i a := by
  refine ha.keep hledger (h.hands.next i hi hpops hpushes) (h.hands.keeps _ (fun h => by cases h) ?_)
  intro j hj heq
  cases heq
  exact hpops hj

end

/-! ## A step -/

/-- A call can reach a record: it has it, or its iterator does. -/
def Pc.CanReach (m : Memory Entry Data) (p : Pc Entry Data Value) (a : ℕ) : Prop :=
  p.Has m a ∨ ∃ i, p.iterator = some i ∧ m.InList i a

/-- What a step leaves of a record: the call has it, or it is in the list of its iterator or of a new
one. -/
def Accounts (p q : Pc Entry Data Value) (m m' : Memory Entry Data) (a : ℕ) : Prop :=
  q.Has m' a ∨ ∃ i < m'.made, (p.iterator = some i ∨ m.made ≤ i) ∧ m'.InList i a

section

variable {own own' : ℕ → Option (Owner ι)} {m m' : Memory Entry Data} {p q : Pc Entry Data Value} {t : ι}
  {i a cur left : ℕ} {x : Option ℕ} {cell : Cell Entry}

theorem Memory.cells_calloc (h : (m.calloc cell).cells a ≠ none) : a = m.brk ∨ m.cells a ≠ none := by
  by_cases ha : a = m.brk
  · exact .inl ha
  · exact .inr fun hnone => h ((Function.update_of_ne ha ..).trans hnone)

theorem Memory.cells_setLink (h : (m.setLink cur x).cells a ≠ none) : m.cells a ≠ none := by
  by_cases ha : a = cur
  · subst ha
    intro hnone
    refine h ((Function.update_self ..).trans ?_)
    rw [hnone, Option.map_none]
  · exact fun hnone => h ((Function.update_of_ne ha ..).trans hnone)

theorem Memory.cells_free (h : (m.free cur).cells a ≠ none) : a ≠ cur ∧ m.cells a ≠ none := by
  have ha : a ≠ cur := by
    rintro rfl
    exact h (Function.update_self ..)
  exact ⟨ha, fun hnone => h ((Function.update_of_ne ha ..).trans hnone)⟩

theorem accounts_of_inList (hpasses : p.Passes t q own own' m m') (hledger : Ledger own m)
    (hfits : p.Fits own t m) (hpops : p.pops = none) (hpushes : p.pushes = none)
    (h : ∃ i, p.iterator = some i ∧ m.InList i a) : Accounts p q m m' a := by
  obtain ⟨i, hi, ha⟩ := h
  have hlt := hfits.made i hi
  refine .inr ⟨i, hlt.trans_le hpasses.hands.made, .inl hi, hpasses.inList hledger ?_ ?_ hlt ha⟩
  · rw [hpops]
    exact fun h => by cases h
  · rw [hpushes]
    exact fun h => by cases h

/-- A call goes on with the records that it has taken, and perhaps more. -/
theorem accounts_of_taken (hpasses : p.Passes t q own own' m m') (hledger : Ledger own m)
    (hfits : p.Fits own t m) (hpops : p.pops = none) (hpushes : p.pushes = none)
    (hq : p.taken ⊆ q.taken) (h : p.CanReach m a) : Accounts p q m m' a := by
  rcases h with (ha | ⟨i, cur, left, rfl, -⟩) | hlist
  · exact .inl (.inl (hq ha))
  · cases hpushes
  · exact accounts_of_inList hpasses hledger hfits hpops hpushes hlist

theorem accounts_store (hi : i < m.made) (hnext : m.next i = some cur) (hlink : m.link cur = some x)
    (h : (.nextStore i cur : Pc Entry Data Value).CanReach m a) :
    Accounts (.nextStore i cur : Pc Entry Data Value) (.nextSwitch i cur) m (m.setNext i x) a := by
  rcases h with hhas | ⟨j, hj, L, hchain, hmem⟩
  · exact absurd hhas (Pc.not_has rfl fun _ _ _ h => by cases h)
  · cases hj
    rw [hnext] at hchain
    cases hchain with
    | @cons _ y L hy hchain =>
      rw [hlink] at hy
      cases hy
      rcases List.mem_cons.mp hmem with rfl | hmem
      · exact .inl (.inl List.mem_cons_self)
      · refine .inr ⟨i, hi, .inl rfl, L, ?_, hmem⟩
        rw [Memory.setNext_next_self, Memory.setNext_link]
        exact hchain

/-- `left` and `right` come before the list. -/
theorem accounts_link {right : ℕ} (hledger : Ledger own m) (hi : i < m.made)
    (hleft : m.link left = some (some right)) (hright : m.link right = some (m.next i))
    (h : (.nextLink i cur left : Pc Entry Data Value).CanReach m a) :
    Accounts (.nextLink i cur left : Pc Entry Data Value) (.nextFree i cur) m
      (m.setNext i (some left)) a := by
  obtain ⟨L, hchain, -⟩ := hledger.lists i
  have hlist : Chain (m.setNext i (some left)).link ((m.setNext i (some left)).next i)
      (left :: right :: L) := by
    rw [Memory.setNext_next_self, Memory.setNext_link]
    exact .cons hleft (.cons hright hchain)
  have hin : a ∈ left :: right :: L → Accounts (.nextLink i cur left : Pc Entry Data Value)
      (.nextFree i cur) m (m.setNext i (some left)) a :=
    fun ha => .inr ⟨i, hi, .inl rfl, _, hlist, ha⟩
  rcases h with (ha | ⟨j, cur', left', heq, hlink⟩) | ⟨j, hj, L', hchain', ha⟩
  · rcases List.mem_pair.mp ha with rfl | rfl
    · exact .inl (.inl List.mem_cons_self)
    · exact hin List.mem_cons_self
  · cases heq
    rw [hleft] at hlink
    cases hlink
    exact hin (List.mem_cons_of_mem _ List.mem_cons_self)
  · cases hj
    rw [hchain'.unique hchain] at ha
    exact hin (List.mem_cons_of_mem _ (List.mem_cons_of_mem _ ha))

end

/-! ## Every step -/

section

variable [Inhabited Entry] {fromEntryDataList : Data → Except PyErr Value} {isDict : Value → Bool}
  {mmdb : Mmdb Entry Data} {queues : ℕ → List (QueuedRecord Entry)}
  {own own' : ℕ → Option (Owner ι)} {m m' : Memory Entry Data} {p q : Pc Entry Data Value} {t : ι}
  {a : ℕ} {e : Event (Pc Entry Data Value)}
  {effect : Bool → Memory Entry Data → Memory Entry Data × Pc Entry Data Value}

omit [Inhabited Entry] in
theorem withMmdb_taken {f : Mmdb Entry Data → Pc Entry Data Value}
    (h : ∀ mmdb, (f mmdb).taken = p.taken) :
    (withMmdb m f).taken = p.taken ∨ withMmdb m f = .crashed := by
  unfold withMmdb
  split
  · exact .inr rfl
  · exact .inl (h _)

theorem act_taken (h : code fromEntryDataList isDict p = .act effect) (hp : ¬ p.ChangesRecords)
    (ok : Bool) (m : Memory Entry Data) :
    (effect ok m).2.taken = p.taken ∨ (effect ok m).2 = .crashed := by
  cases p <;> cases h
  case nextStore | nextLeft | nextRight | nextTail | nextLink | nextFree | nextFrees | iterCalloc =>
    exact absurd trivial hp
  case nextLoad i =>
    dsimp only [look]
    split
    · exact .inr rfl
    · exact .inl rfl
  case nextSwitch =>
    unfold withCell
    dsimp only
    split
    · exact .inr rfl
    · left
      split <;> rfl
  case nextSkip | nextReadNode | nextEntries | nextNetwork =>
    unfold withCell
    dsimp only
    split
    · exact .inr rfl
    · refine withMmdb_taken fun mmdb => ?_
      repeat' split
      all_goals rfl
  case metadataEntries =>
    refine withMmdb_taken fun mmdb => ?_
    repeat' split
    all_goals rfl
  all_goals
    left
    dsimp only [look]
    repeat' split
    all_goals rfl

theorem act_accounts (h : code fromEntryDataList isDict p = .act effect) (ok : Bool)
    (hledger : Ledger own m) (hfits : p.Fits own t m)
    (hiterates : p.Iterates mmdb fromEntryDataList queues m)
    (hpasses : p.Passes t (effect ok m).2 own own' m (effect ok m).1)
    (hcrashed : (effect ok m).2 ≠ .crashed)
    (ha : (effect ok m).1.cells a ≠ none) (hreach : m.cells a ≠ none → p.CanReach m a) :
    Accounts p (effect ok m).2 m (effect ok m).1 a := by
  have hlist := accounts_of_inList (a := a) hpasses hledger hfits
  have htaken := accounts_of_taken (a := a) hpasses hledger hfits
  have hhas := hfits.has
  cases p
  case nextStore i cur =>
    cases h
    obtain ⟨cell, hcell⟩ := hledger.exists_cell (hledger.head hfits.linked)
    dsimp only at ha ⊢
    rw [withCell_of_cell hcell] at ha ⊢
    exact accounts_store (hfits.made i rfl) hfits.linked (by rw [Memory.link, hcell, Option.map_some])
      (hreach ha)
  case nextLeft i cur node =>
    cases h
    cases ok with
    | false => exact htaken rfl rfl (List.Subset.refl _) (hreach ha)
    | true =>
      obtain ⟨cell, hcell⟩ := hledger.exists_cell (hhas cur List.mem_cons_self)
      simp only [↓reduceIte, withCell_of_cell hcell] at ha htaken ⊢
      rcases Memory.cells_calloc ha with rfl | hold
      · exact .inl (.inl (by simp [Pc.taken, Pc.records]))
      · exact htaken rfl rfl (by simp [Pc.taken, Pc.records]) (hreach hold)
  case nextRight i cur node left =>
    cases h
    cases ok with
    | false => exact htaken rfl rfl (List.Subset.refl _) (hreach ha)
    | true =>
      obtain ⟨cell, hcell⟩ := hledger.exists_cell (hhas cur List.mem_cons_self)
      simp only [↓reduceIte, withCell_of_cell hcell] at ha htaken hcrashed ⊢
      cases hbit : setBit cell.record.ipPacked cell.record.depth with
      | none =>
        rw [hbit] at hcrashed
        exact absurd rfl hcrashed
      | some ipPacked =>
        obtain ⟨cell', hcell'⟩ :=
          hledger.exists_cell (hhas left (List.mem_cons_of_mem _ List.mem_cons_self))
        simp only [hbit, withCell_of_cell hcell'] at ha htaken ⊢
        rcases Memory.cells_calloc (Memory.cells_setLink ha) with rfl | hold
        · exact .inl (.inl (by simp [Pc.taken, Pc.records]))
        · exact htaken rfl rfl (by simp [Pc.taken, Pc.records]) (hreach hold)
  case nextTail i cur left right =>
    cases h
    have hne : left ≠ right := by
      have := hfits.nodup
      simp only [Pc.taken, Pc.records, List.nodup_cons, List.mem_cons] at this
      exact fun heq => this.2.1 (.inl heq)
    have hright := hhas right (by simp [Pc.taken, Pc.records])
    have hlive := hledger.live_of_eq hright
    obtain ⟨cell, hcell⟩ := hledger.exists_cell hright
    simp only [withCell_of_cell hcell] at ha hlist ⊢
    rcases hreach (Memory.cells_setLink ha) with (hmem | ⟨_, _, _, heq, -⟩) | hin
    · have hmem' : a = cur ∨ a = left ∨ a = right := by simpa [Pc.taken, Pc.records] using hmem
      rcases hmem' with rfl | rfl | rfl
      · exact .inl (.inl List.mem_cons_self)
      · exact .inl (.inl (List.mem_cons_of_mem _ List.mem_cons_self))
      -- `left` is still linked to `right`
      · refine .inl (.inr ⟨i, cur, left, rfl, ?_⟩)
        rw [Memory.setLink_link hlive, Function.update_of_ne hne]
        exact hfits.linked
    · cases heq
    · exact hlist rfl rfl hin
  case nextLink i cur left =>
    cases h
    obtain ⟨record, link, next, -, -, -, right, node, ipPacked, -, -, hleft, hright⟩ := hiterates
    have hleft' : m.link left = some (some right) := by rw [Memory.link, hleft, Option.map_some]
    have hright' : m.link right = some (m.next i) := by rw [Memory.link, hright, Option.map_some]
    exact accounts_link hledger (hfits.made i rfl) hleft' hright' (hreach ha)
  case nextFree i cur =>
    cases h
    obtain ⟨cell, hcell⟩ := hledger.exists_cell (hhas cur List.mem_cons_self)
    simp only [withCell_of_cell hcell] at ha hlist ⊢
    obtain ⟨hne, hold⟩ := Memory.cells_free ha
    rcases hreach hold with (hmem | ⟨_, _, _, heq, -⟩) | hin
    · exact absurd (List.mem_singleton.mp hmem) hne
    · cases heq
    · exact hlist rfl rfl hin
  case nextFrees frees result =>
    cases h
    cases frees with
    | nil => exact htaken rfl rfl (List.Subset.refl _) (hreach ha)
    | cons cur frees =>
      obtain ⟨cell, hcell⟩ := hledger.exists_cell (hhas cur List.mem_cons_self)
      simp only [hcell] at ha hlist ⊢
      obtain ⟨hne, hold⟩ := Memory.cells_free ha
      rcases hreach hold with (hmem | ⟨_, _, _, heq, -⟩) | ⟨i, hi, -⟩
      · exact .inl (.inl ((List.mem_cons.mp hmem).resolve_left hne))
      · cases heq
      · cases hi
  case iterCalloc =>
    cases h
    cases ok with
    | false => exact htaken rfl rfl (List.Subset.refl _) (hreach ha)
    | true =>
      simp only [↓reduceIte] at ha ⊢
      rcases Memory.cells_calloc ha with rfl | hold
      · refine .inr ⟨m.made, Nat.lt_succ_self _, .inr le_rfl, [m.brk], ?_, List.mem_singleton_self _⟩
        have hnext : ((m.calloc ⟨QueuedRecord.zero, none⟩).addIterator m.brk).next m.made = some m.brk :=
          Function.update_self ..
        rw [hnext]
        refine .cons ?_ .nil
        show (m.calloc ⟨QueuedRecord.zero, none⟩).link m.brk = some none
        rw [Memory.calloc_link, Function.update_self]
      · rcases hreach hold with hhas | ⟨i, hi, -⟩
        · exact absurd hhas (Pc.not_has rfl fun _ _ _ h => by cases h)
        · cases hi
  all_goals
    have hsame : m.SameRecords (effect ok m).1 ∧ Pc.Follows own t m _ (effect ok m).2 :=
      act_follows h (fun h => h) ok m
    rw [hsame.1.cells] at ha
    rcases act_taken h (fun h => h) ok m with heq | heq
    · exact htaken rfl rfl (heq ▸ List.Subset.refl _) (hreach ha)
    · exact absurd heq hcrashed

/-- No record is forgotten in a step of a call. -/
theorem does_accounts (hdoes : Does (code fromEntryDataList isDict) m p e q m') (hledger : Ledger own m)
    (hfits : p.Fits own t m) (hiterates : p.Iterates mmdb fromEntryDataList queues m)
    (hpasses : p.Passes t q own own' m m') (hcrashed : q ≠ .crashed)
    (ha : m'.cells a ≠ none) (hreach : m.cells a ≠ none → p.CanReach m a) : Accounts p q m m' a := by
  cases hdoes with
  | acted ok hcode =>
    exact act_accounts hcode ok hledger hfits hiterates hpasses hcrashed ha hreach
  | acquired hcode | failed hcode | released hcode =>
    refine accounts_of_taken hpasses hledger hfits ?_ ?_ ?_ (hreach ha)
    · cases p <;> cases hcode <;> rfl
    · cases p <;> cases hcode <;> rfl
    · cases p <;> cases hcode <;> exact List.Subset.refl _

end

end MaxMindDB.Extension
