import MaxMindDB.Extension.Counting

/-!
# Deallocations and records

`ReaderIter_dealloc` takes the list from an iterator that no call is on, and frees its records one by one.
`Records` says where every record is meanwhile: in the list of an iterator, with a call, or ahead of a
loop that frees them.
-/

namespace MaxMindDB.Extension

open Octets OwnedList RefCount RwLock

variable {ι : Type*} {Entry Data Value : Type}

/-! ## Changes of memory that no call sees -/

section

variable {own own' : ℕ → Option (Owner ι)} {s : State ι (Memory Entry Data) (Pc Entry Data Value)}
  {m' : Memory Entry Data} {i cur : ℕ} {x : Option ℕ} {o : Owner ι}

theorem Ledger.setNext {m : Memory Entry Data} (h : Ledger own m) (i : ℕ) :
    Ledger own (m.setNext i none) where
  live := h.live
  fresh := h.fresh
  lists j := by
    by_cases hj : j = i
    · subst hj
      rw [Memory.setNext_next_self]
      exact .nil
    · rw [Memory.setNext_next_of_ne hj]
      exact h.lists j

theorem keeps_free_of_ne {m : Memory Entry Data} (hcur : own cur ≠ some o) :
    Keeps m.link (m.free cur).link own (Function.update own cur none) o := by
  rw [Memory.free_link]
  exact (Keeps.relink hcur _).trans (Keeps.reown hcur _)

theorem Ledger.free_of_iterator {m : Memory Entry Data} (h : Ledger own m)
    (hcur : own cur = some (.iterator i)) (hnext : m.next i = none) :
    Ledger (Function.update own cur none) (m.free cur) where
  live b hb := by
    by_cases hbc : b = cur
    · rw [hbc, Function.update_self] at hb
      exact absurd rfl hb
    · rw [Function.update_of_ne hbc] at hb
      rw [Memory.free_link, Function.update_of_ne hbc]
      exact h.live b hb
  fresh b hb := by
    have hne : b ≠ cur := (lt_of_lt_of_le (h.lt_brk hcur) hb).ne'
    rw [Memory.free_link, Function.update_of_ne hne]
    exact h.fresh b hb
  lists j := by
    by_cases hj : j = i
    · subst hj
      have hnone : (m.free cur).next j = none := hnext
      rw [hnone]
      exact .nil
    · refine (h.lists j).keep (keeps_free_of_ne ?_)
      rw [hcur]
      exact fun heq => hj (Owner.iterator.inj (Option.some.inj heq)).symm

/-- What happens to the records of an iterator that no call is on leaves the calls what they have. -/
theorem Custody.setMemory (h : Custody own s) (hledger : Ledger own' m')
    (hkeep : ∀ o, o ≠ .iterator i → Keeps s.memory.link m'.link own own' o)
    (hnext : ∀ j, j ≠ i → m'.next j = s.memory.next j) (hmade : m'.made = s.memory.made)
    (hi : ∀ t p, s.threads t = some p → p.iterator ≠ some i) :
    Custody own' { s with memory := m' } where
  ledger := hledger
  fits t p hp := by
    have hne : ∀ {j}, p.iterator = some j → j ≠ i := by
      rintro j hj rfl
      exact hi t p hp hj
    refine (h.fits t p hp).frame (hkeep _ fun heq => by cases heq) (fun j hj => ?_) (fun j hj => ?_)
      hmade.ge
    · exact hnext j (hne (Pc.iterator_of_pops hj))
    · refine hkeep _ fun heq => ?_
      exact hne (Pc.iterator_of_pushes hj) (Owner.iterator.inj heq)
  apart := h.apart

variable [Inhabited Entry] {mmdb : Mmdb Entry Data} {fromEntryDataList : Data → Except PyErr Value}
  {isDict : Value → Bool} {g : Ghost ι Entry Data Value}

theorem Tracks.setMemory (h : Tracks mmdb fromEntryDataList isDict s g) (hown : Custody own s)
    (hown' : Custody own' { s with memory := m' })
    (hcells : ∀ a o, o ≠ .iterator i → own a = some o → m'.cells a = s.memory.cells a)
    (hnext : ∀ j, j ≠ i → m'.next j = s.memory.next j) (hnone : m'.next i = none)
    (hmade : m'.made = s.memory.made) (hreader : m'.reader = s.memory.reader)
    (hi : ∀ t p, s.threads t = some p → p.iterator ≠ some i) :
    Tracks mmdb fromEntryDataList isDict { s with memory := m' }
      { g with queues := Function.update g.queues i [] } where
  holds := by
    obtain ⟨hreaders, hwriter, halone, hknown, hinv⟩ := h.holds
    refine ⟨hreaders, hwriter, halone, fun t p hp => ?_, fun hw => ?_⟩
    · show p.phase.known m'.reader
      rw [hreader]
      exact hknown t p hp
    · show m'.reader.Settled
      rw [hreader]
      exact hinv hw
  custody := ⟨own', hown'⟩
  apart := h.apart
  nullOr := by
    show m'.reader.mmdb = none ∨ m'.reader.mmdb = some mmdb
    rw [hreader]
    exact h.nullOr
  calls := h.calls
  iterates t p hp := by
    refine (h.iterates t p hp).frame hown.ledger (hown.fits t p hp)
      (fun a ha => hcells a _ (fun heq => by cases heq) ha) fun j hj => ?_
    have hji : j ≠ i := by
      rintro rfl
      exact hi t p hp hj
    refine ⟨fun a ha => hcells a _ (fun heq => hji (Owner.iterator.inj heq)) ha, hnext j hji, ?_⟩
    exact Function.update_of_ne hji ..
  sound := h.sound
  lists j hj hfree := by
    show Listed m' (m'.next j) (Function.update g.queues i [] j)
    by_cases hji : j = i
    · subst hji
      rw [hnone, Function.update_self]
      exact .nil
    · rw [hnext j hji, Function.update_of_ne hji]
      refine (h.lists j (hmade ▸ hj) hfree).frame (hown.ledger.lists j) fun a ha => ?_
      exact hcells a _ (fun heq => hji (Owner.iterator.inj heq)) ha
  queues j hj := by
    show AllQueued mmdb.tree (Function.update g.queues i [] j)
    by_cases hji : j = i
    · subst hji
      rw [Function.update_self]
      exact fun q hq => by cases hq
    · rw [Function.update_of_ne hji]
      exact h.queues j (hmade ▸ hj)

end

/-! ## Where every record is -/

section

variable [Inhabited Entry] (mmdb : Mmdb Entry Data) (fromEntryDataList : Data → Except PyErr Value)
  (isDict : Value → Bool)

/-- A record is ahead of a loop that frees the records of an iterator. -/
def World.Ahead (w : World ι Entry Data Value) (a : ℕ) : Prop :=
  ∃ i x L, w.dying i = some (.walk x) ∧ Chain w.state.memory.link x L ∧ a ∈ L

/-- What is known of the calls and of the records. -/
structure Records (w : World ι Entry Data Value) (g : Ghost ι Entry Data Value) : Prop where
  tracks : Tracks mmdb fromEntryDataList isDict w.state g
  walks : ∃ own, Custody own w.state ∧
    ∀ i x, w.dying i = some (.walk x) → Owned w.state.memory.link own (.iterator i) x
  left : ∀ i x, w.dying i = some x → x ≠ .decref → w.state.memory.next i = none
  sound : ∀ i, w.dying i ≠ some .crashed
  accounted : ∀ a, w.state.memory.cells a ≠ none →
    (∃ i < w.state.memory.made, w.state.memory.InList i a) ∨
    (∃ t p, w.state.threads t = some p ∧ p.Has w.state.memory a) ∨ w.Ahead a

end

section

variable [Inhabited Entry] {mmdb : Mmdb Entry Data} {fromEntryDataList : Data → Except PyErr Value}
  {isDict : Value → Bool} {w w' : World ι Entry Data Value} {g g' : Ghost ι Entry Data Value}
  {t : ι} {o : Obj} {p q : Pc Entry Data Value} {i : ℕ}

theorem Records.congr (h : Records mmdb fromEntryDataList isDict w g) (hstate : w'.state = w.state)
    (hdying : ∀ i x, x ≠ .decref → (w'.dying i = some x ↔ w.dying i = some x)) :
    Records mmdb fromEntryDataList isDict w' g := by
  obtain ⟨own, hown, hwalks⟩ := h.walks
  refine ⟨hstate ▸ h.tracks, ⟨own, hstate ▸ hown, fun i x hi => ?_⟩, fun i x hi hx => ?_, fun i hi => ?_,
    fun a ha => ?_⟩
  · rw [hstate]
    exact hwalks i x ((hdying i _ fun heq => by cases heq).mp hi)
  · rw [hstate]
    exact h.left i x ((hdying i x hx).mp hi) hx
  · exact h.sound i ((hdying i _ fun heq => by cases heq).mp hi)
  · rw [hstate] at ha ⊢
    refine (h.accounted a ha).imp_right (Or.imp_right ?_)
    rintro ⟨i, x, L, hi, hL⟩
    refine ⟨i, x, L, (hdying i _ fun heq => by cases heq).mpr hi, ?_⟩
    rw [hstate]
    exact hL

omit [Inhabited Entry] in
theorem World.decref_dying (w : World ι Entry Data Value) (halive : w.Alive o) (i : ℕ) (x : IterDealloc)
    (hx : x ≠ .decref) : (w.decref o).dying i = some x ↔ w.dying i = some x := by
  unfold World.decref
  split
  · cases o with
    | reader => exact Iff.rfl
    | iterator j =>
      show Function.update w.dying j (some .decref) i = some x ↔ _
      by_cases hi : i = j
      · subst hi
        rw [Function.update_self, halive.2]
        exact iff_of_false (fun heq => hx (Option.some.inj heq).symm) fun heq => by cases heq
      · rw [Function.update_of_ne hi]
  · exact Iff.rfl

omit [Inhabited Entry] in
theorem World.decref_state (w : World ι Entry Data Value) (o : Obj) :
    (w.decref o).state = w.state := by
  unfold World.decref
  split
  · cases o <;> rfl
  · rfl

theorem Records.decref (h : Records mmdb fromEntryDataList isDict w g) (halive : w.Alive o) :
    Records mmdb fromEntryDataList isDict (w.decref o) g :=
  h.congr (w.decref_state o) (w.decref_dying halive)

variable [DecidableEq ι]

theorem Records.begin (h : Records mmdb fromEntryDataList isDict w g) (ht : w.state.threads t = none)
    (hstart : StartsDistinct w.state t p) (z : Option Obj) :
    Records mmdb fromEntryDataList isDict (w.move t (some p) z)
      { g with calls := Function.update g.calls t (some p) } := by
  obtain ⟨own, hown, hwalks⟩ := h.walks
  have htracks := h.tracks.begin ht hstart
  refine ⟨htracks, ⟨own, ?_, hwalks⟩, h.left, h.sound, fun a ha => ?_⟩
  · refine hown.turn (t := t) (fun u hu => State.move_threads_of_ne hu) rfl fun q hq => ?_
    have hq' : (w.state.move t (some p)).threads t = some q := hq
    rw [State.move_threads_self] at hq'
    cases hq'
    exact ⟨hstart.1.fits, hstart.1.not_overlaps⟩
  · refine (h.accounted a ha).imp_right (Or.imp_left ?_)
    rintro ⟨u, q, hq, hhas⟩
    have hu : u ≠ t := by
      rintro rfl
      rw [ht] at hq
      cases hq
    exact ⟨u, q, (State.move_threads_of_ne hu).trans hq, hhas⟩

theorem Records.ret (h : Records mmdb fromEntryDataList isDict w g) {method : Method}
    {result : Returned Value} (ht : w.state.threads t = some (.ret method result)) (z : Option Obj) :
    Records mmdb fromEntryDataList isDict (w.move t none z) g := by
  obtain ⟨own, hown, hwalks⟩ := h.walks
  refine ⟨h.tracks.ret ht rfl, ⟨own, ?_, hwalks⟩, h.left, h.sound, fun a ha => ?_⟩
  · refine hown.turn (t := t) (fun u hu => State.move_threads_of_ne hu) rfl fun q hq => ?_
    have hq' : (w.state.move t none).threads t = some q := hq
    rw [State.move_threads_self] at hq'
    cases hq'
  · refine (h.accounted a ha).imp_right (Or.imp_left ?_)
    rintro ⟨u, q, hq, hhas⟩
    have hu : u ≠ t := by
      rintro rfl
      rw [ht] at hq
      cases hq
      exact absurd hhas (Pc.not_has rfl fun _ _ _ heq => by cases heq)
    exact ⟨u, q, (State.move_threads_of_ne hu).trans hq, hhas⟩

theorem Records.passage (h : Records mmdb fromEntryDataList isDict w g) (hcounts : Counts w)
    (hdepth : mmdb.tree.DepthAtMost 128 QueuedRecord.zero.node)
    {s : State ι (Memory Entry Data) (Pc Entry Data Value)}
    (hpassage : Passage (code fromEntryDataList isDict) StartsDistinct w.state s t p q) :
    ∃ queues, Records mmdb fromEntryDataList isDict (w.setState s) { g with queues } := by
  obtain ⟨call, queues, -, -, htracks⟩ := h.tracks.passage hdepth hpassage
  obtain ⟨-, hothers, hp, hq, e, hdoes⟩ := hpassage
  obtain ⟨own, hown, hwalks⟩ := h.walks
  have hfits := hown.fits t p hp
  obtain ⟨own', hpasses⟩ := does_passes hdoes hown.ledger hfits
  -- the call is on no iterator that is being deallocated
  have hne : ∀ i, w.dying i ≠ none → p.iterator ≠ some i := fun i hi => hcounts.iterator_ne hi hp
  have hkeep : ∀ i, p.iterator ≠ some i →
      Keeps w.state.memory.link s.memory.link own own' (.iterator i) := by
    intro i hi
    refine hpasses.hands.keeps _ (fun heq => by cases heq) fun j hj heq => ?_
    cases heq
    exact hi (Pc.iterator_of_pops hj)
  have hwalk : ∀ {i x}, w.dying i = some (.walk x) → w.dying i ≠ none := by
    intro i x hi heq
    rw [hi] at heq
    cases heq
  refine ⟨queues, htracks, ⟨own', hown.passes hothers hp hq hpasses (h.tracks.apart.alone s),
    fun i x hi => ?_⟩, fun i x hi hx => ?_, h.sound, fun a ha => ?_⟩
  · exact (hwalks i x hi).keep (hkeep i (hne i (hwalk hi)))
  · have hdying : w.dying i ≠ none := by
      rw [show w.dying i = some x from hi]
      exact Option.some_ne_none x
    exact (next_of_passes hpasses (hne i hdying) (hcounts.made_of_dying hdying)).trans (h.left i x hi hx)
  · -- what the call can reach is accounted for, and the others keep what they have
    by_cases hreach : w.state.memory.cells a ≠ none → p.CanReach w.state.memory a
    · have hcrashed : q ≠ .crashed := by
        rintro rfl
        exact (htracks.sound t).1 hq
      rcases does_accounts hdoes hown.ledger hfits (h.tracks.iterates t p hp) hpasses hcrashed ha
        hreach with hhas | ⟨i, hi, -, hlist⟩
      · exact .inr (.inl ⟨t, q, hq, hhas⟩)
      · exact .inl ⟨i, hi, hlist⟩
    · obtain ⟨hold, hreach⟩ := Classical.not_imp.mp hreach
      rcases h.accounted a hold with ⟨i, hi, hlist⟩ | ⟨u, r, hr, hhas⟩ | ⟨i, x, L, hi, hL, hmem⟩
      · have hpi : p.iterator ≠ some i := fun heq => hreach (.inr ⟨i, heq, hlist⟩)
        exact .inl ⟨i, hi.trans_le hpasses.hands.made,
          hlist.keep hown.ledger (next_of_passes hpasses hpi hi) (hkeep i hpi)⟩
      · have hu : u ≠ t := by
          rintro rfl
          rw [hp] at hr
          cases hr
          exact hreach (.inl hhas)
        have hkept : Keeps w.state.memory.link s.memory.link own own' (.thread u) :=
          hpasses.hands.keeps _ (fun heq => hu (Owner.thread.inj heq)) fun _ _ heq => by cases heq
        exact .inr (.inl ⟨u, r, (hothers u hu).trans hr, hhas.keep (hown.fits u r hr) hkept⟩)
      · obtain ⟨L', hL', hmine⟩ := hwalks i x hi
        refine .inr (.inr ⟨i, x, L, hi, hL.congr fun b hb => ?_, hmem⟩)
        exact (hkeep i (hne i (hwalk hi)) b (hmine b (hL.unique hL' ▸ hb))).2

end

/-! ## A deallocation goes on -/

section

variable {w : World ι Entry Data Value} {own own' : ℕ → Option (Owner ι)} {m' : Memory Entry Data}
  {i cur : ℕ} {y : Option ℕ} {cell : Cell Entry}

/-- What `ReaderIter_dealloc` does to the memory, when `y` is what it has still to free. -/
structure Frees (w : World ι Entry Data Value) (own own' : ℕ → Option (Owner ι))
    (m' : Memory Entry Data) (i : ℕ) (y : Option ℕ) : Prop where
  ledger : Ledger own' m'
  keeps : ∀ o, o ≠ .iterator i → Keeps w.state.memory.link m'.link own own' o
  cells : ∀ a o, o ≠ .iterator i → own a = some o → m'.cells a = w.state.memory.cells a
  next : ∀ j, j ≠ i → m'.next j = w.state.memory.next j
  taken : m'.next i = none
  made : m'.made = w.state.memory.made
  reader : m'.reader = w.state.memory.reader
  walk : Owned m'.link own' (.iterator i) y
  accounts : ∀ a, m'.cells a ≠ none → w.state.memory.cells a ≠ none ∧
    ∀ z L, (w.dying i = some .decref ∧ z = w.state.memory.next i ∨ w.dying i = some (.walk z)) →
      Chain w.state.memory.link z L → a ∈ L → ∃ L', Chain m'.link y L' ∧ a ∈ L'

theorem frees_of_decref (hledger : Ledger own w.state.memory) (hi : w.dying i = some .decref) :
    Frees w own own (w.state.memory.setNext i none) i (w.state.memory.next i) where
  ledger := hledger.setNext i
  keeps _ _ _ h := ⟨h, rfl⟩
  cells _ _ _ _ := rfl
  next _ hj := Memory.setNext_next_of_ne hj
  taken := Memory.setNext_next_self ..
  made := rfl
  reader := rfl
  walk := hledger.lists i
  accounts a ha := by
    refine ⟨ha, fun z L hz hL hmem => ?_⟩
    rcases hz with ⟨-, rfl⟩ | hz
    · exact ⟨L, hL, hmem⟩
    · rw [hi] at hz
      cases hz

/-- A record is freed, and the loop goes on with the one that it was linked to. -/
theorem frees_of_walk (hledger : Ledger own w.state.memory) (hi : w.dying i = some (.walk (some cur)))
    (hnext : w.state.memory.next i = none) (hcell : w.state.memory.cells cur = some cell)
    (howned : Owned w.state.memory.link own (.iterator i) (some cur)) :
    Frees w own (Function.update own cur none) (w.state.memory.free cur) i cell.link := by
  have hlink : w.state.memory.link cur = some cell.link := by rw [Memory.link, hcell, Option.map_some]
  obtain ⟨L₀, hL₀, hmine⟩ := howned.pop hlink none
  have hfree : Chain (w.state.memory.free cur).link cell.link L₀ := by
    refine hL₀.congr fun b hb => ?_
    have hne : b ≠ cur := by
      rintro rfl
      have := hmine b hb
      rw [Function.update_self] at this
      cases this
    rw [Memory.free_link, Function.update_of_ne hne]
  have hcur : ∀ o : Owner ι, o ≠ .iterator i → own cur ≠ some o := by
    intro o ho heq
    rw [howned.head] at heq
    exact ho (Option.some.inj heq).symm
  refine ⟨hledger.free_of_iterator howned.head hnext, fun o ho => keeps_free_of_ne (hcur o ho),
    fun a o ho ha => ?_, fun _ _ => rfl, hnext, rfl, rfl, ⟨L₀, hfree, hmine⟩, fun a ha => ?_⟩
  · refine Function.update_of_ne ?_ ..
    rintro rfl
    exact hcur o ho ha
  · obtain ⟨hne, hold⟩ := Memory.cells_free ha
    refine ⟨hold, fun z L hz hL hmem => ?_⟩
    rw [hi] at hz
    obtain ⟨heq, -⟩ | heq := hz
    · cases heq
    cases heq
    rw [hL.unique (.cons hlink hL₀)] at hmem
    exact ⟨L₀, hfree, (List.mem_cons.mp hmem).resolve_left hne⟩

variable [Inhabited Entry] {mmdb : Mmdb Entry Data} {fromEntryDataList : Data → Except PyErr Value}
  {isDict : Value → Bool} {g : Ghost ι Entry Data Value}

theorem Records.frees (h : Records mmdb fromEntryDataList isDict w g) (hcounts : Counts w)
    (hi : w.dying i ≠ none) (hown : Custody own w.state)
    (hwalks : ∀ j x, w.dying j = some (.walk x) → Owned w.state.memory.link own (.iterator j) x)
    (hfrees : Frees w own own' m' i y)
    (hknown : w.dying i = some .decref ∨ ∃ z, w.dying i = some (.walk z)) :
    Records mmdb fromEntryDataList isDict ((w.setMemory m').setDying i (.walk y))
      { g with queues := Function.update g.queues i [] } := by
  have hcalls : ∀ t p, w.state.threads t = some p → p.iterator ≠ some i :=
    fun t p hp => hcounts.iterator_ne hi hp
  have hown' : Custody own' { w.state with memory := m' } :=
    hown.setMemory hfrees.ledger hfrees.keeps hfrees.next hfrees.made hcalls
  have hkeep : ∀ {j}, j ≠ i → Keeps w.state.memory.link m'.link own own' (.iterator j) :=
    fun hj => hfrees.keeps _ fun heq => hj (Owner.iterator.inj heq)
  have hself : ((w.setMemory m').setDying i (.walk y)).dying i = some (.walk y) := Function.update_self ..
  have hother : ∀ {j}, j ≠ i → ((w.setMemory m').setDying i (.walk y)).dying j = w.dying j :=
    fun hj => Function.update_of_ne hj ..
  refine ⟨h.tracks.setMemory hown hown' hfrees.cells hfrees.next hfrees.taken hfrees.made hfrees.reader
    hcalls, ⟨own', hown', fun j z hj => ?_⟩, fun j z hj hz => ?_, fun j => ?_, fun a ha => ?_⟩
  · by_cases hji : j = i
    · subst hji
      rw [hself] at hj
      cases hj
      exact hfrees.walk
    · rw [hother hji] at hj
      exact (hwalks j z hj).keep (hkeep hji)
  · by_cases hji : j = i
    · subst hji
      exact hfrees.taken
    · rw [hother hji] at hj
      exact (hfrees.next j hji).trans (h.left j z hj hz)
  · by_cases hji : j = i
    · subst hji
      rw [hself]
      exact fun heq => by cases heq
    · rw [hother hji]
      exact h.sound j
  · obtain ⟨hold, hmine⟩ := hfrees.accounts a ha
    rcases h.accounted a hold with ⟨j, hj, hlist⟩ | ⟨u, r, hr, hhas⟩ | ⟨j, z, L, hj, hL, hmem⟩
    · by_cases hji : j = i
      · subst hji
        obtain ⟨L, hL, hmem⟩ := hlist
        refine .inr (.inr ⟨j, y, ?_⟩)
        rcases hknown with hdecref | ⟨z, hwalk⟩
        · obtain ⟨L', hL', hmem'⟩ := hmine _ L (.inl ⟨hdecref, rfl⟩) hL hmem
          exact ⟨L', hself, hL', hmem'⟩
        -- the list of the iterator has been taken from it before
        · rw [h.left j _ hwalk fun heq => by cases heq] at hL
          cases hL
          cases hmem
      · exact .inl ⟨j, hfrees.made ▸ hj, hlist.keep hown.ledger (hfrees.next j hji) (hkeep hji)⟩
    · exact .inr (.inl ⟨u, r, hr,
        hhas.keep (hown.fits u r hr) (hfrees.keeps _ fun heq => by cases heq)⟩)
    · by_cases hji : j = i
      · subst hji
        obtain ⟨L', hL', hmem'⟩ := hmine z L (.inr hj) hL hmem
        exact .inr (.inr ⟨j, y, L', hself, hL', hmem'⟩)
      · obtain ⟨L', hL', hown⟩ := hwalks j z hj
        refine .inr (.inr ⟨j, z, L, (hother hji).trans hj, hL.congr fun b hb => ?_, hmem⟩)
        exact (hkeep hji b (hown b (hL.unique hL' ▸ hb))).2

/-- The loop has come to the end, and nothing is ahead of it. -/
theorem Records.gone (h : Records mmdb fromEntryDataList isDict w g) (hi : w.dying i = some (.walk none)) :
    Records mmdb fromEntryDataList isDict (w.setDying i .gone) g := by
  have hback : ∀ j z, z ≠ .gone → (w.setDying i .gone).dying j = some z → j ≠ i ∧ w.dying j = some z := by
    intro j z hz hj
    by_cases hji : j = i
    · subst hji
      have hself : (w.setDying j .gone).dying j = some .gone := Function.update_self ..
      rw [hself] at hj
      exact absurd (Option.some.inj hj).symm hz
    · exact ⟨hji, (Function.update_of_ne hji ..).symm.trans hj⟩
  obtain ⟨own, hown, hwalks⟩ := h.walks
  refine ⟨h.tracks, ⟨own, hown, fun j x hj => hwalks j x (hback j _ (fun heq => by cases heq) hj).2⟩,
    fun j x hj hx => ?_, fun j hj => h.sound j (hback j _ (fun heq => by cases heq) hj).2, fun a ha => ?_⟩
  · by_cases hji : j = i
    · subst hji
      exact h.left j _ hi fun heq => by cases heq
    · exact h.left j x ((Function.update_of_ne hji ..).symm.trans hj) hx
  · refine (h.accounted a ha).imp_right (Or.imp_right ?_)
    rintro ⟨j, x, L, hj, hL, hmem⟩
    have hji : j ≠ i := by
      rintro rfl
      rw [hi] at hj
      cases hj
      cases hL
      cases hmem
    exact ⟨j, x, L, (Function.update_of_ne hji ..).trans hj, hL, hmem⟩

end

end MaxMindDB.Extension
