import MaxMindDB.Extension.Custody
import MaxMindDB.Extension.Lifecycle

/-!
# Whether records are owned once

The lock keeps `Reader_close` away from a call of `ReaderIter_next`, but not other calls on the same
iterator: they hold it shared, and each takes records from the list with a load and a store of
`ri->next`.

When a call loads `ri->next` between a load of another call and its store, both have the same record,
and free it (`not_ownedOnce`). When none does (`Alone`), no two calls have the same record, and those
they have are allocated (`next_ownedOnce`).
-/

namespace MaxMindDB.Extension

open OwnedList RwLock

variable {ι : Type*} {Entry Data Value : Type}

/-- No two calls have the same record, and the records that a call has are allocated: what it reads,
links or frees has not been freed. -/
structure OwnedOnce (s : State ι (Memory Entry Data) (Pc Entry Data Value)) : Prop where
  once : ∀ t u p q, t ≠ u → s.threads t = some p → s.threads u = some q →
    p.records.Disjoint q.records
  live : ∀ t p, s.threads t = some p → ∀ cur ∈ p.records, s.memory.cells cur ≠ none

/-- Two points of calls on one iterator: its `next` is loaded at the first, and at the second, where it
has been loaded before, it is stored. Two calls that both link records to the list do not clash: the
records of one are lost, and none is shared. -/
def Pc.Clashes (p q : Pc Entry Data Value) : Prop :=
  ∃ i, p.loads = some i ∧ (q.pops = some i ∨ q.pushes = some i) ∨
    p.copies = some i ∧ q.pops = some i

/-- A step does not load the `next` of an iterator while another call has still to store it. -/
def Alone (s s' : State ι (Memory Entry Data) (Pc Entry Data Value)) : Prop :=
  ∀ t u p q, t ≠ u → s.threads t = some p → s.threads u = some q → s'.threads t ≠ some p →
    ¬ p.Clashes q

/-- Two points of calls on one iterator where its `next` has been loaded, at the first into `cur`. -/
def Pc.Overlaps (p q : Pc Entry Data Value) : Prop :=
  ∃ i, p.pops = some i ∧ (q.pops = some i ∨ q.pushes = some i)

/-! ## Every run -/

/-- The records belong to whom `own` says, and no call has loaded the `next` of an iterator while
another had still to store it. -/
structure Custody (own : ℕ → Option (Owner ι))
    (s : State ι (Memory Entry Data) (Pc Entry Data Value)) : Prop where
  ledger : Ledger own s.memory
  fits : ∀ t p, s.threads t = some p → p.Fits own t s.memory
  apart : ∀ t u p q, t ≠ u → s.threads t = some p → s.threads u = some q → ¬ p.Overlaps q

section

variable {own own' : ℕ → Option (Owner ι)}
  {s s' : State ι (Memory Entry Data) (Pc Entry Data Value)} {p q : Pc Entry Data Value} {t u : ι}
  {mmdb : Mmdb Entry Data}

theorem Custody.ownedOnce (h : Custody own s) : OwnedOnce s := by
  -- who has a record, by where it is
  have hhas : ∀ t p, s.threads t = some p → ∀ cur ∈ p.records,
      own cur = some (.thread t) ∨ ∃ i, p.pops = some i ∧ own cur = some (.iterator i) := by
    intro t p hp cur hcur
    have hfits := h.fits t p hp
    cases p
    case nextStore i cur =>
      rw [List.mem_singleton.mp hcur]
      exact .inr ⟨i, rfl, h.ledger.head hfits.linked⟩
    all_goals exact .inl (hfits.has _ hcur)
  refine ⟨fun t u p q hne hp hq cur hcur hcur' => ?_, fun t p hp cur hcur => ?_⟩
  · rcases hhas t p hp cur hcur with ht | ⟨i, hi, ht⟩ <;>
      rcases hhas u q hq cur hcur' with hu | ⟨j, hj, hu⟩ <;>
      rw [ht] at hu <;> cases hu
    · exact hne rfl
    · exact h.apart t u p q hne hp hq ⟨i, hi, .inl hj⟩
  · refine Memory.link_eq_none.not.mp ?_
    rcases hhas t p hp cur hcur with ht | ⟨i, -, ht⟩
    · exact h.ledger.live_of_eq ht
    · exact h.ledger.live_of_eq ht

theorem custody_opened : Custody (fun _ => none)
    (State.init (.opened mmdb) : State ι (Memory Entry Data) (Pc Entry Data Value)) where
  ledger := ⟨fun _ h => absurd rfl h, fun _ _ => rfl, fun _ => .nil⟩
  fits _ _ h := by cases h
  apart _ _ _ _ _ h := by cases h

theorem Custody.move (h : Custody own s) (hothers : ∀ u, u ≠ t → s'.threads u = s.threads u)
    (hledger : Ledger own' s'.memory)
    (hself : ∀ q, s'.threads t = some q → q.Fits own' t s'.memory)
    (hkept : ∀ u r, u ≠ t → s.threads u = some r → r.Fits own' u s'.memory)
    (hapart : ∀ q u r, s'.threads t = some q → u ≠ t → s.threads u = some r →
      ¬ q.Overlaps r ∧ ¬ r.Overlaps q) : Custody own' s' where
  ledger := hledger
  fits u r hr := by
    by_cases hu : u = t
    · subst hu
      exact hself r hr
    · exact hkept u r hu (hothers u hu ▸ hr)
  apart u v q r hne hq hr := by
    by_cases hu : u = t
    · subst hu
      exact (hapart q v r hq hne.symm (hothers v hne.symm ▸ hr)).1
    · rw [hothers u hu] at hq
      by_cases hv : v = t
      · subst hv
        exact (hapart r u q hr hu hq).2
      · rw [hothers v hv] at hr
        exact h.apart u v q r hne hq hr

theorem Custody.turn (h : Custody own s) (hothers : ∀ u, u ≠ t → s'.threads u = s.threads u)
    (hm : s'.memory = s.memory) (hself : ∀ q, s'.threads t = some q →
      q.Fits own t s.memory ∧ ∀ r : Pc Entry Data Value, ¬ q.Overlaps r ∧ ¬ r.Overlaps q) :
    Custody own s' := by
  refine h.move hothers ?_ (fun q hq => ?_) (fun u r _ hr => ?_) fun q u r hq _ _ => (hself q hq).2 r
  · rw [hm]
    exact h.ledger
  · rw [hm]
    exact (hself q hq).1
  · rw [hm]
    exact h.fits u r hr

/-- A call goes on, and no other has still to store what it loads. -/
theorem Custody.passes (h : Custody own s) (hothers : ∀ u, u ≠ t → s'.threads u = s.threads u)
    (hp : s.threads t = some p) (hq : s'.threads t = some q)
    (hpasses : p.Passes t q own own' s.memory s'.memory) (halone : Alone s s') :
    Custody own' s' := by
  refine h.move hothers hpasses.ledger (fun r hr => ?_) (fun u r hu hr => ?_)
    fun q' u r hq' hu hr => ?_
  · rw [hq] at hr
    cases hr
    exact hpasses.fits
  -- another call keeps its records; what it has loaded is as before, as no store comes between
  · have hfits := h.fits u r hr
    refine hfits.frame (hpasses.hands.keeps _ ?_ fun i _ h => by cases h) (fun i hi => ?_)
      (fun i hi => hpasses.hands.keeps _ (fun h => by cases h) fun j hj hij => ?_)
      hpasses.hands.made
    · exact fun heq => hu (Owner.thread.inj heq)
    · refine hpasses.hands.next i (hfits.made i (Pc.iterator_of_pops hi)) (fun hpops => ?_)
        fun hpushes => ?_
      · exact h.apart u t r p hu hr hp ⟨i, hi, .inl hpops⟩
      · exact h.apart u t r p hu hr hp ⟨i, hi, .inr hpushes⟩
    · cases hij
      exact h.apart t u p r hu.symm hp hr ⟨i, hj, .inr hi⟩
  -- this call has loaded what another has still to store only in a step that clashes
  · rw [hq] at hq'
    cases hq'
    have hclash : s'.threads t ≠ some p → ¬ p.Clashes r := halone t u p r hu.symm hp hr
    rw [hq] at hclash
    refine ⟨fun ⟨i, hi, hr'⟩ => ?_, fun ⟨i, hr', hi⟩ => ?_⟩
    · obtain ⟨hne, hloads⟩ := hpasses.opens.loads_of_pops hi
      exact hclash hne ⟨i, .inl ⟨hloads, hr'⟩⟩
    · rcases hi with hi | hi
      · obtain ⟨hne, hloads⟩ := hpasses.opens.loads_of_pops hi
        exact hclash hne ⟨i, .inl ⟨hloads, .inl hr'⟩⟩
      · obtain ⟨hne, hcopies⟩ := hpasses.opens.copies_of_pushes hi
        exact hclash hne ⟨i, .inr ⟨hcopies, hr'⟩⟩

theorem Starts.fits (h : Starts s t p) : p.Fits own t s.memory := by
  cases h with
  | @next i hi => exact ⟨.nil, fun _ h => (by cases h), fun j hj => (by cases hj; exact hi), trivial⟩
  | get | getWithPrefixLen | metadata | close | enter | exit | iter =>
    exact ⟨.nil, fun _ h => (by cases h), fun _ h => (by cases h), trivial⟩

theorem Starts.not_overlaps (h : Starts s t p) (q : Pc Entry Data Value) :
    ¬ p.Overlaps q ∧ ¬ q.Overlaps p := by
  refine ⟨fun ⟨i, hi, _⟩ => ?_, fun ⟨i, _, hi⟩ => ?_⟩
  · cases h <;> cases hi
  · cases h <;> rcases hi with hi | hi <;> cases hi

variable [DecidableEq ι] [Inhabited Entry] {fromEntryDataList : Data → Except PyErr Value}
  {isDict : Value → Bool}

theorem Custody.step (h : Custody own s)
    (hstep : Step (code fromEntryDataList isDict) Starts s s') (halone : Alone s s') :
    ∃ own', Custody own' s' := by
  obtain ⟨t, hothers, ⟨-, hm, p, hstart, hp⟩ | ⟨p, e, q, hp, hq, hdoes⟩ |
    ⟨p, hp, hcode, hm, hnone⟩⟩ := hstep.exists_thread
  · refine ⟨own, h.turn hothers hm fun q hq => ?_⟩
    rw [hp] at hq
    cases hq
    exact ⟨hstart.fits, hstart.not_overlaps⟩
  · obtain ⟨own', hpasses⟩ := does_passes hdoes h.ledger (h.fits t p hp)
    exact ⟨own', h.passes hothers hp hq hpasses halone⟩
  · refine ⟨own, h.turn hothers hm fun q hq => ?_⟩
    rw [hnone] at hq
    cases hq

/-- A call that loads the `next` of an iterator between a load and a store of another has its record. -/
theorem Custody.shares (h : Custody own s) {i cur : ℕ} (hne : t ≠ u)
    (ht : s.threads t = some (.nextLoad i)) (hu : s.threads u = some (.nextStore i cur))
    (hstep : Step (code fromEntryDataList isDict) Starts s s')
    (hmoves : s'.threads t ≠ s.threads t) : ¬ OwnedOnce s' := by
  intro howned
  obtain ⟨v, hothers, hmove⟩ := hstep.exists_thread
  have hv : t = v := by
    by_contra hv
    exact hmoves (hothers t hv)
  subst hv
  have hu' : s'.threads u = some (.nextStore i cur) := (hothers u hne.symm).trans hu
  have hnext : s.memory.next i = some cur := (h.fits u _ hu).linked
  have ht' : s'.threads t = some (.nextStore i cur) := by
    rcases hmove with ⟨hnone, -⟩ | ⟨p, e, q, hp, hq, hdoes⟩ | ⟨p, hp, hcode, -⟩
    · rw [ht] at hnone
      cases hnone
    · rw [ht] at hp
      cases hp
      rw [hq]
      cases hdoes.goes with
      | acted ok hcode =>
        cases hcode
        dsimp only
        rw [hnext]
      | acquired hcode | failed hcode | released hcode => cases hcode
    · rw [ht] at hp
      cases hp
      cases hcode
  exact howned.once t u _ _ hne ht' hu' List.mem_cons_self List.mem_cons_self

/-- **Records are owned once while loads and stores of `next` do not interleave.** Any number of threads
call the methods of an open reader, and `next` on the same iterators, in any interleaving in which no
call loads `ri->next` while another has still to store it. In every state that is reached, no two calls
have the same record, and the records that a call has are allocated; a call depends on no other record
and changes no other, so it uses and frees none that has been freed. But a call that then loads
`ri->next` between a load and a store of another has the same record. -/
theorem next_ownedOnce (h : Relation.ReflTransGen
      (fun s s' => Step (code fromEntryDataList isDict) Starts s s' ∧ Alone s s')
      (State.init (.opened mmdb)) s) :
    OwnedOnce s ∧
    (∀ (q : Pc Entry Data Value)
      (effect : Bool → Memory Entry Data → Memory Entry Data × Pc Entry Data Value),
      code fromEntryDataList isDict q = .act effect → ∀ ok m cur, cur ∉ q.records → m.brk ≠ cur →
        ∀ cell, effect ok (m.setCell cur cell) =
          ((effect ok m).1.setCell cur cell, (effect ok m).2)) ∧
    ∀ s' t u i cur, Step (code fromEntryDataList isDict) Starts s s' → t ≠ u →
      s.threads t = some (.nextLoad i) → s.threads u = some (.nextStore i cur) →
      s'.threads t ≠ s.threads t → ¬ OwnedOnce s' := by
  have hcustody : ∃ own, Custody own s := by
    induction h with
    | refl => exact ⟨_, custody_opened⟩
    | tail _ hstep ih =>
      obtain ⟨own, hown⟩ := ih
      exact hown.step hstep.1 hstep.2
  obtain ⟨own, hown⟩ := hcustody
  refine ⟨hown.ownedOnce, fun q effect hq ok m cur hcur hbrk cell => ?_,
    fun s' t u i cur hstep hne ht hu hmoves => hown.shares hne ht hu hstep hmoves⟩
  exact act_setCell hq hcur hbrk ok cell

end

/-- A step while no call has still to store what it has loaded. -/
theorem alone_of_idle {ι : Type*} {s : State ι (Memory Entry Data) (Pc Entry Data Value)}
    (h : ∀ t, (s.threads t).bind Pc.pops = none ∧ (s.threads t).bind Pc.pushes = none)
    (s' : State ι (Memory Entry Data) (Pc Entry Data Value)) : Alone s s' := by
  intro t u p q _ _ hq _ hclash
  obtain ⟨hpops, hpushes⟩ := h u
  rw [hq, Option.bind_some] at hpops hpushes
  obtain ⟨i, ⟨-, hi | hi⟩ | ⟨-, hi⟩⟩ := hclash
  · rw [hpops] at hi
    cases hi
  · rw [hpushes] at hi
    cases hi
  · rw [hpops] at hi
    cases hi

/-! Two threads call `next` on an iterator that one of them has made, and come to their first load. -/

theorem sample_loads : ∃ s : State Bool (Memory ℕ String) (Pc ℕ String String),
    Relation.ReflTransGen (fun s s' => Step (code .ok fun _ => true) Starts s s' ∧ Alone s s')
      (State.init (.opened sampleMmdb)) s ∧
    s.memory = ((Memory.opened sampleMmdb).calloc ⟨.zero, none⟩).addIterator 0 ∧
    s.threads = fun _ => some (.nextLoad 0) := by
  let Run (s : State Bool (Memory ℕ String) (Pc ℕ String String)) : Prop :=
    Relation.ReflTransGen (fun s s' => Step (code .ok fun _ => true) Starts s s' ∧ Alone s s')
      (State.init (.opened sampleMmdb)) s
  have tail : ∀ {s s'}, Run s → Step (code .ok fun _ => true) Starts s s' →
      (∀ t, (s.threads t).bind Pc.pops = none ∧ (s.threads t).bind Pc.pushes = none) → Run s' :=
    fun run hstep hidle => run.tail ⟨hstep, alone_of_idle hidle _⟩
  have run : Run _ := tail .refl (.start (t := true) rfl .iter) fun t => ⟨rfl, rfl⟩
  have run := tail run (.act (t := true) (p := .iterState) true rfl rfl)
    fun t => by cases t <;> exact ⟨rfl, rfl⟩
  have run := tail run (.acquireShared (t := true) (p := .iterAcquire) rfl rfl rfl)
    fun t => by cases t <;> exact ⟨rfl, rfl⟩
  have run := tail run (.act (t := true) (p := .iterTest) true rfl rfl)
    fun t => by cases t <;> exact ⟨rfl, rfl⟩
  have run := tail run (.releaseShared (t := true) (p := .iterUnlock) rfl rfl (by decide))
    fun t => by cases t <;> exact ⟨rfl, rfl⟩
  have run := tail run (.act (t := true) (p := .iterAlloc) true rfl rfl)
    fun t => by cases t <;> exact ⟨rfl, rfl⟩
  have run := tail run (.act (t := true) (p := .iterCalloc) true rfl rfl)
    fun t => by cases t <;> exact ⟨rfl, rfl⟩
  have run := tail run (.finish (t := true) (p := .ret .iter (.iterator 0)) rfl rfl)
    fun t => by cases t <;> exact ⟨rfl, rfl⟩
  have run := tail run (.start (t := true) rfl (.next (i := 0) Nat.one_pos))
    fun t => by cases t <;> exact ⟨rfl, rfl⟩
  have run := tail run (.start (t := false) rfl (.next (i := 0) Nat.one_pos))
    fun t => by cases t <;> exact ⟨rfl, rfl⟩
  have run := tail run (.act (t := true) (p := .nextState 0) true rfl rfl)
    fun t => by cases t <;> exact ⟨rfl, rfl⟩
  have run := tail run (.act (t := false) (p := .nextState 0) true rfl rfl)
    fun t => by cases t <;> exact ⟨rfl, rfl⟩
  have run := tail run (.acquireShared (t := true) (p := .nextAcquire 0) rfl rfl rfl)
    fun t => by cases t <;> exact ⟨rfl, rfl⟩
  have run := tail run (.acquireShared (t := false) (p := .nextAcquire 0) rfl rfl rfl)
    fun t => by cases t <;> exact ⟨rfl, rfl⟩
  have run := tail run (.act (t := true) (p := .nextTest 0) true rfl rfl)
    fun t => by cases t <;> exact ⟨rfl, rfl⟩
  have run := tail run (.act (t := false) (p := .nextTest 0) true rfl rfl)
    fun t => by cases t <;> exact ⟨rfl, rfl⟩
  have run := tail run (.act (t := true) (p := .nextWhile 0) true rfl rfl)
    fun t => by cases t <;> exact ⟨rfl, rfl⟩
  have run := tail run (.act (t := false) (p := .nextWhile 0) true rfl rfl)
    fun t => by cases t <;> exact ⟨rfl, rfl⟩
  exact ⟨_, run, rfl, funext fun t => by cases t <;> rfl⟩

theorem sample_ownedOnce : ∃ s : State Bool (Memory ℕ String) (Pc ℕ String String),
    s.threads true = some (.nextSwitch 0 0) ∧ s.threads false = some (.nextLoad 0) ∧
      OwnedOnce s := by
  obtain ⟨⟨memory, readers, writer, threads⟩, run, rfl, rfl⟩ := sample_loads
  have run := run.tail ⟨.act (t := true) (p := .nextLoad 0) true rfl rfl,
    alone_of_idle (fun _ => ⟨rfl, rfl⟩) _⟩
  have run := run.tail ⟨.act (t := true) (p := .nextStore 0 0) true rfl rfl, by
    intro t u p q hne hp hq hmove hclash
    cases t with
    | false => exact hmove hp
    | true =>
      cases hp
      obtain ⟨i, ⟨hi, -⟩ | ⟨hi, -⟩⟩ := hclash
      · cases hi
      · cases hi⟩
  exact ⟨_, rfl, rfl, (next_ownedOnce run).1⟩

/-- Both load it before the other stores it: they have the same record, and the second frees it after
the first has. -/
theorem not_ownedOnce :
    (∃ s : State Bool (Memory ℕ String) (Pc ℕ String String),
      Steps (code .ok fun _ => true) Starts (State.init (.opened sampleMmdb)) s ∧
        s.threads true = some (.nextStore 0 0) ∧ s.threads false = some (.nextStore 0 0) ∧
        ¬ OwnedOnce s) ∧
    ∃ s : State Bool (Memory ℕ String) (Pc ℕ String String),
      Steps (code .ok fun _ => true) Starts (State.init (.opened sampleMmdb)) s ∧
        s.threads false = some (.nextFree 0 0) ∧ s.memory.cells 0 = none ∧ ¬ OwnedOnce s := by
  obtain ⟨⟨memory, readers, writer, threads⟩, hrun, rfl, rfl⟩ := sample_loads
  have run : Steps (code .ok fun _ => true) Starts (State.init (.opened sampleMmdb)) _ :=
    Relation.ReflTransGen.mono (fun _ _ h => h.1) _ _ hrun
  have run := run.tail (.act (t := true) (p := .nextLoad 0) true rfl rfl)
  have run := run.tail (.act (t := false) (p := .nextLoad 0) true rfl rfl)
  refine ⟨⟨_, run, rfl, rfl, fun h => ?_⟩, ?_⟩
  · exact h.once true false _ _ Bool.noConfusion rfl rfl List.mem_cons_self List.mem_cons_self
  let node := sampleMmdb.tree.readNode 0
  have run := run.tail (.acts (t := true) (p := .nextStore 0 0) true rfl rfl rfl)
  have run := run.tail (.acts (t := false) (p := .nextStore 0 0) true rfl rfl rfl)
  have run := run.tail (.acts (t := true) (p := .nextSwitch 0 0) true rfl rfl rfl)
  have run := run.tail (.acts (t := false) (p := .nextSwitch 0 0) true rfl rfl rfl)
  have run := run.tail (.acts (t := true) (p := .nextSkip 0 0) true rfl rfl rfl)
  have run := run.tail (.acts (t := false) (p := .nextSkip 0 0) true rfl rfl rfl)
  have run := run.tail (.acts (t := true) (p := .nextReadNode 0 0) true rfl rfl rfl)
  have run := run.tail (.acts (t := false) (p := .nextReadNode 0 0) true rfl rfl rfl)
  have run := run.tail (.acts (t := true) (p := .nextLeft 0 0 node) true rfl rfl rfl)
  have run := run.tail (.acts (t := false) (p := .nextLeft 0 0 node) true rfl rfl rfl)
  have run := run.tail (.acts (t := true) (p := .nextRight 0 0 node 1) true rfl rfl rfl)
  have run := run.tail (.acts (t := false) (p := .nextRight 0 0 node 2) true rfl rfl rfl)
  have run := run.tail (.acts (t := true) (p := .nextTail 0 0 1 3) true rfl rfl rfl)
  have run := run.tail (.acts (t := false) (p := .nextTail 0 0 2 4) true rfl rfl rfl)
  have run := run.tail (.acts (t := true) (p := .nextLink 0 0 1) true rfl rfl rfl)
  have run := run.tail (.acts (t := false) (p := .nextLink 0 0 2) true rfl rfl rfl)
  have run := run.tail (.acts (t := true) (p := .nextFree 0 0) true rfl rfl rfl)
  exact ⟨_, run, rfl, rfl, fun h => h.live false _ rfl 0 List.mem_cons_self rfl⟩

end MaxMindDB.Extension
