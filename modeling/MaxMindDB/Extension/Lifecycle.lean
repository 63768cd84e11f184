import MaxMindDB.Extension.Operations

/-!
# The life of a reader

`get_record` and `Reader_metadata` test `mmdb`, `Reader__enter__`, `Reader_iter` and `ReaderIter_next`
test `closed`. Both say the same whenever a thread holds the lock shared, since `Reader_close` changes
them while it holds the lock exclusively.

Each point of the code is in a phase, which says how the lock is held there and what is known of the
reader. `lifecycle`: over all interleavings, what uses `mmdb` does so before `MMDB_close` runs, and a
reader that has been closed stays as it is and answers with exceptions.
-/

namespace MaxMindDB.Extension

open RwLock

variable {Entry Data Value : Type}

/-! ## Phases -/

namespace ReaderObj

/-- Open: `MMDB_close` has not run. -/
structure IsOpen (r : ReaderObj Entry Data) : Prop where
  mmdb : r.mmdb ≠ none
  closed : r.closed = false
  closes : r.closes = 0
  frees : r.frees = 0

/-- Closed: `MMDB_close` has run, once, and so has `free`. -/
structure IsClosed (r : ReaderObj Entry Data) : Prop where
  mmdb : r.mmdb = none
  closed : r.closed = true
  closes : r.closes = 1
  frees : r.frees = 1

/-- Open or closed, as it is while no thread is closing it. -/
def Settled (r : ReaderObj Entry Data) : Prop := r.IsOpen ∨ r.IsClosed

theorem opened_isOpen (mmdb : Mmdb Entry Data) : (opened mmdb).IsOpen :=
  ⟨Option.some_ne_none _, rfl, rfl, rfl⟩

variable {r : ReaderObj Entry Data}

theorem Settled.isOpen_of_mmdb (h : r.Settled) (hm : r.mmdb ≠ none) : r.IsOpen :=
  h.resolve_right fun hc => hm hc.mmdb

theorem Settled.isOpen_of_closed (h : r.Settled) (hc : ¬ r.closed) : r.IsOpen :=
  h.resolve_right fun h => hc h.closed

theorem Settled.isClosed_of_mmdb (h : r.Settled) (hm : r.mmdb = none) : r.IsClosed :=
  h.resolve_left fun ho => ho.mmdb hm

theorem Settled.isClosed_of_closed (h : r.Settled) (hc : r.closed) : r.IsClosed :=
  h.resolve_left fun ho => by rw [ho.closed] at hc; cases hc

theorem Settled.closed_iff (h : r.Settled) : r.closed = true ↔ r.mmdb = none :=
  ⟨fun hc => (h.isClosed_of_closed hc).mmdb, fun hm => (h.isClosed_of_mmdb hm).closed⟩

end ReaderObj

/-- What `Reader_close` is about to do, while it holds the lock. -/
inductive Stage where
  | test
  | close
  | free
  | null
  | set
  | unlock

/-- What is known of the reader at a stage. -/
def Stage.known : Stage → ReaderObj Entry Data → Prop
  | .test, r => r.Settled
  | .close, r => r.IsOpen
  | .free, r => r.closed = false ∧ r.closes = 1 ∧ r.frees = 0
  | .null, r => r.closed = false ∧ r.closes = 1 ∧ r.frees = 1
  | .set, r => r.mmdb = none ∧ r.closes = 1 ∧ r.frees = 1
  | .unlock, r => r.IsClosed

/-- How a thread holds the lock, and what it has found out about the reader. -/
inductive Phase where
  /-- The lock is not held. -/
  | outside
  /-- It is held shared, and the reader has not been tested. -/
  | testing
  /-- It is held shared, and the reader has been found open. -/
  | inside
  /-- It is held shared, and released next. -/
  | leaving
  /-- It is held exclusively. -/
  | closing (stage : Stage)

/-- How the lock is held in a phase. -/
def Phase.held : Phase → Option Mode
  | .outside => none
  | .testing | .inside | .leaving => some .shared
  | .closing _ => some .exclusive

/-- What is known of the reader in a phase. -/
def Phase.known : Phase → ReaderObj Entry Data → Prop
  | .testing, r => r.Settled
  | .inside, r => r.IsOpen
  | .closing stage, r => stage.known r
  | .outside, _ | .leaving, _ => True

theorem Phase.known_of_held {phase : Phase} (h : phase.held = none) (r : ReaderObj Entry Data) :
    phase.known r := by
  cases phase with
  | outside => trivial
  | testing | inside | leaving | closing => cases h

/-- The phase of each point. -/
def Pc.phase : Pc Entry Data Value → Phase
  | .getParse _ _ | .getAcquire _ _ => .outside
  | .getLoad _ _ => .testing
  | .getLookup _ _ _ | .getNetmask _ _ _ _ | .getEntries _ _ _ _ | .getConvert _ _ _ => .inside
  | .getUnlock _ _ _ | .getUnlockError _ _ => .leaving
  | .getBuild _ _ _ | .getFormat _ _ => .outside
  | .metadataState | .metadataAcquire => .outside
  | .metadataTest => .testing
  | .metadataEntries | .metadataConvert _ => .inside
  | .metadataUnlock _ => .leaving
  | .metadataNew _ => .outside
  | .closeAcquire _ => .outside
  | .closeTest _ => .closing .test
  | .closeClose _ => .closing .close
  | .closeFree _ => .closing .free
  | .closeNull _ => .closing .null
  | .closeSet _ => .closing .set
  | .closeUnlock _ => .closing .unlock
  | .enterAcquire => .outside
  | .enterTest => .testing
  | .enterUnlock => .leaving
  | .iterState | .iterAcquire => .outside
  | .iterTest => .testing
  | .iterUnlock => .leaving
  | .iterAlloc | .iterCalloc => .outside
  | .nextState _ | .nextAcquire _ => .outside
  | .nextTest _ => .testing
  | .nextWhile _ | .nextLoad _ | .nextStore _ _ | .nextSwitch _ _ | .nextSkip _ _
  | .nextReadNode _ _ | .nextLeft _ _ _ | .nextRight _ _ _ _ | .nextTail _ _ _ _ | .nextLink _ _ _
  | .nextFree _ _ | .nextEntries _ _ | .nextConvert _ _ _ | .nextNetwork _ _ _
  | .nextBuild _ _ _ _ _ => .inside
  | .nextUnlock _ _ => .leaving
  | .nextFrees _ _ => .outside
  | .unlock _ _ => .leaving
  | .ret _ _ => .outside
  | .crashed => .leaving
  | .crashedUnlocked => .outside

/-- A point that uses `mmdb` comes after a test of the reader, and `MMDB_close` after its own. -/
theorem Pc.UsesMmdb.phase {p : Pc Entry Data Value} (h : p.UsesMmdb) :
    p.phase = .inside ∨ p.phase = .closing .close := by
  cases p <;> first | exact .inl rfl | exact .inr rfl | cases h

theorem Pc.closing_of_held {p : Pc Entry Data Value} (h : p.phase.held = some .exclusive) :
    p.Closing := by
  cases p <;> first | trivial | cases h

/-! ## What a step does -/

/-- Inside or on the way out. -/
def Pc.StaysInside (p : Pc Entry Data Value) : Prop := p.phase = .inside ∨ p.phase = .leaving

theorem withMmdb_staysInside {m : Memory Entry Data} {f : Mmdb Entry Data → Pc Entry Data Value}
    (h : ∀ mmdb, (f mmdb).StaysInside) : (withMmdb m f).StaysInside :=
  withMmdb_of (.inr rfl) h

theorem withCell_staysInside {m : Memory Entry Data} {cur : ℕ}
    {f : QueuedRecord Entry → Option ℕ → Memory Entry Data × Pc Entry Data Value}
    (h : ∀ record link, (f record link).1.reader = m.reader ∧ (f record link).2.StaysInside) :
    (withCell m cur f).1.reader = m.reader ∧ (withCell m cur f).2.StaysInside :=
  withCell_of (C := fun x => x.1.reader = m.reader ∧ x.2.StaysInside) ⟨rfl, .inr rfl⟩ h

section

variable [Inhabited Entry] {fromEntryDataList : Data → Except PyErr Value} {isDict : Value → Bool}
  {p : Pc Entry Data Value}
  {effect : Bool → Memory Entry Data → Memory Entry Data × Pc Entry Data Value}

theorem act_outside (h : code fromEntryDataList isDict p = .act effect) (hp : p.phase = .outside)
    (ok : Bool) (m : Memory Entry Data) :
    (effect ok m).1.reader = m.reader ∧ (effect ok m).2.phase = .outside := by
  cases p <;> cases hp <;> cases h
  all_goals
    dsimp only
    repeat' split
    all_goals exact ⟨rfl, rfl⟩

/-- A test lets a thread in only if the reader is open. -/
theorem act_testing (h : code fromEntryDataList isDict p = .act effect) (hp : p.phase = .testing)
    (ok : Bool) {m : Memory Entry Data} (hm : m.reader.Settled) :
    (effect ok m).1.reader = m.reader ∧
      ((effect ok m).2.phase = .leaving ∨ (effect ok m).2.phase = .inside ∧ m.reader.IsOpen) := by
  cases p <;> cases hp <;> cases h
  case getLoad | metadataTest =>
    dsimp only
    split
    · exact ⟨rfl, .inl rfl⟩
    · next hmmdb => exact ⟨rfl, .inr ⟨rfl, hm.isOpen_of_mmdb (by rw [hmmdb]; exact Option.some_ne_none _)⟩⟩
  case enterTest | iterTest =>
    dsimp only
    split <;> exact ⟨rfl, .inl rfl⟩
  case nextTest =>
    dsimp only
    split
    · exact ⟨rfl, .inl rfl⟩
    · next hclosed => exact ⟨rfl, .inr ⟨rfl, hm.isOpen_of_closed hclosed⟩⟩

theorem act_inside (h : code fromEntryDataList isDict p = .act effect) (hp : p.phase = .inside)
    (ok : Bool) (m : Memory Entry Data) :
    (effect ok m).1.reader = m.reader ∧ (effect ok m).2.StaysInside := by
  cases p <;> cases hp <;> cases h
  case getLookup | getNetmask | getEntries | getConvert | metadataConvert | nextWhile | nextLoad
      | nextConvert | nextBuild | nextLink =>
    dsimp only
    repeat' split
    all_goals first
      | exact ⟨rfl, .inl rfl⟩
      | exact ⟨rfl, .inr rfl⟩
  case metadataEntries =>
    refine ⟨rfl, withMmdb_staysInside fun mmdb => ?_⟩
    split
    · exact .inl rfl
    · exact .inr rfl
  case nextStore | nextFree | nextTail => exact withCell_staysInside fun _ _ => ⟨rfl, .inl rfl⟩
  case nextSwitch =>
    refine withCell_staysInside fun record _ => ⟨rfl, ?_⟩
    cases record.type
    · exact .inl rfl
    · exact .inl rfl
    · exact .inl rfl
    · exact .inr rfl
    · exact .inr rfl
  case nextSkip | nextReadNode | nextEntries | nextNetwork =>
    refine withCell_staysInside fun record _ => ⟨rfl, withMmdb_staysInside fun mmdb => ?_⟩
    repeat' split
    all_goals first
      | exact .inl rfl
      | exact .inr rfl
  case nextLeft =>
    dsimp only
    split
    · exact withCell_staysInside fun _ _ => ⟨rfl, .inl rfl⟩
    · exact ⟨rfl, .inr rfl⟩
  case nextRight =>
    dsimp only
    split
    · refine withCell_staysInside fun record _ => ?_
      split
      · exact ⟨rfl, .inr rfl⟩
      · exact withCell_staysInside fun _ _ => ⟨rfl, .inl rfl⟩
    · exact ⟨rfl, .inr rfl⟩

theorem act_leaving (h : code fromEntryDataList isDict p = .act effect) (hp : p.phase = .leaving)
    (ok : Bool) (m : Memory Entry Data) : effect ok m = (m, p) := by
  cases p <;> cases hp <;> cases h
  rfl

theorem act_closing {stage : Stage} (h : code fromEntryDataList isDict p = .act effect)
    (hp : p.phase = .closing stage) (ok : Bool) {m : Memory Entry Data}
    (hm : stage.known m.reader) :
    ∃ stage' : Stage, (effect ok m).2.phase = .closing stage' ∧
      stage'.known (effect ok m).1.reader := by
  cases p <;> cases hp <;> cases h
  case closeTest =>
    dsimp only
    split
    · next hmmdb => 
      have hclosed := ReaderObj.Settled.isClosed_of_mmdb hm hmmdb
      exact ⟨.set, rfl, hmmdb, hclosed.closes, hclosed.frees⟩
    · next hmmdb =>
      exact ⟨.close, rfl, ReaderObj.Settled.isOpen_of_mmdb hm (by rw [hmmdb]; exact Option.some_ne_none _)⟩
  case closeClose =>
    have hopen : m.reader.IsOpen := hm
    exact ⟨.free, rfl, hopen.closed, by simp [hopen.closes], hopen.frees⟩
  case closeFree =>
    obtain ⟨hclosed, hcloses, hfrees⟩ := hm
    exact ⟨.null, rfl, hclosed, hcloses, by simp [hfrees]⟩
  case closeNull =>
    obtain ⟨-, hcloses, hfrees⟩ := hm
    exact ⟨.set, rfl, rfl, hcloses, hfrees⟩
  case closeSet =>
    obtain ⟨hmmdb, hcloses, hfrees⟩ := hm
    exact ⟨.unlock, rfl, hmmdb, rfl, hcloses, hfrees⟩

/-! ## The proof outline -/

theorem act_phase (h : code fromEntryDataList isDict p = .act effect) (ok : Bool)
    {m : Memory Entry Data} (hknown : p.phase.known m.reader) :
    (effect ok m).2.phase.held = p.phase.held ∧
      (effect ok m).2.phase.known (effect ok m).1.reader ∧
      (p.phase.held ≠ some .exclusive → (effect ok m).1.reader = m.reader) := by
  cases hp : p.phase with
  | outside =>
    obtain ⟨hreader, hphase⟩ := act_outside h hp ok m
    rw [hphase]
    exact ⟨rfl, trivial, fun _ => hreader⟩
  | testing =>
    rw [hp] at hknown
    obtain ⟨hreader, hphase | ⟨hphase, hopen⟩⟩ := act_testing h hp ok hknown
    · rw [hphase]
      exact ⟨rfl, trivial, fun _ => hreader⟩
    · rw [hphase, hreader]
      exact ⟨rfl, hopen, fun _ => rfl⟩
  | inside =>
    rw [hp] at hknown
    obtain ⟨hreader, hphase | hphase⟩ := act_inside h hp ok m
    · rw [hphase, hreader]
      exact ⟨rfl, hknown, fun _ => rfl⟩
    · rw [hphase]
      exact ⟨rfl, trivial, fun _ => hreader⟩
  | leaving =>
    rw [act_leaving h hp, hp]
    exact ⟨rfl, trivial, fun _ => rfl⟩
  | closing stage =>
    rw [hp] at hknown
    obtain ⟨stage', hphase, hknown'⟩ := act_closing h hp ok hknown
    rw [hphase]
    exact ⟨rfl, hknown', fun hne => absurd rfl hne⟩

variable (fromEntryDataList isDict) in
/-- The code, with the phase of each point. -/
def outline : Outline (code fromEntryDataList isDict)
    (Memory.reader : Memory Entry Data → ReaderObj Entry Data) where
  held p := p.phase.held
  known p r := p.phase.known r
  inv r := r.Settled
  acquire {p _ _ _} h := by cases p <;> cases h <;> exact ⟨rfl, rfl, rfl⟩
  known_acquire {p _ _ _} h _ _ := by cases p <;> cases h <;> exact ⟨trivial, id⟩
  release {p _ _} h := by cases p <;> cases h <;> exact ⟨rfl, rfl⟩
  known_release {p _ _} h r hknown := by
    cases p <;> cases h
    case closeUnlock => exact ⟨trivial, fun _ => .inr hknown⟩
    all_goals exact ⟨trivial, fun h => by cases h⟩
  act h ok _ hknown := act_phase h ok hknown
  stable _ _ _ _ _ _ hq _ := Phase.known_of_held hq _
  done {p} h := by cases p <;> cases h; rfl

/-! ## A closed reader -/

omit [Inhabited Entry] in
theorem Stage.isClosed_of_closed {stage : Stage} {r : ReaderObj Entry Data} (h : stage.known r)
    (hc : r.closed = true) : r.IsClosed := by
  cases stage with
  | test => exact ReaderObj.Settled.isClosed_of_closed h hc
  | close => exact absurd (hc.symm.trans (ReaderObj.IsOpen.closed h)) Bool.noConfusion
  | free | null => exact absurd (hc.symm.trans h.1) Bool.noConfusion
  | set => exact ⟨h.1, hc, h.2.1, h.2.2⟩
  | unlock => exact h

theorem act_closed (h : code fromEntryDataList isDict p = .act effect) (ok : Bool)
    {m : Memory Entry Data} (hknown : p.phase.known m.reader) (hm : m.reader.IsClosed) :
    (effect ok m).1.reader = m.reader := by
  by_cases hp : p.phase.held = some .exclusive
  · cases p <;> cases hp <;> cases h
    case pos.closeTest => rfl
    case pos.closeClose => exact absurd hm.mmdb (ReaderObj.IsOpen.mmdb hknown)
    case pos.closeFree | pos.closeNull => exact absurd (hm.closed.symm.trans hknown.1) Bool.noConfusion
    case pos.closeSet =>
      show ({ m.reader with closed := true } : ReaderObj Entry Data) = m.reader
      rw [← hm.closed]
  · exact (act_phase h ok hknown).2.2 hp

/-- Where a call may be that began on a closed reader. -/
def Pc.Refused : Pc Entry Data Value → Prop
  | .getParse _ _ | .getAcquire _ _ | .getLoad _ _ | .metadataState | .metadataAcquire
  | .metadataTest | .enterAcquire | .enterTest | .iterState | .iterAcquire | .iterTest
  | .nextState _ | .nextAcquire _ | .nextTest _ => True
  | .closeAcquire method | .closeTest method | .closeClose method | .closeFree method
  | .closeNull method | .closeSet method | .closeUnlock method => method = .close ∨ method = .exit
  | .unlock _ result => result.Raises
  | .ret method result => method = .close ∨ method = .exit ∨ result.Raises
  | _ => False

/-- A test turns away a call that comes to a closed reader. -/
theorem refused_of_act (h : code fromEntryDataList isDict p = .act effect) (hp : p.Refused) (ok : Bool)
    {m : Memory Entry Data} (hm : m.reader.IsClosed) : (effect ok m).2.Refused := by
  cases p <;> cases h
  case getParse =>
    dsimp only
    split
    · exact .inr (.inr trivial)
    · exact .inr (.inr trivial)
    · trivial
  case metadataState | iterState | nextState =>
    dsimp only
    split
    · trivial
    · exact .inr (.inr trivial)
  case getLoad | metadataTest =>
    dsimp only
    rw [hm.mmdb]
    trivial
  case enterTest | iterTest | nextTest =>
    dsimp only
    rw [if_pos hm.closed]
    trivial
  case closeTest =>
    dsimp only
    split <;> exact hp
  case closeClose | closeFree | closeNull | closeSet => exact hp
  all_goals cases hp

theorem refused_of_goes {m : Memory Entry Data} {q : Pc Entry Data Value}
    (h : Goes (code fromEntryDataList isDict) m p (some q)) (hp : p.Refused) (hm : m.reader.IsClosed) :
    q.Refused := by
  cases h with
  | acquired hcode =>
    cases p <;> cases hcode
    case acquired.closeAcquire => exact hp
    all_goals trivial
  | failed hcode =>
    cases p <;> cases hcode
    case failed.closeAcquire => exact hp.imp_right .inl
    all_goals exact .inr (.inr trivial)
  | released hcode =>
    cases p <;> cases hcode
    case released.closeUnlock => exact hp.imp_right .inl
    case released.unlock => exact .inr (.inr hp)
    all_goals cases hp
  | acted ok hcode => exact refused_of_act hcode hp ok hm

omit [Inhabited Entry] in
theorem Starts.refused {ι : Type*} {s : State ι (Memory Entry Data) (Pc Entry Data Value)} {t : ι}
    (h : Starts s t p) : p.Refused := by
  cases h with
  | close => exact .inl rfl
  | exit => exact .inr rfl
  | get | getWithPrefixLen | metadata | enter | iter | next => trivial

end

/-! ## Every interleaving -/

section

variable {ι : Type*} [Inhabited Entry]
  {fromEntryDataList : Data → Except PyErr Value} {isDict : Value → Bool}
  {s s' : State ι (Memory Entry Data) (Pc Entry Data Value)} {t : ι}

theorem outline_admits : (outline fromEntryDataList isDict).Admits
    (StartsDistinct : State ι (Memory Entry Data) (Pc Entry Data Value) → ι → _ → Prop) := by
  rintro s t p ⟨hstart, -⟩
  cases hstart <;> exact ⟨rfl, fun _ => trivial⟩

/-- A reader that is `closed` is closed, whatever a thread may be doing. -/
theorem isClosed_of_holds (h : (outline fromEntryDataList isDict).Holds s)
    (hc : s.memory.reader.closed = true) : s.memory.reader.IsClosed := by
  cases hw : s.writer with
  | none => exact ReaderObj.Settled.isClosed_of_closed (h.inv hw) hc
  | some t =>
    obtain ⟨p, ht, hp⟩ := h.exists_of_writer hw
    have hknown : p.phase.known s.memory.reader := h.known t p ht
    cases hphase : p.phase with
    | outside | testing | inside | leaving =>
      have hheld : p.phase.held = some .exclusive := hp
      rw [hphase] at hheld
      cases hheld
    | closing stage =>
      rw [hphase] at hknown
      exact Stage.isClosed_of_closed hknown hc

variable [DecidableEq ι]

theorem reader_of_step (h : (outline fromEntryDataList isDict).Holds s)
    (hc : s.memory.reader.IsClosed) (hstep : Step (code fromEntryDataList isDict) StartsDistinct s s') :
    s'.memory.reader = s.memory.reader := by
  obtain hmemory | ⟨t, p, effect, ok, ht, hcode, hmemory⟩ := hstep.memory
  · rw [hmemory]
  · rw [hmemory]
    exact act_closed hcode ok (h.known t p ht) hc

theorem refused_of_step (hrefused : ∀ p, s.threads t = some p → p.Refused)
    (hc : s.memory.reader.IsClosed) (hstep : Step (code fromEntryDataList isDict) StartsDistinct s s') :
    ∀ p, s'.threads t = some p → p.Refused := by
  intro q hq
  obtain hsame | ⟨-, p, hstart, hp⟩ | ⟨p, hp, hgoes⟩ := hstep.thread t
  · exact hrefused q (hsame ▸ hq)
  · rw [hp] at hq
    cases hq
    exact hstart.1.refused
  · rw [hq] at hgoes
    exact refused_of_goes hgoes (hrefused p hp) hc

/-- From a closed reader on, it stays as it is, and calls that begin are turned away. -/
theorem closed_of_steps (h : (outline fromEntryDataList isDict).Holds s)
    (hc : s.memory.reader.IsClosed)
    (hsteps : Steps (code fromEntryDataList isDict) StartsDistinct s s') :
    s'.memory.reader = s.memory.reader ∧
      ∀ t, s.threads t = none → ∀ p, s'.threads t = some p → p.Refused := by
  induction hsteps with
  | refl => exact ⟨rfl, fun t ht p hp => by rw [ht] at hp; cases hp⟩
  | tail hsteps hstep ih =>
    have hholds := Outline.holds_of_steps outline_admits h hsteps
    have hclosed := ih.1.symm ▸ hc
    exact ⟨(reader_of_step hholds hclosed hstep).trans ih.1,
      fun t ht => refused_of_step (ih.2 t ht) hclosed hstep⟩

theorem holds_of_opened {mmdb : Mmdb Entry Data}
    (h : Steps (code fromEntryDataList isDict) StartsDistinct (State.init (.opened mmdb)) s) :
    (outline fromEntryDataList isDict).Holds s :=
  Outline.holds_of_steps outline_admits
    (Outline.holds_init (.inl (ReaderObj.opened_isOpen mmdb))) h

/-- **The life of a reader.** Any number of threads call the methods of an open reader, and `next` on
distinct iterators, in any interleaving. When none is closing it, `closed` says that `mmdb` is `NULL`.
What uses `mmdb` finds it there, and `MMDB_close` has not run. Once `closed` is set, the reader stays
as it is: `MMDB_close` and `free` have run once and do not run again, and every call that begins then,
but of `close` and `__exit__`, raises. -/
theorem lifecycle {mmdb : Mmdb Entry Data}
    (h : Steps (code fromEntryDataList isDict) StartsDistinct (State.init (.opened mmdb)) s) :
    ((∀ t p, s.threads t = some p → ¬ p.Closing) →
      (s.memory.reader.closed = true ↔ s.memory.reader.mmdb = none)) ∧
    (∀ t p, s.threads t = some p → p.UsesMmdb →
      s.memory.reader.mmdb ≠ none ∧ s.memory.reader.closes = 0) ∧
    (s.memory.reader.closed = true →
      s.memory.reader.closes = 1 ∧ s.memory.reader.frees = 1 ∧
      ∀ s', Steps (code fromEntryDataList isDict) StartsDistinct s s' →
        s'.memory.reader = s.memory.reader ∧
        ∀ t, s.threads t = none → ∀ method result, s'.threads t = some (.ret method result) →
          method ≠ .close → method ≠ .exit → result.Raises) := by
  have hholds := holds_of_opened h
  refine ⟨fun hnone => ?_, fun t p ht hp => ?_, fun hc => ?_⟩
  · have hw : s.writer = none := by
      rw [Option.eq_none_iff_forall_ne_some]
      intro t hw
      obtain ⟨p, ht, hp⟩ := hholds.exists_of_writer hw
      exact hnone t p ht (Pc.closing_of_held hp)
    exact ReaderObj.Settled.closed_iff (hholds.inv hw)
  · have hknown : p.phase.known s.memory.reader := hholds.known t p ht
    have hopen : s.memory.reader.IsOpen := by
      rcases hp.phase with hphase | hphase <;> rw [hphase] at hknown <;> exact hknown
    exact ⟨hopen.mmdb, hopen.closes⟩
  · have hclosed := isClosed_of_holds hholds hc
    refine ⟨hclosed.closes, hclosed.frees, fun s' hsteps => ?_⟩
    obtain ⟨hreader, hrefused⟩ := closed_of_steps hholds hclosed hsteps
    refine ⟨hreader, fun t ht method result hret hne hne' => ?_⟩
    rcases hrefused t ht _ hret with hclose | hexit | hraises
    · exact absurd hclose hne
    · exact absurd hexit hne'
    · exact hraises

end

/-! One thread makes an iterator and calls `get`, and another one closes the reader. -/

def sampleMmdb : Mmdb ℕ String where
  lookup := sampleLib
  tree := ⟨0, 128, fun _ => ⟨⟨17, .data, 0⟩, ⟨17, .data, 0⟩⟩⟩
  metadata := .ok "a"

/-- The reader is open while `get` is under way, is closed when it has returned, and `next` on the
iterator made before raises. -/
theorem sample_lifecycle : ∃ s s' s'' : State Bool (Memory ℕ String) (Pc ℕ String String),
    (∃ p, s.threads true = some p ∧ p.UsesMmdb) ∧ s.threads false = some (.closeAcquire .close) ∧
    s.memory.next 0 = some 0 ∧ s.memory.reader.mmdb ≠ none ∧ s.memory.reader.closes = 0 ∧
    Steps (code .ok fun _ => true) StartsDistinct s s' ∧ s'.memory.reader.mmdb = none ∧
    s'.memory.reader.closes = 1 ∧ s'.memory.reader.frees = 1 ∧
    Steps (code .ok fun _ => true) StartsDistinct s' s'' ∧ s''.memory.reader = s'.memory.reader ∧
    ∃ result, s''.threads true = some (.ret .next result) ∧ result.Raises := by
  -- a further run begins where one has ended
  have onward : ∀ {s s' : State Bool (Memory ℕ String) (Pc ℕ String String)},
      Steps (code .ok fun _ => true) StartsDistinct s s' →
      Steps (code .ok fun _ => true) StartsDistinct s' s' := fun _ => .refl
  let address := IPAddress.ofV4 0x01020304 (by decide)
  have run : Steps (code .ok fun _ => true) StartsDistinct (.init (.opened sampleMmdb)) _ :=
    .single (.start (t := true) rfl ⟨.iter, fun i hi => by cases hi⟩)
  have run := run.tail (.acts (t := true) (p := .iterState) true rfl rfl rfl)
  have run := run.tail (.acquireShared (t := true) (p := .iterAcquire) rfl rfl rfl)
  have run := run.tail (.acts (t := true) (p := .iterTest) true rfl rfl rfl)
  have run := run.tail (.releaseShared (t := true) (p := .iterUnlock) rfl rfl (by decide))
  have run := run.tail (.acts (t := true) (p := .iterAlloc) true rfl rfl rfl)
  have run := run.tail (.acts (t := true) (p := .iterCalloc) true rfl rfl rfl)
  have run := run.tail (.finish (t := true) (p := .ret .iter (.iterator 0)) rfl rfl)
  have run := run.tail (.start (t := true) rfl ⟨.get (.ok address), fun i hi => by cases hi⟩)
  have run := run.tail (.acts (t := true) (p := .getParse .get (.ok address)) true rfl rfl rfl)
  have run := run.tail (.acquireShared (t := true) (p := .getAcquire .get address) rfl rfl rfl)
  have run := run.tail (.acts (t := true) (p := .getLoad .get address) true rfl rfl rfl)
  have run := run.tail (.start (t := false) rfl ⟨.close, fun i hi => by cases hi⟩)
  have hopen := (lifecycle run).2.1 true (.getLookup .get address sampleMmdb) rfl trivial
  have mid := onward run
  have mid := mid.tail (.acts (t := true) (p := .getLookup .get address sampleMmdb) true rfl rfl rfl)
  have mid := mid.tail (.acts (t := true) (p := .getNetmask .get address sampleMmdb ⟨true, 17, 1⟩)
    true rfl rfl rfl)
  have mid := mid.tail (.acts (t := true) (p := .getEntries .get sampleMmdb 17 0) true rfl rfl rfl)
  have mid := mid.tail (.acts (t := true) (p := .getConvert .get "a" 0) true rfl rfl rfl)
  have mid := mid.tail (.releaseShared (t := true) (p := .getUnlock .get (some "a") 0) rfl rfl (by decide))
  have mid := mid.tail (.acts (t := true) (p := .getBuild .get (some "a") 0) true rfl rfl rfl)
  have mid := mid.tail (.finish (t := true) (p := .ret .get (.record (some "a"))) rfl rfl)
  have mid := mid.tail (.acquireExclusive (t := false) (p := .closeAcquire .close) rfl rfl rfl (by decide))
  have mid := mid.tail (.acts (t := false) (p := .closeTest .close) true rfl rfl rfl)
  have mid := mid.tail (.acts (t := false) (p := .closeClose .close) true rfl rfl rfl)
  have mid := mid.tail (.acts (t := false) (p := .closeFree .close) true rfl rfl rfl)
  have mid := mid.tail (.acts (t := false) (p := .closeNull .close) true rfl rfl rfl)
  have mid := mid.tail (.acts (t := false) (p := .closeSet .close) true rfl rfl rfl)
  have mid := mid.tail (.releaseExclusive (t := false) (p := .closeUnlock .close) rfl rfl rfl)
  have mid := mid.tail (.finish (t := false) (p := .ret .close .none) rfl rfl)
  have hiff := (lifecycle (run.trans mid)).1 fun t p hp => by cases t <;> cases hp
  obtain ⟨hcloses, hfrees, hlast⟩ := (lifecycle (run.trans mid)).2.2 rfl
  have last := onward mid
  have last := last.tail (.start (t := true) rfl ⟨.next (i := 0) Nat.one_pos,
    fun i _ u p hp => by cases u <;> cases hp⟩)
  have last := last.tail (.acts (t := true) (p := .nextState 0) true rfl rfl rfl)
  have last := last.tail (.acquireShared (t := true) (p := .nextAcquire 0) rfl rfl rfl)
  have last := last.tail (.acts (t := true) (p := .nextTest 0) true rfl rfl rfl)
  have last := last.tail (.releaseShared (t := true) (p := .unlock .next (.raised .valueError))
    rfl rfl (by decide))
  obtain ⟨hsame, hraises⟩ := hlast _ last
  exact ⟨_, _, _, ⟨.getLookup .get address sampleMmdb, rfl, trivial⟩, rfl, rfl, hopen.1, hopen.2, mid,
    hiff.mp rfl, hcloses, hfrees, last, hsame, _, rfl,
    hraises true rfl .next _ rfl (by decide) (by decide)⟩

end MaxMindDB.Extension
