import MaxMindDB.Extension.Moments

/-!
# What is known along a run

Along a run, a ghost says where each call began and what the list of each iterator was after the last
call of `next` that has had its moment. `Tracks` is what is then known: what each call remembers, and
that the iterators' lists are in memory. `Tracks.begin`, `Tracks.passage` and `Tracks.ret` are its steps.
-/

namespace MaxMindDB.Extension

open Octets OwnedList RwLock

variable {ι : Type*} {Entry Data Value : Type}

/-! ## What a step leaves as it is -/

section

variable {s s' : State ι (Memory Entry Data) (Pc Entry Data Value)} {p q : Pc Entry Data Value}
  {t u : ι} {i : ℕ}

theorem Pc.iterator_of_pushes (h : p.pushes = some i) : p.iterator = some i := by
  cases p <;> cases h
  rfl

theorem Pc.iterator_of_clashes (h : p.Clashes q) : ∃ i, p.iterator = some i ∧ q.iterator = some i := by
  obtain ⟨i, ⟨hp, hq⟩ | ⟨hp, hq⟩⟩ := h
  · refine ⟨i, ?_, hq.elim iterator_of_pops iterator_of_pushes⟩
    cases p <;> cases hp
    rfl
  · refine ⟨i, ?_, iterator_of_pops hq⟩
    cases p <;> cases hp
    rfl

/-- No two calls are on one iterator. -/
def Apart (s : State ι (Memory Entry Data) (Pc Entry Data Value)) : Prop :=
  ∀ t u p q i, t ≠ u → s.threads t = some p → s.threads u = some q → p.iterator = some i →
    q.iterator ≠ some i

/-- A step of calls on distinct iterators loads no `next` that another call has still to store. -/
theorem Apart.alone (h : Apart s) (s' : State ι (Memory Entry Data) (Pc Entry Data Value)) :
    Alone s s' := by
  intro t u p q hne hp hq _ hclash
  obtain ⟨i, hi, hi'⟩ := Pc.iterator_of_clashes hclash
  exact h t u p q i hne hp hq hi hi'

variable [DecidableEq ι] [Inhabited Entry] {fromEntryDataList : Data → Except PyErr Value}
  {isDict : Value → Bool}

theorem step_of_distinct (h : Step (code fromEntryDataList isDict) StartsDistinct s s') :
    Step (code fromEntryDataList isDict) Starts s s' := by
  cases h with
  | start ht hstart => exact .start ht hstart.1
  | acquireShared ht hcode hw => exact .acquireShared ht hcode hw
  | acquireExclusive ht hcode hw hzero => exact .acquireExclusive ht hcode hw hzero
  | acquireFails ht hcode => exact .acquireFails ht hcode
  | releaseShared ht hcode hr => exact .releaseShared ht hcode hr
  | releaseExclusive ht hcode hw => exact .releaseExclusive ht hcode hw
  | act a ht hcode => exact .act a ht hcode
  | finish ht hcode => exact .finish ht hcode

omit [DecidableEq ι] in
theorem goes_iterator {m : Memory Entry Data}
    (h : Goes (code fromEntryDataList isDict) m p (some q)) :
    q.iterator = p.iterator ∨ q.iterator = none := by
  cases h with
  | acquired hcode | failed hcode | released hcode =>
    cases p <;> cases hcode <;> first | exact .inl rfl | exact .inr rfl
  | acted ok hcode =>
    have hmmdb : ∀ {f : Mmdb Entry Data → Pc Entry Data Value},
        (∀ mmdb, (f mmdb).iterator = p.iterator ∨ (f mmdb).iterator = none) →
        (withMmdb m f).iterator = p.iterator ∨ (withMmdb m f).iterator = none :=
      withMmdb_of (C := fun q => q.iterator = p.iterator ∨ q.iterator = none) (.inr rfl)
    have hcell : ∀ {cur : ℕ}
        {f : QueuedRecord Entry → Option ℕ → Memory Entry Data × Pc Entry Data Value},
        (∀ record link, (f record link).2.iterator = p.iterator ∨ (f record link).2.iterator = none) →
        (withCell m cur f).2.iterator = p.iterator ∨ (withCell m cur f).2.iterator = none :=
      withCell_of (C := fun x => x.2.iterator = p.iterator ∨ x.2.iterator = none) (.inr rfl)
    cases p <;> cases hcode
    case acted.metadataEntries =>
      refine hmmdb fun mmdb => ?_
      split <;> exact .inl rfl
    case acted.nextStore | acted.nextTail | acted.nextFree => exact hcell fun _ _ => .inl rfl
    case acted.nextSwitch =>
      refine hcell fun record _ => ?_
      cases record.type <;> first | exact .inl rfl | exact .inr rfl
    case acted.nextSkip | acted.nextReadNode | acted.nextEntries | acted.nextNetwork =>
      refine hcell fun record _ => hmmdb fun mmdb => ?_
      repeat' split
      all_goals first | exact .inl rfl | exact .inr rfl
    case acted.nextLeft =>
      dsimp only
      split
      · exact hcell fun _ _ => .inl rfl
      · exact .inr rfl
    case acted.nextRight =>
      dsimp only
      split
      · refine hcell fun record _ => ?_
        split
        · exact .inr rfl
        · exact hcell fun _ _ => .inl rfl
      · exact .inr rfl
    all_goals
      dsimp only
      repeat' split
      all_goals first | exact .inl rfl | exact .inr rfl

theorem Apart.step (h : Apart s)
    (hstep : Step (code fromEntryDataList isDict) StartsDistinct s s') : Apart s' := by
  intro t u p q i hne hp hq hi hi'
  -- the point that a thread was at before it came to the iterator, or it has just begun there
  have hback : ∀ {v r}, s'.threads v = some r → r.iterator = some i →
      (∃ r', s.threads v = some r' ∧ r'.iterator = some i) ∨
        (s.threads v = none ∧ StartsDistinct s v r ∧ ∀ w, w ≠ v → s'.threads w = s.threads w) := by
    intro v r hr hir
    obtain ⟨w, hothers, hmove⟩ := hstep.exists_thread
    by_cases hv : v = w
    · subst hv
      rcases hmove with ⟨hnone, -, r', hstart, hr'⟩ | ⟨r', e, r'', hr', hr'', hdoes⟩ | ⟨r', -, -, -, hnone⟩
      · rw [hr] at hr'
        cases hr'
        exact .inr ⟨hnone, hstart, hothers⟩
      · rw [hr] at hr''
        cases hr''
        refine .inl ⟨r', hr', ?_⟩
        rcases goes_iterator hdoes.goes with heq | heq <;> rw [hir] at heq
        · exact heq.symm
        · cases heq
      · rw [hr] at hnone
        cases hnone
    · exact .inl ⟨r, (hothers v hv).symm.trans hr, hir⟩
  rcases hback hp hi with ⟨p', hp', hip⟩ | ⟨-, hstart, hothers⟩
  · rcases hback hq hi' with ⟨q', hq', hiq⟩ | ⟨-, hstart, hothers⟩
    · exact h t u p' q' i hne hp' hq' hip hiq
    · exact hstart.2 i hi' t p' hp' hip
  · rw [hothers u hne.symm] at hq
    exact hstart.2 i hi u q hq hi'

theorem step_mmdb (hholds : (outline fromEntryDataList isDict).Holds s)
    (hstep : Step (code fromEntryDataList isDict) StartsDistinct s s') :
    s'.memory.reader.mmdb = s.memory.reader.mmdb ∨ s'.memory.reader.mmdb = none := by
  obtain hmemory | ⟨t, p, effect, ok, ht, hcode, hmemory⟩ := hstep.memory
  · rw [hmemory]
    exact .inl rfl
  · rw [hmemory]
    by_cases hp : p.phase.held = some .exclusive
    · cases p <;> cases hp <;> cases hcode <;> first | exact .inl rfl | exact .inr rfl
    · rw [(act_phase hcode ok (hholds.known t p ht)).2.2 hp]
      exact .inl rfl

end

/-! ## What is known along a run -/

/-- Where the calls of the threads began, and what the lists of the iterators were after the last calls
on them that have had their moment. -/
structure Ghost (ι : Type*) (Entry Data Value : Type) where
  calls : ι → Option (Pc Entry Data Value)
  queues : ℕ → List (QueuedRecord Entry)

section

variable [Inhabited Entry] (mmdb : Mmdb Entry Data) (fromEntryDataList : Data → Except PyErr Value)
  (isDict : Value → Bool)

/-- What is known along a run. -/
structure Tracks (s : State ι (Memory Entry Data) (Pc Entry Data Value)) (g : Ghost ι Entry Data Value) :
    Prop where
  holds : (outline fromEntryDataList isDict).Holds s
  custody : ∃ own, Custody own s
  apart : Apart s
  nullOr : s.memory.reader.mmdb = none ∨ s.memory.reader.mmdb = some mmdb
  calls : ∀ t p, s.threads t = some p → ∃ call, g.calls t = some call ∧ p.Recalls mmdb call
  iterates : ∀ t p, s.threads t = some p → p.Iterates mmdb fromEntryDataList g.queues s.memory
  sound : ∀ t, s.threads t ≠ some .crashed ∧ s.threads t ≠ some .crashedUnlocked
  lists : ∀ i < s.memory.made, (∀ t p, s.threads t = some p → p.iterator ≠ some i) →
    Listed s.memory (s.memory.next i) (g.queues i)
  queues : ∀ i < s.memory.made, AllQueued mmdb.tree (g.queues i)

end

section

variable [Inhabited Entry] {mmdb : Mmdb Entry Data} {fromEntryDataList : Data → Except PyErr Value}
  {isDict : Value → Bool} {s s' : State ι (Memory Entry Data) (Pc Entry Data Value)}
  {g : Ghost ι Entry Data Value} {p q call : Pc Entry Data Value} {t u : ι} {i : ℕ}
  {m m' : Memory Entry Data} {queues queues' : ℕ → List (QueuedRecord Entry)}

theorem Tracks.sees (h : Tracks mmdb fromEntryDataList isDict s g) (ht : s.threads t = some p) :
    p.Sees mmdb s.memory.reader := by
  have hknown : p.phase.known s.memory.reader := h.holds.known t p ht
  have hopen : s.memory.reader.IsOpen →
      s.memory.reader.mmdb = some mmdb ∧ s.memory.reader.closed = false :=
    fun ho => ⟨h.nullOr.resolve_left ho.mmdb, ho.closed⟩
  refine ⟨fun hp => ?_, fun hp => ?_⟩ <;> rw [hp] at hknown
  · exact hopen hknown
  · exact hknown.symm.imp (fun hc => ⟨hc.mmdb, hc.closed⟩) hopen

theorem Tracks.bounds (h : Tracks mmdb fromEntryDataList isDict s g) (hi : i < s.memory.made) (c : Call) :
    (readerIterNext mmdb.tree c (g.queues i)).1 ≠ .outOfBounds :=
  (readerIterNext_steps (h.queues i hi) rfl [] []).1

theorem Moves.queues_of_ne
    (h : Moves mmdb fromEntryDataList isDict call queues m m' p q queues') (hp : p.iterator ≠ some i)
    (hi : i < m.made) : queues' i = queues i := by
  cases h with
  | keeps | decides | closes | reserves => rfl
  | @turns j _ _ _ hj =>
    have hne : i ≠ j := by
      rintro rfl
      exact hp hj
    exact Function.update_of_ne hne ..
  | allocates => exact Function.update_of_ne hi.ne ..

/-- The paths to what is in the lists stay short, over a tree of at most 128 levels. -/
theorem Moves.allQueued (hdepth : mmdb.tree.DepthAtMost 128 QueuedRecord.zero.node)
    (h : Moves mmdb fromEntryDataList isDict call queues m m' p q queues')
    (hqueues : ∀ i < m.made, AllQueued mmdb.tree (queues i))
    (hp : ∀ i, p.iterator = some i → i < m.made) (hi : i < m'.made) :
    AllQueued mmdb.tree (queues' i) := by
  cases h with
  | keeps hmade | decides hmade | closes hmade | reserves hmade => exact hqueues i (hmade ▸ hi)
  | @turns j next hmade _ hj _ _ hnext =>
    by_cases hij : i = j
    · subst hij
      obtain ⟨c, outcome, hc⟩ := hnext
      rw [Function.update_self]
      have hall := (readerIterNext_steps (hqueues i (hp i hj)) hc [] []).2.1
      exact fun q hq => hall q (List.mem_append_right _ hq)
    · rw [Function.update_of_ne hij]
      exact hqueues i (hmade ▸ hi)
  | allocates hmade =>
    by_cases hij : i = m.made
    · rw [hij, Function.update_self]
      exact (run_steps hdepth []).1
    · rw [Function.update_of_ne hij]
      refine hqueues i ?_
      omega

/-- The records of another call, and of an iterator that the call is not on, stay as they are. -/
theorem cells_of_passes {own own' : ℕ → Option (Owner ι)} {e : Event (Pc Entry Data Value)} {o : Owner ι}
    (hdoes : Does (code fromEntryDataList isDict) m p e q m') (hledger : Ledger own m)
    (hpasses : p.Passes t q own own' m m') (ho : o ≠ .thread t)
    (hiterator : ∀ i, p.iterator = some i → o ≠ .iterator i) {a : ℕ} (ha : own a = some o) :
    m'.cells a = m.cells a :=
  cells_of_keeps hdoes hledger hpasses.ledger
    (hpasses.hands.keeps o ho fun i hi => hiterator i (Pc.iterator_of_pops hi)) ha

omit [Inhabited Entry] in
theorem next_of_passes {own own' : ℕ → Option (Owner ι)} (hpasses : p.Passes t q own own' m m')
    (hp : p.iterator ≠ some i) (hi : i < m.made) : m'.next i = m.next i :=
  hpasses.hands.next i hi (fun h => hp (Pc.iterator_of_pops h)) fun h => hp (Pc.iterator_of_pushes h)

variable [DecidableEq ι]

/-- What does not depend on what the step is. -/
theorem Tracks.step (h : Tracks mmdb fromEntryDataList isDict s g)
    (hstep : Step (code fromEntryDataList isDict) StartsDistinct s s') :
    (outline fromEntryDataList isDict).Holds s' ∧ Apart s' ∧
      (s'.memory.reader.mmdb = none ∨ s'.memory.reader.mmdb = some mmdb) := by
  refine ⟨Outline.holds_step outline_admits h.holds hstep, h.apart.step hstep, ?_⟩
  rcases step_mmdb h.holds hstep with heq | heq
  · rw [heq]
    exact h.nullOr
  · exact .inl heq

theorem Tracks.begin (h : Tracks mmdb fromEntryDataList isDict s g) (ht : s.threads t = none)
    (hstart : StartsDistinct s t p) :
    Tracks mmdb fromEntryDataList isDict (s.move t (some p))
      { g with calls := Function.update g.calls t (some p) } := by
  have hstep : Step (code fromEntryDataList isDict) StartsDistinct s (s.move t (some p)) :=
    .start ht hstart
  obtain ⟨hholds, hapart, hmmdb⟩ := h.step hstep
  obtain ⟨own, hown⟩ := h.custody
  have hback : ∀ u q, (s.move t (some p)).threads u = some q →
      u = t ∧ q = p ∨ u ≠ t ∧ s.threads u = some q := by
    intro u q hq
    by_cases hu : u = t
    · rw [hu, State.move_threads_self] at hq
      cases hq
      exact .inl ⟨hu, rfl⟩
    · rw [State.move_threads_of_ne hu] at hq
      exact .inr ⟨hu, hq⟩
  refine ⟨hholds, hown.step (step_of_distinct hstep) (h.apart.alone _), hapart, hmmdb, ?_, ?_, ?_, ?_,
    h.queues⟩
  · intro u q hq
    rcases hback u q hq with ⟨rfl, rfl⟩ | ⟨hu, hq⟩
    · refine ⟨q, Function.update_self .., ?_⟩
      obtain ⟨hstart, -⟩ := hstart
      cases hstart with
      | get | getWithPrefixLen | metadata | enter | iter | next => rfl
      | close => exact ⟨rfl, .inl rfl⟩
      | exit => exact ⟨rfl, .inr rfl⟩
    · obtain ⟨c, hc, hrecalls⟩ := h.calls u q hq
      exact ⟨c, (Function.update_of_ne hu ..).trans hc, hrecalls⟩
  · intro u q hq
    rcases hback u q hq with ⟨rfl, rfl⟩ | ⟨-, hq⟩
    · obtain ⟨hstart, hdistinct⟩ := hstart
      cases hstart with
      | @next i hi => exact h.lists i hi fun v r hr => hdistinct i rfl v r hr
      | get | getWithPrefixLen | metadata | enter | iter | close | exit => trivial
    · exact h.iterates u q hq
  · intro u
    refine ⟨fun hq => ?_, fun hq => ?_⟩
    · rcases hback u _ hq with ⟨-, heq⟩ | ⟨-, hq⟩
      · rw [← heq] at hstart
        obtain ⟨hstart, -⟩ := hstart
        cases hstart
      · exact (h.sound u).1 hq
    · rcases hback u _ hq with ⟨-, heq⟩ | ⟨-, hq⟩
      · rw [← heq] at hstart
        obtain ⟨hstart, -⟩ := hstart
        cases hstart
      · exact (h.sound u).2 hq
  · intro i hi hnone
    refine h.lists i hi fun u q hq => ?_
    have hu : u ≠ t := by
      rintro rfl
      rw [ht] at hq
      cases hq
    exact hnone u q ((State.move_threads_of_ne hu).trans hq)

theorem Tracks.ret (h : Tracks mmdb fromEntryDataList isDict s g) (ht : s.threads t = some p)
    (hcode : code fromEntryDataList isDict p = .done) :
    Tracks mmdb fromEntryDataList isDict (s.move t none) g := by
  have hstep : Step (code fromEntryDataList isDict) StartsDistinct s (s.move t none) :=
    .finish ht hcode
  obtain ⟨hholds, hapart, hmmdb⟩ := h.step hstep
  obtain ⟨own, hown⟩ := h.custody
  have hback : ∀ u q, (s.move t none).threads u = some q → s.threads u = some q := by
    intro u q hq
    by_cases hu : u = t
    · rw [hu, State.move_threads_self] at hq
      cases hq
    · rwa [State.move_threads_of_ne hu] at hq
  refine ⟨hholds, hown.step (step_of_distinct hstep) (h.apart.alone _), hapart, hmmdb,
    fun u q hq => h.calls u q (hback u q hq), fun u q hq => h.iterates u q (hback u q hq),
    fun u => ⟨fun hq => (h.sound u).1 (hback u _ hq), fun hq => (h.sound u).2 (hback u _ hq)⟩,
    fun i hi hnone => h.lists i hi fun u q hq => ?_, h.queues⟩
  by_cases hu : u = t
  · subst hu
    rw [ht] at hq
    cases hq
    intro hi
    cases p <;> cases hi <;> cases hcode
  · exact hnone u q ((State.move_threads_of_ne hu).trans hq)

theorem Tracks.passage (h : Tracks mmdb fromEntryDataList isDict s g)
    (hdepth : mmdb.tree.DepthAtMost 128 QueuedRecord.zero.node)
    (hpassage : Passage (code fromEntryDataList isDict) StartsDistinct s s' t p q) :
    ∃ call queues', g.calls t = some call ∧
      Moves mmdb fromEntryDataList isDict call g.queues s.memory s'.memory p q queues' ∧
      Tracks mmdb fromEntryDataList isDict s' { g with queues := queues' } := by
  obtain ⟨hstep, hothers, hp, hq, e, hdoes⟩ := hpassage
  obtain ⟨hholds, hapart, hmmdb⟩ := h.step hstep
  obtain ⟨own, hown⟩ := h.custody
  obtain ⟨call, hcall, hrecalls⟩ := h.calls t p hp
  have hfits := hown.fits t p hp
  obtain ⟨queues', hadvances⟩ := does_advances hdoes hrecalls (h.sees hp) hown.ledger hfits
    (h.iterates t p hp) (fun i hi => h.bounds (hfits.made i hi))
    (fun heq => (h.sound t).1 (heq ▸ hp)) fun heq => (h.sound t).2 (heq ▸ hp)
  obtain ⟨own', hpasses⟩ := does_passes hdoes hown.ledger hfits
  have hmoves := hadvances.moves
  refine ⟨call, queues', hcall, hmoves, hholds,
    ⟨own', hown.passes hothers hp hq hpasses (h.apart.alone s')⟩, hapart, hmmdb, fun u r hr => ?_,
    fun u r hr => ?_, fun u => ?_, fun i hi hnone => ?_, fun i hi => hmoves.allQueued hdepth h.queues hfits.made hi⟩
  · by_cases hu : u = t
    · subst hu
      rw [hq] at hr
      cases hr
      exact ⟨call, hcall, hadvances.recalls⟩
    · exact h.calls u r (hothers u hu ▸ hr)
  · by_cases hu : u = t
    · subst hu
      rw [hq] at hr
      cases hr
      exact hadvances.iterates
    -- what another call has come to stays as it is
    · have hr' : s.threads u = some r := hothers u hu ▸ hr
      have hne : ∀ i, r.iterator = some i → p.iterator ≠ some i :=
        fun i hi => h.apart u t r p i hu hr' hp hi
      have hmade := (hown.fits u r hr').made
      refine (h.iterates u r hr').frame hown.ledger (hown.fits u r hr') (fun a ha => ?_) fun i hi =>
        ⟨fun a ha => ?_, next_of_passes hpasses (hne i hi) (hmade i hi),
          hmoves.queues_of_ne (hne i hi) (hmade i hi)⟩
      · exact cells_of_passes hdoes hown.ledger hpasses (fun heq => hu (Owner.thread.inj heq))
          (fun i _ heq => by cases heq) ha
      · refine cells_of_passes hdoes hown.ledger hpasses (fun heq => by cases heq) (fun j hj heq => ?_) ha
        cases heq
        exact hne i hi hj
  · by_cases hu : u = t
    · subst hu
      rw [hq]
      exact ⟨fun heq => hadvances.crashed (Option.some.inj heq),
        fun heq => hadvances.unlocked (Option.some.inj heq)⟩
    · rw [hothers u hu]
      exact h.sound u
  · by_cases hpi : p.iterator = some i
    · exact hadvances.lists i hpi (hnone t q hq)
    · have hfresh : i < s.memory.made ∨ ¬ i < s.memory.made := Nat.lt_or_ge _ _ |>.imp_right not_lt.mpr
      rcases hfresh with hlt | hge
      · have hlisted := h.lists i hlt fun u r hr => by
          by_cases hu : u = t
          · subst hu
            rw [hp] at hr
            cases hr
            exact hpi
          · exact hnone u r ((hothers u hu).trans hr)
        show Listed s'.memory (s'.memory.next i) (queues' i)
        rw [next_of_passes hpasses hpi hlt, hmoves.queues_of_ne hpi hlt]
        refine hlisted.frame (hown.ledger.lists i) fun a ha => ?_
        refine cells_of_passes hdoes hown.ledger hpasses (fun heq => by cases heq) (fun j hj heq => ?_) ha
        cases heq
        exact hpi hj
      -- the iterator has just been made
      · cases hmoves with
        | keeps hmade | decides hmade | closes hmade | turns hmade | reserves hmade =>
          exact absurd (hmade ▸ hi) hge
        | allocates hmade _ _ _ hlisted =>
          obtain rfl : i = s.memory.made := by omega
          show Listed _ _ (Function.update g.queues s.memory.made [.zero] s.memory.made)
          rw [Function.update_self]
          exact hlisted

end

end MaxMindDB.Extension
