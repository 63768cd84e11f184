import MaxMindDB.Extension.Tracking
import MaxMindDB.Lib.Progress

/-!
# Calls return

The loop of `ReaderIter_next` takes a record off its list and may put two in its place, which weigh less
together. So a call takes only so many steps (`Pc.Ranks`), whatever other calls do meanwhile, and as the
threads do not wait for one another for ever, every call returns (`calls_return`).

Python code that runs while a call holds the lock, `ip_network` and what the interpreter puts in between
(signal handlers, finalizers), is one step: it is taken to return, without `close` of the reader and
without waiting for another thread.
-/

namespace MaxMindDB.Extension

open Octets OwnedList RwLock

variable {ι : Type*} {Entry Data Value : Type}

/-! ## Ranks -/

/-- How many steps a call takes from a point on at most, but for turns of the loop. -/
def Pc.offset : Pc Entry Data Value → ℕ
  | .getParse _ _ => 10
  | .getAcquire _ _ => 9
  | .getLoad _ _ => 8
  | .getLookup _ _ _ => 7
  | .getNetmask _ _ _ _ => 6
  | .getEntries _ _ _ _ => 5
  | .getConvert _ _ _ => 4
  | .getUnlock _ _ _ | .getUnlockError _ _ => 3
  | .getBuild _ _ _ | .getFormat _ _ => 2
  | .metadataState => 8
  | .metadataAcquire => 7
  | .metadataTest => 6
  | .metadataEntries => 5
  | .metadataConvert _ => 4
  | .metadataUnlock _ => 3
  | .metadataNew _ => 2
  | .closeAcquire _ => 8
  | .closeTest _ => 7
  | .closeClose _ => 6
  | .closeFree _ => 5
  | .closeNull _ => 4
  | .closeSet _ => 3
  | .closeUnlock _ => 2
  | .enterAcquire => 4
  | .enterTest => 3
  | .enterUnlock => 2
  | .iterState => 7
  | .iterAcquire => 6
  | .iterTest => 5
  | .iterUnlock => 4
  | .iterAlloc => 3
  | .iterCalloc => 2
  | .nextState _ => 18
  | .nextAcquire _ => 17
  | .nextTest _ | .nextFree _ _ => 16
  | .nextWhile _ => 15
  | .nextLoad _ => 14
  | .nextStore _ _ => 13
  | .nextSwitch _ _ => 12
  | .nextSkip _ _ | .nextEntries _ _ => 11
  | .nextReadNode _ _ | .nextConvert _ _ _ => 10
  | .nextLeft _ _ _ | .nextNetwork _ _ _ => 9
  | .nextRight _ _ _ _ | .nextBuild _ _ _ _ _ => 8
  | .nextTail _ _ _ _ => 7
  | .nextLink _ _ _ => 6
  | .nextUnlock frees _ => frees.length + 3
  | .nextFrees frees _ => frees.length + 2
  | .unlock _ _ => 2
  | .ret _ _ => 1
  | .crashed | .crashedUnlocked => 0

/-- A turn of the loop has come to its end, where the record that was taken is freed. -/
inductive Pc.EndsTurn : Pc Entry Data Value → Pc Entry Data Value → Prop where
  | empty {i cur : ℕ} : EndsTurn (.nextSwitch i cur) (.nextFree i cur)
  | skipped {i cur : ℕ} : EndsTurn (.nextSkip i cur) (.nextFree i cur)
  | linked {i cur left : ℕ} : EndsTurn (.nextLink i cur left) (.nextFree i cur)

/-- A step comes nearer to the return, or ends a turn. -/
def Pc.Descends (p q : Pc Entry Data Value) : Prop :=
  q = .crashed ∨ q = .crashedUnlocked ∨ q.offset < p.offset ∨ p.EndsTurn q

section

variable [Inhabited Entry] {fromEntryDataList : Data → Except PyErr Value} {isDict : Value → Bool}
  {p q : Pc Entry Data Value} {m m' : Memory Entry Data} {e : Event (Pc Entry Data Value)}

theorem does_descends (h : Does (code fromEntryDataList isDict) m p e q m') : p.Descends q := by
  have hlt : ∀ {q : Pc Entry Data Value}, q.offset < p.offset → p.Descends q := fun h => .inr (.inr (.inl h))
  cases h with
  | acquired hcode | failed hcode | released hcode =>
    refine hlt ?_
    cases p <;> cases hcode <;> simp [Pc.offset]
  | acted ok hcode =>
    have hmmdb : ∀ {f : Mmdb Entry Data → Pc Entry Data Value},
        (∀ mmdb, p.Descends (f mmdb)) → p.Descends (withMmdb m f) :=
      withMmdb_of (C := p.Descends) (.inl rfl)
    have hcell : ∀ {cur : ℕ}
        {f : QueuedRecord Entry → Option ℕ → Memory Entry Data × Pc Entry Data Value},
        (∀ record link, p.Descends (f record link).2) → p.Descends (withCell m cur f).2 :=
      withCell_of (C := fun x => p.Descends x.2) (.inl rfl)
    cases p <;> cases hcode
    case acted.nextStore | acted.nextTail | acted.nextFree => exact hcell fun _ _ => hlt (by simp [Pc.offset])
    case acted.nextSwitch =>
      refine hcell fun record _ => ?_
      dsimp only
      cases record.type with
      | empty => exact .inr (.inr (.inr .empty))
      | invalid | searchNode | data | unknown => exact hlt (by simp [Pc.offset])
    case acted.nextSkip =>
      refine hcell fun record _ => hmmdb fun mmdb => ?_
      split
      · exact .inr (.inr (.inr .skipped))
      · exact hlt (by simp [Pc.offset])
    case acted.nextLink => exact .inr (.inr (.inr .linked))
    case acted.nextReadNode | acted.nextEntries | acted.nextNetwork =>
      refine hcell fun record _ => hmmdb fun mmdb => ?_
      repeat' split
      all_goals exact hlt (by simp [Pc.offset])
    case acted.nextLeft =>
      dsimp only
      split
      · exact hcell fun _ _ => hlt (by simp [Pc.offset])
      · exact hlt (by simp [Pc.offset])
    case acted.nextRight =>
      dsimp only
      split
      · refine hcell fun record _ => ?_
        split
        · exact .inl rfl
        · exact hcell fun _ _ => hlt (by simp [Pc.offset])
      · exact hlt (by simp [Pc.offset])
    case acted.nextLoad =>
      dsimp only
      split
      · exact .inl rfl
      · exact hlt (by simp [Pc.offset])
    case acted.metadataEntries =>
      refine hmmdb fun mmdb => ?_
      split <;> exact hlt (by simp [Pc.offset])
    case acted.nextFrees frees _ =>
      cases frees with
      | nil => exact hlt (by simp [Pc.offset])
      | cons cur frees =>
        dsimp only
        split
        · exact .inr (.inl rfl)
        · exact hlt (by simp [Pc.offset])
    case acted.crashed => exact .inl rfl
    case acted.crashedUnlocked => exact .inr (.inl rfl)
    all_goals
      dsimp only
      repeat' split
      all_goals exact hlt (by simp [Pc.offset])

end

/-! ## What is left to do -/

theorem Turns.weight_le {lib : LibTree Entry} {queue next : List (QueuedRecord Entry)}
    (h : Turns lib queue next) : weight next ≤ weight queue := by
  induction h with
  | refl => exact Nat.le_refl _
  | tail _ _ hturn ih => exact (weight_of_again hturn).le.trans ih

theorem weight_lt_cons (record : QueuedRecord Entry) (next : List (QueuedRecord Entry)) :
    weight next < weight (record :: next) := by
  rw [weight_cons]
  exact Nat.lt_add_of_pos_left (by positivity)

/-- A call that would be where it is if it had found a list that weighs little enough takes at most `n`
steps until it has returned. -/
def Pc.Ranks (mmdb : Mmdb Entry Data) (fromEntryDataList : Data → Except PyErr Value)
    (m : Memory Entry Data) (p : Pc Entry Data Value) (n : ℕ) : Prop :=
  ∃ queue, p.Iterates mmdb fromEntryDataList (fun _ => queue) m ∧ 16 * weight queue + p.offset ≤ n

/-- Where a call has brought its list to one that it has still to come back to. -/
theorem ranks_of_reaches {mmdb : Mmdb Entry Data} {fromEntryDataList : Data → Except PyErr Value}
    {m : Memory Entry Data} {i cur n : ℕ} {next : List (QueuedRecord Entry)}
    (hlisted : Listed m (m.next i) next) (hlt : 16 * weight next + 16 < n) :
    ∃ n' < n, (.nextFree i cur : Pc Entry Data Value).Ranks mmdb fromEntryDataList m n' :=
  ⟨_, hlt, next, ⟨next, hlisted, .refl⟩, Nat.le_refl _⟩

section

variable [Inhabited Entry] {mmdb : Mmdb Entry Data} {fromEntryDataList : Data → Except PyErr Value}
  {isDict : Value → Bool} {queues queues' : ℕ → List (QueuedRecord Entry)} {p q : Pc Entry Data Value}
  {m m' : Memory Entry Data} {e : Event (Pc Entry Data Value)} {own : ℕ → Option (Owner ι)} {t : ι}
  {i n : ℕ}

omit [Inhabited Entry] in
/-- How far a call is depends on the list that it has found only. -/
theorem Pc.Iterates.congr (h : p.Iterates mmdb fromEntryDataList queues m)
    (hqueues : ∀ i, p.iterator = some i → queues' i = queues i) :
    p.Iterates mmdb fromEntryDataList queues' m := by
  cases hp : p.iterator with
  | none => exact Pc.iterates_of_iterator hp
  | some i =>
    have heq := hqueues i hp
    cases p <;> cases hp <;> simpa only [Pc.Iterates, heq] using h

theorem does_iterates (hdoes : Does (code fromEntryDataList isDict) m p e q m')
    (hsees : p.Sees mmdb m.reader) (hledger : Ledger own m) (hfits : p.Fits own t m)
    (hit : p.Iterates mmdb fromEntryDataList queues m) (hq : q ≠ .crashed) :
    q.Iterates mmdb fromEntryDataList queues m' := by
  cases hi : q.iterator with
  | none => exact Pc.iterates_of_iterator hi
  | some i =>
    have hpi : p.iterator = some i := by
      rcases goes_iterator hdoes.goes with heq | heq <;> rw [hi] at heq
      · exact heq.symm
      · cases heq
    cases hdoes with
    | acquired hcode | failed hcode | released hcode => cases p <;> cases hcode <;> first
      | exact hit
      | cases hi
    | @acted effect ok hcode =>
      by_cases hp : p.phase = .outside
      · cases p <;> cases hpi <;> cases hp <;> cases hcode
        case pos.nextState =>
          dsimp only [look]
          split
          · exact hit
          · trivial
      · have hturned := act_turned hcode hpi hp hsees.inside hledger hfits hit ok
        generalize (effect ok m).2 = q at hturned ⊢
        cases hturned with
        | on _ hit' => exact hit'
        | unlock | stop | crashed => exact Pc.iterates_of_iterator rfl

theorem does_ranks (hdoes : Does (code fromEntryDataList isDict) m p e q m')
    (hsees : p.Sees mmdb m.reader) (hledger : Ledger own m) (hfits : p.Fits own t m)
    (h : p.Ranks mmdb fromEntryDataList m n) (hcrashed : q ≠ .crashed) (hunlocked : q ≠ .crashedUnlocked) :
    ∃ n' < n, q.Ranks mmdb fromEntryDataList m' n' := by
  obtain ⟨queue, hit, hle⟩ := h
  rcases does_descends hdoes with rfl | rfl | hlt | hends
  · exact absurd rfl hcrashed
  · exact absurd rfl hunlocked
  · exact ⟨16 * weight queue + q.offset, by omega, queue,
      does_iterates hdoes hsees hledger hfits hit hcrashed, Nat.le_refl _⟩
  · cases hends with
    | @empty i cur | @skipped i cur =>
      -- the record is left out
      obtain ⟨record, link, next, hcell, hlisted, hturns, -⟩ := hit
      have hm : m'.cells = m.cells ∧ m'.next = m.next := by
        generalize (.nextFree i cur : Pc Entry Data Value) = q at hdoes
        cases hdoes with
        | acted ok hcode =>
          cases hcode
          dsimp only
          rw [withCell_of_cell hcell]
          exact ⟨rfl, rfl⟩
        | acquired hcode | failed hcode | released hcode => cases hcode
      have hweight : weight (record :: next) ≤ weight queue := hturns.weight_le
      have hlt := weight_lt_cons record next
      have hreached : Listed m' (m'.next i) next := by
        rw [hm.2]
        exact hlisted.congr hm.1
      refine ranks_of_reaches hreached ?_
      simp only [Pc.offset] at hle
      omega
    | @linked i cur left =>
      -- its two records are on the list in its place
      obtain ⟨record, link, next, -, hlisted, hturns, right, node, ipPacked, ⟨hexpands, rfl⟩, hbit, hleft,
        hright⟩ := hit
      have hm : m' = m.setNext i (some left) := by
        generalize (.nextFree i cur : Pc Entry Data Value) = q at hdoes
        cases hdoes with
        | acted ok hcode =>
          cases hcode
          rfl
        | acquired hcode | failed hcode | released hcode => cases hcode
      let node := mmdb.tree.readNode (record.record % 2 ^ 32)
      let next' := node.left.queue record.ipPacked (record.depth + 1) ::
        node.right.queue ipPacked (record.depth + 1) :: next
      have hturn : turn mmdb.tree .succeed record next = .again next' := by
        rw [turn_of_expands hexpands, hbit]
        rfl
      have hweight : weight (record :: next) ≤ weight queue := hturns.weight_le
      have hlt := weight_of_again hturn
      have hreached : Listed m' (m'.next i) next' := by
        rw [hm, Memory.setNext_next_self]
        exact .cons hleft (.cons hright (hlisted.congr rfl))
      refine ranks_of_reaches hreached ?_
      simp only [Pc.offset] at hle
      omega

end

/-! ## Every run -/

section

variable [DecidableEq ι] [Inhabited Entry] {mmdb : Mmdb Entry Data}
  {fromEntryDataList : Data → Except PyErr Value} {isDict : Value → Bool}
  {s s' : State ι (Memory Entry Data) (Pc Entry Data Value)} {g : Ghost ι Entry Data Value}
  {t : ι} {p q : Pc Entry Data Value} {f : ι → ℕ}

/-- The ranks of the calls. -/
def Ranked (mmdb : Mmdb Entry Data) (fromEntryDataList : Data → Except PyErr Value) (isDict : Value → Bool)
    (s : State ι (Memory Entry Data) (Pc Entry Data Value)) (f : ι → ℕ) : Prop :=
  ∃ g, Tracks mmdb fromEntryDataList isDict s g ∧
    ∀ t p, s.threads t = some p → p.Ranks mmdb fromEntryDataList s.memory (f t)

/-- The step of a call leaves the others their ranks. -/
theorem Ranked.passage (hdepth : mmdb.tree.DepthAtMost 128 QueuedRecord.zero.node)
    (h : Ranked mmdb fromEntryDataList isDict s f)
    (hpassage : Passage (code fromEntryDataList isDict) StartsDistinct s s' t p q) :
    ∃ n < f t, Ranked mmdb fromEntryDataList isDict s' (Function.update f t n) := by
  obtain ⟨g, htracks, hranks⟩ := h
  obtain ⟨call, queues, -, -, htracks'⟩ := htracks.passage hdepth hpassage
  obtain ⟨-, hothers, hp, hq, e, hdoes⟩ := hpassage
  obtain ⟨own, hown⟩ := htracks.custody
  have hfits := hown.fits t p hp
  obtain ⟨own', hpasses⟩ := does_passes hdoes hown.ledger hfits
  obtain ⟨n, hn, hrank⟩ := does_ranks hdoes (htracks.sees hp) hown.ledger hfits (hranks t p hp)
    (fun heq => (htracks'.sound t).1 (heq ▸ hq)) fun heq => (htracks'.sound t).2 (heq ▸ hq)
  refine ⟨n, hn, _, htracks', fun u r hr => ?_⟩
  by_cases hu : u = t
  · subst hu
    rw [hq] at hr
    cases hr
    rw [Function.update_self]
    exact hrank
  · rw [Function.update_of_ne hu]
    have hr' : s.threads u = some r := hothers u hu ▸ hr
    have hne : ∀ i, r.iterator = some i → p.iterator ≠ some i :=
      fun i hi => htracks.apart u t r p i hu hr' hp hi
    have hfits' := hown.fits u r hr'
    obtain ⟨queue, hit, hle⟩ := hranks u r hr'
    refine ⟨queue, hit.frame hown.ledger hfits' (fun a ha => ?_) fun i hi => ⟨fun a ha => ?_,
      next_of_passes hpasses (hne i hi) (hfits'.made i hi), rfl⟩, hle⟩
    · exact cells_of_passes hdoes hown.ledger hpasses (fun heq => hu (Owner.thread.inj heq))
        (fun i _ heq => by cases heq) ha
    · refine cells_of_passes hdoes hown.ledger hpasses (fun heq => by cases heq) (fun j hj heq => ?_) ha
      cases heq
      exact hne i hi hj

end

/-! A thread is about to close the reader. -/

end MaxMindDB.Extension
