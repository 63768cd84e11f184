import MaxMindDB.Extension.Turning
import MaxMindDB.Lib.Linearizable

/-!
# The moment of a call

A call has its moment in the step that takes it to the release of the lock: of `Reader_close`, the step
that sets `closed`. What it returns is decided there, but for what fails behind the release, and for the
iterator that `Reader_iter` makes there (`Pc.Allows`).

`does_advances`: each step of a thread is nothing for the atomic reader, or the moment of its call.
-/

namespace MaxMindDB.Extension

open Octets RwLock

variable {ι : Type*} {Entry Data Value : Type}

/-! ## What a call may still return -/

/-- How a call may stand with the atomic reader, where the thread is at a point. -/
def Pc.Allows (p call : Pc Entry Data Value) (st : Status (Pc Entry Data Value)) : Prop :=
  match p with
  | .getUnlock method record prefixLen | .getBuild method record prefixLen =>
    st = .decided (.ret method (.ofRecord method record prefixLen)) ∨
      method = .getWithPrefixLen ∧ st = .decided (.ret method (.raised .propagated))
  | .getUnlockError method error | .getFormat method error =>
    st = .decided (.ret method (.raised error)) ∨ st = .decided (.ret method (.raised .runtimeError))
  | .metadataUnlock dict | .metadataNew dict =>
    st = .decided (.ret .metadata (.metadata dict)) ∨
      st = .decided (.ret .metadata (.raised .propagated))
  | .closeUnlock method => st = .decided (.ret method .none)
  | .enterUnlock => st = .decided (.ret .enter .reader)
  | .iterUnlock | .iterAlloc => (∃ i, st = .decided (.ret .iter (.iterator i))) ∨
      st = .decided (.ret .iter (.raised .propagated)) ∨ st = .decided (.ret .iter (.raised .noMemory))
  | .iterCalloc => (∃ i, st = .decided (.ret .iter (.iterator i))) ∨
      st = .decided (.ret .iter (.raised .noMemory))
  | .nextUnlock _ result | .nextFrees _ result => st = .decided (.ret .next result)
  | .unlock method result | .ret method result => st = .decided (.ret method result)
  | _ => st = .called call

/-- `Reader_iter` has found the reader open, and has still to make the iterator. -/
def Pc.Pending : Pc Entry Data Value → Prop
  | .iterUnlock | .iterAlloc | .iterCalloc => True
  | _ => False

/-! ## What a call remembers -/

/-- The prefix length that `get_record` makes of a netmask. -/
def LookupResult.prefixLen (result : LookupResult Entry) (lookup : LibMaxMindDB Entry Data)
    (address : IPAddress) : ℕ :=
  if address.version = .v4 ∧ lookup.ipVersion = 6 then
    if 96 ≤ result.netmask then result.netmask - 96 else 0
  else result.netmask

theorem getRecord_of_ok {lookup : LibMaxMindDB Entry Data} {address : IPAddress}
    {result : LookupResult Entry} (h : lookup.lookupSockaddr address = .ok result)
    (fromEntryDataList : Data → Except PyErr Value) :
    getRecord lookup fromEntryDataList true true address =
      entryRecord lookup fromEntryDataList result >>= fun record =>
        .ok (record, result.prefixLen lookup address) := by
  unfold getRecord
  rw [h]
  rfl

/-- What the local variables of a call are, before its moment. -/
def Pc.Recalls (mmdb : Mmdb Entry Data) (p call : Pc Entry Data Value) : Prop :=
  match p with
  | .getParse method arg => call = .getParse method arg
  | .getAcquire method address | .getLoad method address => call = .getParse method (.ok address)
  | .getLookup method address mmdb' => call = .getParse method (.ok address) ∧ mmdb' = mmdb
  | .getNetmask method address mmdb' result => call = .getParse method (.ok address) ∧ mmdb' = mmdb ∧
    mmdb.lookup.lookupSockaddr address = .ok result
  | .getEntries method mmdb' entry prefixLen => ∃ address result,
    call = .getParse method (.ok address) ∧ mmdb' = mmdb ∧
      mmdb.lookup.lookupSockaddr address = .ok result ∧ result.foundEntry = true ∧
      entry = result.entry ∧ prefixLen = result.prefixLen mmdb.lookup address
  | .getConvert method data prefixLen => ∃ address result, call = .getParse method (.ok address) ∧
      mmdb.lookup.lookupSockaddr address = .ok result ∧ result.foundEntry = true ∧
      mmdb.lookup.getEntryDataList result.entry = .ok data ∧
      prefixLen = result.prefixLen mmdb.lookup address
  | .metadataState | .metadataAcquire | .metadataTest | .metadataEntries => call = .metadataState
  | .metadataConvert data => call = .metadataState ∧ mmdb.metadata = .ok data
  | .closeAcquire method | .closeTest method | .closeClose method | .closeFree method
  | .closeNull method | .closeSet method =>
    call = .closeAcquire method ∧ (method = .close ∨ method = .exit)
  | .enterAcquire | .enterTest => call = .enterAcquire
  | .iterState | .iterAcquire | .iterTest => call = .iterState
  | .nextState i | .nextAcquire i | .nextTest i | .nextWhile i | .nextLoad i | .nextStore i _
  | .nextSwitch i _ | .nextSkip i _ | .nextReadNode i _ | .nextLeft i _ _ | .nextRight i _ _ _
  | .nextTail i _ _ _ | .nextLink i _ _ | .nextFree i _ | .nextEntries i _ | .nextConvert i _ _
  | .nextNetwork i _ _ | .nextBuild i _ _ _ _ => call = .nextState i
  | _ => True

theorem Pc.recalls_of_iterator {mmdb : Mmdb Entry Data} {call p : Pc Entry Data Value} {i : ℕ}
    (h : p.iterator = some i) : p.Recalls mmdb call ↔ call = .nextState i := by
  cases p <;> cases h <;> exact Iff.rfl

/-! ## Moments -/

section

variable [Inhabited Entry] (mmdb : Mmdb Entry Data) (fromEntryDataList : Data → Except PyErr Value)
  (isDict : Value → Bool) (call : Pc Entry Data Value)

/-- What a step of a thread is for the atomic reader: nothing, if the call may stand as before; or the
moment of the call, whatever of the statuses that are then allowed it comes to. -/
inductive Moves (queues : ℕ → List (QueuedRecord Entry)) (m m' : Memory Entry Data)
    (p q : Pc Entry Data Value) : (ℕ → List (QueuedRecord Entry)) → Prop where
  | keeps : m'.made = m.made → m'.reader.closed = m.reader.closed →
      (∀ st, q.Allows call st → p.Allows call st) →
      (∀ i, q.Allows call (.decided (.ret .iter (.iterator i))) → (q.Pending ↔ p.Pending)) →
      Moves queues m m' p q queues
  | decides : m'.made = m.made → m'.reader.closed = m.reader.closed → p.Allows call (.called call) →
      ¬ q.Pending →
      (∀ st, q.Allows call st → ∃ r, st = .decided r ∧ ∀ a : AtomicReader Entry,
        a.isOpen = !m.reader.closed → Performs mmdb fromEntryDataList isDict a call r a) →
      Moves queues m m' p q queues
  | closes {method : Method} : m'.made = m.made → call = .closeAcquire method →
      m'.reader.closed = true → p = .closeSet method → q = .closeUnlock method →
      Moves queues m m' p q queues
  | turns {i : ℕ} {next : List (QueuedRecord Entry)} : m'.made = m.made →
      m'.reader.closed = m.reader.closed → p.iterator = some i → ¬ q.Pending →
      p.Allows call (.called call) →
      (∃ c outcome, readerIterNext mmdb.tree c (queues i) = (outcome, next)) →
      (∀ st, q.Allows call st → ∃ r, st = .decided r ∧ ∀ a : AtomicReader Entry,
        a.isOpen = !m.reader.closed → a.queues i = some (queues i) →
          Performs mmdb fromEntryDataList isDict a call r (a.setQueue i next)) →
      Moves queues m m' p q (Function.update queues i next)
  | reserves : m'.made = m.made → m'.reader.closed = m.reader.closed → m.reader.closed = false →
      call = .iterState → p = .iterTest → q = .iterUnlock → Moves queues m m' p q queues
  | allocates : m'.made = m.made + 1 → m'.reader.closed = m.reader.closed → p = .iterCalloc →
      q = .ret .iter (.iterator m.made) → Listed m' (m'.next m.made) [.zero] →
      Moves queues m m' p q (Function.update queues m.made [.zero])

/-- What a step of a thread does for it: its call moves, and remembers what it has found out; the list of
an iterator that it leaves is in memory. -/
structure Advances (queues queues' : ℕ → List (QueuedRecord Entry)) (m m' : Memory Entry Data)
    (p q : Pc Entry Data Value) : Prop where
  moves : Moves mmdb fromEntryDataList isDict call queues m m' p q queues'
  recalls : q.Recalls mmdb call
  iterates : q.Iterates mmdb fromEntryDataList queues' m'
  lists : ∀ i, p.iterator = some i → q.iterator ≠ some i → Listed m' (m'.next i) (queues' i)
  crashed : q ≠ .crashed
  unlocked : q ≠ .crashedUnlocked

end

/-- What is known of the reader where a thread is. -/
structure Pc.Sees (mmdb : Mmdb Entry Data) (r : ReaderObj Entry Data) (p : Pc Entry Data Value) :
    Prop where
  inside : p.phase = .inside → r.mmdb = some mmdb ∧ r.closed = false
  testing : p.phase = .testing →
    r.mmdb = none ∧ r.closed = true ∨ r.mmdb = some mmdb ∧ r.closed = false

/-! ## The steps of the methods -/

theorem Pc.iterates_of_iterator {mmdb : Mmdb Entry Data} {fromEntryDataList : Data → Except PyErr Value}
    {queues : ℕ → List (QueuedRecord Entry)} {m : Memory Entry Data} {q : Pc Entry Data Value}
    (h : q.iterator = none) : q.Iterates mmdb fromEntryDataList queues m := by
  cases q <;> trivial

section

variable [Inhabited Entry] {mmdb : Mmdb Entry Data} {fromEntryDataList : Data → Except PyErr Value}
  {isDict : Value → Bool} {call p q : Pc Entry Data Value} {m m' : Memory Entry Data}
  {queues queues' : ℕ → List (QueuedRecord Entry)}
  {effect : Bool → Memory Entry Data → Memory Entry Data × Pc Entry Data Value}

theorem advances_of_moves (hmoves : Moves mmdb fromEntryDataList isDict call queues m m' p q queues')
    (hrecalls : q.Recalls mmdb call) (hp : p.iterator = none) (hq : q.iterator = none)
    (hcrashed : q ≠ .crashed) (hunlocked : q ≠ .crashedUnlocked) :
    Advances mmdb fromEntryDataList isDict call queues queues' m m' p q where
  moves := hmoves
  recalls := hrecalls
  iterates := Pc.iterates_of_iterator hq
  lists i hi := by
    rw [hp] at hi
    cases hi
  crashed := hcrashed
  unlocked := hunlocked

theorem moves_of_called (hmade : m'.made = m.made) (hclosed : m'.reader.closed = m.reader.closed)
    (hp : ∀ st, p.Allows call st ↔ st = .called call) (hq : ∀ st, q.Allows call st ↔ st = .called call) :
    Moves mmdb fromEntryDataList isDict call queues m m' p q queues := by
  refine .keeps hmade hclosed (fun st h => (hp st).mpr ((hq st).mp h)) fun i h => ?_
  cases (hq _).mp h

/-- The moment of a call that leaves the reader as it is, and then returns. -/
theorem moves_of_ret {method : Method} {result : Returned Value} (hmade : m'.made = m.made)
    (hclosed : m'.reader.closed = m.reader.closed) (hp : p.Allows call (.called call))
    (hq : ∀ st, q.Allows call st → st = .decided (.ret method result)) (hpending : ¬ q.Pending)
    (hperforms : ∀ a : AtomicReader Entry, a.isOpen = !m.reader.closed →
      Performs mmdb fromEntryDataList isDict a call (.ret method result) a) :
    Moves mmdb fromEntryDataList isDict call queues m m' p q queues :=
  .decides hmade hclosed hp hpending fun st h => ⟨_, hq st h, hperforms⟩

theorem act_getParse {method : Method} {arg : Except PyErr IPAddress} (ok : Bool)
    (h : code fromEntryDataList isDict (.getParse method arg) = .act effect)
    (hrecalls : (.getParse method arg : Pc Entry Data Value).Recalls mmdb call) :
    Advances mmdb fromEntryDataList isDict call queues queues m (effect ok m).1 (.getParse method arg)
      (effect ok m).2 := by
  cases h
  obtain rfl : call = .getParse method arg := hrecalls
  cases ok with
  | false =>
    refine advances_of_moves (moves_of_ret rfl rfl rfl (fun _ h => h) (fun h => h) fun a _ => ?_)
      trivial rfl rfl (fun h => by cases h) fun h => by cases h
    exact .noState (.get method arg) trivial
  | true =>
    cases arg with
    | error error =>
      exact advances_of_moves (moves_of_ret rfl rfl rfl (fun _ h => h) (fun h => h)
        fun a _ => .parseError) trivial rfl rfl (fun h => by cases h) fun h => by cases h
    | ok address =>
      exact advances_of_moves (moves_of_called rfl rfl (fun _ => Iff.rfl) fun _ => Iff.rfl) rfl rfl rfl
        (fun h => by cases h) fun h => by cases h

theorem act_getLoad {method : Method} {address : IPAddress} (ok : Bool)
    (h : code fromEntryDataList isDict (.getLoad method address) = .act effect)
    (hrecalls : (.getLoad method address : Pc Entry Data Value).Recalls mmdb call)
    (hsees : (.getLoad method address : Pc Entry Data Value).Sees mmdb m.reader) :
    Advances mmdb fromEntryDataList isDict call queues queues m (effect ok m).1 (.getLoad method address)
      (effect ok m).2 := by
  cases h
  obtain rfl : call = .getParse method (.ok address) := hrecalls
  dsimp only
  rcases hsees.testing rfl with ⟨hmmdb, hclosed⟩ | ⟨hmmdb, -⟩
  · rw [hmmdb]
    refine advances_of_moves (moves_of_ret rfl rfl rfl (fun _ h => h) (fun h => h) fun a ha => ?_)
      trivial rfl rfl (fun h => by cases h) fun h => by cases h
    refine .getRaises true ?_
    rw [ha, hclosed]
    rfl
  · rw [hmmdb]
    exact advances_of_moves (moves_of_called rfl rfl (fun _ => Iff.rfl) fun _ => Iff.rfl) ⟨rfl, rfl⟩ rfl
      rfl (fun h => by cases h) fun h => by cases h

/-- The lookup fails, and then perhaps the text of its error. -/
theorem moves_getUnlockError {method : Method} {address : IPAddress} {error : PyErr}
    (hp : p.Allows (.getParse method (.ok address)) (.called (.getParse method (.ok address))))
    (hopen : m.reader.closed = false)
    (hperforms : ∀ a : AtomicReader Entry, a.isOpen = true → Performs mmdb fromEntryDataList isDict a
      (.getParse method (.ok address)) (.ret method (.raised error)) a) :
    Moves mmdb fromEntryDataList isDict (.getParse method (.ok address)) queues m m p
      (.getUnlockError method error) queues := by
  refine .decides rfl rfl hp (fun h => h) fun st h => ?_
  rw [hopen]
  rcases h with rfl | rfl
  · exact ⟨_, rfl, hperforms⟩
  · exact ⟨_, rfl, fun a ha => .fails (.get ..) ha (.getFormat ..)⟩

/-- The record is found, and then perhaps no pair is made of it. -/
theorem moves_getUnlock {method : Method} {address : IPAddress} {record : Option Value} {prefixLen : ℕ}
    (hp : p.Allows (.getParse method (.ok address)) (.called (.getParse method (.ok address))))
    (hopen : m.reader.closed = false) (hget : getRecord mmdb.lookup fromEntryDataList true true address =
      .ok (record, prefixLen)) :
    Moves mmdb fromEntryDataList isDict (.getParse method (.ok address)) queues m m p
      (.getUnlock method record prefixLen) queues := by
  refine .decides rfl rfl hp (fun h => h) fun st h => ?_
  rw [hopen]
  rcases h with rfl | ⟨-, rfl⟩
  · exact ⟨_, rfl, fun a ha => .get true (by rw [ha]; exact hget)⟩
  · exact ⟨_, rfl, fun a ha => .fails (.get ..) ha (.getBuild ..)⟩

theorem act_getLookup {method : Method} {address : IPAddress} {mmdb' : Mmdb Entry Data} (ok : Bool)
    (h : code fromEntryDataList isDict (.getLookup method address mmdb') = .act effect)
    (hrecalls : (.getLookup method address mmdb' : Pc Entry Data Value).Recalls mmdb call)
    (hopen : m.reader.closed = false) :
    Advances mmdb fromEntryDataList isDict call queues queues m (effect ok m).1
      (.getLookup method address mmdb') (effect ok m).2 := by
  cases h
  obtain ⟨rfl, rfl⟩ := hrecalls
  dsimp only
  cases hlook : mmdb'.lookup.lookupSockaddr address with
  | error error =>
    have hget : ∀ e, (match error with
        | .ipv6LookupInIPv4Database => PyErr.valueError
        | .other _ => .maxMindDBError) = e → ∀ a : AtomicReader Entry, a.isOpen = true →
        Performs mmdb' fromEntryDataList isDict a (.getParse method (.ok address))
          (.ret method (.raised e)) a := by
      intro e he a ha
      refine .getRaises true ?_
      unfold getRecord
      rw [ha, hlook]
      cases error <;> cases he <;> rfl
    cases error with
    | ipv6LookupInIPv4Database | other status =>
      exact advances_of_moves (moves_getUnlockError rfl hopen (hget _ rfl)) trivial rfl rfl
        (fun h => by cases h) fun h => by cases h
  | ok result =>
    exact advances_of_moves (moves_of_called rfl rfl (fun _ => Iff.rfl) fun _ => Iff.rfl)
      ⟨rfl, rfl, hlook⟩ rfl rfl (fun h => by cases h) fun h => by cases h

theorem act_getNetmask {method : Method} {address : IPAddress} {mmdb' : Mmdb Entry Data}
    {result : LookupResult Entry} (ok : Bool)
    (h : code fromEntryDataList isDict (.getNetmask method address mmdb' result) = .act effect)
    (hrecalls : (.getNetmask method address mmdb' result : Pc Entry Data Value).Recalls mmdb call)
    (hopen : m.reader.closed = false) :
    Advances mmdb fromEntryDataList isDict call queues queues m (effect ok m).1
      (.getNetmask method address mmdb' result) (effect ok m).2 := by
  cases h
  obtain ⟨rfl, rfl, hlook⟩ := hrecalls
  dsimp only
  cases hfound : result.foundEntry with
  | false =>
    have hget : getRecord mmdb'.lookup fromEntryDataList true true address =
        .ok (none, result.prefixLen mmdb'.lookup address) := by
      rw [getRecord_of_ok hlook, entryRecord, hfound]
      rfl
    exact advances_of_moves (moves_getUnlock rfl hopen hget) trivial rfl rfl
      (fun h => by cases h) fun h => by cases h
  | true =>
    exact advances_of_moves (moves_of_called rfl rfl (fun _ => Iff.rfl) fun _ => Iff.rfl)
      ⟨address, result, rfl, rfl, hlook, hfound, rfl, rfl⟩ rfl rfl (fun h => by cases h)
      fun h => by cases h

theorem act_getEntries {method : Method} {mmdb' : Mmdb Entry Data} {entry : Entry} {prefixLen : ℕ}
    (ok : Bool)
    (h : code fromEntryDataList isDict (.getEntries method mmdb' entry prefixLen) = .act effect)
    (hrecalls : (.getEntries method mmdb' entry prefixLen : Pc Entry Data Value).Recalls mmdb call)
    (hopen : m.reader.closed = false) :
    Advances mmdb fromEntryDataList isDict call queues queues m (effect ok m).1
      (.getEntries method mmdb' entry prefixLen) (effect ok m).2 := by
  cases h
  obtain ⟨address, result, rfl, rfl, hlook, hfound, rfl, rfl⟩ := hrecalls
  dsimp only
  split
  · next data _ hdata =>
    exact advances_of_moves (moves_of_called rfl rfl (fun _ => Iff.rfl) fun _ => Iff.rfl)
      ⟨address, result, rfl, hlook, hfound, hdata, rfl⟩ rfl rfl (fun h => by cases h)
      fun h => by cases h
  · exact advances_of_moves (moves_getUnlockError rfl hopen
      fun a ha => .fails (.get ..) ha (.getEntries ..)) trivial rfl rfl (fun h => by cases h)
      fun h => by cases h

theorem act_getConvert {method : Method} {data : Data} {prefixLen : ℕ} (ok : Bool)
    (h : code fromEntryDataList isDict (.getConvert method data prefixLen) = .act effect)
    (hrecalls : (.getConvert method data prefixLen : Pc Entry Data Value).Recalls mmdb call)
    (hopen : m.reader.closed = false) :
    Advances mmdb fromEntryDataList isDict call queues queues m (effect ok m).1
      (.getConvert method data prefixLen) (effect ok m).2 := by
  cases h
  obtain ⟨address, result, rfl, hlook, hfound, hdata, rfl⟩ := hrecalls
  have hget : getRecord mmdb.lookup fromEntryDataList true true address =
      fromEntryDataList data >>= fun record =>
        .ok (some record, result.prefixLen mmdb.lookup address) := by
    rw [getRecord_of_ok hlook, entryRecord, hfound, hdata]
    show (fromEntryDataList data >>= fun record => Except.ok (some record)) >>= _ = _
    cases fromEntryDataList data <;> rfl
  dsimp only
  split
  · next record _ hrecord =>
    rw [hrecord] at hget
    exact advances_of_moves (moves_getUnlock rfl hopen hget) trivial rfl rfl (fun h => by cases h)
      fun h => by cases h
  · next error _ herror =>
    rw [herror] at hget
    refine advances_of_moves (moves_of_ret rfl rfl rfl (fun _ h => h) (fun h => h) fun a ha => ?_)
      trivial rfl rfl (fun h => by cases h) fun h => by cases h
    refine .getRaises true ?_
    rw [ha, hopen]
    exact hget
  · refine advances_of_moves (moves_of_ret rfl rfl rfl (fun _ h => h) (fun h => h) fun a ha => ?_)
      trivial rfl rfl (fun h => by cases h) fun h => by cases h
    rw [hopen] at ha
    exact .fails (.get ..) ha (.getBuild ..)

/-- A step behind the moment of a call, which has no iterator to make. -/
theorem moves_of_decided (hmade : m'.made = m.made) (hclosed : m'.reader.closed = m.reader.closed)
    (hallows : ∀ st, q.Allows call st → p.Allows call st) (hp : ¬ p.Pending) (hq : ¬ q.Pending) :
    Moves mmdb fromEntryDataList isDict call queues m m' p q queues :=
  .keeps hmade hclosed hallows fun _ _ => iff_of_false hq hp

theorem act_getBuild {method : Method} {record : Option Value} {prefixLen : ℕ} (ok : Bool)
    (h : code fromEntryDataList isDict (.getBuild method record prefixLen) = .act effect) :
    Advances mmdb fromEntryDataList isDict call queues queues m (effect ok m).1
      (.getBuild method record prefixLen) (effect ok m).2 := by
  cases h
  dsimp only
  by_cases hmethod : method = .getWithPrefixLen
  · rw [if_pos hmethod]
    cases ok with
    | true =>
      refine advances_of_moves (moves_of_decided rfl rfl (fun st h => .inl ?_) (fun h => h) fun h => h)
        trivial rfl rfl (fun h => by cases h) fun h => by cases h
      unfold Returned.ofRecord
      rw [if_pos hmethod]
      exact h
    | false =>
      exact advances_of_moves (moves_of_decided rfl rfl (fun st h => .inr ⟨hmethod, h⟩) (fun h => h)
        fun h => h) trivial rfl rfl (fun h => by cases h) fun h => by cases h
  · rw [if_neg hmethod]
    refine advances_of_moves (moves_of_decided rfl rfl (fun st h => .inl ?_) (fun h => h) fun h => h)
      trivial rfl rfl (fun h => by cases h) fun h => by cases h
    unfold Returned.ofRecord
    rw [if_neg hmethod]
    exact h

theorem act_getFormat {method : Method} {error : PyErr} (ok : Bool)
    (h : code fromEntryDataList isDict (.getFormat method error) = .act effect) :
    Advances mmdb fromEntryDataList isDict call queues queues m (effect ok m).1
      (.getFormat method error) (effect ok m).2 := by
  cases h
  cases ok with
  | true =>
    exact advances_of_moves (moves_of_decided rfl rfl (fun _ h => .inl h) (fun h => h) fun h => h)
      trivial rfl rfl (fun h => by cases h) fun h => by cases h
  | false =>
    exact advances_of_moves (moves_of_decided rfl rfl (fun _ h => .inr h) (fun h => h) fun h => h)
      trivial rfl rfl (fun h => by cases h) fun h => by cases h

theorem metadataFails (hopen : m.reader.closed = false) (hp : p.Allows .metadataState
    (.called .metadataState)) (hiterator : p.iterator = none) :
    Advances mmdb fromEntryDataList isDict .metadataState queues queues m m p
      (.unlock .metadata (.raised .maxMindDBError)) := by
  refine advances_of_moves (moves_of_ret rfl rfl hp (fun _ h => h) (fun h => h) fun a ha => ?_)
    trivial hiterator rfl (fun h => by cases h) fun h => by cases h
  rw [hopen] at ha
  exact .fails .metadata ha .metadataDecode

theorem act_metadata (hp : p = .metadataState ∨ p = .metadataTest ∨ p = .metadataEntries ∨
      (∃ data, p = .metadataConvert data) ∨ ∃ dict, p = .metadataNew dict) (ok : Bool)
    (h : code fromEntryDataList isDict p = .act effect) (hrecalls : p.Recalls mmdb call)
    (hsees : p.Sees mmdb m.reader) :
    Advances mmdb fromEntryDataList isDict call queues queues m (effect ok m).1 p (effect ok m).2 := by
  rcases hp with rfl | rfl | rfl | ⟨data, rfl⟩ | ⟨dict, rfl⟩ <;> cases h
  · obtain rfl : call = .metadataState := hrecalls
    cases ok with
    | true =>
      exact advances_of_moves (moves_of_called rfl rfl (fun _ => Iff.rfl) fun _ => Iff.rfl) rfl rfl rfl
        (fun h => by cases h) fun h => by cases h
    | false =>
      exact advances_of_moves (moves_of_ret rfl rfl rfl (fun _ h => h) (fun h => h)
        fun a _ => .noState .metadata trivial) trivial rfl rfl (fun h => by cases h)
        fun h => by cases h
  · obtain rfl : call = .metadataState := hrecalls
    dsimp only
    rcases hsees.testing rfl with ⟨hmmdb, hclosed⟩ | ⟨hmmdb, -⟩
    · rw [hmmdb]
      refine advances_of_moves (moves_of_ret rfl rfl rfl (fun _ h => h) (fun h => h) fun a ha => ?_)
        trivial rfl rfl (fun h => by cases h) fun h => by cases h
      rw [hclosed] at ha
      exact .metadataClosed ha
    · rw [hmmdb]
      exact advances_of_moves (moves_of_called rfl rfl (fun _ => Iff.rfl) fun _ => Iff.rfl) rfl rfl rfl
        (fun h => by cases h) fun h => by cases h
  · obtain rfl : call = .metadataState := hrecalls
    obtain ⟨hmmdb, hclosed⟩ := hsees.inside rfl
    dsimp only
    rw [withMmdb_of_mmdb hmmdb]
    split
    · next data _ hdata =>
      exact advances_of_moves (moves_of_called rfl rfl (fun _ => Iff.rfl) fun _ => Iff.rfl)
        ⟨rfl, hdata⟩ rfl rfl (fun h => by cases h) fun h => by cases h
    · exact metadataFails hclosed rfl rfl
  · obtain ⟨rfl, hdata⟩ := hrecalls
    obtain ⟨-, hclosed⟩ := hsees.inside rfl
    dsimp only
    split
    · next dict _ hdict =>
      split
      · next hisDict =>
        refine advances_of_moves (.decides rfl rfl rfl (fun h => h) fun st h => ?_)
          trivial rfl rfl (fun h => by cases h) fun h => by cases h
        rw [hclosed]
        rcases h with rfl | rfl
        · exact ⟨_, rfl, fun a ha => .metadata ha hdata hdict hisDict⟩
        · exact ⟨_, rfl, fun a ha => .fails .metadata ha .metadataNew⟩
      · exact metadataFails hclosed rfl rfl
    · exact metadataFails hclosed rfl rfl
  · cases ok with
    | true =>
      exact advances_of_moves (moves_of_decided rfl rfl (fun _ h => .inl h) (fun h => h) fun h => h)
        trivial rfl rfl (fun h => by cases h) fun h => by cases h
    | false =>
      exact advances_of_moves (moves_of_decided rfl rfl (fun _ h => .inr h) (fun h => h) fun h => h)
        trivial rfl rfl (fun h => by cases h) fun h => by cases h

theorem act_close {stage : Stage} (hp : p.phase = .closing stage) (ok : Bool)
    (h : code fromEntryDataList isDict p = .act effect) (hrecalls : p.Recalls mmdb call) :
    Advances mmdb fromEntryDataList isDict call queues queues m (effect ok m).1 p (effect ok m).2 := by
  cases p <;> cases hp <;> cases h
  case closeTest method =>
    obtain ⟨rfl, hmethod⟩ := hrecalls
    dsimp only
    split
    all_goals
      exact advances_of_moves (moves_of_called rfl rfl (fun _ => Iff.rfl) fun _ => Iff.rfl)
        ⟨rfl, hmethod⟩ rfl rfl (fun h => by cases h) fun h => by cases h
  case closeSet method =>
    exact advances_of_moves (.closes rfl hrecalls.1 rfl rfl rfl) trivial rfl rfl
      (fun h => by cases h) fun h => by cases h
  all_goals
    exact advances_of_moves (moves_of_called rfl rfl (fun _ => Iff.rfl) fun _ => Iff.rfl) hrecalls rfl
      rfl (fun h => by cases h) fun h => by cases h

theorem act_enterOrIter (hp : p = .enterTest ∨ p = .iterState ∨ p = .iterTest ∨ p = .iterAlloc ∨
      p = .iterCalloc) (ok : Bool) (h : code fromEntryDataList isDict p = .act effect)
    (hrecalls : p.Recalls mmdb call) (hsees : p.Sees mmdb m.reader) :
    ∃ queues', Advances mmdb fromEntryDataList isDict call queues queues' m (effect ok m).1 p
      (effect ok m).2 := by
  rcases hp with rfl | rfl | rfl | rfl | rfl <;> cases h
  · obtain rfl : call = .enterAcquire := hrecalls
    refine ⟨queues, ?_⟩
    dsimp only
    rcases hsees.testing rfl with ⟨-, hclosed⟩ | ⟨-, hclosed⟩ <;> rw [hclosed]
    · refine advances_of_moves (moves_of_ret rfl rfl rfl (fun _ h => h) (fun h => h) fun a ha => ?_)
        trivial rfl rfl (fun h => by cases h) fun h => by cases h
      rw [hclosed] at ha
      exact .enterClosed ha
    · refine advances_of_moves (moves_of_ret rfl rfl rfl (fun _ h => h) (fun h => h) fun a ha => ?_)
        trivial rfl rfl (fun h => by cases h) fun h => by cases h
      rw [hclosed] at ha
      exact .enter ha
  · obtain rfl : call = .iterState := hrecalls
    refine ⟨queues, ?_⟩
    cases ok with
    | true =>
      exact advances_of_moves (moves_of_called rfl rfl (fun _ => Iff.rfl) fun _ => Iff.rfl) rfl rfl rfl
        (fun h => by cases h) fun h => by cases h
    | false =>
      exact advances_of_moves (moves_of_ret rfl rfl rfl (fun _ h => h) (fun h => h)
        fun a _ => .noState .iter trivial) trivial rfl rfl (fun h => by cases h) fun h => by cases h
  · obtain rfl : call = .iterState := hrecalls
    refine ⟨queues, ?_⟩
    dsimp only
    rcases hsees.testing rfl with ⟨-, hclosed⟩ | ⟨-, hclosed⟩ <;> rw [hclosed]
    · refine advances_of_moves (moves_of_ret rfl rfl rfl (fun _ h => h) (fun h => h) fun a ha => ?_)
        trivial rfl rfl (fun h => by cases h) fun h => by cases h
      rw [hclosed] at ha
      exact .iterClosed ha
    · exact advances_of_moves (.reserves rfl rfl hclosed rfl rfl rfl) trivial rfl rfl
        (fun h => by cases h) fun h => by cases h
  · refine ⟨queues, ?_⟩
    cases ok with
    | true =>
      exact advances_of_moves (.keeps rfl rfl (fun st h => h.imp_right .inr) fun _ _ => Iff.rfl)
        trivial rfl rfl (fun h => by cases h) fun h => by cases h
    | false =>
      exact advances_of_moves (.keeps rfl rfl (fun st h => .inr (.inl h)) fun i h => by cases h)
        trivial rfl rfl (fun h => by cases h) fun h => by cases h
  · cases ok with
    | true =>
      have hlisted : Listed ((m.calloc ⟨.zero, none⟩).addIterator m.brk)
          (((m.calloc ⟨.zero, none⟩).addIterator m.brk).next m.made) [.zero] := by
        have hnext : ((m.calloc ⟨.zero, none⟩).addIterator m.brk).next m.made = some m.brk :=
          Function.update_self ..
        rw [hnext]
        exact .cons (Function.update_self ..) .nil
      exact ⟨_, advances_of_moves (.allocates rfl rfl rfl rfl hlisted) trivial rfl rfl
        (fun h => by cases h) fun h => by cases h⟩
    | false =>
      exact ⟨queues, advances_of_moves (.keeps rfl rfl (fun st h => .inr h) fun i h => by cases h)
        trivial rfl rfl (fun h => by cases h) fun h => by cases h⟩

end

/-! ## The steps of `next` -/

theorem Pc.allows_of_iterator {p call : Pc Entry Data Value} {i : ℕ} (h : p.iterator = some i)
    (st : Status (Pc Entry Data Value)) : p.Allows call st ↔ st = .called call := by
  cases p <;> cases h <;> exact Iff.rfl

section

variable [Inhabited Entry] {mmdb : Mmdb Entry Data} {fromEntryDataList : Data → Except PyErr Value}
  {isDict : Value → Bool} {call p q : Pc Entry Data Value} {m m' : Memory Entry Data}
  {queues queues' : ℕ → List (QueuedRecord Entry)} {own : ℕ → Option (Owner ι)} {t : ι} {i : ℕ}
  {effect : Bool → Memory Entry Data → Memory Entry Data × Pc Entry Data Value}

theorem act_made (h : code fromEntryDataList isDict p = .act effect) (hp : p ≠ .iterCalloc) (ok : Bool)
    (m : Memory Entry Data) : (effect ok m).1.made = m.made := by
  have hcell : ∀ {cur : ℕ}
      {f : QueuedRecord Entry → Option ℕ → Memory Entry Data × Pc Entry Data Value},
      (∀ record link, (f record link).1.made = m.made) → (withCell m cur f).1.made = m.made :=
    withCell_of (C := fun x => x.1.made = m.made) rfl
  cases p <;> cases h
  case iterCalloc => exact absurd rfl hp
  case nextStore | nextSwitch | nextSkip | nextReadNode | nextTail | nextEntries | nextNetwork
      | nextFree => exact hcell fun _ _ => rfl
  case nextLeft =>
    dsimp only
    split
    · exact hcell fun _ _ => rfl
    · rfl
  case nextRight =>
    dsimp only
    split
    · refine hcell fun record _ => ?_
      split
      · rfl
      · exact hcell fun _ _ => rfl
    · rfl
  case nextFrees =>
    dsimp only
    split
    · rfl
    · split <;> rfl
  all_goals rfl

/-- The moment of a call of `next` that answers as `readerIterNext` does. -/
theorem advances_of_answers {result : Returned Value} (hmade : m'.made = m.made)
    (hclosed : m'.reader.closed = m.reader.closed) (hp : p.iterator = some i)
    (hrecalls : p.Recalls mmdb call) (hq : ∀ st, q.Allows call st → st = .decided (.ret .next result))
    (hpending : ¬ q.Pending) (hrecalls' : q.Recalls mmdb call) (hiterator : q.iterator = none)
    (hcrashed : q ≠ .crashed) (hunlocked : q ≠ .crashedUnlocked)
    (hanswers : Answers mmdb fromEntryDataList (queues i) m' i result) :
    ∃ queues', Advances mmdb fromEntryDataList isDict call queues queues' m m' p q := by
  obtain ⟨c, outcome, next, hc, hnext, hrenders, hlisted⟩ := hanswers
  obtain rfl := (Pc.recalls_of_iterator hp).mp hrecalls
  refine ⟨Function.update queues i next, ⟨.turns hmade hclosed hp hpending
    ((Pc.allows_of_iterator hp _).mpr rfl) ⟨c, outcome, hnext⟩
    fun st h => ⟨_, hq st h, fun a ha hqueue => ?_⟩, hrecalls',
    Pc.iterates_of_iterator hiterator, fun j hj _ => ?_, hcrashed, hunlocked⟩⟩
  · refine .next c hqueue ?_ hnext hrenders
    rw [ha, hc, hclosed, Bool.not_not]
  · rw [hp] at hj
    cases hj
    rw [Function.update_self]
    exact hlisted

theorem act_next (hi : p.iterator = some i) (ok : Bool)
    (h : code fromEntryDataList isDict p = .act effect) (hrecalls : p.Recalls mmdb call)
    (hsees : p.Sees mmdb m.reader) (hledger : Ledger own m) (hfits : p.Fits own t m)
    (hit : p.Iterates mmdb fromEntryDataList queues m)
    (hbounds : ∀ c, (readerIterNext mmdb.tree c (queues i)).1 ≠ .outOfBounds) :
    ∃ queues', Advances mmdb fromEntryDataList isDict call queues queues' m (effect ok m).1 p
      (effect ok m).2 := by
  have hcall := (Pc.recalls_of_iterator hi).mp hrecalls
  have hp : ∀ st, p.Allows call st ↔ st = .called call := Pc.allows_of_iterator hi
  by_cases hphase : p.phase = .outside
  · -- the state of the module
    cases p <;> cases hi <;> cases hphase <;> cases h
    subst hcall
    cases ok with
    | true =>
      exact ⟨queues, moves_of_called rfl rfl hp fun _ => Iff.rfl, rfl, hit,
        fun j hj hne => absurd hj hne, (fun h => by cases h), fun h => by cases h⟩
    | false =>
      refine ⟨queues, moves_of_ret rfl rfl rfl (fun _ h => h) (fun h => h)
        fun a _ => .noState (.next i) trivial, trivial, trivial, fun j hj _ => ?_,
        (fun h => by cases h), fun h => by cases h⟩
      cases hj
      exact hit
  · have hmade := act_made h (by rintro rfl; exact hphase rfl) ok m
    have hreader : (effect ok m).1.reader = m.reader := by
      cases hcase : p.phase with
      | outside => exact absurd hcase hphase
      | inside => exact (act_inside h hcase ok m).1
      | leaving => rw [act_leaving h hcase]
      | testing | closing stage =>
        cases p <;> cases hi <;> cases hcase <;> cases h
        all_goals rfl
    have hclosed : (effect ok m).1.reader.closed = m.reader.closed := by rw [hreader]
    have hturned := act_turned h hi hphase hsees.inside hledger hfits hit ok
    generalize (effect ok m).2 = q at hturned
    cases hturned with
    | on hq hit' =>
      refine ⟨queues, moves_of_called hmade hclosed hp (Pc.allows_of_iterator hq),
        (Pc.recalls_of_iterator hq).mpr hcall, hit', fun j hj hne => ?_, fun h => ?_, fun h => ?_⟩
      · rw [hi] at hj
        exact absurd (hq.trans hj) hne
      · rw [h] at hq
        cases hq
      · rw [h] at hq
        cases hq
    | unlock hanswers | stop hanswers =>
      exact advances_of_answers hmade hclosed hi hrecalls (fun _ h => h) (fun h => h) trivial rfl
        (fun h => by cases h) (fun h => by cases h) hanswers
    | crashed c hc => exact absurd hc (hbounds c)

/-- The records that a call still has are freed behind the lock. -/
theorem act_nextFrees {frees : List ℕ} {result : Returned Value} (ok : Bool)
    (h : code fromEntryDataList isDict (.nextFrees frees result) = .act effect)
    (hledger : Ledger own m) (hfits : (.nextFrees frees result : Pc Entry Data Value).Fits own t m) :
    Advances mmdb fromEntryDataList isDict call queues queues m (effect ok m).1
      (.nextFrees frees result) (effect ok m).2 := by
  cases h
  cases frees with
  | nil =>
    exact advances_of_moves (moves_of_decided rfl rfl (fun _ h => h) (fun h => h) fun h => h) trivial
      rfl rfl (fun h => by cases h) fun h => by cases h
  | cons cur frees =>
    obtain ⟨cell, hcell⟩ := hledger.exists_cell (hfits.has cur List.mem_cons_self)
    dsimp only
    rw [hcell]
    exact advances_of_moves (moves_of_decided rfl rfl (fun _ h => h) (fun h => h) fun h => h) trivial
      rfl rfl (fun h => by cases h) fun h => by cases h

theorem act_advances (h : code fromEntryDataList isDict p = .act effect) (ok : Bool)
    (hrecalls : p.Recalls mmdb call) (hsees : p.Sees mmdb m.reader) (hledger : Ledger own m)
    (hfits : p.Fits own t m) (hit : p.Iterates mmdb fromEntryDataList queues m)
    (hbounds : ∀ i, p.iterator = some i → ∀ c,
      (readerIterNext mmdb.tree c (queues i)).1 ≠ .outOfBounds)
    (hcrashed : p ≠ .crashed) (hunlocked : p ≠ .crashedUnlocked) :
    ∃ queues', Advances mmdb fromEntryDataList isDict call queues queues' m (effect ok m).1 p
      (effect ok m).2 := by
  cases hi : p.iterator with
  | some i => exact act_next hi ok h hrecalls hsees hledger hfits hit (hbounds i hi)
  | none =>
    cases p
    case getParse => exact ⟨queues, act_getParse ok h hrecalls⟩
    case getLoad => exact ⟨queues, act_getLoad ok h hrecalls hsees⟩
    case getLookup => exact ⟨queues, act_getLookup ok h hrecalls (hsees.inside rfl).2⟩
    case getNetmask => exact ⟨queues, act_getNetmask ok h hrecalls (hsees.inside rfl).2⟩
    case getEntries => exact ⟨queues, act_getEntries ok h hrecalls (hsees.inside rfl).2⟩
    case getConvert => exact ⟨queues, act_getConvert ok h hrecalls (hsees.inside rfl).2⟩
    case getBuild => exact ⟨queues, act_getBuild ok h⟩
    case getFormat => exact ⟨queues, act_getFormat ok h⟩
    case metadataState | metadataTest | metadataEntries =>
      exact ⟨queues, act_metadata (by simp) ok h hrecalls hsees⟩
    case metadataConvert | metadataNew => exact ⟨queues, act_metadata (by simp) ok h hrecalls hsees⟩
    case closeTest | closeClose | closeFree | closeNull | closeSet =>
      exact ⟨queues, act_close rfl ok h hrecalls⟩
    case enterTest | iterState | iterTest | iterAlloc | iterCalloc =>
      exact act_enterOrIter (by simp) ok h hrecalls hsees
    case nextFrees => exact ⟨queues, act_nextFrees ok h hledger hfits⟩
    case crashed => exact absurd rfl hcrashed
    case crashedUnlocked => exact absurd rfl hunlocked
    all_goals first | (cases hi; done) | cases h

/-- Whatever is done at a point, the lock or an action, the call advances. -/
theorem does_advances {e : Event (Pc Entry Data Value)}
    (h : Does (code fromEntryDataList isDict) m p e q m')
    (hrecalls : p.Recalls mmdb call) (hsees : p.Sees mmdb m.reader) (hledger : Ledger own m)
    (hfits : p.Fits own t m) (hit : p.Iterates mmdb fromEntryDataList queues m)
    (hbounds : ∀ i, p.iterator = some i → ∀ c,
      (readerIterNext mmdb.tree c (queues i)).1 ≠ .outOfBounds)
    (hcrashed : p ≠ .crashed) (hunlocked : p ≠ .crashedUnlocked) :
    ∃ queues', Advances mmdb fromEntryDataList isDict call queues queues' m m' p q := by
  cases h with
  | acted ok hcode => exact act_advances hcode ok hrecalls hsees hledger hfits hit hbounds hcrashed hunlocked
  | acquired hcode =>
    refine ⟨queues, ?_⟩
    cases p <;> cases hcode
    case acquired.nextAcquire i =>
      exact ⟨moves_of_called rfl rfl (Pc.allows_of_iterator rfl) (Pc.allows_of_iterator rfl), hrecalls,
        hit, fun j hj hne => absurd hj hne, (fun h => by cases h), fun h => by cases h⟩
    all_goals
      exact advances_of_moves (moves_of_called rfl rfl (fun _ => Iff.rfl) fun _ => Iff.rfl) hrecalls rfl
        rfl (fun h => by cases h) fun h => by cases h
  | failed hcode =>
    cases p <;> cases hcode
    case failed.nextAcquire i =>
      exact advances_of_answers rfl rfl rfl hrecalls (fun _ h => h) (fun h => h) trivial rfl
        (fun h => by cases h) (fun h => by cases h)
        ⟨⟨false, m.reader.closed, fun _ => .succeed⟩, _, _, rfl, rfl, .raised, hit⟩
    case failed.getAcquire method address =>
      obtain rfl : call = .getParse method (.ok address) := hrecalls
      exact ⟨queues, advances_of_moves (moves_of_ret rfl rfl rfl (fun _ h => h) (fun h => h)
        fun a _ => .getRaises false rfl) trivial rfl rfl (fun h => by cases h) fun h => by cases h⟩
    case failed.closeAcquire method =>
      obtain ⟨rfl, rfl | rfl⟩ := hrecalls
      · exact ⟨queues, advances_of_moves (moves_of_ret rfl rfl rfl (fun _ h => h) (fun h => h)
          fun a _ => .noLock (.close .close) (by simp)) trivial rfl rfl (fun h => by cases h)
          fun h => by cases h⟩
      · exact ⟨queues, advances_of_moves (moves_of_ret rfl rfl rfl (fun _ h => h) (fun h => h)
          fun a _ => .exitNoLock) trivial rfl rfl (fun h => by cases h) fun h => by cases h⟩
    case failed.metadataAcquire =>
      obtain rfl : call = .metadataState := hrecalls
      exact ⟨queues, advances_of_moves (moves_of_ret rfl rfl rfl (fun _ h => h) (fun h => h)
        fun a _ => .noLock .metadata (by simp)) trivial rfl rfl (fun h => by cases h)
        fun h => by cases h⟩
    case failed.enterAcquire =>
      obtain rfl : call = .enterAcquire := hrecalls
      exact ⟨queues, advances_of_moves (moves_of_ret rfl rfl rfl (fun _ h => h) (fun h => h)
        fun a _ => .noLock .enter (by simp)) trivial rfl rfl (fun h => by cases h)
        fun h => by cases h⟩
    case failed.iterAcquire =>
      obtain rfl : call = .iterState := hrecalls
      exact ⟨queues, advances_of_moves (moves_of_ret rfl rfl rfl (fun _ h => h) (fun h => h)
        fun a _ => .noLock .iter (by simp)) trivial rfl rfl (fun h => by cases h)
        fun h => by cases h⟩
  | released hcode =>
    refine ⟨queues, ?_⟩
    cases p <;> cases hcode
    case released.iterUnlock =>
      exact advances_of_moves (.keeps rfl rfl (fun _ h => h) fun _ _ => Iff.rfl) trivial rfl rfl
        (fun h => by cases h) fun h => by cases h
    all_goals
      exact advances_of_moves (moves_of_decided rfl rfl (fun _ h => h) (fun h => h) fun h => h) trivial
        rfl rfl (fun h => by cases h) fun h => by cases h

end

end MaxMindDB.Extension
