import MaxMindDB.Extension.Operations

/-!
# The atomic reader

The C reader as a caller may think of it, who does not know of locks: it is open or closed, its
iterators have records to visit, and each method is done at one moment. Its `get` is `getRecord`, and its
`next` is `readerIterNext`. What methods need of the allocator, of Python and of the lock may fail; a
method that then raises leaves the reader as it is, but for `next`, which has taken records from its list.
-/

namespace MaxMindDB.Extension

open Octets

variable {Entry Data Value : Type}

/-- Whether a reader is open, and the records that its iterators have still to visit. -/
structure AtomicReader (Entry : Type) where
  isOpen : Bool
  queues : ℕ → Option (List (QueuedRecord Entry))

namespace AtomicReader

/-- A reader that `Reader_init` has opened. -/
def opened : AtomicReader Entry := ⟨true, fun _ => none⟩

def close (a : AtomicReader Entry) : AtomicReader Entry := { a with isOpen := false }

/-- The list of an iterator, which `Reader_iter` makes with one record. -/
def setQueue (a : AtomicReader Entry) (i : ℕ) (queue : List (QueuedRecord Entry)) :
    AtomicReader Entry :=
  { a with queues := Function.update a.queues i (some queue) }

variable {a : AtomicReader Entry} {i j : ℕ} {queue : List (QueuedRecord Entry)}

theorem setQueue_self : (a.setQueue i queue).queues i = some queue := Function.update_self ..

theorem setQueue_of_ne (h : j ≠ i) : (a.setQueue i queue).queues j = a.queues j :=
  Function.update_of_ne h ..

end AtomicReader

/-- What `Reader_get` or `Reader_get_with_prefix_len` makes of the answer of `get_record`. -/
def Returned.ofRecord (method : Method) (record : Option Value) (prefixLen : ℕ) : Returned Value :=
  if method = .getWithPrefixLen then .recordWithPrefixLen record prefixLen else .record record

/-- What a call of `next` returns for its outcome: a pair is made of the network and the entry of the
record, converted. -/
inductive Outcome.Renders (lookup : LibMaxMindDB Entry Data)
    (fromEntryDataList : Data → Except PyErr Value) : Outcome Entry → Returned Value → Prop where
  | item {address : Bytes} {prefixLen : ℤ} {cur : QueuedRecord Entry} {data : Data} {record : Value} :
      lookup.getEntryDataList cur.entry = .ok data → fromEntryDataList data = .ok record →
      Renders lookup fromEntryDataList (.item address prefixLen cur) (.item address prefixLen record)
  | stopIteration : Renders lookup fromEntryDataList .stopIteration .stopIteration
  | raised {error : PyErr} {cur : Option (QueuedRecord Entry)} :
      Renders lookup fromEntryDataList (.raised error cur) (.raised error)
  /-- The conversion has set an error of its own. -/
  | convert {cur : QueuedRecord Entry} {data : Data} {error : PyErr} :
      lookup.getEntryDataList cur.entry = .ok data → fromEntryDataList data = .error error →
      Renders lookup fromEntryDataList (.raised .propagated cur) (.raised error)

/-- Where a call of a method begins. -/
inductive Pc.Begins : Pc Entry Data Value → Method → Prop where
  | get (method : Method) (arg : Except PyErr IPAddress) : Begins (.getParse method arg) method
  | metadata : Begins .metadataState .metadata
  | close (method : Method) : Begins (.closeAcquire method) method
  | enter : Begins .enterAcquire .enter
  | iter : Begins .iterState .iter
  | next (i : ℕ) : Begins (.nextState i) .next

/-- A call looks for the state of its module first. -/
def Pc.NeedsState : Pc Entry Data Value → Prop
  | .getParse _ _ | .metadataState | .iterState | .nextState _ => True
  | _ => False

/-- The errors of a call that has found the reader open, where what it needs of others fails. -/
inductive Pc.Fails : Pc Entry Data Value → PyErr → Prop where
  /-- `MMDB_get_entry_data_list` runs out of memory. -/
  | getEntries (method : Method) (address : IPAddress) : Fails (.getParse method (.ok address))
      .maxMindDBError
  /-- `inet_ntop` fails. -/
  | getFormat (method : Method) (address : IPAddress) : Fails (.getParse method (.ok address))
      .runtimeError
  /-- An object is not made. -/
  | getBuild (method : Method) (address : IPAddress) : Fails (.getParse method (.ok address))
      .propagated
  | metadataDecode : Fails .metadataState .maxMindDBError
  | metadataNew : Fails .metadataState .propagated
  | iterAlloc : Fails .iterState .propagated
  | iterCalloc : Fails .iterState .noMemory

section

variable [Inhabited Entry] (mmdb : Mmdb Entry Data) (fromEntryDataList : Data → Except PyErr Value)
  (isDict : Value → Bool)

/-- What a call that begins at a point may do to the reader, and return. -/
inductive Performs : AtomicReader Entry → Pc Entry Data Value → Pc Entry Data Value →
    AtomicReader Entry → Prop where
  | noState {a : AtomicReader Entry} {p : Pc Entry Data Value} {method : Method} :
      p.Begins method → p.NeedsState → Performs a p (.ret method (.raised .propagated)) a
  | parseError {a : AtomicReader Entry} {method : Method} {error : PyErr} :
      Performs a (.getParse method (.error error)) (.ret method (.raised error)) a
  | get {a : AtomicReader Entry} {method : Method} {address : IPAddress} (acquired : Bool)
      {record : Option Value} {prefixLen : ℕ} :
      getRecord mmdb.lookup fromEntryDataList acquired a.isOpen address = .ok (record, prefixLen) →
      Performs a (.getParse method (.ok address)) (.ret method (.ofRecord method record prefixLen)) a
  | getRaises {a : AtomicReader Entry} {method : Method} {address : IPAddress} (acquired : Bool)
      {error : PyErr} :
      getRecord mmdb.lookup fromEntryDataList acquired a.isOpen address = .error error →
      Performs a (.getParse method (.ok address)) (.ret method (.raised error)) a
  | fails {a : AtomicReader Entry} {p : Pc Entry Data Value} {method : Method} {error : PyErr} :
      p.Begins method → a.isOpen = true → p.Fails error → Performs a p (.ret method (.raised error)) a
  | metadata {a : AtomicReader Entry} {data : Data} {dict : Value} : a.isOpen = true →
      mmdb.metadata = .ok data → fromEntryDataList data = .ok dict → isDict dict = true →
      Performs a .metadataState (.ret .metadata (.metadata dict)) a
  | metadataClosed {a : AtomicReader Entry} : a.isOpen = false →
      Performs a .metadataState (.ret .metadata .raisedIOError) a
  | close {a : AtomicReader Entry} {method : Method} :
      Performs a (.closeAcquire method) (.ret method .none) a.close
  | enter {a : AtomicReader Entry} : a.isOpen = true →
      Performs a .enterAcquire (.ret .enter .reader) a
  | enterClosed {a : AtomicReader Entry} : a.isOpen = false →
      Performs a .enterAcquire (.ret .enter (.raised .valueError)) a
  | iter {a : AtomicReader Entry} (i : ℕ) : a.isOpen = true → a.queues i = none →
      Performs a .iterState (.ret .iter (.iterator i)) (a.setQueue i [.zero])
  | iterClosed {a : AtomicReader Entry} : a.isOpen = false →
      Performs a .iterState (.ret .iter (.raised .valueError)) a
  | next {a : AtomicReader Entry} {i : ℕ} {queue next : List (QueuedRecord Entry)}
      {outcome : Outcome Entry} {result : Returned Value} (call : Call) :
      a.queues i = some queue → call.closed = !a.isOpen →
      readerIterNext mmdb.tree call queue = (outcome, next) →
      outcome.Renders mmdb.lookup fromEntryDataList result →
      Performs a (.nextState i) (.ret .next result) (a.setQueue i next)
  /-- The lock is not acquired; what `Reader_close` then returns `Reader__exit__` does not look at. -/
  | noLock {a : AtomicReader Entry} {p : Pc Entry Data Value} {method : Method} : p.Begins method →
      method = .metadata ∨ method = .close ∨ method = .enter ∨ method = .iter →
      Performs a p (.ret method (.raised .runtimeError)) a
  | exitNoLock {a : AtomicReader Entry} : Performs a (.closeAcquire .exit) (.ret .exit .none) a

end

end MaxMindDB.Extension
