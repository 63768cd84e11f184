import MaxMindDB.Extension.Iterator
import MaxMindDB.Lib.RwLock

/-!
# The operations of the C reader, step by step

The methods of `Reader` and `ReaderIter_next` of `maxminddb.c`, as threads run them in the
free-threaded build: a point of the code is a `Pc`, with the local variables that are live there, and
`code` is what is done at it. A step reads or writes what other threads may change at most once:
`mmdb` and `closed` of the reader, the iterator's `next`, a queued record. Whether a call of
libmaxminddb, of the allocator or of Python succeeds is up to the step's outcome.

What C does not define leads to `Pc.crashed`: `NULL` or a freed record is used, or memory outside of a
record is written.
-/

namespace MaxMindDB.Extension

open Octets RwLock

/-! ## Memory -/

/-- An `MMDB_s`, as `MMDB_open` fills it in: what libmaxminddb reports for it. -/
structure Mmdb (Entry Data : Type) where
  lookup : LibMaxMindDB Entry Data
  tree : LibTree Entry
  metadata : Except MMDBError Data

/-- `Reader_obj`, but for its lock; and how often `MMDB_close` and `free` have run on its `mmdb`. -/
structure ReaderObj (Entry Data : Type) where
  mmdb : Option (Mmdb Entry Data)
  closed : Bool
  closes : ℕ
  frees : ℕ

/-- A reader that `Reader_init` has opened. -/
def ReaderObj.opened {Entry Data : Type} (mmdb : Mmdb Entry Data) : ReaderObj Entry Data :=
  ⟨some mmdb, false, 0, 0⟩

/-- A `struct record`, with its link. -/
structure Cell (Entry : Type) where
  record : QueuedRecord Entry
  link : Option ℕ

/-- The reader, the records that are allocated and not freed, the first address that has not been
handed out, the iterators' `next`, and how many iterators there are. -/
structure Memory (Entry Data : Type) where
  reader : ReaderObj Entry Data
  cells : ℕ → Option (Cell Entry)
  brk : ℕ
  next : ℕ → Option ℕ
  made : ℕ

namespace Memory

variable {Entry Data : Type}

/-- The memory once `Reader_init` has opened the reader. -/
def opened (mmdb : Mmdb Entry Data) : Memory Entry Data :=
  ⟨.opened mmdb, fun _ => none, 0, fun _ => none, 0⟩

/-- `calloc`, where it succeeds, with what the record is then filled with. -/
def calloc (m : Memory Entry Data) (cell : Cell Entry) : Memory Entry Data :=
  { m with cells := Function.update m.cells m.brk (some cell), brk := m.brk + 1 }

/-- `free` of a record. -/
def free (m : Memory Entry Data) (cur : ℕ) : Memory Entry Data :=
  { m with cells := Function.update m.cells cur none }

/-- `cur->next = link`. -/
def setLink (m : Memory Entry Data) (cur : ℕ) (link : Option ℕ) : Memory Entry Data :=
  { m with cells := Function.update m.cells cur ((m.cells cur).map ({ · with link })) }

/-- `ri->next = next`. -/
def setNext (m : Memory Entry Data) (i : ℕ) (next : Option ℕ) : Memory Entry Data :=
  { m with next := Function.update m.next i next }

/-- A further iterator, on a record. -/
def addIterator (m : Memory Entry Data) (next : ℕ) : Memory Entry Data :=
  { m with next := Function.update m.next m.made (some next), made := m.made + 1 }

end Memory

/-! ## Points -/

/-- The methods. -/
inductive Method where
  | get
  | getWithPrefixLen
  | metadata
  | close
  | enter
  | exit
  | iter
  | next
  deriving DecidableEq

/-- What a method returns. -/
inductive Returned (Value : Type) where
  | raised (error : PyErr)
  /-- `PyExc_IOError`, which only `Reader_metadata` raises. -/
  | raisedIOError
  | record (record : Option Value)
  | recordWithPrefixLen (record : Option Value) (prefixLen : ℕ)
  | metadata (dict : Value)
  /-- `Py_None`, from `close` and `__exit__`. -/
  | none
  | reader
  | iterator (i : ℕ)
  | item (address : Bytes) (prefixLen : ℤ) (record : Value)
  /-- `NULL`, with no exception set. -/
  | stopIteration

/-- An exception has been set. -/
def Returned.Raises {Value : Type} : Returned Value → Prop
  | .raised _ | .raisedIOError => True
  | _ => False

/-- The points of the code. The points of `get_record` are those of the method that calls it. -/
inductive Pc (Entry Data Value : Type) where
  | getParse (method : Method) (arg : Except PyErr IPAddress)
  | getAcquire (method : Method) (address : IPAddress)
  | getLoad (method : Method) (address : IPAddress)
  | getLookup (method : Method) (address : IPAddress) (mmdb : Mmdb Entry Data)
  | getNetmask (method : Method) (address : IPAddress) (mmdb : Mmdb Entry Data)
    (result : LookupResult Entry)
  | getEntries (method : Method) (mmdb : Mmdb Entry Data) (entry : Entry) (prefixLen : ℕ)
  | getConvert (method : Method) (data : Data) (prefixLen : ℕ)
  | getUnlock (method : Method) (record : Option Value) (prefixLen : ℕ)
  | getBuild (method : Method) (record : Option Value) (prefixLen : ℕ)
  | getUnlockError (method : Method) (error : PyErr)
  | getFormat (method : Method) (error : PyErr)
  | metadataState
  | metadataAcquire
  | metadataTest
  | metadataEntries
  | metadataConvert (data : Data)
  | metadataUnlock (dict : Value)
  | metadataNew (dict : Value)
  | closeAcquire (method : Method)
  | closeTest (method : Method)
  | closeClose (method : Method)
  | closeFree (method : Method)
  | closeNull (method : Method)
  | closeSet (method : Method)
  | closeUnlock (method : Method)
  | enterAcquire
  | enterTest
  | enterUnlock
  | iterState
  | iterAcquire
  | iterTest
  | iterUnlock
  | iterAlloc
  | iterCalloc
  | nextState (i : ℕ)
  | nextAcquire (i : ℕ)
  | nextTest (i : ℕ)
  | nextWhile (i : ℕ)
  | nextLoad (i : ℕ)
  | nextStore (i cur : ℕ)
  | nextSwitch (i cur : ℕ)
  | nextSkip (i cur : ℕ)
  | nextReadNode (i cur : ℕ)
  | nextLeft (i cur : ℕ) (node : SearchNode Entry)
  | nextRight (i cur : ℕ) (node : SearchNode Entry) (left : ℕ)
  | nextTail (i cur left right : ℕ)
  | nextLink (i cur left : ℕ)
  | nextFree (i cur : ℕ)
  | nextEntries (i cur : ℕ)
  | nextConvert (i cur : ℕ) (data : Data)
  | nextNetwork (i cur : ℕ) (record : Value)
  | nextBuild (i cur : ℕ) (address : Bytes) (prefixLen : ℤ) (record : Value)
  | nextUnlock (frees : List ℕ) (result : Returned Value)
  | nextFrees (frees : List ℕ) (result : Returned Value)
  /-- The lock is released, and the method returns. -/
  | unlock (method : Method) (result : Returned Value)
  | ret (method : Method) (result : Returned Value)
  /-- What C does not define has happened, while the lock was held or after it was released. -/
  | crashed
  | crashedUnlocked

/-! ## Code -/

section

variable {Entry Data Value : Type}

/-- The instruction at a point of the code, over a memory of this program. -/
abbrev Op (Entry Data Value : Type) : Type :=
  Instr (Memory Entry Data) Bool (Pc Entry Data Value)

/-- Go on at a point that depends on the memory and on whether the call made succeeds. -/
def look (f : Bool → Memory Entry Data → Pc Entry Data Value) : Op Entry Data Value :=
  .act fun ok m => (m, f ok m)

/-- Dereference `mmdb` of the reader, which an entry also points to. -/
def withMmdb (m : Memory Entry Data) (f : Mmdb Entry Data → Pc Entry Data Value) :
    Pc Entry Data Value :=
  match m.reader.mmdb with
  | none => .crashed
  | some mmdb => f mmdb

/-- Dereference a record. -/
def withCell (m : Memory Entry Data) (cur : ℕ)
    (f : QueuedRecord Entry → Option ℕ → Memory Entry Data × Pc Entry Data Value) :
    Memory Entry Data × Pc Entry Data Value :=
  match m.cells cur with
  | none => (m, .crashed)
  | some cell => f cell.record cell.link

theorem withMmdb_of {C : Pc Entry Data Value → Prop} {m : Memory Entry Data}
    {f : Mmdb Entry Data → Pc Entry Data Value} (hcrash : C .crashed) (h : ∀ mmdb, C (f mmdb)) :
    C (withMmdb m f) := by
  unfold withMmdb
  split
  · exact hcrash
  · exact h _

theorem withCell_of {C : Memory Entry Data × Pc Entry Data Value → Prop} {m : Memory Entry Data}
    {cur : ℕ} {f : QueuedRecord Entry → Option ℕ → Memory Entry Data × Pc Entry Data Value}
    (hcrash : C (m, .crashed)) (h : ∀ record link, C (f record link)) : C (withCell m cur f) := by
  unfold withCell
  split
  · exact hcrash
  · exact h _ _

/-- What is done with a record commutes with a change of memory that leaves the record as it is. -/
theorem withCell_comm (change : Memory Entry Data → Memory Entry Data) {m : Memory Entry Data}
    {cur : ℕ} {f f' : QueuedRecord Entry → Option ℕ → Memory Entry Data × Pc Entry Data Value}
    (hcur : (change m).cells cur = m.cells cur)
    (h : ∀ record link, f' record link = (change (f record link).1, (f record link).2)) :
    withCell (change m) cur f' = (change (withCell m cur f).1, (withCell m cur f).2) := by
  unfold withCell
  rw [hcur]
  cases m.cells cur with
  | none => rfl
  | some cell => exact h _ _

variable [Inhabited Entry] (fromEntryDataList : Data → Except PyErr Value) (isDict : Value → Bool)

/-- The code: `get_record` with `Reader_get` and `Reader_get_with_prefix_len`, `Reader_metadata`,
`Reader_close` with `Reader__exit__`, `Reader__enter__`, `Reader_iter` and `ReaderIter_next`. -/
def code : Pc Entry Data Value → Op Entry Data Value
  -- `get_record`
  | .getParse method arg => look fun ok _ => match ok, arg with
    -- the module has no state
    | false, _ => .ret method (.raised .propagated)
    | true, .error error => .ret method (.raised error)
    | true, .ok address => .getAcquire method address
  | .getAcquire method address =>
    .acquire .shared (.getLoad method address) (.ret method (.raised .runtimeError))
  | .getLoad method address => look fun _ m => match m.reader.mmdb with
    | none => .unlock method (.raised .valueError)
    | some mmdb => .getLookup method address mmdb
  | .getLookup method address mmdb => look fun _ _ => match mmdb.lookup.lookupSockaddr address with
    | .error .ipv6LookupInIPv4Database => .getUnlockError method .valueError
    | .error (.other _) => .getUnlockError method .maxMindDBError
    | .ok result => .getNetmask method address mmdb result
  | .getNetmask method address mmdb result => look fun _ _ =>
    let prefixLen := result.netmask
    let prefixLen :=
      if address.version = .v4 ∧ mmdb.lookup.ipVersion = 6 then
        if 96 ≤ prefixLen then prefixLen - 96 else 0
      else prefixLen
    if !result.foundEntry then .getUnlock method none prefixLen
    else .getEntries method mmdb result.entry prefixLen
  | .getEntries method mmdb entry prefixLen => look fun ok _ =>
    match ok, mmdb.lookup.getEntryDataList entry with
    | true, .ok data => .getConvert method data prefixLen
    | _, _ => .getUnlockError method .maxMindDBError
  | .getConvert method data prefixLen => look fun ok _ => match ok, fromEntryDataList data with
    | true, .ok record => .getUnlock method (some record) prefixLen
    | true, .error error => .unlock method (.raised error)
    | false, _ => .unlock method (.raised .propagated)
  | .getUnlock method record prefixLen => .release .shared (.getBuild method record prefixLen)
  | .getBuild method record prefixLen => look fun ok _ =>
    if method = .getWithPrefixLen then
      if ok then .ret method (.recordWithPrefixLen record prefixLen)
      else .ret method (.raised .propagated)
    else .ret method (.record record)
  | .getUnlockError method error => .release .shared (.getFormat method error)
  -- `format_sockaddr` sets an error of its own
  | .getFormat method error => look fun ok _ =>
    .ret method (.raised (if ok then error else .runtimeError))
  -- `Reader_metadata`
  | .metadataState => look fun ok _ =>
    if ok then .metadataAcquire else .ret .metadata (.raised .propagated)
  | .metadataAcquire =>
    .acquire .shared .metadataTest (.ret .metadata (.raised .runtimeError))
  | .metadataTest => look fun _ m => match m.reader.mmdb with
    | none => .unlock .metadata .raisedIOError
    | some _ => .metadataEntries
  | .metadataEntries => look fun ok m => withMmdb m fun mmdb => match ok, mmdb.metadata with
    | true, .ok data => .metadataConvert data
    | _, _ => .unlock .metadata (.raised .maxMindDBError)
  | .metadataConvert data => look fun ok _ => match ok, fromEntryDataList data with
    | true, .ok dict =>
      if isDict dict then .metadataUnlock dict else .unlock .metadata (.raised .maxMindDBError)
    | _, _ => .unlock .metadata (.raised .maxMindDBError)
  | .metadataUnlock dict => .release .shared (.metadataNew dict)
  | .metadataNew dict => look fun ok _ =>
    .ret .metadata (if ok then .metadata dict else .raised .propagated)
  -- `Reader_close`, whose result `Reader__exit__` does not look at
  | .closeAcquire method =>
    .acquire .exclusive (.closeTest method)
      (.ret method (if method = .exit then .none else .raised .runtimeError))
  | .closeTest method => look fun _ m => match m.reader.mmdb with
    | none => .closeSet method
    | some _ => .closeClose method
  | .closeClose method => .act fun _ m =>
    ({ m with reader.closes := m.reader.closes + 1 }, .closeFree method)
  | .closeFree method => .act fun _ m =>
    ({ m with reader.frees := m.reader.frees + 1 }, .closeNull method)
  | .closeNull method => .act fun _ m => ({ m with reader.mmdb := none }, .closeSet method)
  | .closeSet method => .act fun _ m => ({ m with reader.closed := true }, .closeUnlock method)
  | .closeUnlock method => .release .exclusive (.ret method .none)
  -- `Reader__enter__`
  | .enterAcquire => .acquire .shared .enterTest (.ret .enter (.raised .runtimeError))
  | .enterTest => look fun _ m =>
    if m.reader.closed then .unlock .enter (.raised .valueError) else .enterUnlock
  | .enterUnlock => .release .shared (.ret .enter .reader)
  -- `Reader_iter`
  | .iterState => look fun ok _ => if ok then .iterAcquire else .ret .iter (.raised .propagated)
  | .iterAcquire => .acquire .shared .iterTest (.ret .iter (.raised .runtimeError))
  | .iterTest => look fun _ m =>
    if m.reader.closed then .unlock .iter (.raised .valueError) else .iterUnlock
  | .iterUnlock => .release .shared .iterAlloc
  | .iterAlloc => look fun ok _ => if ok then .iterCalloc else .ret .iter (.raised .propagated)
  | .iterCalloc => .act fun ok m =>
    if ok then
      ((m.calloc ⟨.zero, none⟩).addIterator m.brk, .ret .iter (.iterator m.made))
    else (m, .ret .iter (.raised .noMemory))
  -- `ReaderIter_next`
  | .nextState i => look fun ok _ => if ok then .nextAcquire i else .ret .next (.raised .propagated)
  | .nextAcquire i => .acquire .shared (.nextTest i) (.ret .next (.raised .runtimeError))
  | .nextTest i => look fun _ m =>
    if m.reader.closed then .unlock .next (.raised .valueError) else .nextWhile i
  | .nextWhile i => look fun _ m => match m.next i with
    | none => .unlock .next .stopIteration
    | some _ => .nextLoad i
  | .nextLoad i => look fun _ m => match m.next i with
    | none => .crashed
    | some cur => .nextStore i cur
  | .nextStore i cur => .act fun _ m =>
    withCell m cur fun _ link => (m.setNext i link, .nextSwitch i cur)
  | .nextSwitch i cur => .act fun _ m => withCell m cur fun record _ => (m, match record.type with
    | .invalid => .nextUnlock [cur] (.raised .maxMindDBError)
    | .searchNode => .nextSkip i cur
    | .empty => .nextFree i cur
    | .data => .nextEntries i cur
    | .unknown _ => .nextUnlock [cur] (.raised .maxMindDBError))
  | .nextSkip i cur => .act fun _ m => withCell m cur fun record _ => (m, withMmdb m fun mmdb =>
    if record.record = mmdb.tree.ipv4StartNode ∧ isIpv6 record.ipPacked then .nextFree i cur
    else .nextReadNode i cur)
  | .nextReadNode i cur => .act fun ok m =>
    withCell m cur fun record _ => (m, withMmdb m fun mmdb =>
      if ok then .nextLeft i cur (mmdb.tree.readNode (record.record % 2 ^ 32))
      else .nextUnlock [cur] (.raised .maxMindDBError))
  | .nextLeft i cur node => .act fun ok m =>
    if ok then withCell m cur fun record _ =>
      (m.calloc ⟨node.left.queue record.ipPacked (record.depth + 1), none⟩,
        .nextRight i cur node m.brk)
    else (m, .nextUnlock [cur] (.raised .noMemory))
  | .nextRight i cur node left => .act fun ok m =>
    if ok then withCell m cur fun record _ => match setBit record.ipPacked record.depth with
      | none => (m, .crashed)
      | some ipPacked => withCell m left fun _ _ =>
        ((m.calloc ⟨node.right.queue ipPacked (record.depth + 1), none⟩).setLink left (some m.brk),
          .nextTail i cur left m.brk)
    else (m, .nextUnlock [cur, left] (.raised .noMemory))
  | .nextTail i cur left right => .act fun _ m => withCell m right fun _ _ =>
    (m.setLink right (m.next i), .nextLink i cur left)
  | .nextLink i cur left => .act fun _ m => (m.setNext i (some left), .nextFree i cur)
  | .nextFree i cur => .act fun _ m => withCell m cur fun _ _ => (m.free cur, .nextWhile i)
  | .nextEntries i cur => .act fun ok m =>
    withCell m cur fun record _ => (m, withMmdb m fun mmdb =>
      match ok, mmdb.lookup.getEntryDataList record.entry with
      | true, .ok data => .nextConvert i cur data
      | _, _ => .nextUnlock [cur] (.raised .maxMindDBError))
  | .nextConvert i cur data => look fun ok _ => match ok, fromEntryDataList data with
    | true, .ok record => .nextNetwork i cur record
    | true, .error error => .nextUnlock [cur] (.raised error)
    | false, _ => .nextUnlock [cur] (.raised .propagated)
  | .nextNetwork i cur value => .act fun _ m =>
    withCell m cur fun record _ => (m, withMmdb m fun mmdb =>
      let ipStart := if mmdb.tree.depth = 128 ∧ !isIpv6 record.ipPacked then 12 else 0
      let ipLength := if mmdb.tree.depth = 128 ∧ isIpv6 record.ipPacked then 16 else 4
      .nextBuild i cur (slice record.ipPacked ipStart (ipStart + ipLength))
        (record.depth - ipStart * 8) value)
  -- `ip_network` is Python code, taken to return and to leave the reader as it is
  | .nextBuild _ cur address prefixLen value => look fun ok _ =>
    .nextUnlock [cur] (if ok then .item address prefixLen value else .raised .propagated)
  | .nextUnlock frees result => .release .shared (.nextFrees frees result)
  | .nextFrees frees result => .act fun _ m => match frees with
    | [] => (m, .ret .next result)
    | cur :: frees => match m.cells cur with
      | none => (m, .crashedUnlocked)
      | some _ => (m.free cur, .nextFrees frees result)
  | .unlock method result => .release .shared (.ret method result)
  | .ret _ _ => .done
  | .crashed => look fun _ _ => .crashed
  | .crashedUnlocked => look fun _ _ => .crashedUnlocked

end

/-! ## Threads -/

section

variable {Entry Data Value : Type}

/-- The iterator that a call of `ReaderIter_next` is on, while it uses it. -/
def Pc.iterator : Pc Entry Data Value → Option ℕ
  | .nextState i | .nextAcquire i | .nextTest i | .nextWhile i | .nextLoad i | .nextStore i _
  | .nextSwitch i _ | .nextSkip i _ | .nextReadNode i _ | .nextLeft i _ _ | .nextRight i _ _ _
  | .nextTail i _ _ _ | .nextLink i _ _ | .nextFree i _ | .nextEntries i _ | .nextConvert i _ _
  | .nextNetwork i _ _ | .nextBuild i _ _ _ _ => some i
  | _ => none

/-- A point that uses `mmdb`, or what it maps: the entry of a queued record, and the entry data that
points into it. -/
def Pc.UsesMmdb : Pc Entry Data Value → Prop
  | .getLookup _ _ _ | .getNetmask _ _ _ _ | .getEntries _ _ _ _ | .getConvert _ _ _
  | .metadataEntries | .metadataConvert _
  | .nextSkip _ _ | .nextReadNode _ _ | .nextEntries _ _ | .nextConvert _ _ _ | .nextNetwork _ _ _
  | .closeClose _ => True
  | _ => False

/-- `Reader_close` has acquired the lock and not released it. -/
def Pc.Closing : Pc Entry Data Value → Prop
  | .closeTest _ | .closeClose _ | .closeFree _ | .closeNull _ | .closeSet _ | .closeUnlock _ => True
  | _ => False

/-- The calls a thread may make: any of the methods, and `next` on an iterator that exists. -/
inductive Starts {ι : Type*} (s : State ι (Memory Entry Data) (Pc Entry Data Value)) (t : ι) :
    Pc Entry Data Value → Prop where
  | get (arg : Except PyErr IPAddress) : Starts s t (.getParse .get arg)
  | getWithPrefixLen (arg : Except PyErr IPAddress) : Starts s t (.getParse .getWithPrefixLen arg)
  | metadata : Starts s t .metadataState
  | close : Starts s t (.closeAcquire .close)
  | enter : Starts s t .enterAcquire
  | exit : Starts s t (.closeAcquire .exit)
  | iter : Starts s t .iterState
  | next {i : ℕ} : i < s.memory.made → Starts s t (.nextState i)

/-- The calls a thread may make when no two calls of `next` are on one iterator at a time. -/
def StartsDistinct {ι : Type*} (s : State ι (Memory Entry Data) (Pc Entry Data Value)) (t : ι)
    (p : Pc Entry Data Value) : Prop :=
  Starts s t p ∧ ∀ i, p.iterator = some i → ∀ u q, s.threads u = some q → q.iterator ≠ some i

end

end MaxMindDB.Extension
