import MaxMindDB.Extension.Accounts
import MaxMindDB.Lib.RefCount

/-!
# The life of the objects

A `Reader` and its iterators are Python objects: each has a reference count, and when that comes to zero
`Reader_dealloc` or `ReaderIter_dealloc` runs. Python has some of the references; a call has one to its
`self`, and an iterator one to its reader. `Lives` is what may happen to them: Python copies and drops
references and calls methods, in any interleaving with the deallocations.

What an object has of its heap type is not counted: neither deallocation drops that reference.

Each deallocation goes on by itself here. In C, where `ReaderIter_dealloc` drops the last reference to the
reader, `Reader_dealloc` runs before the records are freed: that is one of the orders.
-/

namespace MaxMindDB.Extension

open Octets OwnedList RefCount RwLock

variable {ι : Type*} {Entry Data Value : Type}

/-! ## Worlds -/

/-- The objects. -/
inductive Obj where
  | reader
  | iterator (i : ℕ)
  deriving DecidableEq

/-- How far `ReaderIter_dealloc` is. -/
inductive IterDealloc where
  | decref
  /-- The loop has come to this record, or to the end. -/
  | walk (next : Option ℕ)
  | gone
  /-- A record that has been freed is used. -/
  | crashed

/-- How far `Reader_dealloc` is, if it runs; `closed` says that `Reader_close` has not failed. -/
inductive Life (ι : Type*) where
  | alive
  | dealloc
  | closing (t : ι)
  | destroy (closed : Bool)
  | gone (closed : Bool)

/-- The threads and their memory, the object that the call of each thread is on, the reference count of
each object and how many of its references Python has, and the deallocations. -/
structure World (ι : Type*) (Entry Data Value : Type) where
  state : State ι (Memory Entry Data) (Pc Entry Data Value)
  self : ι → Option Obj
  refcnt : Obj → ℕ
  vars : Obj → ℕ
  dying : ℕ → Option IterDealloc
  life : Life ι

namespace World

/-- Python has the only reference to a reader that `Reader_init` has opened. -/
def opened (mmdb : Mmdb Entry Data) : World ι Entry Data Value where
  state := State.init (.opened mmdb)
  self _ := none
  refcnt := Function.update (fun _ => 0) .reader 1
  vars := Function.update (fun _ => 0) .reader 1
  dying _ := none
  life := .alive

def setRefcnt (w : World ι Entry Data Value) (o : Obj) (n : ℕ) : World ι Entry Data Value :=
  { w with refcnt := Function.update w.refcnt o n }

def setVars (w : World ι Entry Data Value) (o : Obj) (n : ℕ) : World ι Entry Data Value :=
  { w with vars := Function.update w.vars o n }

def setDying (w : World ι Entry Data Value) (i : ℕ) (x : IterDealloc) : World ι Entry Data Value :=
  { w with dying := Function.update w.dying i (some x) }

/-- A thread goes to a point of a call on an object, or is in no call. -/
def move [DecidableEq ι] (w : World ι Entry Data Value) (t : ι) (p : Option (Pc Entry Data Value))
    (o : Option Obj) : World ι Entry Data Value :=
  { w with state := w.state.move t p, self := Function.update w.self t o }

def setState (w : World ι Entry Data Value) (s : State ι (Memory Entry Data) (Pc Entry Data Value)) :
    World ι Entry Data Value := { w with state := s }

def setMemory (w : World ι Entry Data Value) (m : Memory Entry Data) : World ι Entry Data Value :=
  { w with state.memory := m }

def setLife (w : World ι Entry Data Value) (life : Life ι) : World ι Entry Data Value :=
  { w with life }

/-- `_Py_Dealloc`. -/
def dealloc (w : World ι Entry Data Value) : Obj → World ι Entry Data Value
  | .reader => w.setLife .dealloc
  | .iterator i => w.setDying i .decref

/-- `Py_INCREF`. -/
def incref (w : World ι Entry Data Value) (o : Obj) : World ι Entry Data Value :=
  w.setRefcnt o (w.refcnt o + 1)

/-- `Py_DECREF`. -/
def decref (w : World ι Entry Data Value) (o : Obj) : World ι Entry Data Value :=
  if w.refcnt o - 1 = 0 then (w.setRefcnt o 0).dealloc o else w.setRefcnt o (w.refcnt o - 1)

/-- A reference becomes Python's. -/
def addVar (w : World ι Entry Data Value) (o : Obj) : World ι Entry Data Value :=
  w.setVars o (w.vars o + 1)

/-- A reference is Python's no more. -/
def dropVar (w : World ι Entry Data Value) (o : Obj) : World ι Entry Data Value :=
  w.setVars o (w.vars o - 1)

/-- Python gets what a method returns: `self` of `Reader__enter__` with a new reference, the iterator of
`Reader_iter` with the one that it was made with. -/
def give (w : World ι Entry Data Value) : Method → Returned Value → World ι Entry Data Value
  | .enter, .reader => (w.incref .reader).addVar .reader
  | .iter, .iterator i => w.addVar (.iterator i)
  | _, _ => w

end World

/-! ## What may happen -/

/-- The object that a call begins on. -/
def Pc.object (p : Pc Entry Data Value) : Obj := p.iterator.elim .reader .iterator

section

variable [DecidableEq ι] [Inhabited Entry] (fromEntryDataList : Data → Except PyErr Value)
  (isDict : Value → Bool)

/-- What may happen next. -/
inductive Lives : World ι Entry Data Value → World ι Entry Data Value → Prop where
  | dup {w : World ι Entry Data Value} {o : Obj} : w.vars o ≠ 0 → Lives w ((w.incref o).addVar o)
  | drop {w : World ι Entry Data Value} {o : Obj} : w.vars o ≠ 0 → Lives w ((w.dropVar o).decref o)
  | call {w : World ι Entry Data Value} {t : ι} {p : Pc Entry Data Value} :
      w.state.threads t = none → w.vars p.object ≠ 0 → StartsDistinct w.state t p →
      Lives w ((w.move t (some p) (some p.object)).incref p.object)
  | ret {w : World ι Entry Data Value} {t : ι} {o : Obj} {method : Method} {result : Returned Value} :
      w.state.threads t = some (.ret method result) → w.self t = some o →
      Lives w (((w.move t none none).give method result).decref o)
  | inner {w : World ι Entry Data Value}
      {s : State ι (Memory Entry Data) (Pc Entry Data Value)} {t : ι} {p q : Pc Entry Data Value} :
      Passage (code fromEntryDataList isDict) StartsDistinct w.state s t p q → p ≠ .iterCalloc →
      q ≠ .iterCalloc → Lives w (w.setState s)
  /-- `Reader_iter` has allocated `ri`, which refers to the reader. -/
  | iterAlloc {w : World ι Entry Data Value}
      {s : State ι (Memory Entry Data) (Pc Entry Data Value)} {t : ι} {p : Pc Entry Data Value} :
      Passage (code fromEntryDataList isDict) StartsDistinct w.state s t p .iterCalloc →
      Lives w ((w.setState s).incref .reader)
  /-- `ri` has a record, and with it a number. Its count is 1 since it was allocated. -/
  | iterCalloc {w : World ι Entry Data Value}
      {s : State ι (Memory Entry Data) (Pc Entry Data Value)} {t : ι} {i : ℕ} :
      Passage (code fromEntryDataList isDict) StartsDistinct w.state s t .iterCalloc
        (.ret .iter (.iterator i)) →
      Lives w ((w.setState s).setRefcnt (.iterator i) 1)
  /-- `ri` is deallocated without a record. -/
  | iterFails {w : World ι Entry Data Value}
      {s : State ι (Memory Entry Data) (Pc Entry Data Value)} {t : ι} {error : PyErr} :
      Passage (code fromEntryDataList isDict) StartsDistinct w.state s t .iterCalloc
        (.ret .iter (.raised error)) →
      Lives w ((w.setState s).decref .reader)
  -- `ReaderIter_dealloc`; `ri->next` is not used behind its load
  | deallocDecref {w : World ι Entry Data Value} {i : ℕ} : w.dying i = some .decref →
      Lives w (((w.setMemory (w.state.memory.setNext i none)).setDying i
        (.walk (w.state.memory.next i))).decref .reader)
  | deallocFree {w : World ι Entry Data Value} {i cur : ℕ} {cell : Cell Entry} :
      w.dying i = some (.walk (some cur)) → w.state.memory.cells cur = some cell →
      Lives w ((w.setMemory (w.state.memory.free cur)).setDying i (.walk cell.link))
  | deallocCrash {w : World ι Entry Data Value} {i cur : ℕ} :
      w.dying i = some (.walk (some cur)) → w.state.memory.cells cur = none →
      Lives w (w.setDying i .crashed)
  | deallocDel {w : World ι Entry Data Value} {i : ℕ} : w.dying i = some (.walk none) →
      Lives w (w.setDying i .gone)
  -- `Reader_dealloc`
  | deallocTest {w : World ι Entry Data Value} : w.life = .dealloc → w.state.memory.reader.mmdb = none →
      Lives w (w.setLife (.destroy true))
  | deallocClose {w : World ι Entry Data Value} {t : ι} : w.life = .dealloc →
      w.state.memory.reader.mmdb ≠ none → w.state.threads t = none →
      Lives w ((w.move t (some (.closeAcquire .close)) none).setLife (.closing t))
  | deallocClosed {w : World ι Entry Data Value} {t : ι} {result : Returned Value} {closed : Bool} :
      w.life = .closing t → w.state.threads t = some (.ret .close result) →
      (closed = true ↔ result = .none) →
      Lives w ((w.move t none none).setLife (.destroy closed))
  /-- `reader_lock_destroy` and `PyObject_Del`. -/
  | deallocDestroy {w : World ι Entry Data Value} {closed : Bool} : w.life = .destroy closed →
      Lives w (w.setLife (.gone closed))

end

end MaxMindDB.Extension
