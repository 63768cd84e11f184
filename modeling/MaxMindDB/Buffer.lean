import MaxMindDB.Value

/-!
# Database buffers

A reader works on any object that can be indexed, sliced and searched: a byte string
(`MODE_MEMORY`, and equally a memory map), or a `FileBuffer` that reads the file on every access
(`MODE_FILE`). Offsets are natural numbers, and no slice the reader takes ends before it starts.
-/

namespace MaxMindDB

open Octets

/-- What the decoder needs of a buffer: `buffer[i]` and `buffer[i:j]`. -/
structure Sliceable where
  getItem : ℕ → Except Exc UInt8
  getSlice : ℕ → ℕ → Bytes

/-- What the reader needs of a buffer: also `buffer.rfind(needle, start)`, `none` for `-1`. -/
structure Buffer extends Sliceable where
  rfind : Bytes → ℕ → Except Exc (Option ℕ)
  size : ℕ

/-- `b[i]` for a byte string. -/
def bytesGetItem (b : Bytes) (i : ℕ) : Except Exc UInt8 :=
  match b[i]? with
  | some x => .ok x
  | none => .error .indexError

/-- A byte string as what the decoder needs. -/
def Sliceable.ofBytes (b : Bytes) : Sliceable where
  getItem := bytesGetItem b
  getSlice := slice b

/-- A byte string as a buffer. -/
def Buffer.ofBytes (b : Bytes) : Buffer where
  toSliceable := .ofBytes b
  rfind needle start := .ok (Octets.rfind b needle start)
  size := b.length

@[simp] theorem Sliceable.ofBytes_getItem (b : Bytes) (i : ℕ) :
    (Sliceable.ofBytes b).getItem i = bytesGetItem b i := rfl

@[simp] theorem Sliceable.ofBytes_getSlice (b : Bytes) (i j : ℕ) :
    (Sliceable.ofBytes b).getSlice i j = slice b i j := rfl

@[simp] theorem Buffer.ofBytes_toSliceable (b : Bytes) :
    (Buffer.ofBytes b).toSliceable = .ofBytes b := rfl

@[simp] theorem Buffer.ofBytes_size (b : Bytes) : (Buffer.ofBytes b).size = b.length := rfl

@[simp] theorem Buffer.ofBytes_rfind (b needle : Bytes) (start : ℕ) :
    (Buffer.ofBytes b).rfind needle start = .ok (Octets.rfind b needle start) := rfl

theorem bytesGetItem_eq_ok {b : Bytes} {i : ℕ} {x : UInt8} :
    bytesGetItem b i = .ok x ↔ b[i]? = some x := by
  unfold bytesGetItem
  cases b[i]? <;> simp

theorem bytesGetItem_of_le {b : Bytes} {i : ℕ} (h : b.length ≤ i) :
    bytesGetItem b i = .error .indexError := by
  unfold bytesGetItem
  rw [List.getElem?_eq_none h]

/-! ## `FileBuffer` -/

/-- `os.pread(fd, n, o)` on a file with the given content. -/
def pread (content : Bytes) (n o : ℕ) : Bytes := slice content o (o + n)

/-- A slice-able file reader: the file behind its handle, and the size `fstat` reported. -/
structure FileBuffer where
  content : Bytes
  size : ℕ

namespace FileBuffer

/-- `FileBuffer(database)`. -/
def new (content : Bytes) : FileBuffer := ⟨content, content.length⟩

/-- `_read`, with `pread`: a negative size is an error. -/
def read (fb : FileBuffer) (buffersize : ℤ) (offset : ℕ) : Except Exc Bytes :=
  if buffersize < 0 then .error .osError else .ok (pread fb.content buffersize.toNat offset)

/-- `__getitem__` with an integer. -/
def getItem (fb : FileBuffer) (index : ℕ) : Except Exc UInt8 := do
  bytesGetItem (← fb.read 1 index) 0

/-- `__getitem__` with a slice. -/
def getSlice (fb : FileBuffer) (start stop : ℕ) : Bytes :=
  pread fb.content (stop - start) start

/-- `rfind`. -/
def rfind (fb : FileBuffer) (needle : Bytes) (start : ℕ) : Except Exc (Option ℕ) := do
  match Octets.rfind (← fb.read (fb.size - start - 1) start) needle 0 with
  | none => return none
  | some pos => return some (start + pos)

/-- A `FileBuffer` as a buffer. -/
def toBuffer (fb : FileBuffer) : Buffer where
  getItem := fb.getItem
  getSlice := fb.getSlice
  rfind := fb.rfind
  size := fb.size

end FileBuffer

end MaxMindDB
