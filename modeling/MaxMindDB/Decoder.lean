import MaxMindDB.Buffer
import Mathlib.Tactic.NormNum

/-!
# The decoder

`Decoder.decode` follows `decoder.py`. A field starts with a control byte; three of its bits are
the type, or zero when the type stands in the next byte, and five are the size, or the first part
of it. `limit` bounds how many calls of `decode` may be in progress, as the interpreter bounds
nested calls; past it `RecursionError` is raised.
-/

namespace MaxMindDB

open Octets

/-! ## `struct.unpack` and `bytes.decode` -/

/-- `struct.unpack` of one unsigned big-endian number of `n` bytes. -/
def unpack (n : ℕ) (bs : Bytes) : Except Exc ℕ :=
  if bs.length = n then .ok (beNat bs) else .error .structError

/-- The number whose two's complement in 32 bits is `n`. -/
def toInt32 (n : ℕ) : ℤ := if n < 2 ^ 31 then n else n - 2 ^ 32

/-- `bs.decode("utf-8")`. -/
def decodeUtf8 (bs : Bytes) : Except Exc String :=
  match String.fromUTF8? ⟨bs.toArray⟩ with
  | some s => .ok s
  | none => .error .unicodeDecodeError

/-- `s.encode("utf-8")`. -/
def encodeUtf8 (s : String) : Bytes := s.toByteArray.data.toList

@[simp] theorem decodeUtf8_encodeUtf8 (s : String) : decodeUtf8 (encodeUtf8 s) = .ok s := by
  have h : (⟨(encodeUtf8 s).toArray⟩ : ByteArray) = s.toByteArray := by simp [encodeUtf8]
  unfold decodeUtf8
  rw [h, String.fromUTF8?, dif_pos s.isValidUTF8]
  rfl

theorem unpack_of_length {n : ℕ} {bs : Bytes} (h : bs.length = n) : unpack n bs = .ok (beNat bs) := by
  rw [unpack, if_pos h]

/-! ## Field types -/

/-- The types a decoder function is registered for. -/
inductive FieldType where
  | pointer | utf8String | double | bytes | uint16 | uint32 | map | int32 | uint64 | uint128
  | array | boolean | float
  deriving DecidableEq

/-- `_type_decoder`. -/
def typeDecoder : ℕ → Option FieldType
  | 1 => some .pointer
  | 2 => some .utf8String
  | 3 => some .double
  | 4 => some .bytes
  | 5 => some .uint16
  | 6 => some .uint32
  | 7 => some .map
  | 8 => some .int32
  | 9 => some .uint64
  | 10 => some .uint128
  | 11 => some .array
  | 14 => some .boolean
  | 15 => some .float
  | _ => none

/-- The type number of a field. -/
def FieldType.num : FieldType → ℕ
  | .pointer => 1
  | .utf8String => 2
  | .double => 3
  | .bytes => 4
  | .uint16 => 5
  | .uint32 => 6
  | .map => 7
  | .int32 => 8
  | .uint64 => 9
  | .uint128 => 10
  | .array => 11
  | .boolean => 14
  | .float => 15

theorem typeDecoder_eq_some {n : ℕ} {type : FieldType} :
    typeDecoder n = some type ↔ n = type.num := by
  constructor
  · unfold typeDecoder
    split <;> intro h <;> cases h <;> rfl
  · rintro rfl
    cases type <;> rfl

/-! ## Decoding -/

/-- A decoder of the data in `buffer`, whose pointers count from `pointerBase`. -/
structure Decoder where
  buffer : Sliceable
  pointerBase : ℕ := 0
  pointerTest : Bool := false

/-- A call of `decode`: the value at an offset, and the offset behind it. -/
abbrev DecodeCall := ℕ → Except Exc (Record × ℕ)

namespace Decoder

variable (d : Decoder)

/-- `_decode_array`, with the elements appended so far. -/
def decodeArray (decode : DecodeCall) : ℕ → ℕ → List Record → Except Exc (Record × ℕ)
  | 0, offset, array => .ok (.list array, offset)
  | size + 1, offset, array => do
    let (value, offset) ← decode offset
    decodeArray decode size offset (array ++ [value])

def decodeBoolean (size offset : ℕ) : Except Exc (Record × ℕ) := .ok (.bool (size != 0), offset)

def decodeBytes (size offset : ℕ) : Except Exc (Record × ℕ) :=
  let newOffset := offset + size
  .ok (.bytes (d.buffer.getSlice offset newOffset), newOffset)

def verifySize (expected actual : ℕ) : Except Exc Unit :=
  if expected ≠ actual then .error (.invalidDatabaseError .badData) else .ok ()

def decodeDouble (size offset : ℕ) : Except Exc (Record × ℕ) := do
  verifySize size 8
  let newOffset := offset + size
  let packedBytes := d.buffer.getSlice offset newOffset
  let _ ← unpack 8 packedBytes
  return (.double packedBytes, newOffset)

def decodeFloat (size offset : ℕ) : Except Exc (Record × ℕ) := do
  verifySize size 4
  let newOffset := offset + size
  let packedBytes := d.buffer.getSlice offset newOffset
  let _ ← unpack 4 packedBytes
  return (.float packedBytes, newOffset)

def decodeInt32 (size offset : ℕ) : Except Exc (Record × ℕ) :=
  if size = 0 then .ok (.int 0, offset) else do
    let newOffset := offset + size
    let packedBytes := d.buffer.getSlice offset newOffset
    let packedBytes := if size ≠ 4 then packedBytes.leftpad 4 0 else packedBytes
    let value ← unpack 4 packedBytes
    return (.int (toInt32 value), newOffset)

/-- `_decode_map`, with the container so far. -/
def decodeMap (decode : DecodeCall) :
    ℕ → ℕ → List (Record × Record) → Except Exc (Record × ℕ)
  | 0, offset, container => .ok (.dict container, offset)
  | size + 1, offset, container => do
    let (key, offset) ← decode offset
    let (value, offset) ← decode offset
    if key.hashable then decodeMap decode size offset (dictSet container key value)
    else .error .typeError

/-- The pointer a pointer field holds, and the offset behind the field. -/
def readPointer (size offset : ℕ) : Except Exc (ℕ × ℕ) := do
  let pointerSize := (size >>> 3) + 1
  let buf := d.buffer.getSlice offset (offset + pointerSize)
  let newOffset := offset + pointerSize
  if pointerSize = 1 then
    return ((← unpack 2 (UInt8.ofNat (size &&& 0x7) :: buf)) + d.pointerBase, newOffset)
  else if pointerSize = 2 then
    return ((← unpack 4 (0 :: UInt8.ofNat (size &&& 0x7) :: buf)) + 2048 + d.pointerBase, newOffset)
  else if pointerSize = 3 then
    return ((← unpack 4 (UInt8.ofNat (size &&& 0x7) :: buf)) + 526336 + d.pointerBase, newOffset)
  else
    return ((← unpack 4 buf) + d.pointerBase, newOffset)

/-- `_decode_pointer`: the value behind the pointer, and the offset behind the pointer itself. -/
def decodePointer (decode : DecodeCall) (size offset : ℕ) : Except Exc (Record × ℕ) := do
  let (pointer, newOffset) ← d.readPointer size offset
  if d.pointerTest then return (.int pointer, newOffset)
  let (value, _) ← decode pointer
  return (value, newOffset)

def decodeUint (size offset : ℕ) : Except Exc (Record × ℕ) :=
  let newOffset := offset + size
  let uintBytes := d.buffer.getSlice offset newOffset
  .ok (.int (beNat uintBytes), newOffset)

def decodeUtf8String (size offset : ℕ) : Except Exc (Record × ℕ) := do
  let newOffset := offset + size
  return (.str (← decodeUtf8 (d.buffer.getSlice offset newOffset)), newOffset)

/-- The decoder function registered for a type. -/
def decodeType (decode : DecodeCall) : FieldType → ℕ → ℕ → Except Exc (Record × ℕ)
  | .pointer, size, offset => d.decodePointer decode size offset
  | .utf8String, size, offset => d.decodeUtf8String size offset
  | .double, size, offset => d.decodeDouble size offset
  | .bytes, size, offset => d.decodeBytes size offset
  | .uint16, size, offset => d.decodeUint size offset
  | .uint32, size, offset => d.decodeUint size offset
  | .map, size, offset => decodeMap decode size offset []
  | .int32, size, offset => d.decodeInt32 size offset
  | .uint64, size, offset => d.decodeUint size offset
  | .uint128, size, offset => d.decodeUint size offset
  | .array, size, offset => decodeArray decode size offset []
  | .boolean, size, offset => decodeBoolean size offset
  | .float, size, offset => d.decodeFloat size offset

/-- `_read_extended`. -/
def readExtended (offset : ℕ) : Except Exc (ℕ × ℕ) := do
  let nextByte ← d.buffer.getItem offset
  let typeNum := nextByte.toNat + 7
  if typeNum < 7 then throw (.invalidDatabaseError (.extendedType typeNum))
  return (typeNum, offset + 1)

/-- `_size_from_ctrl_byte`. -/
def sizeFromCtrlByte (ctrlByte : UInt8) (offset typeNum : ℕ) : Except Exc (ℕ × ℕ) := do
  let size := ctrlByte.toNat &&& 0x1F
  if typeNum = 1 ∨ size < 29 then
    return (size, offset)
  if size = 29 then
    let size := 29 + (← d.buffer.getItem offset).toNat
    return (size, offset + 1)
  if size = 30 then
    let newOffset := offset + 2
    let sizeBytes := d.buffer.getSlice offset newOffset
    let size := 285 + (← unpack 2 sizeBytes)
    return (size, newOffset)
  let newOffset := offset + 3
  let sizeBytes := d.buffer.getSlice offset newOffset
  let size := (← unpack 4 (0 :: sizeBytes)) + 65821
  return (size, newOffset)

/-- The first part of `decode`, up to the call of a decoder function: the type of the field at
`offset`, its size, and where what follows its control bytes begins. -/
def header (offset : ℕ) : Except Exc (FieldType × ℕ × ℕ) := do
  let newOffset := offset + 1
  let ctrlByte ← d.buffer.getItem offset
  let typeNum := ctrlByte.toNat >>> 5
  let (typeNum, newOffset) ←
    if typeNum = 0 then d.readExtended newOffset else pure (typeNum, newOffset)
  match typeDecoder typeNum with
  | none => throw (.invalidDatabaseError (.unexpectedType typeNum))
  | some type =>
    let (size, newOffset) ← d.sizeFromCtrlByte ctrlByte newOffset typeNum
    return (type, size, newOffset)

/-- `decode`. -/
def decode : ℕ → DecodeCall
  | 0, _ => .error .recursionError
  | limit + 1, offset => do
    let (type, size, newOffset) ← d.header offset
    d.decodeType (decode limit) type size newOffset

end Decoder

end MaxMindDB
