import MaxMindDB.Extension.GetRecord

/-!
# Entry lists

`from_entry_data_list`, `from_map`, `from_array` and `from_uint128` of `maxminddb.c`. The three
functions that convert share the cursor `*entry_data_list`, and each leaves it on the last entry it
has used. A cursor is the list of the entries from the one it points to on, and the empty list when
it is `NULL`.

`limit` bounds how many calls of `from_entry_data_list` may be in progress, as the stack does. What
Python's constructors come to may be that they fail; an entry is met at most once, so the entries
that are left tell these calls apart.
-/

namespace MaxMindDB.Extension

open Octets

/-! ## Entries -/

/-- The union member `uint128`: an array of bytes, or a native integer of the compiler. -/
inductive MMDBUint128 where
  | byteArray (bs : Vector UInt8 16)
  | native (n : BitVec 128)

/-- `MMDB_entry_data_s`: the type, with the union member of this type and, where it is used,
`data_size`. A `double` and a `float` are their bits. -/
inductive EntryData where
  | map (dataSize : ℕ)
  | array (dataSize : ℕ)
  | utf8String (s : Bytes)
  | bytes (b : Bytes)
  | double (bits : UInt64)
  | float (bits : UInt32)
  | uint16 (n : UInt16)
  | uint32 (n : UInt32)
  | boolean (b : Bool)
  | uint64 (n : UInt64)
  | uint128 (n : MMDBUint128)
  | int32 (n : Int32)
  /-- A type that has no case: extended, pointer, container, end marker, or a number unknown. -/
  | other (type : UInt32)

/-- A Python object, as the extension makes them. A float is the one of a C `double`, or of a C
`float` that is converted to it. -/
inductive PyObj where
  | str (s : String)
  | byteArray (b : Bytes)
  | double (bits : UInt64)
  | float (bits : UInt32)
  | int (i : ℤ)
  | bool (b : Bool)
  | list (xs : List PyObj)
  | dict (items : List (String × PyObj))

/-- `PyDict_SetItem`: a present key keeps its place and takes the new value. -/
def setItem {α : Type*} : List (String × α) → String → α → List (String × α)
  | [], key, value => [(key, value)]
  | (k, v) :: items, key, value =>
    if k = key then (k, value) :: items else (k, v) :: setItem items key value

/-! ## Outcomes -/

/-- How a conversion ends that returns no object. -/
inductive Failure where
  /-- `NULL`, with an exception set. -/
  | raised (error : PyErr)
  /-- `*entry_data_list` is dereferenced, and is `NULL`. -/
  | nullDereference
  /-- A union member is read that is not the one of the entry's type. -/
  | wrongMember
  | stackOverflow

/-- Whether the calls that are made for an entry succeed. -/
structure EntryCalls where
  object : Bool
  malloc : Bool
  setItem : Bool

/-- Every call succeeds. -/
def EntryCalls.succeed : EntryCalls := ⟨true, true, true⟩

/-- The entries from the one that `*entry_data_list` points to on. -/
abbrev Cursor := List EntryData

/-- An object that is made, and where `*entry_data_list` points then. -/
abbrev ConvertCall := Cursor → Except Failure (PyObj × Cursor)

/-- `(*entry_data_list)->next`. -/
def Cursor.next : Cursor → Except Failure Cursor
  | [] => .error .nullDereference
  | _ :: rest => .ok rest

/-- `(*entry_data_list)->entry_data.utf8_string`. -/
def Cursor.utf8String : Cursor → Except Failure Bytes
  | [] => .error .nullDereference
  | .utf8String s :: _ => .ok s
  | _ :: _ => .error .wrongMember

/-! ## Integers -/

/-- The widths of a C `long`. -/
inductive CLong where
  | bits32
  | bits64
  deriving DecidableEq

/-- The number of bits of a `long`. -/
def CLong.bits : CLong → ℕ
  | .bits32 => 32
  | .bits64 => 64

/-- The conversion of an integer to a `long`. -/
def CLong.convert (long : CLong) (i : ℤ) : ℤ := i.bmod (2 ^ long.bits)

/-- A hexadecimal digit, as `%X` prints it. -/
def hexDigit (n : ℕ) : Char := Char.ofNat (if n < 10 then 48 + n else 55 + n)

/-- `%0wX`, of a number of at most `w` digits. -/
def hexDigits : ℕ → ℕ → List Char
  | 0, _ => []
  | w + 1, n => hexDigit (n / 16 ^ w % 16) :: hexDigits w n

/-- What a character is worth as a hexadecimal digit. -/
def hexValue (c : Char) : Option ℕ :=
  if 48 ≤ c.toNat ∧ c.toNat < 58 then some (c.toNat - 48)
  else if 65 ≤ c.toNat ∧ c.toNat < 71 then some (c.toNat - 55)
  else if 97 ≤ c.toNat ∧ c.toNat < 103 then some (c.toNat - 87)
  else none

/-- `PyLong_FromString(s, NULL, 16)`, of a string of hexadecimal digits. -/
def parseHex (s : List Char) : Option ℕ :=
  s.foldlM (fun n c => (hexValue c).map fun d => 16 * n + d) 0

/-- The loop over eight bytes of `uint128`. -/
def joinBytes (bs : Bytes) : UInt64 := bs.foldl (fun n x => n <<< 8 ||| x.toUInt64) 0

/-- The high half of a `uint128`. -/
def MMDBUint128.high : MMDBUint128 → UInt64
  | .byteArray bs => joinBytes (bs.toList.take 8)
  | .native n => UInt64.ofNat (n >>> 64).toNat

/-- The low half of a `uint128`. -/
def MMDBUint128.low : MMDBUint128 → UInt64
  | .byteArray bs => joinBytes (bs.toList.drop 8)
  | .native n => UInt64.ofNat n.toNat

/-- `num_str`: 32 of the characters that are printed fit in it. -/
def MMDBUint128.numStr (n : MMDBUint128) : List Char :=
  (hexDigits 16 n.high.toNat ++ hexDigits 16 n.low.toNat).take 32

/-! ## Conversions -/

section

variable (long : CLong) (calls : ℕ → EntryCalls)

/-- A call of a constructor for the entry a cursor points to. -/
def newObject (cursor : Cursor) (object : PyObj) : Except Failure PyObj :=
  if (calls cursor.length).object then .ok object else .error (.raised .noMemory)

/-- `PyUnicode_FromStringAndSize`. -/
def newUnicode (cursor : Cursor) (s : Bytes) : Except Failure String :=
  match decodeUtf8 s with
  | .ok s => if (calls cursor.length).object then .ok s else .error (.raised .noMemory)
  | .error _ => .error (.raised .propagated)

/-- `from_uint128`. -/
def fromUint128 (cursor : Cursor) (n : MMDBUint128) : Except Failure PyObj :=
  if !(calls cursor.length).malloc then .error (.raised .noMemory)
  else match parseHex n.numStr with
    | some i => newObject calls cursor (.int i)
    | none => .error (.raised .propagated)

/-- The loop of `from_map`, with the dictionary so far. -/
def mapLoop (convert : ConvertCall) : ℕ → Cursor → List (String × PyObj) →
    Except Failure (PyObj × Cursor)
  | 0, cursor, items => .ok (.dict items, cursor)
  | size + 1, cursor, items =>
    if cursor = [] then .ok (.dict items, cursor) else do
      let keyCursor ← cursor.next
      let key ← newUnicode calls keyCursor (← keyCursor.utf8String)
      let cursor ← keyCursor.next
      let (value, cursor) ← convert cursor
      -- the outcome of `PyDict_SetItem` is not looked at
      let items := if (calls keyCursor.length).setItem then setItem items key value else items
      mapLoop convert size cursor items

/-- `from_map`. -/
def fromMap (convert : ConvertCall) (size : ℕ) (cursor : Cursor) :
    Except Failure (PyObj × Cursor) := do
  let _ ← newObject calls cursor (.dict [])
  mapLoop calls convert size cursor []

/-- The loop of `from_array`, with the elements so far. -/
def arrayLoop (convert : ConvertCall) : ℕ → Cursor → List PyObj → Except Failure (PyObj × Cursor)
  | 0, cursor, xs => .ok (.list xs, cursor)
  | size + 1, cursor, xs =>
    if cursor = [] then .ok (.list xs, cursor) else do
      let cursor ← cursor.next
      let (value, cursor) ← convert cursor
      arrayLoop convert size cursor (xs ++ [value])

/-- `from_array`. -/
def fromArray (convert : ConvertCall) (size : ℕ) (cursor : Cursor) :
    Except Failure (PyObj × Cursor) := do
  let _ ← newObject calls cursor (.list [])
  arrayLoop convert size cursor []

/-- The `switch` of `from_entry_data_list`, on the entry that the cursor points to. -/
def fromEntry (convert : ConvertCall) (cursor : Cursor) : EntryData →
    Except Failure (PyObj × Cursor)
  | .map size => fromMap calls convert size cursor
  | .array size => fromArray calls convert size cursor
  | .utf8String s => do return (.str (← newUnicode calls cursor s), cursor)
  | .bytes b => do return (← newObject calls cursor (.byteArray b), cursor)
  | .double bits => do return (← newObject calls cursor (.double bits), cursor)
  | .float bits => do return (← newObject calls cursor (.float bits), cursor)
  | .uint16 n => do return (← newObject calls cursor (.int (long.convert n.toNat)), cursor)
  | .uint32 n => do return (← newObject calls cursor (.int (long.convert n.toNat)), cursor)
  | .boolean b => .ok (.bool b, cursor)
  | .uint64 n => do return (← newObject calls cursor (.int n.toNat), cursor)
  | .uint128 n => do return (← fromUint128 calls cursor n, cursor)
  | .int32 n => do return (← newObject calls cursor (.int (long.convert n.toInt)), cursor)
  | .other _ => .error (.raised .maxMindDBError)

/-- `from_entry_data_list`. -/
def fromEntryDataList : ℕ → ConvertCall
  | 0, _ => .error .stackOverflow
  | _ + 1, [] => .error (.raised .maxMindDBError)
  | limit + 1, entry :: rest => fromEntry long calls (fromEntryDataList limit) (entry :: rest) entry

end

end MaxMindDB.Extension
