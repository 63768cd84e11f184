import MaxMindDB.Lib.Octets
import MaxMindDB.Lib.Raising
import Mathlib.Data.Int.Log
import Mathlib.Data.Nat.Digits.Defs
import Mathlib.Data.Rat.Floor

/-!
# Python values and exceptions

The values a database record is made of, as the decoder builds them: strings, byte strings,
integers, booleans, floats (kept as the bytes they were read from), lists and dictionaries. A
dictionary lists its items in the order of insertion; its keys are compared as Python compares
them, so that `1`, `1.0` and `True` are one key.

Metadata fields take part in arithmetic, and nothing makes them integers, so numbers are Python's:
integers of any size, and binary64 floats with correct rounding. The sign of a zero is left out,
since no operation used here can see it.
-/

namespace MaxMindDB

open Octets

/-! ## Floats -/

/-- A binary64 number, up to the sign of a zero. -/
inductive PyFloat where
  | nan
  | inf (negative : Bool)
  | finite (q : ℚ)
  deriving DecidableEq

namespace PyFloat

/-- The number a word of the given field widths encodes (IEEE 754 binary interchange formats). -/
def ofIEEE (expBits fracBits word : ℕ) : PyFloat :=
  let negative := word.testBit (expBits + fracBits)
  let exponent := word / 2 ^ fracBits % 2 ^ expBits
  let fraction := word % 2 ^ fracBits
  let scale : ℤ := 2 ^ (expBits - 1) - 1 + fracBits
  if exponent = 2 ^ expBits - 1 then
    if fraction = 0 then .inf negative else .nan
  else
    let magnitude : ℚ :=
      if exponent = 0 then fraction * 2 ^ (1 - scale)
      else (2 ^ fracBits + fraction) * 2 ^ (exponent - scale)
    .finite (if negative then -magnitude else magnitude)

/-- The integer nearest to `q`, the even one of two. -/
def roundHalfEven (q : ℚ) : ℤ :=
  let d := q - ⌊q⌋
  if d < 1 / 2 then ⌊q⌋ else if 1 / 2 < d then ⌊q⌋ + 1 else if ⌊q⌋ % 2 = 0 then ⌊q⌋ else ⌊q⌋ + 1

/-- The binary64 number nearest to `q`. -/
def round (q : ℚ) : PyFloat :=
  if q = 0 then .finite 0 else
  let ulp : ℤ := max (Int.log 2 |q| - 52) (-1074)
  let r : ℚ := roundHalfEven (q / 2 ^ ulp) * 2 ^ ulp
  if 2 ^ 1024 ≤ |r| then .inf (q < 0) else .finite r

def neg : PyFloat → PyFloat
  | nan => nan
  | inf s => inf !s
  | finite q => finite (-q)

def add : PyFloat → PyFloat → PyFloat
  | finite p, finite q => round (p + q)
  | inf s, inf s' => if s = s' then inf s else nan
  | inf s, finite _ => inf s
  | finite _, inf s => inf s
  | _, _ => nan

def mul : PyFloat → PyFloat → PyFloat
  | finite p, finite q => round (p * q)
  | inf s, inf s' => inf (s != s')
  | inf s, finite q => if q = 0 then nan else inf (s != decide (q < 0))
  | finite q, inf s => if q = 0 then nan else inf (s != decide (q < 0))
  | _, _ => nan

/-- `x // 4`. -/
def floorDiv4 : PyFloat → PyFloat
  | finite q => finite ⌊q / 4⌋
  | _ => nan

def eq : PyFloat → PyFloat → Bool
  | finite p, finite q => p = q
  | inf s, inf s' => s = s'
  | _, _ => false

def lt : PyFloat → PyFloat → Bool
  | finite p, finite q => p < q
  | finite _, inf s => !s
  | inf s, finite _ => s
  | inf s, inf s' => s && !s'
  | _, _ => false

end PyFloat

/-! ## Records and exceptions -/

/-- A value of a database record. A `double` and a `float` are the bytes they were read from. -/
inductive Record where
  | str (s : String)
  | bytes (b : Bytes)
  | double (raw : Bytes)
  | float (raw : Bytes)
  | int (i : ℤ)
  | bool (b : Bool)
  | list (xs : List Record)
  | dict (items : List (Record × Record))

/-- The message of an `InvalidDatabaseError`. -/
inductive Fault where
  /-- "Error opening database file (…). Is this a valid MaxMind DB file?" -/
  | openingFile (filename : String)
  /-- "Error reading metadata in database file (…)." -/
  | readingMetadata (filename : String)
  /-- "Invalid node in search tree" -/
  | invalidNode
  /-- "Unknown record size: …" -/
  | unknownRecordSize (recordSize : Record)
  /-- "The MaxMind DB file's search tree is corrupt" -/
  | corruptSearchTree
  /-- "Unexpected type number (…) encountered" -/
  | unexpectedType (typeNum : ℕ)
  /-- "Something went horribly wrong in the decoder. An extended type resolved to a type number
  < 8 (…)" -/
  | extendedType (typeNum : ℕ)
  /-- "The MaxMind DB file's data section contains bad data (unknown data type or corrupt data)" -/
  | badData

/-- An exception that leaves a method of the reader. -/
inductive Exc where
  | invalidDatabaseError (fault : Fault)
  | unicodeDecodeError
  | indexError
  | structError
  | typeError
  | valueError
  | overflowError
  | osError
  /-- The interpreter's bound on nested calls is reached. -/
  | recursionError
  /-- Not an exception: a field at a negative offset, which Python would count from the end of the
  buffer. The model stops there; no lookup comes to it (`Reader.getWithPrefixLen_ne`), and iteration
  only where `node_count` is negative (`Reader.iter_raised_ne`). -/
  | negativeOffset

/-! ## Numbers -/

/-- A Python number: an integer (a boolean is one) or a float. -/
inductive PyNum where
  | int (i : ℤ)
  | float (x : PyFloat)
  deriving DecidableEq

namespace PyNum

/-- The number itself, before any rounding; Python compares integers and floats by it. -/
def exact : PyNum → PyFloat
  | int i => .finite i
  | float x => x

/-- The operand of a float operation: an integer too large for a float raises. -/
def toFloat : PyNum → Except Exc PyFloat
  | int i =>
    match PyFloat.round i with
    | .inf _ => .error .overflowError
    | x => .ok x
  | float x => .ok x

/-- An arithmetic operation: on integers when both operands are, on floats otherwise. -/
def arith (onInt : ℤ → ℤ → ℤ) (onFloat : PyFloat → PyFloat → PyFloat) :
    PyNum → PyNum → Except Exc PyNum
  | int i, int j => .ok (int (onInt i j))
  | a, b => do return float (onFloat (← a.toFloat) (← b.toFloat))

def add : PyNum → PyNum → Except Exc PyNum := arith (· + ·) PyFloat.add
def sub : PyNum → PyNum → Except Exc PyNum := arith (· - ·) fun x y => x.add y.neg
def mul : PyNum → PyNum → Except Exc PyNum := arith (· * ·) PyFloat.mul

/-- `a // 4`. -/
def floorDiv4 : PyNum → PyNum
  | int i => int (i / 4)
  | float x => float x.floorDiv4

def eq (a b : PyNum) : Bool := a.exact.eq b.exact
def lt (a b : PyNum) : Bool := a.exact.lt b.exact
def le (a b : PyNum) : Bool := a.lt b || a.eq b

@[simp] theorem add_int (i j : ℤ) : add (int i) (int j) = .ok (int (i + j)) := rfl
@[simp] theorem sub_int (i j : ℤ) : sub (int i) (int j) = .ok (int (i - j)) := rfl
@[simp] theorem mul_int (i j : ℤ) : mul (int i) (int j) = .ok (int (i * j)) := rfl
@[simp] theorem floorDiv4_int (i : ℤ) : floorDiv4 (int i) = int (i / 4) := rfl

@[simp] theorem eq_int (i j : ℤ) : eq (int i) (int j) = decide (i = j) := by
  simp [eq, exact, PyFloat.eq]

@[simp] theorem lt_int (i j : ℤ) : lt (int i) (int j) = decide (i < j) := by
  simp [lt, exact, PyFloat.lt]

@[simp] theorem le_int (i j : ℤ) : le (int i) (int j) = decide (i ≤ j) := by
  simp [le, Int.le_iff_lt_or_eq]

/-- Only integers make an integer. -/
theorem arith_eq_int {onInt : ℤ → ℤ → ℤ} {onFloat : PyFloat → PyFloat → PyFloat} {x y : PyNum}
    {k : ℤ} (h : arith onInt onFloat x y = .ok (.int k)) :
    ∃ i j, x = .int i ∧ y = .int j ∧ k = onInt i j := by
  have hfloat : ∀ x y : PyNum, (do
      return float (onFloat (← x.toFloat) (← y.toFloat)) : Except Exc PyNum) ≠ .ok (.int k) := by
    intro x y h
    obtain ⟨u, -, h⟩ := Except.bind_eq_ok.mp h
    obtain ⟨v, -, h⟩ := Except.bind_eq_ok.mp h
    cases h
  cases x with
  | float => exact absurd h (hfloat _ _)
  | int i =>
    cases y with
    | float => exact absurd h (hfloat _ _)
    | int j =>
      cases h
      exact ⟨i, j, rfl, rfl, rfl⟩

theorem eq_swap (a b : PyNum) : a.eq b = b.eq a := by
  unfold eq
  cases a.exact <;> cases b.exact <;> simp [PyFloat.eq, eq_comm]

theorem eq_false_of_lt {a b : PyNum} (h : a.lt b) : a.eq b = false := by
  unfold lt at h
  unfold eq
  cases ha : a.exact <;> cases hb : b.exact <;> simp_all [PyFloat.eq, PyFloat.lt, ne_of_lt]

end PyNum

namespace Record

/-- The number a value is, if it is one. -/
def num? : Record → Option PyNum
  | int i => some (.int i)
  | bool b => some (.int b.toInt)
  | double raw => some (.float (PyFloat.ofIEEE 11 52 (beNat raw)))
  | float raw => some (.float (PyFloat.ofIEEE 8 23 (beNat raw)))
  | _ => none

/-- An operand of an arithmetic operation or of an order comparison. -/
def asNum (v : Record) : Except Exc PyNum :=
  match v.num? with
  | some x => .ok x
  | none => .error .typeError

/-- `v == i`. -/
def eqInt (v : Record) (i : ℤ) : Bool :=
  match v.num? with
  | some x => x.eq (.int i)
  | none => false

@[simp] theorem num?_int (i : ℤ) : (int i).num? = some (.int i) := rfl
@[simp] theorem asNum_int (i : ℤ) : (int i).asNum = .ok (.int i) := rfl
@[simp] theorem eqInt_int (i j : ℤ) : (int i).eqInt j = decide (i = j) := by simp [eqInt]

/-- A value equals at most one integer. -/
theorem eqInt_unique {v : Record} {i j : ℤ} (hi : v.eqInt i) (hj : v.eqInt j) : i = j := by
  unfold eqInt at hi hj
  cases hv : v.num? with
  | none => simp [hv] at hi
  | some x =>
    have key : ∀ k : ℤ, x.eq (.int k) = x.exact.eq (.finite k) := fun _ => rfl
    rw [hv] at hi hj
    simp only [key] at hi hj
    cases hx : x.exact with
    | nan => simp [hx, PyFloat.eq] at hi
    | inf s => simp [hx, PyFloat.eq] at hi
    | finite q =>
      simp only [hx, PyFloat.eq, decide_eq_true_eq] at hi hj
      exact_mod_cast hi.symm.trans hj

/-- `sys.int_info.default_max_str_digits`. -/
def maxStrDigits : ℕ := 4300

/-- The digits of an integer are no more than may be written. -/
def HasStr (v : Record) : Prop := ∀ i, v = int i → (Nat.digits 10 i.natAbs).length ≤ maxStrDigits

/-- `f"{v}"`, for a number: it raises where an integer has more digits. -/
def formatted : Record → Except Exc Record
  | int i =>
    if (Nat.digits 10 i.natAbs).length ≤ maxStrDigits then .ok (int i) else .error .valueError
  | v => .ok v

theorem formatted_of_hasStr {v : Record} (h : v.HasStr) : v.formatted = .ok v := by
  cases v with
  | int i => rw [formatted, if_pos (h i rfl)]
  | _ => rfl

theorem hasStr_of_formatted {v v' : Record} (h : v.formatted = .ok v') : v.HasStr := by
  rintro i rfl
  rw [formatted] at h
  split_ifs at h with hi
  exact hi

/-- Lists and dictionaries cannot be keys. -/
def hashable : Record → Bool
  | list _ => false
  | dict _ => false
  | _ => true

/-- `k == k'` for two keys of a dictionary. -/
def keyEq : Record → Record → Bool
  | str s, str s' => s = s'
  | bytes b, bytes b' => b = b'
  | k, k' =>
    match k.num?, k'.num? with
    | some x, some x' => x.eq x'
    | _, _ => false

@[simp] theorem keyEq_str (s s' : String) : keyEq (str s) (str s') = decide (s = s') := rfl

end Record

/-- `items[key] = value`: a present key keeps its place, and itself, and takes the new value. -/
def dictSet : List (Record × Record) → Record → Record → List (Record × Record)
  | [], key, value => [(key, value)]
  | (k, v) :: rest, key, value =>
    if k.keyEq key then (k, value) :: rest else (k, v) :: dictSet rest key value

/-- The value under a string key. -/
def dictGet (items : List (Record × Record)) (key : String) : Option Record :=
  match items.find? fun item => item.1.keyEq (.str key) with
  | some item => some item.2
  | none => none

end MaxMindDB
