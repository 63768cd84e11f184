import MaxMindDB.Extension.EntryData
import MaxMindDB.Format

/-!
# The integers of the two readers

`from_entry_data_list` makes an integer of an entry in one of four ways. `PyLong_FromLong` takes a
`long`, which has 32 bits on some platforms; `from_uint128` prints the two halves of the number as 32
hexadecimal digits, and has Python parse them.

`sameInteger_iff`: the integer is the value of the entry, and the one the Python decoder reads, but
for a `uint32` that a `long` of 32 bits does not hold.
-/

namespace MaxMindDB.Extension

open Octets Raising

/-! ## `long` -/

theorem CLong.convert_eq {long : CLong} {i : ℤ} (hlo : -2 ^ 31 ≤ i) (hhi : i < 2 ^ 31) :
    long.convert i = i := by
  cases long <;> simp only [convert, bits] <;> rw [Int.bmod_eq_of_le] <;> norm_num <;> omega

theorem CLong.convert_bits64 {i : ℤ} (hlo : 0 ≤ i) (hhi : i < 2 ^ 32) :
    CLong.bits64.convert i = i := by
  simp only [convert, bits]
  rw [Int.bmod_eq_of_le] <;> norm_num <;> omega

theorem CLong.convert_bits32 {i : ℤ} (hlo : 2 ^ 31 ≤ i) (hhi : i < 2 ^ 32) :
    CLong.bits32.convert i = i - 2 ^ 32 := by
  simp only [convert, bits, Int.bmod_def]
  norm_num
  omega

/-! ## Hexadecimal digits -/

theorem hexValue_hexDigit {d : ℕ} (h : d < 16) : hexValue (hexDigit d) = some d := by
  have hall : ∀ d : Fin 16, hexValue (hexDigit d) = some d.val := by decide
  exact hall ⟨d, h⟩

@[simp] theorem length_hexDigits (w n : ℕ) : (hexDigits w n).length = w := by
  induction w with
  | zero => rfl
  | succ w ih => rw [hexDigits, List.length_cons, ih]

/-- Digits parsed behind a number are put behind its digits. -/
theorem foldlM_hexDigits (w n m : ℕ) (rest : List Char) :
    (hexDigits w m ++ rest).foldlM (fun n c => (hexValue c).map fun d => 16 * n + d) n =
      rest.foldlM (fun n c => (hexValue c).map fun d => 16 * n + d) (n * 16 ^ w + m % 16 ^ w) := by
  induction w generalizing n with
  | zero => simp [hexDigits, Nat.mod_one]
  | succ w ih =>
    have hdigit := hexValue_hexDigit (Nat.mod_lt (m / 16 ^ w) (show 0 < 16 by decide))
    rw [hexDigits, List.cons_append, List.foldlM_cons, hdigit, Option.map_some]
    show List.foldlM _ (16 * n + m / 16 ^ w % 16) _ = _
    rw [ih, pow_succ, Nat.mod_mul]
    congr 1
    ring

theorem parseHex_halves (high low : UInt64) :
    parseHex ((hexDigits 16 high.toNat ++ hexDigits 16 low.toNat).take 32) =
      some (high.toNat * 2 ^ 64 + low.toNat) := by
  have hhigh := high.toNat_lt
  have hlow := low.toNat_lt
  have hpow : 16 ^ 16 = 2 ^ 64 := by norm_num
  have hlow' := foldlM_hexDigits 16 high.toNat low.toNat []
  rw [List.append_nil, List.foldlM_nil] at hlow'
  rw [List.take_of_length_le (by simp), parseHex, foldlM_hexDigits, Nat.zero_mul, Nat.zero_add, hpow,
    Nat.mod_eq_of_lt hhigh, hlow', hpow, Nat.mod_eq_of_lt hlow]
  rfl

/-! ## `uint128` -/

/-- The number a `uint128` is: an array of bytes is big-endian. -/
def MMDBUint128.value : MMDBUint128 → ℕ
  | .byteArray bs => beNat bs.toList
  | .native n => n.toNat

theorem shiftLeft_or_byte {n : UInt64} (h : n.toNat < 2 ^ 56) (x : UInt8) :
    (n <<< 8 ||| x.toUInt64).toNat = n.toNat * 256 + x.toNat := by
  have hx : x.toNat < 2 ^ 8 := x.toNat_lt
  have hshift : n.toNat <<< 8 < 2 ^ 64 := by
    rw [Nat.shiftLeft_eq]
    omega
  have hor := Nat.shiftLeft_add_eq_or_of_lt hx n.toNat
  rw [UInt64.toNat_or, UInt64.toNat_shiftLeft, UInt8.toNat_toUInt64]
  show n.toNat <<< 8 % 2 ^ 64 ||| x.toNat = _
  rw [Nat.mod_eq_of_lt hshift, ← hor, Nat.shiftLeft_eq]

theorem foldl_joinBytes (bs : Bytes) (n : UInt64) (h : (n.toNat + 1) * 256 ^ bs.length ≤ 2 ^ 64) :
    (bs.foldl (fun (n : UInt64) x => n <<< 8 ||| x.toUInt64) n).toNat =
      n.toNat * 256 ^ bs.length + beNat bs := by
  induction bs generalizing n with
  | nil => simp [beNat_nil]
  | cons x bs ih =>
    have hpos : 1 ≤ 256 ^ bs.length := Nat.one_le_pow _ _ (by decide)
    rw [List.length_cons, pow_succ] at h
    have hn : n.toNat < 2 ^ 56 := by nlinarith
    have hstep := shiftLeft_or_byte hn x
    have hx : x.toNat < 256 := x.toNat_lt
    rw [List.foldl_cons, ih _ (by rw [hstep]; nlinarith), hstep, beNat_cons, List.length_cons, pow_succ]
    ring

theorem toNat_joinBytes {bs : Bytes} (h : bs.length = 8) : (joinBytes bs).toNat = beNat bs := by
  rw [joinBytes, foldl_joinBytes bs 0 (by rw [h]; decide)]
  simp

theorem MMDBUint128.high_low (n : MMDBUint128) :
    n.high.toNat * 2 ^ 64 + n.low.toNat = n.value := by
  cases n with
  | byteArray bs =>
    have hlen : bs.toList.length = 16 := by simp
    have hhigh : (bs.toList.take 8).length = 8 := by simp
    have hlow : (bs.toList.drop 8).length = 8 := by simp
    simp only [high, low, value, toNat_joinBytes hhigh, toNat_joinBytes hlow]
    have h := foldl_beNat (bs.toList.drop 8) (beNat (bs.toList.take 8))
    conv_rhs => rw [← List.take_append_drop 8 bs.toList, beNat, List.foldl_append]
    rw [hlow] at h
    exact h.symm
  | native n =>
    have hlt : n.toNat / 2 ^ 64 < 2 ^ 64 := by
      have := n.isLt
      omega
    simp only [high, low, value, BitVec.toNat_ushiftRight, Nat.shiftRight_eq_div_pow,
      UInt64.toNat_ofNat', Nat.mod_eq_of_lt hlt]
    omega

theorem parseHex_numStr (n : MMDBUint128) : parseHex n.numStr = some n.value := by
  rw [MMDBUint128.numStr, parseHex_halves, n.high_low]

/-! ## The integers of an entry -/

/-- The value of an integer entry. -/
def EntryData.intValue : EntryData → Option ℤ
  | .uint16 n => some n.toNat
  | .uint32 n => some n.toNat
  | .uint64 n => some n.toNat
  | .uint128 n => some n.value
  | .int32 n => some n.toInt
  | _ => none

/-- The type of the field an integer entry is read from. -/
def EntryData.fieldType : EntryData → Option FieldType
  | .uint16 _ => some .uint16
  | .uint32 _ => some .uint32
  | .uint64 _ => some .uint64
  | .uint128 _ => some .uint128
  | .int32 _ => some .int32
  | _ => none

/-- The bytes are a big-endian encoding of a number of a type, perhaps without its leading zeros. -/
def IntBytes (type : FieldType) (xs : Bytes) (i : ℤ) : Prop :=
  match type.uintBytes with
  | some w => xs.length ≤ w ∧ (beNat xs : ℤ) = i
  | none => Int32Bytes xs i

/-- The two readers make the value of an integer entry of it, and of its encodings. -/
structure SameInteger (long : CLong) (e : EntryData) : Prop where
  fromEntryDataList : ∀ i, e.intValue = some i → ∀ tail,
    Settles (fun limit => fromEntryDataList long (fun _ => .succeed) limit (e :: tail))
      (.ok (.int i, e :: tail))
  decoder : ∀ i type, e.intValue = some i → e.fieldType = some type → ∀ b p o xs decode,
    HasBytes b o xs → IntBytes type xs i →
      (Decoder.ofBytes b p).decodeType decode type xs.length o = .ok (.int i, o + xs.length)

/-- The Python decoder reads the encodings of an integer as this integer. -/
theorem decodeType_of_intBytes {type : FieldType} {xs b : Bytes} {i : ℤ} {p o : ℕ}
    {decode : DecodeCall} (ht : type.uintBytes ≠ none ∨ type = .int32) (hb : HasBytes b o xs)
    (hx : IntBytes type xs i) :
    (Decoder.ofBytes b p).decodeType decode type xs.length o = .ok (.int i, o + xs.length) := by
  have huint : (beNat xs : ℤ) = i →
      (Decoder.ofBytes b p).decodeUint xs.length o = .ok (.int i, o + xs.length) := by
    rintro rfl
    simp [Decoder.decodeUint, hb.slice]
  unfold IntBytes at hx
  cases type with
  | uint16 => exact huint hx.2
  | uint32 => exact huint hx.2
  | uint64 => exact huint hx.2
  | uint128 => exact huint hx.2
  | int32 => exact decodeInt32_of_bytes hb hx
  | _ => simp [FieldType.uintBytes] at ht

theorem EntryData.uintBytes_fieldType {e : EntryData} {type : FieldType}
    (h : e.fieldType = some type) : type.uintBytes ≠ none ∨ type = .int32 := by
  cases e <;> cases h <;> simp [FieldType.uintBytes]

theorem fromEntryDataList_uint32 (long : CLong) (limit : ℕ) (n : UInt32) (tail : List EntryData) :
    fromEntryDataList long (fun _ => .succeed) (limit + 1) (.uint32 n :: tail) =
      .ok (.int (long.convert n.toNat), .uint32 n :: tail) := rfl

theorem fromEntryDataList_int {long : CLong} {e : EntryData} {i : ℤ} (h : e.intValue = some i)
    (hfits : ∀ n, e = .uint32 n → long = .bits64 ∨ n.toNat < 2 ^ 31) (limit : ℕ)
    (tail : List EntryData) :
    fromEntryDataList long (fun _ => .succeed) (limit + 1) (e :: tail) = .ok (.int i, e :: tail) := by
  cases e with
  | uint16 n =>
    cases h
    have hlt : n.toNat < 2 ^ 16 := n.toNat_lt
    show Except.ok (PyObj.int (long.convert n.toNat), _) = _
    rw [CLong.convert_eq (by omega) (by omega)]
  | uint32 n =>
    cases h
    have hlt : n.toNat < 2 ^ 32 := n.toNat_lt
    rw [fromEntryDataList_uint32]
    rcases hfits n rfl with rfl | hsmall
    · rw [CLong.convert_bits64 (by omega) (by omega)]
    · rw [CLong.convert_eq (by omega) (by omega)]
  | uint64 n =>
    cases h
    rfl
  | uint128 n =>
    cases h
    show (fromUint128 (fun _ => .succeed) (_ :: tail) n >>= fun v => .ok (v, _)) = _
    unfold fromUint128
    rw [parseHex_numStr]
    rfl
  | int32 n =>
    cases h
    have hlo := n.le_toInt
    have hhi := n.toInt_lt
    show Except.ok (PyObj.int (long.convert n.toInt), _) = _
    rw [CLong.convert_eq hlo hhi]
  | _ => cases h

/-- **When both readers give the value of an integer entry.** -/
theorem sameInteger_iff (long : CLong) (e : EntryData) :
    SameInteger long e ↔ ∀ n, e = .uint32 n → long = .bits64 ∨ n.toNat < 2 ^ 31 := by
  constructor
  · rintro h n rfl
    by_contra hwrap
    rw [not_or, Nat.not_lt] at hwrap
    have hlong : long = .bits32 := by
      cases long
      · rfl
      · exact absurd rfl hwrap.1
    subst hlong
    have hlt : n.toNat < 2 ^ 32 := n.toNat_lt
    obtain ⟨limit, heq⟩ := (h.fromEntryDataList _ rfl []).exists_succ
    rw [fromEntryDataList_uint32, CLong.convert_bits32 (by omega) (by omega)] at heq
    simp only [Except.ok.injEq, Prod.mk.injEq, PyObj.int.injEq, and_true] at heq
    omega
  · intro hfits
    refine ⟨fun i hi tail => ?_, fun i type hi ht b p o xs decode hb hx => ?_⟩
    · refine eventually_succ (Filter.Eventually.of_forall fun _ => trivial) fun limit _ => ?_
      exact fromEntryDataList_int hi hfits limit tail
    · exact decodeType_of_intBytes (EntryData.uintBytes_fieldType ht) hb hx

/-- 2^31 in a `uint32` becomes negative where a `long` has 32 bits. -/
theorem not_sameInteger : ¬ ∀ (long : CLong) (e : EntryData), SameInteger long e := by
  intro hall
  obtain ⟨limit, h⟩ :=
    ((hall .bits32 (.uint32 2147483648)).fromEntryDataList _ rfl []).exists_succ
  rw [fromEntryDataList_uint32] at h
  have hneg : CLong.bits32.convert (2147483648 : UInt32).toNat = -2147483648 := by decide
  rw [hneg] at h
  simp at h

end MaxMindDB.Extension
