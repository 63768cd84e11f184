import MaxMindDB.Format

/-!
# What the decoder can read

`Reads b p` is what the decoder makes of any bytes, well-formed or not, as long as it raises nothing
but `InvalidDatabaseError` or `UnicodeDecodeError`. It is defined on the bytes: which of them must be
there, and where the chains of pointers end. Nothing checks that strings, byte strings and integers
end inside the file, that keys are strings, or that a field has a size its type allows, so these are
read as what is left of them.

`eventually_of_reads`, `reads_of_decode`: the decoder raises nothing else exactly when the bytes can
be read.
-/

namespace MaxMindDB

open Octets Raising Except

/-- The exceptions by which a corrupt database is reported. -/
def Exc.Reported : Exc → Prop
  | .invalidDatabaseError _ => True
  | .unicodeDecodeError => True
  | _ => False

theorem allows_getItem {b : Bytes} {i : ℕ} {out : Option UInt8} :
    Allows Exc.Reported (bytesGetItem b i) out ↔ ∃ x, b[i]? = some x ∧ out = some x := by
  unfold bytesGetItem
  cases b[i]? with
  | none => simp [allows_error, Exc.Reported]
  | some x => simp [allows_ok]

theorem allows_unpack {n : ℕ} {bs : Bytes} {out : Option ℕ} :
    Allows Exc.Reported (unpack n bs) out ↔ bs.length = n ∧ out = some (beNat bs) := by
  unfold unpack
  split_ifs with h
  · simp [allows_ok, h]
  · simp [allows_error, Exc.Reported, h]

/-! ## Headers -/

/-- A field at `o` of the given type and size, whose payload begins at `q`. -/
inductive FieldStart (b : Bytes) (o : ℕ) : FieldType → ℕ → ℕ → Prop where
  | pointer {c : UInt8} {q : ℕ} : ControlAt b o c 1 q → FieldStart b o .pointer (c.toNat % 32) q
  | sized {c : UInt8} {q' s q : ℕ} {type : FieldType} : type ≠ .pointer →
      ControlAt b o c type.num q' → SizeAt b c q' s q → FieldStart b o type s q

/-- A field of a type that has no decoder. -/
def UnknownType (b : Bytes) (o : ℕ) : Prop := ∃ c n q, ControlAt b o c n q ∧ typeDecoder n = none

section Header

variable {b : Bytes} {p o : ℕ}

theorem allows_readExtended {out : Option (ℕ × ℕ)} :
    Allows Exc.Reported ((Decoder.ofBytes b p).readExtended o) out ↔
      ∃ x, b[o]? = some x ∧ out = some (x.toNat + 7, o + 1) := by
  unfold Decoder.readExtended
  rw [allows_bind, Sliceable.ofBytes_getItem, allows_getItem]
  simp only [bytesGetItem_eq_ok]
  constructor
  · rintro (⟨⟨x, -, hx⟩, -⟩ | ⟨x, hx, h⟩)
    · cases hx
    · rw [if_neg (by omega)] at h
      exact ⟨x, hx, allows_ok.mp h⟩
  · rintro ⟨x, hx, rfl⟩
    refine .inr ⟨x, hx, ?_⟩
    rw [if_neg (by omega)]
    exact .returns _

theorem hasBytes_singleton {x : UInt8} : HasBytes b o [x] ↔ b[o]? = some x := by
  constructor
  · intro h
    simpa using h.getElem? (k := 0) (by simp)
  · intro h
    obtain ⟨hlt, rfl⟩ := List.getElem?_eq_some_iff.mp h
    rw [HasBytes, List.drop_eq_getElem_cons hlt]
    exact List.cons_prefix_cons.mpr ⟨rfl, List.nil_prefix⟩

/-- The sizes that can be read; a pointer has none of the longer ones. -/
theorem allows_sizeFromCtrlByte {c : UInt8} {q n : ℕ} {out : Option (ℕ × ℕ)} :
    Allows Exc.Reported ((Decoder.ofBytes b p).sizeFromCtrlByte c q n) out ↔
      ∃ s q', out = some (s, q') ∧
        (n = 1 ∧ s = c.toNat % 32 ∧ q' = q ∨ n ≠ 1 ∧ SizeAt b c q s q') := by
  constructor
  · intro h
    unfold Decoder.sizeFromCtrlByte at h
    rw [and_31] at h
    dsimp only at h
    split_ifs at h with h1 h2 h3
    · refine ⟨_, _, allows_ok.mp h, ?_⟩
      by_cases hn : n = 1
      · exact .inl ⟨hn, rfl, rfl⟩
      · exact .inr ⟨hn, .inline (by omega)⟩
    · rw [allows_bind, Sliceable.ofBytes_getItem, allows_getItem] at h
      rcases h with ⟨⟨x, -, hx⟩, -⟩ | ⟨x, hx, h⟩
      · cases hx
      · have hb := hasBytes_singleton.mpr (bytesGetItem_eq_ok.mp hx)
        have hs := SizeAt.one h2 (List.length_singleton (a := x)) hb
        rw [beNat_singleton] at hs
        exact ⟨_, _, allows_ok.mp h, .inr ⟨by omega, hs⟩⟩
    · rw [allows_bind, allows_unpack] at h
      rcases h with ⟨⟨-, hx⟩, -⟩ | ⟨v, hv, h⟩
      · cases hx
      · obtain ⟨hl, hv⟩ := allows_unpack.mp (allows_some.mpr hv)
        cases hv
        exact ⟨_, _, allows_ok.mp h, .inr ⟨by omega, .two h3 hl (hasBytes_slice _ _ _)⟩⟩
    · rw [allows_bind, allows_unpack] at h
      rcases h with ⟨⟨-, hx⟩, -⟩ | ⟨v, hv, h⟩
      · cases hx
      · obtain ⟨hl, hv⟩ := allows_unpack.mp (allows_some.mpr hv)
        cases hv
        have hl3 : (slice b q (q + 3)).length = 3 := by simpa using hl
        have hs := SizeAt.three (show c.toNat % 32 = 31 by omega) hl3 (hasBytes_slice _ _ _)
        rw [beNat_cons, Nat.add_comm] at h
        refine ⟨_, _, allows_ok.mp h, .inr ⟨by omega, ?_⟩⟩
        simpa using hs
  · rintro ⟨s, q', rfl, ⟨rfl, rfl, rfl⟩ | ⟨hn, hs⟩⟩
    · unfold Decoder.sizeFromCtrlByte
      rw [and_31]
      exact .returns _
    · exact allows_some.mpr (hs.sizeFromCtrlByte hn)

theorem allows_control {c : UInt8} (hc : b[o]? = some c) {out : Option (ℕ × ℕ)} :
    Allows Exc.Reported (if c.toNat >>> 5 = 0 then (Decoder.ofBytes b p).readExtended (o + 1)
      else pure (c.toNat >>> 5, o + 1)) out ↔ ∃ n q, ControlAt b o c n q ∧ out = some (n, q) := by
  rw [shiftRight_five]
  split_ifs with h0
  · rw [allows_readExtended]
    constructor
    · rintro ⟨x, hx, rfl⟩
      exact ⟨_, _, .extended hc h0 hx, rfl⟩
    · rintro ⟨n, q, hcontrol, rfl⟩
      cases hcontrol with
      | direct _ hne => exact absurd h0 hne
      | extended _ _ hx => exact ⟨_, hx, rfl⟩
  · rw [pure_eq_ok, allows_ok]
    constructor
    · rintro rfl
      exact ⟨_, _, .direct hc h0, rfl⟩
    · rintro ⟨n, q, hcontrol, rfl⟩
      cases hcontrol with
      | direct => rfl
      | extended _ h => exact absurd h h0

theorem ControlAt.getElem? {c : UInt8} {n q : ℕ} (h : ControlAt b o c n q) : b[o]? = some c := by
  cases h with
  | direct hc => exact hc
  | extended hc => exact hc

theorem exists_control {out : Option (FieldType × ℕ × ℕ)}
    (h : Allows Exc.Reported ((Decoder.ofBytes b p).header o) out) :
    ∃ c n q, ControlAt b o c n q := by
  unfold Decoder.header at h
  rw [allows_bind, Sliceable.ofBytes_getItem, allows_getItem] at h
  rcases h with ⟨⟨c, -, hc⟩, -⟩ | ⟨c, hc, h⟩
  · cases hc
  · rw [bytesGetItem_eq_ok] at hc
    dsimp only at h
    have hex : ∃ out, Allows Exc.Reported
        (if c.toNat >>> 5 = 0 then (Decoder.ofBytes b p).readExtended (o + 1)
          else pure (c.toNat >>> 5, o + 1)) out := by
      split_ifs at h ⊢ with h0
      · rcases allows_bind.mp h with ⟨hnone, -⟩ | ⟨x, hx, -⟩
        · exact ⟨_, hnone⟩
        · exact ⟨_, allows_some.mpr hx⟩
      · exact ⟨_, .returns _⟩
    obtain ⟨out, hout⟩ := hex
    obtain ⟨n, q, hcontrol, -⟩ := (allows_control hc).mp hout
    exact ⟨c, n, q, hcontrol⟩

theorem header_of_start {type : FieldType} {s q : ℕ} (h : FieldStart b o type s q) :
    (Decoder.ofBytes b p).header o = .ok (type, s, q) := by
  cases h with
  | @pointer c q hcontrol =>
    have hsize : (Decoder.ofBytes b p).sizeFromCtrlByte c q 1 = .ok (c.toNat % 32, q) :=
      allows_some.mp (allows_sizeFromCtrlByte.mpr ⟨_, _, rfl, .inl ⟨rfl, rfl, rfl⟩⟩)
    have ht : typeDecoder 1 = some .pointer := rfl
    rw [hcontrol.header, ht]
    dsimp only
    rw [hsize, ok_bind]
  | sized hne hcontrol hs =>
    rw [hcontrol.header, typeDecoder_eq_some.mpr rfl]
    dsimp only
    rw [hs.sizeFromCtrlByte fun h => hne (num_eq_one.mp h)]
    rfl

theorem start_of_header {type : FieldType} {s q : ℕ}
    (h : (Decoder.ofBytes b p).header o = .ok (type, s, q)) : FieldStart b o type s q := by
  obtain ⟨c, n, q', hcontrol⟩ := exists_control (allows_some.mpr h)
  rw [hcontrol.header] at h
  cases ht : typeDecoder n with
  | none => rw [ht] at h; cases h
  | some type' =>
    rw [ht] at h
    obtain ⟨⟨s', q''⟩, hsize, heq⟩ := bind_eq_ok.mp h
    cases heq
    obtain rfl := typeDecoder_eq_some.mp ht
    obtain ⟨s', q'', hsome, hs⟩ := allows_sizeFromCtrlByte.mp (allows_some.mpr hsize)
    cases hsome
    rcases hs with ⟨hn, rfl, rfl⟩ | ⟨hn, hs⟩
    · obtain rfl := num_eq_one.mp hn
      exact .pointer hcontrol
    · exact .sized (fun h => hn (num_eq_one.mpr h)) hcontrol hs

/-- The only field that is reported at its header is one of an unknown type. -/
theorem allows_header_none :
    Allows Exc.Reported ((Decoder.ofBytes b p).header o) none ↔ UnknownType b o := by
  constructor
  · intro h
    obtain ⟨c, n, q, hcontrol⟩ := exists_control h
    refine ⟨c, n, q, hcontrol, ?_⟩
    rw [hcontrol.header] at h
    cases ht : typeDecoder n with
    | none => rfl
    | some type =>
      rw [ht] at h
      rcases allows_bind.mp h with ⟨hnone, -⟩ | ⟨x, -, hx⟩
      · obtain ⟨s, q', hsome, -⟩ := allows_sizeFromCtrlByte.mp hnone
        cases hsome
      · cases hx
  · rintro ⟨c, n, q, hcontrol, ht⟩
    rw [hcontrol.header, ht]
    exact .raises trivial

end Header

/-! ## Pointers -/

section Pointer

variable {b : Bytes} {p o s q : ℕ}

/-- The control byte of a pointer stands alone. -/
theorem ControlAt.of_one {c : UInt8} {n : ℕ} (h : ControlAt b o c n q) (hn : n = 1) :
    b[o]? = some c ∧ c.toNat / 32 = 1 ∧ q = o + 1 := by
  cases h with
  | direct hc => exact ⟨hc, hn, rfl⟩
  | extended => omega

theorem not_allows_readPointer :
    ¬ Allows Exc.Reported ((Decoder.ofBytes b p).readPointer s q) none := by
  intro h
  unfold Decoder.readPointer at h
  dsimp only at h
  split_ifs at h <;>
  · rcases allows_bind.mp h with ⟨h, -⟩ | ⟨v, -, h⟩
    · cases (allows_unpack.mp h).2
    · cases h

theorem pointerAt_of_read (hstart : FieldStart b o .pointer s q) {target e : ℕ}
    (h : (Decoder.ofBytes b p).readPointer s q = .ok (target, e)) : PointerAt b p o target e := by
  obtain ⟨c, hc, hc1, rfl, rfl⟩ : ∃ c : UInt8, b[o]? = some c ∧ c.toNat / 32 = 1 ∧
      s = c.toNat % 32 ∧ q = o + 1 := by
    cases hstart with
    | pointer hcontrol =>
      obtain ⟨hc, hc1, rfl⟩ := hcontrol.of_one rfl
      exact ⟨_, hc, hc1, rfl, rfl⟩
    | sized hne => exact absurd rfl hne
  -- the bytes of the pointer are the control byte and `k` bytes behind it
  have key : ∀ k, (slice b (o + 1) (o + 1 + k)).length = k →
      HasBytes b o (c :: slice b (o + 1) (o + 1 + k)) := fun k _ => by
    have hone := hasBytes_singleton.mpr hc
    exact hasBytes_append_iff.mpr ⟨hone, hasBytes_slice _ _ _⟩
  unfold Decoder.readPointer at h
  simp only [shiftRight_three, and_7, Sliceable.ofBytes_getSlice] at h
  have hk : c.toNat % 32 / 8 = 0 ∨ c.toNat % 32 / 8 = 1 ∨ c.toNat % 32 / 8 = 2 ∨
      c.toNat % 32 / 8 = 3 := by omega
  rcases hk with hk | hk | hk | hk <;> rw [hk] at h <;>
    obtain ⟨v, hv, heq⟩ := bind_eq_ok.mp h <;>
    obtain ⟨hl, hval⟩ := allows_unpack.mp (allows_some.mpr hv) <;>
    cases hval <;> cases heq
  · have hl1 : (slice b (o + 1) (o + 1 + 1)).length = 1 := by simpa using hl
    have hp := PointerAt.class0 (p := p) (key 1 hl1) hc1 hk hl1
    rw [beNat_control, hl1, pow_one, Nat.add_comm]
    exact hp
  · have hl2 : (slice b (o + 1) (o + 1 + 2)).length = 2 := by simpa using hl
    have hp := PointerAt.class1 (p := p) (key 2 hl2) hc1 hk hl2
    rw [beNat_cons, beNat_control, hl2, Nat.add_comm]
    simpa using hp
  · have hl3 : (slice b (o + 1) (o + 1 + 3)).length = 3 := by simpa using hl
    have hp := PointerAt.class2 (p := p) (key 3 hl3) hc1 hk hl3
    rw [beNat_control, hl3, Nat.add_comm]
    exact hp
  · have hp := PointerAt.class3 (p := p) (key 4 hl) hc1 hk hl
    rw [Nat.add_comm]
    exact hp

end Pointer

/-! ## Scalars -/

/-- What the decoder makes of a field that contains no others, of size `s` with its payload at `q`:
the value and the offset behind it, or `none` when the field is reported as corrupt. -/
inductive ScalarAt (b : Bytes) (s q : ℕ) : FieldType → Option (Record × ℕ) → Prop where
  | utf8String :
      ScalarAt b s q .utf8String
        ((String.fromUTF8? ⟨(slice b q (q + s)).toArray⟩).map fun x => (.str x, q + s))
  | bytes : ScalarAt b s q .bytes (some (.bytes (slice b q (q + s)), q + s))
  | double : s = 8 → q + s ≤ b.length →
      ScalarAt b s q .double (some (.double (slice b q (q + s)), q + s))
  | badDouble : s ≠ 8 → ScalarAt b s q .double none
  | float : s = 4 → q + s ≤ b.length →
      ScalarAt b s q .float (some (.float (slice b q (q + s)), q + s))
  | badFloat : s ≠ 4 → ScalarAt b s q .float none
  | uint {type : FieldType} : type.uintBytes ≠ none →
      ScalarAt b s q type (some (.int (beNat (slice b q (q + s))), q + s))
  | noInt32 : s = 0 → ScalarAt b s q .int32 (some (.int 0, q))
  | int32 : s ≠ 0 → (s = 4 → q + s ≤ b.length) → (slice b q (q + s)).length ≤ 4 →
      ScalarAt b s q .int32 (some (.int (toInt32 (beNat (slice b q (q + s)))), q + s))
  | boolean : ScalarAt b s q .boolean (some (.bool (s != 0), q))

section Scalar

variable {b : Bytes} {p s q : ℕ} {out : Option (Record × ℕ)}

theorem length_slice_eq {k : ℕ} (hk : k ≠ 0) :
    (slice b q (q + k)).length = k ↔ q + k ≤ b.length := by
  rw [length_slice]
  omega

theorem allows_decodeUtf8String :
    Allows Exc.Reported ((Decoder.ofBytes b p).decodeUtf8String s q) out ↔
      out = (String.fromUTF8? ⟨(slice b q (q + s)).toArray⟩).map fun x => (.str x, q + s) := by
  unfold Decoder.decodeUtf8String decodeUtf8
  simp only [Sliceable.ofBytes_getSlice]
  cases String.fromUTF8? ⟨(slice b q (q + s)).toArray⟩ with
  | none => simp [allows_error, Exc.Reported]
  | some x => simp [allows_ok]

/-- A `double` or a `float`: a field of one size, all of whose bytes must be there. -/
theorem allows_fixed {k : ℕ} (hk : k ≠ 0) (value : Bytes → Record) :
    Allows Exc.Reported (do
      Decoder.verifySize s k
      let _ ← unpack k (slice b q (q + s))
      return (value (slice b q (q + s)), q + s)) out ↔
      (s = k ∧ q + s ≤ b.length ∧ out = some (value (slice b q (q + s)), q + s)) ∨
        (s ≠ k ∧ out = none) := by
  unfold Decoder.verifySize
  by_cases h : s = k
  · subst h
    simp only [ne_eq, not_true_eq_false, if_false, ok_bind, allows_bind, allows_unpack, reduceCtorEq,
      and_false, false_and, false_or, true_and, or_false]
    constructor
    · rintro ⟨v, hv, hout⟩
      obtain ⟨hl, -⟩ := allows_unpack.mp (allows_some.mpr hv)
      exact ⟨(length_slice_eq hk).mp hl, allows_ok.mp hout⟩
    · rintro ⟨hle, rfl⟩
      exact ⟨_, unpack_of_length ((length_slice_eq hk).mpr hle), .returns _⟩
  · simp [h, allows_error, Exc.Reported]

theorem allows_decodeInt32 :
    Allows Exc.Reported ((Decoder.ofBytes b p).decodeInt32 s q) out ↔
      (s = 0 ∧ out = some (.int 0, q)) ∨
        (s ≠ 0 ∧ (s = 4 → q + s ≤ b.length) ∧ (slice b q (q + s)).length ≤ 4 ∧
          out = some (.int (toInt32 (beNat (slice b q (q + s)))), q + s)) := by
  unfold Decoder.decodeInt32
  by_cases h0 : s = 0
  · simp [h0, allows_ok]
  simp only [Sliceable.ofBytes_getSlice, h0, if_false, false_and, false_or, ne_eq,
    not_false_eq_true, true_and]
  -- a short field is padded to four bytes; a field of four bytes is not
  have hpad : ∀ v, unpack 4 (if ¬s = 4 then (slice b q (q + s)).leftpad 4 0 else slice b q (q + s)) =
      .ok v ↔ (s = 4 → q + s ≤ b.length) ∧ (slice b q (q + s)).length ≤ 4 ∧
        v = beNat (slice b q (q + s)) := by
    intro v
    rw [← @allows_some _ _ Exc.Reported, allows_unpack, Option.some.injEq]
    by_cases h4 : s = 4
    · rw [if_neg (not_not.mpr h4), ← length_slice_eq h0]
      constructor
      · rintro ⟨hl, hv⟩
        exact ⟨fun _ => by omega, by omega, hv⟩
      · rintro ⟨hl, -, hv⟩
        exact ⟨by rw [hl h4, h4], hv⟩
    · rw [if_pos h4, List.length_leftpad, List.leftpad, beNat_replicate_append]
      constructor
      · rintro ⟨hl, hv⟩
        exact ⟨fun h => absurd h h4, by omega, hv⟩
      · rintro ⟨-, hl, hv⟩
        exact ⟨by omega, hv⟩
  rw [allows_bind]
  constructor
  · rintro (⟨hnone, -⟩ | ⟨v, hv, hout⟩)
    · cases (allows_unpack.mp hnone).2
    · obtain ⟨hfour, hl, rfl⟩ := (hpad v).mp hv
      exact ⟨hfour, hl, allows_ok.mp hout⟩
  · rintro ⟨hfour, hl, rfl⟩
    exact .inr ⟨_, (hpad _).mpr ⟨hfour, hl, rfl⟩, .returns _⟩

theorem allows_scalar {decode : DecodeCall} {type : FieldType} (hp : type ≠ .pointer)
    (hm : type ≠ .map) (ha : type ≠ .array) :
    Allows Exc.Reported ((Decoder.ofBytes b p).decodeType decode type s q) out ↔
      ScalarAt b s q type out := by
  have huint : ∀ type : FieldType, type.uintBytes ≠ none →
      (Allows Exc.Reported ((Decoder.ofBytes b p).decodeUint s q) out ↔ ScalarAt b s q type out) := by
    intro type ht
    constructor
    · intro h
      obtain rfl := allows_ok.mp h
      exact .uint ht
    · rintro ⟨⟩ <;> first | exact absurd rfl ht | exact .returns _
  cases type with
  | pointer => exact absurd rfl hp
  | map => exact absurd rfl hm
  | array => exact absurd rfl ha
  | uint16 => exact huint .uint16 (by simp [FieldType.uintBytes])
  | uint32 => exact huint .uint32 (by simp [FieldType.uintBytes])
  | uint64 => exact huint .uint64 (by simp [FieldType.uintBytes])
  | uint128 => exact huint .uint128 (by simp [FieldType.uintBytes])
  | utf8String =>
    refine allows_decodeUtf8String.trans ⟨?_, ?_⟩
    · rintro rfl
      exact .utf8String
    · rintro ⟨⟩
      · rfl
      · contradiction
  | bytes =>
    refine allows_ok.trans ⟨?_, ?_⟩
    · rintro rfl
      exact .bytes
    · rintro ⟨⟩
      · rfl
      · contradiction
  | boolean =>
    refine allows_ok.trans ⟨?_, ?_⟩
    · rintro rfl
      exact .boolean
    · rintro ⟨⟩
      · contradiction
      · rfl
  | double =>
    refine (allows_fixed (by norm_num) Record.double).trans ⟨?_, ?_⟩
    · rintro (⟨h8, hle, rfl⟩ | ⟨h8, rfl⟩)
      · exact .double h8 hle
      · exact .badDouble h8
    · rintro ⟨⟩
      · exact .inl ⟨by assumption, by assumption, rfl⟩
      · exact .inr ⟨by assumption, rfl⟩
      · contradiction
  | float =>
    refine (allows_fixed (by norm_num) Record.float).trans ⟨?_, ?_⟩
    · rintro (⟨h4, hle, rfl⟩ | ⟨h4, rfl⟩)
      · exact .float h4 hle
      · exact .badFloat h4
    · rintro ⟨⟩
      · exact .inl ⟨by assumption, by assumption, rfl⟩
      · exact .inr ⟨by assumption, rfl⟩
      · contradiction
  | int32 =>
    refine allows_decodeInt32.trans ⟨?_, ?_⟩
    · rintro (⟨h0, rfl⟩ | ⟨h0, hfour, hl, rfl⟩)
      · exact .noInt32 h0
      · exact .int32 h0 hfour hl
    · rintro ⟨⟩
      · contradiction
      · exact .inl ⟨by assumption, rfl⟩
      · exact .inr ⟨by assumption, by assumption, by assumption, rfl⟩

end Scalar

/-! ## Reading -/

/-- What is to be read at an offset: a field, or `size` more elements of an array or items of a map,
behind those read so far. -/
inductive Task where
  | field
  | elements (size : ℕ) (array : List Record)
  | items (size : ℕ) (container : List (Record × Record))

/-- The bytes of `b` at an offset can be read: the value read and the offset behind it, or `none`
where a field is reported as corrupt, after which nothing more is read. -/
inductive Reads (b : Bytes) (p : ℕ) : Task → ℕ → Option (Record × ℕ) → Prop where
  | unknownType {o : ℕ} : UnknownType b o → Reads b p .field o none
  | scalar {o s q : ℕ} {type : FieldType} {out : Option (Record × ℕ)} : FieldStart b o type s q →
      ScalarAt b s q type out → Reads b p .field o out
  | pointer {o target e : ℕ} {out : Option (Record × ℕ)} : PointerAt b p o target e →
      Reads b p .field target out → Reads b p .field o (out.map fun x => (x.1, e))
  | array {o s q : ℕ} {out : Option (Record × ℕ)} : FieldStart b o .array s q →
      Reads b p (.elements s []) q out → Reads b p .field o out
  | map {o s q : ℕ} {out : Option (Record × ℕ)} : FieldStart b o .map s q →
      Reads b p (.items s []) q out → Reads b p .field o out
  | noElements {o : ℕ} {array : List Record} :
      Reads b p (.elements 0 array) o (some (.list array, o))
  | badElement {o size : ℕ} {array : List Record} : Reads b p .field o none →
      Reads b p (.elements (size + 1) array) o none
  | element {o m size : ℕ} {v : Record} {array : List Record} {out : Option (Record × ℕ)} :
      Reads b p .field o (some (v, m)) → Reads b p (.elements size (array ++ [v])) m out →
      Reads b p (.elements (size + 1) array) o out
  | noItems {o : ℕ} {container : List (Record × Record)} :
      Reads b p (.items 0 container) o (some (.dict container, o))
  | badKey {o size : ℕ} {container : List (Record × Record)} : Reads b p .field o none →
      Reads b p (.items (size + 1) container) o none
  | badValue {o m size : ℕ} {k : Record} {container : List (Record × Record)} :
      Reads b p .field o (some (k, m)) → Reads b p .field m none →
      Reads b p (.items (size + 1) container) o none
  | item {o m m' size : ℕ} {k v : Record} {container : List (Record × Record)}
      {out : Option (Record × ℕ)} : Reads b p .field o (some (k, m)) →
      Reads b p .field m (some (v, m')) → k.hashable →
      Reads b p (.items size (dictSet container k v)) m' out →
      Reads b p (.items (size + 1) container) o out

/-- The call of the decoder for a task. -/
def Decoder.perform (d : Decoder) (limit : ℕ) : Task → DecodeCall
  | .field => d.decode limit
  | .elements size array => fun o => decodeArray (d.decode limit) size o array
  | .items size container => fun o => decodeMap (d.decode limit) size o container

section Reads

variable {b : Bytes} {p o : ℕ} {task : Task} {out : Option (Record × ℕ)}

theorem decodeMap_succ (decode : DecodeCall) (size : ℕ) (container : List (Record × Record)) :
    Decoder.decodeMap decode (size + 1) o container = decode o >>= fun k => decode k.2 >>= fun v =>
      if k.1.hashable then Decoder.decodeMap decode size v.2 (dictSet container k.1 v.1)
      else .error .typeError := rfl

theorem decodeArray_succ (decode : DecodeCall) (size : ℕ) (array : List Record) :
    Decoder.decodeArray decode (size + 1) o array = decode o >>= fun v =>
      Decoder.decodeArray decode size v.2 (array ++ [v.1]) := rfl

/-- A field that starts in the file is as its decoder function finds it. -/
theorem allows_decode_of_start {type : FieldType} {s q limit : ℕ} (h : FieldStart b o type s q) :
    Allows Exc.Reported ((Decoder.ofBytes b p).decode (limit + 1) o) out ↔
      Allows Exc.Reported ((Decoder.ofBytes b p).decodeType
        ((Decoder.ofBytes b p).decode limit) type s q) out := by
  rw [Decoder.decode_succ, header_of_start h]
  rfl

theorem ScalarAt.allows {type : FieldType} {s q : ℕ} (h : ScalarAt b s q type out)
    (decode : DecodeCall) :
    Allows Exc.Reported ((Decoder.ofBytes b p).decodeType decode type s q) out := by
  have hp : type ≠ .pointer ∧ type ≠ .map ∧ type ≠ .array := by
    cases h with
    | uint ht => cases type <;> simp_all [FieldType.uintBytes]
    | _ => simp
  exact (allows_scalar hp.1 hp.2.1 hp.2.2).mpr h

theorem allows_decodePointer {decode : DecodeCall} {s q target e : ℕ}
    (h : (Decoder.ofBytes b p).readPointer s q = .ok (target, e)) :
    Allows Exc.Reported ((Decoder.ofBytes b p).decodePointer decode s q) out ↔
      ∃ out', Allows Exc.Reported (decode target) out' ∧ out = out'.map fun x => (x.1, e) := by
  unfold Decoder.decodePointer
  rw [h]
  simp only [ok_bind, Bool.false_eq_true, if_false]
  rw [allows_bind]
  constructor
  · rintro (⟨hnone, rfl⟩ | ⟨x, hx, hout⟩)
    · exact ⟨none, hnone, rfl⟩
    · exact ⟨some x, allows_some.mpr hx, allows_ok.mp hout⟩
  · rintro ⟨out', hallows, rfl⟩
    cases out' with
    | none => exact .inl ⟨hallows, rfl⟩
    | some x => exact .inr ⟨x, allows_some.mp hallows, .returns _⟩

/-- **What can be read is read.** -/
theorem eventually_of_reads (h : Reads b p task o out) :
    ∀ᶠ limit in Filter.atTop,
      Allows Exc.Reported ((Decoder.ofBytes b p).perform limit task o) out := by
  induction h with
  | unknownType ht =>
    refine eventually_succ (Filter.Eventually.of_forall fun _ => trivial) fun limit _ => ?_
    exact allows_bind.mpr (.inl ⟨allows_header_none.mpr ht, rfl⟩)
  | scalar hstart hs =>
    refine eventually_succ (Filter.Eventually.of_forall fun _ => trivial) fun limit _ => ?_
    exact (allows_decode_of_start hstart).mpr (hs.allows _)
  | pointer hp _ ih =>
    obtain ⟨c, hheader, hread⟩ := hp.read
    refine eventually_succ ih fun limit h => ?_
    refine (allows_decode_of_start (start_of_header hheader)).mpr ?_
    exact (allows_decodePointer hread).mpr ⟨_, h, rfl⟩
  | array hstart _ ih =>
    exact eventually_succ ih fun limit h => (allows_decode_of_start hstart).mpr h
  | map hstart _ ih =>
    exact eventually_succ ih fun limit h => (allows_decode_of_start hstart).mpr h
  | noElements => exact Filter.Eventually.of_forall fun limit => .returns _
  | badElement _ ih =>
    filter_upwards [ih] with limit h
    exact allows_bind.mpr (.inl ⟨h, rfl⟩)
  | element _ _ ih ihs =>
    filter_upwards [ih, ihs] with limit h hs
    exact allows_bind.mpr (.inr ⟨_, allows_some.mp h, hs⟩)
  | noItems => exact Filter.Eventually.of_forall fun limit => .returns _
  | badKey _ ih =>
    filter_upwards [ih] with limit h
    exact allows_bind.mpr (.inl ⟨h, rfl⟩)
  | badValue _ _ ihk ihv =>
    filter_upwards [ihk, ihv] with limit hk hv
    refine allows_bind.mpr (.inr ⟨_, allows_some.mp hk, ?_⟩)
    exact allows_bind.mpr (.inl ⟨hv, rfl⟩)
  | item _ _ hh _ ihk ihv ihs =>
    filter_upwards [ihk, ihv, ihs] with limit hk hv hs
    refine allows_bind.mpr (.inr ⟨_, allows_some.mp hk, ?_⟩)
    refine allows_bind.mpr (.inr ⟨_, allows_some.mp hv, ?_⟩)
    dsimp only
    rw [if_pos hh]
    exact hs

theorem reads_of_decodeArray {decode : DecodeCall}
    (hd : ∀ o out, Allows Exc.Reported (decode o) out → Reads b p .field o out) {size : ℕ}
    {array : List Record} (h : Allows Exc.Reported (Decoder.decodeArray decode size o array) out) :
    Reads b p (.elements size array) o out := by
  induction size generalizing o array with
  | zero =>
    obtain rfl := allows_ok.mp h
    exact .noElements
  | succ size ih =>
    rw [decodeArray_succ] at h
    rcases allows_bind.mp h with ⟨hnone, rfl⟩ | ⟨x, hx, h⟩
    · exact .badElement (hd o none hnone)
    · exact .element (hd o _ (allows_some.mpr hx)) (ih h)

theorem reads_of_decodeMap {decode : DecodeCall}
    (hd : ∀ o out, Allows Exc.Reported (decode o) out → Reads b p .field o out) {size : ℕ}
    {container : List (Record × Record)}
    (h : Allows Exc.Reported (Decoder.decodeMap decode size o container) out) :
    Reads b p (.items size container) o out := by
  induction size generalizing o container with
  | zero =>
    obtain rfl := allows_ok.mp h
    exact .noItems
  | succ size ih =>
    rw [decodeMap_succ] at h
    rcases allows_bind.mp h with ⟨hnone, rfl⟩ | ⟨k, hk, h⟩
    · exact .badKey (hd o none hnone)
    · have hkey := hd o _ (allows_some.mpr hk)
      rcases allows_bind.mp h with ⟨hnone, rfl⟩ | ⟨v, hv, h⟩
      · exact .badValue hkey (hd _ none hnone)
      · split_ifs at h with hh
        · exact .item hkey (hd _ _ (allows_some.mpr hv)) hh (ih h)
        · exact absurd (allows_error.mp h).1 id

/-- **What is read can be read.** -/
theorem reads_of_decode {limit : ℕ}
    (h : Allows Exc.Reported ((Decoder.ofBytes b p).decode limit o) out) :
    Reads b p .field o out := by
  induction limit generalizing o out with
  | zero => exact absurd (allows_error.mp h).1 id
  | succ limit ih =>
    rw [Decoder.decode_succ] at h
    rcases allows_bind.mp h with ⟨hnone, rfl⟩ | ⟨⟨type, s, q⟩, hheader, h⟩
    · exact .unknownType (allows_header_none.mp hnone)
    have hstart := start_of_header hheader
    have hd : ∀ o out, Allows Exc.Reported ((Decoder.ofBytes b p).decode limit o) out →
        Reads b p .field o out := fun _ _ => ih
    by_cases hp : type = .pointer
    · subst hp
      cases hread : (Decoder.ofBytes b p).readPointer s q with
      | error e =>
        have hcall : Allows Exc.Reported
            ((Decoder.ofBytes b p).decodePointer ((Decoder.ofBytes b p).decode limit) s q) out := h
        rw [Decoder.decodePointer, hread] at hcall
        exact absurd (allows_none.mpr ⟨e, hread, (allows_error.mp hcall).1⟩) not_allows_readPointer
      | ok x =>
        obtain ⟨target, e⟩ := x
        obtain ⟨out', htarget, rfl⟩ := (allows_decodePointer hread).mp h
        exact .pointer (pointerAt_of_read hstart hread) (ih htarget)
    · by_cases hm : type = .map
      · subst hm
        exact .map hstart (reads_of_decodeMap hd h)
      · by_cases ha : type = .array
        · subst ha
          exact .array hstart (reads_of_decodeArray hd h)
        · exact .scalar hstart ((allows_scalar hp hm ha).mp h)

/-- What is well-formed can be read, and is read as what it encodes. -/
theorem reads_of_encodes {v : Record} {e : ℕ} (h : Encodes b p o v e) :
    Reads b p .field o (some (v, e)) := by
  obtain ⟨limit, hlimit⟩ := Settles.exists (settlesPart_of_encodesPart h)
  exact reads_of_decode (allows_some.mpr hlimit)

end Reads

end MaxMindDB
