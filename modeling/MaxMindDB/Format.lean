import MaxMindDB.Decoder
import MaxMindDB.Lib.Raising

/-!
# The data format

`Encodes b p o v e` says that the bytes of `b` at offset `o` encode the value `v` and end at `e`,
when pointers count from `p`. It is defined on the format alone: the three parts of a header (the
type, in the control byte or in the byte behind it; the size, in the control byte or in up to
three bytes behind the type), the payload of each type, and the four classes of pointers.

`decode_of_encodes`: the decoder returns what is encoded, and the end of the field itself.
-/

namespace MaxMindDB

open Octets Raising

/-! ## Headers -/

/-- The control byte `c` at `o` announces a field of the given type, and the bytes that hold the
type end at `q`. Types above 7 stand in the byte behind the control byte, less 7. -/
inductive TypeAt (b : Bytes) (o : ℕ) (c : UInt8) : FieldType → ℕ → Prop where
  | direct {type : FieldType} : HasBytes b o [c] → c.toNat / 32 = type.num →
      TypeAt b o c type (o + 1)
  | extended {type : FieldType} {x : UInt8} : HasBytes b o [c, x] → c.toNat / 32 = 0 →
      7 < type.num → x.toNat + 7 = type.num → TypeAt b o c type (o + 2)

/-- With control byte `c` and size bytes from `q` on, the size is `s` and its bytes end at `q'`. -/
inductive SizeAt (b : Bytes) (c : UInt8) (q : ℕ) : ℕ → ℕ → Prop where
  | inline : c.toNat % 32 < 29 → SizeAt b c q (c.toNat % 32) q
  | one {xs : Bytes} : c.toNat % 32 = 29 → xs.length = 1 → HasBytes b q xs →
      SizeAt b c q (29 + beNat xs) (q + 1)
  | two {xs : Bytes} : c.toNat % 32 = 30 → xs.length = 2 → HasBytes b q xs →
      SizeAt b c q (285 + beNat xs) (q + 2)
  | three {xs : Bytes} : c.toNat % 32 = 31 → xs.length = 3 → HasBytes b q xs →
      SizeAt b c q (65821 + beNat xs) (q + 3)

/-- A field at `o` of the given type and size, whose payload begins at `q`. -/
def HeaderAt (b : Bytes) (o : ℕ) (type : FieldType) (s q : ℕ) : Prop :=
  ∃ c q', TypeAt b o c type q' ∧ SizeAt b c q' s q

/-- A pointer at `o` to the offset `target`, ending at `e`. The control byte holds the class of the
pointer and, but for the last class, the three high bits of its value. -/
inductive PointerAt (b : Bytes) (p o : ℕ) : ℕ → ℕ → Prop where
  | class0 {c : UInt8} {xs : Bytes} : HasBytes b o (c :: xs) → c.toNat / 32 = 1 →
      c.toNat % 32 / 8 = 0 → xs.length = 1 →
      PointerAt b p o (p + (c.toNat % 8 * 256 + beNat xs)) (o + 2)
  | class1 {c : UInt8} {xs : Bytes} : HasBytes b o (c :: xs) → c.toNat / 32 = 1 →
      c.toNat % 32 / 8 = 1 → xs.length = 2 →
      PointerAt b p o (p + (c.toNat % 8 * 256 ^ 2 + beNat xs + 2048)) (o + 3)
  | class2 {c : UInt8} {xs : Bytes} : HasBytes b o (c :: xs) → c.toNat / 32 = 1 →
      c.toNat % 32 / 8 = 2 → xs.length = 3 →
      PointerAt b p o (p + (c.toNat % 8 * 256 ^ 3 + beNat xs + 526336)) (o + 4)
  | class3 {c : UInt8} {xs : Bytes} : HasBytes b o (c :: xs) → c.toNat / 32 = 1 →
      c.toNat % 32 / 8 = 3 → xs.length = 4 →
      PointerAt b p o (p + beNat xs) (o + 5)

/-! ## Values -/

/-- The bytes `xs` are an `int32` field of value `i`: leading zero bytes may be dropped, and a
negative value takes four bytes. -/
def Int32Bytes (xs : Bytes) (i : ℤ) : Prop :=
  (xs.length ≤ 4 ∧ (beNat xs : ℤ) = i ∧ i < 2 ^ 31) ∨
    (xs.length = 4 ∧ (beNat xs : ℤ) = i + 2 ^ 32 ∧ -2 ^ 31 ≤ i ∧ i < 0)

/-- The unsigned types, and the number of bytes each may take. -/
def FieldType.uintBytes : FieldType → Option ℕ
  | .uint16 => some 2
  | .uint32 => some 4
  | .uint64 => some 8
  | .uint128 => some 16
  | _ => none

/-- The dictionary of a list of items, where a later duplicate of a key wins. -/
def dictOf (items : List (String × Record)) : List (Record × Record) :=
  items.foldl (fun container item => dictSet container (.str item.1) item.2) []

/-- What a stretch of bytes encodes: one field, the elements of an array, or the items of a map. -/
inductive Part where
  | field (v : Record)
  | elements (vs : List Record)
  | items (kvs : List (String × Record))

/-- The bytes of `b` from `o` to `e` encode a part. -/
inductive EncodesPart (b : Bytes) (p : ℕ) : ℕ → Part → ℕ → Prop where
  | utf8String {o q : ℕ} {s : String} : HeaderAt b o .utf8String (encodeUtf8 s).length q →
      HasBytes b q (encodeUtf8 s) →
      EncodesPart b p o (.field (.str s)) (q + (encodeUtf8 s).length)
  | bytes {o q : ℕ} {xs : Bytes} : HeaderAt b o .bytes xs.length q → HasBytes b q xs →
      EncodesPart b p o (.field (.bytes xs)) (q + xs.length)
  | double {o q : ℕ} {xs : Bytes} : HeaderAt b o .double 8 q → xs.length = 8 → HasBytes b q xs →
      EncodesPart b p o (.field (.double xs)) (q + 8)
  | float {o q : ℕ} {xs : Bytes} : HeaderAt b o .float 4 q → xs.length = 4 → HasBytes b q xs →
      EncodesPart b p o (.field (.float xs)) (q + 4)
  | uint {o q w : ℕ} {xs : Bytes} {type : FieldType} : type.uintBytes = some w →
      HeaderAt b o type xs.length q → xs.length ≤ w → HasBytes b q xs →
      EncodesPart b p o (.field (.int (beNat xs))) (q + xs.length)
  | int32 {o q : ℕ} {xs : Bytes} {i : ℤ} : HeaderAt b o .int32 xs.length q → Int32Bytes xs i →
      HasBytes b q xs → EncodesPart b p o (.field (.int i)) (q + xs.length)
  | boolean {o q : ℕ} {v : Bool} : HeaderAt b o .boolean v.toNat q →
      EncodesPart b p o (.field (.bool v)) q
  | array {o q e : ℕ} {vs : List Record} : HeaderAt b o .array vs.length q →
      EncodesPart b p q (.elements vs) e → EncodesPart b p o (.field (.list vs)) e
  | map {o q e : ℕ} {kvs : List (String × Record)} : HeaderAt b o .map kvs.length q →
      EncodesPart b p q (.items kvs) e → EncodesPart b p o (.field (.dict (dictOf kvs))) e
  | pointer {o e target e' : ℕ} {v : Record} : PointerAt b p o target e →
      EncodesPart b p target (.field v) e' → EncodesPart b p o (.field v) e
  | noElements {o : ℕ} : EncodesPart b p o (.elements []) o
  | element {o m e : ℕ} {v : Record} {vs : List Record} : EncodesPart b p o (.field v) m →
      EncodesPart b p m (.elements vs) e → EncodesPart b p o (.elements (v :: vs)) e
  | noItems {o : ℕ} : EncodesPart b p o (.items []) o
  | item {o m m' e : ℕ} {k : String} {v : Record} {kvs : List (String × Record)} :
      EncodesPart b p o (.field (.str k)) m → EncodesPart b p m (.field v) m' →
      EncodesPart b p m' (.items kvs) e → EncodesPart b p o (.items ((k, v) :: kvs)) e

/-- The bytes of `b` at `o`, with pointer base `p`, encode `v` and end at `e`. -/
abbrev Encodes (b : Bytes) (p o : ℕ) (v : Record) (e : ℕ) : Prop := EncodesPart b p o (.field v) e

/-! ## Encodings inside a larger string -/

section Embed

variable {b : Bytes} {p o e s q : ℕ} (pre post : Bytes)

theorem TypeAt.embed {c : UInt8} {type : FieldType} (h : TypeAt b o c type q) :
    TypeAt (pre ++ b ++ post) (pre.length + o) c type (pre.length + q) := by
  cases h with
  | direct hb hc => exact .direct (hb.embed pre post) hc
  | extended hb hc hgt hx => exact .extended (hb.embed pre post) hc hgt hx

theorem SizeAt.embed {c : UInt8} (h : SizeAt b c o s q) :
    SizeAt (pre ++ b ++ post) c (pre.length + o) s (pre.length + q) := by
  cases h with
  | inline hc => exact .inline hc
  | one hc hx hb => exact .one hc hx (hb.embed pre post)
  | two hc hx hb => exact .two hc hx (hb.embed pre post)
  | three hc hx hb => exact .three hc hx (hb.embed pre post)

theorem HeaderAt.embed {type : FieldType} (h : HeaderAt b o type s q) :
    HeaderAt (pre ++ b ++ post) (pre.length + o) type s (pre.length + q) := by
  obtain ⟨c, q', htype, hsize⟩ := h
  exact ⟨c, pre.length + q', htype.embed pre post, hsize.embed pre post⟩

theorem PointerAt.embed {target : ℕ} (h : PointerAt b p o target e) :
    PointerAt (pre ++ b ++ post) (pre.length + p) (pre.length + o) (pre.length + target)
      (pre.length + e) := by
  cases h with
  | class0 hb hc hk hx =>
    rw [← Nat.add_assoc]
    exact .class0 (hb.embed pre post) hc hk hx
  | class1 hb hc hk hx =>
    rw [← Nat.add_assoc]
    exact .class1 (hb.embed pre post) hc hk hx
  | class2 hb hc hk hx =>
    rw [← Nat.add_assoc]
    exact .class2 (hb.embed pre post) hc hk hx
  | class3 hb hc hk hx =>
    rw [← Nat.add_assoc]
    exact .class3 (hb.embed pre post) hc hk hx

/-- What is encoded in a string is encoded in it after bytes are put before and behind, when
pointers count from a base moved along. -/
theorem EncodesPart.embed {part : Part} (h : EncodesPart b p o part e) :
    EncodesPart (pre ++ b ++ post) (pre.length + p) (pre.length + o) part (pre.length + e) := by
  induction h with
  | utf8String hh hb =>
    rw [← Nat.add_assoc]
    exact .utf8String (hh.embed pre post) (hb.embed pre post)
  | bytes hh hb =>
    rw [← Nat.add_assoc]
    exact .bytes (hh.embed pre post) (hb.embed pre post)
  | double hh hx hb => exact .double (hh.embed pre post) hx (hb.embed pre post)
  | float hh hx hb => exact .float (hh.embed pre post) hx (hb.embed pre post)
  | uint ht hh hx hb =>
    rw [← Nat.add_assoc]
    exact .uint ht (hh.embed pre post) hx (hb.embed pre post)
  | int32 hh hi hb =>
    rw [← Nat.add_assoc]
    exact .int32 (hh.embed pre post) hi (hb.embed pre post)
  | boolean hh => exact .boolean (hh.embed pre post)
  | array hh _ ih => exact .array (hh.embed pre post) ih
  | map hh _ ih => exact .map (hh.embed pre post) ih
  | pointer hp _ ih => exact .pointer (hp.embed pre post) ih
  | noElements => exact .noElements
  | element _ _ ih ihs => exact .element ih ihs
  | noItems => exact .noItems
  | item _ _ _ ihk ihv ihs => exact .item ihk ihv ihs

theorem lt_length_of_encodes {v : Record} (h : Encodes b p o v e) : o < b.length := by
  have key : ∀ {c : UInt8} {xs : Bytes}, HasBytes b o (c :: xs) → o < b.length := fun hb => by
    have := hb.length_le (List.cons_ne_nil _ _)
    rw [List.length_cons] at this
    omega
  have hheader : ∀ {type : FieldType} {s q : ℕ}, HeaderAt b o type s q → o < b.length := by
    rintro type s q ⟨c, q', htype, -⟩
    cases htype with
    | direct hb => exact key hb
    | extended hb => exact key hb
  cases h with
  | utf8String hh => exact hheader hh
  | bytes hh => exact hheader hh
  | double hh => exact hheader hh
  | float hh => exact hheader hh
  | uint _ hh => exact hheader hh
  | int32 hh => exact hheader hh
  | boolean hh => exact hheader hh
  | array hh => exact hheader hh
  | map hh => exact hheader hh
  | pointer hp =>
    cases hp with
    | class0 hb => exact key hb
    | class1 hb => exact key hb
    | class2 hb => exact key hb
    | class3 hb => exact key hb

end Embed

/-! ## Dictionaries without duplicates -/

theorem dictSet_of_forall {items : List (Record × Record)} {key value : Record}
    (h : ∀ item ∈ items, item.1.keyEq key = false) :
    dictSet items key value = items ++ [(key, value)] := by
  induction items with
  | nil => rfl
  | cons item items ih =>
    rw [dictSet, if_neg (by simp [h item List.mem_cons_self]),
      ih fun item hi => h item (List.mem_cons_of_mem _ hi)]
    rfl

/-- The dictionary of items with different keys lists them. -/
theorem dictOf_of_nodup {kvs : List (String × Record)} (h : (kvs.map Prod.fst).Nodup) :
    dictOf kvs = kvs.map fun kv => (.str kv.1, kv.2) := by
  have key : ∀ container : List (String × Record), ((container ++ kvs).map Prod.fst).Nodup →
      kvs.foldl (fun c item => dictSet c (.str item.1) item.2)
        (container.map fun kv => (Record.str kv.1, kv.2)) =
          (container ++ kvs).map fun kv => (Record.str kv.1, kv.2) := by
    clear h
    induction kvs with
    | nil => simp
    | cons kv kvs ih =>
      intro container hnodup
      have hnew : dictSet (container.map fun kv => (Record.str kv.1, kv.2)) (.str kv.1) kv.2 =
          (container ++ [kv]).map fun kv => (Record.str kv.1, kv.2) := by
        rw [dictSet_of_forall, List.map_append]
        · rfl
        · intro item hitem
          obtain ⟨kv', hmem, rfl⟩ := List.mem_map.mp hitem
          rw [List.map_append, List.nodup_append] at hnodup
          have hne := hnodup.2.2 kv'.1 (List.mem_map_of_mem hmem) kv.1 (by simp)
          simpa using hne
      rw [List.foldl_cons, hnew, ih (container ++ [kv]) (by simpa using hnodup), List.append_assoc]
      rfl
  simpa [dictOf] using key [] (by simpa using h)

theorem dictGet_dictOf {kvs : List (String × Record)} {k : String} {v : Record}
    (h : (kvs.map Prod.fst).Nodup) (hm : (k, v) ∈ kvs) : dictGet (dictOf kvs) k = some v := by
  have hf : (dictOf kvs).find? (fun item => item.1.keyEq (.str k)) = some (.str k, v) := by
    rw [dictOf_of_nodup h]
    induction kvs with
    | nil => cases hm
    | cons kv kvs ih =>
      rw [List.map_cons, List.nodup_cons] at h
      rcases List.mem_cons.mp hm with rfl | hm
      · simp
      · have hne : kv.1 ≠ k := by
          rintro rfl
          exact h.1 (List.mem_map.mpr ⟨_, hm, rfl⟩)
        simpa [hne] using ih h.2 hm
  rw [dictGet, hf]

/-! ## The decoder reads what a header says -/

/-- The decoder of a byte string. -/
abbrev Decoder.ofBytes (b : Bytes) (p : ℕ) : Decoder where
  buffer := .ofBytes b
  pointerBase := p

theorem hasBytes_head {b xs : Bytes} {o : ℕ} {c : UInt8} (h : HasBytes b o (c :: xs)) :
    bytesGetItem b o = .ok c :=
  bytesGetItem_eq_ok.mpr (by simpa using h.getElem? (k := 0) (by simp))

theorem hasBytes_tail {b xs : Bytes} {o : ℕ} {c : UInt8} (h : HasBytes b o (c :: xs)) :
    HasBytes b (o + 1) xs := by
  obtain ⟨t, ht⟩ := h
  exact ⟨t, by rw [← List.drop_drop, ← ht]; rfl⟩

theorem shiftRight_five (n : ℕ) : n >>> 5 = n / 32 := Nat.shiftRight_eq_div_pow n 5

theorem shiftRight_three (n : ℕ) : n >>> 3 = n / 8 := Nat.shiftRight_eq_div_pow n 3

theorem and_31 (n : ℕ) : n &&& 31 = n % 32 := Nat.and_two_pow_sub_one_eq_mod n 5

theorem and_7 (n : ℕ) : n &&& 7 = n % 8 := Nat.and_two_pow_sub_one_eq_mod n 3

theorem SizeAt.sizeFromCtrlByte {b : Bytes} {c : UInt8} {q s q' p n : ℕ} (h : SizeAt b c q s q')
    (hn : n ≠ 1) : (Decoder.ofBytes b p).sizeFromCtrlByte c q n = .ok (s, q') := by
  unfold Decoder.sizeFromCtrlByte
  rw [and_31]
  cases h with
  | inline hc => simp [hc]
  | @one xs hc hx hb =>
    obtain ⟨x, rfl⟩ := List.length_eq_one_iff.mp hx
    simp [hc, hn, hasBytes_head hb, beNat_singleton]
  | two hc hx hb => simp [hc, hn, slice_of_hasBytes hb hx, unpack_of_length hx]
  | @three xs hc hx hb =>
    have h4 : (0 :: xs).length = 4 := by simp [hx]
    simp [hc, hn, slice_of_hasBytes hb hx, unpack_of_length h4, beNat_cons, Nat.add_comm]

/-- The control byte `c` at `o` announces type number `n`, whether or not there is such a type, and the
bytes that hold it end at `q`. -/
inductive ControlAt (b : Bytes) (o : ℕ) : UInt8 → ℕ → ℕ → Prop where
  | direct {c : UInt8} : b[o]? = some c → c.toNat / 32 ≠ 0 →
      ControlAt b o c (c.toNat / 32) (o + 1)
  | extended {c x : UInt8} : b[o]? = some c → c.toNat / 32 = 0 → b[o + 1]? = some x →
      ControlAt b o c (x.toNat + 7) (o + 2)

theorem ControlAt.header {b : Bytes} {o p n q : ℕ} {c : UInt8} (h : ControlAt b o c n q) :
    (Decoder.ofBytes b p).header o =
      match typeDecoder n with
      | none => .error (.invalidDatabaseError (.unexpectedType n))
      | some type => (Decoder.ofBytes b p).sizeFromCtrlByte c q n >>= fun x => .ok (type, x) := by
  unfold Decoder.header
  simp only [Sliceable.ofBytes_getItem, shiftRight_five]
  cases h with
  | direct hc h0 =>
    rw [bytesGetItem_eq_ok.mpr hc]
    simp only [Except.ok_bind, if_neg h0, Except.pure_eq_ok]
    cases typeDecoder (c.toNat / 32) <;> rfl
  | @extended x hc h0 hx =>
    have hext : (Decoder.ofBytes b p).readExtended (o + 1) = .ok (x.toNat + 7, o + 2) := by
      simp [Decoder.readExtended, bytesGetItem_eq_ok.mpr hx]
    rw [bytesGetItem_eq_ok.mpr hc]
    simp only [Except.ok_bind, if_pos h0, hext]
    cases typeDecoder (x.toNat + 7) <;> rfl

theorem TypeAt.control {b : Bytes} {o q : ℕ} {c : UInt8} {type : FieldType}
    (h : TypeAt b o c type q) : ControlAt b o c type.num q := by
  cases h with
  | direct hb hc =>
    have h0 : type.num ≠ 0 := by cases type <;> simp [FieldType.num]
    rw [← hc] at h0 ⊢
    exact .direct (bytesGetItem_eq_ok.mp (hasBytes_head hb)) h0
  | extended hb hc _ hx =>
    rw [← hx]
    exact .extended (bytesGetItem_eq_ok.mp (hasBytes_head hb)) hc
      (bytesGetItem_eq_ok.mp (hasBytes_head (hasBytes_tail hb)))

theorem num_eq_one {type : FieldType} : type.num = 1 ↔ type = .pointer := by
  cases type <;> simp [FieldType.num]

theorem HeaderAt.header {b : Bytes} {o s q p : ℕ} {type : FieldType} (h : HeaderAt b o type s q)
    (ht : type ≠ .pointer) : (Decoder.ofBytes b p).header o = .ok (type, s, q) := by
  obtain ⟨c, q', htype, hsize⟩ := h
  rw [htype.control.header, typeDecoder_eq_some.mpr rfl]
  dsimp only
  rw [hsize.sizeFromCtrlByte fun h => ht (num_eq_one.mp h), Except.ok_bind]

theorem beNat_control (c : UInt8) (xs : Bytes) :
    beNat (UInt8.ofNat (c.toNat % 32 % 8) :: xs) =
      c.toNat % 8 * 256 ^ xs.length + beNat xs := by
  have h : (UInt8.ofNat (c.toNat % 32 % 8)).toNat = c.toNat % 8 := by
    rw [UInt8.toNat_ofNat']
    omega
  rw [beNat_cons, h]

/-- The control byte of a pointer is its header: the extended sizes do not apply to it. -/
theorem header_of_pointer {b xs : Bytes} {o p : ℕ} {c : UInt8} (hb : HasBytes b o (c :: xs))
    (hc : c.toNat / 32 = 1) :
    (Decoder.ofBytes b p).header o = .ok (.pointer, c.toNat % 32, o + 1) := by
  have hcontrol : ControlAt b o c (c.toNat / 32) (o + 1) :=
    .direct (bytesGetItem_eq_ok.mp (hasBytes_head hb)) (by omega)
  rw [hcontrol.header, hc]
  simp [typeDecoder, Decoder.sizeFromCtrlByte, and_31]

theorem PointerAt.read {b : Bytes} {p o target e : ℕ} (h : PointerAt b p o target e) :
    ∃ c : UInt8, (Decoder.ofBytes b p).header o = .ok (.pointer, c.toNat % 32, o + 1) ∧
      (Decoder.ofBytes b p).readPointer (c.toNat % 32) (o + 1) = .ok (target, e) := by
  have key : ∀ {c : UInt8} {xs : Bytes} {k : ℕ}, HasBytes b o (c :: xs) → xs.length = k + 1 →
      slice b (o + 1) (o + 1 + (k + 1)) = xs := fun hb hx =>
    slice_of_hasBytes (hasBytes_tail hb) hx
  cases h with
  | @class0 c xs hb hc hk hx =>
    refine ⟨c, header_of_pointer hb hc, ?_⟩
    have hu : unpack 2 (UInt8.ofNat (c.toNat % 32 % 8) :: xs) = .ok (c.toNat % 8 * 256 + beNat xs) := by
      rw [unpack_of_length (by simp [hx]), beNat_control, hx, pow_one]
    simp only [Decoder.readPointer, shiftRight_three, and_7, hk, Sliceable.ofBytes_getSlice,
      key hb hx, if_true, hu, Except.ok_bind, Except.pure_eq_ok]
    simp [Nat.add_comm p]
  | @class1 c xs hb hc hk hx =>
    refine ⟨c, header_of_pointer hb hc, ?_⟩
    have hu : unpack 4 (0 :: UInt8.ofNat (c.toNat % 32 % 8) :: xs) =
        .ok (c.toNat % 8 * 256 ^ 2 + beNat xs) := by
      rw [unpack_of_length (by simp [hx]), beNat_cons, beNat_control, hx]
      simp
    simp only [Decoder.readPointer, shiftRight_three, and_7, hk, Sliceable.ofBytes_getSlice,
      key hb hx, hu, Except.ok_bind, Except.pure_eq_ok]
    simp [Nat.add_comm, Nat.add_assoc]
  | @class2 c xs hb hc hk hx =>
    refine ⟨c, header_of_pointer hb hc, ?_⟩
    have hu : unpack 4 (UInt8.ofNat (c.toNat % 32 % 8) :: xs) =
        .ok (c.toNat % 8 * 256 ^ 3 + beNat xs) := by
      rw [unpack_of_length (by simp [hx]), beNat_control, hx]
    simp only [Decoder.readPointer, shiftRight_three, and_7, hk, Sliceable.ofBytes_getSlice,
      key hb hx, hu, Except.ok_bind, Except.pure_eq_ok]
    simp [Nat.add_comm, Nat.add_assoc]
  | @class3 c xs hb hc hk hx =>
    refine ⟨c, header_of_pointer hb hc, ?_⟩
    simp only [Decoder.readPointer, shiftRight_three, hk, Sliceable.ofBytes_getSlice,
      key hb hx, unpack_of_length hx, Except.ok_bind, Except.pure_eq_ok]
    simp [Nat.add_comm]

/-! ## Decoding undoes encoding -/

theorem Decoder.decode_succ (d : Decoder) (limit o : ℕ) :
    d.decode (limit + 1) o =
      (d.header o >>= fun h => d.decodeType (d.decode limit) h.1 h.2.1 h.2.2) := rfl

theorem Decoder.settles_of_header {d : Decoder} {o s q : ℕ} {type : FieldType}
    {r : Except Exc (Record × ℕ)} (h : d.header o = .ok (type, s, q))
    (hr : Settles (fun limit => d.decodeType (d.decode limit) type s q) r) :
    Settles (fun limit => d.decode limit o) r :=
  hr.succ fun n => by rw [d.decode_succ, h]; rfl

theorem decodeInt32_of_bytes {b xs : Bytes} {q p : ℕ} {i : ℤ} (hb : HasBytes b q xs)
    (hx : Int32Bytes xs i) :
    (Decoder.ofBytes b p).decodeInt32 xs.length q = .ok (.int i, q + xs.length) := by
  have hlen : xs.length ≤ 4 := by rcases hx with h | h <;> omega
  have hval : toInt32 (beNat xs) = i := by
    unfold toInt32
    rcases hx with ⟨-, h1, h2⟩ | ⟨-, h1, h2, h3⟩
    · rw [if_pos (by omega), h1]
    · rw [if_neg (by omega), h1]
      omega
  unfold Decoder.decodeInt32
  by_cases h0 : xs.length = 0
  · obtain rfl := List.length_eq_zero_iff.mp h0
    rw [if_pos h0, ← hval]
    rfl
  · have hpad : unpack 4 (if xs.length ≠ 4 then xs.leftpad 4 0 else xs) = .ok (beNat xs) := by
      split_ifs with h4
      · rw [unpack_of_length (by rw [List.length_leftpad]; omega), List.leftpad,
          beNat_replicate_append]
      · rw [unpack_of_length (by omega)]
    simp only [if_neg h0, Sliceable.ofBytes_getSlice, hb.slice, hpad, Except.ok_bind,
      Except.pure_eq_ok, hval]

/-- What the decoder does with a part: a field is decoded, the elements of an array or the items of
a map are added to those already read. -/
def Decoder.SettlesPart (d : Decoder) (o : ℕ) (e : ℕ) : Part → Prop
  | .field v => Settles (fun limit => d.decode limit o) (.ok (v, e))
  | .elements vs => ∀ array, Settles
      (fun limit => decodeArray (d.decode limit) vs.length o array) (.ok (.list (array ++ vs), e))
  | .items kvs => ∀ container, Settles
      (fun limit => decodeMap (d.decode limit) kvs.length o container)
      (.ok (.dict (kvs.foldl (fun c item => dictSet c (.str item.1) item.2) container), e))

/-- Every part is decoded as what it encodes. -/
theorem settlesPart_of_encodesPart {b : Bytes} {p o e : ℕ} {part : Part}
    (h : EncodesPart b p o part e) : (Decoder.ofBytes b p).SettlesPart o e part := by
  induction h with
  | utf8String hh hb =>
    refine Decoder.settles_of_header (hh.header (by simp)) ?_
    simpa [Decoder.decodeType, Decoder.decodeUtf8String, hb.slice] using settles_const _
  | bytes hh hb =>
    refine Decoder.settles_of_header (hh.header (by simp)) ?_
    simpa [Decoder.decodeType, Decoder.decodeBytes, hb.slice] using settles_const _
  | double hh hx hb =>
    refine Decoder.settles_of_header (hh.header (by simp)) ?_
    simpa [Decoder.decodeType, Decoder.decodeDouble, Decoder.verifySize, slice_of_hasBytes hb hx,
      unpack_of_length hx] using settles_const _
  | float hh hx hb =>
    refine Decoder.settles_of_header (hh.header (by simp)) ?_
    simpa [Decoder.decodeType, Decoder.decodeFloat, Decoder.verifySize, slice_of_hasBytes hb hx,
      unpack_of_length hx] using settles_const _
  | @uint o q w xs type ht hh hx hb =>
    refine Decoder.settles_of_header (hh.header (by rintro rfl; simp [FieldType.uintBytes] at ht)) ?_
    have hread : (Decoder.ofBytes b p).decodeUint xs.length q = .ok (.int (beNat xs), q + xs.length) := by
      simp [Decoder.decodeUint, hb.slice]
    cases type <;> simp only [FieldType.uintBytes, reduceCtorEq] at ht <;>
      simpa only [Decoder.decodeType, hread] using settles_const _
  | int32 hh hi hb =>
    refine Decoder.settles_of_header (hh.header (by simp)) ?_
    simpa only [Decoder.decodeType, decodeInt32_of_bytes hb hi] using settles_const _
  | @boolean o q v hh =>
    refine Decoder.settles_of_header (hh.header (by simp)) ?_
    have hv : (v.toNat != 0) = v := by cases v <;> rfl
    simpa only [Decoder.decodeType, Decoder.decodeBoolean, hv] using settles_const _
  | array hh _ ih =>
    refine Decoder.settles_of_header (hh.header (by simp)) ?_
    simpa [Decoder.decodeType] using ih []
  | map hh _ ih =>
    refine Decoder.settles_of_header (hh.header (by simp)) ?_
    simpa [Decoder.decodeType, dictOf] using ih []
  | pointer hp _ ih =>
    obtain ⟨c, hh, hr⟩ := hp.read
    refine Decoder.settles_of_header hh ?_
    simp only [Decoder.decodeType, Decoder.decodePointer, hr, Except.ok_bind, Bool.false_eq_true,
      if_false]
    exact Settles.bind_ok ih (settles_const _)
  | noElements => intro array; simpa [Decoder.decodeArray] using settles_const _
  | @element o m e v vs _ _ ih ihs =>
    intro array
    simp only [List.length_cons, Decoder.decodeArray]
    refine Settles.bind_ok ih ?_
    simpa using ihs (array ++ [v])
  | noItems => intro container; simpa [Decoder.decodeMap] using settles_const _
  | @item o m m' e k v kvs _ _ _ ihk ihv ihs =>
    intro container
    simp only [List.length_cons, Decoder.decodeMap]
    refine Settles.bind_ok ihk (Settles.bind_ok ihv ?_)
    simpa [Record.hashable] using ihs (dictSet container (.str k) v)

/-- **Decoding undoes encoding.** The decoder returns the value encoded at an offset, and the end
of the field there. -/
theorem decode_of_encodes {b : Bytes} {p o e : ℕ} {v : Record} (h : Encodes b p o v e) :
    Settles (fun limit => (Decoder.ofBytes b p).decode limit o) (.ok (v, e)) :=
  settlesPart_of_encodesPart h

/-- A map whose only key stands behind a pointer: the value is `{"a": 7}`, and it ends before the
key that the pointer leads to. -/
theorem decode_pointerKey : Settles
    (fun limit => (Decoder.ofBytes [0xe1, 0x20, 0x05, 0xa1, 0x07, 0x41, 0x61] 0).decode limit 0)
    (.ok (.dict [(.str "a", .int 7)], 5)) := by
  have hkey : Encodes [0xe1, 0x20, 0x05, 0xa1, 0x07, 0x41, 0x61] 0 5 (.str "a") 7 :=
    .utf8String (q := 6) ⟨0x41, 6, .direct (by decide) (by decide), .inline (by decide)⟩
      (by decide +kernel)
  have hpointer : PointerAt [0xe1, 0x20, 0x05, 0xa1, 0x07, 0x41, 0x61] 0 1 5 3 :=
    .class0 (show HasBytes _ 1 (0x20 :: [0x05]) by decide) (by decide) (by decide) rfl
  have hvalue : Encodes [0xe1, 0x20, 0x05, 0xa1, 0x07, 0x41, 0x61] 0 3 (.int 7) 5 :=
    .uint (show FieldType.uint16.uintBytes = some 2 from rfl)
      ⟨0xa1, 4, .direct (by decide) (by decide), .inline (by decide)⟩ (by decide)
      (show HasBytes _ 4 [0x07] by decide)
  have hitems : EncodesPart [0xe1, 0x20, 0x05, 0xa1, 0x07, 0x41, 0x61] 0 1
      (.items [("a", .int 7)]) 5 := .item (.pointer hpointer hkey) hvalue .noItems
  exact decode_of_encodes
    (.map ⟨0xe1, 1, .direct (by decide) (by decide), .inline (by decide)⟩ hitems)

end MaxMindDB
