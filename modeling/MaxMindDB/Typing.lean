import MaxMindDB.Nesting

/-!
# The types of what is decoded

The size of a field is compared with its type for a `double` and a `float` only, the key of a map is
whatever is decoded there, and the check of an extended type byte is off by one. So a value that is
decoded is well-typed (`WellTypedAt`) exactly when the bytes are (`Typed`).
-/

namespace MaxMindDB

open Octets Raising Except Recursion

/-- The value is a string. -/
def Record.IsStr (v : Record) : Prop := ∃ s, v = .str s

/-- What the decoder makes of the field at an offset is of the type that it announces: an unsigned
integer has no more bytes than its type, and so is in its range; the keys of a map are strings; a type
that stands in an extended type byte is one that needs it. -/
structure WellTypedAt (b : Bytes) (p o : ℕ) : Prop where
  uint : ∀ type s q w, (Decoder.ofBytes b p).header o = .ok (type, s, q) →
    type.uintBytes = some w → s ≤ w ∧ ∀ limit v e, (Decoder.ofBytes b p).decode limit o = .ok (v, e) →
      ∃ n : ℕ, v = .int n ∧ n < 256 ^ w
  keys : ∀ limit items e, (Decoder.ofBytes b p).decode limit o = .ok (.dict items, e) →
    ∀ item ∈ items, item.1.IsStr
  extended : ∀ c n q, (Decoder.ofBytes b p).buffer.getItem o = .ok c → c.toNat >>> 5 = 0 →
    (Decoder.ofBytes b p).readExtended (o + 1) = .ok (n, q) → 8 ≤ n

/-- A string at an offset, or behind the pointers there. -/
inductive StringAt (b : Bytes) (p : ℕ) : ℕ → Prop where
  | here {o s q : ℕ} : FieldStart b o .utf8String s q → StringAt b p o
  | behind {o target e : ℕ} : PointerAt b p o target e → StringAt b p target → StringAt b p o

/-- The bytes of the field at an offset are as its type demands: an unsigned integer announces no more
bytes than its type has, the keys of a map are strings, and an extended type byte is not zero. -/
structure Typed (b : Bytes) (p o : ℕ) : Prop where
  uint : ∀ type s q w, FieldStart b o type s q → type.uintBytes = some w → s ≤ w
  keys : ∀ s q x, FieldStart b o .map s q → ItemFrom b p s q .key x → StringAt b p x
  extended : ∀ c, b[o]? = some c → c.toNat / 32 = 0 → b[o + 1]? ≠ some 0

/-! ## Dictionaries -/

theorem isStr_of_keyEq {k k' : Record} (hk : k.IsStr) (h : k.keyEq k') : k'.IsStr := by
  obtain ⟨s, rfl⟩ := hk
  cases k' with
  | str s' => exact ⟨s', rfl⟩
  | _ => simp [Record.keyEq, Record.num?] at h

theorem forall_dictSet {items : List (Record × Record)} {key value : Record} :
    (∀ item ∈ dictSet items key value, item.1.IsStr) ↔
      (∀ item ∈ items, item.1.IsStr) ∧ key.IsStr := by
  induction items with
  | nil => simp [dictSet]
  | cons item items ih =>
    rw [dictSet]
    split_ifs with h
    · simp only [List.forall_mem_cons]
      constructor
      · rintro ⟨hitem, hitems⟩
        exact ⟨⟨hitem, hitems⟩, isStr_of_keyEq hitem h⟩
      · rintro ⟨⟨hitem, hitems⟩, -⟩
        exact ⟨hitem, hitems⟩
    · rw [List.forall_mem_cons, ih, List.forall_mem_cons, and_assoc]

section

variable {b : Bytes} {p o s q limit e : ℕ} {type : FieldType} {v : Record}

/-! ## Strings -/

theorem stringAt_of_start (hstart : FieldStart b o type s q) (hp : type ≠ .pointer) :
    StringAt b p o ↔ type = .utf8String := by
  constructor
  · intro h
    cases h with
    | here hstring => exact (hstart.unique hstring).1
    | behind hpointer =>
      obtain ⟨s', q', hstart', -⟩ := hpointer.start
      exact absurd (hstart.unique hstart').1 hp
  · rintro rfl
    exact .here hstart

theorem stringAt_of_pointer {target : ℕ} (hpointer : PointerAt b p o target e) :
    StringAt b p o ↔ StringAt b p target := by
  constructor
  · intro h
    cases h with
    | here hstring =>
      obtain ⟨s, q, hstart, -⟩ := hpointer.start
      cases (hstart.unique hstring).1
    | behind hpointer' hstring =>
      rw [hpointer.unique hpointer']
      exact hstring
  · exact .behind hpointer

theorem ScalarAt.isStr_iff (h : ScalarAt b s q type (some (v, e))) :
    v.IsStr ↔ type = .utf8String := by
  have hne : ∀ {x : Record}, (∀ t, x ≠ .str t) → ¬ x.IsStr := fun h ⟨t, ht⟩ => h t ht
  generalize hout : some (v, e) = out at h
  cases h with
  | utf8String =>
    obtain ⟨x, -, heq⟩ := Option.map_eq_some_iff.mp hout.symm
    cases heq
    exact iff_of_true ⟨x, rfl⟩ rfl
  | uint ht =>
    cases hout
    refine iff_of_false (hne (by nofun)) ?_
    rintro rfl
    exact ht rfl
  | badDouble | badFloat => cases hout
  | _ =>
    cases hout
    exact iff_of_false (hne (by nofun)) (by nofun)

theorem decodeArray_eq_list {decode : DecodeCall} {array : List Record}
    (h : Decoder.decodeArray decode s q array = .ok (v, e)) : ∃ xs, v = .list xs := by
  induction s generalizing q array with
  | zero =>
    cases h
    exact ⟨array, rfl⟩
  | succ s ih =>
    obtain ⟨x, -, h⟩ := bind_eq_ok.mp h
    exact ih h

theorem decodeMap_eq_dict {decode : DecodeCall} {container : List (Record × Record)}
    (h : Decoder.decodeMap decode s q container = .ok (v, e)) : ∃ items, v = .dict items := by
  induction s generalizing q container with
  | zero =>
    cases h
    exact ⟨container, rfl⟩
  | succ s ih =>
    rw [decodeMap_succ] at h
    obtain ⟨k, -, h⟩ := bind_eq_ok.mp h
    obtain ⟨x, -, h⟩ := bind_eq_ok.mp h
    split_ifs at h
    exact ih h

theorem isStr_iff (h : (Decoder.ofBytes b p).decode limit o = .ok (v, e)) :
    v.IsStr ↔ StringAt b p o := by
  induction limit generalizing o v e with
  | zero => cases h
  | succ limit ih =>
    rw [Decoder.decode_succ] at h
    obtain ⟨⟨type, s, q⟩, hheader, h⟩ := bind_eq_ok.mp h
    have hstart := start_of_header hheader
    by_cases hp : type = .pointer
    · subst hp
      obtain ⟨⟨target, e'⟩, hread, h⟩ := bind_eq_ok.mp h
      obtain ⟨x, hx, heq⟩ := bind_eq_ok.mp h
      cases heq
      rw [ih hx, stringAt_of_pointer (pointerAt_of_read hstart hread)]
    · rw [stringAt_of_start hstart hp]
      by_cases hm : type = .map
      · subst hm
        obtain ⟨items, rfl⟩ := decodeMap_eq_dict h
        exact iff_of_false (fun ⟨t, ht⟩ => by cases ht) (by nofun)
      · by_cases ha : type = .array
        · subst ha
          obtain ⟨xs, rfl⟩ := decodeArray_eq_list h
          exact iff_of_false (fun ⟨t, ht⟩ => by cases ht) (by nofun)
        · exact ((allows_scalar hp hm ha).mp (allows_some.mpr h)).isStr_iff

/-! ## Keys -/

theorem itemFrom_key_succ {m m' x : ℕ} {k : Record} (hk : Reads b p .field o (some (k, m)))
    (hv : Reads b p .field m (some (v, m'))) (hh : k.hashable) :
    ItemFrom b p (s + 1) o .key x ↔ x = o ∨ ItemFrom b p s m' .key x := by
  constructor
  · intro h
    cases h with
    | key => exact .inl rfl
    | later hk' hv' _ hx =>
      obtain ⟨-, rfl⟩ := reads_unique hk hk'
      obtain ⟨-, rfl⟩ := reads_unique hv hv'
      exact .inr hx
  · rintro (rfl | hx)
    · exact .key
    · exact .later hk hv hh hx

/-- The keys of a dictionary that is decoded are strings when those of the container so far are, and the
key of every item is a string behind the pointers. -/
theorem forall_isStr_iff {items container : List (Record × Record)}
    (h : Decoder.decodeMap ((Decoder.ofBytes b p).decode limit) s q container =
      .ok (.dict items, e)) :
    (∀ item ∈ items, item.1.IsStr) ↔
      (∀ item ∈ container, item.1.IsStr) ∧ ∀ x, ItemFrom b p s q .key x → StringAt b p x := by
  induction s generalizing q container with
  | zero =>
    cases h
    exact ⟨fun h => ⟨h, fun x hx => by cases hx⟩, fun h => h.1⟩
  | succ s ih =>
    rw [decodeMap_succ] at h
    obtain ⟨k, hk, h⟩ := bind_eq_ok.mp h
    obtain ⟨x, hx, h⟩ := bind_eq_ok.mp h
    split_ifs at h with hh
    have hkey : ∀ y, ItemFrom b p (s + 1) q .key y ↔ y = q ∨ ItemFrom b p s x.2 .key y := fun y =>
      itemFrom_key_succ (reads_of_decode_eq_ok hk) (reads_of_decode_eq_ok hx) hh
    rw [ih h, forall_dictSet, isStr_iff hk, and_assoc]
    refine and_congr_right fun _ => ?_
    constructor
    · rintro ⟨hstring, hitems⟩ y hy
      rcases (hkey y).mp hy with rfl | hy
      · exact hstring
      · exact hitems y hy
    · intro hitems
      exact ⟨hitems q .key, fun y hy => hitems y ((hkey y).mpr (.inr hy))⟩

theorem exists_map_of_decode {items : List (Record × Record)}
    (h : (Decoder.ofBytes b p).decode limit o = .ok (.dict items, e)) :
    ∃ x s q limit' e', Meets b p o x ∧ FieldStart b x .map s q ∧
      Decoder.decodeMap ((Decoder.ofBytes b p).decode limit') s q [] = .ok (.dict items, e') := by
  induction limit generalizing o e with
  | zero => cases h
  | succ limit ih =>
    rw [Decoder.decode_succ] at h
    obtain ⟨⟨type, s, q⟩, hheader, h⟩ := bind_eq_ok.mp h
    have hstart := start_of_header hheader
    by_cases hp : type = .pointer
    · subst hp
      obtain ⟨⟨target, e'⟩, hread, h⟩ := bind_eq_ok.mp h
      obtain ⟨⟨v, e''⟩, hv, heq⟩ := bind_eq_ok.mp h
      cases heq
      obtain ⟨x, s', q', limit', e', hx, hmap⟩ := ih hv
      exact ⟨x, s', q', limit', e', .head (.target (pointerAt_of_read hstart hread)) hx, hmap⟩
    · by_cases hm : type = .map
      · subst hm
        exact ⟨o, s, q, limit, e, .refl, hstart, h⟩
      · by_cases ha : type = .array
        · subst ha
          obtain ⟨xs, hxs⟩ := decodeArray_eq_list h
          cases hxs
        · have hscalar := (allows_scalar hp hm ha).mp (allows_some.mpr h)
          generalize hout : some (Record.dict items, e) = out at hscalar
          cases hscalar with
          | utf8String =>
            obtain ⟨x, -, heq⟩ := Option.map_eq_some_iff.mp hout.symm
            cases heq
          | _ => cases hout

/-! ## Unsigned integers and extended types -/

theorem decode_of_uint {w : ℕ} (hstart : FieldStart b o type s q) (ht : type.uintBytes = some w)
    (h : (Decoder.ofBytes b p).decode limit o = .ok (v, e)) :
    v = .int (beNat (slice b q (q + s))) := by
  cases limit with
  | zero => cases h
  | succ limit =>
    have hallows := (allows_decode_of_start hstart).mp (allows_some.mpr h)
    cases type with
    | uint16 | uint32 | uint64 | uint128 =>
      cases allows_some.mp hallows
      rfl
    | _ => cases ht

theorem beNat_slice_lt {w : ℕ} (h : s ≤ w) : beNat (slice b q (q + s)) < 256 ^ w := by
  calc beNat (slice b q (q + s)) < 256 ^ (slice b q (q + s)).length := beNat_lt _
    _ ≤ 256 ^ w := by
      refine Nat.pow_le_pow_right (by omega) ?_
      rw [length_slice]
      omega

theorem readExtended_eq_ok {x : UInt8} (h : b[o]? = some x) :
    (Decoder.ofBytes b p).readExtended o = .ok (x.toNat + 7, o + 1) :=
  allows_some.mp (allows_readExtended.mpr ⟨x, h, rfl⟩)

theorem extended_iff :
    (∀ c n q, (Decoder.ofBytes b p).buffer.getItem o = .ok c → c.toNat >>> 5 = 0 →
      (Decoder.ofBytes b p).readExtended (o + 1) = .ok (n, q) → 8 ≤ n) ↔
      ∀ c, b[o]? = some c → c.toNat / 32 = 0 → b[o + 1]? ≠ some 0 := by
  constructor
  · intro h c hc h0 hx
    have hle : 8 ≤ (0 : UInt8).toNat + 7 :=
      h c _ _ (bytesGetItem_eq_ok.mpr hc) (by rw [shiftRight_five]; exact h0) (readExtended_eq_ok hx)
    exact absurd hle (by decide)
  · intro h c n q hc h0 hread
    obtain ⟨x, hx, heq⟩ := allows_readExtended.mp (allows_some.mpr hread)
    cases heq
    have hne : x.toNat ≠ 0 := by
      intro hzero
      have hx0 : x = 0 := UInt8.toNat_inj.mp hzero
      exact h c (bytesGetItem_eq_ok.mp hc) (by rw [← shiftRight_five]; exact h0) (hx0 ▸ hx)
    omega

end

/-! ## Well-typed values -/

/-- Bytes that are as their types demand are decoded as well-typed values. -/
theorem wellTypedAt_of_typed {b : Bytes} {p o : ℕ} (h : ∀ x, Meets b p o x → Typed b p x) :
    WellTypedAt b p o where
  uint := by
    intro type s q w hheader ht
    have hstart := start_of_header hheader
    have hle := (h o .refl).uint type s q w hstart ht
    refine ⟨hle, fun limit v e hdecode => ?_⟩
    exact ⟨_, decode_of_uint hstart ht hdecode, beNat_slice_lt hle⟩
  keys := by
    intro limit items e hdecode
    obtain ⟨x, s, q, limit', e', hx, hstart, hmap⟩ := exists_map_of_decode hdecode
    exact (forall_isStr_iff hmap).mpr ⟨nofun, fun y => (h x hx).keys s q y hstart⟩
  extended := extended_iff.mpr (h o .refl).extended

/-- Bytes of a field that is decoded, as a value that is well-typed. -/
theorem typed_of_wellTypedAt {b : Bytes} {p o limit e : ℕ} {v : Record}
    (hdecode : (Decoder.ofBytes b p).decode limit o = .ok (v, e)) (h : WellTypedAt b p o) :
    Typed b p o where
  uint := fun type s q w hstart ht => (h.uint type s q w (header_of_start hstart) ht).1
  keys := by
    intro s q x hstart
    cases limit with
    | zero => cases hdecode
    | succ limit =>
      have hmap : Decoder.decodeMap ((Decoder.ofBytes b p).decode limit) s q [] = .ok (v, e) :=
        allows_some.mp ((allows_decode_of_start hstart).mp (allows_some.mpr hdecode))
      obtain ⟨items, rfl⟩ := decodeMap_eq_dict hmap
      exact ((forall_isStr_iff hmap).mp (h.keys _ items e hdecode)).2 x
  extended := extended_iff.mp h.extended

/-- **When only well-typed values are decoded.** -/
theorem wellTyped_iff (b : Bytes) (p o : ℕ) :
    (∀ limit v e, (Decoder.ofBytes b p).decode limit o = .ok (v, e) →
      ∀ x, (Decoder.ofBytes b p).Reaches o x → WellTypedAt b p x) ↔
      ∀ v e, Reads b p .field o (some (v, e)) → ∀ x, Meets b p o x → Typed b p x := by
  constructor
  · intro h v e hreads x hx
    obtain ⟨limit, hdecode⟩ := (eventually_decode_of_reads hreads).exists
    have hreach := meets_iff.mp hx
    obtain ⟨limit', v', e', hdecode'⟩ := exists_decode_of_reaches hreach hdecode
    exact typed_of_wellTypedAt hdecode' (h limit v e hdecode x hreach)
  · intro h limit v e hdecode x hx
    have htyped := h v e (reads_of_decode_eq_ok hdecode)
    exact wellTypedAt_of_typed fun y hy => htyped y ((meets_iff.mpr hx).trans hy)

/-- An extended type byte of zero is taken for the type of a map: an empty one is decoded. -/
theorem not_wellTyped : ¬ ∀ (b : Bytes) (p o limit : ℕ) (v : Record) (e : ℕ),
    (Decoder.ofBytes b p).decode limit o = .ok (v, e) →
      ∀ x, (Decoder.ofBytes b p).Reaches o x → WellTypedAt b p x := by
  intro h
  have htyped := h [0x00, 0x00] 0 0 1 (.dict []) 2 rfl 0 .refl
  have hle : 8 ≤ 7 := htyped.extended 0x00 7 2 rfl rfl rfl
  omega

end MaxMindDB
