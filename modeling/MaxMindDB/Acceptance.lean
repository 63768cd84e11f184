import MaxMindDB.Truncation
import MaxMindDB.Typing

/-!
# What the decoder accepts

The decoder reads all that the format encodes (`decode_of_encodes`), and more: payloads that are cut short,
unsigned integers wider than their type, keys that are no strings, an extended type byte of zero, and
booleans with a size above one.

`encodes_iff`: nothing else. A value is encoded exactly when the decoder returns it and no field that it
comes to on the way is one of these.
-/

namespace MaxMindDB

open Octets Raising Except Recursion

/-- The field at an offset is none that the decoder reads and the format does not have. -/
structure Canonical (b : Bytes) (p o : ℕ) : Prop where
  whole : ¬ CutShort b o
  typed : Typed b p o
  boolean : ∀ s q, FieldStart b o .boolean s q → s ≤ 1

section

variable {b : Bytes} {p o x s q e : ℕ} {type : FieldType} {v : Record}

/-! ## Headers -/

theorem HeaderAt.start (h : HeaderAt b o type s q) (hp : type ≠ .pointer) : FieldStart b o type s q := by
  obtain ⟨c, q', htype, hsize⟩ := h
  exact .sized hp htype.control hsize

/-- A header that the decoder reads is one of the format, unless it has an extended type byte of zero. -/
theorem FieldStart.headerAt (h : FieldStart b o type s q) (hp : type ≠ .pointer)
    (hextended : ∀ c, b[o]? = some c → c.toNat / 32 = 0 → b[o + 1]? ≠ some 0) : HeaderAt b o type s q := by
  cases h with
  | pointer => exact absurd rfl hp
  | @sized c q' _ _ _ _ hcontrol hsize =>
    refine ⟨c, q', ?_, hsize⟩
    generalize hn : type.num = n at hcontrol
    cases hcontrol with
    | direct hc => exact .direct (hasBytes_singleton.mpr hc) hn.symm
    | @extended y hc h0 hy =>
      have hne : y.toNat ≠ 0 := by
        intro hzero
        have hy0 : y = 0 := UInt8.toNat_inj.mp hzero
        exact hextended c hc h0 (hy0 ▸ hy)
      have hb : HasBytes b o ([c] ++ [y]) :=
        hasBytes_append_iff.mpr ⟨hasBytes_singleton.mpr hc, hasBytes_singleton.mpr hy⟩
      exact .extended hb h0 (by omega) hn.symm

theorem TypeAt.extended_ne_zero {c c' : UInt8} (h : TypeAt b o c type q) (hc : b[o]? = some c')
    (h0 : c'.toNat / 32 = 0) : b[o + 1]? ≠ some 0 := by
  have hsame : c' = c := Option.some.inj (hc.symm.trans h.control.getElem?)
  subst hsame
  cases h with
  | direct _ hnum =>
    have hne : type.num ≠ 0 := by cases type <;> simp [FieldType.num]
    omega
  | @extended y hb _ hgt hy =>
    have hget : b[o + 1]? = some y := bytesGetItem_eq_ok.mp (hasBytes_head (hasBytes_tail hb))
    rw [hget]
    intro hzero
    have hy0 : y.toNat = 0 := by rw [Option.some.inj hzero]; rfl
    omega

/-- The type of a pointer is in its control byte. -/
theorem FieldStart.control_ne_zero {c : UInt8} (h : FieldStart b o .pointer s q) (hc : b[o]? = some c) :
    c.toNat / 32 ≠ 0 := by
  cases h with
  | pointer hcontrol =>
    obtain ⟨hc', hone, -⟩ := hcontrol.of_one rfl
    rw [Option.some.inj (hc.symm.trans hc'), hone]
    exact one_ne_zero
  | sized hne => exact absurd rfl hne

/-! ## What is encoded is canonical -/

/-- What there is at a field of the given type and size, whose payload begins at `q`, that is encoded and
ends at `e`. -/
structure EncodesFrom (b : Bytes) (p o e : ℕ) (type : FieldType) (s q : ℕ) : Prop where
  header : type ≠ .pointer → HeaderAt b o type s q
  uint : ∀ w, type.uintBytes = some w → s ≤ w
  boolean : type = .boolean → s ≤ 1
  array : type = .array → ∃ vs : List Record, s = vs.length ∧ EncodesPart b p q (.elements vs) e
  map : type = .map → ∃ kvs : List (String × Record), s = kvs.length ∧ EncodesPart b p q (.items kvs) e
  pointer : type = .pointer → ∃ target v e', PointerAt b p o target e ∧ Encodes b p target v e'

theorem encodesFrom_scalar (hh : HeaderAt b o type s q) (huint : ∀ w, type.uintBytes = some w → s ≤ w)
    (hboolean : type = .boolean → s ≤ 1) (hp : type ≠ .pointer) (hm : type ≠ .map) (ha : type ≠ .array) :
    EncodesFrom b p o e type s q :=
  ⟨fun _ => hh, huint, hboolean, fun h => absurd h ha, fun h => absurd h hm, fun h => absurd h hp⟩

theorem exists_encodesFrom (h : Encodes b p o v e) :
    ∃ type s q, FieldStart b o type s q ∧ EncodesFrom b p o e type s q := by
  have hscalar : ∀ {type : FieldType} {s q : ℕ}, HeaderAt b o type s q →
      (∀ w, type.uintBytes = some w → s ≤ w) → (type = .boolean → s ≤ 1) → type ≠ .pointer →
      type ≠ .map → type ≠ .array → ∃ type s q, FieldStart b o type s q ∧ EncodesFrom b p o e type s q :=
    fun hh huint hboolean hp hm ha =>
      ⟨_, _, _, hh.start hp, encodesFrom_scalar hh huint hboolean hp hm ha⟩
  cases h with
  | utf8String hh | bytes hh | double hh | float hh | int32 hh =>
    exact hscalar hh (by simp [FieldType.uintBytes]) (by simp) (by simp) (by simp) (by simp)
  | @uint _ q w xs type ht hh hx =>
    have hne : ∀ type', type'.uintBytes = none → type ≠ type' := by
      rintro type' hnone rfl
      rw [hnone] at ht
      exact Option.some_ne_none w ht.symm
    refine hscalar hh (fun w' hw' => ?_) (fun h => absurd h (hne _ rfl)) (hne _ rfl) (hne _ rfl) (hne _ rfl)
    rw [ht, Option.some.injEq] at hw'
    exact hw' ▸ hx
  | @boolean _ q v hh =>
    exact hscalar hh (by simp [FieldType.uintBytes]) (fun _ => v.toNat_le) (by simp) (by simp) (by simp)
  | @array _ q _ vs hh hvs =>
    refine ⟨_, _, _, hh.start (by simp), fun _ => hh, ?_, ?_, fun _ => ⟨vs, rfl, hvs⟩, ?_, ?_⟩ <;>
      simp [FieldType.uintBytes]
  | @map _ q _ kvs hh hkvs =>
    refine ⟨_, _, _, hh.start (by simp), fun _ => hh, ?_, ?_, ?_, fun _ => ⟨kvs, rfl, hkvs⟩, ?_⟩ <;>
      simp [FieldType.uintBytes]
  | pointer hp hv =>
    obtain ⟨s, q, hstart, -⟩ := hp.start
    refine ⟨_, s, q, hstart, fun h => absurd rfl h, ?_, ?_, ?_, ?_, fun _ => ⟨_, _, _, hp, hv⟩⟩ <;>
      simp [FieldType.uintBytes]

theorem encodesFrom (h : Encodes b p o v e) (hstart : FieldStart b o type s q) :
    EncodesFrom b p o e type s q := by
  obtain ⟨type', s', q', hstart', hfrom⟩ := exists_encodesFrom h
  obtain ⟨rfl, rfl, rfl⟩ := hstart.unique hstart'
  exact hfrom

theorem EncodesPart.le_length {part : Part} (h : EncodesPart b p o part e) (ho : o ≤ b.length) :
    e ≤ b.length := by
  have hend : ∀ {type : FieldType} {o s q : ℕ} {xs : Bytes}, type ≠ .pointer → HeaderAt b o type s q →
      HasBytes b q xs → q + xs.length ≤ b.length :=
    fun hp hh hb => length_le_of_hasBytes hb (hh.start hp).le_length
  induction h with
  | utf8String hh hb => exact hend (by simp) hh hb
  | bytes hh hb => exact hend (by simp) hh hb
  | double hh hx hb => exact hx ▸ hend (by simp) hh hb
  | float hh hx hb => exact hx ▸ hend (by simp) hh hb
  | uint ht hh _ hb => exact hend (by rintro rfl; cases ht) hh hb
  | int32 hh _ hb => exact hend (by simp) hh hb
  | boolean hh => exact (hh.start (by simp)).le_length
  | array hh _ ih => exact ih (hh.start (by simp)).le_length
  | map hh _ ih => exact ih (hh.start (by simp)).le_length
  | pointer hp => exact hp.le_length
  | noElements => exact ho
  | element _ _ ih ihs => exact ihs (ih ho)
  | noItems => exact ho
  | item _ _ _ ihk ihv ihs => exact ihs (ihv (ihk ho))

theorem exists_encodes_of_elementFrom (hx : ElementFrom b p s q x) {vs : List Record} (hs : s = vs.length)
    (h : EncodesPart b p q (.elements vs) e) : ∃ v e, Encodes b p x v e := by
  induction hx generalizing vs with
  | first =>
    cases h with
    | noElements => cases hs
    | element hv => exact ⟨_, _, hv⟩
  | later hreads _ ih =>
    cases h with
    | noElements => cases hs
    | element hv hvs =>
      obtain ⟨-, rfl⟩ := reads_unique hreads (reads_of_encodes hv)
      exact ih (Nat.succ.inj hs) hvs

/-- A key that an item of a map begins with is a string. -/
theorem exists_encodes_of_itemFrom {role : Role} (hx : ItemFrom b p s q role x)
    {kvs : List (String × Record)} (hs : s = kvs.length) (h : EncodesPart b p q (.items kvs) e) :
    ∃ v e, Encodes b p x v e ∧ (role = .key → v.IsStr) := by
  induction hx generalizing kvs with
  | key =>
    cases h with
    | noItems => cases hs
    | item hk => exact ⟨_, _, hk, fun _ => ⟨_, rfl⟩⟩
  | value hreads =>
    cases h with
    | noItems => cases hs
    | item hk hv =>
      obtain ⟨-, rfl⟩ := reads_unique hreads (reads_of_encodes hk)
      exact ⟨_, _, hv, fun h => by cases h⟩
  | later hkey hvalue _ _ ih =>
    cases h with
    | noItems => cases hs
    | item hk hv hkvs =>
      obtain ⟨-, rfl⟩ := reads_unique hkey (reads_of_encodes hk)
      obtain ⟨-, rfl⟩ := reads_unique hvalue (reads_of_encodes hv)
      exact ih (Nat.succ.inj hs) hkvs

theorem Encodes.holds (h : Encodes b p o v e) (hx : Holds b p o x) : ∃ v e, Encodes b p x v e := by
  cases hx with
  | element hstart hx =>
    obtain ⟨vs, hs, hvs⟩ := (encodesFrom h hstart).array rfl
    exact exists_encodes_of_elementFrom hx hs hvs
  | item hstart hx =>
    obtain ⟨kvs, hs, hkvs⟩ := (encodesFrom h hstart).map rfl
    obtain ⟨v, e, hv, -⟩ := exists_encodes_of_itemFrom hx hs hkvs
    exact ⟨v, e, hv⟩
  | target hp =>
    obtain ⟨s, q, hstart, -⟩ := hp.start
    obtain ⟨target, v, e', hp', hv⟩ := (encodesFrom h hstart).pointer rfl
    obtain rfl := hp.unique hp'
    exact ⟨v, e', hv⟩

theorem Encodes.meets (h : Encodes b p o v e) (hx : Meets b p o x) : ∃ v e, Encodes b p x v e := by
  induction hx with
  | refl => exact ⟨v, e, h⟩
  | tail _ hholds ih =>
    obtain ⟨v', e', hv⟩ := ih
    exact hv.holds hholds

/-- **What is encoded is canonical.** -/
theorem Encodes.canonical (h : Encodes b p o v e) : Canonical b p o where
  whole := by
    intro hcut
    obtain ⟨type, s, q, v', e', hstart, hscalar, hlt⟩ := hcut.scalarAt
    obtain ⟨-, rfl⟩ := reads_unique (.scalar hstart hscalar) (reads_of_encodes h)
    have hle := EncodesPart.le_length h (lt_length_of_encodes h).le
    omega
  typed := by
    refine ⟨fun type s q w hstart ht => ?_, fun s q x hstart hx => ?_, fun c hc h0 => ?_⟩
    · exact (encodesFrom h hstart).uint w ht
    · obtain ⟨kvs, hs, hkvs⟩ := (encodesFrom h hstart).map rfl
      obtain ⟨k, e', hk, hstr⟩ := exists_encodes_of_itemFrom hx hs hkvs
      have hsettles : Settles (fun limit => (Decoder.ofBytes b p).decode limit x) (.ok (_, e')) :=
        settlesPart_of_encodesPart hk
      obtain ⟨limit, hdecode⟩ := hsettles.exists
      exact (isStr_iff hdecode).mp (hstr rfl)
    · obtain ⟨type, s, q, hstart, hfrom⟩ := exists_encodesFrom h
      by_cases hp : type = .pointer
      · subst hp
        exact absurd h0 (hstart.control_ne_zero hc)
      · obtain ⟨c', q', htype, -⟩ := hfrom.header hp
        exact htype.extended_ne_zero hc h0
  boolean := fun s q hstart => (encodesFrom h hstart).boolean rfl

/-! ## What is canonical is encoded -/

theorem encodeUtf8_of_fromUTF8? {xs : Bytes} {t : String} (h : String.fromUTF8? ⟨xs.toArray⟩ = some t) :
    encodeUtf8 t = xs := by
  unfold String.fromUTF8? at h
  split_ifs at h with hvalid
  obtain rfl := Option.some.inj h
  rfl

theorem int32Bytes_toInt32 {xs : Bytes} (h : xs.length ≤ 4) : Int32Bytes xs (toInt32 (beNat xs)) := by
  have hlt := beNat_lt xs
  unfold toInt32 Int32Bytes
  split_ifs with hsmall
  · exact .inl ⟨h, rfl, by omega⟩
  · have hfour : xs.length = 4 := by
      by_contra hne
      have hle : 256 ^ xs.length ≤ 256 ^ 3 := Nat.pow_le_pow_right (by decide) (by omega)
      omega
    rw [hfour] at hlt
    exact .inr ⟨hfour, by omega, by omega, by omega⟩

theorem ScalarAt.encodes (h : ScalarAt b s q type (some (v, e))) (hstart : FieldStart b o type s q)
    (hcanon : Canonical b p o) : Encodes b p o v e := by
  have hle := h.le_length hstart hcanon.whole
  have hheader : type ≠ .pointer → HeaderAt b o type s q := fun hp =>
    hstart.headerAt hp hcanon.typed.extended
  have hbytes := hasBytes_slice b q (q + s)
  have hlength : q + s ≤ b.length → (slice b q (q + s)).length = s := fun hle => by
    rw [length_slice]
    omega
  generalize hout : some (v, e) = out at h
  cases h with
  | utf8String =>
    obtain ⟨t, ht, heq⟩ := Option.map_eq_some_iff.mp hout.symm
    cases heq
    clear hout
    generalize slice b q (q + s) = xs at ht hbytes hlength
    obtain rfl := encodeUtf8_of_fromUTF8? ht
    obtain rfl := hlength hle
    exact .utf8String (hheader (by simp)) hbytes
  | bytes =>
    cases hout
    generalize slice b q (q + s) = xs at hbytes hlength ⊢
    obtain rfl := hlength hle
    exact .bytes (hheader (by simp)) hbytes
  | double h8 =>
    cases hout
    subst h8
    exact .double (hheader (by simp)) (hlength hle) hbytes
  | float h4 =>
    cases hout
    subst h4
    exact .float (hheader (by simp)) (hlength hle) hbytes
  | badDouble | badFloat => cases hout
  | uint ht =>
    cases hout
    obtain ⟨w, hw⟩ := Option.ne_none_iff_exists'.mp ht
    have hsize := hcanon.typed.uint type s q w hstart hw
    generalize slice b q (q + s) = xs at hbytes hlength ⊢
    obtain rfl := hlength hle
    exact .uint hw (hheader (by rintro rfl; cases hw)) hsize hbytes
  | noInt32 h0 =>
    cases hout
    subst h0
    have hzero : Int32Bytes [] 0 := .inl ⟨Nat.zero_le _, rfl, by decide⟩
    exact EncodesPart.int32 (hheader (by simp)) hzero (hasBytes_nil _ _)
  | int32 _ _ hfour =>
    cases hout
    generalize slice b q (q + s) = xs at hfour hbytes hlength ⊢
    obtain rfl := hlength hle
    exact .int32 (hheader (by simp)) (int32Bytes_toInt32 hfour) hbytes
  | boolean =>
    cases hout
    have hone := hcanon.boolean s q hstart
    have hs : s = (s != 0).toNat := by
      rcases Nat.le_one_iff_eq_zero_or_eq_one.mp hone with rfl | rfl <;> rfl
    have hh := hheader (by simp)
    rw [hs] at hh
    exact .boolean hh

theorem encodes_of_decodeArray {decode : DecodeCall} {array : List Record}
    (hcalls : ∀ x, ElementFrom b p s q x → ∀ v e, decode x = .ok (v, e) → Encodes b p x v e)
    (h : Decoder.decodeArray decode s q array = .ok (v, e)) :
    ∃ vs, s = vs.length ∧ v = .list (array ++ vs) ∧ EncodesPart b p q (.elements vs) e := by
  induction s generalizing q array with
  | zero =>
    cases h
    exact ⟨[], rfl, by rw [List.append_nil], .noElements⟩
  | succ s ih =>
    rw [decodeArray_succ] at h
    obtain ⟨⟨x, m⟩, hx, h⟩ := bind_eq_ok.mp h
    have hfirst := hcalls q .first x m hx
    obtain ⟨vs, rfl, rfl, hvs⟩ := ih (fun y hy => hcalls y (.later (reads_of_encodes hfirst) hy)) h
    exact ⟨x :: vs, rfl, by rw [List.append_assoc, List.singleton_append], .element hfirst hvs⟩

theorem encodes_of_decodeMap {decode : DecodeCall} {container : List (Record × Record)}
    (hcalls : ∀ role x, ItemFrom b p s q role x → ∀ v e, decode x = .ok (v, e) →
      Encodes b p x v e ∧ (role = .key → v.IsStr))
    (h : Decoder.decodeMap decode s q container = .ok (v, e)) :
    ∃ kvs, s = kvs.length ∧ EncodesPart b p q (.items kvs) e ∧
      v = .dict (kvs.foldl (fun container item => dictSet container (.str item.1) item.2) container) := by
  induction s generalizing q container with
  | zero =>
    cases h
    exact ⟨[], rfl, .noItems, rfl⟩
  | succ s ih =>
    rw [decodeMap_succ] at h
    obtain ⟨⟨k, m⟩, hk, h⟩ := bind_eq_ok.mp h
    obtain ⟨⟨x, m'⟩, hx, h⟩ := bind_eq_ok.mp h
    obtain ⟨hkey, hstr⟩ := hcalls .key q .key k m hk
    obtain ⟨t, rfl⟩ := hstr rfl
    obtain ⟨hvalue, -⟩ := hcalls .value m (.value (reads_of_encodes hkey)) x m' hx
    have hlater : ∀ role y, ItemFrom b p s m' role y → ∀ v e, decode y = .ok (v, e) →
        Encodes b p y v e ∧ (role = .key → v.IsStr) := fun role y hy =>
      hcalls role y (.later (reads_of_encodes hkey) (reads_of_encodes hvalue) rfl hy)
    obtain ⟨kvs, rfl, hkvs, rfl⟩ := ih hlater h
    exact ⟨(t, x) :: kvs, rfl, .item hkey hvalue hkvs, rfl⟩

/-- **What is decoded is encoded, where all is canonical.** -/
theorem encodes_of_decode (hcanon : ∀ x, Meets b p o x → Canonical b p x) {limit : ℕ}
    (h : (Decoder.ofBytes b p).decode limit o = .ok (v, e)) : Encodes b p o v e := by
  induction limit generalizing o v e with
  | zero => cases h
  | succ limit ih =>
    rw [Decoder.decode_succ] at h
    obtain ⟨⟨type, s, q⟩, hheader, h⟩ := bind_eq_ok.mp h
    have hstart := start_of_header hheader
    have hself := hcanon o .refl
    have hcalls : ∀ x, Holds b p o x → ∀ v e, (Decoder.ofBytes b p).decode limit x = .ok (v, e) →
        Encodes b p x v e := fun x hx v e hv => ih (fun y hy => hcanon y (.head hx hy)) hv
    by_cases hp : type = .pointer
    · subst hp
      obtain ⟨⟨target, e'⟩, hread, h⟩ := bind_eq_ok.mp h
      obtain ⟨⟨x, m⟩, hx, heq⟩ := bind_eq_ok.mp h
      cases heq
      have hpointer := pointerAt_of_read hstart hread
      exact .pointer hpointer (hcalls target (.target hpointer) v m hx)
    have hh := hstart.headerAt hp hself.typed.extended
    by_cases hm : type = .map
    · subst hm
      have hitems : ∀ role x, ItemFrom b p s q role x → ∀ v e,
          (Decoder.ofBytes b p).decode limit x = .ok (v, e) →
            Encodes b p x v e ∧ (role = .key → v.IsStr) := by
        intro role x hx v e hv
        refine ⟨hcalls x (.item hstart hx) v e hv, ?_⟩
        rintro rfl
        exact (isStr_iff hv).mpr (hself.typed.keys s q x hstart hx)
      obtain ⟨kvs, rfl, hkvs, rfl⟩ := encodes_of_decodeMap hitems h
      exact .map hh hkvs
    by_cases ha : type = .array
    · subst ha
      obtain ⟨vs, rfl, rfl, hvs⟩ := encodes_of_decodeArray (fun x hx => hcalls x (.element hstart hx)) h
      exact .array hh hvs
    exact ((allows_scalar hp hm ha).mp (allows_some.mpr h)).encodes hstart hself

end

/-- **The decoder accepts the format, and what is not canonical.** -/
theorem encodes_iff (b : Bytes) (p o : ℕ) (v : Record) (e : ℕ) :
    Encodes b p o v e ↔ Settles (fun limit => (Decoder.ofBytes b p).decode limit o) (.ok (v, e)) ∧
      ∀ x, (Decoder.ofBytes b p).Reaches o x → Canonical b p x := by
  constructor
  · refine fun h => ⟨settlesPart_of_encodesPart h, fun x hx => ?_⟩
    obtain ⟨v', e', hv⟩ := h.meets (meets_iff.mpr hx)
    exact hv.canonical
  · rintro ⟨hdecode, hcanon⟩
    obtain ⟨limit, hlimit⟩ := hdecode.exists
    exact encodes_of_decode (fun x hx => hcanon x (meets_iff.mp hx)) hlimit

end MaxMindDB
