import MaxMindDB.Acceptance

/-!
# What can be stored

`Storable` are the values that the data format has an encoding for; `encode` writes one, with neither
pointers nor sizes that take more bytes than they need.

`storable_iff`: these are the values that the decoder returns, but for what it reads beyond the format.
`decode_encode`: wherever a value stands in a database, the decoder returns what was written.
-/

namespace MaxMindDB

open Octets Raising

/-! ## Headers -/

/-- The greatest size that a header holds. -/
def maxSize : ℕ := 65821 + (2 ^ 24 - 1)

/-- The five bits for a size in the control byte, and the bytes for the rest of it. -/
def sizeBits (s : ℕ) : ℕ × Bytes :=
  if s < 29 then (s, [])
  else if s < 285 then (29, beBytes 1 (s - 29))
  else if s < 65821 then (30, beBytes 2 (s - 285))
  else (31, beBytes 3 (s - 65821))

/-- The header of a field of the given type and size. -/
def encodeHeader (type : FieldType) (s : ℕ) : Bytes :=
  if type.num ≤ 7 then UInt8.ofNat (type.num * 32 + (sizeBits s).1) :: (sizeBits s).2
  else UInt8.ofNat (sizeBits s).1 :: UInt8.ofNat (type.num - 7) :: (sizeBits s).2

section

variable {b : Bytes} {p o q e s : ℕ} {type : FieldType}

theorem sizeBits_lt (s : ℕ) : (sizeBits s).1 < 32 := by
  unfold sizeBits
  split_ifs <;> simp only <;> omega

theorem sizeAt_sizeBits {c : UInt8} (hc : c.toNat % 32 = (sizeBits s).1)
    (hb : HasBytes b q (sizeBits s).2) (hs : s ≤ maxSize) :
    SizeAt b c q s (q + (sizeBits s).2.length) := by
  unfold maxSize at hs
  unfold sizeBits at hc hb ⊢
  split_ifs at hc hb ⊢ with h1 h2 h3
  · have hsize : c.toNat % 32 = s := hc
    subst hsize
    exact .inline h1
  · have h := SizeAt.one hc (length_beBytes 1 _) hb
    rwa [beNat_beBytes (by omega), Nat.add_sub_cancel' (by omega)] at h
  · have h := SizeAt.two hc (length_beBytes 2 _) hb
    rwa [beNat_beBytes (by omega), Nat.add_sub_cancel' (by omega)] at h
  · have h := SizeAt.three hc (length_beBytes 3 _) hb
    rwa [beNat_beBytes (by omega), Nat.add_sub_cancel' (by omega)] at h

theorem headerAt_encodeHeader (hb : HasBytes b o (encodeHeader type s)) (hs : s ≤ maxSize) :
    HeaderAt b o type s (o + (encodeHeader type s).length) := by
  have hlt := sizeBits_lt s
  unfold encodeHeader at hb ⊢
  split_ifs at hb ⊢ with htype
  · have hbyte : (UInt8.ofNat (type.num * 32 + (sizeBits s).1)).toNat = type.num * 32 + (sizeBits s).1 := by
      rw [UInt8.toNat_ofNat']
      omega
    obtain ⟨hcontrol, hsize⟩ := hasBytes_append_iff.mp (show HasBytes b o ([_] ++ (sizeBits s).2) from hb)
    refine ⟨_, o + 1, .direct hcontrol (by rw [hbyte]; omega), ?_⟩
    have h := sizeAt_sizeBits (by rw [hbyte]; omega) hsize hs
    rwa [List.length_singleton, Nat.add_assoc, Nat.add_comm 1] at h
  · have hbyte : (UInt8.ofNat (sizeBits s).1).toNat = (sizeBits s).1 := by
      rw [UInt8.toNat_ofNat']
      omega
    have hnum : type.num < 16 := by cases type <;> decide
    obtain ⟨hcontrol, hsize⟩ := hasBytes_append_iff.mp (show HasBytes b o ([_, _] ++ (sizeBits s).2) from hb)
    refine ⟨_, o + 2, .extended hcontrol (by rw [hbyte]; omega) (by omega) ?_, ?_⟩
    · rw [UInt8.toNat_ofNat']
      omega
    · have h := sizeAt_sizeBits (by rw [hbyte]; omega) hsize hs
      rwa [List.length_cons, List.length_singleton, Nat.add_assoc, Nat.add_comm (1 + 1)] at h

theorem HeaderAt.le_maxSize (h : HeaderAt b o type s q) : s ≤ maxSize := by
  obtain ⟨c, q', -, hsize⟩ := h
  unfold maxSize
  cases hsize with
  | inline hc => omega
  | @one xs _ hx _ | @two xs _ hx _ | @three xs _ hx _ =>
    have hlt := beNat_lt xs
    rw [hx] at hlt
    omega

end

/-! ## Values -/

/-- The values that can be stored. An integer is one of the unsigned types or an `int32`. -/
inductive Storable : Record → Prop where
  | str {s : String} : (encodeUtf8 s).length ≤ maxSize → Storable (.str s)
  | bytes {xs : Bytes} : xs.length ≤ maxSize → Storable (.bytes xs)
  | double {raw : Bytes} : raw.length = 8 → Storable (.double raw)
  | float {raw : Bytes} : raw.length = 4 → Storable (.float raw)
  | int {i : ℤ} : -2 ^ 31 ≤ i → i < 2 ^ 128 → Storable (.int i)
  | bool {v : Bool} : Storable (.bool v)
  | list {vs : List Record} : vs.length ≤ maxSize → (∀ v ∈ vs, Storable v) → Storable (.list vs)
  | dict {kvs : List (String × Record)} : kvs.length ≤ maxSize → (kvs.map Prod.fst).Nodup →
      (∀ kv ∈ kvs, Storable (.str kv.1)) → (∀ kv ∈ kvs, Storable kv.2) →
      Storable (.dict (kvs.map fun kv => (.str kv.1, kv.2)))

mutual

/-- A field that holds the value. -/
def encode : Record → Bytes
  | .str s => encodeHeader .utf8String (encodeUtf8 s).length ++ encodeUtf8 s
  | .bytes xs => encodeHeader .bytes xs.length ++ xs
  | .double raw => encodeHeader .double 8 ++ raw
  | .float raw => encodeHeader .float 4 ++ raw
  | .int i =>
    if i < 0 then encodeHeader .int32 4 ++ beBytes 4 (i + 2 ^ 32).toNat
    else encodeHeader .uint128 16 ++ beBytes 16 i.toNat
  | .bool v => encodeHeader .boolean v.toNat
  | .list vs => encodeHeader .array vs.length ++ encodeElements vs
  | .dict items => encodeHeader .map items.length ++ encodeItems items

def encodeElements : List Record → Bytes
  | [] => []
  | v :: vs => encode v ++ encodeElements vs

def encodeItems : List (Record × Record) → Bytes
  | [] => []
  | (k, v) :: items => encode k ++ encode v ++ encodeItems items

end

section

variable {b : Bytes} {p o e : ℕ} {v : Record}

theorem header_payload {type : FieldType} {s : ℕ} {xs : Bytes} (hb : HasBytes b o (encodeHeader type s ++ xs))
    (hs : s ≤ maxSize) : HeaderAt b o type s (o + (encodeHeader type s).length) ∧
      HasBytes b (o + (encodeHeader type s).length) xs := by
  obtain ⟨hheader, hpayload⟩ := hasBytes_append_iff.mp hb
  exact ⟨headerAt_encodeHeader hheader hs, hpayload⟩

theorem encodes_int {i : ℤ} (hmin : -2 ^ 31 ≤ i) (hmax : i < 2 ^ 128) (hb : HasBytes b o (encode (.int i))) :
    Encodes b p o (.int i) (o + (encode (.int i)).length) := by
  rw [encode] at hb ⊢
  split_ifs at hb ⊢ with hneg
  · obtain ⟨hheader, hpayload⟩ := header_payload hb (by decide)
    have hnat : beNat (beBytes 4 (i + 2 ^ 32).toNat) = (i + 2 ^ 32).toNat := beNat_beBytes (by omega)
    rw [List.length_append, ← Nat.add_assoc]
    refine .int32 ?_ (.inr ⟨length_beBytes 4 _, ?_, hmin, hneg⟩) hpayload
    · rwa [length_beBytes]
    · rw [hnat]
      omega
  · obtain ⟨hheader, hpayload⟩ := header_payload hb (by decide)
    have hnat : beNat (beBytes 16 i.toNat) = i.toNat := beNat_beBytes (by omega)
    have hvalue : i = beNat (beBytes 16 i.toNat) := by omega
    have huint : FieldType.uintBytes .uint128 = some 16 := rfl
    rw [List.length_append, ← Nat.add_assoc]
    rw [← length_beBytes 16 i.toNat] at hheader
    have h : Encodes b p o (.int (beNat (beBytes 16 i.toNat))) _ :=
      .uint huint hheader (length_beBytes 16 _).le hpayload
    rwa [← hvalue, length_beBytes] at h

theorem encodes_elements {vs : List Record}
    (hvs : ∀ v ∈ vs, ∀ o, HasBytes b o (encode v) → Encodes b p o v (o + (encode v).length))
    (hb : HasBytes b o (encodeElements vs)) :
    EncodesPart b p o (.elements vs) (o + (encodeElements vs).length) := by
  induction vs generalizing o with
  | nil => exact .noElements
  | cons v vs ih =>
    rw [encodeElements] at hb ⊢
    obtain ⟨hv, hrest⟩ := hasBytes_append_iff.mp hb
    rw [List.length_append, ← Nat.add_assoc]
    exact .element (hvs v List.mem_cons_self o hv)
      (ih (fun v' hv' => hvs v' (List.mem_cons_of_mem _ hv')) hrest)

theorem encodes_items {kvs : List (String × Record)}
    (hks : ∀ kv ∈ kvs, ∀ o, HasBytes b o (encode (.str kv.1)) →
      Encodes b p o (.str kv.1) (o + (encode (.str kv.1)).length))
    (hvs : ∀ kv ∈ kvs, ∀ o, HasBytes b o (encode kv.2) → Encodes b p o kv.2 (o + (encode kv.2).length))
    (hb : HasBytes b o (encodeItems (kvs.map fun kv => (.str kv.1, kv.2)))) :
    EncodesPart b p o (.items kvs) (o + (encodeItems (kvs.map fun kv => (.str kv.1, kv.2))).length) := by
  induction kvs generalizing o with
  | nil => exact .noItems
  | cons kv kvs ih =>
    rw [List.map_cons, encodeItems] at hb ⊢
    obtain ⟨hkv, hrest⟩ := hasBytes_append_iff.mp hb
    obtain ⟨hk, hv⟩ := hasBytes_append_iff.mp hkv
    rw [List.length_append, ← Nat.add_assoc]
    rw [List.length_append, ← Nat.add_assoc] at hrest ⊢
    exact .item (hks kv List.mem_cons_self o hk) (hvs kv List.mem_cons_self _ hv)
      (ih (fun kv' hkv' => hks kv' (List.mem_cons_of_mem _ hkv'))
        (fun kv' hkv' => hvs kv' (List.mem_cons_of_mem _ hkv')) hrest)

/-- **What is written is encoded.** -/
theorem encodes_encode (h : Storable v) (hb : HasBytes b o (encode v)) :
    Encodes b p o v (o + (encode v).length) := by
  induction h generalizing o with
  | str hs =>
    rw [encode] at hb ⊢
    obtain ⟨hheader, hpayload⟩ := header_payload hb hs
    rw [List.length_append, ← Nat.add_assoc]
    exact .utf8String hheader hpayload
  | bytes hs =>
    rw [encode] at hb ⊢
    obtain ⟨hheader, hpayload⟩ := header_payload hb hs
    rw [List.length_append, ← Nat.add_assoc]
    exact .bytes hheader hpayload
  | double hs =>
    rw [encode] at hb ⊢
    obtain ⟨hheader, hpayload⟩ := header_payload hb (by decide)
    rw [List.length_append, ← Nat.add_assoc, hs]
    exact .double hheader hs hpayload
  | float hs =>
    rw [encode] at hb ⊢
    obtain ⟨hheader, hpayload⟩ := header_payload hb (by decide)
    rw [List.length_append, ← Nat.add_assoc, hs]
    exact .float hheader hs hpayload
  | int hmin hmax => exact encodes_int hmin hmax hb
  | @bool v =>
    rw [encode] at hb ⊢
    exact .boolean (headerAt_encodeHeader hb (by cases v <;> decide))
  | list hs _ ih =>
    rw [encode] at hb ⊢
    obtain ⟨hheader, hpayload⟩ := header_payload hb hs
    rw [List.length_append, ← Nat.add_assoc]
    exact .array hheader (encodes_elements (fun v hv o => ih v hv) hpayload)
  | dict hs hnodup _ _ ihk ihv =>
    rw [encode] at hb ⊢
    rw [List.length_map] at hb ⊢
    obtain ⟨hheader, hpayload⟩ := header_payload hb hs
    have h := EncodesPart.map hheader
      (encodes_items (fun kv hkv o => ihk kv hkv) (fun kv hkv o => ihv kv hkv) hpayload)
    rw [dictOf_of_nodup hnodup] at h
    rwa [List.length_append, ← Nat.add_assoc]

/-! ## Nothing else is encoded -/

theorem exists_dictSet {K : String → Prop} {V : Record → Prop} {kvs : List (String × Record)}
    (hnodup : (kvs.map Prod.fst).Nodup) (hkvs : ∀ kv ∈ kvs, K kv.1 ∧ V kv.2) {k : String} (hk : K k)
    (hv : V v) : ∃ kvs' : List (String × Record),
      dictSet (kvs.map fun kv => (.str kv.1, kv.2)) (.str k) v = kvs'.map (fun kv => (.str kv.1, kv.2)) ∧
        (kvs'.map Prod.fst).Nodup ∧ kvs'.length ≤ kvs.length + 1 ∧ ∀ kv ∈ kvs', K kv.1 ∧ V kv.2 := by
  induction kvs generalizing K with
  | nil => exact ⟨[(k, v)], rfl, by simp, le_rfl, List.forall_mem_singleton.mpr ⟨hk, hv⟩⟩
  | cons kv kvs ih =>
    obtain ⟨hhead, htail⟩ := List.forall_mem_cons.mp hkvs
    obtain ⟨hnew, hnodup'⟩ := List.nodup_cons.mp hnodup
    rw [List.map_cons, dictSet, Record.keyEq_str]
    by_cases hkey : kv.1 = k
    · refine ⟨(kv.1, v) :: kvs, by simp [hkey], hnodup, Nat.le_succ _, ?_⟩
      exact List.forall_mem_cons.mpr ⟨⟨hhead.1, hv⟩, htail⟩
    · -- the keys behind stay other than the first one
      have hne : ∀ kv' ∈ kvs, (K kv'.1 ∧ kv'.1 ≠ kv.1) ∧ V kv'.2 := fun kv' hkv' =>
        ⟨⟨(htail kv' hkv').1, fun heq => hnew (heq ▸ List.mem_map_of_mem hkv')⟩, (htail kv' hkv').2⟩
      obtain ⟨kvs', heq, hnodup'', hlength, hkvs'⟩ :=
        ih (K := fun s => K s ∧ s ≠ kv.1) hnodup' hne ⟨hk, fun heq => hkey heq.symm⟩
      refine ⟨kv :: kvs', by simp [hkey, heq], List.nodup_cons.mpr ⟨?_, hnodup''⟩, by simpa using hlength,
        List.forall_mem_cons.mpr ⟨hhead, fun kv' hkv' => ⟨(hkvs' kv' hkv').1.1, (hkvs' kv' hkv').2⟩⟩⟩
      intro hmem
      obtain ⟨kv', hkv', heq'⟩ := List.mem_map.mp hmem
      exact (hkvs' kv' hkv').1.2 heq'

theorem exists_dictOf {K : String → Prop} {V : Record → Prop} {kvs : List (String × Record)}
    (hkvs : ∀ kv ∈ kvs, K kv.1 ∧ V kv.2) : ∃ kvs' : List (String × Record),
      dictOf kvs = kvs'.map (fun kv => (.str kv.1, kv.2)) ∧ (kvs'.map Prod.fst).Nodup ∧
        kvs'.length ≤ kvs.length ∧ ∀ kv ∈ kvs', K kv.1 ∧ V kv.2 := by
  have key : ∀ container : List (String × Record), (container.map Prod.fst).Nodup →
      (∀ kv ∈ container, K kv.1 ∧ V kv.2) → ∃ kvs' : List (String × Record),
        kvs.foldl (fun c item => dictSet c (.str item.1) item.2)
          (container.map fun kv => (.str kv.1, kv.2)) = kvs'.map (fun kv => (.str kv.1, kv.2)) ∧
        (kvs'.map Prod.fst).Nodup ∧ kvs'.length ≤ container.length + kvs.length ∧
          ∀ kv ∈ kvs', K kv.1 ∧ V kv.2 := by
    induction kvs with
    | nil => exact fun container hnodup hc => ⟨container, rfl, hnodup, le_rfl, hc⟩
    | cons kv kvs ih =>
      intro container hnodup hc
      obtain ⟨hhead, htail⟩ := List.forall_mem_cons.mp hkvs
      obtain ⟨next, heq, hnodup', hlength, hnext⟩ := exists_dictSet hnodup hc hhead.1 hhead.2
      obtain ⟨kvs', heq', hnodup'', hlength', hkvs'⟩ := ih htail next hnodup' hnext
      refine ⟨kvs', ?_, hnodup'', ?_, hkvs'⟩
      · rw [List.foldl_cons, heq, heq']
      · rw [List.length_cons]
        omega
  obtain ⟨kvs', heq, hnodup, hlength, hkvs'⟩ := key [] List.nodup_nil nofun
  exact ⟨kvs', heq, hnodup, by simpa using hlength, hkvs'⟩

/-- All that a part holds can be stored. -/
def Part.Storable : Part → Prop
  | .field v => MaxMindDB.Storable v
  | .elements vs => ∀ v ∈ vs, MaxMindDB.Storable v
  | .items kvs => ∀ kv ∈ kvs, MaxMindDB.Storable (.str kv.1) ∧ MaxMindDB.Storable kv.2

theorem EncodesPart.storable {part : Part} (h : EncodesPart b p o part e) : part.Storable := by
  induction h with
  | utf8String hh _ => exact .str hh.le_maxSize
  | bytes hh _ => exact .bytes hh.le_maxSize
  | double _ hx _ => exact .double hx
  | float _ hx _ => exact .float hx
  | @uint _ _ w xs type ht _ hx _ =>
    have hlt := beNat_lt xs
    have hw : w ≤ 16 := by cases type <;> cases ht <;> decide
    have hle : 256 ^ xs.length ≤ 256 ^ 16 := Nat.pow_le_pow_right (by decide) (hx.trans hw)
    exact .int (by omega) (by omega)
  | @int32 _ _ xs i _ hi _ =>
    rcases hi with ⟨_, hi, hlt⟩ | ⟨_, _, hmin, hneg⟩
    · exact .int (by omega) (by omega)
    · exact .int hmin (by omega)
  | boolean _ => exact .bool
  | array hh _ ih => exact .list hh.le_maxSize ih
  | map hh _ ih =>
    obtain ⟨kvs', heq, hnodup, hlength, hkvs'⟩ :=
      exists_dictOf (K := fun s => MaxMindDB.Storable (.str s)) (V := MaxMindDB.Storable) ih
    show MaxMindDB.Storable _
    rw [heq]
    exact .dict (hlength.trans hh.le_maxSize) hnodup (fun kv hkv => (hkvs' kv hkv).1)
      fun kv hkv => (hkvs' kv hkv).2
  | pointer _ _ ih => exact ih
  | noElements => exact nofun
  | element _ _ ihv ihvs => exact List.forall_mem_cons.mpr ⟨ihv, ihvs⟩
  | noItems => exact nofun
  | item _ _ _ ihk ihv ihs => exact List.forall_mem_cons.mpr ⟨⟨ihk, ihv⟩, ihs⟩

end

/-- **The values that the decoder returns.** It returns a value for bytes of which none are read beyond the
format exactly when the value can be stored. -/
theorem storable_iff (v : Record) : Storable v ↔ ∃ b p o e,
    Settles (fun limit => (Decoder.ofBytes b p).decode limit o) (.ok (v, e)) ∧
      ∀ x, (Decoder.ofBytes b p).Reaches o x → Canonical b p x := by
  constructor
  · intro h
    have hencodes : Encodes (encode v) 0 0 v _ := encodes_encode h (List.prefix_refl _)
    refine ⟨encode v, 0, 0, _, settlesPart_of_encodesPart hencodes, fun x hx => ?_⟩
    obtain ⟨v', e', hv⟩ := hencodes.meets (meets_iff.mpr hx)
    exact hv.canonical
  · rintro ⟨b, p, o, e, hdecode, hcanon⟩
    obtain ⟨limit, hlimit⟩ := hdecode.exists
    exact (encodes_of_decode (fun x hx => hcanon x (meets_iff.mp hx)) hlimit).storable

/-- **Round trip.** Wherever it is written, a value is read back. -/
theorem decode_encode {v : Record} (h : Storable v) (pre post : Bytes) (p : ℕ) :
    Settles (fun limit => (Decoder.ofBytes (pre ++ encode v ++ post) p).decode limit pre.length)
      (.ok (v, pre.length + (encode v).length)) :=
  settlesPart_of_encodesPart (encodes_encode h (hasBytes_append pre (encode v) post))

/-- `{"a": [-1, True]}` -/
def sampleRecord : Record := .dict [(.str "a", .list [.int (-1), .bool true])]

theorem sampleRecord_storable : Storable sampleRecord := by
  have hkey : Storable (.str "a") := .str (by decide +kernel)
  have hvalue : Storable (.list [.int (-1), .bool true]) := by
    refine .list (by decide) (List.forall_mem_cons.mpr ⟨.int (by decide) (by decide), ?_⟩)
    exact List.forall_mem_singleton.mpr .bool
  have h : Storable (.dict ([("a", .list [.int (-1), .bool true])].map fun kv => (.str kv.1, kv.2))) :=
    .dict (by decide) (by simp) (List.forall_mem_singleton.mpr hkey) (List.forall_mem_singleton.mpr hvalue)
  exact h

theorem sample_decode_encode : Settles
    (fun limit => (Decoder.ofBytes ([0x20] ++ encode sampleRecord ++ [0x40]) 7).decode limit 1)
    (.ok (sampleRecord, 14)) := by
  have hlength : (encode sampleRecord).length = 13 := by decide +kernel
  have h := decode_encode sampleRecord_storable [0x20] [0x40] 7
  rwa [hlength] at h

end MaxMindDB
