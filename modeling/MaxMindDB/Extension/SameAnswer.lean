import MaxMindDB.Extension.Conversion

/-!
# The answers of the two readers

The C extension over libmaxminddb, and the reader in Python, look up the same addresses in the same
database. What libmaxminddb is relied on for is `Serves`: it walks the search tree, and where it lists
the entries of what a record points to, they are those of the value there. It refuses some values that
the format has: a pointer to a pointer, and one nested too deep.

`sameAnswer_iff`: the two readers give an address the same answer, unless libmaxminddb refuses the value
or the value holds a `uint32` that a `long` does not.
-/

namespace MaxMindDB.Extension

open Octets BitString Raising

/-! ## Objects and values -/

mutual

/-- The value that an object is; a `bytearray` equals its `bytes`. -/
def PyObj.record : PyObj → Record
  | .str s => .str s
  | .byteArray b => .bytes b
  | .double bits => .double (beBytes 8 bits.toNat)
  | .float bits => .float (beBytes 4 bits.toNat)
  | .int i => .int i
  | .bool b => .bool b
  | .list xs => .list (recordsOf xs)
  | .dict items => .dict (itemsOf items)

/-- The values of the elements of a list. -/
def recordsOf : List PyObj → List Record
  | [] => []
  | x :: xs => x.record :: recordsOf xs

/-- The values of the items of a dictionary. -/
def itemsOf : List (String × PyObj) → List (Record × Record)
  | [] => []
  | (key, value) :: items => (.str key, value.record) :: itemsOf items

end

mutual

/-- The Python value of a value of the data model. -/
def DataTree.record : DataTree → Record
  | .utf8String s => .str s
  | .bytes b => .bytes b
  | .double bits => .double (beBytes 8 bits.toNat)
  | .float bits => .float (beBytes 4 bits.toNat)
  | .uint16 n => .int n.toNat
  | .uint32 n => .int n.toNat
  | .int32 n => .int n.toInt
  | .uint64 n => .int n.toNat
  | .uint128 n => .int n.value
  | .boolean b => .bool b
  | .map items => .dict (dictOf (pairsOf items))
  | .array xs => .list (elementsOf xs)

/-- The Python values of the pairs of a map. -/
def pairsOf : List (String × DataTree) → List (String × Record)
  | [] => []
  | (key, value) :: items => (key, value.record) :: pairsOf items

/-- The Python values of the elements of an array. -/
def elementsOf : List DataTree → List Record
  | [] => []
  | x :: xs => x.record :: elementsOf xs

end

theorem itemsOf_setItem (items : List (String × PyObj)) (key : String) (value : PyObj) :
    itemsOf (setItem items key value) = dictSet (itemsOf items) (.str key) value.record := by
  induction items with
  | nil => rfl
  | cons item items ih =>
    obtain ⟨k, v⟩ := item
    rw [setItem, itemsOf, dictSet, Record.keyEq_str]
    by_cases hk : k = key
    · rw [if_pos hk, if_pos (decide_eq_true hk), itemsOf]
    · rw [if_neg hk, if_neg (by simpa using hk), itemsOf, ih]

mutual

theorem DataTree.record_object : ∀ v : DataTree, v.object.record = v.record
  | .utf8String _ => rfl
  | .bytes _ => rfl
  | .double _ => rfl
  | .float _ => rfl
  | .uint16 _ => rfl
  | .uint32 _ => rfl
  | .int32 _ => rfl
  | .uint64 _ => rfl
  | .uint128 _ => rfl
  | .boolean _ => rfl
  | .map items => by
    show Record.dict (itemsOf (setItems _ [] items)) = .dict (dictOf (pairsOf items))
    rw [itemsOf_setItems items []]
    rfl
  | .array xs => congrArg Record.list (recordsOf_objectsWith xs)

theorem itemsOf_setItems : ∀ (items : List (String × DataTree)) (dict : List (String × PyObj)),
    itemsOf (setItems (fun n => n.toNat) dict items) =
      (pairsOf items).foldl (fun c item => dictSet c (.str item.1) item.2) (itemsOf dict)
  | [], _ => rfl
  | (key, value) :: items, dict => by
    have hvalue : (value.objectWith fun n => n.toNat).record = value.record := value.record_object
    rw [setItems, itemsOf_setItems items, itemsOf_setItem, hvalue, pairsOf, List.foldl_cons]

theorem recordsOf_objectsWith : ∀ xs : List DataTree,
    recordsOf (objectsWith (fun n => n.toNat) xs) = elementsOf xs
  | [] => rfl
  | x :: xs => by
    have hx : (x.objectWith fun n => n.toNat).record = x.record := x.record_object
    rw [objectsWith, recordsOf, hx, recordsOf_objectsWith xs, elementsOf]

end

theorem beBytes_toNat_inj {w m n : ℕ} (hm : m < 256 ^ w) (hn : n < 256 ^ w) :
    beBytes w m = beBytes w n ↔ m = n := by
  refine ⟨fun h => ?_, fun h => h ▸ rfl⟩
  rw [← beNat_beBytes hm, ← beNat_beBytes hn, h]

mutual

theorem PyObj.record_inj : ∀ {x y : PyObj}, x.record = y.record → x = y
  | .str _, y, h => by cases y <;> cases h; rfl
  | .byteArray _, y, h => by cases y <;> cases h; rfl
  | .int _, y, h => by cases y <;> cases h; rfl
  | .bool _, y, h => by cases y <;> cases h; rfl
  | .double bits, y, h => by
    cases y with
    | double bits' =>
      rw [PyObj.record, PyObj.record, Record.double.injEq, beBytes_toNat_inj] at h
      · rw [UInt64.toNat_inj.mp h]
      · exact bits.toNat_lt
      · exact bits'.toNat_lt
    | _ => cases h
  | .float bits, y, h => by
    cases y with
    | float bits' =>
      rw [PyObj.record, PyObj.record, Record.float.injEq, beBytes_toNat_inj] at h
      · rw [UInt32.toNat_inj.mp h]
      · exact bits.toNat_lt
      · exact bits'.toNat_lt
    | _ => cases h
  | .list xs, y, h => by
    cases y with
    | list ys =>
      rw [PyObj.record, PyObj.record, Record.list.injEq] at h
      rw [recordsOf_inj h]
    | _ => cases h
  | .dict items, y, h => by
    cases y with
    | dict items' =>
      rw [PyObj.record, PyObj.record, Record.dict.injEq] at h
      rw [itemsOf_inj h]
    | _ => cases h

theorem recordsOf_inj : ∀ {xs ys : List PyObj}, recordsOf xs = recordsOf ys → xs = ys
  | [], ys, h => by cases ys with
    | nil => rfl
    | cons => cases h
  | x :: xs, ys, h => by
    cases ys with
    | nil => cases h
    | cons y ys =>
      rw [recordsOf, recordsOf, List.cons.injEq] at h
      rw [PyObj.record_inj h.1, recordsOf_inj h.2]

theorem itemsOf_inj : ∀ {xs ys : List (String × PyObj)}, itemsOf xs = itemsOf ys → xs = ys
  | [], ys, h => by cases ys with
    | nil => rfl
    | cons => cases h
  | (key, x) :: xs, ys, h => by
    cases ys with
    | nil => cases h
    | cons y ys =>
      obtain ⟨key', y⟩ := y
      rw [itemsOf, itemsOf, List.cons.injEq, Prod.mk.injEq, Record.str.injEq] at h
      rw [h.1.1, PyObj.record_inj h.1.2, itemsOf_inj h.2]

end

/-! ## What libmaxminddb is relied on for -/

/-- libmaxminddb lists the entries of what stands at an offset of the data section. -/
def ListedAt (lib : LibMaxMindDB ℕ (List EntryData)) (d : ℕ) : Prop :=
  ∃ entries, lib.getEntryDataList d = .ok entries

/-- The version, the walk of the search tree, whose netmask is the number of its bits, and the entries
of what is encoded at an offset of the data section, where they are listed. -/
structure Serves (lib : LibMaxMindDB ℕ (List EntryData)) (db : Parts) (value : ℕ → DataTree) : Prop where
  ipVersion : lib.ipVersion = db.ipVersion.number
  unsupported : ∀ a : IPAddress, db.ipVersion.bits < a.version.bits →
    lib.lookupSockaddr a = .error .ipv6LookupInIPv4Database
  lookup : ∀ (a : IPAddress) (leaf k : ℕ), a.version.bits ≤ db.ipVersion.bits →
    db.trie.walk (toBits db.ipVersion.bits a.ip) 0 = .ok (leaf, k) →
      ∃ entry, lib.lookupSockaddr a = .ok ⟨decide (leaf ≠ db.nodes.length), entry, k⟩ ∧
        ∀ d, leaf = db.nodes.length + dataSectionSeparatorSize + d → entry = d
  entries : ∀ d v e, Encodes db.data 0 d v e → ListedAt lib d →
    lib.getEntryDataList d = .ok (value d).flatten ∧ (value d).record = v

/-- `from_entry_data_list` returns the object of a value, on a stack that is deep enough. -/
def Makes (long : CLong) (fromEntries : List EntryData → Except PyErr PyObj) (v : DataTree) : Prop :=
  ∀ object cursor, Settles (fun limit => convert long limit v.flatten) (.ok (object, cursor)) →
    fromEntries v.flatten = .ok object

/-- The two readers give one answer: a value and a prefix length, or a `ValueError`. -/
def SameAnswer : Except PyErr (Option PyObj × ℕ) → Except Exc (Option Record × ℕ) → Prop
  | .ok (object, k), .ok (record, k') => object.map PyObj.record = record ∧ k = k'
  | .error .valueError, .error .valueError => True
  | _, _ => False

/-- The value at an offset of the data section is found for an address. -/
def Finds (db : Parts) (a : IPAddress) (d : ℕ) : Prop :=
  a.version.bits ≤ db.ipVersion.bits ∧ ∃ k, db.trie.walk (toBits db.ipVersion.bits a.ip) 0 =
    .ok (db.nodes.length + dataSectionSeparatorSize + d, k)

/-! ## Lookups -/

section

variable {db : Parts} {lib : LibMaxMindDB ℕ (List EntryData)} {value : ℕ → DataTree} {long : CLong}
  {fromEntries : List EntryData → Except PyErr PyObj} {a : IPAddress} {leaf k : ℕ}

theorem makes_objectWith (long : CLong) (v : DataTree) :
    Makes long (fun _ => .ok (v.objectWith long.ofUint32)) v := by
  intro object cursor h
  have hconverts : Converts long v := converts v
  have hv := hconverts []
  rw [List.append_nil] at hv
  have heq := hv.unique h
  rw [Except.ok.injEq, Prod.mk.injEq] at heq
  rw [heq.1]

theorem fromEntries_flatten {v : DataTree} (h : Makes long fromEntries v) :
    fromEntries v.flatten = .ok (v.objectWith long.ofUint32) := by
  have hconverts : Converts long v := converts v
  have hv := hconverts []
  rw [List.append_nil] at hv
  exact h _ _ hv

/-- The object is the value when a `long` holds each `uint32` of it. -/
theorem record_objectWith_iff (v : DataTree) :
    (v.objectWith long.ofUint32).record = v.record ↔ v.Fits long := by
  rw [← v.record_object]
  exact ⟨fun h => (exact_objectWith v).mp (PyObj.record_inj h),
    fun h => congrArg PyObj.record ((exact_objectWith v).mpr h)⟩

theorem reader_bits (db : Parts) : db.reader.bits = db.ipVersion.bits := by
  rw [Reader.treeVersion_bits, db.reader_ipVersion]
  cases db.ipVersion <;> rfl

/-- `get_record` reports the bits of the walk that are bits of the address. -/
theorem Serves.getRecord_eq (h : Serves lib db value)
    (fromEntries : List EntryData → Except PyErr PyObj) (ha : a.version.bits ≤ db.ipVersion.bits)
    (hw : db.trie.walk (toBits db.ipVersion.bits a.ip) 0 = .ok (leaf, k)) :
    ∃ result : LookupResult ℕ, result.foundEntry = decide (leaf ≠ db.nodes.length) ∧
      (∀ d, leaf = db.nodes.length + dataSectionSeparatorSize + d → result.entry = d) ∧
      getRecord lib fromEntries true true a = (entryRecord lib fromEntries result).map
        fun record => (record, k - (db.ipVersion.bits - a.version.bits)) := by
  obtain ⟨entry, hlookup, hentry⟩ := h.lookup a leaf k ha hw
  refine ⟨⟨decide (leaf ≠ db.nodes.length), entry, k⟩, rfl, hentry, ?_⟩
  have hprefix : (if a.version = .v4 ∧ lib.ipVersion = 6 then if 96 ≤ k then k - 96 else 0 else k) =
      k - (db.ipVersion.bits - a.version.bits) := by
    rw [h.ipVersion]
    cases hv : a.version <;> cases hd : db.ipVersion <;> rw [hv, hd] at ha <;>
      simp [IPVersion.number] at ha ⊢
    omega
  unfold getRecord
  simp only [hlookup, hprefix, Bool.not_true, Bool.false_eq_true, if_false]
  cases entryRecord lib fromEntries _ <;> rfl

theorem settles_getWithPrefixLen {db : Database} (ha : a.version.bits ≤ db.ipVersion.bits)
    (hw : db.trie.walk (toBits db.ipVersion.bits a.ip) 0 = .ok (leaf, k)) {v : Option Record}
    (hv : db.Holds leaf v) :
    Settles (fun limit => db.reader.getWithPrefixLen limit a)
      (.ok (v, k - (db.ipVersion.bits - a.version.bits))) := by
  obtain ⟨limit₀, hnew⟩ := (db.opens "").exists
  have ho : Reader.Opened (.ofBytes db.file) "" limit₀ db.reader db.nodes.length :=
    ⟨hnew, db.reader_hasNodeCount⟩
  have hlt : a.ip < 2 ^ db.ipVersion.bits :=
    lt_of_lt_of_le a.ip_lt (Nat.pow_le_pow_right (by norm_num) ha)
  -- the address of the version of the database that is looked up along the same bits
  have hwide := db.get_settles (a := ⟨db.ipVersion, a.ip, hlt⟩) rfl hw hv
  filter_upwards [hwide] with limit hwide
  rw [ho.getWithPrefixLen_eq (by rw [reader_bits])] at hwide
  rw [ho.getWithPrefixLen_eq (by rw [reader_bits]; exact ha)]
  simp only [reader_bits, Nat.sub_self, Nat.sub_zero] at hwide ⊢
  revert hwide
  cases (db.reader.tree db.nodes.length).walk (toBits db.ipVersion.bits a.ip) 0 >>=
      db.reader.answer db.nodes.length limit with
  | error e => exact fun hwide => by cases hwide
  | ok x =>
    intro hwide
    cases hwide
    rfl

theorem sameAnswer_of_unsupported (h : Serves lib db value) (ha : db.ipVersion.bits < a.version.bits)
    (limit : ℕ) :
    SameAnswer (getRecord lib fromEntries true true a) (db.reader.getWithPrefixLen limit a) := by
  obtain ⟨hv, hd⟩ : a.version = .v6 ∧ db.ipVersion = .v4 := by
    cases hv : a.version <;> cases hd : db.ipVersion <;> rw [hv, hd] at ha <;> simp at ha ⊢
  have hpython : db.reader.getWithPrefixLen limit a = .error .valueError := by
    rw [Reader.getWithPrefixLen_eq db.reader_hasNodeCount, if_pos]
    exact ⟨hv, by rw [db.reader_ipVersion, hd]; rfl⟩
  have hextension : getRecord lib fromEntries true true a = .error .valueError := by
    unfold getRecord
    rw [h.unsupported a ha]
    rfl
  rw [hpython, hextension]
  trivial

/-- What an address has, where both readers look for it, is one value or none. -/
theorem sameAnswer_ok_iff (h : Serves lib db value) (hmakes : ∀ d, Makes long fromEntries (value d))
    (ha : a.version.bits ≤ db.ipVersion.bits)
    (hw : db.trie.walk (toBits db.ipVersion.bits a.ip) 0 = .ok (leaf, k)) {v : Option Record}
    (hv : db.Holds leaf v) :
    SameAnswer (getRecord lib fromEntries true true a)
        (.ok (v, k - (db.ipVersion.bits - a.version.bits))) ↔
      ∀ d, Finds db a d → ListedAt lib d ∧ (value d).Fits long := by
  obtain ⟨result, hfound, hentry, hget⟩ := h.getRecord_eq fromEntries ha hw
  rw [hget]
  have hfinds : ∀ d, Finds db a d ↔ leaf = db.nodes.length + dataSectionSeparatorSize + d := by
    intro d
    unfold Finds
    rw [hw]
    refine ⟨fun hd => ?_, fun hd => ⟨ha, k, by rw [hd]⟩⟩
    obtain ⟨-, k', hk⟩ := hd
    exact (Prod.mk.inj (Except.ok.inj hk)).1
  rcases hv with ⟨rfl, rfl⟩ | ⟨d, v, e, rfl, henc, rfl⟩
  · have hnone : entryRecord lib fromEntries result = .ok none := by
      rw [entryRecord, hfound]
      simp
    rw [hnone]
    refine iff_of_true ⟨rfl, rfl⟩ fun d hd => ?_
    have heq := (hfinds d).mp hd
    have hpos : dataSectionSeparatorSize = 16 := rfl
    omega
  · have hpos : dataSectionSeparatorSize = 16 := rfl
    have hne : db.nodes.length + dataSectionSeparatorSize + d ≠ db.nodes.length := by omega
    have hall : (∀ d', Finds db a d' → ListedAt lib d' ∧ (value d').Fits long) ↔
        ListedAt lib d ∧ (value d).Fits long := by
      refine ⟨fun hall => hall d ((hfinds d).mpr rfl), fun hd d' hd' => ?_⟩
      obtain rfl : d = d' := Nat.add_left_cancel ((hfinds d').mp hd')
      exact hd
    rw [hall]
    by_cases hlisted : ListedAt lib d
    · obtain ⟨hentries, hrecord⟩ := h.entries d v e henc hlisted
      have hsome : entryRecord lib fromEntries result =
          .ok (some ((value d).objectWith long.ofUint32)) := by
        rw [entryRecord, hfound, hentry d rfl]
        simp only [hne, ne_eq, not_false_eq_true, decide_true, Bool.not_true, Bool.false_eq_true,
          if_false, hentries, fromEntries_flatten (hmakes d), Except.ok_bind]
      rw [hsome, and_iff_right hlisted, ← record_objectWith_iff, hrecord]
      show some ((value d).objectWith long.ofUint32).record = some v ∧ _ = _ ↔ _
      rw [Option.some.injEq, and_iff_left rfl]
    · have herror : entryRecord lib fromEntries result = .error .maxMindDBError := by
        rw [entryRecord, hfound, hentry d rfl]
        cases hentries : lib.getEntryDataList d with
        | error e => simp [hne]
        | ok entries => exact absurd ⟨entries, hentries⟩ hlisted
      rw [herror]
      exact iff_of_false id fun hd => hlisted hd.1

end

/-- **When the two readers give one answer.** -/
theorem sameAnswer_iff (db : Database) {lib : LibMaxMindDB ℕ (List EntryData)} {value : ℕ → DataTree}
    {long : CLong} {fromEntries : List EntryData → Except PyErr PyObj}
    (h : Serves lib db.toParts value) (hmakes : ∀ d, Makes long fromEntries (value d))
    (a : IPAddress) :
    (∀ᶠ limit in Filter.atTop, SameAnswer (getRecord lib fromEntries true true a)
        (db.reader.getWithPrefixLen limit a)) ↔
      ∀ d, Finds db.toParts a d → ListedAt lib d ∧ (value d).Fits long := by
  by_cases ha : a.version.bits ≤ db.ipVersion.bits
  · obtain ⟨leaf, k, hw, hl⟩ := db.bounded (toBits db.ipVersion.bits a.ip) (length_toBits _ _)
    obtain ⟨v, hv⟩ := db.holds_of_walk hw hl
    rw [← sameAnswer_ok_iff h hmakes ha hw hv]
    have hpython := settles_getWithPrefixLen ha hw hv
    constructor
    · intro hsame
      obtain ⟨limit, hsame, hlimit⟩ := (hsame.and hpython).exists
      exact hlimit ▸ hsame
    · intro hsame
      filter_upwards [hpython] with limit hlimit
      rwa [hlimit]
  · refine iff_of_true (Filter.Eventually.of_forall fun limit => ?_) fun d hd => absurd hd.1 ha
    exact sameAnswer_of_unsupported h (Nat.not_le.mp ha) limit

/-! libmaxminddb on the samples. -/

theorem sample_encodes {shared : Bool} {d e : ℕ} {v : Record}
    (h : Encodes (Sample.layout shared).data 0 d v e) : d = 0 ∧ v = .str "a" := by
  have hd : d < 2 := lt_length_of_encodes h
  have hsettles : ∀ {d e : ℕ} {v : Record}, Encodes (Sample.layout shared).data 0 d v e →
      Settles (fun limit => (Decoder.ofBytes (Sample.layout shared).data 0).decode limit d) (.ok (v, e)) :=
    fun h => settlesPart_of_encodesPart h
  have hdecode := hsettles h
  rcases Nat.le_one_iff_eq_zero_or_eq_one.mp (Nat.le_of_lt_succ hd) with rfl | rfl
  · have heq := hdecode.unique (hsettles (Sample.encodes_data shared))
    rw [Except.ok.injEq, Prod.mk.injEq] at heq
    exact ⟨rfl, heq.1⟩
  -- the other byte is the control byte of a double of one byte
  · obtain ⟨limit, hlimit⟩ := hdecode.exists_succ
    cases hlimit

def sampleLookups : LibMaxMindDB ℕ (List EntryData) where
  ipVersion := 6
  lookupSockaddr a := .ok ⟨a.ip.testBit 127, 0, 1⟩
  getEntryDataList _ := .ok (DataTree.utf8String "a").flatten

theorem sampleLookups_serves :
    Serves sampleLookups (Sample.database false).toParts fun _ => .utf8String "a" where
  ipVersion := rfl
  unsupported := by
    intro a ha
    have h6 : (Sample.database false).ipVersion = .v6 := rfl
    rw [h6] at ha
    cases hv : a.version <;> rw [hv] at ha <;> simp at ha
  lookup := by
    intro a leaf k _ hw
    have hbits : toBits (Sample.database false).ipVersion.bits a.ip =
        a.ip.testBit 127 :: toBits 127 a.ip := rfl
    rw [hbits] at hw
    obtain ⟨rfl, rfl⟩ := Prod.mk.inj (Except.ok.inj ((Sample.walk_cons false _ _).symm.trans hw))
    refine ⟨0, ?_, ?_⟩
    · show Except.ok _ = Except.ok _
      cases a.ip.testBit 127 <;> rfl
    · intro d hd
      have hone : (Sample.database false).nodes.length = 1 := rfl
      have hsixteen : dataSectionSeparatorSize = 16 := rfl
      unfold Sample.record at hd
      split_ifs at hd <;> omega
  entries := by
    intro d v e h _
    obtain ⟨rfl, rfl⟩ := sample_encodes h
    exact ⟨rfl, rfl⟩

theorem sample_sameAnswer : ∀ᶠ limit in Filter.atTop, SameAnswer
    (getRecord sampleLookups (fun _ => .ok (.str "a")) true true Sample.address)
    ((Sample.database false).reader.getWithPrefixLen limit Sample.address) :=
  (sameAnswer_iff (Sample.database false) sampleLookups_serves (fun _ => makes_objectWith .bits32 _)
    Sample.address).mpr fun _ _ => ⟨⟨_, rfl⟩, trivial⟩

end MaxMindDB.Extension
