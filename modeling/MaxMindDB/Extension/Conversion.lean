import MaxMindDB.Extension.Integers
import Mathlib.Data.List.TakeDrop

/-!
# Conversion of the entries of a value

libmaxminddb lists the entries of a value in pre-order: a map or an array is followed by the entries
of what is in it. `from_entry_data_list` rebuilds the value, and leaves the cursor on the last of
these entries (`converts`), so that an enclosing map or array goes on at the right one.

`rebuilds_iff`: the object is the one of the value, unless it holds a `uint32` that a `long` does not.
-/

namespace MaxMindDB.Extension

open Octets Raising

/-! ## Values -/

/-- A value of the data model. -/
inductive DataTree where
  | utf8String (s : String)
  | bytes (b : Bytes)
  | double (bits : UInt64)
  | float (bits : UInt32)
  | uint16 (n : UInt16)
  | uint32 (n : UInt32)
  | int32 (n : Int32)
  | uint64 (n : UInt64)
  | uint128 (n : MMDBUint128)
  | boolean (b : Bool)
  | map (items : List (String × DataTree))
  | array (xs : List DataTree)

mutual

/-- The entries of a value, in pre-order. -/
def DataTree.flatten : DataTree → List EntryData
  | .utf8String s => [.utf8String (encodeUtf8 s)]
  | .bytes b => [.bytes b]
  | .double bits => [.double bits]
  | .float bits => [.float bits]
  | .uint16 n => [.uint16 n]
  | .uint32 n => [.uint32 n]
  | .int32 n => [.int32 n]
  | .uint64 n => [.uint64 n]
  | .uint128 n => [.uint128 n]
  | .boolean b => [.boolean b]
  | .map items => .map items.length :: flattenItems items
  | .array xs => .array xs.length :: flattenAll xs

/-- The entries of the pairs of a map. -/
def flattenItems : List (String × DataTree) → List EntryData
  | [] => []
  | (key, value) :: items => .utf8String (encodeUtf8 key) :: (value.flatten ++ flattenItems items)

/-- The entries of the elements of an array. -/
def flattenAll : List DataTree → List EntryData
  | [] => []
  | x :: xs => x.flatten ++ flattenAll xs

end

mutual

/-- The Python object of a value, where `ofUint32` is what becomes of a `uint32`. -/
def DataTree.objectWith (ofUint32 : UInt32 → ℤ) : DataTree → PyObj
  | .utf8String s => .str s
  | .bytes b => .byteArray b
  | .double bits => .double bits
  | .float bits => .float bits
  | .uint16 n => .int n.toNat
  | .uint32 n => .int (ofUint32 n)
  | .int32 n => .int n.toInt
  | .uint64 n => .int n.toNat
  | .uint128 n => .int n.value
  | .boolean b => .bool b
  | .map items => .dict (setItems ofUint32 [] items)
  | .array xs => .list (objectsWith ofUint32 xs)

/-- A dictionary after further items: a later duplicate key wins. -/
def setItems (ofUint32 : UInt32 → ℤ) (dict : List (String × PyObj)) :
    List (String × DataTree) → List (String × PyObj)
  | [] => dict
  | (key, value) :: items =>
    setItems ofUint32 (setItem dict key (value.objectWith ofUint32)) items

/-- The objects of the elements of an array. -/
def objectsWith (ofUint32 : UInt32 → ℤ) : List DataTree → List PyObj
  | [] => []
  | x :: xs => x.objectWith ofUint32 :: objectsWith ofUint32 xs

end

/-- The Python object of a value. -/
def DataTree.object (v : DataTree) : PyObj := v.objectWith fun n => n.toNat

/-- What a `uint32` becomes that is converted to a `long`. -/
def CLong.ofUint32 (long : CLong) (n : UInt32) : ℤ := long.convert n.toNat

/-! ## Where the cursor is left -/

/-- The cursor on the last of some entries, with `tail` behind them. -/
def lastOf (entries tail : List EntryData) : Cursor := entries.drop (entries.length - 1) ++ tail

theorem lastOf_singleton (e : EntryData) (tail : List EntryData) : lastOf [e] tail = e :: tail := rfl

theorem lastOf_append {entries' : List EntryData} (h : entries' ≠ []) (entries tail : List EntryData) :
    lastOf (entries ++ entries') tail = lastOf entries' tail := by
  have hpos := List.length_pos_iff.mpr h
  have hsub : (entries ++ entries').length - 1 = entries.length + (entries'.length - 1) := by
    rw [List.length_append]
    omega
  rw [lastOf, hsub, List.drop_length_add_append, lastOf]

theorem exists_lastOf {entries : List EntryData} (h : entries ≠ []) :
    ∃ last, ∀ tail, lastOf entries tail = last :: tail := by
  refine ⟨entries.getLast h, fun tail => ?_⟩
  conv_lhs => rw [← List.dropLast_append_getLast h]
  rw [lastOf_append (by simp), lastOf_singleton]

theorem DataTree.flatten_ne_nil (v : DataTree) : v.flatten ≠ [] := by
  cases v <;> simp [flatten]

theorem lastOf_cons {entries : List EntryData} (h : entries ≠ []) (e : EntryData)
    (tail : List EntryData) : lastOf (e :: entries) tail = lastOf entries tail :=
  lastOf_append h [e] tail

/-! ## Conversion -/

section

variable {long : CLong}

/-- A conversion in which nothing fails. -/
abbrev convert (long : CLong) : ℕ → ConvertCall := fromEntryDataList long fun _ => .succeed

/-- The value is converted, and the cursor left on the last of its entries. -/
def Converts (long : CLong) (v : DataTree) : Prop :=
  ∀ tail, Settles (fun limit => convert long limit (v.flatten ++ tail))
    (.ok (v.objectWith long.ofUint32, lastOf v.flatten tail))

/-- The loop of `from_map` goes through the pairs, and leaves the cursor on the last of their
entries, or where it was. -/
def ConvertsItems (long : CLong) (items : List (String × DataTree)) : Prop :=
  ∀ last tail dict, Settles
    (fun limit => mapLoop (fun _ => .succeed) (convert long limit) items.length
      (last :: flattenItems items ++ tail) dict)
    (.ok (.dict (setItems long.ofUint32 dict items), lastOf (last :: flattenItems items) tail))

/-- So does the loop of `from_array` with the elements. -/
def ConvertsAll (long : CLong) (xs : List DataTree) : Prop :=
  ∀ last tail ys, Settles
    (fun limit => arrayLoop (convert long limit) xs.length
      (last :: flattenAll xs ++ tail) ys)
    (.ok (.list (ys ++ objectsWith long.ofUint32 xs), lastOf (last :: flattenAll xs) tail))

theorem newUnicode_succeed (cursor : Cursor) (s : String) :
    newUnicode (fun _ => .succeed) cursor (encodeUtf8 s) = .ok s := by
  rw [newUnicode, decodeUtf8_encodeUtf8]
  rfl

theorem converts_of_fromEntry {v : DataTree} {e : EntryData} (hv : v.flatten = [e])
    (h : ∀ convert tail, fromEntry long (fun _ => .succeed) convert (e :: tail) e =
      .ok (v.objectWith long.ofUint32, e :: tail)) : Converts long v := by
  intro tail
  rw [hv]
  refine eventually_succ (Filter.Eventually.of_forall fun _ => trivial) fun limit _ => ?_
  exact h _ _

theorem convertsItems_nil : ConvertsItems long [] :=
  fun _ _ _ => settles_const _

/-- The key is on the entry behind the cursor, the value behind the key. -/
theorem convertsItems_cons {key : String} {value : DataTree} {items : List (String × DataTree)}
    (hv : Converts long value) (hrest : ConvertsItems long items) :
    ConvertsItems long ((key, value) :: items) := by
  intro last tail dict
  obtain ⟨valueLast, hlast⟩ := exists_lastOf value.flatten_ne_nil
  have hcursor : lastOf (last :: flattenItems ((key, value) :: items)) tail =
      lastOf (valueLast :: flattenItems items) tail := by
    rw [flattenItems, lastOf_cons (by simp), lastOf_cons (by simp [value.flatten_ne_nil])]
    by_cases hnil : flattenItems items = []
    · rw [hnil, List.append_nil, hlast, lastOf_singleton]
    · rw [lastOf_append hnil, lastOf_cons hnil]
  have hvalue := hv (flattenItems items ++ tail)
  rw [hlast] at hvalue
  have hloop := hrest valueLast tail (setItem dict key (value.objectWith long.ofUint32))
  rw [hcursor]
  filter_upwards [hvalue, hloop] with limit hvalue hloop
  simp only [flattenItems, List.length_cons, List.cons_append, List.append_assoc, mapLoop,
    reduceCtorEq, if_false, Cursor.next, Cursor.utf8String, Except.ok_bind, newUnicode_succeed,
    hvalue]
  exact hloop

theorem convertsAll_nil : ConvertsAll long [] := by
  intro last tail ys
  rw [objectsWith, List.append_nil]
  exact settles_const _

theorem convertsAll_cons {x : DataTree} {xs : List DataTree} (hx : Converts long x)
    (hrest : ConvertsAll long xs) : ConvertsAll long (x :: xs) := by
  intro last tail ys
  obtain ⟨valueLast, hlast⟩ := exists_lastOf x.flatten_ne_nil
  have hcursor : lastOf (last :: flattenAll (x :: xs)) tail =
      lastOf (valueLast :: flattenAll xs) tail := by
    rw [flattenAll, lastOf_cons (by simp [x.flatten_ne_nil])]
    by_cases hnil : flattenAll xs = []
    · rw [hnil, List.append_nil, hlast, lastOf_singleton]
    · rw [lastOf_append hnil, lastOf_cons hnil]
  have hvalue := hx (flattenAll xs ++ tail)
  rw [hlast] at hvalue
  have hloop := hrest valueLast tail (ys ++ [x.objectWith long.ofUint32])
  rw [hcursor]
  filter_upwards [hvalue, hloop] with limit hvalue hloop
  simp only [flattenAll, List.length_cons, List.cons_append, List.append_assoc, arrayLoop,
    reduceCtorEq, if_false, Cursor.next, Except.ok_bind, hvalue]
  rw [List.append_assoc, List.singleton_append] at hloop
  exact hloop

theorem converts_map {items : List (String × DataTree)} (h : ConvertsItems long items) :
    Converts long (.map items) := by
  intro tail
  exact (h (.map items.length) tail []).succ fun _ => rfl

theorem converts_array {xs : List DataTree} (h : ConvertsAll long xs) :
    Converts long (.array xs) := by
  intro tail
  have hloop := h (.array xs.length) tail []
  rw [List.nil_append] at hloop
  exact hloop.succ fun _ => rfl

theorem converts_uint128 (n : MMDBUint128) : Converts long (.uint128 n) := by
  refine converts_of_fromEntry rfl fun convert tail => ?_
  simp only [fromEntry, fromUint128, parseHex_numStr]
  rfl

theorem converts_utf8String (s : String) : Converts long (.utf8String s) := by
  refine converts_of_fromEntry rfl fun convert tail => ?_
  simp only [fromEntry, newUnicode_succeed]
  rfl

theorem converts_uint16 (n : UInt16) : Converts long (.uint16 n) := by
  have hlt : n.toNat < 2 ^ 16 := n.toNat_lt
  have hlong : long.convert n.toNat = n.toNat := CLong.convert_eq (by omega) (by omega)
  refine converts_of_fromEntry rfl fun convert tail => ?_
  simp only [fromEntry, hlong]
  rfl

theorem converts_int32 (n : Int32) : Converts long (.int32 n) := by
  have hlong : long.convert n.toInt = n.toInt := CLong.convert_eq n.le_toInt n.toInt_lt
  refine converts_of_fromEntry rfl fun convert tail => ?_
  simp only [fromEntry, hlong]
  rfl

mutual

/-- **Every value is converted, and the cursor kept in step.** -/
theorem converts : ∀ v : DataTree, Converts long v
  | .utf8String s => converts_utf8String s
  | .bytes _ => converts_of_fromEntry rfl fun _ _ => rfl
  | .double _ => converts_of_fromEntry rfl fun _ _ => rfl
  | .float _ => converts_of_fromEntry rfl fun _ _ => rfl
  | .uint16 n => converts_uint16 n
  | .uint32 _ => converts_of_fromEntry rfl fun _ _ => rfl
  | .int32 n => converts_int32 n
  | .uint64 _ => converts_of_fromEntry rfl fun _ _ => rfl
  | .uint128 n => converts_uint128 n
  | .boolean _ => converts_of_fromEntry rfl fun _ _ => rfl
  | .map items => converts_map (convertsItems items)
  | .array xs => converts_array (convertsAll xs)

theorem convertsItems : ∀ items : List (String × DataTree), ConvertsItems long items
  | [] => convertsItems_nil
  | (_, value) :: items => convertsItems_cons (converts value) (convertsItems items)

theorem convertsAll : ∀ xs : List DataTree, ConvertsAll long xs
  | [] => convertsAll_nil
  | x :: xs => convertsAll_cons (converts x) (convertsAll xs)

end

end

/-! ## Which objects depend on what becomes of a `uint32` -/

mutual

/-- A `long` holds each `uint32` of the value that is not overwritten by a later duplicate key. -/
def DataTree.Fits (long : CLong) : DataTree → Prop
  | .uint32 n => long = .bits64 ∨ n.toNat < 2 ^ 31
  | .map items => FitItems long items
  | .array xs => FitAll long xs
  | _ => True

/-- So it does in the pairs of a map. -/
def FitItems (long : CLong) : List (String × DataTree) → Prop
  | [] => True
  | (key, value) :: items => (key ∈ items.map Prod.fst ∨ value.Fits long) ∧ FitItems long items

/-- So it does in the elements of an array. -/
def FitAll (long : CLong) : List DataTree → Prop
  | [] => True
  | x :: xs => x.Fits long ∧ FitAll long xs

end

mutual

/-- A `long` of 64 bits holds every `uint32`. -/
theorem DataTree.fits_bits64 : ∀ v : DataTree, v.Fits .bits64
  | .uint32 _ => .inl rfl
  | .map items => fitItems_bits64 items
  | .array xs => fitAll_bits64 xs
  | .utf8String _ => trivial
  | .bytes _ => trivial
  | .double _ => trivial
  | .float _ => trivial
  | .uint16 _ => trivial
  | .int32 _ => trivial
  | .uint64 _ => trivial
  | .uint128 _ => trivial
  | .boolean _ => trivial

theorem fitItems_bits64 : ∀ items : List (String × DataTree), FitItems .bits64 items
  | [] => trivial
  | (_, value) :: items => ⟨.inr value.fits_bits64, fitItems_bits64 items⟩

theorem fitAll_bits64 : ∀ xs : List DataTree, FitAll .bits64 xs
  | [] => trivial
  | x :: xs => ⟨x.fits_bits64, fitAll_bits64 xs⟩

end

section

variable {α : Type*} {key : String} {keys : List String} {items items' : List (String × α)}

/-- Two dictionaries have the same items, but for the values of some keys. -/
def AgreeBut (keys : List String) : List (String × α) → List (String × α) → Prop :=
  List.Forall₂ fun item item' => item.1 = item'.1 ∧ (item.1 ∈ keys ∨ item.2 = item'.2)

theorem agreeBut_nil : AgreeBut [] items items' ↔ items = items' := by
  have hrel : (fun item item' : String × α =>
      item.1 = item'.1 ∧ (item.1 ∈ ([] : List String) ∨ item.2 = item'.2)) = Eq := by
    funext item item'
    simp [Prod.ext_iff]
  rw [AgreeBut, hrel, List.forall₂_eq_eq_eq]

theorem agreeBut_cons_of_notMem (h : key ∉ items.map Prod.fst) :
    AgreeBut (key :: keys) items items' ↔ AgreeBut keys items items' := by
  induction items generalizing items' with
  | nil => cases items' <;> simp [AgreeBut]
  | cons item items ih =>
    rw [List.map_cons, List.mem_cons, not_or] at h
    cases items' with
    | nil => simp [AgreeBut]
    | cons item' items' =>
      have hrest : AgreeBut (key :: keys) items items' ↔ AgreeBut keys items items' := ih h.2
      have hkey : item.1 ∈ key :: keys ↔ item.1 ∈ keys := by
        rw [List.mem_cons, or_iff_right (Ne.symm h.1)]
      unfold AgreeBut at hrest ⊢
      rw [List.forall₂_cons, List.forall₂_cons, hrest, hkey]

theorem keys_setItem (items : List (String × α)) (key : String) (value : α) :
    (setItem items key value).map Prod.fst =
      if key ∈ items.map Prod.fst then items.map Prod.fst else items.map Prod.fst ++ [key] := by
  induction items with
  | nil => rfl
  | cons item items ih =>
    obtain ⟨k, v⟩ := item
    rw [setItem]
    by_cases hk : k = key
    · simp [hk]
    · rw [if_neg hk, List.map_cons, ih]
      simp only [List.map_cons, List.mem_cons, Ne.symm hk, false_or]
      split_ifs <;> rfl

theorem nodup_setItem (h : (items.map Prod.fst).Nodup) (key : String) (value : α) :
    ((setItem items key value).map Prod.fst).Nodup := by
  rw [keys_setItem]
  split_ifs with hkey
  · exact h
  · refine List.nodup_append.mpr ⟨h, by simp, ?_⟩
    rintro k hk k' hk' rfl
    rw [List.mem_singleton.mp hk'] at hk
    exact hkey hk

theorem agreeBut_setItem (hkeys : items.map Prod.fst = items'.map Prod.fst)
    (hnodup : (items.map Prod.fst).Nodup) (value value' : α) :
    AgreeBut keys (setItem items key value) (setItem items' key value') ↔
      AgreeBut (key :: keys) items items' ∧ (key ∈ keys ∨ value = value') := by
  induction items generalizing items' with
  | nil =>
    obtain rfl : items' = [] := List.map_eq_nil_iff.mp hkeys.symm
    simp [setItem, AgreeBut]
  | cons item items ih =>
    obtain ⟨k, v⟩ := item
    cases items' with
    | nil => cases hkeys
    | cons item' items' =>
      obtain ⟨k', v'⟩ := item'
      rw [List.map_cons, List.map_cons, List.cons.injEq] at hkeys
      obtain ⟨rfl, hkeys⟩ := hkeys
      rw [List.map_cons, List.nodup_cons] at hnodup
      rw [setItem, setItem]
      by_cases hk : k = key
      · subst hk
        have hrest : AgreeBut (k :: keys) items items' ↔ AgreeBut keys items items' :=
          agreeBut_cons_of_notMem hnodup.1
        rw [if_pos rfl, if_pos rfl]
        unfold AgreeBut at hrest ⊢
        rw [List.forall₂_cons, List.forall₂_cons, hrest]
        simp [and_comm]
      · have hrest := ih hkeys hnodup.2
        rw [if_neg hk, if_neg hk]
        unfold AgreeBut at hrest ⊢
        rw [List.forall₂_cons, List.forall₂_cons, hrest]
        simp [hk, and_assoc]

end

section

variable {long : CLong}

theorem CLong.ofUint32_eq_iff (n : UInt32) :
    long.ofUint32 n = (n.toNat : ℤ) ↔ long = .bits64 ∨ n.toNat < 2 ^ 31 := by
  have hlt : n.toNat < 2 ^ 32 := n.toNat_lt
  unfold ofUint32
  rcases Nat.lt_or_ge n.toNat (2 ^ 31) with hsmall | hlarge
  · rw [convert_eq (by omega) (by omega)]
    exact iff_of_true rfl (.inr hsmall)
  · cases long with
    | bits64 =>
      rw [convert_bits64 (by omega) (by omega)]
      exact iff_of_true rfl (.inl rfl)
    | bits32 =>
      rw [convert_bits32 (by omega) (by omega)]
      refine iff_of_false (by omega) ?_
      rintro (h | h)
      · cases h
      · omega

/-- The object of the value, when a `uint32` becomes what a `long` makes of it, is the right one. -/
def Exact (long : CLong) (v : DataTree) : Prop :=
  v.objectWith long.ofUint32 = v.object ↔ v.Fits long

/-- Dictionaries with the same keys have the same items in the end when what is left of their own is
the same, and of what is put into them. -/
def ExactItems (long : CLong) (items : List (String × DataTree)) : Prop :=
  ∀ dict dict' : List (String × PyObj), dict.map Prod.fst = dict'.map Prod.fst →
    (dict.map Prod.fst).Nodup →
      (setItems long.ofUint32 dict items = setItems (fun n => n.toNat) dict' items ↔
        AgreeBut (items.map Prod.fst) dict dict' ∧ FitItems long items)

theorem exactItems_nil : ExactItems long [] := by
  intro dict dict' _ _
  rw [setItems, setItems, List.map_nil, agreeBut_nil, FitItems, and_true]

theorem exactItems_cons {key : String} {value : DataTree} {items : List (String × DataTree)}
    (hv : Exact long value) (hrest : ExactItems long items) :
    ExactItems long ((key, value) :: items) := by
  intro dict dict' hkeys hnodup
  have hkeys' : (setItem dict key (value.objectWith long.ofUint32)).map Prod.fst =
      (setItem dict' key value.object).map Prod.fst := by
    rw [keys_setItem, keys_setItem, hkeys]
  unfold Exact at hv
  unfold DataTree.object at hv hkeys'
  rw [setItems, setItems, hrest _ _ hkeys' (nodup_setItem hnodup _ _),
    agreeBut_setItem hkeys hnodup, FitItems, hv, List.map_cons, and_assoc]

mutual

theorem exact_objectWith : ∀ v : DataTree, Exact long v
  | .uint32 n => by
    simp only [Exact, DataTree.object, DataTree.objectWith, PyObj.int.injEq, DataTree.Fits,
      CLong.ofUint32_eq_iff]
  | .map items => by
    have h := exactItems_objectWith items [] [] rfl List.nodup_nil
    simp only [Exact, DataTree.object, DataTree.objectWith, PyObj.dict.injEq, DataTree.Fits, h,
      AgreeBut, List.forall₂_nil_left_iff, true_and]
  | .array xs => by
    simp only [Exact, DataTree.object, DataTree.objectWith, PyObj.list.injEq, DataTree.Fits,
      exactAll_objectWith xs]
  | .utf8String _ => iff_of_true rfl trivial
  | .bytes _ => iff_of_true rfl trivial
  | .double _ => iff_of_true rfl trivial
  | .float _ => iff_of_true rfl trivial
  | .uint16 _ => iff_of_true rfl trivial
  | .int32 _ => iff_of_true rfl trivial
  | .uint64 _ => iff_of_true rfl trivial
  | .uint128 _ => iff_of_true rfl trivial
  | .boolean _ => iff_of_true rfl trivial

theorem exactItems_objectWith : ∀ items : List (String × DataTree), ExactItems long items
  | [] => exactItems_nil
  | (_, value) :: items => exactItems_cons (exact_objectWith value) (exactItems_objectWith items)

theorem exactAll_objectWith : ∀ xs : List DataTree,
    objectsWith long.ofUint32 xs = objectsWith (fun n => n.toNat) xs ↔ FitAll long xs
  | [] => iff_of_true rfl trivial
  | x :: xs => by
    have hx : Exact long x := exact_objectWith x
    unfold Exact DataTree.object at hx
    rw [objectsWith, objectsWith, List.cons.injEq, hx, exactAll_objectWith xs, FitAll]

end

/-- From the entries of a value, whatever follows them, its object is made, and the cursor is left on
the last of them. -/
def Rebuilds (long : CLong) (v : DataTree) : Prop :=
  ∀ tail, Settles
    (fun limit => fromEntryDataList long (fun _ => .succeed) limit (v.flatten ++ tail))
    (.ok (v.object, lastOf v.flatten tail))

/-- **When a value is rebuilt.** -/
theorem rebuilds_iff (long : CLong) (v : DataTree) : Rebuilds long v ↔ v.Fits long := by
  constructor
  · intro h
    have hconverts : Converts long v := converts v
    have heq := (hconverts []).unique (h [])
    rw [Except.ok.injEq, Prod.mk.injEq] at heq
    exact (exact_objectWith v).mp heq.1
  · intro h tail
    rw [← (exact_objectWith v).mpr h]
    exact converts v tail

/-- 2^31 in a `uint32` is not rebuilt where a `long` has 32 bits. -/
theorem not_rebuilds : ¬ ∀ (long : CLong) (v : DataTree), Rebuilds long v := by
  intro hall
  have h := (converts (.uint32 2147483648) []).unique (hall .bits32 (.uint32 2147483648) [])
  rw [Except.ok.injEq, Prod.mk.injEq] at h
  have hneg : CLong.bits32.ofUint32 2147483648 = -2147483648 := by decide
  simp [DataTree.objectWith, DataTree.object, hneg] at h

end

end MaxMindDB.Extension
