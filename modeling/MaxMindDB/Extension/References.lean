import MaxMindDB.Extension.EntrySafety

/-!
# The references of a conversion

`from_entry_data_list` with the objects it has made and not released. `from_map` and `from_array` release
what they have made so far when a value fails, and `from_map` does not when a key fails: the dictionary is
lost then, with all that is in it.

`tidy_iff`: where a conversion raises, nothing that it has made is left exactly when what fails first
stands where a value is expected.
-/

namespace MaxMindDB.Extension

open Octets Raising

/-! ## Objects -/

mutual

/-- How many objects an object is made of. -/
def PyObj.refs : PyObj → ℕ
  | .list xs => 1 + refsAll xs
  | .dict items => 1 + refsItems items
  | .str _ | .byteArray _ | .double _ | .float _ | .int _ | .bool _ => 1

/-- The elements of a list. -/
def refsAll : List PyObj → ℕ
  | [] => 0
  | x :: xs => x.refs + refsAll xs

/-- The keys and values of a dictionary. -/
def refsItems : List (String × PyObj) → ℕ
  | [] => 0
  | (_, value) :: items => 1 + value.refs + refsItems items

end

/-- What `PyDict_SetItem`, and `Py_DECREF` of the key and of the value behind it, release: the value that is
replaced and the key that is there already, or both where the call fails. -/
def released (ok : Bool) (items : List (String × PyObj)) (key : String) (value : PyObj) : ℕ :=
  if ok then
    match items.lookup key with
    | none => 0
    | some old => 1 + old.refs
  else 1 + value.refs

theorem refsAll_append (xs : List PyObj) (x : PyObj) : refsAll (xs ++ [x]) = refsAll xs + x.refs := by
  induction xs with
  | nil => simp [refsAll]
  | cons y xs ih =>
    rw [List.cons_append, refsAll, refsAll, ih]
    omega

theorem refsItems_setItem (items : List (String × PyObj)) (key : String) (value : PyObj) :
    refsItems (setItem items key value) + released true items key value =
      refsItems items + 1 + value.refs := by
  induction items with
  | nil => simp [setItem, released, refsItems]
  | cons item items ih =>
    obtain ⟨k, v⟩ := item
    unfold setItem
    by_cases hk : k = key
    · subst hk
      simp only [if_true, refsItems, released, List.lookup_cons_self]
      omega
    · have hlookup : ((k, v) :: items).lookup key = items.lookup key := by
        rw [List.lookup_cons, beq_eq_false_iff_ne.mpr (Ne.symm hk)]
      rw [if_neg hk, refsItems, refsItems, released, hlookup]
      rw [released] at ih
      omega

theorem refsItems_add_released (ok : Bool) (items : List (String × PyObj)) (key : String) (value : PyObj) :
    refsItems (if ok then setItem items key value else items) + released ok items key value =
      refsItems items + 1 + value.refs := by
  cases ok with
  | true => exact refsItems_setItem items key value
  | false => simp [released, Nat.add_assoc]

/-! ## Conversions, with what they have made -/

/-- How a conversion ends, and how many objects there are then. -/
abbrev RefResult := Except Failure (PyObj × Cursor) × ℕ

/-- A conversion, from how many objects there are. -/
abbrev RefCall := Cursor → ℕ → RefResult

/-- A value, and what becomes of it. Where there is none, the caller releases what it holds. -/
def RefResult.withValue (x : RefResult) (holds : ℕ) (f : PyObj → Cursor → ℕ → RefResult) : RefResult :=
  match x with
  | (.error failure, live) => (.error failure, live - holds)
  | (.ok (value, cursor), live) => f value cursor live

section

variable (long : CLong) (calls : ℕ → EntryCalls)

/-- The key of a pair, and the cursor on it. -/
def keyOf (cursor : Cursor) : Except Failure (String × Cursor) := do
  let keyCursor ← cursor.next
  let key ← newUnicode calls keyCursor (← keyCursor.utf8String)
  return (key, keyCursor)

/-- The loop of `from_map`. -/
def mapLoopRefs (convert : RefCall) : ℕ → Cursor → List (String × PyObj) → ℕ → RefResult
  | 0, cursor, items, live => (.ok (.dict items, cursor), live)
  | size + 1, cursor, items, live =>
    if cursor = [] then (.ok (.dict items, cursor), live) else
    match keyOf calls cursor with
    -- `py_obj` is not released
    | .error failure => (.error failure, live)
    | .ok (key, keyCursor) => match keyCursor.next with
      | .error failure => (.error failure, live + 1)
      | .ok cursor =>
        (convert cursor (live + 1)).withValue (1 + (PyObj.dict items).refs) fun value cursor live =>
          let ok := (calls keyCursor.length).setItem
          mapLoopRefs convert size cursor (if ok then setItem items key value else items)
            (live - released ok items key value)

/-- The loop of `from_array`. -/
def arrayLoopRefs (convert : RefCall) : ℕ → Cursor → List PyObj → ℕ → RefResult
  | 0, cursor, xs, live => (.ok (.list xs, cursor), live)
  | size + 1, cursor, xs, live =>
    if cursor = [] then (.ok (.list xs, cursor), live) else
    match cursor.next with
    | .error failure => (.error failure, live)
    | .ok cursor => (convert cursor live).withValue (PyObj.list xs).refs fun value cursor live =>
        arrayLoopRefs convert size cursor (xs ++ [value]) live

/-- The `switch` of `from_entry_data_list`. An entry that is no container is converted to one object. -/
def fromEntryRefs (convert : RefCall) (cursor : Cursor) (live : ℕ) : EntryData → RefResult
  | .map size => match newObject calls cursor (.dict []) with
    | .error failure => (.error failure, live)
    | .ok _ => mapLoopRefs calls convert size cursor [] (live + 1)
  | .array size => match newObject calls cursor (.list []) with
    | .error failure => (.error failure, live)
    | .ok _ => arrayLoopRefs convert size cursor [] (live + 1)
  | e => match fromEntry long calls (fun _ => .error .stackOverflow) cursor e with
    | .error failure => (.error failure, live)
    | .ok x => (.ok x, live + 1)

/-- `from_entry_data_list`. -/
def fromEntryDataListRefs : ℕ → RefCall
  | 0, _, live => (.error .stackOverflow, live)
  | _ + 1, [], live => (.error (.raised .maxMindDBError), live)
  | limit + 1, entry :: rest, live =>
    fromEntryRefs long calls (fromEntryDataListRefs limit) (entry :: rest) live entry

end

/-! ## The conversion behind it -/

theorem RefResult.withValue_fst (x : RefResult) (holds : ℕ) {f : PyObj → Cursor → ℕ → RefResult}
    {g : PyObj × Cursor → Except Failure (PyObj × Cursor)}
    (h : ∀ value cursor live, (f value cursor live).1 = g (value, cursor)) :
    (x.withValue holds f).1 = x.1 >>= g := by
  obtain ⟨result, live⟩ := x
  cases result with
  | error => rfl
  | ok x => exact h x.1 x.2 live

section

variable {long : CLong} {calls : ℕ → EntryCalls} {convert : ConvertCall} {convert' : RefCall}

theorem mapLoopRefs_fst (h : ∀ cursor live, (convert' cursor live).1 = convert cursor) (size : ℕ)
    (cursor : Cursor) (items : List (String × PyObj)) (live : ℕ) :
    (mapLoopRefs calls convert' size cursor items live).1 = mapLoop calls convert size cursor items := by
  induction size generalizing cursor items live with
  | zero => rfl
  | succ size ih =>
    unfold mapLoopRefs mapLoop
    by_cases hnil : cursor = []
    · rw [if_pos hnil, if_pos hnil]
    rw [if_neg hnil, if_neg hnil]
    unfold keyOf
    cases cursor.next with
    | error => rfl
    | ok keyCursor =>
      simp only [Except.ok_bind]
      cases keyCursor.utf8String with
      | error => rfl
      | ok s =>
        simp only [Except.ok_bind]
        cases newUnicode calls keyCursor s with
        | error => rfl
        | ok key =>
          simp only [Except.ok_bind, pure, Except.pure]
          cases keyCursor.next with
          | error => rfl
          | ok cursor =>
            simp only [Except.ok_bind]
            rw [← h cursor (live + 1)]
            exact RefResult.withValue_fst _ _ fun value cursor live => ih cursor _ _

theorem arrayLoopRefs_fst (h : ∀ cursor live, (convert' cursor live).1 = convert cursor) (size : ℕ)
    (cursor : Cursor) (xs : List PyObj) (live : ℕ) :
    (arrayLoopRefs convert' size cursor xs live).1 = arrayLoop convert size cursor xs := by
  induction size generalizing cursor xs live with
  | zero => rfl
  | succ size ih =>
    unfold arrayLoopRefs arrayLoop
    by_cases hnil : cursor = []
    · rw [if_pos hnil, if_pos hnil]
    rw [if_neg hnil, if_neg hnil]
    cases cursor.next with
    | error => rfl
    | ok cursor =>
      simp only [Except.ok_bind]
      rw [← h cursor live]
      exact RefResult.withValue_fst _ _ fun value cursor live => ih cursor _ _

/-- What is converted, and how a conversion fails, does not depend on what has been made. -/
theorem fromEntryDataListRefs_fst (long : CLong) (calls : ℕ → EntryCalls) (limit : ℕ) (cursor : Cursor)
    (live : ℕ) :
    (fromEntryDataListRefs long calls limit cursor live).1 = fromEntryDataList long calls limit cursor := by
  induction limit generalizing cursor live with
  | zero => rfl
  | succ limit ih =>
    cases cursor with
    | nil => rfl
    | cons e es =>
      unfold fromEntryDataListRefs fromEntryDataList
      cases e with
      | map size =>
        unfold fromEntryRefs fromEntry fromMap
        cases newObject calls (.map size :: es) (.dict []) with
        | error => rfl
        | ok => exact mapLoopRefs_fst ih size _ _ _
      | array size =>
        unfold fromEntryRefs fromEntry fromArray
        cases newObject calls (.array size :: es) (.list []) with
        | error => rfl
        | ok => exact arrayLoopRefs_fst ih size _ _ _
      | _ =>
        unfold fromEntryRefs
        dsimp only
        split
        · next heq => exact heq.symm
        · next heq => exact heq.symm

end

/-! ## What fails first -/

/-- Whether the calls that are made to convert an entry succeed. -/
def made (calls : ℕ → EntryCalls) (k : ℕ) : EntryData → Bool
  | .boolean _ | .other _ => true
  | .uint128 _ => (calls k).malloc && (calls k).object
  | _ => (calls k).object

/-- What is expected of the first entry that is not converted. -/
def firstFailure (calls : ℕ → EntryCalls) : List EntryData → List Slot → Option Slot
  | _, [] => none
  | [], slot :: _ => some slot
  | e :: es, slot :: slots =>
    match meet slot e with
    | .expects inner =>
      if made calls (es.length + 1) e then firstFailure calls es (inner ++ slots) else some slot
    | .reported | .misread => some slot

section

variable {calls : ℕ → EntryCalls} {e : EntryData} {es : List EntryData} {slot : Slot}
  {slots inner : List Slot}

theorem firstFailure_of_expects (hmeet : meet slot e = .expects inner)
    (hmade : made calls (es.length + 1) e = true) :
    firstFailure calls (e :: es) (slot :: slots) = firstFailure calls es (inner ++ slots) := by
  simp only [firstFailure, hmeet, hmade, if_true]

theorem firstFailure_of_not_made (hmade : made calls (es.length + 1) e = false) :
    firstFailure calls (e :: es) (slot :: slots) = some slot := by
  unfold firstFailure
  cases meet slot e with
  | expects inner =>
    show (if _ then _ else _) = _
    rw [hmade, if_neg Bool.false_ne_true]
  | reported => rfl
  | misread => rfl

theorem firstFailure_of_reported (hmeet : meet slot e = .reported) :
    firstFailure calls (e :: es) (slot :: slots) = some slot := by
  simp only [firstFailure, hmeet]

end

/-- A conversion of the entries for some slots, where the objects that it holds from before go into the one
that it returns. -/
structure Balances (calls : ℕ → EntryCalls) (held : ℕ) (slots : List Slot) (es : List EntryData)
    (live : ℕ) (x : RefResult) : Prop where
  ok : ∀ v cursor, x.1 = .ok (v, cursor) → x.2 + held = live + v.refs ∧
    ∃ last rest, cursor = last :: rest ∧
      ∀ more, firstFailure calls es (slots ++ more) = firstFailure calls rest more
  raised : ∀ error, x.1 = .error (.raised error) → ∃ leak slot, x.2 + held = live + leak ∧
    (leak = 0 ↔ slot = .value) ∧ ∀ more, firstFailure calls es (slots ++ more) = some slot

section

variable {calls : ℕ → EntryCalls} {held live size : ℕ} {slots slots' : List Slot} {slot : Slot}
  {e : EntryData} {es : List EntryData} {x : RefResult} {convert : RefCall}

theorem balances_nil (v : PyObj) (last : EntryData) (es : List EntryData) (live : ℕ) :
    Balances calls v.refs [] es live (.ok (v, last :: es), live) := by
  refine ⟨fun v' cursor h => ?_, fun error h => ?_⟩
  · cases h
    exact ⟨rfl, last, es, rfl, fun _ => rfl⟩
  · cases h

theorem balances_of_crash {failure : Failure} (h : ∀ error, failure ≠ .raised error) :
    Balances calls held slots es live (.error failure, live) := by
  refine ⟨fun v cursor hok => ?_, fun error herror => ?_⟩
  · cases hok
  · cases herror
    exact absurd rfl (h error)

/-- An exception, of which nothing that is held is released. -/
theorem balances_of_raised {error : PyErr} (hslot : held = 0 ↔ slot = .value)
    (h : ∀ more, firstFailure calls es (slots ++ more) = some slot) :
    Balances calls held slots es live (.error (.raised error), live) := by
  refine ⟨fun v cursor hok => ?_, fun error' _ => ⟨held, slot, rfl, hslot, h⟩⟩
  cases hok

/-- What is held may be counted from another point on. -/
theorem Balances.shift {held' live' : ℕ} (h : Balances calls held' slots es live' x)
    (heq : live' + held = live + held') : Balances calls held slots es live x := by
  refine ⟨fun v cursor hok => ?_, fun error herror => ?_⟩
  · obtain ⟨hlive, hcursor⟩ := h.ok v cursor hok
    exact ⟨by omega, hcursor⟩
  · obtain ⟨leak, slot, hlive, hslot⟩ := h.raised error herror
    exact ⟨leak, slot, by omega, hslot⟩

/-- A value, and what is converted behind it. Where it fails, what is held and `extra` are released. -/
theorem Balances.withValue {extra holds : ℕ} {f : PyObj → Cursor → ℕ → RefResult}
    (h : Balances calls 0 slots es (live + extra) x) (hle : held ≤ live) (hholds : holds = extra + held)
    (hf : ∀ v last rest,
      Balances calls held slots' rest live (f v (last :: rest) (live + extra + v.refs))) :
    Balances calls held (slots ++ slots') es live (x.withValue holds f) := by
  obtain ⟨result, live'⟩ := x
  cases result with
  | error failure =>
    refine ⟨fun v cursor hok => ?_, fun error herror => ?_⟩
    · cases hok
    · cases herror
      obtain ⟨leak, slot, hlive, hslot, hfirst⟩ := h.raised error rfl
      refine ⟨leak, slot, ?_, hslot, fun more => ?_⟩
      · show live' - holds + held = live + leak
        have hlive : live' + 0 = live + extra + leak := hlive
        omega
      · rw [List.append_assoc]
        exact hfirst _
  | ok y =>
    obtain ⟨v, cursor⟩ := y
    obtain ⟨hlive, last, rest, rfl, hfirst⟩ := h.ok v cursor rfl
    have hrest := hf v last rest
    have hlive : live' = live + extra + v.refs := hlive
    rw [← hlive] at hrest
    refine ⟨fun v' cursor' hok => ?_, fun error herror => ?_⟩
    · obtain ⟨hlive', last', rest', hcursor', hfirst'⟩ := hrest.ok v' cursor' hok
      refine ⟨hlive', last', rest', hcursor', fun more => ?_⟩
      rw [List.append_assoc, hfirst, hfirst']
    · obtain ⟨leak, slot, hlive', hslot, hfirst'⟩ := hrest.raised error herror
      refine ⟨leak, slot, hlive', hslot, fun more => ?_⟩
      rw [List.append_assoc, hfirst, hfirst']

/-- An entry that is converted, and what is expected behind it. -/
theorem Balances.cons {inner : List Slot} (hmeet : meet slot e = .expects inner)
    (hmade : made calls (es.length + 1) e = true)
    (h : Balances calls held (inner ++ slots) es live x) :
    Balances calls held (slot :: slots) (e :: es) live x := by
  have heq : ∀ more, firstFailure calls (e :: es) (slot :: slots ++ more) =
      firstFailure calls es (inner ++ slots ++ more) := by
    intro more
    rw [List.cons_append, firstFailure_of_expects hmeet hmade, List.append_assoc]
  refine ⟨fun v cursor hok => ?_, fun error herror => ?_⟩
  · obtain ⟨hlive, last, rest, hcursor, hfirst⟩ := h.ok v cursor hok
    exact ⟨hlive, last, rest, hcursor, fun more => (heq more).trans (hfirst more)⟩
  · obtain ⟨leak, slot', hlive, hslot, hfirst⟩ := h.raised error herror
    exact ⟨leak, slot', hlive, hslot, fun more => (heq more).trans (hfirst more)⟩

end

/-! ## The functions -/

section

variable {calls : ℕ → EntryCalls} {live : ℕ} {convert : RefCall} {e : EntryData} {es : List EntryData}

theorem newUnicode_made (calls : ℕ → EntryCalls) (slot : Slot) (s : Bytes) (es : List EntryData) :
    (∃ key, newUnicode calls (.utf8String s :: es) s = .ok key ∧
      meet slot (.utf8String s) = .expects [] ∧ made calls (es.length + 1) (.utf8String s) = true) ∨
    ∃ error, newUnicode calls (.utf8String s :: es) s = .error (.raised error) ∧
      ∀ slots, firstFailure calls (.utf8String s :: es) (slot :: slots) = some slot := by
  have hmeet := meet_utf8String slot s
  unfold newUnicode
  unfold meetString at hmeet
  cases hdecode : decodeUtf8 s with
  | error =>
    rw [hdecode] at hmeet
    exact .inr ⟨_, rfl, fun _ => firstFailure_of_reported hmeet⟩
  | ok key =>
    rw [hdecode] at hmeet
    cases hmade : made calls (es.length + 1) (.utf8String s) with
    | false => exact .inr ⟨_, if_neg (Bool.eq_false_iff.mp hmade), fun _ => firstFailure_of_not_made hmade⟩
    | true => exact .inl ⟨key, if_pos hmade, hmeet, rfl⟩

theorem keyOf_cases (calls : ℕ → EntryCalls) (last : EntryData) (es : List EntryData) :
    (∃ key s rest, keyOf calls (last :: es) = .ok (key, es) ∧ es = .utf8String s :: rest ∧
      meet .key (.utf8String s) = .expects [] ∧
      made calls (rest.length + 1) (.utf8String s) = true) ∨
    (∃ error, keyOf calls (last :: es) = .error (.raised error) ∧
      ∀ slots, firstFailure calls es (.key :: slots) = some .key) ∨
    ∃ failure, keyOf calls (last :: es) = .error failure ∧ ∀ error, failure ≠ .raised error := by
  cases es with
  | nil => exact .inr (.inr ⟨.nullDereference, rfl, fun _ h => Failure.noConfusion h⟩)
  | cons entry rest =>
    cases entry with
    | utf8String s =>
      rcases newUnicode_made calls .key s rest with ⟨key, hkey, hmeet, hmade⟩ | ⟨error, hkey, hfirst⟩
      · refine .inl ⟨key, s, rest, ?_, rfl, hmeet, hmade⟩
        show (newUnicode calls (.utf8String s :: rest) s >>= _) = _
        rw [hkey]
        rfl
      · refine .inr (.inl ⟨error, ?_, hfirst⟩)
        show (newUnicode calls (.utf8String s :: rest) s >>= _) = _
        rw [hkey]
        rfl
    | _ => exact .inr (.inr ⟨.wrongMember, rfl, fun _ h => Failure.noConfusion h⟩)

/-- The loop of `from_map` holds the dictionary. -/
theorem balances_mapLoopRefs (hconvert : ∀ es live, Balances calls 0 [.value] es live (convert es live))
    (size : ℕ) (last : EntryData) (es : List EntryData) (items : List (String × PyObj)) (live : ℕ)
    (hle : (PyObj.dict items).refs ≤ live) :
    Balances calls (PyObj.dict items).refs (pairSlots size) es live
      (mapLoopRefs calls convert size (last :: es) items live) := by
  induction size generalizing last es items live with
  | zero => exact balances_nil (.dict items) last es live
  | succ size ih =>
    unfold mapLoopRefs
    rw [if_neg (List.cons_ne_nil _ _)]
    rcases keyOf_cases calls last es with
      ⟨key, s, rest, hkey, rfl, hmeet, hmade⟩ | ⟨error, hkey, hfirst⟩ | ⟨failure, hkey, hcrash⟩
    · rw [hkey]
      refine Balances.cons hmeet hmade ?_
      refine (hconvert rest (live + 1)).withValue hle rfl fun value last rest' => ?_
      generalize hok : (calls (EntryData.utf8String s :: rest).length).setItem = ok
      have hrefs := refsItems_add_released ok items key value
      have hdict : ∀ items, (PyObj.dict items).refs = 1 + refsItems items := fun _ => rfl
      simp only [hdict] at hle ⊢
      exact (ih last rest' _ _ (by rw [hdict]; omega)).shift (by rw [hdict]; omega)
    · rw [hkey]
      refine balances_of_raised ?_ fun more => hfirst _
      rw [PyObj.refs]
      exact iff_of_false (by omega) Slot.noConfusion
    · rw [hkey]
      exact balances_of_crash hcrash

/-- The loop of `from_array` holds the list. -/
theorem balances_arrayLoopRefs (hconvert : ∀ es live, Balances calls 0 [.value] es live (convert es live))
    (size : ℕ) (last : EntryData) (es : List EntryData) (xs : List PyObj) (live : ℕ)
    (hle : (PyObj.list xs).refs ≤ live) :
    Balances calls (PyObj.list xs).refs (List.replicate size .value) es live
      (arrayLoopRefs convert size (last :: es) xs live) := by
  induction size generalizing last es xs live with
  | zero => exact balances_nil (.list xs) last es live
  | succ size ih =>
    unfold arrayLoopRefs
    rw [if_neg (List.cons_ne_nil _ _)]
    refine (hconvert es live).withValue hle (Nat.zero_add _).symm fun value last rest => ?_
    have hlist : (PyObj.list (xs ++ [value])).refs = (PyObj.list xs).refs + value.refs := by
      rw [PyObj.refs, PyObj.refs, refsAll_append]
      omega
    exact (ih last rest _ _ (by omega)).shift (by omega)

theorem balances_value {error : PyErr}
    (h : ∀ more, firstFailure calls es (.value :: more) = some .value) :
    Balances calls 0 [.value] es live (.error (.raised error), live) :=
  balances_of_raised (iff_of_true rfl rfl) h

theorem newObject_made {v : PyObj} (hrefs : v.refs = 1)
    (hmade : made calls (es.length + 1) e = (calls (es.length + 1)).object) :
    (newObject calls (e :: es) v = .ok v ∧ v.refs = 1 ∧ made calls (es.length + 1) e = true) ∨
    ∃ error, newObject calls (e :: es) v = .error (.raised error) ∧
      made calls (es.length + 1) e = false := by
  cases hobject : (calls (es.length + 1)).object with
  | false => exact .inr ⟨.noMemory, if_neg (Bool.eq_false_iff.mp hobject), hmade.trans hobject⟩
  | true => exact .inl ⟨if_pos hobject, hrefs, hmade.trans hobject⟩

theorem fromUint128_made (calls : ℕ → EntryCalls) (n : MMDBUint128) (es : List EntryData) :
    (∃ v, fromUint128 calls (.uint128 n :: es) n = .ok v ∧ v.refs = 1 ∧
      made calls (es.length + 1) (.uint128 n) = true) ∨
    ∃ error, fromUint128 calls (.uint128 n :: es) n = .error (.raised error) ∧
      made calls (es.length + 1) (.uint128 n) = false := by
  unfold fromUint128
  rw [parseHex_numStr, List.length_cons]
  show _ ∨ ∃ error, _ ∧ ((calls (es.length + 1)).malloc && (calls (es.length + 1)).object) = false
  cases hmalloc : (calls (es.length + 1)).malloc with
  | false => exact .inr ⟨.noMemory, rfl, rfl⟩
  | true =>
    cases hobject : (calls (es.length + 1)).object with
    | false => exact .inr ⟨.noMemory, if_neg (Bool.eq_false_iff.mp hobject), rfl⟩
    | true =>
      refine .inl ⟨.int n.value, if_pos hobject, rfl, ?_⟩
      show ((calls (es.length + 1)).malloc && (calls (es.length + 1)).object) = true
      rw [hmalloc, hobject]
      rfl

theorem balances_container {v : PyObj} {inner : List Slot} {loop : RefResult}
    (hmeet : meet .value e = .expects inner)
    (hmade : made calls (es.length + 1) e = (calls (es.length + 1)).object) (hrefs : v.refs = 1)
    (h : Balances calls v.refs inner es (live + 1) loop) :
    Balances calls 0 [.value] (e :: es) live
      (match newObject calls (e :: es) v with
        | .error failure => (.error failure, live)
        | .ok _ => loop) := by
  rcases newObject_made hrefs hmade with ⟨hobject, -, hmade⟩ | ⟨error, hobject, hmade⟩
  · rw [hobject]
    rw [← List.append_nil inner] at h
    exact (Balances.cons hmeet hmade h).shift (by omega)
  · rw [hobject]
    exact balances_value fun more => firstFailure_of_not_made hmade

theorem balances_object {v : PyObj} (hrefs : v.refs = 1) (hmeet : meet .value e = .expects [])
    (hmade : made calls (es.length + 1) e = true) :
    Balances calls 0 [.value] (e :: es) live (.ok (v, e :: es), live + 1) := by
  have hnil : Balances calls v.refs [] es (live + 1) (.ok (v, e :: es), live + 1) := balances_nil v e es _
  exact (Balances.cons hmeet hmade hnil).shift (by omega)

theorem balances_scalar {object : Except Failure PyObj} (hmeet : meet .value e = .expects [])
    (h : (∃ v, object = .ok v ∧ v.refs = 1 ∧ made calls (es.length + 1) e = true) ∨
      ∃ error, object = .error (.raised error) ∧ made calls (es.length + 1) e = false) :
    Balances calls 0 [.value] (e :: es) live
      (match object >>= fun v => .ok (v, e :: es) with
        | .error failure => (.error failure, live)
        | .ok x => (.ok x, live + 1)) := by
  rcases h with ⟨v, rfl, hrefs, hmade⟩ | ⟨error, rfl, hmade⟩
  · exact balances_object hrefs hmeet hmade
  · exact balances_value fun more => firstFailure_of_not_made hmade

theorem balances_utf8String (s : Bytes) :
    Balances calls 0 [.value] (.utf8String s :: es) live
      (match newUnicode calls (.utf8String s :: es) s >>= fun key =>
          .ok (.str key, .utf8String s :: es) with
        | .error failure => (.error failure, live)
        | .ok x => (.ok x, live + 1)) := by
  rcases newUnicode_made calls .value s es with ⟨key, hkey, hmeet, hmade⟩ | ⟨error, hkey, hfirst⟩
  · rw [hkey]
    exact balances_object rfl hmeet hmade
  · rw [hkey]
    exact balances_value fun more => hfirst more

theorem balances_fromEntryRefs (long : CLong)
    (hconvert : ∀ es live, Balances calls 0 [.value] es live (convert es live)) (e : EntryData)
    (es : List EntryData) (live : ℕ) :
    Balances calls 0 [.value] (e :: es) live (fromEntryRefs long calls convert (e :: es) live e) := by
  unfold fromEntryRefs
  cases e with
  | map size =>
    refine balances_container rfl rfl rfl ?_
    exact balances_mapLoopRefs hconvert size _ es [] (live + 1) (Nat.le_add_left 1 live)
  | array size =>
    refine balances_container rfl rfl rfl ?_
    exact balances_arrayLoopRefs hconvert size _ es [] (live + 1) (Nat.le_add_left 1 live)
  | utf8String s => exact balances_utf8String s
  | boolean b => exact balances_object rfl rfl rfl
  | uint128 n => exact balances_scalar rfl (fromUint128_made calls n es)
  | other type => exact balances_value fun more => firstFailure_of_reported rfl
  | _ => exact balances_scalar rfl ((newObject_made rfl rfl).imp_left fun h => ⟨_, h⟩)

/-- **What a conversion makes of any list, and what it leaves.** -/
theorem balances_fromEntryDataListRefs (long : CLong) (calls : ℕ → EntryCalls) (limit : ℕ)
    (es : List EntryData) (live : ℕ) :
    Balances calls 0 [.value] es live (fromEntryDataListRefs long calls limit es live) := by
  induction limit generalizing es live with
  | zero => exact balances_of_crash fun error h => Failure.noConfusion h
  | succ limit ih =>
    cases es with
    | nil => exact balances_value fun more => rfl
    | cons e es => exact balances_fromEntryRefs long ih e es live

end

/-! ## Leaks -/

/-- What a conversion leaves behind: of an object that it returns, its references; otherwise nothing. -/
structure Tidy (long : CLong) (calls : ℕ → EntryCalls) (limit : ℕ) (es : List EntryData) : Prop where
  ok : ∀ v cursor, fromEntryDataList long calls limit es = .ok (v, cursor) →
    (fromEntryDataListRefs long calls limit es 0).2 = v.refs
  raised : ∀ error, fromEntryDataList long calls limit es = .error (.raised error) →
    (fromEntryDataListRefs long calls limit es 0).2 = 0

/-- **When a conversion leaks nothing.** -/
theorem tidy_iff (long : CLong) (calls : ℕ → EntryCalls) (limit : ℕ) (es : List EntryData) :
    Tidy long calls limit es ↔
      ((∃ error, fromEntryDataList long calls limit es = .error (.raised error)) →
        firstFailure calls es [.value] = some .value) := by
  have hfst := fromEntryDataListRefs_fst long calls limit es 0
  have hbalances := balances_fromEntryDataListRefs long calls limit es 0
  constructor
  · rintro htidy ⟨error, herror⟩
    obtain ⟨leak, slot, hlive, hslot, hfirst⟩ := hbalances.raised error (hfst.trans herror)
    have hnone := htidy.raised error herror
    rw [← List.append_nil [Slot.value], hfirst, hslot.mp (by omega)]
  · intro hvalue
    refine ⟨fun v cursor hok => ?_, fun error herror => ?_⟩
    · obtain ⟨hlive, -⟩ := hbalances.ok v cursor (hfst.trans hok)
      omega
    · obtain ⟨leak, slot, hlive, hslot, hfirst⟩ := hbalances.raised error (hfst.trans herror)
      have hfirst := hfirst []
      rw [List.append_nil, hvalue ⟨error, herror⟩, Option.some.injEq] at hfirst
      have hnone := hslot.mpr hfirst.symm
      omega

/-- A pair, and a key that is no UTF-8: the dictionary is left, with the pair. -/
example : (fromEntryDataListRefs .bits64 (fun _ => .succeed) 2
    [.map 2, .utf8String [97], .boolean true, .utf8String [255]] 0).2 = 3 := by decide

/-- A value that is no UTF-8. -/
example : (fromEntryDataListRefs .bits64 (fun _ => .succeed) 2
    [.map 2, .utf8String [97], .boolean true, .utf8String [98], .utf8String [255]] 0).2 = 0 := by decide

end MaxMindDB.Extension
