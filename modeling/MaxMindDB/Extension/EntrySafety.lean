import MaxMindDB.Extension.Integers

/-!
# Conversion of any entry list

A list of entries may end before the sizes in it say, and any entry may stand where a key is expected.
`from_entry_data_list` looks whether there is an entry; `from_map` reads the key before that, and does
not look at its type.

`Slot` is what the functions expect of the next entry. `safe_iff`: a conversion returns an object, or
`NULL` with an exception set, whatever the calls it makes come to, exactly when a string stands
wherever a key is expected (`KeysInPlace`).
-/

namespace MaxMindDB.Extension

open Octets Raising

/-! ## What is expected of a list -/

/-- What an entry is read as: the key of a pair, or a value. -/
inductive Slot where
  | key
  | value
  deriving DecidableEq

/-- The pairs of a map. -/
def pairSlots : ℕ → List Slot
  | 0 => []
  | size + 1 => .key :: .value :: pairSlots size

/-- What comes of an entry that stands where `slot` is expected. -/
inductive Meeting where
  /-- It is converted once these are. -/
  | expects (slots : List Slot)
  /-- An exception is set. -/
  | reported
  /-- It is read as a string, and is none. -/
  | misread

/-- A string is converted when it is UTF-8. -/
def meetString (s : Bytes) : Meeting :=
  match decodeUtf8 s with
  | .ok _ => .expects []
  | .error _ => .reported

/-- An entry, met where a key or a value is expected. -/
def meet : Slot → EntryData → Meeting
  | _, .utf8String s => meetString s
  | .key, _ => .misread
  | .value, .map size => .expects (pairSlots size)
  | .value, .array size => .expects (List.replicate size .value)
  | .value, .other _ => .reported
  | .value, _ => .expects []

theorem meet_utf8String (slot : Slot) (s : Bytes) : meet slot (.utf8String s) = meetString s := by
  cases slot <;> rfl

/-- Up to the first entry that is reported, there is a string wherever a key is expected. -/
def KeysInPlace : List EntryData → List Slot → Prop
  | _, [] => True
  | [], slot :: _ => slot = .value
  | e :: es, slot :: slots =>
    match meet slot e with
    | .expects inner => KeysInPlace es (inner ++ slots)
    | .reported => True
    | .misread => False

section

variable {e : EntryData} {es : List EntryData} {slot : Slot} {slots inner : List Slot}

theorem keysInPlace_nil (es : List EntryData) : KeysInPlace es [] := by
  cases es <;> trivial

theorem keysInPlace_of_expects (h : meet slot e = .expects inner) :
    KeysInPlace (e :: es) (slot :: slots) ↔ KeysInPlace es (inner ++ slots) := by
  simp only [KeysInPlace, h]

theorem keysInPlace_of_reported (h : meet slot e = .reported) :
    KeysInPlace (e :: es) (slot :: slots) := by
  simp only [KeysInPlace, h]

theorem not_keysInPlace_of_misread (h : meet slot e = .misread) :
    ¬ KeysInPlace (e :: es) (slot :: slots) := by
  simp only [KeysInPlace, h, not_false_eq_true]

end

instance decidableKeysInPlace : (es : List EntryData) → (slots : List Slot) →
    Decidable (KeysInPlace es slots)
  | es, [] => .isTrue (keysInPlace_nil es)
  | [], slot :: _ => inferInstanceAs (Decidable (slot = .value))
  | e :: es, slot :: slots =>
    match h : meet slot e with
    | .expects inner =>
      have := decidableKeysInPlace es (inner ++ slots)
      decidable_of_iff _ (keysInPlace_of_expects h).symm
    | .reported => .isTrue (keysInPlace_of_reported h)
    | .misread => .isFalse (not_keysInPlace_of_misread h)

/-! ## What a conversion does with a list -/

/-- The outcome of a conversion that is to read `slots` off the entries `es`, while `limit` calls may
be in progress. -/
structure Follows (calls : ℕ → EntryCalls) (limit : ℕ) (slots : List Slot) (es : List EntryData)
    (outcome : Except Failure (PyObj × Cursor)) : Prop where
  ok : ∀ v cursor, outcome = .ok (v, cursor) → ∃ last rest, cursor = last :: rest ∧
    rest.length ≤ es.length ∧ ∀ more, KeysInPlace es (slots ++ more) ↔ KeysInPlace rest more
  misread : outcome = .error .nullDereference ∨ outcome = .error .wrongMember →
    ∀ more, ¬ KeysInPlace es (slots ++ more)
  raised : (∀ k, calls k = .succeed) → ∀ error, outcome = .error (.raised error) →
    ∀ more, KeysInPlace es (slots ++ more)
  overflow : outcome = .error .stackOverflow → limit ≤ es.length

section

variable {calls : ℕ → EntryCalls} {limit size : ℕ} {slots slots' : List Slot} {e last : EntryData}
  {es rest : List EntryData} {outcome : Except Failure (PyObj × Cursor)} {convert : ConvertCall}

theorem follows_nil (v : PyObj) (last : EntryData) (es : List EntryData) :
    Follows calls limit [] es (.ok (v, last :: es)) where
  ok := by
    rintro v' cursor ⟨⟩
    exact ⟨last, es, rfl, le_rfl, fun _ => Iff.rfl⟩
  misread := by rintro (h | h) <;> cases h
  raised := by rintro _ error ⟨⟩
  overflow := nofun

/-- An exception that is set, of which a list in order is no proof. -/
theorem follows_raised (error : PyErr)
    (h : (∀ k, calls k = .succeed) → ∀ more, KeysInPlace es (slots ++ more)) :
    Follows calls limit slots es (.error (.raised error)) where
  ok := by rintro v cursor ⟨⟩
  misread := by rintro (h | h) <;> cases h
  raised hcalls _ _ := h hcalls
  overflow := nofun

theorem Follows.bind {f : PyObj × Cursor → Except Failure (PyObj × Cursor)}
    (h : Follows calls limit slots es outcome)
    (hf : ∀ v last rest, rest.length ≤ es.length →
      Follows calls limit slots' rest (f (v, last :: rest))) :
    Follows calls limit (slots ++ slots') es (outcome >>= f) := by
  cases outcome with
  | error failure =>
    refine ⟨by rintro v cursor ⟨⟩, fun herr more => ?_, fun hcalls error herr more => ?_, h.overflow⟩
    · rw [List.append_assoc]
      exact h.misread herr _
    · rw [List.append_assoc]
      exact h.raised hcalls error herr _
  | ok x =>
    obtain ⟨v, cursor⟩ := x
    obtain ⟨last, rest, rfl, hle, hiff⟩ := h.ok v cursor rfl
    have hrest := hf v last rest hle
    refine ⟨fun v' cursor' hok => ?_, fun herr more => ?_, fun hcalls error herr more => ?_,
      fun herr => (hrest.overflow herr).trans hle⟩
    · obtain ⟨last', rest', rfl, hle', hiff'⟩ := hrest.ok v' cursor' hok
      refine ⟨last', rest', rfl, hle'.trans hle, fun more => ?_⟩
      rw [List.append_assoc, hiff, hiff']
    · rw [List.append_assoc, hiff]
      exact hrest.misread herr more
    · rw [List.append_assoc, hiff]
      exact hrest.raised hcalls error herr more

theorem Follows.cons {slot : Slot} (hmeet : meet slot e = .expects slots)
    (h : Follows calls limit (slots ++ slots') es outcome) :
    Follows calls (limit + 1) (slot :: slots') (e :: es) outcome := by
  have hiff : ∀ more, KeysInPlace (e :: es) (slot :: slots' ++ more) ↔
      KeysInPlace es (slots ++ slots' ++ more) := by
    intro more
    rw [List.cons_append, keysInPlace_of_expects hmeet, List.append_assoc]
  refine ⟨fun v cursor hok => ?_, fun herr more => ?_, fun hcalls error herr more => ?_,
    fun herr => Nat.succ_le_succ (h.overflow herr)⟩
  · obtain ⟨last, rest, rfl, hle, hrest⟩ := h.ok v cursor hok
    refine ⟨last, rest, rfl, hle.trans (Nat.le_succ _), fun more => ?_⟩
    rw [hiff, hrest]
  · rw [hiff]
    exact h.misread herr more
  · rw [hiff]
    exact h.raised hcalls error herr more

theorem Follows.cons_nil {slot : Slot} (hmeet : meet slot e = .expects [])
    (h : Follows calls limit slots' es outcome) :
    Follows calls (limit + 1) (slot :: slots') (e :: es) outcome := Follows.cons hmeet h

theorem Follows.container (hmeet : meet .value e = .expects slots)
    (h : Follows calls limit slots es outcome) :
    Follows calls (limit + 1) [.value] (e :: es) outcome := by
  rw [← List.append_nil slots] at h
  exact Follows.cons hmeet h

theorem Follows.mono {limit' : ℕ} (h : Follows calls limit slots es outcome) (hle : limit' ≤ limit) :
    Follows calls limit' slots es outcome :=
  ⟨h.ok, h.misread, h.raised, fun herr => hle.trans (h.overflow herr)⟩

/-! ## The functions -/

theorem newUnicode_cases (calls : ℕ → EntryCalls) (cursor : Cursor) (slot : Slot) (s : Bytes) :
    (∃ key, newUnicode calls cursor s = .ok key ∧ meet slot (.utf8String s) = .expects []) ∨
    ∃ error, newUnicode calls cursor s = .error (.raised error) ∧
      ((∀ k, calls k = .succeed) → meet slot (.utf8String s) = .reported) := by
  rw [meet_utf8String]
  unfold newUnicode meetString
  cases decodeUtf8 s with
  | error => exact .inr ⟨_, rfl, fun _ => rfl⟩
  | ok s =>
    by_cases hobject : (calls cursor.length).object = true
    · exact .inl ⟨s, by simp only [hobject, if_true], rfl⟩
    · refine .inr ⟨.noMemory, by simp only [hobject, if_false, Bool.false_eq_true], ?_⟩
      intro hcalls
      rw [hcalls] at hobject
      exact absurd rfl hobject

/-- The loop of `from_map` reads a key and a value for each pair. -/
theorem follows_mapLoop (hconvert : ∀ es, Follows calls limit [.value] es (convert es))
    (size : ℕ) (last : EntryData) (es : List EntryData) (items : List (String × PyObj)) :
    Follows calls limit (pairSlots size) es (mapLoop calls convert size (last :: es) items) := by
  induction size generalizing last es items with
  | zero => exact follows_nil _ _ _
  | succ size ih =>
    unfold mapLoop
    rw [if_neg (List.cons_ne_nil _ _)]
    simp only [Cursor.next, Except.ok_bind]
    cases es with
    | nil =>
      -- the list ends where a key is expected
      refine ⟨by rintro v cursor ⟨⟩, fun _ more h => ?_, by rintro _ error ⟨⟩, nofun⟩
      cases h
    | cons entry es =>
      by_cases hstring : ∃ s, entry = .utf8String s
      · obtain ⟨s, rfl⟩ := hstring
        simp only [Cursor.utf8String, Except.ok_bind]
        rcases newUnicode_cases calls (.utf8String s :: es) .key s with
          ⟨key, hkey, hmeet⟩ | ⟨error, hkey, hmeet⟩
        · rw [hkey]
          simp only [Except.ok_bind]
          refine (Follows.cons_nil hmeet ?_).mono (Nat.le_succ _)
          exact (hconvert es).bind fun v last rest _ => ih last rest _
        · rw [hkey]
          refine follows_raised error fun hcalls more => ?_
          exact keysInPlace_of_reported (hmeet hcalls)
      · have hmember : Cursor.utf8String (entry :: es) = .error .wrongMember := by
          cases entry <;> first | rfl | exact absurd ⟨_, rfl⟩ hstring
        have hmeet : meet .key entry = .misread := by
          cases entry <;> first | rfl | exact absurd ⟨_, rfl⟩ hstring
        rw [hmember]
        refine ⟨by rintro v cursor ⟨⟩, fun _ more => ?_, by rintro _ error ⟨⟩, nofun⟩
        exact not_keysInPlace_of_misread hmeet

/-- The loop of `from_array` reads a value for each element. -/
theorem follows_arrayLoop (hconvert : ∀ es, Follows calls limit [.value] es (convert es))
    (size : ℕ) (last : EntryData) (es : List EntryData) (xs : List PyObj) :
    Follows calls limit (List.replicate size .value) es
      (arrayLoop convert size (last :: es) xs) := by
  induction size generalizing last es xs with
  | zero => exact follows_nil _ _ _
  | succ size ih =>
    unfold arrayLoop
    rw [if_neg (List.cons_ne_nil _ _)]
    simp only [Cursor.next, Except.ok_bind]
    exact (hconvert es).bind fun v last rest _ => ih last rest _

theorem follows_scalar {object : Except Failure PyObj} (hmeet : meet .value e = .expects [])
    (h : (∃ v, object = .ok v) ∨
      ∃ error, object = .error (.raised error) ∧ ¬ ∀ k, calls k = .succeed) :
    Follows calls limit [.value] (e :: es) (object >>= fun v => .ok (v, e :: es)) := by
  rcases h with ⟨v, rfl⟩ | ⟨error, rfl, hcalls⟩
  · have hnil : Follows calls limit [] es (.ok (v, e :: es)) := follows_nil v e es
    exact (Follows.cons_nil hmeet hnil).mono (Nat.le_succ _)
  · exact follows_raised error fun h => absurd h hcalls

theorem newObject_cases (calls : ℕ → EntryCalls) (cursor : Cursor) (v : PyObj) :
    (∃ v', newObject calls cursor v = .ok v') ∨
    ∃ error, newObject calls cursor v = .error (.raised error) ∧ ¬ ∀ k, calls k = .succeed := by
  unfold newObject
  by_cases hobject : (calls cursor.length).object = true
  · exact .inl ⟨v, by rw [if_pos hobject]⟩
  · refine .inr ⟨.noMemory, by rw [if_neg hobject], fun hcalls => ?_⟩
    rw [hcalls] at hobject
    exact hobject rfl

theorem fromUint128_cases (calls : ℕ → EntryCalls) (cursor : Cursor) (n : MMDBUint128) :
    (∃ v, fromUint128 calls cursor n = .ok v) ∨
    ∃ error, fromUint128 calls cursor n = .error (.raised error) ∧
      ¬ ∀ k, calls k = .succeed := by
  unfold fromUint128
  rw [parseHex_numStr]
  by_cases hmalloc : (calls cursor.length).malloc = true
  · simp only [hmalloc, Bool.not_true, Bool.false_eq_true, if_false]
    exact newObject_cases calls cursor _
  · refine .inr ⟨.noMemory, by simp [hmalloc], fun hcalls => ?_⟩
    rw [hcalls] at hmalloc
    exact hmalloc rfl

theorem follows_utf8String (s : Bytes) :
    Follows calls limit [.value] (.utf8String s :: es)
      (newUnicode calls (.utf8String s :: es) s >>= fun key =>
        .ok (.str key, .utf8String s :: es)) := by
  rcases newUnicode_cases calls (.utf8String s :: es) .value s with
    ⟨key, hkey, hmeet⟩ | ⟨error, hkey, hmeet⟩
  · rw [hkey]
    have hnil : Follows calls limit [] es (.ok (.str key, .utf8String s :: es)) := follows_nil _ _ _
    exact (Follows.cons_nil hmeet hnil).mono (Nat.le_succ _)
  · rw [hkey]
    exact follows_raised error fun hcalls more => keysInPlace_of_reported (hmeet hcalls)

theorem follows_newObject {v : PyObj} {cursor : Cursor} (hmeet : meet .value e = .expects slots)
    (h : Follows calls limit slots es outcome) :
    Follows calls (limit + 1) [.value] (e :: es) (newObject calls cursor v >>= fun _ => outcome) := by
  rcases newObject_cases calls cursor v with ⟨v, hv⟩ | ⟨error, hv, hcalls⟩
  · rw [hv]
    exact h.container hmeet
  · rw [hv]
    exact follows_raised error fun h => absurd h hcalls

theorem follows_fromEntry (long : CLong)
    (hconvert : ∀ es, Follows calls limit [.value] es (convert es)) (e : EntryData)
    (es : List EntryData) :
    Follows calls (limit + 1) [.value] (e :: es) (fromEntry long calls convert (e :: es) e) := by
  cases e with
  | map size => exact follows_newObject rfl (follows_mapLoop hconvert size _ es [])
  | array size => exact follows_newObject rfl (follows_arrayLoop hconvert size _ es [])
  | utf8String s => exact follows_utf8String s
  | boolean b => exact follows_scalar rfl (.inl ⟨.bool b, rfl⟩)
  | uint128 n => exact follows_scalar rfl (fromUint128_cases _ _ _)
  | other type => exact follows_raised _ fun _ _ => keysInPlace_of_reported rfl
  | _ => exact follows_scalar rfl (newObject_cases _ _ _)

/-- **What a conversion does with any list.** -/
theorem follows_fromEntryDataList (long : CLong) (calls : ℕ → EntryCalls) (limit : ℕ)
    (es : List EntryData) :
    Follows calls limit [.value] es (fromEntryDataList long calls limit es) := by
  induction limit generalizing es with
  | zero =>
    refine ⟨by rintro v cursor ⟨⟩, ?_, by rintro _ error ⟨⟩, fun _ => Nat.zero_le _⟩
    rintro (h | h)
    · cases h
    · cases h
  | succ limit ih =>
    cases es with
    | nil => exact follows_raised _ fun _ _ => rfl
    | cons e es => exact follows_fromEntry long ih e es

/-! ## Safety -/

/-- An object is returned, or `NULL` with an exception set. -/
def Returns (outcome : Except Failure (PyObj × Cursor)) : Prop :=
  (∃ v cursor, outcome = .ok (v, cursor)) ∨ ∃ error, outcome = .error (.raised error)

/-- Whatever the calls for its entries come to, the list is converted: the cursor is not dereferenced
when it is `NULL`, and no other union member is read than that of an entry's type. -/
def Safe (long : CLong) (es : List EntryData) : Prop :=
  ∀ calls, ∀ᶠ limit in Filter.atTop, Returns (fromEntryDataList long calls limit es)

/-- **When a list is converted safely.** -/
theorem safe_iff (long : CLong) (es : List EntryData) : Safe long es ↔ KeysInPlace es [.value] := by
  constructor
  · intro h
    obtain ⟨limit, hlimit⟩ := (h fun _ => .succeed).exists
    have hfollows := follows_fromEntryDataList long (fun _ => .succeed) limit es
    rcases hlimit with ⟨v, cursor, hok⟩ | ⟨error, herror⟩
    · obtain ⟨last, rest, -, -, hiff⟩ := hfollows.ok v cursor hok
      exact (hiff []).mpr (keysInPlace_nil rest)
    · exact hfollows.raised (fun _ => rfl) error herror []
  · intro h calls
    filter_upwards [Filter.eventually_gt_atTop es.length] with limit hlimit
    have hfollows := follows_fromEntryDataList long calls limit es
    cases houtcome : fromEntryDataList long calls limit es with
    | ok x => exact .inl ⟨x.1, x.2, rfl⟩
    | error failure =>
      cases failure with
      | raised error => exact .inr ⟨error, rfl⟩
      | nullDereference => exact absurd h (hfollows.misread (.inl houtcome) [])
      | wrongMember => exact absurd h (hfollows.misread (.inr houtcome) [])
      | stackOverflow => exact absurd (hfollows.overflow houtcome) (by omega)

/-- A map that announces a pair, at the end of the list. -/
theorem not_safe : ¬ ∀ (long : CLong) (es : List EntryData), Safe long es := by
  intro hall
  obtain ⟨limit, hlimit⟩ := (hall .bits64 [.map 1] fun _ => .succeed).exists
  cases limit with
  | zero => rcases hlimit with ⟨v, cursor, h⟩ | ⟨error, h⟩ <;> cases h
  | succ limit => rcases hlimit with ⟨v, cursor, h⟩ | ⟨error, h⟩ <;> cases h

end

end MaxMindDB.Extension
