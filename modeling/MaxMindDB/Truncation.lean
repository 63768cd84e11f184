import MaxMindDB.Nesting

/-!
# Fields cut short by the end of the buffer

A slice ends where the buffer does. A string, a byte string, an unsigned integer or an `int32` whose
payload runs past the end is therefore read as what is left of it (`CutShort`); sizes, pointers and
floats are unpacked, and so must be there.

`wholeAt_iff`: nothing that goes into a value that is decoded depends on where the buffer ends exactly
when no field that is met on the way is cut short.
-/

namespace MaxMindDB

open Octets Raising Except Recursion

/-- What the call at an offset returns ends in the buffer, and stays the same when anything is put
behind the buffer. -/
def WholeAt (b : Bytes) (p o : ℕ) : Prop :=
  ∀ limit v e, (Decoder.ofBytes b p).decode limit o = .ok (v, e) →
    e ≤ b.length ∧ ∀ post, (Decoder.ofBytes (b ++ post) p).decode limit o = .ok (v, e)

/-- The payload of the field at `o` runs past the end of the buffer, and what is left of it is taken. -/
inductive CutShort (b : Bytes) (o : ℕ) : Prop where
  | utf8String {s q : ℕ} : FieldStart b o .utf8String s q → b.length < q + s →
      String.fromUTF8? ⟨(slice b q (q + s)).toArray⟩ ≠ none → CutShort b o
  | bytes {s q : ℕ} : FieldStart b o .bytes s q → b.length < q + s → CutShort b o
  | uint {type : FieldType} {s q : ℕ} : type.uintBytes ≠ none → FieldStart b o type s q →
      b.length < q + s → CutShort b o
  | int32 {s q : ℕ} : FieldStart b o .int32 s q → b.length < q + s → s ≠ 4 →
      (slice b q (q + s)).length ≤ 4 → CutShort b o

section

variable {b : Bytes} {p o s q : ℕ} {type : FieldType}

/-! ## What is in the buffer -/

theorem length_le_of_hasBytes {xs : Bytes} (h : HasBytes b o xs) (ho : o ≤ b.length) :
    o + xs.length ≤ b.length := by
  by_cases hx : xs = []
  · rw [hx]
    exact ho
  · exact h.length_le hx

theorem ControlAt.le_length {c : UInt8} {n : ℕ} (h : ControlAt b o c n q) : q ≤ b.length := by
  cases h with
  | direct hc => exact (List.getElem?_eq_some_iff.mp hc).1
  | extended _ _ hx => exact (List.getElem?_eq_some_iff.mp hx).1

theorem SizeAt.le_length {c : UInt8} (h : SizeAt b c o s q) (ho : o ≤ b.length) :
    q ≤ b.length := by
  cases h with
  | inline => exact ho
  | one _ hx hb => exact hx ▸ length_le_of_hasBytes hb ho
  | two _ hx hb => exact hx ▸ length_le_of_hasBytes hb ho
  | three _ hx hb => exact hx ▸ length_le_of_hasBytes hb ho

theorem FieldStart.le_length (h : FieldStart b o type s q) : q ≤ b.length := by
  cases h with
  | pointer hcontrol => exact hcontrol.le_length
  | sized _ hcontrol hs => exact hs.le_length hcontrol.le_length

theorem PointerAt.le_length {target e : ℕ} (h : PointerAt b p o target e) : e ≤ b.length := by
  have key : ∀ {c : UInt8} {xs : Bytes} {n : ℕ}, HasBytes b o (c :: xs) → xs.length = n →
      o + (n + 1) ≤ b.length := by
    intro c xs n hb hx
    have hle := hb.length_le (List.cons_ne_nil c xs)
    rw [List.length_cons, hx] at hle
    exact hle
  cases h with
  | class0 hb _ _ hx => exact key hb hx
  | class1 hb _ _ hx => exact key hb hx
  | class2 hb _ _ hx => exact key hb hx
  | class3 hb _ _ hx => exact key hb hx

theorem scalarAt_str {x : String} (h : String.fromUTF8? ⟨(slice b q (q + s)).toArray⟩ = some x) :
    ScalarAt b s q .utf8String (some (.str x, q + s)) := by
  have hscalar := ScalarAt.utf8String (b := b) (s := s) (q := q)
  rw [h] at hscalar
  exact hscalar

/-- A field without others that can be read ends in the buffer, unless it is cut short. -/
theorem ScalarAt.le_length {v : Record} {e : ℕ} (h : ScalarAt b s q type (some (v, e)))
    (hstart : FieldStart b o type s q) (hcut : ¬ CutShort b o) : e ≤ b.length := by
  by_contra hlt
  generalize hout : some (v, e) = out at h
  cases h with
  | utf8String =>
    obtain ⟨x, hx, heq⟩ := Option.map_eq_some_iff.mp hout.symm
    cases heq
    exact hcut (.utf8String hstart (by omega) (by rw [hx]; nofun))
  | bytes =>
    cases hout
    exact hcut (.bytes hstart (by omega))
  | uint ht =>
    cases hout
    exact hcut (.uint ht hstart (by omega))
  | int32 _ hfour hle =>
    cases hout
    exact hcut (.int32 hstart (by omega) (fun h4 => hlt (hfour h4)) hle)
  | double _ hle | float _ hle =>
    cases hout
    exact hlt hle
  | badDouble | badFloat => cases hout
  | noInt32 | boolean =>
    cases hout
    exact hlt hstart.le_length

/-- A field that is cut short can be read, and ends behind the buffer. -/
theorem CutShort.scalarAt (h : CutShort b o) : ∃ type s q v e, FieldStart b o type s q ∧
    ScalarAt b s q type (some (v, e)) ∧ b.length < e := by
  cases h with
  | utf8String hstart hlt hx =>
    obtain ⟨x, hx⟩ := Option.ne_none_iff_exists'.mp hx
    exact ⟨_, _, _, _, _, hstart, scalarAt_str hx, hlt⟩
  | bytes hstart hlt => exact ⟨_, _, _, _, _, hstart, .bytes, hlt⟩
  | uint ht hstart hlt => exact ⟨_, _, _, _, _, hstart, .uint ht, hlt⟩
  | int32 hstart hlt h4 hle =>
    have hq := hstart.le_length
    exact ⟨_, _, _, _, _, hstart, .int32 (by omega) (fun h => absurd h h4) hle, hlt⟩

/-! ## What is put behind the buffer -/

variable (post : Bytes)

theorem slice_append {i j : ℕ} (h : j ≤ b.length) : slice (b ++ post) i j = slice b i j := by
  unfold slice
  by_cases hi : i ≤ b.length
  · rw [List.drop_append_of_le_length hi, List.take_append_of_le_length]
    rw [List.length_drop]
    omega
  · rw [Nat.sub_eq_zero_of_le (by omega), List.take_zero, List.take_zero]

theorem getElem?_append {i : ℕ} {x : UInt8} (h : b[i]? = some x) : (b ++ post)[i]? = some x := by
  rw [List.getElem?_append_left (List.getElem?_eq_some_iff.mp h).1, h]

theorem ControlAt.append {c : UInt8} {n : ℕ} (h : ControlAt b o c n q) :
    ControlAt (b ++ post) o c n q := by
  cases h with
  | direct hc h0 => exact .direct (getElem?_append post hc) h0
  | extended hc h0 hx => exact .extended (getElem?_append post hc) h0 (getElem?_append post hx)

theorem SizeAt.append {c : UInt8} (h : SizeAt b c o s q) : SizeAt (b ++ post) c o s q := by
  simpa using h.embed [] post

theorem FieldStart.append (h : FieldStart b o type s q) : FieldStart (b ++ post) o type s q := by
  cases h with
  | pointer hcontrol => exact .pointer (hcontrol.append post)
  | sized hne hcontrol hs => exact .sized hne (hcontrol.append post) (hs.append post)

theorem PointerAt.append {target e : ℕ} (h : PointerAt b p o target e) :
    PointerAt (b ++ post) p o target e := by
  simpa using h.embed [] post

theorem ScalarAt.append {v : Record} {e : ℕ} (h : ScalarAt b s q type (some (v, e)))
    (he : e ≤ b.length) : ScalarAt (b ++ post) s q type (some (v, e)) := by
  generalize hout : some (v, e) = out at h
  cases h with
  | utf8String =>
    obtain ⟨x, hx, heq⟩ := Option.map_eq_some_iff.mp hout.symm
    cases heq
    rw [hx]
    rw [← slice_append post he] at hx
    exact scalarAt_str hx
  | bytes =>
    cases hout
    rw [← slice_append post he]
    exact .bytes
  | uint ht =>
    cases hout
    rw [← slice_append post he]
    exact .uint ht
  | int32 h0 hfour hle =>
    cases hout
    rw [← slice_append post he] at hle ⊢
    exact .int32 h0 (fun h4 => by rw [List.length_append]; have := hfour h4; omega) hle
  | double h8 hle =>
    cases hout
    rw [← slice_append post he]
    exact .double h8 (by rw [List.length_append]; omega)
  | float h4 hle =>
    cases hout
    rw [← slice_append post he]
    exact .float h4 (by rw [List.length_append]; omega)
  | badDouble | badFloat => cases hout
  | noInt32 h0 =>
    cases hout
    exact .noInt32 h0
  | boolean =>
    cases hout
    exact .boolean

theorem readPointer_append (hstart : FieldStart b o .pointer s q) {target e : ℕ}
    (h : (Decoder.ofBytes b p).readPointer s q = .ok (target, e)) :
    (Decoder.ofBytes (b ++ post) p).readPointer s q = .ok (target, e) := by
  obtain ⟨s', q', hstart', hread⟩ := ((pointerAt_of_read hstart h).append post).start
  obtain ⟨-, rfl, rfl⟩ := (hstart.append post).unique hstart'
  exact hread

/-- What is decoded one field behind the other, when each of them is decoded as before. -/
theorem exec_append {f g : DecodeCall} {body : Calling} (hbody : Onward q body)
    (hq : q ≤ b.length) {v : Record} {e : ℕ} (h : body.exec f = .ok (v, e))
    (hcalls : ∀ x ∈ body.calls f, ∀ v e, f x = .ok (v, e) → e ≤ b.length ∧ g x = .ok (v, e)) :
    e ≤ b.length ∧ body.exec g = .ok (v, e) := by
  constructor
  · rcases hbody.end_eq h with rfl | ⟨x, hx, v', hv'⟩
    · exact hq
    · exact (hcalls x hx v' e hv').1
  · have hsame : ∀ x ∈ body.calls f, f x = g x := by
      intro x hx
      obtain ⟨⟨v', e'⟩, hv'⟩ := Body.exists_ok_of_mem h hx
      rw [hv', (hcalls x hx v' e' hv').2]
    rw [← (Body.congr hsame).1]
    exact h

variable {post} in
/-- **What is not cut short does not depend on where the buffer ends.** -/
theorem decode_append (hcut : ∀ x, (Decoder.ofBytes b p).Reaches o x → ¬ CutShort b x)
    {limit e : ℕ} {v : Record} (h : (Decoder.ofBytes b p).decode limit o = .ok (v, e)) :
    e ≤ b.length ∧ (Decoder.ofBytes (b ++ post) p).decode limit o = .ok (v, e) := by
  induction limit generalizing o v e with
  | zero => cases h
  | succ limit ih =>
    rw [Decoder.decode_succ] at h
    obtain ⟨⟨type, s, q⟩, hheader, h⟩ := bind_eq_ok.mp h
    have hstart := start_of_header hheader
    rw [Decoder.decode_succ, header_of_start (hstart.append post), ok_bind]
    have hcalls : ∀ x, (Decoder.ofBytes b p).Calls o x → ∀ v e,
        (Decoder.ofBytes b p).decode limit x = .ok (v, e) →
          e ≤ b.length ∧ (Decoder.ofBytes (b ++ post) p).decode limit x = .ok (v, e) :=
      fun x hx v e hv => ih (fun y hy => hcut y (.head hx hy)) hv
    by_cases hp : type = .pointer
    · subst hp
      obtain ⟨⟨target, e'⟩, hread, h⟩ := bind_eq_ok.mp h
      obtain ⟨x, hx, heq⟩ := bind_eq_ok.mp h
      cases heq
      have hpointer := pointerAt_of_read hstart hread
      obtain ⟨-, hx'⟩ := hcalls target (holds_iff.mp (.target hpointer)) x.1 x.2 hx
      refine ⟨hpointer.le_length, ?_⟩
      refine bind_eq_ok.mpr ⟨_, readPointer_append post hstart hread, ?_⟩
      exact bind_eq_ok.mpr ⟨x, hx', rfl⟩
    · have hbody : ∀ x, x ∈ ((Decoder.ofBytes b p).typeBody type s q).calls
          ((Decoder.ofBytes b p).decode limit) → (Decoder.ofBytes b p).Calls o x := by
        intro x hx
        refine Decoder.calls_iff.mpr ⟨limit, ?_⟩
        rw [Decoder.callsAt, Decoder.fieldBody_of_header hheader]
        exact hx
      by_cases hm : type = .map
      · subst hm
        have hexec := exec_append onward_mapBody hstart.le_length (Decoder.exec_mapBody.trans h)
          fun x hx => hcalls x (hbody x hx)
        exact ⟨hexec.1, Decoder.exec_mapBody.symm.trans hexec.2⟩
      · by_cases ha : type = .array
        · subst ha
          have hexec := exec_append onward_arrayBody hstart.le_length
            (Decoder.exec_arrayBody.trans h) fun x hx => hcalls x (hbody x hx)
          exact ⟨hexec.1, Decoder.exec_arrayBody.symm.trans hexec.2⟩
        · have hscalar := (allows_scalar hp hm ha).mp (allows_some.mpr h)
          have he := hscalar.le_length hstart (hcut o .refl)
          exact ⟨he, allows_some.mp ((allows_scalar hp hm ha).mpr (hscalar.append post he))⟩

end

theorem CutShort.not_wholeAt {b : Bytes} {p o : ℕ} (h : CutShort b o) : ¬ WholeAt b p o := by
  obtain ⟨type, s, q, v, e, hstart, hscalar, hlt⟩ := h.scalarAt
  have hdecode : (Decoder.ofBytes b p).decode 1 o = .ok (v, e) :=
    allows_some.mp ((allows_decode_of_start hstart).mpr (hscalar.allows _))
  intro hwhole
  have hle := (hwhole 1 v e hdecode).1
  omega

/-- **When no value depends on where the buffer ends.** -/
theorem wholeAt_iff (b : Bytes) (p o : ℕ) :
    (∀ limit v e, (Decoder.ofBytes b p).decode limit o = .ok (v, e) →
      ∀ x, (Decoder.ofBytes b p).Reaches o x → WholeAt b p x) ↔
      ∀ v e, Reads b p .field o (some (v, e)) → ∀ x, Meets b p o x → ¬ CutShort b x := by
  constructor
  · intro hwhole v e hreads x hx hcut
    obtain ⟨limit, hdecode⟩ := (eventually_decode_of_reads hreads).exists
    exact hcut.not_wholeAt (hwhole limit v e hdecode x (meets_iff.mp hx))
  · intro hcut limit v e hdecode x hx limit' v' e' h
    have hcut' : ∀ y, (Decoder.ofBytes b p).Reaches x y → ¬ CutShort b y := fun y hy =>
      hcut v e (reads_of_decode_eq_ok hdecode) y (meets_iff.mpr (hx.trans hy))
    have hpost : ∀ post, e' ≤ b.length ∧
        (Decoder.ofBytes (b ++ post) p).decode limit' x = .ok (v', e') := fun _ => decode_append hcut' h
    exact ⟨(hpost []).1, fun post => (hpost post).2⟩

/-- A `uint16` of two bytes, of which the buffer has one: it is read as 1, and as 256 when a zero is put
behind the buffer. -/
theorem not_wholeAt_uint16 : ¬ ∀ (b : Bytes) (p o limit : ℕ) (v : Record) (e : ℕ) (post : Bytes),
    (Decoder.ofBytes b p).decode limit o = .ok (v, e) →
      e ≤ b.length ∧ (Decoder.ofBytes (b ++ post) p).decode limit o = .ok (v, e) := by
  intro h
  have hdecode := h [0xa2, 0x01] 0 0 1 (.int 1) 3 [0x00] rfl
  have hle : 3 ≤ 2 := hdecode.1
  omega

end MaxMindDB
