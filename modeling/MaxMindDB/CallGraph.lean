import MaxMindDB.Lib.Recursion
import MaxMindDB.Reading

/-!
# The calls of the decoder

`fieldBody o` is what `decode` does at `o`, with its own calls apart: the calls are for the elements
of an array, the keys and values of a map, and the field behind a pointer. `decode_eq_run`: the
decoder is the recursive function of these bodies.

A call that returns ends behind its field (`lt_of_decode`), and a call at an offset behind the buffer
calls nothing. So the calls in progress are no more than the bytes and one, unless one of them is
called again.
-/

namespace MaxMindDB

open Octets Raising Except Recursion

/-- What `decode` does, with its calls apart. -/
abbrev Calling := Body ℕ (Record × ℕ) Exc

/-! ## Bodies -/

namespace Decoder

variable (d : Decoder)

/-- `_decode_array`. -/
def arrayBody : ℕ → ℕ → List Record → Calling
  | 0, offset, array => .ret (.ok (.list array, offset))
  | size + 1, offset, array => .call offset fun v => arrayBody size v.2 (array ++ [v.1])

/-- `_decode_map`. -/
def mapBody : ℕ → ℕ → List (Record × Record) → Calling
  | 0, offset, container => .ret (.ok (.dict container, offset))
  | size + 1, offset, container => .call offset fun k => .call k.2 fun v =>
      if k.1.hashable then mapBody size v.2 (dictSet container k.1 v.1)
      else .ret (.error .typeError)

/-- `_decode_pointer`. -/
def pointerBody (size offset : ℕ) : Calling :=
  match d.readPointer size offset with
  | .error e => .ret (.error e)
  | .ok (pointer, newOffset) =>
    if d.pointerTest then .ret (.ok (.int pointer, newOffset))
    else .call pointer fun v => .ret (.ok (v.1, newOffset))

/-- The decoder function of a type; those of the other types call nothing. -/
def typeBody : FieldType → ℕ → ℕ → Calling
  | .pointer, size, offset => d.pointerBody size offset
  | .map, size, offset => mapBody size offset []
  | .array, size, offset => arrayBody size offset []
  | type, size, offset => .ret (d.decodeType (fun _ => .error .recursionError) type size offset)

/-- `decode`. -/
def fieldBody (offset : ℕ) : Calling :=
  match d.header offset with
  | .error e => .ret (.error e)
  | .ok (type, size, newOffset) => d.typeBody type size newOffset

variable {d : Decoder} {decode : DecodeCall} {size offset : ℕ}

theorem exec_arrayBody {array : List Record} :
    (arrayBody size offset array).exec decode = decodeArray decode size offset array := by
  induction size generalizing offset array with
  | zero => rfl
  | succ size ih =>
    rw [arrayBody, Body.exec, decodeArray_succ]
    congr 1
    funext v
    exact ih

theorem exec_mapBody {container : List (Record × Record)} :
    (mapBody size offset container).exec decode = decodeMap decode size offset container := by
  induction size generalizing offset container with
  | zero => rfl
  | succ size ih =>
    rw [mapBody, Body.exec, decodeMap_succ]
    congr 1
    funext k
    rw [Body.exec]
    congr 1
    funext v
    split_ifs
    · exact ih
    · rfl

theorem exec_pointerBody :
    (d.pointerBody size offset).exec decode = d.decodePointer decode size offset := by
  unfold pointerBody decodePointer
  cases d.readPointer size offset with
  | error e => rfl
  | ok x =>
    cases d.pointerTest with
    | true => rfl
    | false => rfl

theorem exec_typeBody {type : FieldType} :
    (d.typeBody type size offset).exec decode = d.decodeType decode type size offset := by
  cases type with
  | pointer => exact exec_pointerBody
  | map => exact exec_mapBody
  | array => exact exec_arrayBody
  | _ => rfl

theorem fieldBody_of_header {type : FieldType} {newOffset : ℕ}
    (h : d.header offset = .ok (type, size, newOffset)) :
    d.fieldBody offset = d.typeBody type size newOffset := by
  rw [fieldBody, h]

theorem fieldBody_of_error {e : Exc} (h : d.header offset = .error e) :
    d.fieldBody offset = .ret (.error e) := by
  rw [fieldBody, h]

theorem exec_fieldBody : (d.fieldBody offset).exec decode =
    d.header offset >>= fun h => d.decodeType decode h.1 h.2.1 h.2.2 := by
  cases h : d.header offset with
  | error e => rw [fieldBody_of_error h]; rfl
  | ok x => rw [fieldBody_of_header h, exec_typeBody, ok_bind]

/-- **The decoder is the recursive function of its bodies.** -/
theorem decode_eq_run (limit : ℕ) : d.decode limit offset =
    run d.fieldBody .recursionError limit offset := by
  induction limit generalizing offset with
  | zero => rfl
  | succ limit ih =>
    have hcalls : d.decode limit = run d.fieldBody .recursionError limit := funext fun x => ih
    rw [decode_succ, run, exec_fieldBody, hcalls]

theorem decode_of_le {limit limit' : ℕ} {x : Record × ℕ} (h : d.decode limit offset = .ok x)
    (hle : limit ≤ limit') : d.decode limit' offset = .ok x := by
  rw [decode_eq_run] at h ⊢
  have hne : run d.fieldBody .recursionError limit offset ≠ .error .recursionError := by
    rw [h]
    nofun
  rw [run_of_le hne hle, h]

variable (d) in
/-- The offsets at which `decode` is called by its call at an offset, in their order. -/
abbrev callsAt (limit o : ℕ) : List ℕ := (d.fieldBody o).calls (d.decode limit)

/-- The call of `decode` at one offset calls another. -/
abbrev Calls (d : Decoder) : ℕ → ℕ → Prop := Recursion.Calls d.fieldBody .recursionError

/-- A call of `decode` that the one at an offset comes to. -/
abbrev Reaches (d : Decoder) : ℕ → ℕ → Prop := Relation.ReflTransGen d.Calls

theorem calls_iff {x : ℕ} :
    d.Calls offset x ↔ ∃ limit, x ∈ d.callsAt limit offset := by
  refine exists_congr fun limit => ?_
  have hdecode : d.decode limit = run d.fieldBody .recursionError limit :=
    funext fun x => decode_eq_run limit
  rw [callsAt, hdecode]

end Decoder

/-! ## Bodies that go on -/

/-- A body that has come to `o`: it returns there, or calls there, and then goes on from the end of
what it called. -/
inductive Onward : ℕ → Calling → Prop where
  | ret {o : ℕ} {r : Except Exc (Record × ℕ)} : (∀ v e, r = .ok (v, e) → e = o) →
      Onward o (.ret r)
  | call {o : ℕ} {k : Record × ℕ → Calling} : (∀ v, Onward v.2 (k v)) → Onward o (.call o k)

section Onward

variable {o : ℕ} {body : Calling} {decode : DecodeCall}

theorem onward_arrayBody {size : ℕ} {array : List Record} :
    Onward o (Decoder.arrayBody size o array) := by
  induction size generalizing o array with
  | zero =>
    refine .ret fun v e h => ?_
    cases h
    rfl
  | succ size ih => exact .call fun v => ih

theorem onward_mapBody {size : ℕ} {container : List (Record × Record)} :
    Onward o (Decoder.mapBody size o container) := by
  induction size generalizing o container with
  | zero =>
    refine .ret fun v e h => ?_
    cases h
    rfl
  | succ size ih =>
    refine .call fun k => .call fun v => ?_
    split_ifs
    · exact ih
    · exact .ret fun _ _ h => by cases h

/-- When calls end behind where they are made, so does the body. -/
theorem Onward.le_of_exec (h : Onward o body)
    (hdecode : ∀ o v e, decode o = .ok (v, e) → o < e) {v : Record} {e : ℕ}
    (hexec : body.exec decode = .ok (v, e)) : o ≤ e := by
  induction h with
  | ret hr => exact (hr v e hexec).ge
  | @call o k _ ih =>
    obtain ⟨x, hx, hk⟩ := bind_eq_ok.mp hexec
    have hlt := hdecode o x.1 x.2 hx
    have hle := ih x hk
    omega

theorem Onward.end_eq (h : Onward o body) {v : Record} {e : ℕ}
    (hexec : body.exec decode = .ok (v, e)) :
    e = o ∨ ∃ x ∈ body.calls decode, ∃ v', decode x = .ok (v', e) := by
  induction h with
  | ret hr => exact .inl (hr v e hexec)
  | @call o k _ ih =>
    obtain ⟨x, hx, hk⟩ := bind_eq_ok.mp hexec
    rw [Body.calls_call hx]
    rcases ih x hk with rfl | ⟨y, hy, v', hv'⟩
    · exact .inr ⟨o, List.mem_cons_self, x.1, hx⟩
    · exact .inr ⟨y, List.mem_cons_of_mem _ hy, v', hv'⟩

theorem Onward.pairwise_calls (h : Onward o body)
    (hdecode : ∀ o v e, decode o = .ok (v, e) → o < e) :
    (∀ x ∈ body.calls decode, o ≤ x) ∧ (body.calls decode).Pairwise (· < ·) := by
  induction h with
  | ret hr => exact ⟨fun _ hx => absurd hx List.not_mem_nil, List.Pairwise.nil⟩
  | @call o k _ ih =>
    cases hx : decode o with
    | error e =>
      rw [Body.calls_call_error hx]
      refine ⟨fun x hx => ?_, List.pairwise_singleton _ _⟩
      rw [List.mem_singleton.mp hx]
    | ok x =>
      have hlt := hdecode o x.1 x.2 hx
      obtain ⟨hle, hpair⟩ := ih x
      rw [Body.calls_call hx]
      constructor
      · intro y hy
        rcases List.mem_cons.mp hy with rfl | hy
        · exact le_rfl
        · have := hle y hy
          omega
      · refine List.pairwise_cons.mpr ⟨fun y hy => ?_, hpair⟩
        have := hle y hy
        omega

end Onward

/-! ## What a call returns and raises -/

section

variable {b : Bytes} {p o s q : ℕ} {type : FieldType}

theorem SizeAt.le {c : UInt8} (h : SizeAt b c o s q) : o ≤ q := by
  cases h <;> omega

theorem ControlAt.lt {c : UInt8} {n : ℕ} (h : ControlAt b o c n q) : o < q := by
  cases h <;> omega

theorem FieldStart.lt (h : FieldStart b o type s q) : o < q := by
  cases h with
  | pointer hcontrol => exact hcontrol.lt
  | sized _ hcontrol hs => exact hcontrol.lt.trans_le hs.le

theorem FieldStart.lt_length (h : FieldStart b o type s q) : o < b.length := by
  cases h with
  | pointer hcontrol => exact (List.getElem?_eq_some_iff.mp hcontrol.getElem?).1
  | sized _ hcontrol _ => exact (List.getElem?_eq_some_iff.mp hcontrol.getElem?).1

theorem PointerAt.lt {target e : ℕ} (h : PointerAt b p o target e) : o < e := by
  cases h <;> omega

theorem ScalarAt.le {v : Record} {e : ℕ} (h : ScalarAt b s q type (some (v, e))) : q ≤ e := by
  generalize hout : some (v, e) = out at h
  cases h with
  | utf8String =>
    obtain ⟨x, -, heq⟩ := Option.map_eq_some_iff.mp hout.symm
    cases heq
    exact Nat.le_add_right q s
  | _ => cases hout <;> omega

/-- **A call that returns ends behind its field.** -/
theorem lt_of_decode {limit e : ℕ} {v : Record}
    (h : (Decoder.ofBytes b p).decode limit o = .ok (v, e)) : o < e := by
  induction limit generalizing o v e with
  | zero => cases h
  | succ limit ih =>
    rw [Decoder.decode_succ] at h
    obtain ⟨⟨type, s, q⟩, hheader, h⟩ := bind_eq_ok.mp h
    have hstart := start_of_header hheader
    have hlt := hstart.lt
    have hdecode : ∀ o v e, (Decoder.ofBytes b p).decode limit o = .ok (v, e) → o < e :=
      fun _ _ _ => ih
    by_cases hp : type = .pointer
    · subst hp
      obtain ⟨⟨target, e'⟩, hread, h⟩ := bind_eq_ok.mp h
      obtain ⟨x, -, heq⟩ := bind_eq_ok.mp h
      cases heq
      exact (pointerAt_of_read hstart hread).lt
    · by_cases hm : type = .map
      · subst hm
        have hexec := Decoder.exec_mapBody.trans h
        exact hlt.trans_le (onward_mapBody.le_of_exec hdecode hexec)
      · by_cases ha : type = .array
        · subst ha
          have hexec := Decoder.exec_arrayBody.trans h
          exact hlt.trans_le (onward_arrayBody.le_of_exec hdecode hexec)
        · have hscalar := (allows_scalar hp hm ha).mp (allows_some.mpr h)
          exact hlt.trans_le hscalar.le

/-! What neither the bytes nor their decoding raise: the bound on the calls in progress is the only source of
`RecursionError`. -/

def Exc.Foreign : Exc → Prop
  | .recursionError | .negativeOffset => True
  | _ => False

section Foreign

variable {e : Exc} (he : e.Foreign)
include he

theorem unpack_ne_error {n : ℕ} {bs : Bytes} : unpack n bs ≠ .error e := by
  unfold unpack
  split_ifs
  · nofun
  · rintro ⟨⟩
    exact he

theorem getItem_ne_error {i : ℕ} : bytesGetItem b i ≠ .error e := by
  unfold bytesGetItem
  split
  · nofun
  · rintro ⟨⟩
    exact he

theorem sizeFromCtrlByte_ne_error {c : UInt8} {n : ℕ} :
    (Decoder.ofBytes b p).sizeFromCtrlByte c o n ≠ .error e := by
  unfold Decoder.sizeFromCtrlByte
  dsimp only
  split_ifs
  · nofun
  · exact bind_ne_error (getItem_ne_error he) fun _ => by nofun
  · exact bind_ne_error (unpack_ne_error he) fun _ => by nofun
  · exact bind_ne_error (unpack_ne_error he) fun _ => by nofun

theorem header_ne_error : (Decoder.ofBytes b p).header o ≠ .error e := by
  have hreported : ∀ {α : Type} (fault : Fault),
      (.error (.invalidDatabaseError fault) : Except Exc α) ≠ .error e := by
    rintro α fault ⟨⟩
    exact he
  have hextended : ∀ i, (Decoder.ofBytes b p).readExtended i ≠ .error e := fun i =>
    bind_ne_error (getItem_ne_error he) fun x => by
      dsimp only
      split_ifs
      · exact hreported _
      · nofun
  refine bind_ne_error (getItem_ne_error he) fun c => ?_
  dsimp only
  split_ifs
  · refine bind_ne_error (hextended _) fun x => ?_
    split
    · exact hreported _
    · exact bind_ne_error (sizeFromCtrlByte_ne_error he) fun _ => by nofun
  · rw [pure_eq_ok, ok_bind]
    dsimp only
    split
    · exact hreported _
    · exact bind_ne_error (sizeFromCtrlByte_ne_error he) fun _ => by nofun

theorem readPointer_ne_error : (Decoder.ofBytes b p).readPointer s q ≠ .error e := by
  unfold Decoder.readPointer
  dsimp only
  split_ifs <;> exact bind_ne_error (unpack_ne_error he) fun _ => by nofun

omit he in
theorem avoids_arrayBody {array : List Record} : (Decoder.arrayBody s q array).Avoids e := by
  induction s generalizing q array with
  | zero => nofun
  | succ s ih => exact fun v => ih

theorem avoids_mapBody {container : List (Record × Record)} :
    (Decoder.mapBody s q container).Avoids e := by
  induction s generalizing q container with
  | zero => nofun
  | succ s ih =>
    intro k v
    split_ifs
    · exact ih
    · rintro ⟨⟩
      exact he

theorem avoids_typeBody : ((Decoder.ofBytes b p).typeBody type s q).Avoids e := by
  have hverify : ∀ k, Decoder.verifySize s k ≠ .error e := fun k => by
    unfold Decoder.verifySize
    split_ifs
    · rintro ⟨⟩
      exact he
    · nofun
  cases type with
  | pointer =>
    show ((Decoder.ofBytes b p).pointerBody s q).Avoids e
    unfold Decoder.pointerBody
    split
    · next e' h =>
      rintro ⟨⟩
      exact readPointer_ne_error he h
    · exact fun v => by nofun
  | map => exact avoids_mapBody he
  | array => exact avoids_arrayBody
  | utf8String =>
    refine bind_ne_error ?_ fun _ => by nofun
    unfold decodeUtf8
    split
    · nofun
    · rintro ⟨⟩
      exact he
  | double =>
    exact bind_ne_error (hverify 8) fun _ => bind_ne_error (unpack_ne_error he) fun _ => by nofun
  | float =>
    exact bind_ne_error (hverify 4) fun _ => bind_ne_error (unpack_ne_error he) fun _ => by nofun
  | int32 =>
    show (Decoder.ofBytes b p).decodeInt32 s q ≠ .error e
    unfold Decoder.decodeInt32
    split_ifs
    · nofun
    · exact bind_ne_error (unpack_ne_error he) fun _ => by nofun
    · exact bind_ne_error (unpack_ne_error he) fun _ => by nofun
  | _ => nofun

theorem avoids_fieldBody (o : ℕ) : ((Decoder.ofBytes b p).fieldBody o).Avoids e := by
  cases h : (Decoder.ofBytes b p).header o with
  | error e' =>
    rw [Decoder.fieldBody_of_error h]
    rintro ⟨⟩
    exact header_ne_error he h
  | ok x =>
    rw [Decoder.fieldBody_of_header h]
    exact avoids_typeBody he

theorem decode_ne_error (hne : e ≠ .recursionError) (limit : ℕ) :
    (Decoder.ofBytes b p).decode limit o ≠ .error e := by
  rw [Decoder.decode_eq_run]
  exact run_ne_error (avoids_fieldBody he) hne

end Foreign

/-! ## Calls in progress -/

theorem start_of_calls {x : ℕ} (h : (Decoder.ofBytes b p).Calls o x) :
    ∃ type s q, FieldStart b o type s q := by
  obtain ⟨limit, hx⟩ := h
  cases hheader : (Decoder.ofBytes b p).header o with
  | error e =>
    rw [Decoder.fieldBody_of_error hheader] at hx
    cases hx
  | ok x => exact ⟨x.1, x.2.1, x.2.2, start_of_header hheader⟩

theorem mem_range_of_calls (o x : ℕ) (h : (Decoder.ofBytes b p).Calls o x) :
    o ∈ Finset.range b.length := by
  obtain ⟨type, s, q, hstart⟩ := start_of_calls h
  exact Finset.mem_range.mpr hstart.lt_length

theorem lt_length_of_decode {limit e : ℕ} {v : Record}
    (h : (Decoder.ofBytes b p).decode limit o = .ok (v, e)) : o < b.length := by
  cases limit with
  | zero => cases h
  | succ limit =>
    obtain ⟨⟨type, s, q⟩, hheader, -⟩ := bind_eq_ok.mp h
    exact (start_of_header hheader).lt_length

theorem pairwise_calls (hstart : FieldStart b o type s q) (ht : type = .array ∨ type = .map)
    (limit : ℕ) : ((Decoder.ofBytes b p).callsAt limit o).Pairwise (· < ·) := by
  have hdecode : ∀ o v e, (Decoder.ofBytes b p).decode limit o = .ok (v, e) → o < e :=
    fun _ _ _ => lt_of_decode
  rw [Decoder.callsAt, Decoder.fieldBody_of_header (header_of_start hstart)]
  rcases ht with rfl | rfl
  · exact (onward_arrayBody.pairwise_calls hdecode).2
  · exact (onward_mapBody.pairwise_calls hdecode).2

theorem lt_length_of_mem_dropLast {limit x : ℕ}
    (hx : x ∈ ((Decoder.ofBytes b p).callsAt limit o).dropLast) : x < b.length := by
  obtain ⟨⟨v, e⟩, h⟩ := Body.exists_ok_of_mem_dropLast hx
  exact lt_length_of_decode h

/-- However large the size a container announces, it has no more calls than the buffer has bytes,
and one. -/
theorem length_calls_le (hstart : FieldStart b o type s q) (ht : type = .array ∨ type = .map)
    (limit : ℕ) : ((Decoder.ofBytes b p).callsAt limit o).length ≤ b.length + 1 := by
  have hpair := pairwise_calls (p := p) hstart ht limit
  have hnodup := (hpair.imp fun h => h.ne).sublist (List.dropLast_sublist _)
  have hsub : ((Decoder.ofBytes b p).callsAt limit o).dropLast.toFinset ⊆ Finset.range b.length :=
    fun x hx => Finset.mem_range.mpr (lt_length_of_mem_dropLast (List.mem_toFinset.mp hx))
  have hcard := Finset.card_le_card hsub
  rw [List.toFinset_card_of_nodup hnodup, List.length_dropLast, Finset.card_range] at hcard
  omega

end

/-- **How the decoder can fail to return or raise.** It calls `decode` without end exactly when it comes
to an offset whose own call is in progress. Otherwise its outcome and its calls are those it has with
any bound above the length of the buffer, and no more calls than that bound are ever in progress. A
call that returns ends behind its field; the calls for the elements of an array or a map are made one
behind the other, and but for the last of them in the buffer. -/
theorem decode_terminates (b : Bytes) (p o : ℕ) :
    ((∀ limit, (Decoder.ofBytes b p).decode limit o = .error .recursionError) ↔
      Reenters (Decoder.ofBytes b p).fieldBody .recursionError o) ∧
    (¬ Reenters (Decoder.ofBytes b p).fieldBody .recursionError o →
      (∃ r offsets, r ≠ .error .recursionError ∧ ∀ limit, b.length < limit →
        (Decoder.ofBytes b p).decode limit o = r ∧
          trace (Decoder.ofBytes b p).fieldBody .recursionError limit o = offsets) ∧
      ∀ offsets, List.IsChain (Decoder.ofBytes b p).Calls (o :: offsets) →
        (o :: offsets).length ≤ b.length + 1) ∧
    (∀ o' limit v e, (Decoder.ofBytes b p).decode limit o' = .ok (v, e) → o' < e) ∧
    ∀ o' type s q limit, FieldStart b o' type s q → type = .array ∨ type = .map →
      ((Decoder.ofBytes b p).callsAt limit o').Pairwise (· < ·) ∧
      (∀ x ∈ ((Decoder.ofBytes b p).callsAt limit o').dropLast, x < b.length) ∧
      ((Decoder.ofBytes b p).callsAt limit o').length ≤ b.length + 1 := by
  refine ⟨?_, fun hr => ⟨?_, fun offsets hchain => ?_⟩, fun o' limit v e => lt_of_decode, ?_⟩
  · simp only [Decoder.decode_eq_run]
    exact spent_forever_iff (avoids_fieldBody trivial) mem_range_of_calls
  · have hne : run (Decoder.ofBytes b p).fieldBody .recursionError (b.length + 1) o ≠
        .error .recursionError := by
      refine run_of_not_reenters (avoids_fieldBody trivial) mem_range_of_calls hr ?_
      rw [Finset.card_range]
      exact Nat.lt_succ_self _
    refine ⟨_, _, hne, fun limit hlimit => ⟨?_, trace_of_le hne hlimit⟩⟩
    rw [Decoder.decode_eq_run]
    exact run_of_le hne hlimit
  · have hlen := length_le_of_isChain mem_range_of_calls hchain hr
    rw [Finset.card_range] at hlen
    rw [List.length_cons]
    omega
  · intro o' type s q limit hstart ht
    exact ⟨pairwise_calls hstart ht limit, fun x => lt_length_of_mem_dropLast,
      length_calls_le hstart ht limit⟩

end MaxMindDB
