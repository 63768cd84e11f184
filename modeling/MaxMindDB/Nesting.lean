import MaxMindDB.CallGraph

/-!
# Fields inside fields

`Holds b p o x` says, on the bytes alone, that the field at `o` holds the field at `x`: an element of an
array, a key or a value of a map, or what a pointer points to, as far as the fields before it can be
read. `holds_iff`: these are the fields that the decoder decodes for the one at `o`.
-/

namespace MaxMindDB

open Octets Raising Except Recursion

/-- The two fields of an item of a map. -/
inductive Role where
  | key
  | value
  deriving DecidableEq

/-- One of `size` elements from an offset on begins at another. -/
inductive ElementFrom (b : Bytes) (p : ℕ) : ℕ → ℕ → ℕ → Prop where
  | first {size o : ℕ} : ElementFrom b p (size + 1) o o
  | later {size o m x : ℕ} {v : Record} : Reads b p .field o (some (v, m)) →
      ElementFrom b p size m x → ElementFrom b p (size + 1) o x

/-- The key or the value of one of `size` items from an offset on begins at another. -/
inductive ItemFrom (b : Bytes) (p : ℕ) : ℕ → ℕ → Role → ℕ → Prop where
  | key {size o : ℕ} : ItemFrom b p (size + 1) o .key o
  | value {size o m : ℕ} {k : Record} : Reads b p .field o (some (k, m)) →
      ItemFrom b p (size + 1) o .value m
  | later {size o m m' x : ℕ} {k v : Record} {role : Role} : Reads b p .field o (some (k, m)) →
      Reads b p .field m (some (v, m')) → k.hashable → ItemFrom b p size m' role x →
      ItemFrom b p (size + 1) o role x

/-- The field at `o` holds the one at an offset. -/
inductive Holds (b : Bytes) (p o : ℕ) : ℕ → Prop where
  | element {s q x : ℕ} : FieldStart b o .array s q → ElementFrom b p s q x → Holds b p o x
  | item {s q x : ℕ} {role : Role} : FieldStart b o .map s q → ItemFrom b p s q role x →
      Holds b p o x
  | target {x e : ℕ} : PointerAt b p o x e → Holds b p o x

/-- The field at an offset, one that it holds, one that this holds, and so on. -/
abbrev Meets (b : Bytes) (p : ℕ) : ℕ → ℕ → Prop := Relation.ReflTransGen (Holds b p)

section

variable {b : Bytes} {p o x s q : ℕ}

theorem FieldStart.unique {type type' : FieldType} {s' q' : ℕ} (h : FieldStart b o type s q)
    (h' : FieldStart b o type' s' q') : type = type' ∧ s = s' ∧ q = q' := by
  have heq := (header_of_start (p := 0) h).symm.trans (header_of_start h')
  cases heq
  exact ⟨rfl, rfl, rfl⟩

theorem PointerAt.start {target e : ℕ} (h : PointerAt b p o target e) :
    ∃ s q, FieldStart b o .pointer s q ∧ (Decoder.ofBytes b p).readPointer s q = .ok (target, e) := by
  obtain ⟨c, hheader, hread⟩ := h.read
  exact ⟨_, _, start_of_header hheader, hread⟩

theorem PointerAt.unique {target e target' e' : ℕ} (h : PointerAt b p o target e)
    (h' : PointerAt b p o target' e') : target = target' := by
  obtain ⟨s, q, hstart, hread⟩ := h.start
  obtain ⟨s', q', hstart', hread'⟩ := h'.start
  obtain ⟨-, rfl, rfl⟩ := hstart.unique hstart'
  rw [hread] at hread'
  cases hread'
  rfl

theorem reads_of_decode_eq_ok {limit e : ℕ} {v : Record}
    (h : (Decoder.ofBytes b p).decode limit o = .ok (v, e)) : Reads b p .field o (some (v, e)) :=
  reads_of_decode (allows_some.mpr h)

theorem eventually_decode_of_reads {e : ℕ} {v : Record} (h : Reads b p .field o (some (v, e))) :
    ∀ᶠ limit in Filter.atTop, (Decoder.ofBytes b p).decode limit o = .ok (v, e) := by
  filter_upwards [eventually_of_reads h] with limit hlimit
  exact allows_some.mp hlimit

theorem reads_unique {v v' : Record} {e e' : ℕ} (h : Reads b p .field o (some (v, e)))
    (h' : Reads b p .field o (some (v', e'))) : v = v' ∧ e = e' := by
  obtain ⟨limit, hv, hv'⟩ :=
    ((eventually_decode_of_reads h).and (eventually_decode_of_reads h')).exists
  rw [hv] at hv'
  cases hv'
  exact ⟨rfl, rfl⟩

theorem mem_calls_of_elementFrom {array : List Record} (h : ElementFrom b p s q x) :
    ∀ᶠ limit in Filter.atTop,
      x ∈ (Decoder.arrayBody s q array).calls ((Decoder.ofBytes b p).decode limit) := by
  induction h generalizing array with
  | first => exact Filter.Eventually.of_forall fun limit => Body.mem_calls_call.mpr (.inl rfl)
  | later hv _ ih =>
    filter_upwards [eventually_decode_of_reads hv, ih] with limit hdecode hmem
    exact Body.mem_calls_call.mpr (.inr ⟨_, hdecode, hmem⟩)

theorem elementFrom_of_mem_calls {limit : ℕ} {array : List Record}
    (h : x ∈ (Decoder.arrayBody s q array).calls ((Decoder.ofBytes b p).decode limit)) :
    ElementFrom b p s q x := by
  induction s generalizing q array with
  | zero => cases h
  | succ s ih =>
    rcases Body.mem_calls_call.mp h with rfl | ⟨v, hv, h⟩
    · exact .first
    · exact .later (reads_of_decode_eq_ok hv) (ih h)

theorem mem_calls_of_itemFrom {role : Role} {container : List (Record × Record)}
    (h : ItemFrom b p s q role x) :
    ∀ᶠ limit in Filter.atTop,
      x ∈ (Decoder.mapBody s q container).calls ((Decoder.ofBytes b p).decode limit) := by
  induction h generalizing container with
  | key => exact Filter.Eventually.of_forall fun limit => Body.mem_calls_call.mpr (.inl rfl)
  | value hk =>
    filter_upwards [eventually_decode_of_reads hk] with limit hdecode
    exact Body.mem_calls_call.mpr (.inr ⟨_, hdecode, Body.mem_calls_call.mpr (.inl rfl)⟩)
  | later hk hv hh _ ih =>
    filter_upwards [eventually_decode_of_reads hk, eventually_decode_of_reads hv, ih] with
      limit hkey hvalue hmem
    refine Body.mem_calls_call.mpr (.inr ⟨_, hkey, Body.mem_calls_call.mpr (.inr ⟨_, hvalue, ?_⟩)⟩)
    dsimp only
    rw [if_pos hh]
    exact hmem

theorem itemFrom_of_mem_calls {limit : ℕ} {container : List (Record × Record)}
    (h : x ∈ (Decoder.mapBody s q container).calls ((Decoder.ofBytes b p).decode limit)) :
    ∃ role, ItemFrom b p s q role x := by
  induction s generalizing q container with
  | zero => cases h
  | succ s ih =>
    rcases Body.mem_calls_call.mp h with rfl | ⟨k, hk, h⟩
    · exact ⟨_, .key⟩
    rcases Body.mem_calls_call.mp h with rfl | ⟨v, hv, h⟩
    · exact ⟨_, .value (reads_of_decode_eq_ok hk)⟩
    split_ifs at h with hh
    · obtain ⟨role, hx⟩ := ih h
      exact ⟨role, .later (reads_of_decode_eq_ok hk) (reads_of_decode_eq_ok hv) hh hx⟩
    · cases h

theorem Decoder.calls_of_eventually {d : Decoder} {type : FieldType}
    (hheader : d.header o = .ok (type, s, q))
    (h : ∀ᶠ limit in Filter.atTop, x ∈ (d.typeBody type s q).calls (d.decode limit)) :
    d.Calls o x := by
  obtain ⟨limit, hmem⟩ := h.exists
  exact Decoder.calls_iff.mpr ⟨limit, by
    rw [Decoder.callsAt, Decoder.fieldBody_of_header hheader]
    exact hmem⟩

/-- **The decoder decodes, for a field, the fields that it holds.** -/
theorem holds_iff : Holds b p o x ↔ (Decoder.ofBytes b p).Calls o x := by
  constructor
  · intro h
    cases h with
    | element hstart hx =>
      exact Decoder.calls_of_eventually (header_of_start hstart) (mem_calls_of_elementFrom hx)
    | item hstart hx =>
      exact Decoder.calls_of_eventually (header_of_start hstart) (mem_calls_of_itemFrom hx)
    | target hp =>
      obtain ⟨c, hheader, hread⟩ := hp.read
      refine Decoder.calls_of_eventually hheader (Filter.Eventually.of_forall fun limit => ?_)
      show x ∈ ((Decoder.ofBytes b p).pointerBody _ _).calls _
      rw [Decoder.pointerBody, hread]
      exact Body.mem_calls_call.mpr (.inl rfl)
  · intro h
    obtain ⟨limit, hx⟩ := Decoder.calls_iff.mp h
    obtain ⟨type, s, q, hstart⟩ := start_of_calls h
    rw [Decoder.callsAt, Decoder.fieldBody_of_header (header_of_start hstart)] at hx
    cases type with
    | array => exact .element hstart (elementFrom_of_mem_calls hx)
    | map =>
      obtain ⟨role, hitem⟩ := itemFrom_of_mem_calls hx
      exact .item hstart hitem
    | pointer =>
      replace hx : x ∈ ((Decoder.ofBytes b p).pointerBody s q).calls _ := hx
      unfold Decoder.pointerBody at hx
      split at hx
      · cases hx
      · next target e hread =>
        rcases Body.mem_calls_call.mp hx with rfl | ⟨v, -, hv⟩
        · exact .target (pointerAt_of_read hstart hread)
        · cases hv
    | _ => cases hx

theorem meets_iff : Meets b p o x ↔ (Decoder.ofBytes b p).Reaches o x := by
  have h : Holds b p = (Decoder.ofBytes b p).Calls := by
    funext o x
    exact propext holds_iff
  unfold Meets Decoder.Reaches
  rw [h]

theorem exists_decode_of_reaches (hx : (Decoder.ofBytes b p).Reaches o x) {limit e : ℕ} {v : Record}
    (h : (Decoder.ofBytes b p).decode limit o = .ok (v, e)) :
    ∃ limit' v' e', (Decoder.ofBytes b p).decode limit' x = .ok (v', e') := by
  rw [Decoder.decode_eq_run] at h
  obtain ⟨limit', ⟨v', e'⟩, h'⟩ := exists_ok_of_reflTransGen hx h
  exact ⟨limit', v', e', by rw [Decoder.decode_eq_run]; exact h'⟩

end

end MaxMindDB
