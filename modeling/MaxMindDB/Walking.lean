import MaxMindDB.Lookup
import MaxMindDB.Packing
import MaxMindDB.Reading

/-!
# What the reader can walk

`NodeAt` is what the reader makes of a record of the search tree, whatever the metadata and the bytes
are, as long as it raises nothing but `InvalidDatabaseError`; `Walks` is the same for the two loops
that go down the tree. Nothing checks `record_size` before a node is read, nor that a node is inside
the file.

`allows_readNode`, `allows_ipv4Walk`, `allows_findLoop`: the reader raises nothing else exactly when
the records can be read. `dataOffset_nonneg`: no record that a lookup resolves gives a negative offset.
-/

namespace MaxMindDB

open Octets Raising Except

/-! ## Records of the search tree -/

/-- The exceptions of Python's own operations on what has been read. -/
def Exc.Plain : Exc → Prop
  | .indexError | .structError | .typeError | .valueError | .overflowError => True
  | _ => False

theorem not_reported {α : Type} {x : Except Exc α} (h : RaisesOnly Exc.Plain x) :
    ¬ Allows Exc.Reported x none := by
  refine h.not_allows fun e he hreported => ?_
  cases e <;> first | exact he | exact hreported

namespace Reader

/-- A record of the search tree can be read: all of its bytes are in the file, or it is reported that
no records have the size the metadata gives, if that is written. -/
inductive NodeAt (r : Reader) (b : Bytes) (node : ℕ) (right : Bool) : Option ℕ → Prop where
  | record {size : RecordSize} : r.metadata.recordSize = .int size.bits →
      node * size.nodeBytes + size.recordEnd right ≤ b.length →
      NodeAt r b node right (some (size.recordOf b node right))
  | unknownSize {size base : PyNum} :
      (∀ known : RecordSize, r.metadata.recordSize.eqInt known.bits = false) →
      r.metadata.nodeByteSize = .ok size → (PyNum.int node).mul size = .ok base →
      r.metadata.recordSize.HasStr → NodeAt r b node right none

/-! Arithmetic on metadata and the unpacking of a node report nothing. -/

theorem raisesOnly_arith {onInt : ℤ → ℤ → ℤ} {onFloat : PyFloat → PyFloat → PyFloat} (x y : PyNum) :
    RaisesOnly Exc.Plain (PyNum.arith onInt onFloat x y) := by
  have htoFloat : ∀ x : PyNum, RaisesOnly Exc.Plain x.toFloat := by
    intro x
    unfold PyNum.toFloat
    split
    · split
      · exact raisesOnly_error trivial
      · exact raisesOnly_ok
    · exact raisesOnly_ok
  have hfloat : ∀ x y : PyNum, RaisesOnly Exc.Plain (do
      return PyNum.float (onFloat (← x.toFloat) (← y.toFloat)) : Except Exc PyNum) :=
    fun x y => (htoFloat x).bind fun _ => (htoFloat y).bind fun _ => raisesOnly_ok
  cases x with
  | float => exact hfloat _ _
  | int i =>
    cases y with
    | float => exact hfloat _ _
    | int j => exact raisesOnly_ok

theorem raisesOnly_asNum (v : Record) : RaisesOnly Exc.Plain v.asNum := by
  unfold Record.asNum
  split
  · exact raisesOnly_ok
  · exact raisesOnly_error trivial

theorem raisesOnly_formatted (v : Record) : RaisesOnly Exc.Plain v.formatted := by
  unfold Record.formatted
  split
  · split_ifs
    · exact raisesOnly_ok
    · exact raisesOnly_error trivial
  · exact raisesOnly_ok

theorem raisesOnly_nodeByteSize (m : Metadata) : RaisesOnly Exc.Plain m.nodeByteSize :=
  (raisesOnly_asNum _).bind fun _ => raisesOnly_ok

theorem raisesOnly_searchTreeSize (m : Metadata) : RaisesOnly Exc.Plain m.searchTreeSize :=
  (raisesOnly_asNum _).bind fun _ => (raisesOnly_nodeByteSize m).bind fun _ => raisesOnly_arith _ _

theorem raisesOnly_sliceAt (r : Reader) (offset : PyNum) (size : ℕ) :
    RaisesOnly Exc.Plain (r.sliceAt offset size) := by
  cases offset with
  | int => exact raisesOnly_ok
  | float => exact raisesOnly_error trivial

theorem raisesOnly_unpack (n : ℕ) (bs : Bytes) : RaisesOnly Exc.Plain (unpack n bs) := by
  unfold unpack
  split_ifs
  · exact raisesOnly_ok
  · exact raisesOnly_error trivial

theorem raisesOnly_unpackSlice (size : RecordSize) (right : Bool) (bs : Bytes) :
    RaisesOnly Exc.Plain (size.unpackSlice right bs) := by
  cases size with
  | bits24 => cases right <;> exact raisesOnly_unpack _ _
  | bits32 => cases right <;> exact raisesOnly_unpack _ _
  | bits28 =>
    cases right with
    | false =>
      unfold RecordSize.unpackSlice
      dsimp only
      cases bs.getLast? with
      | none => exact raisesOnly_error trivial
      | some last => exact raisesOnly_unpack _ _
    | true =>
      cases bs with
      | nil => exact raisesOnly_error trivial
      | cons x bs => exact raisesOnly_unpack _ _

theorem length_of_unpack {n v : ℕ} {bs : Bytes} (h : unpack n bs = .ok v) : bs.length = n :=
  (allows_unpack.mp (allows_some.mpr h)).1

theorem length_of_unpackSlice {size : RecordSize} {right : Bool} {bs : Bytes} {v : ℕ}
    (h : size.unpackSlice right bs = .ok v) :
    bs.length = size.recordEnd right - size.recordStart right := by
  cases size with
  | bits24 => cases right <;> exact Nat.succ_injective (length_of_unpack h)
  | bits32 => cases right <;> exact length_of_unpack h
  | bits28 =>
    cases right with
    | false =>
      unfold RecordSize.unpackSlice at h
      dsimp only at h
      split at h
      · cases h
      · next last hlast =>
        have hne : bs ≠ [] := by
          rintro rfl
          cases hlast
        have hl := length_of_unpack h
        rw [List.length_cons, List.length_dropLast,
          Nat.sub_add_cancel (List.length_pos_iff.mpr hne)] at hl
        exact hl
    | true =>
      cases bs with
      | nil => cases h
      | cons x bs =>
        have hl : ((0x0F &&& x) :: bs).length = 4 := length_of_unpack h
        exact hl

variable {r : Reader} {b : Bytes} {node : ℕ} {right : Bool}

theorem num?_of_asNum {x : Record} {i : PyNum} (h : x.asNum = .ok i) : x.num? = some i := by
  unfold Record.asNum at h
  split at h
  · cases h
    assumption
  · cases h

theorem eq_int_of_num? {x : Record} {known : RecordSize} (h : x.num? = some (.int known.bits)) :
    x = .int known.bits := by
  cases x with
  | int i =>
    cases h
    rfl
  | bool v => cases v <;> cases known <;> exact absurd h (by decide)
  | _ => cases h

/-- The metadata behind a slice of a node: an integer `record_size`, and the bytes it counts. -/
theorem slice_of_sliceAt (hb : r.buffer = .ofBytes b) {size base offset : PyNum} {k n : ℕ}
    {bs : Bytes} (hsize : r.metadata.nodeByteSize = .ok size)
    (hbase : (PyNum.int node).mul size = .ok base) (hoffset : base.add (.int k) = .ok offset)
    (hslice : r.sliceAt offset n = .ok bs) {known : RecordSize}
    (hknown : r.metadata.recordSize.eqInt known.bits) :
    r.metadata.recordSize = .int known.bits ∧
      bs = slice b (node * known.nodeBytes + k) (node * known.nodeBytes + k + n) := by
  cases offset with
  | float => cases hslice
  | int o =>
    obtain ⟨j, k', rfl, hk, rfl⟩ := PyNum.arith_eq_int hoffset
    obtain ⟨node', t, hnode, rfl, rfl⟩ := PyNum.arith_eq_int hbase
    cases hk
    cases hnode
    obtain ⟨x, hx, ht⟩ := bind_eq_ok.mp hsize
    have hnum := num?_of_asNum hx
    unfold Record.eqInt at hknown
    rw [hnum] at hknown
    cases x with
    | float => cases ht
    | int u =>
      cases ht
      dsimp only at hknown
      rw [PyNum.eq_int, decide_eq_true_eq] at hknown
      subst hknown
      refine ⟨eq_int_of_num? hnum, ?_⟩
      rw [RecordSize.bits_div_four] at hslice
      have hnat : ((node : ℤ) * known.nodeBytes + k).toNat = node * known.nodeBytes + k := by
        rw [← Nat.cast_mul, ← Nat.cast_add, Int.toNat_natCast]
      unfold sliceAt at hslice
      rw [hb] at hslice
      cases hslice
      rw [hnat]
      rfl

/-- A slice of `n` bytes from the `k`-th byte of the node on, of full length and up to the end of the
record: the record has all its bytes in the file. -/
theorem fits_of_sliceAt (hb : r.buffer = .ofBytes b) {size base offset : PyNum} {n : ℕ} {bs : Bytes}
    (hsize : r.metadata.nodeByteSize = .ok size) (hbase : (PyNum.int node).mul size = .ok base)
    (known : RecordSize) (hknown : r.metadata.recordSize.eqInt known.bits) (k : ℕ)
    (hoffset : base.add (.int k) = .ok offset)
    (hslice : r.sliceAt offset n = .ok bs) (hl : bs.length = n) (hn : n ≠ 0)
    (hend : k + n = known.recordEnd right) :
    ∃ size : RecordSize, r.metadata.recordSize = .int size.bits ∧
      node * size.nodeBytes + size.recordEnd right ≤ b.length := by
  obtain ⟨hsz, rfl⟩ := slice_of_sliceAt hb hsize hbase hoffset hslice hknown
  refine ⟨known, hsz, ?_⟩
  rw [← hend, ← Nat.add_assoc]
  exact (length_slice_eq hn).mp hl

theorem fits_of_readNode (hb : r.buffer = .ofBytes b) {v : ℕ}
    (h : r.readNode node right.toNat = .ok v) :
    ∃ size : RecordSize, r.metadata.recordSize = .int size.bits ∧
      node * size.nodeBytes + size.recordEnd right ≤ b.length := by
  rcases r.readNode_cases node right with ⟨known, hknown, hread⟩ | ⟨-, hread⟩
  · rw [hread] at h
    obtain ⟨size, hsize, h⟩ := bind_eq_ok.mp h
    obtain ⟨base, hbase, h⟩ := bind_eq_ok.mp h
    obtain ⟨offset, hoffset, h⟩ := bind_eq_ok.mp h
    obtain ⟨bs, hslice, h⟩ := bind_eq_ok.mp h
    have hlt := known.recordStart_lt right
    exact fits_of_sliceAt hb hsize hbase known hknown _ hoffset hslice (length_of_unpackSlice h)
      (by omega) (by omega)
  · rw [hread] at h
    obtain ⟨size, -, h⟩ := bind_eq_ok.mp h
    obtain ⟨base, -, h⟩ := bind_eq_ok.mp h
    obtain ⟨recordSize, -, h⟩ := bind_eq_ok.mp h
    cases h

/-- The metadata of a record that is returned gives a size that is known. -/
theorem known_of_readNode (right : Bool) {v : ℕ} (h : r.readNode node right.toNat = .ok v) :
    ∃ known : RecordSize, r.metadata.recordSize.eqInt known.bits := by
  rcases r.readNode_cases node right with ⟨known, hknown, -⟩ | ⟨-, hread⟩
  · exact ⟨known, hknown⟩
  · rw [hread] at h
    obtain ⟨size, -, h⟩ := bind_eq_ok.mp h
    obtain ⟨base, -, h⟩ := bind_eq_ok.mp h
    obtain ⟨recordSize, -, h⟩ := bind_eq_ok.mp h
    cases h

/-- Then reading a record reports nothing. -/
theorem not_allows_readNode (node : ℕ) (right : Bool) {known : RecordSize}
    (hknown : r.metadata.recordSize.eqInt known.bits) :
    ¬ Allows Exc.Reported (r.readNode node right.toNat) none := by
  rcases r.readNode_cases node right with ⟨known', -, hread⟩ | ⟨hnone, -⟩
  · rw [hread]
    exact not_reported ((raisesOnly_nodeByteSize _).bind fun _ => (raisesOnly_arith _ _).bind fun _ =>
      (raisesOnly_arith _ _).bind fun _ => (raisesOnly_sliceAt _ _ _).bind fun _ =>
        raisesOnly_unpackSlice _ _ _)
  · rw [hnone known] at hknown
    cases hknown

/-- A record can be read exactly when reading it returns, or reports its size. -/
theorem allows_readNode (hb : r.buffer = .ofBytes b) {out : Option ℕ} :
    Allows Exc.Reported (r.readNode node right.toNat) out ↔ NodeAt r b node right out := by
  cases out with
  | some v =>
    rw [allows_some]
    constructor
    · intro h
      obtain ⟨size, hsz, hle⟩ := fits_of_readNode hb h
      obtain rfl := Except.ok.inj ((readNode_of_fits (by rw [hb]; rfl) hsz hle).symm.trans h)
      exact .record hsz hle
    · rintro ⟨hsz, hle⟩
      exact readNode_of_fits (by rw [hb]; rfl) hsz hle
  | none =>
    constructor
    · intro h
      rcases r.readNode_cases node right with ⟨known, hknown, -⟩ | ⟨hnone, hread⟩
      · exact absurd h (not_allows_readNode node right hknown)
      · rw [hread] at h
        rcases allows_bind.mp h with ⟨h, -⟩ | ⟨size, hsize, h⟩
        · exact absurd h (not_reported (raisesOnly_nodeByteSize _))
        rcases allows_bind.mp h with ⟨h, -⟩ | ⟨base, hbase, h⟩
        · exact absurd h (not_reported (raisesOnly_arith _ _))
        rcases allows_bind.mp h with ⟨h, -⟩ | ⟨recordSize, hformatted, -⟩
        · exact absurd h (not_reported (raisesOnly_formatted _))
        exact .unknownSize hnone hsize hbase (Record.hasStr_of_formatted hformatted)
    · rintro ⟨⟩
      rename_i size base hunknown hsize hbase hstr
      rcases r.readNode_cases node right with ⟨known, hknown, -⟩ | ⟨-, hread⟩
      · rw [hunknown known] at hknown
        cases hknown
      · rw [hread, hsize, ok_bind, hbase, ok_bind, Record.formatted_of_hasStr hstr]
        exact .raises trivial

/-! ## Walks -/

/-- The records on the way of some bits, until the loop stops, can be read: the node or record at
which it has arrived, or `none` when a record is reported. -/
inductive Walks (r : Reader) (b : Bytes) (stops : ℕ → Bool) : List Bool → ℕ → Option ℕ → Prop where
  | spent {node : ℕ} : Walks r b stops [] node (some node)
  | stopped {right : Bool} {bits : List Bool} {node : ℕ} : stops node →
      Walks r b stops (right :: bits) node (some node)
  | reported {right : Bool} {bits : List Bool} {node : ℕ} : stops node = false →
      NodeAt r b node right none → Walks r b stops (right :: bits) node none
  | step {right : Bool} {bits : List Bool} {node next : ℕ} {out : Option ℕ} : stops node = false →
      NodeAt r b node right (some next) → Walks r b stops bits next out →
      Walks r b stops (right :: bits) node out

section Walks

variable {stops : ℕ → Bool} {bits : List Bool} {out : Option ℕ}

theorem walks_nil : Walks r b stops [] node out ↔ out = some node := by
  constructor
  · rintro ⟨⟩
    rfl
  · rintro rfl
    exact .spent

theorem walks_of_stops (h : stops node) :
    Walks r b stops (right :: bits) node out ↔ out = some node := by
  constructor
  · rintro ⟨⟩ <;> simp_all
  · rintro rfl
    exact .stopped h

/-- One turn of a loop: the record is read, and the loop goes on with what it holds. -/
theorem walks_turn (hb : r.buffer = .ofBytes b) (h : stops node = false) :
    Walks r b stops (right :: bits) node out ↔
      (Allows Exc.Reported (r.readNode node right.toNat) none ∧ out = none) ∨
        ∃ next, r.readNode node right.toNat = .ok next ∧ Walks r b stops bits next out := by
  rw [allows_readNode hb]
  constructor
  · intro hw
    cases hw with
    | stopped hs => simp [h] at hs
    | reported _ hnode => exact .inl ⟨hnode, rfl⟩
    | step _ hnode hrest =>
      exact .inr ⟨_, allows_some.mp ((allows_readNode hb).mpr hnode), hrest⟩
  · rintro (⟨hnode, rfl⟩ | ⟨next, hnext, hrest⟩)
    · exact .reported h hnode
    · exact .step h ((allows_readNode hb).mp (allows_some.mpr hnext)) hrest

theorem allows_ipv4Walk (hb : r.buffer = .ofBytes b) (nodeCount : PyNum) (k : ℕ) :
    Allows Exc.Reported (r.ipv4Walk nodeCount k node) out ↔
      Walks r b (fun node => nodeCount.le (.int node)) (List.replicate k false) node out := by
  induction k generalizing node with
  | zero => rw [List.replicate_zero, walks_nil]; exact allows_ok
  | succ k ih =>
    rw [List.replicate_succ, ipv4Walk]
    by_cases h : nodeCount.le (.int node)
    · rw [if_pos h, walks_of_stops h]
      exact allows_ok
    · rw [if_neg h, walks_turn hb (Bool.eq_false_iff.mpr h), allows_bind]
      simp only [ih, Bool.toNat_false]

theorem allows_findLoop (hb : r.buffer = .ofBytes b) (a : IPAddress) (nodeCount : PyNum)
    (turns i : ℕ) (h : i + turns = a.version.bits) :
    Allows Exc.Reported ((r.findLoop nodeCount a.packed a.version.bits turns node i).map Prod.fst)
        out ↔
      Walks r b (fun node => !(PyNum.int node).lt nodeCount) (a.toBits.drop i) node out := by
  induction turns generalizing node i with
  | zero =>
    rw [List.drop_eq_nil_of_le (by rw [IPAddress.length_toBits]; omega), walks_nil]
    exact allows_ok
  | succ turns ih =>
    have hi : i < a.version.bits := by omega
    rw [findLoop, drop_toBits a hi]
    by_cases hlt : (PyNum.int node).lt nodeCount
    · have hc : i < a.version.bits ∧ (PyNum.int node).lt nodeCount = true := ⟨hi, hlt⟩
      rw [if_pos hc, packed_bit a hi, walks_turn hb (by simp [hlt]), map_bind, allows_bind]
      simp only [ih (i + 1) (by omega)]
    · have hc : ¬ (i < a.version.bits ∧ (PyNum.int node).lt nodeCount = true) := fun h => hlt h.2
      rw [if_neg hc, walks_of_stops (by simp [hlt])]
      exact allows_ok

end Walks

/-! ## Offsets

A record that a lookup resolves has been read as a record of a known size, from a node that the
metadata counts, so that the offset it gives is not negative. -/

/-- The offset of the field that a record of the search tree points to. -/
def dataOffset (r : Reader) (pointer : ℕ) : Except Exc PyNum := do
  (← (PyNum.int pointer).sub (← r.metadata.nodeCount.asNum)).add (← r.metadata.searchTreeSize)

theorem raisesOnly_dataOffset (r : Reader) (pointer : ℕ) :
    RaisesOnly Exc.Plain (r.dataOffset pointer) :=
  (raisesOnly_asNum _).bind fun _ => (raisesOnly_arith _ _).bind fun _ =>
    (raisesOnly_searchTreeSize _).bind fun _ => raisesOnly_arith _ _

theorem resolveDataPointer_eq (r : Reader) (limit pointer : ℕ) :
    r.resolveDataPointer limit pointer = r.dataOffset pointer >>= fun resolved =>
      if (PyNum.int r.buffer.size).le resolved then .error (.invalidDatabaseError .corruptSearchTree)
      else (r.decodeAt limit resolved).map Prod.fst := by
  unfold resolveDataPointer dataOffset
  simp only [bind_assoc]
  refine bind_congr fun nodeCount => bind_congr fun difference => bind_congr fun size =>
    bind_congr fun resolved => ?_
  split_ifs
  · rfl
  · cases r.decodeAt limit resolved <;> rfl

/-- A record has been read. -/
def HasRead (r : Reader) (nodeCount : PyNum) : Prop :=
  ∃ node index v, r.readNode node index = .ok v ∧
    ((PyNum.int node).lt nodeCount ∨ nodeCount.le (.int node) = false)

theorem hasRead_of_findLoop {nodeCount : PyNum} {packed : Bytes} {bitCount turns i leaf j : ℕ}
    (h : r.findLoop nodeCount packed bitCount turns node i = .ok (leaf, j)) :
    leaf = node ∨ r.HasRead nodeCount := by
  cases turns with
  | zero => cases h; exact .inl rfl
  | succ turns =>
    rw [findLoop] at h
    split_ifs at h with hc
    · obtain ⟨next, hnext, -⟩ := bind_eq_ok.mp h
      exact .inr ⟨_, _, _, hnext, .inl hc.2⟩
    · cases h
      exact .inl rfl

theorem hasRead_of_ipv4Walk {nodeCount : PyNum} {k start : ℕ}
    (h : r.ipv4Walk nodeCount k node = .ok start) : start = node ∨ r.HasRead nodeCount := by
  cases k with
  | zero => cases h; exact .inl rfl
  | succ k =>
    rw [ipv4Walk] at h
    split_ifs at h with hle
    · cases h
      exact .inl rfl
    · obtain ⟨next, hnext, -⟩ := bind_eq_ok.mp h
      exact .inr ⟨_, _, _, hnext, .inr (Bool.eq_false_iff.mpr hle)⟩

theorem nodeByteSize_nonneg {index v : ℕ} (h : r.readNode node index = .ok v) {t : ℤ}
    (ht : r.metadata.nodeByteSize = .ok (.int t)) : 0 ≤ t := by
  obtain ⟨x, hx, hdiv⟩ := bind_eq_ok.mp ht
  cases x with
  | float => cases hdiv
  | int u =>
    cases hdiv
    have hu : ∀ i, r.metadata.recordSize.eqInt i = true → u = i := by
      intro i hi
      unfold Record.asNum at hx
      unfold Record.eqInt at hi
      split at hx
      · rename_i y hy
        cases hx
        simpa [hy] using hi
      · cases hx
    unfold readNode at h
    obtain ⟨size, -, h⟩ := bind_eq_ok.mp h
    obtain ⟨base, -, h⟩ := bind_eq_ok.mp h
    dsimp only at h
    split_ifs at h with h24 h28 h1 h32
    · rw [hu 24 h24]; decide
    · rw [hu 28 h28]; decide
    · rw [hu 28 h28]; decide
    · rw [hu 32 h32]; decide
    · obtain ⟨recordSize, -, h⟩ := bind_eq_ok.mp h
      cases h

/-- A data record gives no negative offset where a record has been read. -/
theorem HasRead.dataOffset_nonneg {nodeCount size : PyNum} (hread : r.HasRead nodeCount)
    (hn : r.metadata.nodeCount.asNum = .ok nodeCount) (hsize : r.metadata.searchTreeSize = .ok size)
    (hbase : size.add (.int dataSectionSeparatorSize) = .ok r.decoderBase) {leaf : ℕ}
    (hlt : nodeCount.lt (.int leaf)) {o : ℤ} (ho : r.dataOffset leaf = .ok (.int o)) :
    0 ≤ o ∧ ∃ base : ℕ, r.decoderBase = .int base := by
  obtain ⟨node, index, v, hnode, hcount⟩ := hread
  unfold dataOffset at ho
  rw [hn, ok_bind] at ho
  obtain ⟨difference, hdifference, ho⟩ := bind_eq_ok.mp ho
  rw [hsize, ok_bind] at ho
  obtain ⟨d, s, rfl, rfl, rfl⟩ := PyNum.arith_eq_int ho
  obtain ⟨l, n, hl, rfl, rfl⟩ := PyNum.arith_eq_int hdifference
  cases hl
  have hbase' : r.decoderBase = .int (s + dataSectionSeparatorSize) := (Except.ok.inj hbase).symm
  unfold Metadata.searchTreeSize at hsize
  rw [hn, ok_bind] at hsize
  obtain ⟨bytes, hbytes, hsize⟩ := bind_eq_ok.mp hsize
  obtain ⟨n', t, hn', rfl, rfl⟩ := PyNum.arith_eq_int hsize
  cases hn'
  have ht := nodeByteSize_nonneg hnode hbytes
  have hpos : 0 ≤ n := by
    simp only [PyNum.lt_int, PyNum.le_int, decide_eq_true_eq, decide_eq_false_iff_not] at hcount
    omega
  have hs : 0 ≤ n * t := mul_nonneg hpos ht
  simp only [PyNum.lt_int, decide_eq_true_eq] at hlt
  refine ⟨by omega, (n * t + dataSectionSeparatorSize).toNat, ?_⟩
  rw [hbase', Int.toNat_of_nonneg (by omega)]

/-- **No lookup decodes at a negative offset.** -/
theorem dataOffset_nonneg {buffer : Buffer} {filename : String} {limit : ℕ}
    (h : new buffer filename limit = .ok r) {nodeCount : PyNum}
    (hn : r.metadata.nodeCount.asNum = .ok nodeCount) {a : IPAddress} {leaf i : ℕ}
    (hloop : r.findLoop nodeCount a.packed a.version.bits a.version.bits
      (r.startNode a.version.bits) 0 = .ok (leaf, i))
    (hlt : nodeCount.lt (.int leaf)) (h0 : leaf ≠ 0) {o : ℤ} (ho : r.dataOffset leaf = .ok (.int o)) :
    0 ≤ o ∧ ∃ base : ℕ, r.decoderBase = .int base := by
  obtain ⟨start, -, hload⟩ := load_of_new h
  obtain ⟨-, ⟨size, hsize, hbase⟩, hstart⟩ := load_cases hload
  have hread : r.HasRead nodeCount := by
    rcases hasRead_of_findLoop hloop with rfl | hread
    · unfold startNode at h0
      split_ifs at h0 with h6
      · rw [if_pos h6.1, hn] at hstart
        obtain ⟨nodeCount, heq, hwalk⟩ := hstart
        cases heq
        rcases hasRead_of_ipv4Walk hwalk with h | h
        · exact absurd h h0
        · exact h
      · exact absurd rfl h0
    · exact hread
  exact hread.dataOffset_nonneg hn hsize hbase hlt ho

end Reader

end MaxMindDB
