import MaxMindDB.Reader

/-!
# Packed nodes

The search tree of a database is a list of nodes, each a pair of records of 24, 28 or 32 bits. The
records of a node stand one after the other, most significant byte first; with 28 bits, the byte
in the middle holds the four high bits of the left record and then those of the right one.

`readNode_eq_unpackSlice`: a read takes one slice of the buffer. `readNode_of_fits`: a record is read
from its bytes. `readNode_packed`: reading a node undoes packing it.
-/

namespace MaxMindDB

open Octets

/-- The sizes of a record. -/
inductive RecordSize where
  | bits24
  | bits28
  | bits32
  deriving DecidableEq

namespace RecordSize

/-- The bits of a record. -/
def bits : RecordSize → ℕ
  | bits24 => 24
  | bits28 => 28
  | bits32 => 32

/-- The bytes of a node. -/
def nodeBytes : RecordSize → ℕ
  | bits24 => 6
  | bits28 => 7
  | bits32 => 8

theorem bits_div_four (size : RecordSize) : (size.bits : ℤ) / 4 = size.nodeBytes := by
  cases size <;> rfl

end RecordSize

/-- A record of a node. -/
def side (node : ℕ × ℕ) (right : Bool) : ℕ := if right then node.2 else node.1

/-- The bytes of a node. -/
def packNode : RecordSize → ℕ × ℕ → Bytes
  | .bits24, (left, right) => beBytes 3 left ++ beBytes 3 right
  | .bits28, (left, right) =>
    beBytes 3 left ++ (UInt8.ofNat (left / 2 ^ 24 * 16 + right / 2 ^ 24) :: beBytes 3 right)
  | .bits32, (left, right) => beBytes 4 left ++ beBytes 4 right

/-- The bytes of a search tree. -/
def packNodes (size : RecordSize) (nodes : List (ℕ × ℕ)) : Bytes := nodes.flatMap (packNode size)

theorem length_packNode (size : RecordSize) (node : ℕ × ℕ) :
    (packNode size node).length = size.nodeBytes := by
  cases size <;> simp [packNode, RecordSize.nodeBytes]

theorem length_packNodes (size : RecordSize) (nodes : List (ℕ × ℕ)) :
    (packNodes size nodes).length = nodes.length * size.nodeBytes := by
  unfold packNodes
  induction nodes with
  | nil => simp
  | cons node nodes ih =>
    rw [List.flatMap_cons, List.length_append, ih, length_packNode, List.length_cons, Nat.succ_mul,
      Nat.add_comm]

theorem hasBytes_packNodes {size : RecordSize} {nodes : List (ℕ × ℕ)} {i : ℕ}
    (hi : i < nodes.length) (rest : Bytes) :
    HasBytes (packNodes size nodes ++ rest) (i * size.nodeBytes) (packNode size nodes[i]) := by
  have hsplit : packNodes size nodes ++ rest = packNodes size (nodes.take i) ++
      packNode size nodes[i] ++ (packNodes size (nodes.drop (i + 1)) ++ rest) := by
    have h : nodes = nodes.take i ++ nodes[i] :: nodes.drop (i + 1) := by
      rw [← List.drop_eq_getElem_cons hi, List.take_append_drop]
    conv_lhs => rw [h]
    simp only [packNodes, List.flatMap_append, List.flatMap_cons, List.append_assoc]
  have hlen : (packNodes size (nodes.take i)).length = i * size.nodeBytes := by
    rw [length_packNodes, List.length_take, Nat.min_eq_left (by omega)]
  rw [hsplit, ← hlen]
  exact hasBytes_append _ _ _

/-! ## The middle byte -/

theorem high_nibble {x y : ℕ} (hx : x < 16) (hy : y < 16) :
    ((0xF0 &&& UInt8.ofNat (x * 16 + y)) >>> 4).toNat = x := by
  have key : ∀ x y : Fin 16, ((0xF0 &&& UInt8.ofNat (x * 16 + y)) >>> 4).toNat = x := by decide
  exact key ⟨x, hx⟩ ⟨y, hy⟩

theorem low_nibble {x y : ℕ} (hx : x < 16) (hy : y < 16) :
    (0x0F &&& UInt8.ofNat (x * 16 + y)).toNat = y := by
  have key : ∀ x y : Fin 16, (0x0F &&& UInt8.ofNat (x * 16 + y)).toNat = y := by decide
  exact key ⟨x, hx⟩ ⟨y, hy⟩

/-- A nibble and three bytes spell a record of 28 bits. -/
theorem beNat_nibble {x : UInt8} {n : ℕ} (hx : x.toNat = n / 2 ^ 24) :
    beNat (x :: beBytes 3 n) = n := by
  have h : 256 ^ (beBytes 3 n).length = 2 ^ 24 := by rw [length_beBytes]; norm_num
  rw [beNat_cons, h, beNat_beBytes_mod, hx, show 256 ^ 3 = 2 ^ 24 by norm_num]
  exact Nat.div_add_mod' n (2 ^ 24)

/-- A node of 28-bit records, and what its middle byte holds. -/
theorem exists_middle {left right : ℕ} (hl : left < 2 ^ 28) (hr : right < 2 ^ 28) :
    ∃ middle : UInt8, packNode .bits28 (left, right) =
        beBytes 3 left ++ (middle :: beBytes 3 right) ∧
      ((0xF0 &&& middle) >>> 4).toNat = left / 2 ^ 24 ∧
      (0x0F &&& middle).toNat = right / 2 ^ 24 :=
  ⟨_, rfl, high_nibble (by omega) (by omega), low_nibble (by omega) (by omega)⟩

/-! ## Records -/

namespace RecordSize

/-- The first byte of a record in the bytes of its node. -/
def recordStart : RecordSize → Bool → ℕ
  | _, false => 0
  | bits32, true => 4
  | _, true => 3

/-- The bytes of a node up to the end of one of its records. -/
def recordEnd (size : RecordSize) (right : Bool) : ℕ :=
  if right then size.nodeBytes else (size.nodeBytes + 1) / 2

/-- The record in its bytes; two records of 28 bits share a byte. -/
def unpackRecord : RecordSize → Bool → Bytes → ℕ
  | bits28, true, bs => beNat ((0x0F &&& bs.headD 0) :: bs.tail)
  | bits28, false, bs => beNat (((0xF0 &&& bs.getLastD 0) >>> 4) :: bs.dropLast)
  | _, _, bs => beNat bs

/-- The record of a node in the bytes of a file. -/
def recordOf (size : RecordSize) (b : Bytes) (node : ℕ) (right : Bool) : ℕ :=
  size.unpackRecord right (slice b (node * size.nodeBytes + size.recordStart right)
    (node * size.nodeBytes + size.recordEnd right))

end RecordSize

theorem recordOf_packed {size : RecordSize} {b : Bytes} {node : ℕ × ℕ} {i : ℕ}
    (hnode : HasBytes b (i * size.nodeBytes) (packNode size node))
    (hl : node.1 < 2 ^ size.bits) (hr : node.2 < 2 ^ size.bits) (right : Bool) :
    size.recordOf b i right = side node right := by
  have hread : ∀ {o k n : ℕ}, HasBytes b o (beBytes k n) → n < 256 ^ k →
      beNat (slice b o (o + k)) = n := fun h hn => by
    rw [slice_of_hasBytes h (length_beBytes _ _), beNat_beBytes hn]
  obtain ⟨left, right'⟩ := node
  cases size with
  | bits24 =>
    obtain ⟨hleft, hright⟩ := hasBytes_append_iff.mp hnode
    rw [length_beBytes] at hright
    cases right with
    | false => exact hread hleft (lt_of_lt_of_eq hl (by decide))
    | true => exact hread hright (lt_of_lt_of_eq hr (by decide))
  | bits28 =>
    obtain ⟨middle, hpack, hhigh, hlow⟩ := exists_middle hl hr
    rw [hpack] at hnode
    have hright := (hasBytes_append_iff.mp hnode).2
    rw [length_beBytes] at hright
    rw [List.append_cons] at hnode
    have hleft := (hasBytes_append_iff.mp hnode).1
    cases right with
    | false =>
      have hslice := slice_of_hasBytes (n := 4) hleft (by simp)
      refine (congrArg (RecordSize.bits28.unpackRecord false) hslice).trans ?_
      simpa [RecordSize.unpackRecord, side] using beNat_nibble hhigh
    | true =>
      have hslice := slice_of_hasBytes (n := 4) hright (by simp)
      refine (congrArg (RecordSize.bits28.unpackRecord true) hslice).trans ?_
      simpa [RecordSize.unpackRecord, side] using beNat_nibble hlow
  | bits32 =>
    obtain ⟨hleft, hright⟩ := hasBytes_append_iff.mp hnode
    rw [length_beBytes] at hright
    cases right with
    | false => exact hread hleft (lt_of_lt_of_eq hl (by decide))
    | true => exact hread hright (lt_of_lt_of_eq hr (by decide))

/-! ## Reading -/

/-- What `_read_node` makes of the slice that it takes. -/
def RecordSize.unpackSlice : RecordSize → Bool → Bytes → Except Exc ℕ
  | bits28, true, bs => match bs with
    | [] => .error .indexError
    | first :: rest => unpack 4 ((0x0F &&& first) :: rest)
  | bits28, false, bs => match bs.getLast? with
    | none => .error .indexError
    | some last => unpack 4 (((0xF0 &&& last) >>> 4) :: bs.dropLast)
  | bits24, _, bs => unpack 4 (0 :: bs)
  | bits32, _, bs => unpack 4 bs

theorem RecordSize.recordStart_lt (size : RecordSize) (right : Bool) :
    size.recordStart right < size.recordEnd right := by
  cases size <;> cases right <;> decide

theorem RecordSize.recordEnd_le (size : RecordSize) (right : Bool) :
    size.recordEnd right ≤ size.nodeBytes := by
  cases size <;> cases right <;> decide

theorem RecordSize.unpackSlice_of_length {size : RecordSize} {right : Bool} {bs : Bytes}
    (hl : bs.length = size.recordEnd right - size.recordStart right) :
    size.unpackSlice right bs = .ok (size.unpackRecord right bs) := by
  have hunpack : ∀ xs : Bytes, xs.length = 4 → unpack 4 xs = .ok (beNat xs) :=
    fun xs => unpack_of_length
  cases size with
  | bits24 =>
    replace hl : bs.length = 3 := by cases right <;> exact hl
    have hzero : beNat (0 :: bs) = beNat bs := by
      rw [beNat_cons]
      simp
    have hread : unpack 4 (0 :: bs) = .ok (beNat bs) := by
      rw [hunpack (0 :: bs) (congrArg Nat.succ hl), hzero]
    cases right <;> exact hread
  | bits32 =>
    replace hl : bs.length = 4 := by cases right <;> exact hl
    cases right <;> exact hunpack bs hl
  | bits28 =>
    replace hl : bs.length = 4 := by cases right <;> exact hl
    cases right with
    | false =>
      cases h : bs.getLast? with
      | none => simp_all
      | some last =>
        simp only [unpackSlice, unpackRecord, h, List.getLastD_eq_getLast?, Option.getD_some]
        exact hunpack _ (by simp [hl])
    | true =>
      cases bs with
      | nil => cases hl
      | cons x bs => exact hunpack _ hl

theorem RecordSize.eq_of_eqInt {size known : RecordSize}
    (h : (Record.int size.bits).eqInt known.bits) : known = size := by
  rw [Record.eqInt_int, decide_eq_true_eq] at h
  cases size <;> cases known <;> first | rfl | cases h

namespace Metadata

variable {m : Metadata} {size : RecordSize}

theorem nodeByteSize_eq (hsize : m.recordSize = .int size.bits) :
    m.nodeByteSize = .ok (.int size.nodeBytes) := by
  simp only [nodeByteSize, hsize, Record.asNum_int, Except.ok_bind, PyNum.floorDiv4_int,
    RecordSize.bits_div_four, Except.pure_eq_ok]

theorem searchTreeSize_eq (hsize : m.recordSize = .int size.bits) {count : ℤ}
    (hcount : m.nodeCount.asNum = .ok (.int count)) :
    m.searchTreeSize = .ok (.int (count * size.nodeBytes)) := by
  rw [searchTreeSize, nodeByteSize_eq hsize, hcount]
  simp only [Except.ok_bind, PyNum.mul_int]

end Metadata

namespace Reader

variable {r : Reader} {b : Bytes} {size : RecordSize}

/-- With a record size that is known, `_read_node` takes one slice of the buffer; others it reports. -/
theorem readNode_cases (r : Reader) (node : ℕ) (right : Bool) :
    (∃ size : RecordSize, r.metadata.recordSize.eqInt size.bits ∧
      r.readNode node right.toNat = (do
        let nodeBytes ← r.metadata.nodeByteSize
        let base ← (PyNum.int node).mul nodeBytes
        let offset ← base.add (.int (size.recordStart right))
        let bs ← r.sliceAt offset (size.recordEnd right - size.recordStart right)
        size.unpackSlice right bs)) ∨
    (∀ size : RecordSize, r.metadata.recordSize.eqInt size.bits = false) ∧
      r.readNode node right.toNat = (do
        let nodeBytes ← r.metadata.nodeByteSize
        let _ ← (PyNum.int node).mul nodeBytes
        let recordSize ← r.metadata.recordSize.formatted
        throw (.invalidDatabaseError (.unknownRecordSize recordSize))) := by
  by_cases h24 : r.metadata.recordSize.eqInt 24
  · refine .inl ⟨.bits24, h24, ?_⟩
    simp only [readNode, h24, ↓reduceIte]
    cases right <;> rfl
  by_cases h28 : r.metadata.recordSize.eqInt 28
  · refine .inl ⟨.bits28, h28, ?_⟩
    simp only [readNode, h24, h28, ↓reduceIte]
    cases right <;> rfl
  by_cases h32 : r.metadata.recordSize.eqInt 32
  · refine .inl ⟨.bits32, h32, ?_⟩
    simp only [readNode, h24, h28, h32, ↓reduceIte]
    cases right <;> rfl
  · refine .inr ⟨fun size => ?_, ?_⟩
    · cases size with
      | bits24 => exact Bool.eq_false_iff.mpr h24
      | bits28 => exact Bool.eq_false_iff.mpr h28
      | bits32 => exact Bool.eq_false_iff.mpr h32
    · simp only [readNode, h24, h28, h32]
      rfl

/-- `_read_node` takes its slice in the bytes of the node. -/
theorem readNode_eq_unpackSlice (hsize : r.metadata.recordSize = .int size.bits) (node : ℕ)
    (right : Bool) : r.readNode node right.toNat = size.unpackSlice right
      (r.buffer.getSlice (node * size.nodeBytes + size.recordStart right)
        (node * size.nodeBytes + size.recordEnd right)) := by
  have hslice : r.sliceAt (.int ((node : ℤ) * size.nodeBytes + size.recordStart right))
      (size.recordEnd right - size.recordStart right) =
      .ok (r.buffer.getSlice (node * size.nodeBytes + size.recordStart right)
        (node * size.nodeBytes + size.recordEnd right)) := by
    have hnat : ((node : ℤ) * size.nodeBytes + size.recordStart right).toNat =
        node * size.nodeBytes + size.recordStart right := by
      rw [← Nat.cast_mul, ← Nat.cast_add, Int.toNat_natCast]
    unfold sliceAt
    dsimp only
    rw [hnat, Nat.add_assoc, Nat.add_sub_cancel' (size.recordStart_lt right).le]
  rcases r.readNode_cases node right with ⟨known, hknown, hread⟩ | ⟨hnone, -⟩
  · rw [hsize] at hknown
    obtain rfl := RecordSize.eq_of_eqInt hknown
    rw [hread, Metadata.nodeByteSize_eq hsize]
    simp only [Except.ok_bind, PyNum.mul_int, PyNum.add_int, hslice]
  · have hfalse := hnone size
    rw [hsize, Record.eqInt_int] at hfalse
    simp at hfalse

theorem readNode_of_fits (hb : r.buffer.getSlice = slice b) {size : RecordSize} {node : ℕ}
    {right : Bool} (hsz : r.metadata.recordSize = .int size.bits)
    (hle : node * size.nodeBytes + size.recordEnd right ≤ b.length) :
    r.readNode node right.toNat = .ok (size.recordOf b node right) := by
  have hstart := size.recordStart_lt right
  rw [readNode_eq_unpackSlice hsz, hb]
  refine RecordSize.unpackSlice_of_length ?_
  rw [length_slice]
  omega

/-- **Reading a node undoes packing it**, wherever the node of that number stands packed. -/
theorem readNode_packed {size : RecordSize} {node : ℕ × ℕ} {i : ℕ}
    (hb : r.buffer.getSlice = slice b) (hsize : r.metadata.recordSize = .int size.bits)
    (hnode : HasBytes b (i * size.nodeBytes) (packNode size node))
    (hl : node.1 < 2 ^ size.bits) (hr : node.2 < 2 ^ size.bits) (right : Bool) :
    r.readNode i right.toNat = .ok (side node right) := by
  have hend : size.recordEnd right ≤ (packNode size node).length := by
    rw [length_packNode]
    exact size.recordEnd_le right
  have hne : packNode size node ≠ [] := by
    rw [← List.length_pos_iff, length_packNode]
    cases size <;> decide
  have hle := hnode.length_le hne
  rw [readNode_of_fits hb hsize (by omega), recordOf_packed hnode hl hr]

end Reader

end MaxMindDB
