import MaxMindDB.Iteration

/-!
# The bytes that walks read

`_read_node` takes one slice of the buffer, inside the bytes of its node. What walks the search tree
calls it for numbers below `node_count` only, so it cannot tell buffers apart that agree below
`search_tree_size`.

`readNode_packNodes`: reading undoes packing, for every node of a tree that is packed, and reads no
byte behind the tree.
-/

namespace MaxMindDB

open Octets

/-- Two buffers agree on the slices that end at an offset or before it. -/
def Buffer.AgreeBelow (stop : ℤ) (buffer buffer' : Buffer) : Prop :=
  ∀ i j : ℕ, (j : ℤ) ≤ stop → buffer'.getSlice i j = buffer.getSlice i j

namespace Reader

variable {r : Reader} {size : RecordSize} {buffer : Buffer} {count : ℤ}

/-- The slice that is taken for a record ends where its node does, or before. -/
theorem slice_in_node (node : ℕ) (right : Bool) :
    node * size.nodeBytes + size.recordEnd right ≤ (node + 1) * size.nodeBytes := by
  rw [Nat.succ_mul]
  exact Nat.add_le_add_left (size.recordEnd_le right) _

theorem readNode_agree (hsize : r.metadata.recordSize = .int size.bits)
    (hagree : r.buffer.AgreeBelow (count * size.nodeBytes) buffer) {node : ℕ} (hnode : node < count)
    (right : Bool) :
    ({ r with buffer } : Reader).readNode node right.toNat = r.readNode node right.toNat := by
  have hslice := hagree (node * size.nodeBytes + size.recordStart right)
    (node * size.nodeBytes + size.recordEnd right) ?_
  · rw [readNode_eq_unpackSlice hsize, readNode_eq_unpackSlice (r := { r with buffer }) hsize]
    exact congrArg _ hslice
  · have hend : ((node * size.nodeBytes + size.recordEnd right : ℕ) : ℤ) ≤
        ((node + 1) * size.nodeBytes : ℕ) := Int.ofNat_le.mpr (slice_in_node node right)
    refine hend.trans ?_
    rw [Nat.cast_mul]
    exact Int.mul_le_mul_of_nonneg_right (by omega) (Int.natCast_nonneg _)

theorem findLoop_agree (hsize : r.metadata.recordSize = .int size.bits)
    (hagree : r.buffer.AgreeBelow (count * size.nodeBytes) buffer) (packed : Bytes)
    (bitCount turns node i : ℕ) :
    ({ r with buffer } : Reader).findLoop (.int count) packed bitCount turns node i =
      r.findLoop (.int count) packed bitCount turns node i := by
  induction turns generalizing node i with
  | zero => rfl
  | succ turns ih =>
    rw [findLoop, findLoop]
    split_ifs with hloop
    · have hnode : (node : ℤ) < count := by simpa using hloop.2
      simp only [and_one_shiftRight, readNode_agree hsize hagree hnode, ih]
    · rfl

theorem findAddressInTree_agree (hsize : r.metadata.recordSize = .int size.bits)
    (hcount : r.metadata.nodeCount.asNum = .ok (.int count))
    (hagree : r.buffer.AgreeBelow (count * size.nodeBytes) buffer) (packed : Bytes) :
    ({ r with buffer } : Reader).findAddressInTree packed = r.findAddressInTree packed := by
  unfold findAddressInTree
  rw [hcount]
  simp only [Except.ok_bind, findLoop_agree hsize hagree]
  rfl

theorem ipv4Walk_agree (hsize : r.metadata.recordSize = .int size.bits)
    (hagree : r.buffer.AgreeBelow (count * size.nodeBytes) buffer) (k node : ℕ) :
    ({ r with buffer } : Reader).ipv4Walk (.int count) k node = r.ipv4Walk (.int count) k node := by
  induction k generalizing node with
  | zero => rfl
  | succ k ih =>
    rw [ipv4Walk, ipv4Walk]
    split_ifs with hstop
    · rfl
    · have hnode : (node : ℤ) < count := by simpa using hstop
      have hleft := readNode_agree hsize hagree hnode false
      rw [Bool.toNat_false] at hleft
      simp only [hleft, ih]

theorem generateWith_agree {α : Type} (hsize : r.metadata.recordSize = .int size.bits)
    (hagree : r.buffer.AgreeBelow (count * size.nodeBytes) buffer)
    (emit : ℕ → ℕ → ℕ → Except Exc α) (limit node depth ipAcc : ℕ) :
    ({ r with buffer } : Reader).generateWith emit (.int count) limit node depth ipAcc =
      r.generateWith emit (.int count) limit node depth ipAcc := by
  induction limit generalizing node depth ipAcc with
  | zero => rfl
  | succ limit ih =>
    rw [generateWith, generateWith]
    split_ifs with hskip hdata hnode
    · rfl
    · rfl
    · have hlt : (node : ℤ) < count := by simpa using hnode
      have hleft := readNode_agree hsize hagree hlt false
      have hright := readNode_agree hsize hagree hlt true
      rw [Bool.toNat_false] at hleft
      rw [Bool.toNat_true] at hright
      simp only [hleft, hright, ih]
    · rfl

/-- **Reading a node undoes packing the tree.** Where a buffer begins with nodes that are packed one
after another, `_read_node` returns the records of each. It takes one slice, inside the bytes of the
node. What walks the tree takes none that ends behind `search_tree_size`: lookups, the constructor
and iteration do the same on any buffer that agrees below it. -/
theorem readNode_packNodes {nodes : List (ℕ × ℕ)} {rest : Bytes}
    (hb : r.buffer.getSlice = slice (packNodes size nodes ++ rest))
    (hsize : r.metadata.recordSize = .int size.bits)
    (hlt : ∀ node ∈ nodes, ∀ right, side node right < 2 ^ size.bits) :
    (∀ (i : ℕ) (hi : i < nodes.length) (right : Bool),
      r.readNode i right.toNat = .ok (side nodes[i] right)) ∧
    (∀ (i : ℕ) (right : Bool), ∃ (start stop : ℕ) (unpacked : Bytes → Except Exc ℕ),
      i * size.nodeBytes ≤ start ∧ stop ≤ (i + 1) * size.nodeBytes ∧
      ∀ buffer : Buffer, ({ r with buffer } : Reader).readNode i right.toNat =
        unpacked (buffer.getSlice start stop)) ∧
    ∀ count : ℤ, r.metadata.nodeCount.asNum = .ok (.int count) →
      r.metadata.searchTreeSize = .ok (.int (count * size.nodeBytes)) ∧
      ∀ buffer, r.buffer.AgreeBelow (count * size.nodeBytes) buffer →
        (∀ packed,
          ({ r with buffer } : Reader).findAddressInTree packed = r.findAddressInTree packed) ∧
        (∀ k node, ({ r with buffer } : Reader).ipv4Walk (.int count) k node =
          r.ipv4Walk (.int count) k node) ∧
        ∀ (α : Type) (emit : ℕ → ℕ → ℕ → Except Exc α) (limit node depth ipAcc : ℕ),
          ({ r with buffer } : Reader).generateWith emit (.int count) limit node depth ipAcc =
            r.generateWith emit (.int count) limit node depth ipAcc := by
  refine ⟨fun i hi right => ?_, fun i right => ?_, fun count hcount => ⟨?_, ?_⟩⟩
  · have hmem := List.getElem_mem hi
    exact readNode_packed hb hsize (hasBytes_packNodes hi rest) (hlt _ hmem false)
      (hlt _ hmem true) right
  · exact ⟨_, _, size.unpackSlice right, Nat.le_add_right _ _, slice_in_node i right,
      fun buffer => readNode_eq_unpackSlice (r := { r with buffer }) hsize i right⟩
  · exact Metadata.searchTreeSize_eq hsize hcount
  · intro buffer hagree
    exact ⟨fun packed => findAddressInTree_agree hsize hcount hagree packed,
      fun k node => ipv4Walk_agree hsize hagree k node,
      fun _ emit limit node depth ipAcc =>
        generateWith_agree hsize hagree emit limit node depth ipAcc⟩

end Reader

/-! A tree of one node of 28-bit records, and what follows it. -/

namespace Sample

def oneNode (rest : Bytes) : Reader where
  buffer := .ofBytes (packNodes .bits28 [(0xfedcba9, 0x1234567)] ++ rest)
  metadata := {
    binaryFormatMajorVersion := .int 2
    binaryFormatMinorVersion := .int 0
    buildEpoch := .int 0
    databaseType := .str "Test"
    description := .dict []
    ipVersion := .int 4
    languages := .list []
    nodeCount := .int 1
    recordSize := .int 28 }
  decoderBase := .int 23
  ipv4Start := 0

theorem readNode_oneNode :
    (oneNode [0xff]).readNode 0 0 = .ok 0xfedcba9 ∧ (oneNode [0xff]).readNode 0 1 = .ok 0x1234567 ∧
      ∀ packed, (oneNode []).findAddressInTree packed = (oneNode [0xff]).findAddressInTree packed := by
  have hlt : ∀ node ∈ [((0xfedcba9 : ℕ), (0x1234567 : ℕ))], ∀ right,
      side node right < 2 ^ RecordSize.bits28.bits := by decide
  obtain ⟨hread, -, hwalks⟩ := @Reader.readNode_packNodes (oneNode [0xff]) .bits28 _ [0xff] rfl rfl
    hlt
  refine ⟨hread 0 Nat.one_pos false, hread 0 Nat.one_pos true, ?_⟩
  refine ((hwalks 1 rfl).2 (oneNode []).buffer fun i j hj => ?_).1
  have hj : j ≤ (packNodes .bits28 [(0xfedcba9, 0x1234567)]).length := Int.ofNat_le.mp hj
  exact (slice_append_of_le hj [] i).trans (slice_append_of_le hj [0xff] i).symm

end Sample

end MaxMindDB
