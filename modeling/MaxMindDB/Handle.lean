import MaxMindDB.Iteration
import MaxMindDB.OpenDatabase
import MaxMindDB.Lib.Resumption

/-!
# Readers that have been closed

`close` closes a memory map and a `FileBuffer`, and every later access raises `ValueError`; bytes have no
`close`, and are read on. The methods are those of the open reader over accesses that may be refused, and the
generator of `__iter__` is a stack of suspended frames.

`generator_means`: the frames are what is left of the iteration. `getWithPrefixLenBy_refuses`,
`generator_refuses`: without the bytes a call goes as it would have gone, or raises.
-/

namespace MaxMindDB

open Octets Except

/-! ## Methods over a buffer that may be closed -/

/-- How the methods of a reader get at its buffer. -/
structure BufferReads where
  readNode : ℕ → ℕ → Except Exc ℕ
  decodeAt : ℕ → PyNum → Except Exc (Record × ℕ)

namespace Reader

variable (r : Reader)

/-- `_read_node`, where `sliceAt` slices the buffer. -/
def readNodeBy (sliceAt : PyNum → ℕ → Except Exc Bytes) (nodeNumber index : ℕ) : Except Exc ℕ := do
  let baseOffset ← (PyNum.int nodeNumber).mul (← r.metadata.nodeByteSize)
  let recordSize := r.metadata.recordSize
  if recordSize.eqInt 24 then
    let offset ← baseOffset.add (.int (index * 3))
    let nodeBytes ← sliceAt offset 3
    unpack 4 (0 :: nodeBytes)
  else if recordSize.eqInt 28 then
    let offset ← baseOffset.add (.int (3 * index))
    let nodeBytes ← sliceAt offset 4
    if index ≠ 0 then
      match nodeBytes with
      | [] => throw .indexError
      | first :: rest => unpack 4 ((0x0F &&& first) :: rest)
    else
      match nodeBytes.getLast? with
      | none => throw .indexError
      | some last =>
        let middle := (0xF0 &&& last) >>> 4
        unpack 4 (middle :: nodeBytes.dropLast)
  else if recordSize.eqInt 32 then
    let offset ← baseOffset.add (.int (index * 4))
    let nodeBytes ← sliceAt offset 4
    unpack 4 nodeBytes
  else throw (.invalidDatabaseError (.unknownRecordSize (← recordSize.formatted)))

variable (io : BufferReads)

/-- The loop of `_find_address_in_tree`. -/
def findLoopBy (nodeCount : PyNum) (packed : Bytes) (bitCount : ℕ) : ℕ → ℕ → ℕ → Except Exc (ℕ × ℕ)
  | 0, node, i => .ok (node, i)
  | turns + 1, node, i =>
    if i < bitCount ∧ (PyNum.int node).lt nodeCount then do
      let bit := 1 &&& ((packed.getD (i >>> 3) 0).toNat >>> (7 - i % 8))
      let node ← io.readNode node bit
      findLoopBy nodeCount packed bitCount turns node (i + 1)
    else .ok (node, i)

/-- `_find_address_in_tree`. -/
def findAddressInTreeBy (packed : Bytes) : Except Exc (ℕ × ℕ) := do
  let bitCount := packed.length * 8
  let node := r.startNode bitCount
  let nodeCount ← r.metadata.nodeCount.asNum
  let (node, i) ← findLoopBy io nodeCount packed bitCount bitCount node 0
  if (PyNum.int node).eq nodeCount then return (0, i)
  if nodeCount.lt (.int node) then return (node, i)
  throw (.invalidDatabaseError .invalidNode)

/-- `_resolve_data_pointer`. The size of the buffer has been stored. -/
def resolveDataPointerBy (limit pointer : ℕ) : Except Exc Record := do
  let resolved ← (← (PyNum.int pointer).sub (← r.metadata.nodeCount.asNum)).add
    (← r.metadata.searchTreeSize)
  if (PyNum.int r.buffer.size).le resolved then
    throw (.invalidDatabaseError .corruptSearchTree)
  let (data, _) ← io.decodeAt limit resolved
  return data

/-- `get_with_prefix_len`. -/
def getWithPrefixLenBy (limit : ℕ) (address : IPAddress) : Except Exc (Option Record × ℕ) := do
  if address.version = .v6 ∧ r.metadata.ipVersion.eqInt 4 then throw .valueError
  let (pointer, prefixLen) ← r.findAddressInTreeBy io address.packed
  if pointer ≠ 0 then return (some (← r.resolveDataPointerBy io limit pointer), prefixLen)
  return (none, prefixLen)

/-- What `_generate_children` yields for a data record. -/
def emitNetworkBy (limit node depth ipAcc : ℕ) : Except Exc (IPNetwork × Record) := do
  return (← r.leafNetwork depth ipAcc, ← r.resolveDataPointerBy io limit node)

end Reader

/-- A frame of `_generate_children`: not entered yet, or suspended on its left subtree, with the depth and
the prefix that it has for its children. -/
inductive Frame where
  | enter (limit node depth ipAcc : ℕ)
  | right (limit node depth ipAcc : ℕ)

namespace Frame

/-- The work that is left in a frame. -/
def weight : Frame → ℕ
  | .enter limit _ _ _ => 4 ^ (limit + 1)
  | .right limit _ _ _ => 4 ^ (limit + 1) + 1

/-- `_generate_children`, from where the frame is to where it yields or calls itself. The first frame has
compared `node_count` already. -/
def body (r : Reader) (io : BufferReads) (limit₀ : ℕ) : Frame → Except Exc (Move (IPNetwork × Record) Frame)
  | .enter limit node depth ipAcc => do
    let nodeCount ← r.metadata.nodeCount.asNum
    match limit with
    | 0 => throw .recursionError
    | limit + 1 =>
      if ipAcc ≠ 0 ∧ node = r.ipv4Start then return .calls []
      else if nodeCount.lt (.int node) then return .yields (← r.emitNetworkBy io limit₀ node depth ipAcc)
      else if (PyNum.int node).lt nodeCount then
        let left ← io.readNode node 0
        let ipAcc := ipAcc <<< 1
        let depth := depth + 1
        return .calls [.enter limit left depth ipAcc, .right limit node depth ipAcc]
      else return .calls []
  | .right limit node depth ipAcc => do
    let right ← io.readNode node 1
    return .calls [.enter limit right depth (ipAcc ||| 1)]

theorem weight_lt {r : Reader} {io : BufferReads} {limit₀ : ℕ} {f : Frame} {fs : List Frame}
    (h : f.body r io limit₀ = .ok (.calls fs)) : (fs.map weight).sum < f.weight := by
  cases f with
  | right limit node depth ipAcc =>
    obtain ⟨right, -, h⟩ := bind_eq_ok.mp h
    cases h
    simp [weight]
  | enter limit node depth ipAcc =>
    obtain ⟨nodeCount, -, h⟩ := bind_eq_ok.mp h
    cases limit with
    | zero => cases h
    | succ limit =>
      have hpos : 4 ≤ 4 ^ (limit + 1) := Nat.le_self_pow (by omega) 4
      simp only at h
      split_ifs at h
      · cases h
        simp [weight]
      · obtain ⟨item, -, h⟩ := bind_eq_ok.mp h
        cases h
      · obtain ⟨left, -, h⟩ := bind_eq_ok.mp h
        cases h
        simp only [weight, List.map_cons, List.map_nil, List.sum_cons, List.sum_nil]
        rw [pow_succ 4 (limit + 1)]
        omega
      · cases h
        simp [weight]

end Frame

/-- The generator of `__iter__`. -/
def generator (r : Reader) (io : BufferReads) (limit : ℕ) : Coroutine Exc (IPNetwork × Record) Frame where
  body := Frame.body r io limit
  weight := Frame.weight
  weight_lt := Frame.weight_lt

/-! ## The open reader -/

namespace Reader

variable (r : Reader)

/-- The accesses of a reader whose buffer is open. -/
def reads : BufferReads := ⟨r.readNode, r.decodeAt⟩

theorem readNodeBy_sliceAt : r.readNodeBy r.sliceAt = r.readNode := rfl

theorem findLoopBy_reads (nodeCount : PyNum) (packed : Bytes) (bitCount turns node i : ℕ) :
    findLoopBy r.reads nodeCount packed bitCount turns node i =
      r.findLoop nodeCount packed bitCount turns node i := by
  induction turns generalizing node i with
  | zero => rfl
  | succ turns ih =>
    rw [findLoopBy, findLoop]
    simp only [ih]
    rfl

theorem findAddressInTreeBy_reads (packed : Bytes) :
    r.findAddressInTreeBy r.reads packed = r.findAddressInTree packed := by
  unfold findAddressInTreeBy findAddressInTree
  simp only [findLoopBy_reads]

theorem getWithPrefixLenBy_reads (limit : ℕ) (a : IPAddress) :
    r.getWithPrefixLenBy r.reads limit a = r.getWithPrefixLen limit a := by
  unfold getWithPrefixLenBy getWithPrefixLen
  rw [findAddressInTreeBy_reads]
  rfl

end Reader

/-- The generator that a frame of an open reader stands for. -/
def Frame.gen (r : Reader) (limit₀ : ℕ) : Frame → Gen Exc (IPNetwork × Record)
  | .enter limit node depth ipAcc => .await r.metadata.nodeCount.asNum fun nodeCount =>
    r.generateWith (r.emitNetwork limit₀) nodeCount limit node depth ipAcc
  | .right limit node depth ipAcc => .await (r.readNode node 1) fun right =>
    .await r.metadata.nodeCount.asNum fun nodeCount =>
      r.generateWith (r.emitNetwork limit₀) nodeCount limit right depth (ipAcc ||| 1)

/-- **Suspended frames are what is left of the iteration.** -/
theorem generator_means (r : Reader) (limit₀ : ℕ) :
    (generator r r.reads limit₀).Means (Frame.gen r limit₀) := by
  have hemit : r.emitNetworkBy r.reads limit₀ = r.emitNetwork limit₀ := rfl
  rintro (⟨limit, node, depth, ipAcc⟩ | ⟨limit, node, depth, ipAcc⟩)
  · show Gen.await _ _ = Coroutine.moveGen _ (Frame.body r r.reads limit₀ (.enter limit node depth ipAcc))
    rw [Frame.body]
    cases hn : r.metadata.nodeCount.asNum with
    | error e => rfl
    | ok nodeCount =>
      rw [Gen.await_ok, ok_bind, hemit]
      cases limit with
      | zero => rfl
      | succ limit =>
        rw [Reader.generateWith]
        split_ifs with hskip hgt hlt
        · rfl
        · cases r.emitNetwork limit₀ node depth ipAcc <;> rfl
        · show Gen.await (r.readNode node 0) _ = Coroutine.moveGen _ (r.readNode node 0 >>= _)
          cases r.readNode node 0 with
          | error e => rfl
          | ok left =>
            rw [Gen.await_ok, ok_bind, pure_eq_ok, Coroutine.moveGen, Gen.all_cons, Gen.all_cons, Gen.all_nil,
              Gen.andThen_done]
            simp only [Frame.gen, hn, Gen.await_ok]
        · rfl
  · show Gen.await (r.readNode node 1) _ = Coroutine.moveGen _ (r.readNode node 1 >>= _)
    cases r.readNode node 1 with
    | error e => rfl
    | ok right => exact (Gen.andThen_done _).symm

/-! ## The reader that may be closed -/

/-- A closed buffer, as a decoder sees it: it cannot be indexed, and no field is sliced that has not been
indexed before. -/
def Sliceable.closed : Sliceable where
  getItem _ := .error .valueError
  getSlice _ _ := []

/-- The reader over its buffer, closed. -/
def Reader.closedBuffer (r : Reader) : Reader :=
  { r with buffer := { r.buffer with toSliceable := .closed } }

namespace Handle

variable (h : Handle)

/-- `self._buffer[offset : offset + size]`. A closed buffer looks at no offset. -/
def sliceAt (offset : PyNum) (size : ℕ) : Except Exc Bytes :=
  if h.bufferClosed then .error .valueError else h.reader.sliceAt offset size

/-- `self._decoder.decode(offset)` on a closed buffer. A memory map looks whether it is closed before it
looks at the offset. -/
def decodeClosed (limit : ℕ) (offset : PyNum) : Except Exc (Record × ℕ) :=
  match h.bufferType, offset with
  | .mmap, .float _ => .error .valueError
  | _, offset => h.reader.closedBuffer.decodeAt limit offset

/-- `self._decoder.decode(offset)`. -/
def decodeAt (limit : ℕ) (offset : PyNum) : Except Exc (Record × ℕ) :=
  if h.bufferClosed then h.decodeClosed limit offset else h.reader.decodeAt limit offset

def reads : BufferReads := ⟨h.reader.readNodeBy h.sliceAt, h.decodeAt⟩

/-- `get_with_prefix_len`. -/
def getWithPrefixLen (limit : ℕ) (a : IPAddress) : Except Exc (Option Record × ℕ) :=
  h.reader.getWithPrefixLenBy h.reads limit a

/-- `close`. That bytes have no `close` is suppressed. -/
def close : Handle :=
  { h with bufferClosed := h.bufferClosed || decide (h.bufferType ≠ .bytes), closed := true }

/-- The generator of an iterator. -/
def generator (limit : ℕ) : Coroutine Exc (IPNetwork × Record) Frame :=
  MaxMindDB.generator h.reader h.reads limit

end Handle

/-! ## Refused accesses -/

/-- The accesses `io'` are those of `io`, some of which are refused; no field is decoded. -/
structure BufferReads.Closes (io' io : BufferReads) : Prop where
  readNode : ∀ node index, Refuses .valueError (io'.readNode node index) (io.readNode node index)
  decodeAt : ∀ limit offset, Refuses .valueError (io'.decodeAt limit offset) (io.decodeAt limit offset)
  no_data : ∀ limit offset x, io'.decodeAt limit offset ≠ .ok x

namespace Reader

variable (r : Reader)

theorem readNodeBy_refuses {e : Exc} {sliceAt sliceAt' : PyNum → ℕ → Except Exc Bytes}
    (h : ∀ offset size, Refuses e (sliceAt' offset size) (sliceAt offset size)) (node index : ℕ) :
    Refuses e (r.readNodeBy sliceAt' node index) (r.readNodeBy sliceAt node index) := by
  unfold readNodeBy
  refine .bind (.refl _ _) fun size => .bind (.refl _ _) fun baseOffset => ?_
  dsimp only
  split_ifs
  · exact .bind (.refl _ _) fun offset => .bind (h _ _) fun nodeBytes => .refl _ _
  · exact .bind (.refl _ _) fun offset => .bind (h _ _) fun nodeBytes => .refl _ _
  · exact .bind (.refl _ _) fun offset => .bind (h _ _) fun nodeBytes => .refl _ _
  · exact .bind (.refl _ _) fun offset => .bind (h _ _) fun nodeBytes => .refl _ _
  · exact .refl _ _

variable {io io' : BufferReads} (h : io'.Closes io)
include h

theorem findLoopBy_refuses (nodeCount : PyNum) (packed : Bytes) (bitCount turns node i : ℕ) :
    Refuses .valueError (findLoopBy io' nodeCount packed bitCount turns node i)
      (findLoopBy io nodeCount packed bitCount turns node i) := by
  induction turns generalizing node i with
  | zero => exact .refl _ _
  | succ turns ih =>
    rw [findLoopBy, findLoopBy]
    split_ifs
    · exact .bind (h.readNode _ _) fun node => ih node (i + 1)
    · exact .refl _ _

theorem findAddressInTreeBy_refuses (packed : Bytes) :
    Refuses .valueError (r.findAddressInTreeBy io' packed) (r.findAddressInTreeBy io packed) := by
  unfold findAddressInTreeBy
  refine .bind (.refl _ _) fun nodeCount => ?_
  exact .bind (findLoopBy_refuses h _ _ _ _ _ _) fun leaf => .refl _ _

theorem resolveDataPointerBy_refuses (limit pointer : ℕ) :
    Refuses .valueError (r.resolveDataPointerBy io' limit pointer)
      (r.resolveDataPointerBy io limit pointer) := by
  unfold resolveDataPointerBy
  refine .bind (.refl _ _) fun nodeCount => .bind (.refl _ _) fun p => .bind (.refl _ _) fun size =>
    .bind (.refl _ _) fun resolved => ?_
  dsimp only
  split_ifs
  · exact .refl _ _
  · exact .bind (h.decodeAt _ _) fun data => .refl _ _

theorem resolveDataPointerBy_ne_ok (limit pointer : ℕ) (v : Record) :
    r.resolveDataPointerBy io' limit pointer ≠ .ok v := by
  intro hv
  obtain ⟨nodeCount, -, hv⟩ := bind_eq_ok.mp hv
  obtain ⟨p, -, hv⟩ := bind_eq_ok.mp hv
  obtain ⟨size, -, hv⟩ := bind_eq_ok.mp hv
  obtain ⟨resolved, -, hv⟩ := bind_eq_ok.mp hv
  dsimp only at hv
  split_ifs at hv
  · cases hv
  · obtain ⟨data, hdata, -⟩ := bind_eq_ok.mp hv
    exact h.no_data _ _ _ hdata

theorem emitNetworkBy_refuses (limit node depth ipAcc : ℕ) :
    Refuses .valueError (r.emitNetworkBy io' limit node depth ipAcc)
      (r.emitNetworkBy io limit node depth ipAcc) := by
  unfold emitNetworkBy
  exact .bind (.refl _ _) fun net => .bind (resolveDataPointerBy_refuses r h _ _) fun v => .refl _ _

theorem emitNetworkBy_ne_ok (limit node depth ipAcc : ℕ) (item : IPNetwork × Record) :
    r.emitNetworkBy io' limit node depth ipAcc ≠ .ok item := by
  intro hitem
  obtain ⟨net, -, hitem⟩ := bind_eq_ok.mp hitem
  obtain ⟨v, hv, -⟩ := bind_eq_ok.mp hitem
  exact resolveDataPointerBy_ne_ok r h _ _ v hv

/-- A lookup without the bytes goes as it would have gone, or raises. -/
theorem getWithPrefixLenBy_refuses (limit : ℕ) (a : IPAddress) :
    Refuses .valueError (r.getWithPrefixLenBy io' limit a) (r.getWithPrefixLenBy io limit a) := by
  unfold getWithPrefixLenBy
  dsimp only
  split_ifs
  · exact .refl _ _
  · refine .bind (findAddressInTreeBy_refuses r h _) fun leaf => ?_
    split_ifs
    · exact .bind (resolveDataPointerBy_refuses r h _ _) fun v => .refl _ _
    · exact .refl _ _

/-- It returns no record. -/
theorem getWithPrefixLenBy_none {limit : ℕ} {a : IPAddress} {x : Option Record × ℕ}
    (hx : r.getWithPrefixLenBy io' limit a = .ok x) : x.1 = none := by
  unfold getWithPrefixLenBy at hx
  dsimp only at hx
  split_ifs at hx
  · cases hx
  · obtain ⟨leaf, -, hx⟩ := bind_eq_ok.mp hx
    split_ifs at hx
    · obtain ⟨v, hv, -⟩ := bind_eq_ok.mp hx
      exact absurd hv (resolveDataPointerBy_ne_ok r h _ _ v)
    · cases hx
      rfl

/-- Nor does an iterator that is resumed without them yield anything. -/
theorem generator_refuses (limit₀ : ℕ) :
    Coroutine.RefusesTo .valueError (generator r io' limit₀) (generator r io limit₀) where
  body f := by
    show Refuses _ (f.body r io' limit₀) (f.body r io limit₀)
    cases f with
    | enter limit node depth ipAcc =>
      rw [Frame.body, Frame.body]
      refine .bind (.refl _ _) fun nodeCount => ?_
      cases limit with
      | zero => exact .refl _ _
      | succ limit =>
        dsimp only
        split_ifs
        · exact .refl _ _
        · exact .bind (emitNetworkBy_refuses r h _ _ _ _) fun item => .refl _ _
        · exact .bind (h.readNode _ _) fun left => .refl _ _
        · exact .refl _ _
    | right limit node depth ipAcc => exact .bind (h.readNode _ _) fun right => .refl _ _
  yields f item := by
    intro hf
    cases f with
    | enter limit node depth ipAcc =>
      obtain ⟨nodeCount, -, hf⟩ := bind_eq_ok.mp hf
      cases limit with
      | zero => cases hf
      | succ limit =>
        dsimp only at hf
        split_ifs at hf
        · cases hf
        · obtain ⟨item', hitem, -⟩ := bind_eq_ok.mp hf
          exact emitNetworkBy_ne_ok r h _ _ _ _ item' hitem
        · obtain ⟨left, -, hf⟩ := bind_eq_ok.mp hf
          cases hf
        · cases hf
    | right limit node depth ipAcc =>
      obtain ⟨right, -, hf⟩ := bind_eq_ok.mp hf
      cases hf

omit h in
/-- A decoder indexes its buffer first of all. -/
theorem closedBuffer_decodeAt (limit : ℕ) (offset : PyNum) :
    Refuses .valueError (r.closedBuffer.decodeAt limit offset) (r.decodeAt limit offset) ∧
      ∀ x, r.closedBuffer.decodeAt limit offset ≠ .ok x := by
  have hbase : r.closedBuffer.decoderBase = r.decoderBase := rfl
  unfold decodeAt
  rw [hbase]
  split
  · exact ⟨.refl _ _, nofun⟩
  · cases limit with
    | zero => exact ⟨.refl _ _, nofun⟩
    | succ limit => exact ⟨.refused _ _, nofun⟩
  · exact ⟨.refl _ _, nofun⟩

end Reader

namespace Handle

variable (h : Handle)

theorem reads_of_open (ho : h.bufferClosed = false) : h.reads = h.reader.reads := by
  have hslice : h.sliceAt = h.reader.sliceAt := by
    funext offset size
    rw [sliceAt, ho, if_neg Bool.false_ne_true]
  have hdecode : h.decodeAt = h.reader.decodeAt := by
    funext limit offset
    rw [decodeAt, ho, if_neg Bool.false_ne_true]
  unfold reads Reader.reads
  rw [hslice, hdecode, Reader.readNodeBy_sliceAt]

theorem decodeClosed_refuses (limit : ℕ) (offset : PyNum) :
    Refuses .valueError (h.decodeClosed limit offset) (h.reader.decodeAt limit offset) ∧
      ∀ x, h.decodeClosed limit offset ≠ .ok x := by
  unfold decodeClosed
  split
  · exact ⟨.refused _ _, nofun⟩
  · exact h.reader.closedBuffer_decodeAt limit _

theorem reads_of_closed (hc : h.bufferClosed = true) : h.reads.Closes h.reader.reads where
  readNode node index := by
    refine Reader.readNodeBy_refuses h.reader (fun offset size => ?_) node index
    rw [sliceAt, if_pos hc]
    exact .refused _ _
  decodeAt limit offset := by
    show Refuses _ (h.decodeAt limit offset) (h.reader.decodeAt limit offset)
    rw [decodeAt, if_pos hc]
    exact (h.decodeClosed_refuses limit offset).1
  no_data limit offset x := by
    show h.decodeAt limit offset ≠ .ok x
    rw [decodeAt, if_pos hc]
    exact (h.decodeClosed_refuses limit offset).2 x

end Handle

end MaxMindDB
