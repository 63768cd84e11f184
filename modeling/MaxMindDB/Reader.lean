import MaxMindDB.Decoder
import MaxMindDB.Lib.BitTrie

/-!
# The pure Python reader

`Reader` and `Metadata` follow `reader.py`: opening a buffer, reading a node of the search tree,
walking the tree along the bits of an address, and decoding the record found.

Nothing checks the metadata, so its fields are any records; arithmetic and comparisons on them are
Python's, with the exceptions these raise. A database whose `node_count` is a natural number has a
`tree`, and its lookups are walks there (`findAddressInTree_eq`).
-/

namespace MaxMindDB

open Octets BitString

/-! ## Addresses -/

/-- The versions of the Internet Protocol. -/
inductive IPVersion where
  | v4
  | v6
  deriving DecidableEq

/-- The bytes of a packed address. -/
def IPVersion.packedSize : IPVersion → ℕ
  | .v4 => 4
  | .v6 => 16

/-- The bits of an address. -/
def IPVersion.bits (v : IPVersion) : ℕ := v.packedSize * 8

@[simp] theorem IPVersion.bits_v4 : IPVersion.v4.bits = 32 := rfl
@[simp] theorem IPVersion.bits_v6 : IPVersion.v6.bits = 128 := rfl

/-- An `ipaddress.IPv4Address` or `ipaddress.IPv6Address`. -/
structure IPAddress where
  version : IPVersion
  ip : ℕ
  ip_lt : ip < 2 ^ version.bits

/-- `address.packed`. -/
def IPAddress.packed (a : IPAddress) : Bytes := beBytes a.version.packedSize a.ip

/-- The bits of an address, most significant first. -/
def IPAddress.toBits (a : IPAddress) : List Bool := BitString.toBits a.version.bits a.ip

@[simp] theorem IPAddress.length_toBits (a : IPAddress) : a.toBits.length = a.version.bits :=
  BitString.length_toBits _ _

/-! ## Metadata -/

/-- `Metadata`. -/
structure Metadata where
  binaryFormatMajorVersion : Record
  binaryFormatMinorVersion : Record
  buildEpoch : Record
  databaseType : Record
  description : Record
  ipVersion : Record
  languages : Record
  nodeCount : Record
  recordSize : Record

namespace Metadata

/-- The keyword arguments of `Metadata`, all required. -/
def fields : List String :=
  ["binary_format_major_version", "binary_format_minor_version", "build_epoch", "database_type",
    "description", "ip_version", "languages", "node_count", "record_size"]

/-- A required keyword argument. -/
def required (kwargs : List (Record × Record)) (name : String) : Except Exc Record :=
  match dictGet kwargs name with
  | some value => .ok value
  | none => .error .typeError

/-- `Metadata(**kwargs)`: an unknown, non-string or missing keyword raises `TypeError`. -/
def new (kwargs : List (Record × Record)) : Except Exc Metadata := do
  if kwargs.all fun item => fields.any fun name => item.1.keyEq (.str name) then
    return {
      binaryFormatMajorVersion := ← required kwargs "binary_format_major_version"
      binaryFormatMinorVersion := ← required kwargs "binary_format_minor_version"
      buildEpoch := ← required kwargs "build_epoch"
      databaseType := ← required kwargs "database_type"
      description := ← required kwargs "description"
      ipVersion := ← required kwargs "ip_version"
      languages := ← required kwargs "languages"
      nodeCount := ← required kwargs "node_count"
      recordSize := ← required kwargs "record_size" }
  else throw .typeError

/-- `node_byte_size`. -/
def nodeByteSize (m : Metadata) : Except Exc PyNum := do
  return (← m.recordSize.asNum).floorDiv4

/-- `search_tree_size`. -/
def searchTreeSize (m : Metadata) : Except Exc PyNum := do
  (← m.nodeCount.asNum).mul (← m.nodeByteSize)

end Metadata

/-! ## The reader -/

/-- `_DATA_SECTION_SEPARATOR_SIZE`. -/
def dataSectionSeparatorSize : ℕ := 16

/-- `_METADATA_START_MARKER`. -/
def metadataStartMarker : Bytes :=
  [0xab, 0xcd, 0xef, 0x4d, 0x61, 0x78, 0x4d, 0x69, 0x6e, 0x64, 0x2e, 0x63, 0x6f, 0x6d]

/-- A `Reader`: its buffer, its metadata, the pointer base of its decoder and the node or record
at which IPv4 lookups start. -/
structure Reader where
  buffer : Buffer
  metadata : Metadata
  decoderBase : PyNum
  ipv4Start : ℕ

namespace Reader

variable (r : Reader)

/-- `self._buffer[offset : offset + size]`. An integer offset is never negative here. -/
def sliceAt (offset : PyNum) (size : ℕ) : Except Exc Bytes :=
  match offset with
  | .int i => .ok (r.buffer.getSlice i.toNat (i.toNat + size))
  | .float _ => .error .typeError

/-- `_read_node`. -/
def readNode (nodeNumber index : ℕ) : Except Exc ℕ := do
  let baseOffset ← (PyNum.int nodeNumber).mul (← r.metadata.nodeByteSize)
  let recordSize := r.metadata.recordSize
  if recordSize.eqInt 24 then
    let offset ← baseOffset.add (.int (index * 3))
    let nodeBytes ← r.sliceAt offset 3
    unpack 4 (0 :: nodeBytes)
  else if recordSize.eqInt 28 then
    let offset ← baseOffset.add (.int (3 * index))
    let nodeBytes ← r.sliceAt offset 4
    if index ≠ 0 then
      match nodeBytes with
      | [] => throw .indexError
      | first :: rest => unpack 4 ((0x0F &&& first) :: rest)
    else
      match nodeBytes.getLast? with
      | none => throw .indexError
      | some last =>
        let middle := (0xF0 &&& last) >>> 4
        unpack 4 (middle :: nodeBytes.dropLast)
  else if recordSize.eqInt 32 then
    let offset ← baseOffset.add (.int (index * 4))
    let nodeBytes ← r.sliceAt offset 4
    unpack 4 nodeBytes
  else throw (.invalidDatabaseError (.unknownRecordSize (← recordSize.formatted)))

/-- The loop of `__init__` that looks for the start of the IPv4 addresses. -/
def ipv4Walk (nodeCount : PyNum) : ℕ → ℕ → Except Exc ℕ
  | 0, node => .ok node
  | k + 1, node =>
    if nodeCount.le (.int node) then .ok node else do
      ipv4Walk nodeCount k (← r.readNode node 0)

/-- `__init__` behind the metadata marker. -/
def load (buffer : Buffer) (filename : String) (limit metadataStart : ℕ) : Except Exc Reader := do
  let metadataDecoder : Decoder := { buffer := buffer.toSliceable, pointerBase := metadataStart }
  let (metadata, _) ← metadataDecoder.decode limit metadataStart
  match metadata with
  | .dict items =>
    let metadata ← Metadata.new items
    let decoderBase ← (← metadata.searchTreeSize).add (.int dataSectionSeparatorSize)
    let reader : Reader := { buffer, metadata, decoderBase, ipv4Start := 0 }
    if metadata.ipVersion.eqInt 6 then
      return { reader with ipv4Start := ← reader.ipv4Walk (← metadata.nodeCount.asNum) 96 0 }
    else return reader
  | _ => throw (.invalidDatabaseError (.readingMetadata filename))

/-- An exception that leaves the constructor, and whether the buffer has been closed by then. -/
structure OpenFailure where
  exception : Exc
  closed : Bool

/-- `Reader(database, mode)`, the buffer loaded. -/
def new (buffer : Buffer) (filename : String) (limit : ℕ) : Except OpenFailure Reader :=
  match buffer.rfind metadataStartMarker (buffer.size - 128 * 1024) with
  | .error e => .error ⟨e, false⟩
  | .ok none => .error ⟨.invalidDatabaseError (.openingFile filename), true⟩
  | .ok (some metadataStart) =>
    (load buffer filename limit (metadataStart + metadataStartMarker.length)).mapError
      fun e => ⟨e, false⟩

/-- `_start_node`. -/
def startNode (length : ℕ) : ℕ :=
  if r.metadata.ipVersion.eqInt 6 ∧ length = 32 then r.ipv4Start else 0

/-- The loop of `_find_address_in_tree`; it turns at most `bitCount - i` times. -/
def findLoop (nodeCount : PyNum) (packed : Bytes) (bitCount : ℕ) :
    ℕ → ℕ → ℕ → Except Exc (ℕ × ℕ)
  | 0, node, i => .ok (node, i)
  | turns + 1, node, i =>
    if i < bitCount ∧ (PyNum.int node).lt nodeCount then do
      let bit := 1 &&& ((packed.getD (i >>> 3) 0).toNat >>> (7 - i % 8))
      let node ← r.readNode node bit
      findLoop nodeCount packed bitCount turns node (i + 1)
    else .ok (node, i)

/-- `_find_address_in_tree`. -/
def findAddressInTree (packed : Bytes) : Except Exc (ℕ × ℕ) := do
  let bitCount := packed.length * 8
  let node := r.startNode bitCount
  let nodeCount ← r.metadata.nodeCount.asNum
  let (node, i) ← r.findLoop nodeCount packed bitCount bitCount node 0
  if (PyNum.int node).eq nodeCount then return (0, i)
  if nodeCount.lt (.int node) then return (node, i)
  throw (.invalidDatabaseError .invalidNode)

/-- `self._decoder.decode(offset)`: only an integer indexes a buffer. -/
def decodeAt (limit : ℕ) (offset : PyNum) : Except Exc (Record × ℕ) :=
  match offset, r.decoderBase with
  | .float _, _ => .error .typeError
  | .int (.ofNat offset), .int (.ofNat base) =>
    Decoder.decode { buffer := r.buffer.toSliceable, pointerBase := base } limit offset
  | _, _ => .error .negativeOffset

/-- `_resolve_data_pointer`. -/
def resolveDataPointer (limit pointer : ℕ) : Except Exc Record := do
  let resolved ← (← (PyNum.int pointer).sub (← r.metadata.nodeCount.asNum)).add
    (← r.metadata.searchTreeSize)
  if (PyNum.int r.buffer.size).le resolved then
    throw (.invalidDatabaseError .corruptSearchTree)
  let (data, _) ← r.decodeAt limit resolved
  return data

/-- `get_with_prefix_len`, for an address object; `none` is Python's `None`. -/
def getWithPrefixLen (limit : ℕ) (address : IPAddress) : Except Exc (Option Record × ℕ) := do
  if address.version = .v6 ∧ r.metadata.ipVersion.eqInt 4 then throw .valueError
  let (pointer, prefixLen) ← r.findAddressInTree address.packed
  if pointer ≠ 0 then return (some (← r.resolveDataPointer limit pointer), prefixLen)
  return (none, prefixLen)

end Reader

end MaxMindDB
