import MaxMindDB.Format
import MaxMindDB.Lookup
import MaxMindDB.Packing

/-!
# Database files

A database file is a packed search tree, 16 separator bytes, a data section, the metadata marker
and the metadata map. `Layout` is the parts of a file. In `Parts` they fit together: nodes point to
nodes, to nothing, or to an encoding in the data section, and the metadata says how the tree is
packed. In a `Database` the metadata marker is the last of its kind and near the end of the file.

`lookup_longestPrefix`: a reader opens every such file, and a lookup returns the value encoded where
the record that the address leads to points.
-/

namespace MaxMindDB

open Octets BitString Raising

/-- The number of a version, as metadata gives it. -/
def IPVersion.number : IPVersion → ℕ
  | .v4 => 4
  | .v6 => 6

/-- The parts of a database file. -/
structure Layout where
  recordSize : RecordSize
  ipVersion : IPVersion
  nodes : List (ℕ × ℕ)
  separator : Bytes
  data : Bytes
  metadata : List (String × Record)
  metadataBytes : Bytes

namespace Layout

variable (l : Layout)

/-- The bytes before the data section. -/
def head : Bytes := packNodes l.recordSize l.nodes ++ l.separator

/-- The bytes before the metadata marker. -/
def body : Bytes := l.head ++ l.data

/-- The whole file. -/
def file : Bytes := l.body ++ metadataStartMarker ++ l.metadataBytes

/-- The search tree that the nodes are. -/
def trie : BitTrie Exc where
  count := l.nodes.length
  child node right := .ok (side (l.nodes.getD node (0, 0)) right)

/-- What a record of the search tree outside the nodes stands for: nothing, or the value at an
offset of the data section. -/
def Holds (record : ℕ) (v : Option Record) : Prop :=
  (record = l.nodes.length ∧ v = none) ∨
    ∃ d v' e, record = l.nodes.length + dataSectionSeparatorSize + d ∧
      Encodes l.data 0 d v' e ∧ v = some v'

/-- The value of a metadata field. -/
def field (name : String) : Record := (dictGet (dictOf l.metadata) name).getD (.int 0)

end Layout

/-- A layout whose parts fit together. -/
structure Parts extends Layout where
  records_lt : ∀ node ∈ nodes, node.1 < 2 ^ recordSize.bits ∧ node.2 < 2 ^ recordSize.bits
  records : ∀ node ∈ nodes, ∀ right,
    side node right < nodes.length ∨ ∃ v, toLayout.Holds (side node right) v
  bounded : toLayout.trie.Bounded ipVersion.bits 0
  separator_length : separator.length = dataSectionSeparatorSize
  metadata_encoded : ∃ e, Encodes metadataBytes 0 0 (.dict (dictOf metadata)) e
  metadata_keys : (metadata.map Prod.fst).Perm Metadata.fields
  node_count : ("node_count", .int nodes.length) ∈ metadata
  record_size : ("record_size", .int recordSize.bits) ∈ metadata
  ip_version : ("ip_version", .int ipVersion.number) ∈ metadata

/-- Parts whose metadata marker is the one a reader finds. -/
structure Database extends Parts where
  marker_last : ∀ i, HasBytes toLayout.file i metadataStartMarker → i ≤ toLayout.body.length
  marker_near_end : toLayout.file.length - 128 * 1024 ≤ toLayout.body.length

namespace Parts

variable (db : Parts)

/-- The metadata a reader takes from the file. -/
def metadataFields : Metadata where
  binaryFormatMajorVersion := db.field "binary_format_major_version"
  binaryFormatMinorVersion := db.field "binary_format_minor_version"
  buildEpoch := db.field "build_epoch"
  databaseType := db.field "database_type"
  description := db.field "description"
  ipVersion := db.field "ip_version"
  languages := db.field "languages"
  nodeCount := db.field "node_count"
  recordSize := db.field "record_size"

/-- The reader of the file. -/
def reader : Reader where
  buffer := .ofBytes db.file
  metadata := db.metadataFields
  decoderBase := .int db.head.length
  ipv4Start :=
    match db.ipVersion, db.trie.walk (List.replicate 96 false) 0 with
    | .v6, .ok (leaf, _) => leaf
    | _, _ => 0

/-! ## Metadata -/

theorem keys_nodup : (db.metadata.map Prod.fst).Nodup :=
  db.metadata_keys.nodup_iff.mpr (by decide)

theorem field_of_mem {name : String} {v : Record} (h : (name, v) ∈ db.metadata) :
    db.field name = v := by
  rw [Layout.field, dictGet_dictOf db.keys_nodup h]
  rfl

@[simp] theorem reader_nodeCount : db.reader.metadata.nodeCount = .int db.nodes.length :=
  db.field_of_mem db.node_count

@[simp] theorem reader_recordSize : db.reader.metadata.recordSize = .int db.recordSize.bits :=
  db.field_of_mem db.record_size

@[simp] theorem reader_ipVersion : db.reader.metadata.ipVersion = .int db.ipVersion.number :=
  db.field_of_mem db.ip_version

theorem reader_hasNodeCount : db.reader.HasNodeCount db.nodes.length := by
  simp [Reader.HasNodeCount]

theorem required_eq {name : String} (h : name ∈ Metadata.fields) :
    Metadata.required (dictOf db.metadata) name = .ok (db.field name) := by
  obtain ⟨⟨k, v⟩, hm, rfl⟩ := List.mem_map.mp (db.metadata_keys.mem_iff.mpr h)
  rw [db.field_of_mem hm, Metadata.required, dictGet_dictOf db.keys_nodup hm]

theorem metadata_new : Metadata.new (dictOf db.metadata) = .ok db.metadataFields := by
  have hall : (dictOf db.metadata).all
      (fun item => Metadata.fields.any fun name => item.1.keyEq (.str name)) = true := by
    rw [dictOf_of_nodup db.keys_nodup, List.all_map, List.all_eq_true]
    intro kv hkv
    have hmem := db.metadata_keys.mem_iff.mp (List.mem_map_of_mem hkv)
    exact List.any_eq_true.mpr ⟨kv.1, hmem, by simp⟩
  rw [Metadata.new, if_pos hall]
  simp (disch := decide) only [db.required_eq, Except.ok_bind, Except.pure_eq_ok]
  rfl

/-! ## The search tree -/

@[simp] theorem length_head : db.head.length =
    db.nodes.length * db.recordSize.nodeBytes + dataSectionSeparatorSize := by
  rw [Layout.head, List.length_append, length_packNodes, db.separator_length]

theorem readNode_eq {node : ℕ} (h : node < db.nodes.length) (right : Bool) :
    db.reader.readNode node right.toNat = .ok (side db.nodes[node] right) := by
  have hfile : db.file = packNodes db.recordSize db.nodes ++
      (db.separator ++ db.data ++ metadataStartMarker ++ db.metadataBytes) := by
    simp only [Layout.file, Layout.body, Layout.head, List.append_assoc]
  obtain ⟨hl, hr⟩ := db.records_lt _ (List.getElem_mem h)
  refine Reader.readNode_packed rfl db.reader_recordSize ?_ hl hr right
  rw [hfile]
  exact hasBytes_packNodes h _

/-- The reader walks the search tree that the nodes are. -/
theorem tree_walk (bs : List Bool) (node : ℕ) :
    (db.reader.tree db.nodes.length).walk bs node = db.trie.walk bs node := by
  have hcount : (db.reader.tree db.nodes.length).count = db.trie.count := rfl
  refine BitTrie.walk_of_child_eq hcount (fun node hn right => ?_) bs node
  have hn' : node < db.nodes.length := hn
  show db.reader.readNode node right.toNat = .ok (side (db.nodes.getD node (0, 0)) right)
  rw [db.readNode_eq hn', List.getD_eq_getElem _ _ hn']

theorem holds_of_walk {bs : List Bool} {leaf k : ℕ} (hw : db.trie.walk bs 0 = .ok (leaf, k))
    (hl : db.nodes.length ≤ leaf) : ∃ v, db.Holds leaf v := by
  rcases (BitTrie.reaches_of_walk hw).eq_or_child with h | ⟨node, hn, right, hc⟩
  · exact ⟨none, .inl ⟨by omega, rfl⟩⟩
  · have hn' : node < db.nodes.length := hn
    have hside : side db.nodes[node] right = leaf := by
      rw [← List.getD_eq_getElem _ (0, 0) hn']
      exact Except.ok.inj hc
    rcases db.records _ (List.getElem_mem hn') right with h | h
    · omega
    · rwa [hside] at h

/-! ## Opening -/

theorem hasBytes_marker : HasBytes db.file db.body.length metadataStartMarker :=
  hasBytes_append _ _ _

theorem decode_metadata :
    ∃ e, Settles (fun limit => Decoder.decode
      { buffer := (Buffer.ofBytes db.file).toSliceable
        pointerBase := db.body.length + metadataStartMarker.length } limit
        (db.body.length + metadataStartMarker.length))
      (.ok (.dict (dictOf db.metadata), e)) := by
  obtain ⟨e, he⟩ := db.metadata_encoded
  have h := settlesPart_of_encodesPart (he.embed (db.body ++ metadataStartMarker) [])
  rw [List.append_nil, List.length_append, Nat.add_zero] at h
  exact ⟨_, h⟩

theorem searchTreeSize_eq : db.metadataFields.searchTreeSize =
    .ok (.int (db.nodes.length * db.recordSize.nodeBytes : ℕ)) := by
  have hn : db.metadataFields.nodeCount = .int db.nodes.length := db.reader_nodeCount
  have hs : db.metadataFields.recordSize = .int db.recordSize.bits := db.reader_recordSize
  rw [Metadata.searchTreeSize_eq hs (by rw [hn, Record.asNum_int]), Nat.cast_mul]

/-- The loop of the constructor finds where the zero bits lead. -/
theorem ipv4Walk_eq (h : db.ipVersion = .v6) :
    db.reader.ipv4Walk (.int db.nodes.length) 96 0 = .ok db.reader.ipv4Start := by
  have hchild : ∀ node < db.trie.count, ∀ right, ∃ next, db.trie.child node right = .ok next :=
    fun _ _ _ => ⟨_, rfl⟩
  obtain ⟨leaf, k, hw⟩ := BitTrie.exists_walk hchild (List.replicate 96 false) 0
  rw [Reader.ipv4Walk_eq, tree_walk, hw]
  simp only [Except.ok_bind, reader, h, hw]

theorem load_settles (filename : String) :
    Settles (fun limit => Reader.load (.ofBytes db.file) filename limit
      (db.body.length + metadataStartMarker.length)) (.ok db.reader) := by
  obtain ⟨e, he⟩ := db.decode_metadata
  filter_upwards [he] with limit hlimit
  have hbase : (PyNum.int (db.nodes.length * db.recordSize.nodeBytes : ℕ)).add
      (.int dataSectionSeparatorSize) = .ok (.int db.head.length) := by
    rw [PyNum.add_int, length_head, Nat.cast_add]
  have hn : db.metadataFields.nodeCount = .int db.nodes.length := db.reader_nodeCount
  have hv : db.metadataFields.ipVersion = .int db.ipVersion.number := db.reader_ipVersion
  unfold Reader.load
  simp only [hlimit, Except.ok_bind, db.metadata_new, db.searchTreeSize_eq, hbase, hn, hv,
    Record.asNum_int, Record.eqInt_int, Except.pure_eq_ok]
  cases h : db.ipVersion with
  | v4 =>
    rw [if_neg (by simp [IPVersion.number])]
    simp [reader, h]
  | v6 =>
    have hwalk := db.ipv4Walk_eq h
    rw [if_pos (by simp [IPVersion.number])]
    rw [← Reader.ipv4Walk_withStart db.reader 0] at hwalk
    show (Reader.ipv4Walk { db.reader with ipv4Start := 0 } (.int db.nodes.length) 96 0 >>= _) = _
    rw [hwalk]
    rfl

/-- The same parts with more bytes behind the metadata. -/
def withTrailer (rest : Bytes) : Parts where
  toLayout := { db.toLayout with metadataBytes := db.metadataBytes ++ rest }
  records_lt := db.records_lt
  records := db.records
  bounded := db.bounded
  separator_length := db.separator_length
  metadata_encoded := by
    obtain ⟨e, he⟩ := db.metadata_encoded
    exact ⟨_, he.embed [] rest⟩
  metadata_keys := db.metadata_keys
  node_count := db.node_count
  record_size := db.record_size
  ip_version := db.ip_version

end Parts

namespace Database

variable (db : Database)

theorem rfind_marker :
    Octets.rfind db.file metadataStartMarker (db.file.length - 128 * 1024) =
      some db.body.length := by
  rw [rfind_eq_some (by decide)]
  exact ⟨db.marker_near_end, db.hasBytes_marker, fun j hj hb => by
    have := db.marker_last j hb
    omega⟩

theorem opens (filename : String) :
    Settles (fun limit => Reader.new (.ofBytes db.file) filename limit) (.ok db.reader) := by
  filter_upwards [db.load_settles filename] with limit hload
  have hfind : (Buffer.ofBytes db.file).rfind metadataStartMarker
      ((Buffer.ofBytes db.file).size - 128 * 1024) = .ok (some db.body.length) :=
    congrArg Except.ok db.rfind_marker
  rw [Reader.new_of_rfind_some hfind, hload]
  rfl

end Database

/-! ## Two small databases

One node whose right record points to a string, in the address space of IPv6. The left record is
empty, or it is `shared` with the right one. There is no IPv4 subtree. -/

namespace Sample

/-- A string of fewer than 29 bytes. -/
def writeStr (s : String) : Bytes := UInt8.ofNat (2 * 32 + (encodeUtf8 s).length) :: encodeUtf8 s

theorem header_direct {b : Bytes} {o s : ℕ} (c : UInt8) (type : FieldType) (h : HasBytes b o [c])
    (hc : c.toNat / 32 = type.num) (hs : c.toNat % 32 = s) (hl : s < 29) :
    HeaderAt b o type s (o + 1) := by
  subst hs
  exact ⟨c, _, .direct h hc, .inline hl⟩

theorem header_extended {b : Bytes} {o s : ℕ} (c x : UInt8) (type : FieldType)
    (h : HasBytes b o [c, x]) (hc : c.toNat / 32 = 0) (hx : x.toNat + 7 = type.num)
    (ht : 7 < type.num) (hs : c.toNat % 32 = s) (hl : s < 29) : HeaderAt b o type s (o + 2) := by
  subst hs
  exact ⟨c, _, .extended h hc ht hx, .inline hl⟩

theorem encodes_writeStr {b : Bytes} {p o : ℕ} {s : String} (h : HasBytes b o (writeStr s))
    (hs : (encodeUtf8 s).length < 29) : Encodes b p o (.str s) (o + (writeStr s).length) := by
  have hc : (UInt8.ofNat (2 * 32 + (encodeUtf8 s).length)).toNat =
      2 * 32 + (encodeUtf8 s).length := by
    rw [UInt8.toNat_ofNat']
    omega
  have hsplit : HasBytes b o ([UInt8.ofNat (2 * 32 + (encodeUtf8 s).length)] ++ encodeUtf8 s) := h
  obtain ⟨hcontrol, hbody⟩ := hasBytes_append_iff.mp hsplit
  have hheader : HeaderAt b o .utf8String (encodeUtf8 s).length (o + 1) :=
    header_direct _ .utf8String hcontrol (by rw [hc]; simp only [FieldType.num]; omega)
      (by rw [hc]; omega) hs
  have henc := EncodesPart.utf8String (p := p) hheader hbody
  rwa [Nat.add_assoc, Nat.add_comm 1] at henc

theorem item_writeStr {b : Bytes} {p o m e : ℕ} {k : String} {v : Record}
    {kvs : List (String × Record)} (h : HasBytes b o (writeStr k))
    (hk : (encodeUtf8 k).length < 29) (hv : Encodes b p (o + (writeStr k).length) v m)
    (hrest : EncodesPart b p m (.items kvs) e) : EncodesPart b p o (.items ((k, v) :: kvs)) e :=
  .item (encodes_writeStr h hk) hv hrest

theorem encodes_uint16 {b : Bytes} {p o : ℕ} (x : UInt8) (h : HasBytes b o [0xa1, x]) :
    Encodes b p o (.int x.toNat) (o + 2) := by
  have hsplit : HasBytes b o ([0xa1] ++ [x]) := h
  obtain ⟨hcontrol, hx⟩ := hasBytes_append_iff.mp hsplit
  have henc := EncodesPart.uint (p := p) (show FieldType.uint16.uintBytes = some 2 from rfl)
    (header_direct 0xa1 .uint16 hcontrol rfl rfl (by simp)) (by simp) hx
  rwa [beNat_singleton] at henc

def metadata : List (String × Record) :=
  [("binary_format_major_version", .int 2), ("binary_format_minor_version", .int 0),
    ("build_epoch", .int 0), ("database_type", .str "Test"), ("description", .dict []),
    ("ip_version", .int 6), ("languages", .list []), ("node_count", .int 1),
    ("record_size", .int 24)]

def metadataBytes : Bytes :=
  0xe9 :: (writeStr "binary_format_major_version" ++ [0xa1, 2] ++
    writeStr "binary_format_minor_version" ++ [0xa1, 0] ++ writeStr "build_epoch" ++ [0xa1, 0] ++
    writeStr "database_type" ++ writeStr "Test" ++ writeStr "description" ++ [0xe0] ++
    writeStr "ip_version" ++ [0xa1, 6] ++ writeStr "languages" ++ [0x00, 4] ++
    writeStr "node_count" ++ [0xa1, 1] ++ writeStr "record_size" ++ [0xa1, 24])

def layout (shared : Bool) : Layout where
  recordSize := .bits24
  ipVersion := .v6
  nodes := [(if shared then 17 else 1, 17)]
  separator := List.replicate 16 0
  data := writeStr "a"
  metadata := metadata
  metadataBytes := metadataBytes

theorem metadata_encoded : ∃ e, Encodes metadataBytes 0 0 (.dict (dictOf metadata)) e :=
  ⟨_, .map (header_direct 0xe9 .map (by decide +kernel) rfl rfl (by decide))
    (item_writeStr (by decide +kernel) (by decide +kernel) (encodes_uint16 2 (by decide +kernel))
    (item_writeStr (by decide +kernel) (by decide +kernel) (encodes_uint16 0 (by decide +kernel))
    (item_writeStr (by decide +kernel) (by decide +kernel) (encodes_uint16 0 (by decide +kernel))
    (item_writeStr (by decide +kernel) (by decide +kernel)
      (encodes_writeStr (by decide +kernel) (by decide +kernel))
    (item_writeStr (by decide +kernel) (by decide +kernel)
      (.map (header_direct 0xe0 .map (by decide +kernel) rfl rfl (by decide)) .noItems)
    (item_writeStr (by decide +kernel) (by decide +kernel) (encodes_uint16 6 (by decide +kernel))
    (item_writeStr (by decide +kernel) (by decide +kernel)
      (.array (header_extended 0 4 .array (by decide +kernel) rfl rfl (by decide) rfl (by decide))
        .noElements)
    (item_writeStr (by decide +kernel) (by decide +kernel) (encodes_uint16 1 (by decide +kernel))
    (item_writeStr (by decide +kernel) (by decide +kernel) (encodes_uint16 24 (by decide +kernel))
    .noItems)))))))))⟩

theorem encodes_data (shared : Bool) : Encodes (layout shared).data 0 0 (.str "a") 2 :=
  encodes_writeStr (by cases shared <;> decide +kernel) (by decide +kernel)

theorem holds_seventeen (shared : Bool) : (layout shared).Holds 17 (some (.str "a")) :=
  .inr ⟨0, .str "a", _, rfl, encodes_data shared, rfl⟩

theorem rfind_marker (shared : Bool) :
    Octets.rfind (layout shared).file metadataStartMarker 0 = some (layout shared).body.length := by
  cases shared <;> decide +kernel

/-- The record that the bits of an address lead to. -/
def record (shared right : Bool) : ℕ := if shared || right then 17 else 1

theorem walk_cons (shared b : Bool) (bs : List Bool) :
    (layout shared).trie.walk (b :: bs) 0 = .ok (record shared b, 1) :=
  (BitTrie.walk_cons_eq_ok (by cases shared <;> decide)).mpr
    ⟨record shared b, 0, by cases shared <;> cases b <;> rfl,
      BitTrie.walk_of_le _ (by cases shared <;> cases b <;> decide) _, rfl⟩

theorem records_lt (shared : Bool) : ∀ node ∈ (layout shared).nodes,
    node.1 < 2 ^ (layout shared).recordSize.bits ∧ node.2 < 2 ^ (layout shared).recordSize.bits := by
  cases shared <;> decide

theorem records (shared : Bool) : ∀ node ∈ (layout shared).nodes, ∀ right,
    side node right < (layout shared).nodes.length ∨
      ∃ v, (layout shared).Holds (side node right) v := by
  intro node hnode right
  obtain rfl : node = (if shared then 17 else 1, 17) := List.mem_singleton.mp hnode
  cases shared <;> cases right <;>
    first | exact .inr ⟨_, holds_seventeen _⟩ | exact .inr ⟨none, .inl ⟨rfl, rfl⟩⟩

theorem bounded (shared : Bool) :
    (layout shared).trie.Bounded (layout shared).ipVersion.bits 0 := by
  intro bs hbs
  cases bs with
  | nil => cases hbs
  | cons b bs => exact ⟨_, _, walk_cons shared b bs, by cases shared <;> cases b <;> decide⟩

theorem mem_metadata : ("node_count", .int 1) ∈ metadata ∧ ("record_size", .int 24) ∈ metadata ∧
    ("ip_version", .int 6) ∈ metadata := by
  simp [metadata]

theorem marker_last (shared : Bool) : ∀ i, HasBytes (layout shared).file i metadataStartMarker →
    i ≤ (layout shared).body.length := by
  intro i hi
  by_contra hlt
  exact ((rfind_eq_some (by decide)).mp (rfind_marker shared)).2.2 i (by omega) hi

theorem marker_near_end (shared : Bool) :
    (layout shared).file.length - 128 * 1024 ≤ (layout shared).body.length := by
  cases shared <;> decide +kernel

def database (shared : Bool) : Database where
  toLayout := layout shared
  records_lt := records_lt shared
  records := records shared
  bounded := bounded shared
  separator_length := rfl
  metadata_encoded := metadata_encoded
  metadata_keys := .refl _
  node_count := mem_metadata.1
  record_size := mem_metadata.2.1
  ip_version := mem_metadata.2.2
  marker_last := marker_last shared
  marker_near_end := marker_near_end shared

theorem database_opens (shared : Bool) (filename : String) :
    ∃ limit, Reader.new (.ofBytes (database shared).file) filename limit =
      .ok (database shared).reader :=
  ((database shared).opens filename).exists

end Sample

/-! ## Looking up -/

namespace Parts

variable (db : Parts)

/-- A record that points into the data section is resolved to the value encoded there. -/
theorem resolve_settles {d e : ℕ} {v : Record} (h : Encodes db.data 0 d v e) :
    Settles (fun limit => db.reader.resolveDataPointer limit
      (db.nodes.length + dataSectionSeparatorSize + d)) (.ok v) := by
  have hdec := settlesPart_of_encodesPart (h.embed db.head (metadataStartMarker ++ db.metadataBytes))
  have hfile : db.head ++ db.data ++ (metadataStartMarker ++ db.metadataBytes) = db.file := by
    simp only [Layout.file, Layout.body, List.append_assoc]
  rw [hfile, Nat.add_zero] at hdec
  have hlt : db.head.length + d < db.file.length := by
    have := lt_length_of_encodes h
    rw [← hfile, List.length_append, List.length_append]
    omega
  filter_upwards [hdec] with limit hlimit
  have hsize : db.reader.metadata.searchTreeSize =
      .ok (.int (db.nodes.length * db.recordSize.nodeBytes : ℕ)) := db.searchTreeSize_eq
  have hresolved : ((db.nodes.length + dataSectionSeparatorSize + d : ℕ) : ℤ) - db.nodes.length +
      (db.nodes.length * db.recordSize.nodeBytes : ℕ) = (db.head.length + d : ℕ) := by
    rw [length_head]
    push_cast
    ring
  have hin : (PyNum.int db.reader.buffer.size).le (.int (db.head.length + d : ℕ)) = false := by
    have h : db.reader.buffer.size = db.file.length := rfl
    rw [h, PyNum.le_int, decide_eq_false_iff_not]
    omega
  have hat : db.reader.decodeAt limit (.int (db.head.length + d : ℕ)) = .ok (v, db.head.length + e) :=
    hlimit
  simp only [Reader.resolveDataPointer, reader_nodeCount, Record.asNum_int, Except.ok_bind,
    PyNum.sub_int, hsize, PyNum.add_int, hresolved, hin, hat, Bool.false_eq_true, if_false,
    Except.pure_eq_ok]

/-- A lookup returns what the record stands for that the bits of the address lead to. -/
theorem get_settles {a : IPAddress} (ha : a.version = db.ipVersion) {leaf p : ℕ}
    (hw : db.trie.walk a.toBits 0 = .ok (leaf, p)) {v : Option Record} (hv : db.Holds leaf v) :
    Settles (fun limit => db.reader.getWithPrefixLen limit a) (.ok (v, p)) := by
  have hget : ∀ limit, db.reader.getWithPrefixLen limit a =
      db.reader.answer db.nodes.length limit (leaf, p) := by
    intro limit
    have hstart : db.reader.startNode a.version.bits = 0 := by
      rw [Reader.startNode, reader_ipVersion, ha]
      cases db.ipVersion <;> simp [IPVersion.number]
    have hversion : ¬ (a.version = .v6 ∧ db.reader.metadata.ipVersion.eqInt 4) := by
      rw [reader_ipVersion, ha]
      cases db.ipVersion <;> simp [IPVersion.number]
    rw [Reader.getWithPrefixLen_eq db.reader_hasNodeCount, if_neg hversion, hstart, tree_walk, hw]
    rfl
  simp only [hget]
  rcases hv with ⟨rfl, rfl⟩ | ⟨d, v, e, rfl, henc, rfl⟩
  · simpa [Reader.answer] using settles_const _
  · have hgt : ¬ db.nodes.length + dataSectionSeparatorSize + d < db.nodes.length := by omega
    have hne : db.nodes.length + dataSectionSeparatorSize + d ≠ db.nodes.length := by
      have : dataSectionSeparatorSize = 16 := rfl
      omega
    simp only [Reader.answer, if_neg hgt, if_neg hne]
    exact Settles.bind_ok (db.resolve_settles henc) (settles_const _)

end Parts

namespace Database

variable (db : Database)

/-- **Whole-file lookup is longest-prefix match.** A reader opens the file. Following the bits of an
address of the version of the database from node 0 leads, after `p` bits, to a record that the
database holds, and the lookup returns what it stands for, with `p`. -/
theorem lookup_longestPrefix (filename : String) :
    Settles (fun limit => Reader.new (.ofBytes db.file) filename limit) (.ok db.reader) ∧
    ∀ a : IPAddress, a.version = db.ipVersion →
      ∃ leaf p, db.trie.walk a.toBits 0 = .ok (leaf, p) ∧ (∃ v, db.Holds leaf v) ∧
        ∀ v, db.Holds leaf v →
          Settles (fun limit => db.reader.getWithPrefixLen limit a) (.ok (v, p)) := by
  refine ⟨db.opens filename, fun a ha => ?_⟩
  obtain ⟨leaf, p, hw, hl⟩ := db.bounded a.toBits (by rw [IPAddress.length_toBits, ha])
  exact ⟨leaf, p, hw, db.holds_of_walk hw hl, fun v hv => db.get_settles ha hw hv⟩

end Database

namespace Sample

/-- `8000::` -/
def address : IPAddress := ⟨.v6, 2 ^ 127, by simp⟩

theorem walk_address (shared : Bool) :
    (database shared).trie.walk address.toBits 0 = .ok (17, 1) := by
  have h : address.toBits = true :: toBits 127 (2 ^ 127) := by
    show Nat.testBit (2 ^ 127) 127 :: toBits 127 (2 ^ 127) = _
    rw [Nat.testBit_two_pow_self]
  rw [h]
  cases shared <;> exact walk_cons _ true (toBits 127 (2 ^ 127))

theorem resolve_seventeen (shared : Bool) :
    Settles (fun limit => (database shared).reader.resolveDataPointer limit 17)
      (.ok (.str "a")) := (database shared).resolve_settles (d := 0) (encodes_data shared)

theorem get_address (shared : Bool) :
    Settles (fun limit => (database shared).reader.getWithPrefixLen limit address)
      (.ok (some (.str "a"), 1)) :=
  (database shared).get_settles rfl (walk_address shared) (holds_seventeen shared)

theorem lookup_address :
    Settles (fun limit => (database false).reader.getWithPrefixLen limit address)
      (.ok (some (.str "a"), 1)) := by
  obtain ⟨leaf, p, hw, -, h⟩ := ((database false).lookup_longestPrefix "Test.mmdb").2 address rfl
  rw [walk_address] at hw
  cases hw
  exact h _ (holds_seventeen false)

theorem ipv4Start_eq (shared : Bool) :
    (database shared).reader.ipv4Start = record shared false := by
  have h : (database shared).trie.walk (List.replicate 96 false) 0 =
      .ok (record shared false, 1) := walk_cons shared false _
  have hv : (database shared).ipVersion = .v6 := rfl
  simp only [Parts.reader, hv, h]

theorem tree_child (shared b : Bool) :
    ((database shared).reader.tree 1).child 0 b = .ok (record shared b) := by
  have h : 0 < (database shared).nodes.length := Nat.zero_lt_one
  refine ((database shared).readNode_eq h b).trans ?_
  cases shared <;> cases b <;> rfl

theorem tree_walk (shared b : Bool) (bs : List Bool) :
    ((database shared).reader.tree 1).walk (b :: bs) 0 = .ok (record shared b, 1) :=
  ((database shared).tree_walk (b :: bs) 0).trans (walk_cons shared b bs)

end Sample

end MaxMindDB
