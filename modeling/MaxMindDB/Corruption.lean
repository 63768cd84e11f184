import MaxMindDB.FileMode
import MaxMindDB.Walking

/-!
# Corrupt databases

Whatever the bytes of a database are, opening it and looking up an address of a version it supports
should return, or raise `InvalidDatabaseError` (or `UnicodeDecodeError`, for a string). No site that
reads the file converts its own failure, so the other exceptions of these reads escape as they are.

`reportsCorruption_iff`: they do not escape exactly when what the lookup comes to can be read
(`Orderly`): the metadata behind the marker, its nine fields, the records on the way down the
search tree, and the field that the last of them points to.
-/

namespace MaxMindDB

open Octets Raising Except

namespace Reader

variable {r : Reader} {b : Bytes}

/-! ## Lookups -/

/-- The version of the address is not refused: only an IPv6 address in a database of IPv4 ones is. -/
def Supports (r : Reader) (a : IPAddress) : Prop :=
  ¬ (a.version = .v6 ∧ r.metadata.ipVersion.eqInt 4)

/-- What a record points to can be read, or is behind the end of the file, which is reported. -/
def Resolves (r : Reader) (b : Bytes) (pointer : ℕ) : Prop :=
  ∃ resolved, r.dataOffset pointer = .ok resolved ∧
    ((PyNum.int b.length).le resolved ∨
      ∃ o base : ℕ, resolved = .int o ∧ r.decoderBase = .int base ∧
        ∃ out, Reads b base .field o out)

/-- What the lookup of an address comes to can be read. -/
def LooksUp (r : Reader) (b : Bytes) (a : IPAddress) : Prop :=
  ∃ nodeCount, r.metadata.nodeCount.asNum = .ok nodeCount ∧
    ∃ out, Walks r b (fun node => !(PyNum.int node).lt nodeCount) a.toBits
        (r.startNode a.version.bits) out ∧
      ∀ leaf, out = some leaf → nodeCount.lt (.int leaf) → leaf ≠ 0 → r.Resolves b leaf

theorem exists_of_decodeAt {limit : ℕ} {resolved : PyNum} {out : Option (Record × ℕ)}
    (hb : r.buffer = .ofBytes b) (h : Allows Exc.Reported (r.decodeAt limit resolved) out) :
    ∃ o base : ℕ, resolved = .int o ∧ r.decoderBase = .int base ∧ Reads b base .field o out := by
  unfold decodeAt at h
  rw [hb] at h
  split at h
  · exact absurd (allows_error.mp h).1 id
  · exact ⟨_, _, rfl, by assumption, reads_of_decode h⟩
  · exact absurd (allows_error.mp h).1 id

theorem resolves_of_allows (hb : r.buffer = .ofBytes b) {limit pointer : ℕ} {out : Option Record}
    (h : Allows Exc.Reported (r.resolveDataPointer limit pointer) out) : r.Resolves b pointer := by
  rw [resolveDataPointer_eq, hb, Buffer.ofBytes_size] at h
  rcases allows_bind.mp h with ⟨hnone, -⟩ | ⟨resolved, hresolved, h⟩
  · exact absurd hnone (not_reported (raisesOnly_dataOffset _ _))
  · refine ⟨resolved, hresolved, ?_⟩
    split_ifs at h with hle
    · exact .inl hle
    · obtain ⟨out', h'⟩ := (exists_allows_map _).mp ⟨_, h⟩
      obtain ⟨o, base, ho, hbase, hreads⟩ := exists_of_decodeAt hb h'
      exact .inr ⟨o, base, ho, hbase, out', hreads⟩

theorem eventually_of_resolves (hb : r.buffer = .ofBytes b) {pointer : ℕ}
    (h : r.Resolves b pointer) :
    ∀ᶠ limit in Filter.atTop,
      ∃ out, Allows Exc.Reported (r.resolveDataPointer limit pointer) out := by
  obtain ⟨resolved, hresolved, h⟩ := h
  simp only [resolveDataPointer_eq, hb, Buffer.ofBytes_size, hresolved, ok_bind]
  split_ifs with hle
  · exact Filter.Eventually.of_forall fun _ => ⟨none, .raises trivial⟩
  · rcases h with h | ⟨o, base, rfl, hbase, out, hreads⟩
    · exact absurd h hle
    · filter_upwards [eventually_of_reads hreads] with limit hlimit
      refine (exists_allows_map _).mpr ⟨out, ?_⟩
      unfold decodeAt
      rw [hb, hbase]
      exact hlimit

/-- A lookup is a walk and, behind the nodes, a record that is resolved. -/
theorem getWithPrefixLen_of_nodeCount {a : IPAddress} {nodeCount : PyNum}
    (hv : r.Supports a) (hn : r.metadata.nodeCount.asNum = .ok nodeCount) (limit : ℕ) :
    (r.getWithPrefixLen limit a).map Prod.fst =
      (r.findLoop nodeCount a.packed a.version.bits a.version.bits
        (r.startNode a.version.bits) 0).map Prod.fst >>= fun leaf =>
        if (PyNum.int leaf).eq nodeCount then .ok none
        else if nodeCount.lt (.int leaf) then
          if leaf ≠ 0 then (r.resolveDataPointer limit leaf).map some else .ok none
        else .error (.invalidDatabaseError .invalidNode) := by
  unfold getWithPrefixLen
  rw [if_neg hv, findAddressInTree_of_nodeCount hn]
  cases r.findLoop nodeCount a.packed a.version.bits a.version.bits
    (r.startNode a.version.bits) 0 with
  | error e => rfl
  | ok p =>
    obtain ⟨leaf, i⟩ := p
    by_cases heq : (PyNum.int leaf).eq nodeCount
    · simp [heq, Except.map]
    · by_cases hlt : nodeCount.lt (.int leaf)
      · cases leaf with
        | zero => simp_all [Except.map]
        | succ leaf =>
          cases h : r.resolveDataPointer limit (leaf + 1) <;> simp_all [Except.map]
      · simp [heq, hlt, Except.map]

theorem allows_lookupWalk (hb : r.buffer = .ofBytes b) (a : IPAddress) (nodeCount : PyNum)
    {out : Option ℕ} :
    Allows Exc.Reported ((r.findLoop nodeCount a.packed a.version.bits a.version.bits
        (r.startNode a.version.bits) 0).map Prod.fst) out ↔
      Walks r b (fun node => !(PyNum.int node).lt nodeCount) a.toBits
        (r.startNode a.version.bits) out := by
  rw [allows_findLoop hb a nodeCount a.version.bits 0 (Nat.zero_add _), List.drop_zero]

/-- **A lookup that returns or reports comes only to what can be read.** -/
theorem looksUp_of_allows (hb : r.buffer = .ofBytes b) {a : IPAddress} {limit : ℕ}
    {out : Option (Option Record × ℕ)} (hv : r.Supports a)
    (h : Allows Exc.Reported (r.getWithPrefixLen limit a) out) : r.LooksUp b a := by
  cases hn : r.metadata.nodeCount.asNum with
  | error e =>
    unfold getWithPrefixLen findAddressInTree at h
    rw [if_neg hv, hn] at h
    exact absurd (allows_none.mpr ⟨e, hn, (allows_error.mp h).1⟩) (not_reported (raisesOnly_asNum _))
  | ok nodeCount =>
    refine ⟨nodeCount, hn, ?_⟩
    obtain ⟨out', h'⟩ := (exists_allows_map Prod.fst).mpr ⟨_, h⟩
    rw [getWithPrefixLen_of_nodeCount hv hn] at h'
    rcases allows_bind.mp h' with ⟨hnone, -⟩ | ⟨leaf, hleaf, h'⟩
    · refine ⟨none, (allows_lookupWalk hb a nodeCount).mp hnone, fun leaf hleaf => ?_⟩
      cases hleaf
    · refine ⟨some leaf, (allows_lookupWalk hb a nodeCount).mp (allows_some.mpr hleaf), ?_⟩
      intro leaf' heq hlt h0
      cases heq
      rw [PyNum.eq_swap, PyNum.eq_false_of_lt hlt, if_neg Bool.false_ne_true, if_pos hlt,
        if_pos h0] at h'
      obtain ⟨out'', h''⟩ := (exists_allows_map _).mp ⟨_, h'⟩
      exact resolves_of_allows hb h''

/-- **A lookup that comes only to what can be read returns or reports.** -/
theorem eventually_of_looksUp (hb : r.buffer = .ofBytes b) {a : IPAddress}
    (hv : r.Supports a) (h : r.LooksUp b a) :
    ∀ᶠ limit in Filter.atTop, ∃ out, Allows Exc.Reported (r.getWithPrefixLen limit a) out := by
  obtain ⟨nodeCount, hn, out, hwalk, hresolves⟩ := h
  have hloop := (allows_lookupWalk hb a nodeCount).mpr hwalk
  -- what the lookup does at the record it arrives at
  have hanswer : ∀ leaf, out = some leaf → ∀ᶠ limit in Filter.atTop, ∃ out',
      Allows Exc.Reported (if (PyNum.int leaf).eq nodeCount then .ok none
        else if nodeCount.lt (.int leaf) then
          if leaf ≠ 0 then (r.resolveDataPointer limit leaf).map some else .ok none
        else .error (.invalidDatabaseError .invalidNode)) out' := by
    intro leaf hleaf
    split_ifs with heq hlt h0
    · exact Filter.Eventually.of_forall fun _ => ⟨_, .returns _⟩
    · filter_upwards [eventually_of_resolves hb (hresolves leaf hleaf hlt h0)] with limit hlimit
      exact (exists_allows_map _).mpr hlimit
    · exact Filter.Eventually.of_forall fun _ => ⟨_, .returns _⟩
    · exact Filter.Eventually.of_forall fun _ => ⟨_, .raises trivial⟩
  cases out with
  | none =>
    refine Filter.Eventually.of_forall fun limit => (exists_allows_map Prod.fst).mp ⟨none, ?_⟩
    rw [getWithPrefixLen_of_nodeCount hv hn]
    exact allows_bind.mpr (.inl ⟨hloop, rfl⟩)
  | some leaf =>
    filter_upwards [hanswer leaf rfl] with limit hlimit
    obtain ⟨out', h'⟩ := hlimit
    refine (exists_allows_map Prod.fst).mp ⟨out', ?_⟩
    rw [getWithPrefixLen_of_nodeCount hv hn]
    exact allows_bind.mpr (.inr ⟨leaf, allows_some.mp hloop, h'⟩)

end Reader

/-! ## Opening -/

namespace Metadata

/-- Nine fields are required, and no others allowed. -/
structure HasFields (items : List (Record × Record)) : Prop where
  known : ∀ item ∈ items, ∃ name ∈ fields, item.1.keyEq (.str name)
  present : ∀ name ∈ fields, ∃ v, dictGet items name = some v

/-- The metadata of a map that has the fields. -/
def ofDict (items : List (Record × Record)) : Metadata :=
  let field (name : String) : Record := (dictGet items name).getD (.int 0)
  { binaryFormatMajorVersion := field "binary_format_major_version"
    binaryFormatMinorVersion := field "binary_format_minor_version"
    buildEpoch := field "build_epoch"
    databaseType := field "database_type"
    description := field "description"
    ipVersion := field "ip_version"
    languages := field "languages"
    nodeCount := field "node_count"
    recordSize := field "record_size" }

variable {items : List (Record × Record)}

theorem required_eq_ok {name : String} {v : Record} :
    required items name = .ok v ↔ dictGet items name = some v := by
  unfold required
  cases dictGet items name <;> simp

theorem not_allows_required (name : String) : ¬ Allows Exc.Reported (required items name) none := by
  intro h
  unfold required at h
  split at h
  · exact not_allows_ok h
  · exact (allows_error.mp h).1

theorem all_known_iff :
    (items.all fun item => fields.any fun name => item.1.keyEq (.str name)) = true ↔
      ∀ item ∈ items, ∃ name ∈ fields, item.1.keyEq (.str name) := by
  simp only [List.all_eq_true, List.any_eq_true]

theorem allows_new {out : Option Metadata} :
    Allows Exc.Reported (new items) out ↔ HasFields items ∧ out = some (ofDict items) := by
  constructor
  · intro h
    unfold new at h
    split_ifs at h with hall
    · cases out with
      | none =>
        refine absurd h ?_
        iterate 9 refine not_allows_bind (not_allows_required _) fun _ => ?_
        exact not_allows_ok
      | some m =>
        have h := allows_some.mp h
        obtain ⟨major, h1, h⟩ := bind_eq_ok.mp h
        obtain ⟨minor, h2, h⟩ := bind_eq_ok.mp h
        obtain ⟨epoch, h3, h⟩ := bind_eq_ok.mp h
        obtain ⟨type, h4, h⟩ := bind_eq_ok.mp h
        obtain ⟨description, h5, h⟩ := bind_eq_ok.mp h
        obtain ⟨version, h6, h⟩ := bind_eq_ok.mp h
        obtain ⟨languages, h7, h⟩ := bind_eq_ok.mp h
        obtain ⟨count, h8, h⟩ := bind_eq_ok.mp h
        obtain ⟨size, h9, h⟩ := bind_eq_ok.mp h
        cases h
        rw [required_eq_ok] at h1 h2 h3 h4 h5 h6 h7 h8 h9
        refine ⟨⟨all_known_iff.mp hall, fun name hname => ?_⟩, ?_⟩
        · simp only [fields, List.mem_cons, List.not_mem_nil, or_false] at hname
          rcases hname with rfl | rfl | rfl | rfl | rfl | rfl | rfl | rfl | rfl
          all_goals exact ⟨_, by assumption⟩
        · simp only [ofDict, h1, h2, h3, h4, h5, h6, h7, h8, h9, Option.getD_some]
    · exact absurd (allows_error.mp h).1 id
  · rintro ⟨⟨hknown, hpresent⟩, rfl⟩
    have hrequired : ∀ name ∈ fields,
        required items name = .ok ((dictGet items name).getD (.int 0)) := by
      intro name hname
      obtain ⟨v, hv⟩ := hpresent name hname
      rw [required_eq_ok, hv, Option.getD_some]
    rw [allows_some, new, if_pos (all_known_iff.mpr hknown)]
    simp (disch := decide) only [hrequired, ok_bind, pure_eq_ok]
    rfl

end Metadata

namespace Reader

/-- The constructor behind the metadata map. -/
def ofMetadata (buffer : Buffer) (items : List (Record × Record)) : Except Exc Reader := do
  let metadata ← Metadata.new items
  let decoderBase ← (← metadata.searchTreeSize).add (.int dataSectionSeparatorSize)
  let reader : Reader := { buffer, metadata, decoderBase, ipv4Start := 0 }
  if metadata.ipVersion.eqInt 6 then
    return { reader with ipv4Start := ← reader.ipv4Walk (← metadata.nodeCount.asNum) 96 0 }
  else return reader

theorem load_eq (buffer : Buffer) (filename : String) (limit start : ℕ) :
    load buffer filename limit start =
      Decoder.decode { buffer := buffer.toSliceable, pointerBase := start } limit start >>= fun x =>
        match x.1 with
        | .dict items => ofMetadata buffer items
        | _ => .error (.invalidDatabaseError (.readingMetadata filename)) := rfl

/-- The reader of a file with the given metadata. -/
def ofFields (f : Bytes) (items : List (Record × Record)) (decoderBase : PyNum) (ipv4Start : ℕ) :
    Reader where
  buffer := .ofBytes f
  metadata := .ofDict items
  decoderBase := decoderBase
  ipv4Start := ipv4Start

/-- The file can be opened with the metadata, and has the reader `out`, or a record on the way to
the IPv4 addresses is reported. -/
inductive Opens (f : Bytes) (items : List (Record × Record)) : Option Reader → Prop where
  | plain {size base : PyNum} : Metadata.HasFields items →
      (Metadata.ofDict items).searchTreeSize = .ok size →
      size.add (.int dataSectionSeparatorSize) = .ok base →
      (Metadata.ofDict items).ipVersion.eqInt 6 = false → Opens f items (some (ofFields f items base 0))
  | ipv6 {size base nodeCount : PyNum} {out : Option ℕ} : Metadata.HasFields items →
      (Metadata.ofDict items).searchTreeSize = .ok size →
      size.add (.int dataSectionSeparatorSize) = .ok base →
      (Metadata.ofDict items).ipVersion.eqInt 6 →
      (Metadata.ofDict items).nodeCount.asNum = .ok nodeCount →
      Walks (ofFields f items base 0) f (fun node => nodeCount.le (.int node))
        (List.replicate 96 false) 0 out →
      Opens f items (out.map (ofFields f items base))

theorem allows_ofMetadata {f : Bytes} {items : List (Record × Record)} {out : Option Reader} :
    Allows Exc.Reported (ofMetadata (.ofBytes f) items) out ↔ Opens f items out := by
  constructor
  · intro h
    unfold ofMetadata at h
    rcases allows_bind.mp h with ⟨hnone, -⟩ | ⟨m, hm, h⟩
    · cases (Metadata.allows_new.mp hnone).2
    obtain ⟨hfields, hm⟩ := Metadata.allows_new.mp (allows_some.mpr hm)
    cases hm
    rcases allows_bind.mp h with ⟨hnone, -⟩ | ⟨size, hsize, h⟩
    · exact absurd hnone (not_reported (raisesOnly_searchTreeSize _))
    rcases allows_bind.mp h with ⟨hnone, -⟩ | ⟨base, hbase, h⟩
    · exact absurd hnone (not_reported (raisesOnly_arith _ _))
    dsimp only at h
    split_ifs at h with h6
    · rcases allows_bind.mp h with ⟨hnone, -⟩ | ⟨nodeCount, hcount, h⟩
      · exact absurd hnone (not_reported (raisesOnly_asNum _))
      rcases allows_bind.mp h with ⟨hnone, rfl⟩ | ⟨start, hstart, h⟩
      · exact .ipv6 hfields hsize hbase h6 hcount ((allows_ipv4Walk rfl nodeCount 96).mp hnone)
      · obtain rfl := allows_ok.mp h
        exact .ipv6 hfields hsize hbase h6 hcount
          ((allows_ipv4Walk rfl nodeCount 96).mp (allows_some.mpr hstart))
    · obtain rfl := allows_ok.mp h
      exact .plain hfields hsize hbase (Bool.eq_false_iff.mpr h6)
  · intro h
    unfold ofMetadata
    cases h with
    | plain hfields hsize hbase h6 =>
      rw [allows_some.mp (Metadata.allows_new.mpr ⟨hfields, rfl⟩), ok_bind, hsize, ok_bind, hbase,
        ok_bind]
      dsimp only
      rw [h6, if_neg Bool.false_ne_true]
      exact .returns _
    | @ipv6 size base nodeCount out hfields hsize hbase h6 hcount hwalk =>
      rw [allows_some.mp (Metadata.allows_new.mpr ⟨hfields, rfl⟩), ok_bind, hsize, ok_bind, hbase,
        ok_bind]
      dsimp only
      rw [if_pos h6, hcount, ok_bind]
      have hstart := (allows_ipv4Walk (r := ofFields f items base 0) rfl nodeCount 96).mpr hwalk
      cases out with
      | none => exact allows_bind.mpr (.inl ⟨hstart, rfl⟩)
      | some start => exact allows_bind.mpr (.inr ⟨start, allows_some.mp hstart, .returns _⟩)

theorem Opens.buffer_eq {f : Bytes} {items : List (Record × Record)}
    (h : Opens f items (some r)) : r.buffer = .ofBytes f := by
  generalize hout : some r = opened at h
  cases h with
  | plain => cases hout; rfl
  | @ipv6 _ _ _ out =>
    cases out with
    | none => cases hout
    | some start => cases hout; rfl

/-- The metadata at `start` can be read, and the file can be opened with it; or it is reported that
it cannot, as when it is no map. -/
inductive Loads (f : Bytes) (start : ℕ) : Option Reader → Prop where
  | reported {out : Option (Record × ℕ)} : Reads f start .field start out →
      (∀ items e, out ≠ some (.dict items, e)) → Loads f start none
  | metadata {items : List (Record × Record)} {e : ℕ} {out : Option Reader} :
      Reads f start .field start (some (.dict items, e)) → Opens f items out → Loads f start out

theorem Loads.buffer_eq {f : Bytes} {start : ℕ} (h : Loads f start (some r)) :
    r.buffer = .ofBytes f := by
  cases h with
  | metadata _ hopens => exact hopens.buffer_eq

section Load

variable {f : Bytes} {filename : String} {start limit : ℕ} {out : Option Reader}

theorem allows_load : Allows Exc.Reported (load (.ofBytes f) filename limit start) out ↔
    ∃ x, Allows Exc.Reported ((Decoder.ofBytes f start).decode limit start) x ∧
      ((∀ items e, x ≠ some (.dict items, e)) ∧ out = none ∨
        ∃ items e, x = some (.dict items, e) ∧ Opens f items out) := by
  rw [load_eq, allows_bind]
  constructor
  · rintro (⟨hnone, rfl⟩ | ⟨⟨v, e⟩, hv, h⟩)
    · exact ⟨none, hnone, .inl ⟨by simp, rfl⟩⟩
    · refine ⟨some (v, e), allows_some.mpr hv, ?_⟩
      cases v with
      | dict items => exact .inr ⟨items, e, rfl, allows_ofMetadata.mp h⟩
      | _ => exact .inl ⟨by simp, (allows_error.mp h).2⟩
  · rintro ⟨x, hx, h⟩
    cases x with
    | none =>
      rcases h with ⟨-, rfl⟩ | ⟨items, e, hx, -⟩
      · exact .inl ⟨hx, rfl⟩
      · cases hx
    | some x =>
      refine .inr ⟨x, allows_some.mp hx, ?_⟩
      obtain ⟨v, e⟩ := x
      rcases h with ⟨hdict, rfl⟩ | ⟨items, e, heq, h⟩
      · cases v with
        | dict items => exact absurd rfl (hdict items e)
        | _ => exact .raises trivial
      · cases heq
        exact allows_ofMetadata.mpr h

theorem loads_of_allows (h : Allows Exc.Reported (load (.ofBytes f) filename limit start) out) :
    Loads f start out := by
  obtain ⟨x, hx, ⟨hdict, rfl⟩ | ⟨items, e, rfl, hopens⟩⟩ := allows_load.mp h
  · exact .reported (reads_of_decode hx) hdict
  · exact .metadata (reads_of_decode hx) hopens

theorem eventually_of_loads (h : Loads f start out) (filename : String) :
    ∀ᶠ limit in Filter.atTop,
      Allows Exc.Reported (load (.ofBytes f) filename limit start) out := by
  cases h with
  | reported hreads hdict =>
    filter_upwards [eventually_of_reads hreads] with limit hlimit
    exact allows_load.mpr ⟨_, hlimit, .inl ⟨hdict, rfl⟩⟩
  | metadata hreads hopens =>
    filter_upwards [eventually_of_reads hreads] with limit hlimit
    exact allows_load.mpr ⟨_, hlimit, .inr ⟨_, _, rfl, hopens⟩⟩

end Load

end Reader

/-! ## Opening and looking up -/

/-- Opening the bytes in `MODE_MEMORY` and looking up the address returns or reports, unless the
interpreter allows too few nested calls. -/
def ReportsCorruption (f : Bytes) (filename : String) (a : IPAddress) : Prop :=
  ∀ᶠ limit in Filter.atTop,
    (∀ e, Reader.new (.ofBytes f) filename limit = .error e → e.exception.Reported) ∧
      ∀ r, Reader.new (.ofBytes f) filename limit = .ok r → r.Supports a →
        ∀ e, r.getWithPrefixLen limit a = .error e → e.Reported

/-- What opening the bytes and looking up the address comes to can be read. -/
def Orderly (f : Bytes) (a : IPAddress) : Prop :=
  ∀ start, Octets.rfind f metadataStartMarker (f.length - 128 * 1024) = some start →
    ∃ out, Reader.Loads f (start + metadataStartMarker.length) out ∧
      ∀ r, out = some r → r.Supports a → r.LooksUp f a

section

variable {f : Bytes} {filename : String} {a : IPAddress} {start limit : ℕ}

theorem allows_load_iff (hstart : Octets.rfind f metadataStartMarker (f.length - 128 * 1024) =
    some start) {out : Option Reader} :
    Allows Exc.Reported (Reader.load (.ofBytes f) filename limit
        (start + metadataStartMarker.length)) out ↔
      (∀ e, Reader.new (.ofBytes f) filename limit = .error e → e.exception.Reported) ∧
        ∀ r, Reader.new (.ofBytes f) filename limit = .ok r ↔ out = some r := by
  rw [new_ofBytes hstart]
  cases Reader.load (.ofBytes f) filename limit (start + metadataStartMarker.length) with
  | error e =>
    rw [allows_error]
    cases out <;> simp [Except.mapError]
  | ok r =>
    rw [allows_ok]
    cases out <;> simp [Except.mapError, eq_comm]

/-- What a constructor that returns or reports, and the lookup behind it, come to can be read. -/
theorem orderly_of_reports
    (hopen : ∀ e, Reader.new (.ofBytes f) filename limit = .error e → e.exception.Reported)
    (hlookup : ∀ r, Reader.new (.ofBytes f) filename limit = .ok r → r.Supports a →
      ∀ e, r.getWithPrefixLen limit a = .error e → e.Reported) : Orderly f a := by
  intro start hstart
  obtain ⟨out, hload⟩ : ∃ out, Allows Exc.Reported
      (Reader.load (.ofBytes f) filename limit (start + metadataStartMarker.length)) out := by
    refine exists_allows.mpr fun e he => hopen ⟨e, false⟩ ?_
    rw [new_ofBytes hstart, he]
    rfl
  have hloads := Reader.loads_of_allows hload
  refine ⟨out, hloads, ?_⟩
  rintro r rfl hv
  have hnew := ((allows_load_iff hstart).mp hload).2 r
  obtain ⟨out, hout⟩ := exists_allows.mpr (hlookup r (hnew.mpr rfl) hv)
  exact Reader.looksUp_of_allows hloads.buffer_eq hv hout

/-- What can be read is opened and looked up, or reported. -/
theorem reports_of_orderly (h : Orderly f a) : ReportsCorruption f filename a := by
  cases hfind : Octets.rfind f metadataStartMarker (f.length - 128 * 1024) with
  | none =>
    have hnone : (Buffer.ofBytes f).rfind metadataStartMarker
        ((Buffer.ofBytes f).size - 128 * 1024) = .ok none := congrArg Except.ok hfind
    refine Filter.Eventually.of_forall fun limit => ?_
    rw [Reader.new_of_rfind_none hnone]
    refine ⟨?_, ?_⟩
    · rintro e ⟨⟩
      trivial
    · rintro r ⟨⟩
  | some start =>
    obtain ⟨out, hloads, hlooksUp⟩ := h start hfind
    have hlookup : ∀ᶠ limit in Filter.atTop, ∀ r, out = some r → r.Supports a →
        ∀ e, r.getWithPrefixLen limit a = .error e → e.Reported := by
      by_cases hr : ∃ r, out = some r ∧ r.Supports a
      · obtain ⟨r, rfl, hv⟩ := hr
        filter_upwards [Reader.eventually_of_looksUp hloads.buffer_eq hv (hlooksUp r rfl hv)]
          with limit hlimit
        rintro r' ⟨⟩ -
        exact exists_allows.mp hlimit
      · exact Filter.Eventually.of_forall fun limit r hr' hv => absurd ⟨r, hr', hv⟩ hr
    filter_upwards [Reader.eventually_of_loads hloads filename, hlookup] with limit hload hlimit
    obtain ⟨hopen, hnew⟩ := (allows_load_iff hfind).mp hload
    exact ⟨hopen, fun r hr => hlimit r ((hnew r).mp hr)⟩

/-- **When a corrupt database is reported as such.** -/
theorem reportsCorruption_iff : ReportsCorruption f filename a ↔ Orderly f a := by
  constructor
  · intro h
    obtain ⟨limit, hopen, hlookup⟩ := h.exists
    exact orderly_of_reports hopen hlookup
  · exact reports_of_orderly

end

namespace Sample

/-- A file that ends behind its metadata marker is not reported as corrupt. -/
theorem not_reportsCorruption :
    ¬ ∀ (f : Bytes) (filename : String) (a : IPAddress), ReportsCorruption f filename a := by
  intro hall
  have h := hall metadataStartMarker "Test.mmdb" (.ofV4 0 (by decide))
  have hfind : Octets.rfind metadataStartMarker metadataStartMarker
      (metadataStartMarker.length - 128 * 1024) = some 0 := by decide +kernel
  obtain ⟨limit, hopen, -⟩ := exists_succ_of_eventually h
  rw [new_ofBytes hfind] at hopen
  exact hopen ⟨.indexError, false⟩ rfl

end Sample

end MaxMindDB
