import MaxMindDB.Database

/-!
# `MODE_FILE` and `MODE_MEMORY`

A `FileBuffer` indexes and slices like the bytes of its file. Its `rfind` reads one byte too few and
never sees a needle that ends with the file; the search for the metadata marker is the one search
that a reader makes.

`sameReader_iff`: the two modes are the same reader on every file but those that end with the
metadata marker. On these `MODE_MEMORY` finds no metadata behind the marker, while `MODE_FILE` may
open the file by an earlier one.
-/

namespace MaxMindDB

open Octets Raising

/-! ## Readers of buffers that differ in their search -/

/-- The buffer with another `rfind`. -/
def Buffer.withRfind (b : Buffer) (rfind : Bytes → ℕ → Except Exc (Option ℕ)) : Buffer :=
  { b with rfind }

namespace Reader

/-- The reader over the buffer with another `rfind`. -/
def withRfind (r : Reader) (rfind : Bytes → ℕ → Except Exc (Option ℕ)) : Reader :=
  { r with buffer := r.buffer.withRfind rfind }

variable (r : Reader) (rfind : Bytes → ℕ → Except Exc (Option ℕ))

theorem readNode_withRfind : (r.withRfind rfind).readNode = r.readNode := rfl

theorem findLoop_withRfind (nodeCount : PyNum) (packed : Bytes) (bitCount turns node i : ℕ) :
    (r.withRfind rfind).findLoop nodeCount packed bitCount turns node i =
      r.findLoop nodeCount packed bitCount turns node i := by
  induction turns generalizing node i with
  | zero => rfl
  | succ turns ih =>
    rw [findLoop, findLoop]
    simp only [readNode_withRfind, ih]

theorem getWithPrefixLen_withRfind (limit : ℕ) (a : IPAddress) :
    (r.withRfind rfind).getWithPrefixLen limit a = r.getWithPrefixLen limit a := by
  have hfind : (r.withRfind rfind).findAddressInTree a.packed = r.findAddressInTree a.packed := by
    unfold findAddressInTree
    simp only [findLoop_withRfind]
    rfl
  unfold getWithPrefixLen
  rw [hfind]
  rfl

theorem load_withRfind (b : Buffer) (filename : String) (limit start : ℕ) :
    load (b.withRfind rfind) filename limit start =
      (load b filename limit start).map fun r => r.withRfind rfind := by
  unfold load
  simp only [Except.map_bind]
  refine bind_congr fun ⟨metadata, _⟩ => ?_
  cases metadata with
  | dict items =>
    simp only [Except.map_bind]
    refine bind_congr fun m => bind_congr fun size => bind_congr fun base => ?_
    have hwalk := fun nodeCount => ipv4Walk_congr
      (readNode_withRfind ⟨b, m, base, 0⟩ rfind) nodeCount 96 0
    unfold withRfind at hwalk
    split_ifs
    · simp only [Except.map_bind, hwalk]
      rfl
    · rfl
  | _ => rfl

end Reader

/-! ## The two modes -/

namespace FileBuffer

variable (f : Bytes)

theorem toBuffer_new : (new f).toBuffer = (Buffer.ofBytes f).withRfind (new f).rfind := by
  have hitem : (new f).getItem = bytesGetItem f := by
    funext i
    simp only [getItem, read, pread, slice, new, bytesGetItem]
    rw [if_neg (by norm_num)]
    simp [List.getElem?_drop]
  have hslice : (new f).getSlice = slice f := by
    funext i j
    unfold getSlice pread slice
    rw [Nat.add_sub_cancel_left]
    rfl
  unfold toBuffer
  rw [hitem, hslice]
  rfl

variable {f}

/-- The search leaves out the last byte of the file. -/
theorem rfind_new {needle : Bytes} (hn : needle ≠ []) {start : ℕ} (hs : start < f.length) :
    (new f).rfind needle start = .ok (Octets.rfind f.dropLast needle start) := by
  have hsize : ¬ ((f.length : ℤ) - start - 1 < 0) := by omega
  have hstop : start + ((f.length : ℤ) - start - 1).toNat - start = f.length - 1 - start := by omega
  have hread : (new f).read ((new f).size - start - 1) start = .ok (f.dropLast.drop start) := by
    unfold read new pread slice
    rw [if_neg hsize, hstop, List.dropLast_eq_take, List.drop_take]
  unfold rfind
  rw [hread, ← rfind_drop hn start]
  simp only [Except.ok_bind]
  cases Octets.rfind (f.dropLast.drop start) needle 0 <;> rfl

end FileBuffer

/-- The two readers have the same metadata and answer every lookup alike. -/
def SameAnswers (r r' : Reader) : Prop :=
  r.metadata = r'.metadata ∧
    ∀ limit a, r.getWithPrefixLen limit a = r'.getWithPrefixLen limit a

/-- The two modes are the same reader on a file. -/
structure SameReader (f : Bytes) : Prop where
  file_opens : ∀ filename limit r,
    Reader.new (FileBuffer.new f).toBuffer filename limit = .ok r →
      ∃ r', Reader.new (.ofBytes f) filename limit = .ok r' ∧ SameAnswers r r'
  memory_opens : ∀ filename limit r, Reader.new (.ofBytes f) filename limit = .ok r →
    ∃ r', Reader.new (FileBuffer.new f).toBuffer filename limit = .ok r' ∧ SameAnswers r r'
  rfind : (FileBuffer.new f).rfind metadataStartMarker (f.length - 128 * 1024) =
    .ok (Octets.rfind f metadataStartMarker (f.length - 128 * 1024))
  getItem : ∀ i, (FileBuffer.new f).getItem i = bytesGetItem f i
  getSlice : ∀ i j, (FileBuffer.new f).getSlice i j = slice f i j

variable {f : Bytes}

/-- The search for the marker agrees unless the file ends with it. -/
theorem rfind_marker_iff (hf : f ≠ []) :
    (FileBuffer.new f).rfind metadataStartMarker (f.length - 128 * 1024) =
        .ok (Octets.rfind f metadataStartMarker (f.length - 128 * 1024)) ↔
      ¬ metadataStartMarker <:+ f := by
  have hpos := List.length_pos_iff.mpr hf
  have hmarker : metadataStartMarker.length = 14 := rfl
  rw [FileBuffer.rfind_new (by decide) (by omega), Except.ok.injEq,
    rfind_dropLast (by decide) (by omega)]

/-- Where the search agrees, the constructors do. -/
theorem new_toBuffer (h : (FileBuffer.new f).rfind metadataStartMarker (f.length - 128 * 1024) =
      .ok (Octets.rfind f metadataStartMarker (f.length - 128 * 1024)))
    (filename : String) (limit : ℕ) :
    Reader.new (FileBuffer.new f).toBuffer filename limit =
      (Reader.new (.ofBytes f) filename limit).map
        fun r => r.withRfind (FileBuffer.new f).rfind := by
  obtain ⟨found, hfound⟩ : ∃ found, (Buffer.ofBytes f).rfind metadataStartMarker
      ((Buffer.ofBytes f).size - 128 * 1024) = .ok found := ⟨_, rfl⟩
  have hfile : (FileBuffer.new f).toBuffer.rfind metadataStartMarker
      ((FileBuffer.new f).toBuffer.size - 128 * 1024) = .ok found := h.trans hfound
  cases found with
  | none => rw [Reader.new_of_rfind_none hfound, Reader.new_of_rfind_none hfile]; rfl
  | some start =>
    rw [Reader.new_of_rfind_some hfound, Reader.new_of_rfind_some hfile, FileBuffer.toBuffer_new,
      Reader.load_withRfind]
    cases Reader.load (.ofBytes f) filename limit (start + metadataStartMarker.length) <;> rfl

/-- **When the two modes are the same reader.** -/
theorem sameReader_iff (hf : f ≠ []) : SameReader f ↔ ¬ metadataStartMarker <:+ f := by
  constructor
  · exact fun h => (rfind_marker_iff hf).mp h.rfind
  · intro h
    have hfind := (rfind_marker_iff hf).mpr h
    have hsame : ∀ r : Reader, SameAnswers (r.withRfind (FileBuffer.new f).rfind) r :=
      fun r => ⟨rfl, fun limit a => r.getWithPrefixLen_withRfind _ limit a⟩
    have hbuffer := FileBuffer.toBuffer_new f
    refine ⟨fun filename limit r hr => ?_, fun filename limit r hr => ?_, hfind, fun i => ?_,
      fun i j => ?_⟩
    · rw [new_toBuffer hfind] at hr
      cases hmem : Reader.new (.ofBytes f) filename limit with
      | error e => rw [hmem] at hr; cases hr
      | ok r' =>
        rw [hmem] at hr
        cases hr
        exact ⟨r', rfl, hsame r'⟩
    · refine ⟨r.withRfind (FileBuffer.new f).rfind, by rw [new_toBuffer hfind, hr]; rfl, rfl, ?_⟩
      exact fun limit a => (r.getWithPrefixLen_withRfind _ limit a).symm
    · exact congrFun (congrArg (fun b : Buffer => b.getItem) hbuffer) i
    · exact congrFun (congrFun (congrArg (fun b : Buffer => b.getSlice) hbuffer) i) j

theorem new_ofBytes {start : ℕ} (h : Octets.rfind f metadataStartMarker (f.length - 128 * 1024) =
    some start) (filename : String) (limit : ℕ) :
    Reader.new (.ofBytes f) filename limit =
      (Reader.load (.ofBytes f) filename limit (start + metadataStartMarker.length)).mapError
        fun e => ⟨e, false⟩ :=
  Reader.new_of_rfind_some (congrArg Except.ok h)

theorem new_toBuffer_of_dropLast (hf : f ≠ []) {start : ℕ}
    (h : Octets.rfind f.dropLast metadataStartMarker (f.length - 128 * 1024) = some start)
    (filename : String) (limit : ℕ) :
    Reader.new (FileBuffer.new f).toBuffer filename limit =
      ((Reader.load (.ofBytes f) filename limit (start + metadataStartMarker.length)).map
        fun r => r.withRfind (FileBuffer.new f).rfind).mapError fun e => ⟨e, false⟩ := by
  have hlt : f.length - 128 * 1024 < f.length := by
    have := List.length_pos_iff.mpr hf
    omega
  have hfile : (FileBuffer.new f).toBuffer.rfind metadataStartMarker
      ((FileBuffer.new f).toBuffer.size - 128 * 1024) = .ok (some start) :=
    (FileBuffer.rfind_new (by decide) hlt).trans (congrArg Except.ok h)
  rw [Reader.new_of_rfind_some hfile, FileBuffer.toBuffer_new, Reader.load_withRfind]

theorem load_at_end {start : ℕ} (hs : f.length ≤ start) (filename : String) (limit : ℕ) (r : Reader) :
    Reader.load (.ofBytes f) filename limit start ≠ .ok r := by
  intro h
  obtain ⟨x, hdecode, -⟩ := Except.bind_eq_ok.mp h
  cases limit with
  | zero => cases hdecode
  | succ limit =>
    obtain ⟨y, hheader, -⟩ := Except.bind_eq_ok.mp hdecode
    obtain ⟨c, hc, -⟩ := Except.bind_eq_ok.mp hheader
    rw [Buffer.ofBytes_toSliceable, Sliceable.ofBytes_getItem, bytesGetItem_of_le hs] at hc
    cases hc

namespace Sample

theorem sameReader : SameReader (database false).file :=
  (sameReader_iff (by decide)).mpr (by decide +kernel)

/-- A database file with a second metadata marker behind its metadata. -/
def trailing : Parts := (database false).withTrailer metadataStartMarker

theorem trailing_start : trailing.file.length - 128 * 1024 = 0 := by decide +kernel

/-- `MODE_FILE` opens the file by its first marker. -/
theorem trailing_file_opens : ∃ limit r,
    Reader.new (FileBuffer.new trailing.file).toBuffer "Test.mmdb" limit = .ok r := by
  obtain ⟨limit, hload⟩ := (trailing.load_settles "Test.mmdb").exists
  have hfind : Octets.rfind trailing.file.dropLast metadataStartMarker
      (trailing.file.length - 128 * 1024) = some trailing.body.length := by
    rw [trailing_start]
    decide +kernel
  refine ⟨limit, trailing.reader.withRfind (FileBuffer.new trailing.file).rfind, ?_⟩
  rw [new_toBuffer_of_dropLast (by decide) hfind, hload]
  rfl

/-- `MODE_MEMORY` finds nothing behind the second. -/
theorem trailing_memory_raises (limit : ℕ) (r : Reader) :
    Reader.new (.ofBytes trailing.file) "Test.mmdb" limit ≠ .ok r := by
  have hfind : Octets.rfind trailing.file metadataStartMarker
      (trailing.file.length - 128 * 1024) = some (trailing.file.length - 14) := by
    rw [trailing_start]
    decide +kernel
  have hend : trailing.file.length ≤
      trailing.file.length - 14 + metadataStartMarker.length := by decide +kernel
  intro h
  rw [new_ofBytes hfind] at h
  cases hload : Reader.load (.ofBytes trailing.file) "Test.mmdb" limit
      (trailing.file.length - 14 + metadataStartMarker.length) with
  | error e => rw [hload] at h; cases h
  | ok r' => exact load_at_end hend _ _ _ hload

theorem not_sameReader : ¬ ∀ f : Bytes, f ≠ [] → SameReader f := by
  intro hall
  obtain ⟨limit, r, hr⟩ := trailing_file_opens
  obtain ⟨r', hr', -⟩ := (hall trailing.file (by decide)).file_opens _ _ _ hr
  exact trailing_memory_raises limit r' hr'

end Sample

end MaxMindDB
