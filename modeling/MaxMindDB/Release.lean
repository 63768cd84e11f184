import MaxMindDB.Corruption

/-!
# A failed open releases the database

A memory map and a `FileBuffer` hold the file until they are closed, and a caller whose constructor
raises never receives the reader to close it. The constructor closes the buffer itself when it finds
no metadata marker, and on no other way out.

`releases_iff`: the buffer is closed whenever the constructor raises exactly when nothing behind the
marker makes it raise (`OpensOrUnmarked`).
-/

namespace MaxMindDB

open Octets Raising Except

/-- The modes in which the buffer holds the file: `MODE_MMAP` and `MODE_FILE`. `MODE_AUTO` is one of
them. -/
inductive Mode where
  | mmap
  | file
  deriving DecidableEq

namespace Mode

/-- `_load_buffer`. An empty file cannot be mapped. -/
def loadBuffer : Mode → Bytes → Except Exc Buffer
  | .mmap, f => if f = [] then .error .valueError else .ok (.ofBytes f)
  | .file, f => .ok (FileBuffer.new f).toBuffer

/-- The bytes of the file that the search for the marker sees. -/
def searched : Mode → Bytes → Bytes
  | .mmap, f => f
  | .file, f => f.dropLast

/-- Whenever the buffer has been loaded and the constructor raises, the buffer has been closed by
then, unless the interpreter allows too few nested calls. -/
def Releases (mode : Mode) (f : Bytes) (filename : String) : Prop :=
  ∀ buffer, mode.loadBuffer f = .ok buffer →
    ∀ᶠ limit in Filter.atTop, ∀ e, Reader.new buffer filename limit = .error e → e.closed

/-- Behind the marker, if there is one, the file is opened: its metadata can be read, has the nine
fields, and gives a search tree whose records for 96 zero bits can be read. -/
def OpensOrUnmarked (mode : Mode) (f : Bytes) : Prop :=
  (mode = .file → f ≠ []) ∧
    ∀ start, Octets.rfind (mode.searched f) metadataStartMarker (f.length - 128 * 1024) = some start →
      ∃ r, Reader.Loads f (start + metadataStartMarker.length) (some r)

end Mode

namespace Reader

variable {f : Bytes} {filename : String} {limit start : ℕ}

/-- **The one failure that closes the buffer.** -/
theorem closed_iff {buffer : Buffer} {e : OpenFailure}
    (h : new buffer filename limit = .error e) :
    e.closed ↔ buffer.rfind metadataStartMarker (buffer.size - 128 * 1024) = .ok none := by
  unfold new at h
  split at h
  · rename_i e' he'
    cases h
    simp [he']
  · rename_i hnone
    cases h
    simp [hnone]
  · rename_i start hstart
    cases hl : load buffer filename limit (start + metadataStartMarker.length) with
    | ok r => rw [hl] at h; cases h
    | error e' =>
      rw [hl] at h
      cases h
      simp [hstart]

/-- Behind a marker that is found, a buffer that differs from the file in its search is never
closed. -/
theorem settles_closed_iff {buffer : Buffer} {rfind : Bytes → ℕ → Except Exc (Option ℕ)}
    (hb : buffer = (Buffer.ofBytes f).withRfind rfind)
    (hstart : rfind metadataStartMarker (f.length - 128 * 1024) = .ok (some start)) :
    (∀ᶠ limit in Filter.atTop, ∀ e, new buffer filename limit = .error e → e.closed) ↔
      ∃ r, Loads f (start + metadataStartMarker.length) (some r) := by
  have hfind : buffer.rfind metadataStartMarker (buffer.size - 128 * 1024) = .ok (some start) := by
    rw [hb]
    exact hstart
  have hload : ∀ limit, load buffer filename limit (start + metadataStartMarker.length) =
      (load (.ofBytes f) filename limit (start + metadataStartMarker.length)).map
        fun r => r.withRfind rfind := by
    intro limit
    rw [hb, load_withRfind]
  constructor
  · intro h
    obtain ⟨limit, hlimit⟩ := h.exists
    cases hl : load (.ofBytes f) filename limit (start + metadataStartMarker.length) with
    | ok r => exact ⟨r, loads_of_allows (allows_some.mpr hl)⟩
    | error e =>
      have hnew : new buffer filename limit = .error ⟨e, false⟩ := by
        rw [new_of_rfind_some hfind, hload, hl]
        rfl
      exact absurd (hlimit _ hnew) Bool.false_ne_true
  · rintro ⟨r, hr⟩
    filter_upwards [eventually_of_loads hr filename] with limit hlimit
    intro e he
    rw [new_of_rfind_some hfind, hload, allows_some.mp hlimit] at he
    cases he

end Reader

namespace Mode

variable {mode : Mode} {f : Bytes} {filename : String}

/-- A loaded buffer is the bytes of its file, but for its search, which sees the bytes `searched`. -/
theorem loadBuffer_eq (mode : Mode) (hf : f ≠ []) : ∃ rfind, mode.loadBuffer f =
    .ok ((Buffer.ofBytes f).withRfind rfind) ∧
      rfind metadataStartMarker (f.length - 128 * 1024) =
        .ok (Octets.rfind (mode.searched f) metadataStartMarker (f.length - 128 * 1024)) := by
  have hpos := List.length_pos_iff.mpr hf
  cases mode with
  | mmap =>
    refine ⟨fun needle start => .ok (Octets.rfind f needle start), ?_, rfl⟩
    rw [loadBuffer, if_neg hf]
    rfl
  | file =>
    refine ⟨(FileBuffer.new f).rfind, ?_, FileBuffer.rfind_new (by decide) (by omega)⟩
    rw [loadBuffer, FileBuffer.toBuffer_new]

/-- `MODE_FILE` never gets to search an empty file, and leaves it open. -/
theorem not_releases_empty : ¬ Releases .file [] filename := by
  intro h
  obtain ⟨limit, hlimit⟩ := (h _ rfl).exists
  exact absurd (hlimit ⟨.osError, false⟩ rfl) Bool.false_ne_true

theorem releases_iff_of_ne_nil (hf : f ≠ []) :
    mode.Releases f filename ↔ ∀ start,
      Octets.rfind (mode.searched f) metadataStartMarker (f.length - 128 * 1024) = some start →
        ∃ r, Reader.Loads f (start + metadataStartMarker.length) (some r) := by
  obtain ⟨rfind, hbuffer, hrfind⟩ := loadBuffer_eq mode hf
  have hreleases : mode.Releases f filename ↔ ∀ᶠ limit in Filter.atTop, ∀ e,
      Reader.new ((Buffer.ofBytes f).withRfind rfind) filename limit = .error e → e.closed := by
    unfold Releases
    rw [hbuffer]
    simp only [Except.ok.injEq, forall_eq']
  rw [hreleases]
  cases hfind : Octets.rfind (mode.searched f) metadataStartMarker (f.length - 128 * 1024) with
  | none =>
    rw [hfind] at hrfind
    refine iff_of_true (Filter.Eventually.of_forall fun limit e he => ?_) ?_
    · exact (Reader.closed_iff he).mpr hrfind
    · rintro start ⟨⟩
  | some start =>
    rw [hfind] at hrfind
    rw [Reader.settles_closed_iff rfl hrfind]
    simp

/-- **When a failed open releases the database.** -/
theorem releases_iff : mode.Releases f filename ↔ mode.OpensOrUnmarked f := by
  unfold OpensOrUnmarked
  by_cases hf : f = []
  · subst hf
    cases mode with
    | mmap =>
      refine iff_of_true ?_ ⟨nofun, ?_⟩
      · rintro buffer ⟨⟩
      · intro start hstart
        cases hstart
    | file => exact iff_of_false not_releases_empty fun h => h.1 rfl rfl
  · rw [releases_iff_of_ne_nil hf]
    exact ⟨fun h => ⟨fun _ => hf, h⟩, And.right⟩

end Mode

namespace Sample

/-- A file that ends behind its metadata marker is left open. -/
theorem not_releases :
    ¬ ∀ (mode : Mode) (f : Bytes) (filename : String), mode.Releases f filename := by
  intro hall
  have hfind : Octets.rfind metadataStartMarker metadataStartMarker
      (metadataStartMarker.length - 128 * 1024) = some 0 := by decide +kernel
  have h := hall .mmap metadataStartMarker "Test.mmdb" (.ofBytes metadataStartMarker) rfl
  obtain ⟨limit, hclosed⟩ := exists_succ_of_eventually h
  rw [new_ofBytes hfind] at hclosed
  exact absurd (hclosed ⟨.indexError, false⟩ rfl) Bool.false_ne_true

end Sample

end MaxMindDB
