import MaxMindDB.FileMode
import MaxMindDB.Extension.Opening

/-!
# The modes of `open_database`

`open_database` takes any integer for a mode, picks the reader of the extension or the pure Python one, and
the constructor of that reader looks at the mode once more. The Python reader loads a memory map, a
`FileBuffer` or the bytes themselves.

`openDatabase_supported`: no constructor is handed a mode that it refuses.
-/

namespace MaxMindDB

open Octets

/-! ## `const.py` -/

def modeAuto : ℤ := 0
def modeMmapExt : ℤ := 1
def modeMmap : ℤ := 2
def modeFile : ℤ := 4
def modeMemory : ℤ := 8
def modeFd : ℤ := 16

/-- What can be imported. -/
structure Platform where
  /-- The module `mmap`. -/
  mmap : Bool
  /-- The module `maxminddb.extension`, with its `Reader`. -/
  extension : Bool

/-- The exceptions of `open_database`. -/
inductive OpenError where
  /-- "Unsupported open mode: …" -/
  | unsupportedMode (mode : ℤ)
  /-- "MODE_MMAP_EXT requires the maxminddb.extension module to be available" -/
  | requiresExtension
  /-- "Unsupported open mode (…). Only MODE_AUTO, MODE_FILE, MODE_MEMORY and MODE_FD are supported by the
  pure Python Reader" -/
  | unsupportedByReader (mode : ℤ)
  /-- `AttributeError`: `mmap` is `None`. -/
  | noMmap
  | failed (failure : Reader.OpenFailure)

/-! ## The pure Python reader -/

/-- The class of `_buffer`. -/
inductive BufferType where
  | bytes
  | mmap
  | fileBuffer
  deriving DecidableEq

/-- A `Reader` that has been opened, and may have been closed. -/
structure Handle where
  reader : Reader
  bufferType : BufferType
  bufferClosed : Bool
  closed : Bool

namespace Reader

/-- `_load_buffer`, for a database of the given bytes. An empty file cannot be mapped. -/
def loadBuffer (platform : Platform) (mode : ℤ) (f : Bytes) : Except OpenError (Buffer × BufferType) :=
  if (mode = modeAuto ∧ platform.mmap) ∨ mode = modeMmap then
    if !platform.mmap then .error .noMmap
    else if f = [] then .error (.failed ⟨.valueError, false⟩)
    else .ok (.ofBytes f, .mmap)
  else if mode = modeAuto ∨ mode = modeFile then .ok ((FileBuffer.new f).toBuffer, .fileBuffer)
  else if mode = modeMemory then .ok (.ofBytes f, .bytes)
  else if mode = modeFd then .ok (.ofBytes f, .bytes)
  else .error (.unsupportedByReader mode)

/-- `Reader(database, mode)`. -/
def init (platform : Platform) (mode : ℤ) (f : Bytes) (filename : String) (limit : ℕ) :
    Except OpenError Handle := do
  let (buffer, bufferType) ← loadBuffer platform mode f
  match Reader.new buffer filename limit with
  | .error failure => throw (.failed failure)
  | .ok reader => return { reader, bufferType, bufferClosed := false, closed := false }

end Reader

/-! ## `open_database` -/

/-- What is opened: a pure Python reader, or whatever `extension.Reader(database, mode)` comes to. -/
inductive Opened where
  | python (h : Handle)
  | extension (mode : ℤ)

/-- `use_extension`. -/
def useExtension (platform : Platform) (mode : ℤ) : Bool :=
  if mode = modeAuto then platform.extension else decide (mode = modeMmapExt)

/-- `open_database`. -/
def openDatabase (platform : Platform) (mode : ℤ) (f : Bytes) (filename : String) (limit : ℕ) :
    Except OpenError Opened :=
  if mode ∉ [modeAuto, modeFd, modeFile, modeMemory, modeMmap, modeMmapExt] then
    .error (.unsupportedMode mode)
  else if !useExtension platform mode then (Reader.init platform mode f filename limit).map .python
  else if !platform.extension then .error .requiresExtension
  else .ok (.extension mode)

variable {platform : Platform} {mode : ℤ} {f : Bytes} {filename : String} {limit : ℕ}

namespace Reader

theorem init_eq_ok {h : Handle} : init platform mode f filename limit = .ok h ↔
    ∃ buffer r, loadBuffer platform mode f = .ok (buffer, h.bufferType) ∧
      Reader.new buffer filename limit = .ok r ∧ h = ⟨r, h.bufferType, false, false⟩ := by
  unfold init
  constructor
  · intro hinit
    obtain ⟨⟨buffer, bufferType⟩, hload, hnew⟩ := Except.bind_eq_ok.mp hinit
    cases hr : Reader.new buffer filename limit with
    | error failure => simp [hr] at hnew
    | ok r =>
      simp only [hr, Except.pure_eq_ok, Except.ok.injEq] at hnew
      subst hnew
      exact ⟨buffer, r, hload, hr, rfl⟩
  · rintro ⟨buffer, r, hload, hr, hh⟩
    rw [hload, Except.ok_bind]
    simp only [hr]
    rw [hh]
    rfl

theorem loadBuffer_cases {buffer : Buffer} {bufferType : BufferType}
    (h : loadBuffer platform mode f = .ok (buffer, bufferType)) :
    (bufferType = .fileBuffer ∧ buffer = (FileBuffer.new f).toBuffer) ∨
      (bufferType ≠ .fileBuffer ∧ buffer = .ofBytes f) := by
  unfold loadBuffer at h
  split_ifs at h <;> cases h <;> simp

theorem loadBuffer_mmap (hf : f ≠ []) :
    loadBuffer ⟨true, false⟩ modeMmap f = .ok (.ofBytes f, .mmap) := by
  simp [loadBuffer, hf]

theorem loadBuffer_bytes {buffer : Buffer} {bufferType : BufferType}
    (h : loadBuffer platform mode f = .ok (buffer, bufferType)) :
    bufferType = .bytes ↔ mode = modeMemory ∨ mode = modeFd := by
  unfold loadBuffer at h
  split_ifs at h with h1 h2 h3 h4 h5 h6 <;> cases h <;>
    simp_all [modeAuto, modeMmap, modeFile, modeMemory, modeFd]
  all_goals omega

end Reader

/-- What `open_database` comes to, by the reader that it picks. -/
theorem openDatabase_cases (platform : Platform) (mode : ℤ) (f : Bytes) (filename : String) (limit : ℕ) :
    openDatabase platform mode f filename limit = .error (.unsupportedMode mode) ∨
    openDatabase platform mode f filename limit = .error .requiresExtension ∨
    (mode ∈ [modeAuto, modeFd, modeFile, modeMemory, modeMmap] ∧
      openDatabase platform mode f filename limit =
        (Reader.init platform mode f filename limit).map .python) ∨
    (mode ∈ [modeAuto, modeMmapExt] ∧
      openDatabase platform mode f filename limit = .ok (.extension mode)) := by
  unfold openDatabase
  by_cases hmode : mode ∈ [modeAuto, modeFd, modeFile, modeMemory, modeMmap, modeMmapExt]
  · rw [if_neg (not_not.mpr hmode)]
    cases huse : useExtension platform mode
    · refine .inr (.inr (.inl ⟨?_, rfl⟩))
      have hne : mode ≠ modeMmapExt := by
        rintro rfl
        simp [useExtension, modeMmapExt, modeAuto] at huse
      simp only [List.mem_cons, List.not_mem_nil, or_false] at hmode ⊢
      tauto
    · cases platform.extension
      · exact .inr (.inl rfl)
      · refine .inr (.inr (.inr ⟨?_, rfl⟩))
        unfold useExtension at huse
        split_ifs at huse with hauto
        · exact hauto ▸ List.mem_cons_self
        · have hext : mode = modeMmapExt := by simpa using huse
          exact hext ▸ List.mem_cons_of_mem _ List.mem_cons_self
  · rw [if_pos hmode]
    exact .inl rfl

theorem openDatabase_python {h : Handle}
    (ho : openDatabase platform mode f filename limit = .ok (.python h)) :
    Reader.init platform mode f filename limit = .ok h := by
  rcases openDatabase_cases platform mode f filename limit with hc | hc | ⟨-, hc⟩ | ⟨-, hc⟩ <;> rw [hc] at ho
  · cases ho
  · cases ho
  · cases hi : Reader.init platform mode f filename limit with
    | error e => rw [hi] at ho; cases ho
    | ok h' => rw [hi] at ho; cases ho; rfl
  · cases ho

theorem openDatabase_of_new {buffer : Buffer} {bufferType : BufferType} {r : Reader}
    (hmode : mode ∈ [modeAuto, modeFd, modeFile, modeMemory, modeMmap, modeMmapExt])
    (huse : useExtension platform mode = false)
    (hload : Reader.loadBuffer platform mode f = .ok (buffer, bufferType))
    (hnew : Reader.new buffer filename limit = .ok r) :
    openDatabase platform mode f filename limit = .ok (.python ⟨r, bufferType, false, false⟩) := by
  have hinit : Reader.init platform mode f filename limit = .ok ⟨r, bufferType, false, false⟩ :=
    Reader.init_eq_ok.mpr ⟨buffer, r, hload, hnew, rfl⟩
  unfold openDatabase
  rw [if_neg (not_not.mpr hmode), huse, hinit]
  rfl

theorem init_ne_unsupported (hmode : mode ∈ [modeAuto, modeFd, modeFile, modeMemory, modeMmap])
    (mode' : ℤ) :
    Reader.init platform mode f filename limit ≠ .error (.unsupportedByReader mode') := by
  have hload : ∀ mode', Reader.loadBuffer platform mode f ≠ .error (.unsupportedByReader mode') := by
    intro mode'
    simp only [List.mem_cons, List.not_mem_nil, or_false] at hmode
    unfold Reader.loadBuffer
    split_ifs with h1 h2 h3 h4 h5 h6
    any_goals
      intro h
      cases h
    tauto
  unfold Reader.init
  refine Except.bind_ne_error (hload mode') fun ⟨buffer, bufferType⟩ h => ?_
  cases hr : Reader.new buffer filename limit <;> simp [hr] at h

theorem readerInit_ne_unsupported {Entry Data : Type} {c : Extension.InitCalls Entry Data}
    (hmode : mode ∈ [modeAuto, modeMmapExt]) (hc : c.args = some mode) (r : Extension.ReaderLife Entry Data)
    (mode' : ℤ) : (Extension.readerInit c r).1 ≠ .error (.unsupportedMode mode') := by
  have hnot : ¬ (mode ≠ 0 ∧ mode ≠ 1) := by
    simp only [List.mem_cons, List.not_mem_nil, or_false] at hmode
    rcases hmode with rfl | rfl <;> decide
  unfold Extension.readerInit
  simp only [hc, if_neg hnot]
  intro h
  cases hstate : c.state <;> cases hread : c.canRead <;> cases hmalloc : c.malloc <;>
    cases hlock : c.lockInit <;> cases hopen : c.mmdbOpen <;>
      simp [hstate, hread, hmalloc, hlock, hopen] at h

/-- **No constructor is handed a mode that it refuses.** -/
theorem openDatabase_supported (platform : Platform) (mode : ℤ) (f : Bytes) (filename : String)
    (limit : ℕ) :
    (∀ mode', openDatabase platform mode f filename limit ≠ .error (.unsupportedByReader mode')) ∧
    ∀ mode', openDatabase platform mode f filename limit = .ok (.extension mode') →
      ∀ (Entry Data : Type) (c : Extension.InitCalls Entry Data)
        (r : Extension.ReaderLife Entry Data) mode'', c.args = some mode' →
          (Extension.readerInit c r).1 ≠ .error (.unsupportedMode mode'') := by
  rcases openDatabase_cases platform mode f filename limit with hc | hc | ⟨hmode, hc⟩ | ⟨hmode, hc⟩ <;>
    rw [hc]
  · exact ⟨nofun, nofun⟩
  · exact ⟨nofun, nofun⟩
  · constructor
    · intro mode' h
      cases hi : Reader.init platform mode f filename limit with
      | ok handle => rw [hi] at h; cases h
      | error e => rw [hi] at h; cases h; exact init_ne_unsupported hmode _ hi
    · intro mode' h
      cases hi : Reader.init platform mode f filename limit <;> rw [hi] at h <;> cases h
  · refine ⟨nofun, ?_⟩
    rintro mode' ⟨⟩ Entry Data c r mode'' hargs
    exact readerInit_ne_unsupported hmode hargs r mode''

/-! ## Readers of one file -/

end MaxMindDB
