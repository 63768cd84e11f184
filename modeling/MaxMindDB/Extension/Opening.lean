import MaxMindDB.Extension.Operations

/-!
# From `Reader_init` to `Reader_dealloc`

What `Reader_init` acquires, and what it gives back where it fails. Python may call `__init__` again on a
reader, or never, and `Reader_dealloc` runs in any case; it destroys the lock without asking whether there
is one.

`lock_defined_iff` says when the lock of the build with pthreads is used as POSIX allows over the whole life
of a reader, and `life_released_iff` when every database that was opened is closed and freed.
-/

namespace MaxMindDB.Extension

variable {Entry Data : Type}

/-! ## Readers -/

/-- What POSIX knows of a `pthread_rwlock_t`. -/
inductive LockState where
  | raw
  | initialized
  | destroyed
  deriving DecidableEq

/-- `Reader_obj`, and what has been acquired for it: the `MMDB_s` that are allocated, the databases that
are open and the references to `filepath`. `undefined` says that the lock has been used as POSIX leaves
undefined: initialized where it is, or anything else where it is not. -/
structure ReaderLife (Entry Data : Type) where
  mmdb : Option (Mmdb Entry Data)
  /-- `NULL`, `Py_False` or `Py_True`. -/
  closed : Option Bool
  rwlock : LockState
  undefined : Bool
  mallocs : ℕ
  opens : ℕ
  filepaths : ℕ

namespace ReaderLife

/-- What `tp_new` makes. -/
def new : ReaderLife Entry Data := ⟨none, none, .raw, false, 0, 0, 0⟩

/-- `reader_lock_init`. -/
def lockInit (r : ReaderLife Entry Data) (ok : Bool) : ReaderLife Entry Data :=
  { r with
    rwlock := if ok then .initialized else r.rwlock
    undefined := r.undefined || r.rwlock == .initialized }

/-- The lock is acquired, or released. -/
def lockUse (r : ReaderLife Entry Data) : ReaderLife Entry Data :=
  { r with undefined := r.undefined || r.rwlock != .initialized }

/-- `reader_lock_destroy`. -/
def lockDestroy (r : ReaderLife Entry Data) : ReaderLife Entry Data :=
  { r.lockUse with rwlock := .destroyed }

/-- `malloc` of an `MMDB_s`. -/
def malloc (r : ReaderLife Entry Data) : ReaderLife Entry Data := { r with mallocs := r.mallocs + 1 }

/-- `free` of an `MMDB_s`. -/
def free (r : ReaderLife Entry Data) : ReaderLife Entry Data := { r with mallocs := r.mallocs - 1 }

/-- `PyUnicode_FSConverter`. -/
def newFilepath (r : ReaderLife Entry Data) : ReaderLife Entry Data :=
  { r with filepaths := r.filepaths + 1 }

/-- `Py_XDECREF(filepath)`. -/
def dropFilepath (r : ReaderLife Entry Data) : ReaderLife Entry Data :=
  { r with filepaths := r.filepaths - 1 }

end ReaderLife

/-! ## `Reader_init` -/

/-- What the calls that `Reader_init` makes come to. -/
structure InitCalls (Entry Data : Type) where
  state : Bool
  /-- The mode, where the arguments are parsed. -/
  args : Option ℤ
  canRead : Bool
  malloc : Bool
  lockInit : Bool
  mmdbOpen : Option (Mmdb Entry Data)

/-- The exceptions of `Reader_init`. -/
inductive InitError where
  /-- Set by a function that was called. -/
  | propagated
  /-- "Unsupported open mode (…). Only MODE_AUTO and MODE_MMAP_EXT are supported by this extension." -/
  | unsupportedMode (mode : ℤ)
  /-- `OSError`, with the filename. -/
  | osError
  | noMemory
  /-- "Failed to initialize read-write lock: …" -/
  | lockInit
  /-- "Error opening database file (…). Is this a valid MaxMind DB file?" -/
  | openingFile
  deriving DecidableEq

/-- `Reader_init`. -/
def readerInit (c : InitCalls Entry Data) (r : ReaderLife Entry Data) :
    Except InitError Unit × ReaderLife Entry Data :=
  if !c.state then (.error .propagated, r)
  else match c.args with
  | none => (.error .propagated, r)
  | some mode =>
    let r := r.newFilepath
    if mode ≠ 0 ∧ mode ≠ 1 then (.error (.unsupportedMode mode), r.dropFilepath)
    else if !c.canRead then (.error .osError, r.dropFilepath)
    else if !c.malloc then (.error .noMemory, r.dropFilepath)
    else
      let r := r.malloc.lockInit c.lockInit
      if !c.lockInit then (.error .lockInit, r.free.dropFilepath)
      else match c.mmdbOpen with
      | none => (.error .openingFile, r.lockDestroy.free.dropFilepath)
      | some mmdb =>
        let r := { r with opens := r.opens + 1 }
        (.ok (), { r.dropFilepath with mmdb := some mmdb, closed := some false })

/-- `Reader_init` gets as far as the lock. -/
def InitCalls.ReachesLock (c : InitCalls Entry Data) : Prop :=
  c.state = true ∧ (c.args = some 0 ∨ c.args = some 1) ∧ c.canRead = true ∧ c.malloc = true

/-- `Reader_init` opens a database. -/
def InitCalls.Succeeds (c : InitCalls Entry Data) : Prop :=
  c.ReachesLock ∧ c.lockInit = true ∧ c.mmdbOpen ≠ none

section

variable {c : InitCalls Entry Data} {r : ReaderLife Entry Data}

/-- Short of the lock, `Reader_init` fails and gives back what it has acquired. -/
theorem readerInit_of_not_reaches (h : ¬ c.ReachesLock) : ∃ error, readerInit c r = (.error error, r) := by
  unfold readerInit
  cases hstate : c.state with
  | false => exact ⟨_, rfl⟩
  | true =>
    cases hargs : c.args with
    | none => exact ⟨_, rfl⟩
    | some mode =>
      dsimp only
      by_cases hmode : mode ≠ 0 ∧ mode ≠ 1
      · rw [if_pos hmode]
        exact ⟨_, rfl⟩
      · rw [if_neg hmode]
        cases hread : c.canRead with
        | false => exact ⟨_, rfl⟩
        | true =>
          cases hmalloc : c.malloc with
          | false => exact ⟨_, rfl⟩
          | true =>
            refine absurd ⟨hstate, ?_, hread, hmalloc⟩ h
            rw [hargs, Option.some.injEq, Option.some.injEq]
            omega

theorem readerInit_of_reaches (h : c.ReachesLock) : readerInit c r =
    (let r := r.newFilepath.malloc.lockInit c.lockInit
    if !c.lockInit then (.error .lockInit, r.free.dropFilepath)
    else match c.mmdbOpen with
    | none => (.error .openingFile, r.lockDestroy.free.dropFilepath)
    | some mmdb => (.ok (), { ({ r with opens := r.opens + 1 } : ReaderLife Entry Data).dropFilepath with
        mmdb := some mmdb, closed := some false })) := by
  obtain ⟨hstate, hargs, hread, hmalloc⟩ := h
  unfold readerInit
  rcases hargs with hargs | hargs <;> rw [hstate, hargs, hread, hmalloc] <;> rfl

/-- Behind the lock, it gives back what it has acquired where it fails, the lock too. -/
theorem readerInit_of_not_succeeds (h : c.ReachesLock) (hfails : ¬ c.Succeeds) :
    ∃ error rwlock, (rwlock = r.rwlock ∨ rwlock = .destroyed) ∧ readerInit c r = (.error error,
      { r with rwlock := rwlock, undefined := r.undefined || r.rwlock == .initialized }) := by
  rw [readerInit_of_reaches h]
  cases hlock : c.lockInit with
  | false => exact ⟨.lockInit, r.rwlock, .inl rfl, rfl⟩
  | true =>
    cases hopen : c.mmdbOpen with
    | none =>
      refine ⟨.openingFile, .destroyed, .inr rfl, ?_⟩
      simp [ReaderLife.lockDestroy, ReaderLife.lockUse, ReaderLife.lockInit, ReaderLife.malloc,
        ReaderLife.free, ReaderLife.newFilepath, ReaderLife.dropFilepath]
    | some mmdb => exact absurd ⟨h, hlock, by rw [hopen]; exact Option.some_ne_none mmdb⟩ hfails

/-- It opens a reader, whatever the reader was before. -/
theorem readerInit_of_succeeds (h : c.Succeeds) : ∃ mmdb, c.mmdbOpen = some mmdb ∧
    readerInit c r = (.ok (), { r with
      mmdb := some mmdb
      closed := some false
      rwlock := .initialized
      undefined := r.undefined || r.rwlock == .initialized
      mallocs := r.mallocs + 1
      opens := r.opens + 1 }) := by
  obtain ⟨hreaches, hlock, hopen⟩ := h
  obtain ⟨mmdb, hmmdb⟩ := Option.ne_none_iff_exists'.mp hopen
  refine ⟨mmdb, hmmdb, ?_⟩
  rw [readerInit_of_reaches hreaches, hlock, hmmdb]
  rfl

end

/-! ## The life of a reader -/

/-- `Reader_close`; `acquired` says whether the lock is. -/
def readerClose (acquired : Bool) (r : ReaderLife Entry Data) : ReaderLife Entry Data :=
  let r := r.lockUse
  if !acquired then r
  else
    let r := match r.mmdb with
      | none => r
      | some _ => { { r with opens := r.opens - 1 }.free with mmdb := none }
    { r with closed := some true }.lockUse

/-- `Reader_dealloc`. -/
def readerDealloc (acquired : Bool) (r : ReaderLife Entry Data) : ReaderLife Entry Data :=
  match r.mmdb with
  | none => r.lockDestroy
  | some _ => (readerClose acquired r).lockDestroy

/-- What Python may do with a reader: call `__init__`, or `close`, or another method, which acquires the
lock and releases it. `get_record` refuses its argument before it gets as far as the lock. -/
inductive ReaderUse (Entry Data : Type) where
  | init (c : InitCalls Entry Data)
  | close (acquired : Bool)
  | method (reachesLock : Bool)

def ReaderLife.perform (r : ReaderLife Entry Data) : ReaderUse Entry Data → ReaderLife Entry Data
  | .init c => (readerInit c r).2
  | .close acquired => readerClose acquired r
  | .method reachesLock => if reachesLock then r.lockUse else r

/-- The reader after some operations. -/
def ReaderLife.run (r : ReaderLife Entry Data) (ops : List (ReaderUse Entry Data)) : ReaderLife Entry Data :=
  ops.foldl perform r

/-! ## The lock -/

/-- An operation that needs no lock: an `__init__` that fails, or a method that does not get as far as the
lock. -/
def ReaderUse.NeedsNoLock : ReaderUse Entry Data → Prop
  | .init c => ¬ c.Succeeds
  | .close _ => False
  | .method reachesLock => reachesLock = false

/-- The operations after which the lock is destroyed as POSIX allows: as long as there is no lock, ones that
need none, and then an `__init__` that succeeds; behind it, none that gets as far as the lock. -/
def Orderly (ops : List (ReaderUse Entry Data)) : Prop :=
  ∃ before c after, ops = before ++ .init c :: after ∧ c.Succeeds ∧
    (∀ op ∈ before, op.NeedsNoLock) ∧ ∀ c, .init c ∈ after → ¬ c.ReachesLock

section

variable {r : ReaderLife Entry Data} {op : ReaderUse Entry Data} {ops : List (ReaderUse Entry Data)}
  {c : InitCalls Entry Data} {acquired : Bool}

theorem readerClose_undefined : (readerClose acquired r).undefined = (r.undefined || r.rwlock != .initialized) ∧
    (readerClose acquired r).rwlock = r.rwlock := by
  unfold readerClose
  cases acquired with
  | false => exact ⟨rfl, rfl⟩
  | true => cases hmmdb : r.mmdb <;> simp [ReaderLife.lockUse, ReaderLife.free, hmmdb]

theorem readerDealloc_undefined :
    (readerDealloc acquired r).undefined = (r.undefined || r.rwlock != .initialized) := by
  unfold readerDealloc
  cases r.mmdb with
  | none => rfl
  | some _ =>
    show ((readerClose acquired r).undefined || (readerClose acquired r).rwlock != .initialized) = _
    rw [readerClose_undefined.1, readerClose_undefined.2, Bool.or_assoc, Bool.or_self]

theorem perform_undefined (h : r.undefined = true) (op : ReaderUse Entry Data) : (r.perform op).undefined = true := by
  cases op with
  | init c =>
    show (readerInit c r).2.undefined = true
    by_cases hreaches : c.ReachesLock
    · by_cases hsucceeds : c.Succeeds
      · obtain ⟨mmdb, -, heq⟩ := readerInit_of_succeeds (r := r) hsucceeds
        rw [heq]
        simp [h]
      · obtain ⟨error, rwlock, -, heq⟩ := readerInit_of_not_succeeds (r := r) hreaches hsucceeds
        rw [heq]
        simp [h]
    · obtain ⟨error, heq⟩ := readerInit_of_not_reaches (r := r) hreaches
      rw [heq]
      exact h
  | close acquired =>
    show (readerClose acquired r).undefined = true
    rw [readerClose_undefined.1, h, Bool.true_or]
  | method reachesLock =>
    cases reachesLock with
    | false => exact h
    | true =>
      show (r.undefined || _) = true
      rw [h, Bool.true_or]

theorem run_undefined (h : r.undefined = true) (ops : List (ReaderUse Entry Data)) :
    (r.run ops).undefined = true := by
  induction ops generalizing r with
  | nil => exact h
  | cons op ops ih => exact ih (perform_undefined h op)

theorem run_cons : r.run (op :: ops) = (r.perform op).run ops := rfl

theorem run_undefined_of_initialized (hlock : r.rwlock = .initialized) (h : r.undefined = false) :
    (r.run ops).undefined = false ∧ (r.run ops).rwlock = .initialized ↔
      ∀ c, .init c ∈ ops → ¬ c.ReachesLock := by
  induction ops generalizing r with
  | nil => exact iff_of_true ⟨h, hlock⟩ fun _ hc => by cases hc
  | cons op ops ih =>
    rw [run_cons]
    have hgood : (r.perform op).rwlock = .initialized → (r.perform op).undefined = false →
        (∀ c, .init c = op → ¬ c.ReachesLock) →
        (((r.perform op).run ops).undefined = false ∧ ((r.perform op).run ops).rwlock = .initialized ↔
          ∀ c, .init c ∈ op :: ops → ¬ c.ReachesLock) := by
      intro hlock' h' hop
      refine (ih hlock' h').trans
        ⟨fun hall c hc => ?_, fun hall c hc => hall c (List.mem_cons_of_mem _ hc)⟩
      rcases List.mem_cons.mp hc with heq | hc
      · exact hop c heq
      · exact hall c hc
    cases op with
    | init c =>
      by_cases hreaches : c.ReachesLock
      · -- the lock is initialized again
        have hundefined : (r.perform (.init c)).undefined = true := by
          show (readerInit c r).2.undefined = true
          by_cases hsucceeds : c.Succeeds
          · obtain ⟨mmdb, -, heq⟩ := readerInit_of_succeeds (r := r) hsucceeds
            rw [heq]
            simp [hlock]
          · obtain ⟨error, rwlock, -, heq⟩ := readerInit_of_not_succeeds (r := r) hreaches hsucceeds
            rw [heq]
            simp [hlock]
        have hrun := run_undefined hundefined ops
        rw [hrun]
        refine iff_of_false (fun hne => by cases hne.1) fun hall => ?_
        exact hall c List.mem_cons_self hreaches
      · obtain ⟨error, heq⟩ := readerInit_of_not_reaches (r := r) hreaches
        have hperform : r.perform (.init c) = r := congrArg Prod.snd heq
        refine hgood (by rw [hperform, hlock]) (by rw [hperform, h]) fun c' hc' => ?_
        cases hc'
        exact hreaches
    | close acquired =>
      refine hgood ?_ ?_ fun c hc => by cases hc
      · exact readerClose_undefined.2.trans hlock
      · show (readerClose acquired r).undefined = false
        rw [readerClose_undefined.1, h, hlock]
        rfl
    | method reachesLock =>
      cases reachesLock with
      | false => exact hgood hlock h fun c hc => by cases hc
      | true =>
        refine hgood hlock ?_ fun c hc => by cases hc
        show (r.undefined || r.rwlock != .initialized) = false
        rw [h, hlock]
        rfl

theorem orderly_cons (h : op.NeedsNoLock) : Orderly (op :: ops) ↔ Orderly ops := by
  constructor
  · rintro ⟨before, c, after, heq, hc, hbefore, hafter⟩
    cases before with
    | nil =>
      cases heq
      exact absurd hc h
    | cons op' before =>
      cases heq
      exact ⟨before, c, after, rfl, hc, fun op hop => hbefore op (List.mem_cons_of_mem _ hop), hafter⟩
  · rintro ⟨before, c, after, rfl, hc, hbefore, hafter⟩
    exact ⟨op :: before, c, after, rfl, hc, List.forall_mem_cons.mpr ⟨h, hbefore⟩, hafter⟩

theorem orderly_cons_of_not (h : ¬ op.NeedsNoLock) :
    Orderly (op :: ops) ↔ (∃ c, op = .init c) ∧ ∀ c, .init c ∈ ops → ¬ c.ReachesLock := by
  constructor
  · rintro ⟨before, c, after, heq, hc, hbefore, hafter⟩
    cases before with
    | nil =>
      cases heq
      exact ⟨⟨c, rfl⟩, hafter⟩
    | cons op' before =>
      cases heq
      exact absurd (hbefore op List.mem_cons_self) h
  · rintro ⟨⟨c, rfl⟩, hafter⟩
    exact ⟨[], c, ops, rfl, not_not.mp h, (fun _ hop => by cases hop), hafter⟩

/-- An operation that needs no lock leaves the reader without one. -/
theorem perform_of_needsNoLock (hop : op.NeedsNoLock) (hlock : r.rwlock ≠ .initialized)
    (h : r.undefined = false) :
    (r.perform op).rwlock ≠ .initialized ∧ (r.perform op).undefined = false := by
  cases op with
  | close acquired => cases hop
  | method reachesLock =>
    cases hop
    exact ⟨hlock, h⟩
  | init c =>
    show (readerInit c r).2.rwlock ≠ _ ∧ (readerInit c r).2.undefined = false
    by_cases hreaches : c.ReachesLock
    · obtain ⟨error, rwlock, hrwlock, heq⟩ := readerInit_of_not_succeeds (r := r) hreaches hop
      rw [heq]
      refine ⟨?_, ?_⟩
      · rcases hrwlock with rfl | rfl
        · exact hlock
        · exact fun hne => by cases hne
      · show (r.undefined || r.rwlock == .initialized) = false
        rw [h, Bool.false_or, beq_eq_false_iff_ne]
        exact hlock
    · obtain ⟨error, heq⟩ := readerInit_of_not_reaches (r := r) hreaches
      rw [heq]
      exact ⟨hlock, h⟩

theorem run_undefined_of_not_initialized (hlock : r.rwlock ≠ .initialized) (h : r.undefined = false) :
    (r.run ops).undefined = false ∧ (r.run ops).rwlock = .initialized ↔ Orderly ops := by
  induction ops generalizing r with
  | nil =>
    refine iff_of_false (fun hne => hlock hne.2) ?_
    rintro ⟨before, c, after, heq, -⟩
    cases before <;> cases heq
  | cons op ops ih =>
    rw [run_cons]
    by_cases hop : op.NeedsNoLock
    · obtain ⟨hlock', h'⟩ := perform_of_needsNoLock hop hlock h
      rw [ih hlock' h', orderly_cons hop]
    rw [orderly_cons_of_not hop]
    have huse : (r.undefined || r.rwlock != .initialized) = true := by
      rw [h, Bool.false_or, bne_iff_ne]
      exact hlock
    have hbad : (r.perform op).undefined = true → (¬ ∃ c, op = .init c) →
        (((r.perform op).run ops).undefined = false ∧ ((r.perform op).run ops).rwlock = .initialized ↔
          (∃ c, op = .init c) ∧ ∀ c, .init c ∈ ops → ¬ c.ReachesLock) := by
      intro hundefined hinit
      rw [run_undefined hundefined ops]
      exact iff_of_false (fun hne => by cases hne.1) fun hc => hinit hc.1
    cases op with
    | close acquired => exact hbad (readerClose_undefined.1.trans huse) nofun
    | method reachesLock =>
      cases reachesLock with
      | false => exact absurd rfl hop
      | true => exact hbad huse nofun
    | init c =>
      obtain ⟨mmdb, -, heq⟩ := readerInit_of_succeeds (r := r) (not_not.mp hop)
      have hperform : r.perform (.init c) = _ := congrArg Prod.snd heq
      rw [hperform]
      refine (run_undefined_of_initialized rfl ?_).trans (and_iff_right ⟨c, rfl⟩).symm
      show (r.undefined || r.rwlock == .initialized) = false
      rw [h, Bool.false_or, beq_eq_false_iff_ne]
      exact hlock

end

/-- **The lock over the life of a reader.** Whatever Python does with a reader between `tp_new` and
`Reader_dealloc`, its lock is used as POSIX allows exactly when no method gets as far as the lock before
`__init__` succeeds, it does so once, and no further `__init__` gets as far as the lock. So the lock of a
reader whose `__init__` has failed is destroyed without having been initialized, or twice. -/
theorem lock_defined_iff (ops : List (ReaderUse Entry Data)) (acquired : Bool) :
    (readerDealloc acquired (ReaderLife.new.run ops)).undefined = false ↔ Orderly ops := by
  rw [readerDealloc_undefined, ← run_undefined_of_not_initialized (r := .new) (fun h => by cases h) rfl,
    Bool.or_eq_false_iff, bne_eq_false_iff_eq]

/-! ## The databases -/

/-- No `__init__` opens a database while the reader has another. -/
def NeverReopens : ReaderLife Entry Data → List (ReaderUse Entry Data) → Prop
  | _, [] => True
  | r, op :: ops => (∀ c, op = .init c → c.Succeeds → r.mmdb = none) ∧ NeverReopens (r.perform op) ops

/-- How many databases a reader has. -/
def ReaderLife.held (r : ReaderLife Entry Data) : ℕ := if r.mmdb.isSome then 1 else 0

/-- `lost` databases are open that no reader has. -/
structure ReaderLife.Loses (r : ReaderLife Entry Data) (lost : ℕ) : Prop where
  mallocs : r.mallocs = r.held + lost
  opens : r.opens = r.held + lost
  filepaths : r.filepaths = 0

section

variable {r : ReaderLife Entry Data} {lost : ℕ}

theorem readerClose_acquired (r : ReaderLife Entry Data) :
    (readerClose true r).mmdb = none ∧ (readerClose true r).mallocs = r.mallocs - r.held ∧
      (readerClose true r).opens = r.opens - r.held ∧ (readerClose true r).filepaths = r.filepaths := by
  unfold readerClose ReaderLife.held
  cases hmmdb : r.mmdb <;> simp [ReaderLife.lockUse, ReaderLife.free, hmmdb]

/-- `Reader_close` closes what the reader has, if it acquires the lock, and loses nothing. -/
theorem loses_close (h : r.Loses lost) (acquired : Bool) :
    (readerClose acquired r).Loses lost ∧ (acquired = true → (readerClose acquired r).held = 0) := by
  obtain ⟨hmallocs, hopens, hfilepaths⟩ := h
  cases acquired with
  | false => exact ⟨⟨hmallocs, hopens, hfilepaths⟩, fun h => by cases h⟩
  | true =>
    obtain ⟨hmmdb, hmallocs', hopens', hfilepaths'⟩ := readerClose_acquired r
    have hheld : (readerClose true r).held = 0 := by rw [ReaderLife.held, hmmdb]; rfl
    refine ⟨⟨?_, ?_, hfilepaths'.trans hfilepaths⟩, fun _ => hheld⟩
    · rw [hheld, hmallocs', hmallocs]
      omega
    · rw [hheld, hopens', hopens]
      omega

/-- An operation loses the database of a reader exactly when it opens another in its place. -/
theorem loses_perform (h : r.Loses lost) (op : ReaderUse Entry Data) : ∃ lost', (r.perform op).Loses lost' ∧
    lost ≤ lost' ∧ (lost' = lost ↔ ∀ c, op = .init c → c.Succeeds → r.mmdb = none) := by
  have hkeeps : (∀ c, op = .init c → ¬ c.Succeeds) → (r.perform op).Loses lost →
      ∃ lost', (r.perform op).Loses lost' ∧ lost ≤ lost' ∧
        (lost' = lost ↔ ∀ c, op = .init c → c.Succeeds → r.mmdb = none) :=
    fun hfails hloses => ⟨lost, hloses, Nat.le_refl _,
      iff_of_true rfl fun c hc hsucceeds => absurd hsucceeds (hfails c hc)⟩
  cases op with
  | close acquired => exact hkeeps (fun _ heq => by cases heq) (loses_close h acquired).1
  | method reachesLock =>
    refine hkeeps (fun _ heq => by cases heq) ?_
    cases reachesLock <;> exact ⟨h.mallocs, h.opens, h.filepaths⟩
  | init c =>
    by_cases hsucceeds : c.Succeeds
    · obtain ⟨mmdb, -, heq⟩ := readerInit_of_succeeds (r := r) hsucceeds
      have hperform : r.perform (.init c) = _ := congrArg Prod.snd heq
      obtain ⟨hmallocs, hopens, hfilepaths⟩ := h
      rw [hperform]
      refine ⟨r.held + lost, ⟨?_, ?_, hfilepaths⟩, by omega, ?_⟩
      · show r.mallocs + 1 = 1 + (r.held + lost)
        omega
      · show r.opens + 1 = 1 + (r.held + lost)
        omega
      · have hheld : r.held = 0 ↔ r.mmdb = none := by
          unfold ReaderLife.held
          cases r.mmdb <;> simp
        refine ⟨fun hlost c' _ _ => hheld.mp (by omega), fun hnone => ?_⟩
        have := hheld.mpr (hnone c rfl hsucceeds)
        omega
    · refine hkeeps (fun c' hc' => by cases hc'; exact hsucceeds) ?_
      show (readerInit c r).2.Loses lost
      by_cases hreaches : c.ReachesLock
      · obtain ⟨error, rwlock, -, heq⟩ := readerInit_of_not_succeeds (r := r) hreaches hsucceeds
        rw [heq]
        exact ⟨h.mallocs, h.opens, h.filepaths⟩
      · obtain ⟨error, heq⟩ := readerInit_of_not_reaches (r := r) hreaches
        rw [heq]
        exact h

theorem loses_run (h : r.Loses lost) (ops : List (ReaderUse Entry Data)) :
    ∃ lost', (r.run ops).Loses lost' ∧ lost ≤ lost' ∧ (lost' = lost ↔ NeverReopens r ops) := by
  induction ops generalizing r lost with
  | nil => exact ⟨lost, h, Nat.le_refl _, iff_of_true rfl trivial⟩
  | cons op ops ih =>
    obtain ⟨lost₁, hloses₁, hle₁, hiff₁⟩ := loses_perform h op
    obtain ⟨lost₂, hloses₂, hle₂, hiff₂⟩ := ih hloses₁
    refine ⟨lost₂, hloses₂, hle₁.trans hle₂, ?_⟩
    have hsplit : lost₂ = lost ↔ lost₁ = lost ∧ lost₂ = lost₁ := by omega
    rw [hsplit, hiff₁, hiff₂]
    rfl

end

/-- **What is opened is closed.** After the life of a reader, whatever Python has done with it and wherever
its calls of `__init__` have failed, every `filepath` has been released, and every database that was opened
has been closed and its memory freed exactly when no `__init__` has opened one while the reader had
another, if `Reader_dealloc` acquires the lock. -/
theorem life_released_iff (ops : List (ReaderUse Entry Data)) :
    let r := readerDealloc true (ReaderLife.new.run ops)
    r.filepaths = 0 ∧ (r.mallocs = 0 ∧ r.opens = 0 ↔ NeverReopens .new ops) := by
  have hnew : (.new : ReaderLife Entry Data).Loses 0 := ⟨rfl, rfl, rfl⟩
  obtain ⟨lost, hloses, -, hiff⟩ := loses_run hnew ops
  obtain ⟨hclosed, hheld⟩ := loses_close hloses true
  have hend : (readerDealloc true (ReaderLife.new.run ops)).filepaths = 0 ∧
      (readerDealloc true (ReaderLife.new.run ops)).mallocs = lost ∧
      (readerDealloc true (ReaderLife.new.run ops)).opens = lost := by
    unfold readerDealloc
    cases hmmdb : (ReaderLife.new.run ops).mmdb with
    | none =>
      have hnone : (ReaderLife.new.run ops).held = 0 := by rw [ReaderLife.held, hmmdb]; rfl
      have hmallocs := hloses.mallocs
      have hopens := hloses.opens
      rw [hnone, Nat.zero_add] at hmallocs hopens
      exact ⟨hloses.filepaths, hmallocs, hopens⟩
    | some mmdb =>
      have hmallocs := hclosed.mallocs
      have hopens := hclosed.opens
      rw [hheld rfl, Nat.zero_add] at hmallocs hopens
      exact ⟨hclosed.filepaths, hmallocs, hopens⟩
  obtain ⟨hfilepaths, hmallocs, hopens⟩ := hend
  refine ⟨hfilepaths, ?_⟩
  rw [hmallocs, hopens, and_self]
  exact hiff

end MaxMindDB.Extension
