import MaxMindDB.Buffer
import MaxMindDB.Lib.Linearizable

/-!
# A file that threads share

Without `os.pread`, a `FileBuffer` seeks and reads under a lock: the position of the handle is shared by
all threads. Whatever their interleaving, also with `close`, which takes no lock, what threads see of the
buffer is what they see of a `FileBuffer` that reads with `pread`, each access at one moment, until it is
closed. That holds exactly of the accesses that read no negative size (`file_linearizable_iff`), for which
`pread` raises `OSError`, and the handle reads the rest of the file or raises `ValueError`.
-/

namespace MaxMindDB.SharedFile

open Octets RwLock

variable {ι : Type*}

/-! ## Accesses -/

/-- `buffer[i]`, `buffer[start:stop]` and `buffer.rfind(needle, start)`. -/
inductive Access where
  | getItem (index : ℕ)
  | getSlice (start stop : ℕ)
  | rfind (needle : Bytes) (start : ℕ)

/-- What a method of the buffer returns or raises. -/
inductive Result where
  | item (x : Except Exc UInt8)
  | slice (b : Except Exc Bytes)
  | found (pos : Except Exc (Option ℕ))
  | closed

/-- The first argument of `_read`. -/
def Access.buffersize (size : ℕ) : Access → ℤ
  | .getItem _ => 1
  | .getSlice start stop => stop - start
  | .rfind _ start => size - start - 1

/-- The second argument of `_read`. -/
def Access.offset : Access → ℕ
  | .getItem index => index
  | .getSlice start _ => start
  | .rfind _ start => start

/-- What becomes of what `_read` returns or raises. -/
def Access.answer : Access → Except Exc Bytes → Result
  | .getItem _, r => .item (r.bind fun b => bytesGetItem b 0)
  | .getSlice _ _, r => .slice r
  | .rfind needle start, r => .found (r.map fun b => (Octets.rfind b needle 0).map (start + ·))

/-! ## The code -/

/-- The handle of the file: its position, and whether it is closed. -/
structure Handle where
  position : ℕ
  closed : Bool

/-- Where a thread is. -/
inductive Pc where
  | acquire (access : Access)
  | seek (access : Access)
  | read (access : Access)
  | release (access : Access) (result : Except Exc Bytes)
  | finish (access : Access) (result : Except Exc Bytes)
  | close
  | ret (result : Result)

/-- `read` of a handle: the size -1 stands for the rest of the file. -/
def readAt (content : Bytes) (buffersize : ℤ) (position : ℕ) : Except Exc Bytes :=
  if buffersize < -1 then .error .valueError
  else if buffersize = -1 then .ok (content.drop position)
  else .ok (Octets.slice content position (position + buffersize.toNat))

section

variable (fb : FileBuffer)

/-- `_read` under the lock, with the method that calls it, and `close`. A thread that does not get the
lock waits for it. -/
def code : Pc → Instr Handle Unit Pc
  | .acquire access => .acquire .exclusive (.seek access) (.acquire access)
  | .seek access => .act fun _ h =>
    if h.closed then (h, .release access (.error .valueError))
    else ({ h with position := access.offset }, .read access)
  | .read access => .act fun _ h =>
    if h.closed then (h, .release access (.error .valueError))
    else
      let result := readAt fb.content (access.buffersize fb.size) h.position
      ({ h with position := h.position + result.toOption.elim 0 List.length }, .release access result)
  | .release access result => .release .exclusive (.finish access result)
  | .finish access result => .act fun _ h => (h, .ret (access.answer result))
  | .close => .act fun _ h => ({ h with closed := true }, .ret .closed)
  | .ret _ => .done

/-- The calls that a thread may make: some accesses, and `close`. -/
inductive Starts (accesses : Access → Prop) (s : State ι Handle Pc) (t : ι) : Pc → Prop where
  | access {access : Access} : accesses access → Starts accesses s t (.acquire access)
  | close : Starts accesses s t .close

/-! ## The buffer that reads with `pread` -/

/-- An access of a `FileBuffer`. -/
def perform : Access → Result
  | .getItem index => .item (fb.getItem index)
  | .getSlice start stop => .slice (fb.read (stop - start) start)
  | .rfind needle start => .found (fb.rfind needle start)

/-- What may happen at one moment to a buffer that is closed or not. -/
inductive Performs : Bool → Pc → Pc → Bool → Prop where
  | access {access : Access} : Performs false (.acquire access) (.ret (perform fb access)) false
  | refused {access : Access} :
      Performs true (.acquire access) (.ret (access.answer (.error .valueError))) true
  | close {closed : Bool} : Performs closed .close (.ret .closed) true

end

section

variable {fb : FileBuffer} {access : Access}

/-- A slice that does not end before it begins is the one that `__getitem__` returns. -/
theorem perform_getSlice {start stop : ℕ} (h : start ≤ stop) :
    perform fb (.getSlice start stop) = .slice (.ok (fb.getSlice start stop)) := by
  have hsize : ¬ ((stop : ℤ) - start < 0) := by omega
  have hlen : ((stop : ℤ) - start).toNat = stop - start := by omega
  rw [perform, FileBuffer.read, if_neg hsize, hlen]
  rfl

theorem perform_eq :
    perform fb access = access.answer (fb.read (access.buffersize fb.size) access.offset) := by
  cases access with
  | getItem index => rfl
  | getSlice start stop => rfl
  | rfind needle start =>
    show Result.found (fb.rfind needle start) = Result.found ((fb.read (fb.size - start - 1) start).map _)
    unfold FileBuffer.rfind
    cases fb.read (fb.size - start - 1) start with
    | error => rfl
    | ok b =>
      show _ = Result.found (.ok ((Octets.rfind b needle 0).map (start + ·)))
      cases hpos : Octets.rfind b needle 0 with
      | none => simp [bind, Except.bind, hpos, pure, Except.pure]
      | some pos => simp [bind, Except.bind, hpos, pure, Except.pure]

theorem answer_readAt (h : 0 ≤ access.buffersize fb.size) :
    access.answer (readAt fb.content (access.buffersize fb.size) access.offset) =
      perform fb access := by
  rw [perform_eq, readAt, FileBuffer.read, if_neg (by omega), if_neg (by omega), if_neg (by omega)]
  rfl

theorem readAt_ne (content : Bytes) (buffersize : ℤ) (position : ℕ) :
    readAt content buffersize position ≠ .error .osError := by
  unfold readAt
  split_ifs <;> exact fun h => by cases h

/-- Where it is negative, only `pread` raises an `OSError`. -/
theorem answer_ne_perform (h : access.buffersize fb.size < 0) (position : ℕ) :
    access.answer (readAt fb.content (access.buffersize fb.size) position) ≠ perform fb access := by
  have hne := readAt_ne fb.content (access.buffersize fb.size) position
  rw [perform_eq, FileBuffer.read, if_pos h]
  revert hne
  generalize readAt fb.content (access.buffersize fb.size) position = result
  intro hne heq
  cases access with
  | getItem index => exact absurd h (by simp [Access.buffersize])
  | getSlice start stop => exact hne (Result.slice.inj heq)
  | rfind needle start =>
    cases result with
    | ok b => cases Result.found.inj heq
    | error e =>
      cases Result.found.inj heq
      exact hne rfl

end

/-! ## The position is where the thread that holds the lock has put it -/

def Pc.held : Pc → Option Mode
  | .seek _ | .read _ | .release _ _ => some .exclusive
  | .acquire _ | .finish _ _ | .close | .ret _ => none

section

variable (fb : FileBuffer)

/-- A thread that is about to read has put the position where it reads. It reads no negative size. -/
def Pc.known : Pc → ℕ → Prop
  | .acquire access, _ | .seek access, _ => 0 ≤ access.buffersize fb.size
  | .read access, position => 0 ≤ access.buffersize fb.size ∧ position = access.offset
  | _, _ => True

variable {fb} in
theorem Pc.known_of_held {p : Pc} {position position' : ℕ} (h : p.held = none)
    (hknown : p.known fb position) : p.known fb position' := by
  cases p <;> first | exact hknown | cases h

def outline : Outline (code fb) Handle.position where
  held := Pc.held
  known := Pc.known fb
  inv _ := True
  acquire {p _ _ _} h := by cases p <;> cases h; exact ⟨rfl, rfl, rfl⟩
  known_acquire {p _ _ _} h _ hk := by cases p <;> cases h; exact ⟨hk, fun _ => hk⟩
  release {p _ _} h := by cases p <;> cases h; exact ⟨rfl, rfl⟩
  known_release {p _ _} h _ _ := by cases p <;> cases h; exact ⟨trivial, fun _ => trivial⟩
  act {p _} h _ m hk := by
    cases p <;> cases h
    case seek =>
      dsimp only
      split
      · exact ⟨rfl, trivial, fun hne => absurd rfl hne⟩
      · exact ⟨rfl, ⟨hk, rfl⟩, fun hne => absurd rfl hne⟩
    case read =>
      dsimp only
      split
      · exact ⟨rfl, trivial, fun hne => absurd rfl hne⟩
      · exact ⟨rfl, trivial, fun hne => absurd rfl hne⟩
    case finish | close => exact ⟨rfl, trivial, fun _ => rfl⟩
  stable _ _ _ _ _ _ hq := Pc.known_of_held hq
  done {p} h := by cases p <;> cases h; rfl

end

/-! ## The moment of an access -/

/-- How far the call of a thread is with the buffer that reads with `pread`. -/
def Pc.status : Pc → Status Pc
  | .acquire access | .seek access | .read access => .called (.acquire access)
  | .release access result | .finish access result => .decided (.ret (access.answer result))
  | .close => .called .close
  | .ret result => .decided (.ret result)

/-- How far the calls of the threads are. -/
def statuses (s : State ι Handle Pc) (t : ι) : Status Pc := (s.threads t).elim .idle Pc.status

section

variable {fb : FileBuffer} {p q : Pc} {m m' : Handle} {e : Event Pc}

theorem does_moment (h : Does (code fb) m p e q m') (hknown : p.known fb m.position) :
    q.status = p.status ∧ m'.closed = m.closed ∨
    ∃ call r, p.status = .called call ∧ q.status = .decided r ∧ Performs fb m.closed call r m'.closed := by
  cases h with
  | acquired hcode | failed hcode | released hcode =>
    cases p <;> cases hcode
    all_goals exact .inl ⟨rfl, rfl⟩
  | acted a hcode =>
    cases p <;> cases hcode
    case acted.seek access =>
      dsimp only
      split
      · next hclosed =>
        refine .inr ⟨_, _, rfl, rfl, ?_⟩
        rw [hclosed]
        exact .refused
      · exact .inl ⟨rfl, rfl⟩
    case acted.read access =>
      dsimp only
      split
      · next hclosed =>
        refine .inr ⟨_, _, rfl, rfl, ?_⟩
        rw [hclosed]
        exact .refused
      · next hopen =>
        obtain ⟨hsize, hposition⟩ : 0 ≤ access.buffersize fb.size ∧ m.position = access.offset := hknown
        refine .inr ⟨_, _, rfl, rfl, ?_⟩
        rw [Bool.eq_false_iff.mpr hopen, hposition, answer_readAt hsize]
        exact .access
    case acted.finish => exact .inl ⟨rfl, rfl⟩
    case acted.close => exact .inr ⟨_, _, rfl, rfl, .close⟩

end

/-! ## Every run -/

section

variable [DecidableEq ι] {fb : FileBuffer} {accesses : Access → Prop} {access : Access}
  {s s' : State ι Handle Pc} {t : ι} {p q : Pc} {H : List (Seen ι Pc)} {position : ℕ}

omit [DecidableEq ι] in
theorem outline_admits (hsize : ∀ access, accesses access → 0 ≤ access.buffersize fb.size) :
    (outline fb).Admits (Starts accesses : State ι Handle Pc → ι → Pc → Prop) := by
  intro s t p h
  cases h with
  | access haccess => exact ⟨rfl, fun _ => hsize _ haccess⟩
  | close => exact ⟨rfl, fun _ => trivial⟩

theorem statuses_back {x : Option Pc} (hothers : ∀ u, u ≠ t → s'.threads u = s.threads u)
    (hp : s.threads t = x) : Function.update (statuses s') t (x.elim .idle Pc.status) = statuses s := by
  funext u
  by_cases hu : u = t
  · rw [hu, Function.update_self, statuses, hp]
  · rw [Function.update_of_ne hu, statuses, statuses, hothers u hu]

/-- The run of the threads, and the buffer that reads with `pread`. -/
def simulation (hsize : ∀ access, accesses access → 0 ≤ access.buffersize fb.size) :
    Simulation (ι := ι) (code fb) (Starts accesses) (Performs fb) Unit where
  inv s _ := (outline fb).Holds s
  rel s _ st a := st = statuses s ∧ a = s.memory.closed
  total {s _} _ := ⟨_, _, rfl, rfl⟩
  call := by
    intro s g t p h ht hstart
    refine ⟨g, Outline.holds_step (outline_admits hsize) h (.start ht hstart), ?_⟩
    rintro st a ⟨rfl, rfl⟩
    refine ⟨?_, statuses_back (x := none) (fun u hu => State.move_threads_of_ne hu) ht, rfl⟩
    rw [statuses, State.move_threads_self]
    cases hstart <;> rfl
  inner := by
    intro s s' g h hinner
    refine ⟨g, Outline.holds_step (outline_admits hsize) h hinner.1, ?_⟩
    rintro st a ⟨rfl, rfl⟩
    obtain ⟨t, p, q, hpassage⟩ := hinner.exists_passage
    obtain ⟨e, hdoes⟩ := hpassage.does
    have hback := statuses_back (x := some p) hpassage.others hpassage.source
    have htarget : statuses s' t = q.status := by rw [statuses, hpassage.target, Option.elim_some]
    rcases does_moment hdoes (h.known t p hpassage.source) with ⟨hstatus, hclosed⟩ |
      ⟨call, r, hcalled, hdecided, hperforms⟩
    · refine .inl ⟨?_, hclosed⟩
      rw [← hback, Option.elim_some, ← hstatus, ← htarget, Function.update_eq_self]
    · refine .inr ⟨t, call, r, _, htarget.trans hdecided, ⟨?_, rfl⟩, hperforms⟩
      rw [← hcalled]
      exact hback
  ret := by
    intro s g t p h ht hcode
    refine ⟨g, Outline.holds_step (outline_admits hsize) h (.finish ht hcode), ?_⟩
    rintro st a ⟨rfl, rfl⟩
    refine ⟨by rw [statuses, State.move_threads_self, Option.elim_none], ?_, rfl⟩
    have hback : Function.update (statuses (s.move t none)) t p.status = statuses s :=
      statuses_back (fun u hu => State.move_threads_of_ne hu) ht
    cases p <;> cases hcode
    exact hback

theorem linearizable_of_nonneg (hsize : ∀ access, accesses access → 0 ≤ access.buffersize fb.size)
    (hrun : Run (code fb) (Starts accesses) (State.init ⟨position, false⟩) H s) :
    Linearizable (Performs fb) false H := by
  have hinit : (simulation hsize).inv (State.init ⟨position, false⟩ : State ι Handle Pc) () :=
    Outline.holds_init trivial
  exact (simulation hsize).linearizable_of_run hinit (fun st a h => ⟨h.1, h.2⟩) hrun

/-- One thread alone makes an access. -/
theorem run_alone (fb : FileBuffer) (t : ι) (haccess : accesses access) (position : ℕ) :
    ∃ s, Run (code fb) (Starts accesses) (State.init ⟨position, false⟩)
      [.call t (.acquire access), .ret t (.ret (access.answer
        (readAt fb.content (access.buffersize fb.size) access.offset)))] s := by
  have step : ∀ {H : List (Seen ι Pc)} {s x : State ι Handle Pc} {p q : Pc},
      Run (code fb) (Starts accesses) (State.init ⟨position, false⟩) H s → s.threads t = some p →
      Step (code fb) (Starts accesses) s (x.move t (some q)) → x.threads = s.threads →
      Run (code fb) (Starts accesses) (State.init ⟨position, false⟩) H (x.move t (some q)) :=
    fun hrun ht hstep hx => hrun.inner (inner_of_move hx ht hstep)
  have self : ∀ (x : State ι Handle Pc) (p : Pc), (x.move t (some p)).threads t = some p :=
    fun x p => x.move_threads_self t (some p)
  have run : Run (code fb) (Starts accesses) (State.init ⟨position, false⟩) _ _ :=
    Run.call .init (t := t) rfl (.access haccess)
  have run := step run (self _ _) (.acquireExclusive (self _ (.acquire access)) rfl rfl fun _ => rfl) rfl
  have run := step run (self _ _) (.act () (self _ (.seek access)) rfl) rfl
  have run := step run (self _ _) (.act () (self _ (.read access)) rfl) rfl
  have run := step run (self _ _) (.releaseExclusive (self _ (.release access _)) rfl rfl) rfl
  have run := step run (self _ _) (.act () (self _ (.finish access _)) rfl) rfl
  have run := Run.ret run (self _ _) rfl
  exact ⟨_, run⟩

theorem not_linearizable_of_neg (t : ι) (h : access.buffersize fb.size < 0) (position : ℕ) :
    ¬ Linearizable (Performs fb) false
      [.call t (.acquire access), .ret t (.ret (access.answer
        (readAt fb.content (access.buffersize fb.size) position)))] := by
  intro hlin
  obtain ⟨a, hperforms⟩ := hlin.performs_of_alone
  have hne := answer_ne_perform h position
  generalize access.answer (readAt fb.content (access.buffersize fb.size) position) = result
    at hperforms hne
  cases hperforms
  exact hne rfl

/-- **When a `FileBuffer` without `pread` is linearizable.** Any number of threads make certain accesses
of a buffer whose handle they share, and close it. Whatever their interleaving and the position at first,
what they see is what they see of the buffer that reads with `pread`, which does each call at one moment
between where it begins and where it returns, exactly when no access reads a negative size. -/
theorem file_linearizable_iff [Inhabited ι] (fb : FileBuffer) (accesses : Access → Prop) :
    (∀ (position : ℕ) (H : List (Seen ι Pc)) (s : State ι Handle Pc),
      Run (code fb) (Starts accesses) (State.init ⟨position, false⟩) H s →
        Linearizable (Performs fb) false H) ↔
      ∀ access, accesses access → 0 ≤ access.buffersize fb.size := by
  constructor
  · intro h access haccess
    by_contra hneg
    obtain ⟨s, hrun⟩ := run_alone fb (default : ι) haccess 0
    exact not_linearizable_of_neg default (not_le.mp hneg) _ (h 0 _ s hrun)
  · exact fun hsize position H s hrun => linearizable_of_nonneg hsize hrun

end

end MaxMindDB.SharedFile
