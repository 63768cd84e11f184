import MaxMindDB.Offsets

/-!
# Sessions with a reader

Whoever has opened a reader calls its methods in any order, makes iterators and resumes them, one at a time
and interleaved, and may close the reader at any moment.

`session_refines`: a session is one with a reader that is never closed, as long as the bytes are at hand; from
then on a call answers what it would have answered, when that is no data, or raises `ValueError`. Files with a
negative `node_count` are left out, since the model stops in them.
-/

namespace MaxMindDB

open Octets Except

/-- A reader and the frames of the iterators that have been made. -/
structure Session where
  handle : Handle
  iterators : List (List Frame)

/-- The calls of a session; iterators are numbered as they are made. -/
inductive ReaderCall where
  | get (a : IPAddress)
  | getWithPrefixLen (a : IPAddress)
  | metadata
  | enter
  | exit
  | close
  | iter
  | next (i : ℕ)

/-- The calls that close the reader. -/
def ReaderCall.closes : ReaderCall → Bool
  | .exit | .close => true
  | _ => false

/-- What a call returns or raises. -/
inductive ReaderAnswer where
  | record (x : Except Exc (Option Record))
  | lookup (x : Except Exc (Option Record × ℕ))
  | metadata (m : Metadata)
  /-- The reader itself. -/
  | entered (x : Except Exc Unit)
  | none
  | iterator (i : ℕ)
  /-- A network and its record, or `StopIteration`. -/
  | item (x : Except Exc (Option (IPNetwork × Record)))

/-- The model has stopped. -/
inductive ReaderAnswer.Stops : ReaderAnswer → Prop where
  | record : Stops (.record (.error .negativeOffset))
  | lookup : Stops (.lookup (.error .negativeOffset))
  | item : Stops (.item (.error .negativeOffset))

namespace Session

/-- One call. A number that no iterator has is that of a finished one. -/
def step (limit : ℕ) (s : Session) : ReaderCall → ReaderAnswer × Session
  | .get a => (.record ((s.handle.getWithPrefixLen limit a).map Prod.fst), s)
  | .getWithPrefixLen a => (.lookup (s.handle.getWithPrefixLen limit a), s)
  | .metadata => (.metadata s.handle.reader.metadata, s)
  | .enter => (.entered (if s.handle.closed then .error .valueError else .ok ()), s)
  | .exit => (.none, { s with handle := s.handle.close })
  | .close => (.none, { s with handle := s.handle.close })
  | .iter => (.iterator s.iterators.length, { s with iterators := s.iterators ++ [[.enter limit 0 0 0]] })
  | .next i =>
    let x := (s.handle.generator limit).next (s.iterators.getD i [])
    (.item x.1, { s with iterators := s.iterators.set i x.2 })

/-- The answers to calls, one after the other. -/
def run (limit : ℕ) : Session → List ReaderCall → List ReaderAnswer
  | _, [] => []
  | s, call :: calls => (s.step limit call).1 :: run limit (s.step limit call).2 calls

end Session

/-! ## Sessions in the abstract -/

/-- Whether the reader has been closed, and what is left of each iteration. -/
structure Outlook where
  closed : Bool
  rest : List (Gen Exc (IPNetwork × Record))

/-- What a call sees that should see `ideal`: that, or a `ValueError` once the bytes are gone, when it sees
no data. -/
structure Sees {β : Type} (available : Bool) (data : β → Prop) (ideal x : Except Exc β) : Prop where
  same : available = true → x = ideal
  refused : available = false → Refuses .valueError x ideal
  no_data : available = false → ∀ b, x = .ok b → ¬ data b

theorem Sees.map {β γ : Type} {available : Bool} {data : β → Prop} {data' : γ → Prop}
    {ideal x : Except Exc β} (h : Sees available data ideal x) (f : β → γ) (hf : ∀ b, data' (f b) → data b) :
    Sees available data' (ideal.map f) (x.map f) where
  same ha := by rw [h.same ha]
  refused ha := by
    rcases h.refused ha with rfl | rfl
    · exact .refused _ _
    · exact .refl _ _
  no_data ha c hc := by
    intro hdata
    cases x with
    | error e => cases hc
    | ok b =>
      cases hc
      exact h.no_data ha b rfl (hf b hdata)

theorem Sees.ne_error {β : Type} {available : Bool} {data : β → Prop} {ideal x : Except Exc β} {e : Exc}
    (h : Sees available data ideal x) (he : e ≠ .valueError) (hideal : ideal ≠ .error e) : x ≠ .error e := by
  cases available with
  | true =>
    rw [h.same rfl]
    exact hideal
  | false =>
    rcases h.refused rfl with rfl | rfl
    · rintro ⟨⟩
      exact he rfl
    · exact hideal

namespace Outlook

/-- The bytes are at hand: the reader is open, or keeps them. -/
def available (keeps : Bool) (t : Outlook) : Bool := keeps || !t.closed

/-- A call of a reader that answers as `r` while the bytes are at hand. -/
inductive Step (r : Reader) (limit : ℕ) (keeps : Bool) :
    Outlook → ReaderCall → ReaderAnswer → Outlook → Prop where
  | get {t a x} :
      Sees (t.available keeps) (fun v => v ≠ none) ((r.getWithPrefixLen limit a).map Prod.fst) x →
      Step r limit keeps t (.get a) (.record x) t
  | getWithPrefixLen {t a x} :
      Sees (t.available keeps) (fun v => v.1 ≠ none) (r.getWithPrefixLen limit a) x →
      Step r limit keeps t (.getWithPrefixLen a) (.lookup x) t
  | metadata {t} : Step r limit keeps t .metadata (.metadata r.metadata) t
  | enter {t} : Step r limit keeps t .enter (.entered (if t.closed then .error .valueError else .ok ())) t
  | exit {t} : Step r limit keeps t .exit .none { t with closed := true }
  | close {t} : Step r limit keeps t .close .none { t with closed := true }
  | iter {t} : Step r limit keeps t .iter (.iterator t.rest.length)
      { t with rest := t.rest ++ [r.iter limit] }
  | next {t i x} : Sees (t.available keeps) (fun item => item ≠ none) (t.rest.getD i .done).next.1 x →
      Step r limit keeps t (.next i) (.item x)
        { t with rest := t.rest.set i (if t.available keeps then (t.rest.getD i .done).next.2 else .done) }

/-- Calls with their answers. -/
inductive Run (r : Reader) (limit : ℕ) (keeps : Bool) :
    Outlook → List (ReaderCall × ReaderAnswer) → Prop where
  | nil {t} : Run r limit keeps t []
  | cons {t t' call answer calls} : Step r limit keeps t call answer t' → Run r limit keeps t' calls →
      Run r limit keeps t ((call, answer) :: calls)

/-- Where the reader does not stop, nor does what is left of an iteration, a call does not stop either. -/
theorem Step.not_stops {r : Reader} {limit : ℕ} {keeps : Bool} {t t' : Outlook} {call : ReaderCall}
    {answer : ReaderAnswer} (h : Step r limit keeps t call answer t')
    (hlookup : ∀ a, r.getWithPrefixLen limit a ≠ .error .negativeOffset)
    (hiter : (r.iter limit).raised ≠ some .negativeOffset)
    (hrest : ∀ g ∈ t.rest, g.raised ≠ some .negativeOffset) :
    ¬ answer.Stops ∧ ∀ g ∈ t'.rest, g.raised ≠ some .negativeOffset := by
  cases h with
  | @get a x hx =>
    have hne : (r.getWithPrefixLen limit a).map Prod.fst ≠ .error .negativeOffset := by
      intro hmap
      cases hget : r.getWithPrefixLen limit a with
      | error e => rw [hget] at hmap; cases hmap; exact hlookup a hget
      | ok v => rw [hget] at hmap; cases hmap
    refine ⟨fun hstops => ?_, hrest⟩
    cases hstops
    exact hx.ne_error (e := .negativeOffset) nofun hne rfl
  | @getWithPrefixLen a x hx =>
    refine ⟨fun hstops => ?_, hrest⟩
    cases hstops
    exact hx.ne_error (e := .negativeOffset) nofun (hlookup a) rfl
  | metadata => exact ⟨nofun, hrest⟩
  | enter => exact ⟨nofun, hrest⟩
  | exit => exact ⟨nofun, hrest⟩
  | close => exact ⟨nofun, hrest⟩
  | iter =>
    refine ⟨nofun, fun g hg => ?_⟩
    rcases List.mem_append.mp hg with hg | hg
    · exact hrest g hg
    · rw [List.mem_singleton.mp hg]
      exact hiter
  | @next i x hx =>
    have hget : (t.rest.getD i .done).raised ≠ some .negativeOffset := by
      rw [List.getD_eq_getElem?_getD]
      cases hi : t.rest[i]? with
      | none => nofun
      | some g => exact hrest g (List.mem_of_getElem? hi)
    obtain ⟨hfirst, hlater⟩ := Gen.next_raised_ne hget
    refine ⟨fun hstops => ?_, fun g hg => ?_⟩
    · cases hstops
      exact hx.ne_error (e := .negativeOffset) nofun hfirst rfl
    · rcases List.mem_or_eq_of_mem_set hg with hg | rfl
      · exact hrest g hg
      · split_ifs
        · exact hlater
        · nofun

theorem Run.uncons {r : Reader} {limit : ℕ} {keeps : Bool} {t : Outlook} {call : ReaderCall}
    {answer : ReaderAnswer} {calls : List (ReaderCall × ReaderAnswer)}
    (h : Run r limit keeps t ((call, answer) :: calls)) :
    ∃ t', Step r limit keeps t call answer t' ∧ Run r limit keeps t' calls := by
  cases h with
  | cons hstep hrun => exact ⟨_, hstep, hrun⟩

end Outlook

/-! ## Refinement -/

namespace Session

variable {r : Reader} {limit : ℕ} {keeps : Bool} {s : Session}

/-- The session as the abstract one sees it: its frames stand for what is left of their iterations. -/
def outlook (limit : ℕ) (s : Session) : Outlook :=
  ⟨s.handle.closed, s.iterators.map (Gen.all (Frame.gen s.handle.reader limit))⟩

/-- A session with the reader `r`, whose buffer is closed with it unless it keeps the bytes. -/
structure IsOf (r : Reader) (keeps : Bool) (s : Session) : Prop where
  reader : s.handle.reader = r
  keeps_iff : s.handle.bufferType = .bytes ↔ keeps = true
  bufferClosed : s.handle.bufferClosed = (s.handle.closed && !keeps)

theorem IsOf.available (h : s.IsOf r keeps) :
    (s.outlook limit).available keeps = !s.handle.bufferClosed := by
  rw [h.bufferClosed, Outlook.available, outlook]
  cases keeps <;> cases s.handle.closed <;> rfl

theorem IsOf.close (h : s.IsOf r keeps) : IsOf r keeps { s with handle := s.handle.close } where
  reader := h.reader
  keeps_iff := h.keeps_iff
  bufferClosed := by
    have hkeeps := h.keeps_iff
    show (s.handle.bufferClosed || decide (s.handle.bufferType ≠ .bytes)) = (true && !keeps)
    rw [h.bufferClosed]
    cases keeps <;> cases s.handle.closed <;> simp_all

theorem IsOf.step (h : s.IsOf r keeps) (call : ReaderCall) : (s.step limit call).2.IsOf r keeps := by
  cases call with
  | exit => exact h.close
  | close => exact h.close
  | get | getWithPrefixLen | metadata | enter | iter | next => exact ⟨h.reader, h.keeps_iff, h.bufferClosed⟩

theorem sees_lookup (h : s.IsOf r keeps) (a : IPAddress) :
    Sees ((s.outlook limit).available keeps) (fun v => v.1 ≠ none) (r.getWithPrefixLen limit a)
      (s.handle.getWithPrefixLen limit a) := by
  obtain rfl := h.reader
  rw [h.available]
  unfold Handle.getWithPrefixLen
  rw [← Reader.getWithPrefixLenBy_reads]
  cases hc : s.handle.bufferClosed with
  | false =>
    rw [s.handle.reads_of_open hc]
    exact ⟨fun _ => rfl, nofun, nofun⟩
  | true =>
    have hcloses := s.handle.reads_of_closed hc
    exact ⟨nofun, fun _ => Reader.getWithPrefixLenBy_refuses _ hcloses limit a,
      fun _ x hx => not_not.mpr (Reader.getWithPrefixLenBy_none _ hcloses hx)⟩

/-- What a call of `next` sees, and what it leaves of the iteration. -/
theorem sees_next (h : s.IsOf r keeps) (frames : List Frame) :
    Sees ((s.outlook limit).available keeps) (fun item => item ≠ none)
        (Gen.all (Frame.gen r limit) frames).next.1 ((s.handle.generator limit).next frames).1 ∧
      Gen.all (Frame.gen r limit) ((s.handle.generator limit).next frames).2 =
        if (s.outlook limit).available keeps then (Gen.all (Frame.gen r limit) frames).next.2
        else .done := by
  obtain rfl := h.reader
  rw [h.available, Coroutine.next_eq (generator_means s.handle.reader limit)]
  unfold Handle.generator
  cases hc : s.handle.bufferClosed with
  | false =>
    rw [s.handle.reads_of_open hc]
    exact ⟨⟨fun _ => rfl, nofun, nofun⟩, rfl⟩
  | true =>
    have hcloses := s.handle.reads_of_closed hc
    obtain ⟨hrest, hx⟩ := Coroutine.next_of_refuses
      (Reader.generator_refuses s.handle.reader hcloses limit) frames
    refine ⟨⟨nofun, fun _ => ?_, fun _ item hitem hne => ?_⟩, by rw [hrest]; rfl⟩
    · rcases hx with hx | ⟨hx, -⟩
      · exact .inl hx
      · exact .inr hx
    · obtain ⟨value, rfl⟩ := Option.ne_none_iff_exists'.mp hne
      rcases hx with hx | ⟨-, hx⟩
      · rw [hx] at hitem
        cases hitem
      · exact hx value hitem

/-- **One call of a session is one of the abstract one.** -/
theorem step_refines (h : s.IsOf r keeps) (call : ReaderCall) :
    Outlook.Step r limit keeps (s.outlook limit) call (s.step limit call).1
      ((s.step limit call).2.outlook limit) := by
  have hlookup : ∀ a, Sees ((s.outlook limit).available keeps) (fun v => v.1 ≠ none)
      (r.getWithPrefixLen limit a) (s.handle.getWithPrefixLen limit a) := fun a => sees_lookup h a
  obtain rfl := h.reader
  cases call with
  | get a => exact .get ((hlookup a).map Prod.fst fun v hv => hv)
  | getWithPrefixLen a => exact .getWithPrefixLen (hlookup a)
  | metadata => exact .metadata
  | enter => exact .enter
  | exit => exact .exit
  | close => exact .close
  | iter =>
    have hgen : Gen.all (Frame.gen s.handle.reader limit) [.enter limit 0 0 0] =
        s.handle.reader.iter limit :=
      Gen.andThen_done _
    have hstep : Outlook.Step s.handle.reader limit keeps (s.outlook limit) .iter _ _ := .iter
    unfold outlook at hstep ⊢
    rw [← hgen, List.length_map] at hstep
    simpa only [Session.step, List.map_append, List.map_cons, List.map_nil] using hstep
  | next i =>
    have hget : (s.outlook limit).rest.getD i .done =
        Gen.all (Frame.gen s.handle.reader limit) (s.iterators.getD i []) :=
      List.getD_map _ [] _
    obtain ⟨hsees, hrest⟩ := sees_next h (s.iterators.getD i [])
    rw [← hget] at hsees hrest
    have hstep : Outlook.Step s.handle.reader limit keeps (s.outlook limit) (.next i) _ _ := .next hsees
    rw [← hrest] at hstep
    simpa only [Session.step, outlook, List.map_set] using hstep

theorem run_refines (h : s.IsOf r keeps) (calls : List ReaderCall) :
    Outlook.Run r limit keeps (s.outlook limit) (calls.zip (s.run limit calls)) := by
  induction calls generalizing s with
  | nil => exact .nil
  | cons call calls ih => exact .cons (step_refines h call) (ih (h.step call))

theorem run_not_stops (h : s.IsOf r keeps)
    (hlookup : ∀ a, r.getWithPrefixLen limit a ≠ .error .negativeOffset)
    (hiter : (r.iter limit).raised ≠ some .negativeOffset)
    (hrest : ∀ g ∈ (s.outlook limit).rest, g.raised ≠ some .negativeOffset) (calls : List ReaderCall) :
    ∀ answer ∈ s.run limit calls, ¬ answer.Stops := by
  induction calls generalizing s with
  | nil => nofun
  | cons call calls ih =>
    obtain ⟨hanswer, hlater⟩ := (step_refines h call).not_stops hlookup hiter hrest
    intro answer hmem
    rcases List.mem_cons.mp hmem with rfl | hmem
    · exact hanswer
    · exact ih (h.step call) hlater answer hmem

theorem isOf_opened {platform : Platform} {mode : ℤ} {f : Bytes} {filename : String} {limit₀ : ℕ}
    {h : Handle} (ho : openDatabase platform mode f filename limit₀ = .ok (.python h)) (limit : ℕ) :
    IsOf h.reader (decide (mode = modeMemory ∨ mode = modeFd)) ⟨h, []⟩ ∧
      outlook limit ⟨h, []⟩ = ⟨false, []⟩ := by
  obtain ⟨buffer, r, hload, -, hh⟩ := Reader.init_eq_ok.mp (openDatabase_python ho)
  refine ⟨⟨rfl, (Reader.loadBuffer_bytes hload).trans decide_eq_true_iff.symm, ?_⟩, ?_⟩ <;> rw [hh] <;> rfl

theorem opened_not_stops {platform : Platform} {mode : ℤ} {f : Bytes} {filename : String} {limit₀ : ℕ}
    {h : Handle} (ho : openDatabase platform mode f filename limit₀ = .ok (.python h))
    (hcount : h.reader.metadata.NodeCountNonneg) (limit : ℕ) (calls : List ReaderCall) :
    ∀ answer ∈ (Session.mk h []).run limit calls, ¬ answer.Stops := by
  have hi := openDatabase_python ho
  obtain ⟨buffer, r, hload, hnew, hh⟩ := Reader.init_eq_ok.mp hi
  have hnew' : Reader.new buffer filename limit₀ = .ok h.reader := by rw [hnew, hh]
  have hb := toSliceable_of_init hi
  obtain ⟨hof, hopened⟩ := isOf_opened ho limit
  refine run_not_stops hof (Reader.getWithPrefixLen_ne hnew' hb limit)
    (Reader.iter_raised_ne hnew' hb hcount limit) ?_ calls
  rw [hopened]
  nofun

/-- **A session is one with a reader that is never closed, as long as the bytes are at hand**, and it does
not stop, where `node_count` is not negative. The modes `MODE_MEMORY` and `MODE_FD` keep the bytes. -/
theorem session_refines {platform : Platform} {mode : ℤ} {f : Bytes} {filename : String} {limit₀ : ℕ}
    {h : Handle} (ho : openDatabase platform mode f filename limit₀ = .ok (.python h))
    (hcount : h.reader.metadata.NodeCountNonneg) (limit : ℕ) (calls : List ReaderCall) :
    Outlook.Run h.reader limit (decide (mode = modeMemory ∨ mode = modeFd)) ⟨false, []⟩
      (calls.zip ((Session.mk h []).run limit calls)) ∧
    ∀ answer ∈ (Session.mk h []).run limit calls, ¬ answer.Stops := by
  obtain ⟨hof, hopened⟩ := isOf_opened ho limit
  exact ⟨hopened ▸ run_refines hof calls, opened_not_stops ho hcount limit calls⟩

/-- A record is found until the bytes are gone. -/
theorem lookups_of_run {a : IPAddress} {v : Record} {k : ℕ} {x y : Except Exc (Option Record × ℕ)}
    (h : Outlook.Run r limit false ⟨false, []⟩
      [(.getWithPrefixLen a, .lookup x), (.close, .none), (.getWithPrefixLen a, .lookup y)])
    (hget : r.getWithPrefixLen limit a = .ok (some v, k)) :
    x = .ok (some v, k) ∧ y = .error .valueError := by
  obtain ⟨t₁, hfirst, h⟩ := h.uncons
  obtain ⟨t₂, hclose, h⟩ := h.uncons
  obtain ⟨t₃, hlast, -⟩ := h.uncons
  cases hfirst with
  | getWithPrefixLen hx =>
    cases hclose
    cases hlast with
    | getWithPrefixLen hy =>
      refine ⟨(hx.same rfl).trans hget, (hy.refused rfl).resolve_right fun hsame => ?_⟩
      rw [hget] at hsame
      exact hy.no_data rfl _ hsame nofun

/-! The sample, as a memory map and as a `FileBuffer`. -/

theorem sample_opened : ∃ limit₀ limit r r',
    openDatabase ⟨true, false⟩ modeMmap (Sample.database false).file "Test.mmdb" limit₀ =
      .ok (.python ⟨r, .mmap, false, false⟩) ∧
    openDatabase ⟨true, false⟩ modeFile (Sample.database false).file "Test.mmdb" limit₀ =
      .ok (.python ⟨r', .fileBuffer, false, false⟩) ∧
    r.getWithPrefixLen limit Sample.address = .ok (some (.str "a"), 1) ∧
    r.metadata.NodeCountNonneg := by
  obtain ⟨limit₀, hnew⟩ := Sample.database_opens false "Test.mmdb"
  obtain ⟨limit, hget⟩ := (Sample.get_address false).exists
  have hne : (Sample.database false).file ≠ [] := by decide
  have hfile := new_toBuffer ((rfind_marker_iff hne).mpr (by decide +kernel)) "Test.mmdb" limit₀
  rw [hnew] at hfile
  refine ⟨limit₀, limit, _, _, openDatabase_of_new (by decide) rfl (Reader.loadBuffer_mmap hne) hnew,
    openDatabase_of_new (by decide) rfl rfl hfile, hget, fun n hn => ?_⟩
  rw [(Sample.database false).reader_hasNodeCount] at hn
  cases hn
  exact Int.natCast_nonneg _

theorem sample_session : ∃ limit₀ limit r,
    openDatabase ⟨true, false⟩ modeMmap (Sample.database false).file "Test.mmdb" limit₀ =
      .ok (.python ⟨r, .mmap, false, false⟩) ∧
    (Session.mk ⟨r, .mmap, false, false⟩ []).run limit
        [.getWithPrefixLen Sample.address, .close, .getWithPrefixLen Sample.address] =
      [.lookup (.ok (some (.str "a"), 1)), .none, .lookup (.error .valueError)] := by
  obtain ⟨limit₀, limit, r, -, ho, -, hget, hcount⟩ := sample_opened
  refine ⟨limit₀, limit, r, ho, ?_⟩
  obtain ⟨hx, hy⟩ := lookups_of_run (session_refines ho hcount limit
    [.getWithPrefixLen Sample.address, .close, .getWithPrefixLen Sample.address]).1 hget
  simp only [run, step] at hx hy ⊢
  rw [hx, hy]

/-! ## Sessions in two modes -/

end Session

end MaxMindDB
