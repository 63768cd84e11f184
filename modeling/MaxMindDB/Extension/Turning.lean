import MaxMindDB.Extension.AtomicReader
import MaxMindDB.Extension.OwnedOnce
import MaxMindDB.Extension.Traversal

/-!
# The loop of `next`, step by step

Between two turns of its loop, a call of `ReaderIter_next` has brought the list that it found to the list
that is now in memory (`Turns`); within a turn it has taken the first record of the list
(`Pc.Iterates`). What other calls do leaves all of this as it is, as the records belong to this call and
to its iterator.
-/

namespace MaxMindDB.Extension

open Octets OwnedList RwLock

variable {ι : Type*} {Entry Data Value : Type}

/-! ## Turns -/

/-- A record that is not skipped leads to a node. -/
def Expands (lib : LibTree Entry) (record : QueuedRecord Entry) : Prop :=
  record.type = .searchNode ∧ ¬ Skipped lib record

/-- The network of a record, as `ip_network` is called with it. -/
def IsNetwork (lib : LibTree Entry) (record : QueuedRecord Entry) (address : Bytes) (prefixLen : ℤ) :
    Prop :=
  let ipStart := if lib.depth = 128 ∧ !isIpv6 record.ipPacked then 12 else 0
  let ipLength := if lib.depth = 128 ∧ isIpv6 record.ipPacked then 16 else 4
  address = slice record.ipPacked ipStart (ipStart + ipLength) ∧
    prefixLen = record.depth - ipStart * 8

section

variable {lib : LibTree Entry} {calls : TurnCalls} {cur : QueuedRecord Entry}
  {next : List (QueuedRecord Entry)}

theorem turn_of_invalid (h : cur.type = .invalid) :
    turn lib calls cur next = .done (.raised .maxMindDBError cur) := by
  unfold turn
  rw [h]

theorem turn_of_unknown {type : ℕ} (h : cur.type = .unknown type) :
    turn lib calls cur next = .done (.raised .maxMindDBError cur) := by
  unfold turn
  rw [h]

theorem turn_of_empty (h : cur.type = .empty) : turn lib calls cur next = .again next := by
  unfold turn
  rw [h]

theorem turn_of_skipped (h : cur.type = .searchNode) (hskipped : Skipped lib cur) :
    turn lib calls cur next = .again next := by
  unfold turn
  rw [h]
  exact if_pos hskipped

theorem turn_of_expands (h : Expands lib cur) : turn lib calls cur next =
    if !calls.readNode then .done (.raised .maxMindDBError cur)
    else if !calls.callocLeft then .done (.raised .noMemory cur)
    else if !calls.callocRight then .done (.raised .noMemory cur)
    else match setBit cur.ipPacked cur.depth with
      | none => .done .outOfBounds
      | some ipPacked =>
        let node := lib.readNode (cur.record % 2 ^ 32)
        .again (node.left.queue cur.ipPacked (cur.depth + 1) ::
          node.right.queue ipPacked (cur.depth + 1) :: next) := by
  unfold turn
  rw [h.1]
  exact if_neg h.2

theorem turn_of_data (h : cur.type = .data) {address : Bytes} {prefixLen : ℤ}
    (hnetwork : IsNetwork lib cur address prefixLen) : turn lib calls cur next =
    .done (if !calls.getEntryDataList then .raised .maxMindDBError cur
    else if !calls.fromEntryDataList then .raised .propagated cur
    else if !calls.networkTuple then .raised .propagated cur
    else if !calls.args then .raised .propagated cur
    else if !calls.ipNetwork then .raised .propagated cur
    else if !calls.result then .raised .propagated cur
    else .item address prefixLen cur) := by
  obtain ⟨rfl, rfl⟩ := hnetwork
  unfold turn
  rw [h]
  dsimp only
  split_ifs <;> rfl

end

/-- Turns of the loop that go on bring one list to another. -/
inductive Turns (lib : LibTree Entry) (queue : List (QueuedRecord Entry)) :
    List (QueuedRecord Entry) → Prop where
  | refl : Turns lib queue queue
  | tail {cur : QueuedRecord Entry} {next next' : List (QueuedRecord Entry)} (calls : TurnCalls) :
      Turns lib queue (cur :: next) → turn lib calls cur next = .again next' → Turns lib queue next'

section

variable {lib : LibTree Entry} {queue next : List (QueuedRecord Entry)}

theorem loop_congr {calls calls' : ℕ → TurnCalls} {k k' : ℕ}
    (h : ∀ j, calls (k + j) = calls' (k' + j)) (next : List (QueuedRecord Entry)) :
    loop lib calls k next = loop lib calls' k' next := by
  induction hm : weight next using Nat.strong_induction_on generalizing k k' next with
  | _ m ih =>
  rcases next with _ | ⟨cur, next⟩
  · rw [loop, loop]
  have hk : calls k = calls' k' := h 0
  cases hturn : turn lib (calls k) cur next with
  | again next' =>
    rw [loop_of_again hturn, loop_of_again (hk ▸ hturn)]
    refine ih _ (hm ▸ weight_of_again hturn) (fun j => ?_) next' rfl
    rw [Nat.add_assoc, Nat.add_assoc]
    exact h (1 + j)
  | done outcome => rw [loop_of_done hturn, loop_of_done (hk ▸ hturn)]

/-- A turn, and the turns after it. -/
def TurnCalls.then (turns : TurnCalls) (calls : ℕ → TurnCalls) : ℕ → TurnCalls
  | 0 => turns
  | k + 1 => calls k

/-- The loop goes on from where turns have brought it. -/
theorem Turns.loop_eq (h : Turns lib queue next) (calls : ℕ → TurnCalls) :
    ∃ calls', loop lib calls' 0 queue = loop lib calls 0 next := by
  induction h generalizing calls with
  | refl => exact ⟨calls, rfl⟩
  | @tail cur next next' turns _ hturn ih =>
    obtain ⟨calls', hcalls⟩ := ih (turns.then calls)
    refine ⟨calls', hcalls.trans ?_⟩
    rw [loop_of_again hturn]
    refine loop_congr (fun j => ?_) next'
    have hj : 0 + 1 + j = j + 1 := by omega
    rw [hj, Nat.zero_add]
    rfl

theorem Turns.readerIterNext_of_done {cur : QueuedRecord Entry} {turns : TurnCalls}
    {outcome : Outcome Entry} (h : Turns lib queue (cur :: next))
    (hturn : turn lib turns cur next = .done outcome) :
    ∃ calls, readerIterNext lib ⟨true, false, calls⟩ queue = (outcome, next) := by
  obtain ⟨calls, hcalls⟩ := h.loop_eq fun _ => turns
  exact ⟨calls, hcalls.trans (loop_of_done hturn)⟩

theorem Turns.readerIterNext_of_nil (h : Turns lib queue []) :
    ∃ calls, readerIterNext lib ⟨true, false, calls⟩ queue = (.stopIteration, []) := by
  obtain ⟨calls, hcalls⟩ := h.loop_eq fun _ => .succeed
  refine ⟨calls, hcalls.trans ?_⟩
  rw [loop]

end

/-! ## Lists in memory -/

/-- The records that a list in memory is made of. -/
inductive Listed (m : Memory Entry Data) : Option ℕ → List (QueuedRecord Entry) → Prop where
  | nil : Listed m none []
  | cons {a : ℕ} {record : QueuedRecord Entry} {link : Option ℕ}
      {next : List (QueuedRecord Entry)} : m.cells a = some ⟨record, link⟩ → Listed m link next →
      Listed m (some a) (record :: next)

section

variable {m m' : Memory Entry Data} {own own' : ℕ → Option (Owner ι)} {x : Option ℕ} {o : Owner ι}
  {next : List (QueuedRecord Entry)}

theorem Listed.frame (h : Listed m x next) (howned : Owned m.link own o x)
    (hcells : ∀ a, own a = some o → m'.cells a = m.cells a) : Listed m' x next := by
  obtain ⟨L, hchain, hown⟩ := howned
  induction h generalizing L with
  | nil => exact .nil
  | @cons a record link next hcell _ ih =>
    cases hchain with
    | @cons _ y L hlink hchain =>
      have hy : y = link := by
        rw [Memory.link, hcell, Option.map_some] at hlink
        exact (Option.some.inj hlink).symm
      subst hy
      have ha := hown a List.mem_cons_self
      exact .cons ((hcells a ha).trans hcell) (ih L hchain fun b hb => hown b (List.mem_cons_of_mem _ hb))

theorem Listed.congr (h : Listed m x next) (hcells : m'.cells = m.cells) : Listed m' x next := by
  induction h with
  | nil => exact .nil
  | cons hcell _ ih => exact .cons (by rw [hcells, hcell]) ih

theorem Listed.eq_nil (h : Listed m none next) : next = [] := by
  cases h
  rfl

end

/-! ## What a call has come to -/

/-- A call has come to a record of the list, which it has taken off it. -/
def Handles (lib : LibTree Entry) (queue : List (QueuedRecord Entry)) (m : Memory Entry Data)
    (i cur : ℕ) (P : QueuedRecord Entry → Prop) : Prop :=
  ∃ record link next, m.cells cur = some ⟨record, link⟩ ∧ Listed m (m.next i) next ∧
    Turns lib queue (record :: next) ∧ P record

/-- A call has brought its list to the one in memory. -/
def Reaches (lib : LibTree Entry) (queue : List (QueuedRecord Entry)) (m : Memory Entry Data)
    (i : ℕ) : Prop :=
  ∃ next, Listed m (m.next i) next ∧ Turns lib queue next

section

variable (mmdb : Mmdb Entry Data) (fromEntryDataList : Data → Except PyErr Value)
  (queues : ℕ → List (QueuedRecord Entry)) (m : Memory Entry Data)

/-- How far a call of `next` is with the list that it found. -/
def Pc.Iterates : Pc Entry Data Value → Prop
  | .nextState i | .nextAcquire i | .nextTest i => Listed m (m.next i) (queues i)
  | .nextWhile i | .nextFree i _ => Reaches mmdb.tree (queues i) m i
  | .nextLoad i => m.next i ≠ none ∧ Reaches mmdb.tree (queues i) m i
  | .nextStore i cur => m.next i = some cur ∧ Reaches mmdb.tree (queues i) m i
  | .nextSwitch i cur => Handles mmdb.tree (queues i) m i cur fun _ => True
  | .nextSkip i cur => Handles mmdb.tree (queues i) m i cur fun record => record.type = .searchNode
  | .nextReadNode i cur => Handles mmdb.tree (queues i) m i cur (Expands mmdb.tree)
  | .nextLeft i cur node => Handles mmdb.tree (queues i) m i cur fun record =>
    Expands mmdb.tree record ∧ node = mmdb.tree.readNode (record.record % 2 ^ 32)
  | .nextRight i cur node left => Handles mmdb.tree (queues i) m i cur fun record =>
    (Expands mmdb.tree record ∧ node = mmdb.tree.readNode (record.record % 2 ^ 32)) ∧
      m.cells left = some ⟨node.left.queue record.ipPacked (record.depth + 1), none⟩
  | .nextTail i cur left right => Handles mmdb.tree (queues i) m i cur fun record =>
    ∃ node ipPacked, (Expands mmdb.tree record ∧ node = mmdb.tree.readNode (record.record % 2 ^ 32)) ∧
      setBit record.ipPacked record.depth = some ipPacked ∧
      m.cells left = some ⟨node.left.queue record.ipPacked (record.depth + 1), some right⟩ ∧
      m.cells right = some ⟨node.right.queue ipPacked (record.depth + 1), none⟩
  | .nextLink i cur left => Handles mmdb.tree (queues i) m i cur fun record =>
    ∃ right node ipPacked,
      (Expands mmdb.tree record ∧ node = mmdb.tree.readNode (record.record % 2 ^ 32)) ∧
      setBit record.ipPacked record.depth = some ipPacked ∧
      m.cells left = some ⟨node.left.queue record.ipPacked (record.depth + 1), some right⟩ ∧
      m.cells right = some ⟨node.right.queue ipPacked (record.depth + 1), m.next i⟩
  | .nextEntries i cur => Handles mmdb.tree (queues i) m i cur fun record => record.type = .data
  | .nextConvert i cur data => Handles mmdb.tree (queues i) m i cur fun record =>
    record.type = .data ∧ mmdb.lookup.getEntryDataList record.entry = .ok data
  | .nextNetwork i cur value => Handles mmdb.tree (queues i) m i cur fun record =>
    record.type = .data ∧ ∃ data, mmdb.lookup.getEntryDataList record.entry = .ok data ∧
      fromEntryDataList data = .ok value
  | .nextBuild i cur address prefixLen value => Handles mmdb.tree (queues i) m i cur fun record =>
    (record.type = .data ∧ ∃ data, mmdb.lookup.getEntryDataList record.entry = .ok data ∧
      fromEntryDataList data = .ok value) ∧ IsNetwork mmdb.tree record address prefixLen
  | _ => True

end

/-! ## What others do -/

section

variable {mmdb : Mmdb Entry Data} {fromEntryDataList : Data → Except PyErr Value} {lib : LibTree Entry}
  {queues queues' : ℕ → List (QueuedRecord Entry)} {queue : List (QueuedRecord Entry)}
  {m m' : Memory Entry Data} {own own' : ℕ → Option (Owner ι)} {t : ι} {i cur : ℕ}
  {p : Pc Entry Data Value} {P P' : QueuedRecord Entry → Prop}

theorem Handles.mono (h : Handles lib queue m i cur P) (hcell : m'.cells cur = m.cells cur)
    (hlist : ∀ next, Listed m (m.next i) next → Listed m' (m'.next i) next)
    (hP : ∀ record, P record → P' record) : Handles lib queue m' i cur P' := by
  obtain ⟨record, link, next, hcur, hnext, hturns, hrecord⟩ := h
  exact ⟨record, link, next, hcell.trans hcur, hlist next hnext, hturns, hP record hrecord⟩

theorem Reaches.mono (h : Reaches lib queue m i)
    (hlist : ∀ next, Listed m (m.next i) next → Listed m' (m'.next i) next) :
    Reaches lib queue m' i := by
  obtain ⟨next, hnext, hturns⟩ := h
  exact ⟨next, hlist next hnext, hturns⟩

/-- What leaves the records of a call and of its iterator as they are leaves the call where it is. -/
theorem Pc.Iterates.frame (h : p.Iterates mmdb fromEntryDataList queues m) (hledger : Ledger own m)
    (hfits : p.Fits own t m) (hthread : ∀ a, own a = some (.thread t) → m'.cells a = m.cells a)
    (hiterator : ∀ i, p.iterator = some i → (∀ a, own a = some (.iterator i) →
      m'.cells a = m.cells a) ∧ m'.next i = m.next i ∧ queues' i = queues i) :
    p.Iterates mmdb fromEntryDataList queues' m' := by
  have hlist : ∀ i, p.iterator = some i → ∀ next, Listed m (m.next i) next →
      Listed m' (m'.next i) next := by
    intro i hi next hnext
    rw [(hiterator i hi).2.1]
    exact hnext.frame (hledger.lists i) (hiterator i hi).1
  have hhas : ∀ cur ∈ p.taken, m'.cells cur = m.cells cur :=
    fun cur hcur => hthread cur (hfits.has cur hcur)
  have hlinked := hfits.linked
  cases p
  case nextState i | nextAcquire i | nextTest i =>
    show Listed m' (m'.next i) (queues' i)
    rw [(hiterator i rfl).2.2]
    exact hlist i rfl _ h
  case nextWhile i | nextFree i _ =>
    show Reaches mmdb.tree (queues' i) m' i
    rw [(hiterator i rfl).2.2]
    exact Reaches.mono h (hlist i rfl)
  case nextLoad i | nextStore i _ =>
    refine ⟨?_, ?_⟩
    · rw [(hiterator i rfl).2.1]
      exact h.1
    · rw [(hiterator i rfl).2.2]
      exact h.2.mono (hlist i rfl)
  case nextRight i cur node left =>
    show Handles mmdb.tree (queues' i) m' i cur _
    rw [(hiterator i rfl).2.2]
    refine Handles.mono h (hhas cur (by simp [Pc.taken, Pc.records])) (hlist i rfl) fun record hr => ?_
    exact ⟨hr.1, (hhas left (by simp [Pc.taken, Pc.records])).trans hr.2⟩
  case nextTail i cur left right =>
    show Handles mmdb.tree (queues' i) m' i cur _
    rw [(hiterator i rfl).2.2]
    refine Handles.mono h (hhas cur (by simp [Pc.taken, Pc.records])) (hlist i rfl) fun record hr => ?_
    obtain ⟨node, ipPacked, hnode, hbit, hleft, hright⟩ := hr
    exact ⟨node, ipPacked, hnode, hbit, (hhas left (by simp [Pc.taken, Pc.records])).trans hleft,
      (hhas right (by simp [Pc.taken, Pc.records])).trans hright⟩
  case nextLink i cur left =>
    show Handles mmdb.tree (queues' i) m' i cur _
    rw [(hiterator i rfl).2.2]
    refine Handles.mono h (hhas cur (by simp [Pc.taken, Pc.records])) (hlist i rfl) fun record hr => ?_
    obtain ⟨right, node, ipPacked, hnode, hbit, hleft, hright⟩ := hr
    -- `right` is the record that `left` is linked to
    obtain ⟨right', x, -, hown, hlink, -⟩ := hlinked
    have heq : right' = right := by
      rw [Memory.link, hleft, Option.map_some] at hlink
      exact (Option.some.inj (Option.some.inj hlink)).symm
    subst heq
    refine ⟨right', node, ipPacked, hnode, hbit,
      (hhas left (by simp [Pc.taken, Pc.records])).trans hleft, ?_⟩
    rw [(hiterator i rfl).2.1]
    exact (hthread right' hown).trans hright
  case nextSwitch i cur | nextSkip i cur | nextReadNode i cur | nextLeft i cur _ | nextEntries i cur
      | nextConvert i cur _ | nextNetwork i cur _ | nextBuild i cur _ _ _ =>
    show Handles mmdb.tree (queues' i) m' i cur _
    rw [(hiterator i rfl).2.2]
    exact Handles.mono h (hhas cur (by simp [Pc.taken, Pc.records])) (hlist i rfl) fun _ hr => hr
  all_goals trivial

end

/-! ## What is in a record -/

section

variable [Inhabited Entry] {fromEntryDataList : Data → Except PyErr Value} {isDict : Value → Bool}
  {p q : Pc Entry Data Value} {m m' : Memory Entry Data}
  {effect : Bool → Memory Entry Data → Memory Entry Data × Pc Entry Data Value}
  {own own' : ℕ → Option (Owner ι)} {o : Owner ι}

/-- A record is freed, or keeps what is in it, but for its link. -/
def KeepsRecord (m m' : Memory Entry Data) (a : ℕ) : Prop :=
  m'.cells a = none ∨ (m'.cells a).map Cell.record = (m.cells a).map Cell.record

omit [Inhabited Entry] in
theorem keepsRecord_calloc {a : ℕ} (h : a ≠ m.brk) (cell : Cell Entry) :
    KeepsRecord m (m.calloc cell) a := by
  right
  show ((Function.update m.cells m.brk (some cell)) a).map Cell.record = _
  rw [Function.update_of_ne h]

omit [Inhabited Entry] in
theorem keepsRecord_setLink (m' : Memory Entry Data) {a : ℕ} (h : KeepsRecord m m' a) (cur : ℕ)
    (link : Option ℕ) : KeepsRecord m (m'.setLink cur link) a := by
  unfold KeepsRecord Memory.setLink
  by_cases ha : a = cur
  · subst ha
    dsimp only
    rw [Function.update_self]
    cases hcell : m'.cells a with
    | none => exact .inl rfl
    | some cell =>
      refine .inr ?_
      rcases h with h | h
      · rw [hcell] at h
        cases h
      · rw [hcell] at h
        exact h
  · dsimp only
    rw [Function.update_of_ne ha]
    exact h

omit [Inhabited Entry] in
theorem keepsRecord_free (cur a : ℕ) : KeepsRecord m (m.free cur) a := by
  unfold KeepsRecord Memory.free
  by_cases ha : a = cur
  · subst ha
    exact .inl (Function.update_self ..)
  · dsimp only
    rw [Function.update_of_ne ha]
    exact .inr rfl

theorem act_keepsRecord (h : code fromEntryDataList isDict p = .act effect) (ok : Bool)
    (m : Memory Entry Data) {a : ℕ} (ha : a ≠ m.brk) : KeepsRecord m (effect ok m).1 a := by
  have hkept : KeepsRecord m m a := .inr rfl
  have hcell : ∀ {cur : ℕ}
      {f : QueuedRecord Entry → Option ℕ → Memory Entry Data × Pc Entry Data Value},
      (∀ record link, KeepsRecord m (f record link).1 a) → KeepsRecord m (withCell m cur f).1 a :=
    withCell_of (C := fun x => KeepsRecord m x.1 a) hkept
  cases p <;> cases h
  case nextStore | nextSwitch | nextSkip | nextReadNode | nextEntries | nextNetwork =>
    exact hcell fun _ _ => .inr rfl
  case nextFree => exact hcell fun _ _ => keepsRecord_free _ _
  case nextLeft =>
    dsimp only
    split
    · exact hcell fun _ _ => keepsRecord_calloc ha _
    · exact hkept
  case nextRight =>
    dsimp only
    split
    · refine hcell fun record _ => ?_
      split
      · exact hkept
      · exact hcell fun _ _ => keepsRecord_setLink _ (keepsRecord_calloc ha _) _ _
    · exact hkept
  case nextTail => exact hcell fun _ _ => keepsRecord_setLink _ hkept _ _
  case nextFrees frees _ =>
    dsimp only
    split
    · exact hkept
    · split
      · exact hkept
      · exact keepsRecord_free _ _
  case iterCalloc =>
    dsimp only
    split
    · exact keepsRecord_calloc ha _
    · exact hkept
  all_goals exact .inr rfl

/-- Who keeps the links of its records keeps its records. -/
theorem cells_of_keeps {e : Event (Pc Entry Data Value)}
    (hdoes : Does (code fromEntryDataList isDict) m p e q m') (hledger : Ledger own m)
    (hledger' : Ledger own' m') (hkeeps : Keeps m.link m'.link own own' o) {a : ℕ}
    (ha : own a = some o) : m'.cells a = m.cells a := by
  obtain ⟨hown, hlink⟩ := hkeeps a ha
  have hkept : KeepsRecord m m' a := by
    cases hdoes with
    | acted ok hcode => exact act_keepsRecord hcode ok m (hledger.ne_brk ha)
    | acquired | failed | released => exact .inr rfl
  obtain ⟨cell, hcell⟩ := hledger.exists_cell ha
  obtain ⟨cell', hcell'⟩ := hledger'.exists_cell hown
  rcases hkept with hnone | hrecord
  · rw [hcell'] at hnone
    cases hnone
  · rw [Memory.link, Memory.link, hcell, hcell', Option.map_some, Option.map_some,
      Option.some.injEq] at hlink
    rw [hcell, hcell', Option.map_some, Option.map_some, Option.some.injEq] at hrecord
    rw [hcell, hcell']
    cases cell
    cases cell'
    dsimp only at hlink hrecord
    rw [hlink, hrecord]

end

/-! ## What the call does -/

/-- A call answers as `readerIterNext` does on the list that it found, which leaves the list that is in
memory. -/
def Answers (mmdb : Mmdb Entry Data) (fromEntryDataList : Data → Except PyErr Value)
    (queue : List (QueuedRecord Entry)) (m : Memory Entry Data) (i : ℕ) (result : Returned Value) :
    Prop :=
  ∃ call outcome next, call.closed = m.reader.closed ∧
    readerIterNext mmdb.tree call queue = (outcome, next) ∧
    outcome.Renders mmdb.lookup fromEntryDataList result ∧ Listed m (m.next i) next

/-- Where a step of the loop leads to. -/
inductive Turned (mmdb : Mmdb Entry Data) (fromEntryDataList : Data → Except PyErr Value)
    (queues : ℕ → List (QueuedRecord Entry)) (m : Memory Entry Data) (i : ℕ) :
    Pc Entry Data Value → Prop where
  | on {q : Pc Entry Data Value} : q.iterator = some i →
      q.Iterates mmdb fromEntryDataList queues m → Turned mmdb fromEntryDataList queues m i q
  | unlock {frees : List ℕ} {result : Returned Value} :
      Answers mmdb fromEntryDataList (queues i) m i result →
      Turned mmdb fromEntryDataList queues m i (.nextUnlock frees result)
  | stop {result : Returned Value} : Answers mmdb fromEntryDataList (queues i) m i result →
      Turned mmdb fromEntryDataList queues m i (.unlock .next result)
  | crashed (call : Call) : (readerIterNext mmdb.tree call (queues i)).1 = .outOfBounds →
      Turned mmdb fromEntryDataList queues m i .crashed

section

variable {mmdb : Mmdb Entry Data} {fromEntryDataList : Data → Except PyErr Value}
  {queues : ℕ → List (QueuedRecord Entry)} {m : Memory Entry Data} {i cur : ℕ}
  {P : QueuedRecord Entry → Prop} {result : Returned Value}

/-- A turn that ends the call, on the record that it has come to. -/
theorem Handles.answers (h : Handles mmdb.tree (queues i) m i cur P) (hopen : m.reader.closed = false)
    (hturn : ∀ record, P record → ∃ turns outcome,
      (∀ next, turn mmdb.tree turns record next = .done outcome) ∧
        outcome.Renders mmdb.lookup fromEntryDataList result) :
    Answers mmdb fromEntryDataList (queues i) m i result := by
  obtain ⟨record, link, next, -, hnext, hturns, hrecord⟩ := h
  obtain ⟨turns, outcome, hdone, hrenders⟩ := hturn record hrecord
  obtain ⟨calls, hcall⟩ := hturns.readerIterNext_of_done (hdone next)
  exact ⟨_, outcome, next, hopen.symm, hcall, hrenders, hnext⟩

/-- A turn that goes on, on the record that the call has come to. -/
theorem Handles.reaches (h : Handles mmdb.tree (queues i) m i cur P)
    (hturn : ∀ record, P record → ∃ turns, ∀ next, turn mmdb.tree turns record next = .again next) :
    Reaches mmdb.tree (queues i) m i := by
  obtain ⟨record, link, next, -, hnext, hturns, hrecord⟩ := h
  obtain ⟨turns, hagain⟩ := hturn record hrecord
  exact ⟨next, hnext, hturns.tail turns (hagain next)⟩

theorem Handles.exists_cell (h : Handles mmdb.tree (queues i) m i cur P) :
    ∃ record link, m.cells cur = some ⟨record, link⟩ ∧ P record := by
  obtain ⟨record, link, next, hcell, -, -, hrecord⟩ := h
  exact ⟨record, link, hcell, hrecord⟩

/-- What more is found out of the record a call has come to. -/
theorem Handles.learn {P' : QueuedRecord Entry → Prop} {record : QueuedRecord Entry} {link : Option ℕ}
    (h : Handles mmdb.tree (queues i) m i cur P) (hcell : m.cells cur = some ⟨record, link⟩)
    (hP : P record → P' record) : Handles mmdb.tree (queues i) m i cur P' := by
  obtain ⟨record', link', next, hcell', hnext, hturns, hrecord⟩ := h
  rw [hcell] at hcell'
  cases hcell'
  exact ⟨record, link, next, hcell, hnext, hturns, hP hrecord⟩

theorem withMmdb_of_mmdb (h : m.reader.mmdb = some mmdb) {f : Mmdb Entry Data → Pc Entry Data Value} :
    withMmdb m f = f mmdb := by
  rw [withMmdb, h]

end

section

variable {mmdb : Mmdb Entry Data} {fromEntryDataList : Data → Except PyErr Value}
  {queues : ℕ → List (QueuedRecord Entry)} {m m' : Memory Entry Data} {own : ℕ → Option (Owner ι)}
  {t : ι} {i : ℕ}

/-- The list of an iterator, in a memory where only a record of a thread or a new one is another. -/
theorem listed_of_thread (hledger : Ledger own m) {cur : ℕ} (hcur : own cur = some (.thread t) ∨ cur = m.brk)
    (hcells : ∀ a, a ≠ cur → m'.cells a = m.cells a) (hnext : m'.next = m.next)
    (next : List (QueuedRecord Entry)) (h : Listed m (m.next i) next) : Listed m' (m'.next i) next := by
  rw [hnext]
  refine h.frame (hledger.lists i) fun a ha => hcells a ?_
  rintro rfl
  rcases hcur with hcur | rfl
  · rw [hcur] at ha
    cases ha
  · exact hledger.ne_brk ha rfl

theorem iterates_left {cur : ℕ} {node : SearchNode Entry} {record : QueuedRecord Entry}
    {link : Option ℕ} (hledger : Ledger own m)
    (hfits : (.nextLeft i cur node : Pc Entry Data Value).Fits own t m)
    (hit : (.nextLeft i cur node : Pc Entry Data Value).Iterates mmdb fromEntryDataList queues m)
    (hcell : m.cells cur = some ⟨record, link⟩) :
    (.nextRight i cur node m.brk : Pc Entry Data Value).Iterates mmdb fromEntryDataList queues
      (m.calloc ⟨node.left.queue record.ipPacked (record.depth + 1), none⟩) := by
  have hcur : own cur = some (.thread t) := hfits.has cur List.mem_cons_self
  have hcells : ∀ a, a ≠ m.brk →
      (m.calloc ⟨node.left.queue record.ipPacked (record.depth + 1), none⟩).cells a = m.cells a :=
    fun a ha => Function.update_of_ne ha ..
  have hit' : Handles mmdb.tree (queues i) m i cur fun r => (Expands mmdb.tree r ∧
      node = mmdb.tree.readNode (r.record % 2 ^ 32)) ∧ r = record :=
    Handles.learn hit hcell fun hr => ⟨hr, rfl⟩
  refine hit'.mono (hcells cur (hledger.ne_brk hcur))
    (listed_of_thread (t := t) hledger (.inr rfl) hcells rfl) fun r hr => ?_
  obtain ⟨hr, rfl⟩ := hr
  exact ⟨hr, Function.update_self ..⟩

theorem iterates_right {cur left : ℕ} {node : SearchNode Entry} {record : QueuedRecord Entry}
    {link : Option ℕ} {ipPacked : Bytes} (hledger : Ledger own m)
    (hfits : (.nextRight i cur node left : Pc Entry Data Value).Fits own t m)
    (hit : (.nextRight i cur node left : Pc Entry Data Value).Iterates mmdb fromEntryDataList queues m)
    (hcell : m.cells cur = some ⟨record, link⟩)
    (hbit : setBit record.ipPacked record.depth = some ipPacked) :
    (.nextTail i cur left m.brk : Pc Entry Data Value).Iterates mmdb fromEntryDataList queues
      ((m.calloc ⟨node.right.queue ipPacked (record.depth + 1), none⟩).setLink left (some m.brk)) := by
  have hhas : ∀ a ∈ [cur, left], own a = some (.thread t) := hfits.has
  have hcur := hledger.ne_brk (hhas cur (by simp))
  have hleft := hledger.ne_brk (hhas left (by simp))
  have hne : cur ≠ left := by simpa [Pc.taken, Pc.records] using hfits.nodup
  let m' := (m.calloc ⟨node.right.queue ipPacked (record.depth + 1), none⟩).setLink left (some m.brk)
  have hcells : ∀ a, a ≠ m.brk → a ≠ left → m'.cells a = m.cells a := by
    intro a ha hal
    show Function.update _ left _ a = _
    rw [Function.update_of_ne hal]
    exact Function.update_of_ne ha ..
  have hlist : ∀ next, Listed m (m.next i) next → Listed m' (m'.next i) next := by
    intro next hnext
    refine hnext.frame (hledger.lists i) fun a ha => ?_
    refine hcells a (hledger.ne_brk ha) ?_
    rintro rfl
    rw [hhas a (by simp)] at ha
    cases ha
  have hit' : Handles mmdb.tree (queues i) m i cur fun r => ((Expands mmdb.tree r ∧
      node = mmdb.tree.readNode (r.record % 2 ^ 32)) ∧
      m.cells left = some ⟨node.left.queue r.ipPacked (r.depth + 1), none⟩) ∧ r = record :=
    Handles.learn hit hcell fun hr => ⟨hr, rfl⟩
  refine hit'.mono (hcells cur hcur hne) hlist fun r hr => ?_
  obtain ⟨⟨hr, hcell'⟩, rfl⟩ := hr
  refine ⟨node, ipPacked, hr, hbit, ?_, ?_⟩
  · show Function.update _ left _ left = _
    rw [Function.update_self]
    show ((Function.update m.cells m.brk _) left).map _ = _
    rw [Function.update_of_ne hleft, hcell']
    rfl
  · show Function.update _ left _ m.brk = _
    rw [Function.update_of_ne hleft.symm]
    exact Function.update_self ..

theorem iterates_tail {cur left right : ℕ} (hledger : Ledger own m)
    (hfits : (.nextTail i cur left right : Pc Entry Data Value).Fits own t m)
    (hit : (.nextTail i cur left right : Pc Entry Data Value).Iterates mmdb fromEntryDataList queues m) :
    (.nextLink i cur left : Pc Entry Data Value).Iterates mmdb fromEntryDataList queues
      (m.setLink right (m.next i)) := by
  have hhas : ∀ a ∈ [cur, left, right], own a = some (.thread t) := hfits.has
  have hne : cur ≠ left ∧ cur ≠ right ∧ left ≠ right := by
    simpa [Pc.taken, Pc.records, and_assoc] using hfits.nodup
  have hcells : ∀ a, a ≠ right → (m.setLink right (m.next i)).cells a = m.cells a :=
    fun a ha => Function.update_of_ne ha ..
  refine Handles.mono hit (hcells cur hne.2.1)
    (listed_of_thread hledger (.inl (hhas right (by simp))) hcells rfl) fun r hr => ?_
  obtain ⟨node, ipPacked, hnode, hbit, hleft, hright⟩ := hr
  refine ⟨right, node, ipPacked, hnode, hbit, (hcells left hne.2.2).trans hleft, ?_⟩
  show Function.update _ right _ right = _
  rw [Function.update_self, hright]
  rfl

theorem reaches_link {cur left : ℕ}
    (hit : (.nextLink i cur left : Pc Entry Data Value).Iterates mmdb fromEntryDataList queues m) :
    Reaches mmdb.tree (queues i) (m.setNext i (some left)) i := by
  obtain ⟨record, link, next, -, hnext, hturns, right, node, ipPacked, ⟨hexpands, rfl⟩, hbit, hleft,
    hright⟩ := hit
  let node := mmdb.tree.readNode (record.record % 2 ^ 32)
  have hturn : turn mmdb.tree .succeed record next = .again
      (node.left.queue record.ipPacked (record.depth + 1) ::
        node.right.queue ipPacked (record.depth + 1) :: next) := by
    rw [turn_of_expands hexpands, hbit]
    rfl
  refine ⟨_, ?_, hturns.tail .succeed hturn⟩
  rw [Memory.setNext_next_self]
  exact .cons hleft (.cons hright (hnext.congr rfl))

/-- Where the bit of a record is behind `ip_packed`, the call of `readerIterNext` sets it there too. -/
theorem outOfBounds_of_setBit {cur left : ℕ} {node : SearchNode Entry} {record : QueuedRecord Entry}
    {link : Option ℕ}
    (hit : (.nextRight i cur node left : Pc Entry Data Value).Iterates mmdb fromEntryDataList queues m)
    (hcell : m.cells cur = some ⟨record, link⟩) (hbit : setBit record.ipPacked record.depth = none) :
    ∃ call, (readerIterNext mmdb.tree call (queues i)).1 = .outOfBounds := by
  obtain ⟨record', link', next, hcell', -, hturns, ⟨hexpands, -⟩, -⟩ := hit
  rw [hcell] at hcell'
  cases hcell'
  have hturn : turn mmdb.tree .succeed record next = .done .outOfBounds := by
    rw [turn_of_expands hexpands, hbit]
    rfl
  obtain ⟨calls, hcall⟩ := hturns.readerIterNext_of_done hturn
  exact ⟨_, by rw [hcall]⟩

variable [Inhabited Entry] {isDict : Value → Bool} {p : Pc Entry Data Value}
  {effect : Bool → Memory Entry Data → Memory Entry Data × Pc Entry Data Value}

theorem act_turned (h : code fromEntryDataList isDict p = .act effect) (hi : p.iterator = some i)
    (hp : p.phase ≠ .outside)
    (hopen : p.phase = .inside → m.reader.mmdb = some mmdb ∧ m.reader.closed = false)
    (hledger : Ledger own m) (hfits : p.Fits own t m)
    (hit : p.Iterates mmdb fromEntryDataList queues m) (ok : Bool) :
    Turned mmdb fromEntryDataList queues (effect ok m).1 i (effect ok m).2 := by
  have hhas : ∀ cur ∈ p.taken, own cur = some (.thread t) := hfits.has
  cases p <;> cases hi <;> cases h
  case nextState => exact absurd rfl hp
  case nextTest =>
    dsimp only
    split
    · next hclosed =>
      exact .stop ⟨⟨true, true, fun _ => .succeed⟩, _, _, hclosed.symm, rfl, .raised, hit⟩
    · exact .on rfl ⟨_, hit, .refl⟩
  case nextWhile =>
    obtain ⟨next, hnext, hturns⟩ := hit
    dsimp only
    cases hhead : m.next i with
    | none =>
      rw [hhead] at hnext
      obtain rfl := hnext.eq_nil
      obtain ⟨calls, hcall⟩ := hturns.readerIterNext_of_nil
      refine .stop ⟨_, _, _, (hopen rfl).2.symm, hcall, .stopIteration, ?_⟩
      rw [hhead]
      exact .nil
    | some cur =>
      refine .on rfl ⟨?_, next, hnext, hturns⟩
      rw [hhead]
      exact Option.some_ne_none cur
  case nextLoad =>
    dsimp only
    cases hhead : m.next i with
    | none => exact absurd hhead hit.1
    | some cur => exact .on rfl ⟨hhead, hit.2⟩
  case nextStore cur =>
    obtain ⟨hhead, next, hnext, hturns⟩ := hit
    rw [hhead] at hnext
    cases hnext with
    | @cons _ record link next hcell hnext =>
      dsimp only
      rw [withCell_of_cell hcell]
      refine .on rfl ⟨record, link, next, hcell, ?_, hturns, trivial⟩
      rw [Memory.setNext_next_self]
      exact hnext.congr rfl
  case nextSwitch cur =>
    obtain ⟨record, link, hcell, -⟩ := Handles.exists_cell hit
    have hit : Handles mmdb.tree (queues i) m i cur fun _ => True := hit
    dsimp only
    rw [withCell_of_cell hcell]
    cases htype : record.type with
    | invalid =>
      refine .unlock (Handles.answers (P := fun r => r.type = .invalid) (hit.learn hcell fun _ => htype)
        (hopen rfl).2 fun r hr => ⟨.succeed, _, fun _ => turn_of_invalid hr, .raised⟩)
    | searchNode => exact .on rfl (hit.learn hcell fun _ => htype)
    | empty =>
      refine .on rfl (Handles.reaches (P := fun r => r.type = .empty) (hit.learn hcell fun _ => htype)
        fun r hr => ⟨.succeed, fun _ => turn_of_empty hr⟩)
    | data => exact .on rfl (hit.learn hcell fun _ => htype)
    | unknown type =>
      refine .unlock (Handles.answers (P := fun r => r.type = .unknown type)
        (hit.learn hcell fun _ => htype) (hopen rfl).2
        fun r hr => ⟨.succeed, _, fun _ => turn_of_unknown hr, .raised⟩)
  case nextSkip cur =>
    obtain ⟨record, link, hcell, htype⟩ := Handles.exists_cell hit
    have hit : Handles mmdb.tree (queues i) m i cur fun r => r.type = .searchNode := hit
    dsimp only
    rw [withCell_of_cell hcell, withMmdb_of_mmdb (hopen rfl).1]
    split
    · next hskip =>
      refine .on rfl (Handles.reaches (P := fun r => r.type = .searchNode ∧ Skipped mmdb.tree r)
        (hit.learn hcell fun _ => ⟨htype, hskip⟩)
        fun r hr => ⟨.succeed, fun _ => turn_of_skipped hr.1 hr.2⟩)
    · next hskip => exact .on rfl (hit.learn hcell fun _ => ⟨htype, hskip⟩)
  case nextReadNode cur =>
    obtain ⟨record, link, hcell, hexpands⟩ := Handles.exists_cell hit
    have hit : Handles mmdb.tree (queues i) m i cur (Expands mmdb.tree) := hit
    dsimp only
    rw [withCell_of_cell hcell, withMmdb_of_mmdb (hopen rfl).1]
    cases ok with
    | true => exact .on rfl (hit.learn hcell fun hr => ⟨hr, rfl⟩)
    | false =>
      refine .unlock (hit.answers (hopen rfl).2 fun r hr =>
        ⟨{ TurnCalls.succeed with readNode := false }, _, fun _ => turn_of_expands hr, .raised⟩)
  case nextLeft cur node =>
    cases ok with
    | true =>
      obtain ⟨record, link, hcell, hnode⟩ := Handles.exists_cell hit
      simp only [↓reduceIte, withCell_of_cell hcell]
      exact .on rfl (iterates_left hledger hfits hit hcell)
    | false =>
      exact .unlock (Handles.answers hit (hopen rfl).2 fun r hr =>
        ⟨{ TurnCalls.succeed with callocLeft := false }, _, fun _ => turn_of_expands hr.1, .raised⟩)
  case nextRight cur node left =>
    cases ok with
    | true =>
      obtain ⟨record, link, hcell, hnode, hleft⟩ := Handles.exists_cell hit
      simp only [↓reduceIte, withCell_of_cell hcell]
      cases hbit : setBit record.ipPacked record.depth with
      | none =>
        obtain ⟨call, hcall⟩ := outOfBounds_of_setBit hit hcell hbit
        exact .crashed call hcall
      | some ipPacked =>
        obtain ⟨cell', hcell'⟩ :=
          hledger.exists_cell (hhas left (List.mem_cons_of_mem _ List.mem_cons_self))
        simp only [withCell_of_cell hcell']
        exact .on rfl (iterates_right hledger hfits hit hcell hbit)
    | false =>
      exact .unlock (Handles.answers hit (hopen rfl).2 fun r hr =>
        ⟨{ TurnCalls.succeed with callocRight := false }, _, fun _ => turn_of_expands hr.1.1, .raised⟩)
  case nextTail cur left right =>
    obtain ⟨cell, hcell⟩ := hledger.exists_cell (hhas right (by simp [Pc.taken, Pc.records]))
    simp only [withCell_of_cell hcell]
    exact .on rfl (iterates_tail hledger hfits hit)
  case nextLink => exact .on rfl (reaches_link hit)
  case nextFree cur =>
    obtain ⟨cell, hcell⟩ := hledger.exists_cell (hhas cur List.mem_cons_self)
    dsimp only
    rw [withCell_of_cell hcell]
    exact .on rfl (Reaches.mono hit (listed_of_thread hledger (.inl (hhas cur List.mem_cons_self))
      (fun a ha => Function.update_of_ne ha ..) rfl))
  case nextEntries cur =>
    obtain ⟨record, link, hcell, htype⟩ := Handles.exists_cell hit
    dsimp only
    rw [withCell_of_cell hcell, withMmdb_of_mmdb (hopen rfl).1]
    split
    · next data _ hdata => exact .on rfl (Handles.learn hit hcell fun hr => ⟨hr, hdata⟩)
    · refine .unlock (Handles.answers hit (hopen rfl).2 fun r hr =>
        ⟨{ TurnCalls.succeed with getEntryDataList := false }, _,
          fun _ => turn_of_data hr ⟨rfl, rfl⟩, .raised⟩)
  case nextConvert cur data =>
    dsimp only
    split
    · next record _ hrecord =>
      obtain ⟨_, _, hcell, -⟩ := Handles.exists_cell hit
      exact .on rfl (Handles.learn hit hcell fun hr => ⟨hr.1, data, hr.2, hrecord⟩)
    · next error _ herror =>
      refine .unlock (Handles.answers hit (hopen rfl).2 fun r hr =>
        ⟨{ TurnCalls.succeed with fromEntryDataList := false }, _,
          fun _ => turn_of_data hr.1 ⟨rfl, rfl⟩, .convert hr.2 herror⟩)
    · refine .unlock (Handles.answers hit (hopen rfl).2 fun r hr =>
        ⟨{ TurnCalls.succeed with fromEntryDataList := false }, _,
          fun _ => turn_of_data hr.1 ⟨rfl, rfl⟩, .raised⟩)
  case nextNetwork cur value =>
    obtain ⟨record, link, hcell, -⟩ := Handles.exists_cell hit
    dsimp only
    rw [withCell_of_cell hcell, withMmdb_of_mmdb (hopen rfl).1]
    exact .on rfl (Handles.learn hit hcell fun hr => ⟨hr, rfl, rfl⟩)
  case nextBuild cur address prefixLen value =>
    dsimp only
    cases ok with
    | true =>
      refine .unlock (Handles.answers hit (hopen rfl).2 fun r hr => ?_)
      obtain ⟨⟨htype, data, hdata, hvalue⟩, hnetwork⟩ := hr
      exact ⟨.succeed, _, fun _ => turn_of_data htype hnetwork, .item hdata hvalue⟩
    | false =>
      exact .unlock (Handles.answers hit (hopen rfl).2 fun r hr =>
        ⟨{ TurnCalls.succeed with result := false }, _, fun _ => turn_of_data hr.1.1 hr.2, .raised⟩)

end

end MaxMindDB.Extension
