import MaxMindDB.Extension.GetRecord

/-!
# The iterator of the C extension

`ReaderIter_next` of `maxminddb.c`. The iterator links the records that are still to be visited,
leftmost first; a call takes records off the list until one is a data record, and links the two
records of a search node in its place. Whatever a call needs of libmaxminddb, of the allocator or
of Python may fail; the call then raises, and the record it has taken off the list is gone.

The loop of a call ends: the two records of a node weigh less than the record that leads to it.
-/

namespace MaxMindDB.Extension

open Octets BitString

/-! ## libmaxminddb -/

/-- The types of a record: `MMDB_RECORD_TYPE_SEARCH_NODE`, which is 0, and so on. -/
inductive RecordType where
  | searchNode
  | empty
  | data
  | invalid
  | unknown (type : ℕ)
  deriving DecidableEq

/-- A record of an `MMDB_search_node_s`. -/
structure NodeRecord (Entry : Type) where
  value : ℕ
  type : RecordType
  entry : Entry

/-- `MMDB_search_node_s`. -/
structure SearchNode (Entry : Type) where
  left : NodeRecord Entry
  right : NodeRecord Entry

/-- The record of a node under a bit. -/
def SearchNode.side {Entry : Type} (node : SearchNode Entry) : Bool → NodeRecord Entry
  | false => node.left
  | true => node.right

/-- The part of libmaxminddb an iterator uses, for one open database: `depth` is the width of its
addresses, and `readNode` what `MMDB_read_node` stores when it succeeds. -/
structure LibTree (Entry : Type) where
  ipv4StartNode : ℕ
  depth : ℕ
  readNode : ℕ → SearchNode Entry

/-! ## The iterator -/

/-- `struct record`, but for its link. -/
structure QueuedRecord (Entry : Type) where
  ipPacked : Bytes
  depth : ℕ
  record : ℕ
  type : RecordType
  entry : Entry

/-- `calloc(1, sizeof(record))`, where `Reader_iter` starts: the search node 0 behind no bits. -/
def QueuedRecord.zero {Entry : Type} [Inhabited Entry] : QueuedRecord Entry where
  ipPacked := List.replicate 16 0
  depth := 0
  record := 0
  type := .searchNode
  entry := default

/-- The record of a node, queued behind the bits in `ipPacked`. -/
def NodeRecord.queue {Entry : Type} (r : NodeRecord Entry) (ipPacked : Bytes) (depth : ℕ) :
    QueuedRecord Entry where
  ipPacked := ipPacked
  depth := depth
  record := r.value
  type := r.type
  entry := r.entry

/-- `is_ipv6`. -/
def isIpv6 (ip : Bytes) : Bool := (ip.take 12).foldl (fun z x => z ||| x) 0 != 0

/-- `ip_packed[depth / 8] |= 1 << (7 - depth % 8)`; `none` when it writes outside the array. -/
def setBit (ip : Bytes) (depth : ℕ) : Option Bytes :=
  if depth / 8 < 16 then
    some (ip.modify (depth / 8) fun x => x ||| UInt8.ofNat (1 <<< (7 - depth % 8)))
  else none

/-- Whether each call that one turn of the loop may make succeeds. -/
structure TurnCalls where
  readNode : Bool
  callocLeft : Bool
  callocRight : Bool
  getEntryDataList : Bool
  fromEntryDataList : Bool
  networkTuple : Bool
  args : Bool
  ipNetwork : Bool
  result : Bool

/-- Every call succeeds. -/
def TurnCalls.succeed : TurnCalls := ⟨true, true, true, true, true, true, true, true, true⟩

/-- What a call of `ReaderIter_next` comes to. -/
inductive Outcome (Entry : Type) where
  /-- A pair is returned: the arguments of `ip_network`, and the record it is made for. -/
  | item (address : Bytes) (prefixLen : ℤ) (cur : QueuedRecord Entry)
  /-- `NULL`, with no exception set. -/
  | stopIteration
  /-- `NULL`, with an exception set; the record taken off the list has been freed. -/
  | raised (error : PyErr) (cur : Option (QueuedRecord Entry))
  /-- A write outside `ip_packed`. -/
  | outOfBounds

/-- One turn of the loop: it turns again, or the call returns. -/
inductive Turn (Entry : Type) where
  | again (next : List (QueuedRecord Entry))
  | done (outcome : Outcome Entry)

variable {Entry : Type}

/-- The loop body on `cur`, taken off the list; `next` is the rest of the list. -/
def turn (lib : LibTree Entry) (calls : TurnCalls) (cur : QueuedRecord Entry)
    (next : List (QueuedRecord Entry)) : Turn Entry :=
  match cur.type with
  | .invalid => .done (.raised .maxMindDBError cur)
  | .searchNode =>
    -- aliased networks are skipped
    if cur.record = lib.ipv4StartNode ∧ isIpv6 cur.ipPacked then .again next
    else if !calls.readNode then .done (.raised .maxMindDBError cur)
    else
      let node := lib.readNode (cur.record % 2 ^ 32)
      if !calls.callocLeft then .done (.raised .noMemory cur)
      else
        let left := node.left.queue cur.ipPacked (cur.depth + 1)
        if !calls.callocRight then .done (.raised .noMemory cur)
        else match setBit cur.ipPacked cur.depth with
          | none => .done .outOfBounds
          | some ipPacked =>
            let right := node.right.queue ipPacked (cur.depth + 1)
            .again (left :: right :: next)
  | .empty => .again next
  | .data =>
    if !calls.getEntryDataList then .done (.raised .maxMindDBError cur)
    else if !calls.fromEntryDataList then .done (.raised .propagated cur)
    else
      let ipStart := if lib.depth = 128 ∧ !isIpv6 cur.ipPacked then 12 else 0
      let ipLength := if lib.depth = 128 ∧ isIpv6 cur.ipPacked then 16 else 4
      if !calls.networkTuple then .done (.raised .propagated cur)
      else if !calls.args then .done (.raised .propagated cur)
      else if !calls.ipNetwork then .done (.raised .propagated cur)
      else if !calls.result then .done (.raised .propagated cur)
      else .done (.item (slice cur.ipPacked ipStart (ipStart + ipLength))
        (cur.depth - ipStart * 8) cur)
  | .unknown _ => .done (.raised .maxMindDBError cur)

/-- The record is a repeated occurrence of the IPv4 subtree. -/
def Skipped (lib : LibTree Entry) (cur : QueuedRecord Entry) : Prop :=
  cur.record = lib.ipv4StartNode ∧ isIpv6 cur.ipPacked

/-- A turn that goes on has left out the record, or put the two records of its node on the list. -/
theorem turn_again {lib : LibTree Entry} {calls : TurnCalls} {cur : QueuedRecord Entry}
    {next next' : List (QueuedRecord Entry)} (h : turn lib calls cur next = .again next') :
    (next' = next ∧ (cur.type = .empty ∨ cur.type = .searchNode ∧ Skipped lib cur)) ∨
    ∃ ipPacked, cur.type = .searchNode ∧ ¬ Skipped lib cur ∧
      setBit cur.ipPacked cur.depth = some ipPacked ∧
      next' = (lib.readNode (cur.record % 2 ^ 32)).left.queue cur.ipPacked (cur.depth + 1) ::
        (lib.readNode (cur.record % 2 ^ 32)).right.queue ipPacked (cur.depth + 1) :: next := by
  unfold turn at h
  cases ht : cur.type with
  | invalid => simp [ht] at h
  | unknown type => simp [ht] at h
  | empty =>
    simp only [ht, Turn.again.injEq] at h
    exact .inl ⟨h.symm, .inl rfl⟩
  | data =>
    simp only [ht] at h
    split_ifs at h
  | searchNode =>
    simp only [ht] at h
    split_ifs at h with hs
    · rw [Turn.again.injEq] at h
      exact .inl ⟨h.symm, .inr ⟨rfl, hs⟩⟩
    · cases hb : setBit cur.ipPacked cur.depth with
      | none => simp [hb] at h
      | some ipPacked =>
        simp only [hb, Turn.again.injEq] at h
        exact .inr ⟨ipPacked, rfl, hs, rfl, h.symm⟩

/-- A turn that ends the call returns the leaf, raises, or has written outside `ip_packed`. -/
theorem turn_done {lib : LibTree Entry} {calls : TurnCalls} {cur : QueuedRecord Entry}
    {next : List (QueuedRecord Entry)} {outcome : Outcome Entry}
    (h : turn lib calls cur next = .done outcome) :
    (∃ address prefixLen, outcome = .item address prefixLen cur ∧ cur.type = .data) ∨
    (∃ error, outcome = .raised error cur) ∨
    (outcome = .outOfBounds ∧ cur.type = .searchNode ∧ ¬ Skipped lib cur ∧
      setBit cur.ipPacked cur.depth = none) := by
  unfold turn at h
  cases ht : cur.type with
  | invalid =>
    simp only [ht, Turn.done.injEq] at h
    exact .inr (.inl ⟨_, h.symm⟩)
  | unknown type =>
    simp only [ht, Turn.done.injEq] at h
    exact .inr (.inl ⟨_, h.symm⟩)
  | empty => simp [ht] at h
  | data =>
    simp only [ht] at h
    split_ifs at h <;> rw [Turn.done.injEq] at h
    all_goals first
      | exact .inr (.inl ⟨_, h.symm⟩)
      | exact .inl ⟨_, _, h.symm, rfl⟩
  | searchNode =>
    simp only [ht] at h
    split_ifs at h with hs
    · rw [Turn.done.injEq] at h
      exact .inr (.inl ⟨_, h.symm⟩)
    · rw [Turn.done.injEq] at h
      exact .inr (.inl ⟨_, h.symm⟩)
    · rw [Turn.done.injEq] at h
      exact .inr (.inl ⟨_, h.symm⟩)
    · cases hb : setBit cur.ipPacked cur.depth with
      | none =>
        simp only [hb, Turn.done.injEq] at h
        exact .inr (.inr ⟨h.symm, rfl, hs, rfl⟩)
      | some ipPacked => simp [hb] at h

/-! ## Termination of the loop -/

/-- What is left to do, at most: a record weighs more than the two that take its place. -/
def weight (next : List (QueuedRecord Entry)) : ℕ := (next.map fun q => 3 ^ (129 - q.depth)).sum

theorem weight_cons (q : QueuedRecord Entry) (next : List (QueuedRecord Entry)) :
    weight (q :: next) = 3 ^ (129 - q.depth) + weight next := by
  rw [weight, List.map_cons, List.sum_cons]
  rfl

theorem weight_of_again {lib : LibTree Entry} {calls : TurnCalls} {cur : QueuedRecord Entry}
    {next next' : List (QueuedRecord Entry)} (h : turn lib calls cur next = .again next') :
    weight next' < weight (cur :: next) := by
  rw [weight_cons]
  rcases turn_again h with ⟨rfl, -⟩ | ⟨ipPacked, -, -, hb, rfl⟩
  · have : 0 < 3 ^ (129 - cur.depth) := by positivity
    omega
  · have hdepth : cur.depth / 8 < 16 := by
      unfold setBit at hb
      split_ifs at hb with hlt
      exact hlt
    obtain ⟨k, hk⟩ : ∃ k, 129 - cur.depth = k + 1 := ⟨128 - cur.depth, by omega⟩
    have hk' : 129 - (cur.depth + 1) = k := by omega
    have hpos : 0 < 3 ^ k := by positivity
    rw [weight_cons, weight_cons]
    simp only [NodeRecord.queue, hk, hk', pow_succ]
    omega

/-- The loop, from its turn `k` on: how the call ends, and the list it leaves. -/
def loop (lib : LibTree Entry) (calls : ℕ → TurnCalls) (k : ℕ) :
    List (QueuedRecord Entry) → Outcome Entry × List (QueuedRecord Entry)
  | [] => (.stopIteration, [])
  | cur :: next =>
    match h : turn lib (calls k) cur next with
    | .done outcome => (outcome, next)
    | .again next' => loop lib calls (k + 1) next'
termination_by next => weight next
decreasing_by exact weight_of_again h

section Loop

variable {lib : LibTree Entry} {calls : ℕ → TurnCalls} {k : ℕ} {cur : QueuedRecord Entry}
  {next next' : List (QueuedRecord Entry)}

theorem loop_of_again (h : turn lib (calls k) cur next = .again next') :
    loop lib calls k (cur :: next) = loop lib calls (k + 1) next' := by
  rw [loop]
  split
  · next h' => rw [h] at h'; cases h'
  · next h' => rw [h] at h'; cases h'; rfl

theorem loop_of_done {outcome : Outcome Entry} (h : turn lib (calls k) cur next = .done outcome) :
    loop lib calls k (cur :: next) = (outcome, next) := by
  rw [loop]
  split
  · next h' => rw [h] at h'; cases h'; rfl
  · next h' => rw [h] at h'; cases h'

/-- When all turns are alike, it does not matter at which one a call is. -/
theorem loop_const (turns : TurnCalls) (k j : ℕ) (next : List (QueuedRecord Entry)) :
    loop lib (fun _ => turns) k next = loop lib (fun _ => turns) j next := by
  induction hm : weight next using Nat.strong_induction_on generalizing k j next with
  | _ m ih =>
  rcases next with _ | ⟨cur, next⟩
  · rw [loop, loop]
  cases hturn : turn lib turns cur next with
  | again next' =>
    rw [loop_of_again hturn, loop_of_again hturn]
    exact ih _ (hm ▸ weight_of_again hturn) _ _ _ rfl
  | done outcome => rw [loop_of_done hturn, loop_of_done hturn]

theorem next_of_loop_stopIteration (h : loop lib calls k next = (.stopIteration, next')) :
    next' = [] := by
  induction hm : weight next using Nat.strong_induction_on generalizing k next with
  | _ m ih =>
  rcases next with _ | ⟨cur, next⟩
  · rw [loop, Prod.mk.injEq] at h
    exact h.2.symm
  cases hturn : turn lib (calls k) cur next with
  | again next'' =>
    rw [loop_of_again hturn] at h
    exact ih _ (hm ▸ weight_of_again hturn) h rfl
  | done outcome =>
    rw [loop_of_done hturn, Prod.mk.injEq] at h
    rcases turn_done hturn with ⟨address, prefixLen, hout, -⟩ | ⟨error, hout⟩ | ⟨hout, -⟩
    all_goals
      rw [hout] at h
      cases h.1

end Loop

/-- A call of `ReaderIter_next`: whether the lock is acquired, whether the reader is closed, and
what the calls of each turn come to. -/
structure Call where
  acquired : Bool
  closed : Bool
  turns : ℕ → TurnCalls

/-- A call in which nothing fails. -/
def Call.succeeds : Call := ⟨true, false, fun _ => .succeed⟩

/-- `ReaderIter_next`, on the list behind `ri->next`. -/
def readerIterNext (lib : LibTree Entry) (call : Call) (next : List (QueuedRecord Entry)) :
    Outcome Entry × List (QueuedRecord Entry) :=
  if !call.acquired then (.raised .runtimeError none, next)
  else if call.closed then (.raised .valueError none, next)
  else loop lib call.turns 0 next

theorem readerIterNext_stopIteration {lib : LibTree Entry} {call : Call}
    {next next' : List (QueuedRecord Entry)}
    (h : readerIterNext lib call next = (.stopIteration, next')) : next' = [] := by
  unfold readerIterNext at h
  split_ifs at h
  · cases congrArg Prod.fst h
  · cases congrArg Prod.fst h
  · exact next_of_loop_stopIteration h

end MaxMindDB.Extension
