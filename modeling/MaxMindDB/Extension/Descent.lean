import MaxMindDB.Extension.Traversal

/-!
# How deep the iterator of the C extension descends

`ReaderIter_next` puts the records of a search node on the list whatever the depth of the node. So the
records it visits stand behind no more bits than an address has exactly when no path of unskipped
search nodes does (`staysInside_iff`); on a longer path the bit of a right record is written outside
`ip_packed`.

1. Every record that is visited is queued with its path, and search nodes that are not skipped lead to
   it (`Placed`).
2. Over a long path, calls in which nothing fails come to it, or to the write outside `ip_packed`
   (`fails_of_mem`): a record on the path stays on the list until it is visited, and then one of its
   two records is on the path.
-/

namespace MaxMindDB.Extension

open Octets BitString

variable {Entry : Type}

/-! ## Visited records -/

/-- A record is taken off the list by a call from its turn `k` on. -/
inductive Visits (lib : LibTree Entry) (calls : ℕ → TurnCalls) :
    ℕ → List (QueuedRecord Entry) → QueuedRecord Entry → Prop where
  | here {k : ℕ} {cur : QueuedRecord Entry} {next : List (QueuedRecord Entry)} :
      Visits lib calls k (cur :: next) cur
  | later {k : ℕ} {cur q : QueuedRecord Entry} {next next' : List (QueuedRecord Entry)} :
      turn lib (calls k) cur next = .again next' → Visits lib calls (k + 1) next' q →
      Visits lib calls k (cur :: next) q

section Loop

variable {lib : LibTree Entry} {calls : ℕ → TurnCalls} {k w : ℕ} {cur q : QueuedRecord Entry}
  {next next' : List (QueuedRecord Entry)}

/-- Calls in which nothing fails come to a record behind more than `w` bits, or to the write outside
`ip_packed`. -/
inductive Fails (lib : LibTree Entry) (w : ℕ) : List (QueuedRecord Entry) → Prop where
  | deep {next : List (QueuedRecord Entry)} {q : QueuedRecord Entry} :
      Visits lib (fun _ => .succeed) 0 next q → w < q.depth → Fails lib w next
  | outOfBounds {next : List (QueuedRecord Entry)} :
      (loop lib (fun _ => .succeed) 0 next).1 = .outOfBounds → Fails lib w next
  | later {next : List (QueuedRecord Entry)} :
      Fails lib w (loop lib (fun _ => .succeed) 0 next).2 → Fails lib w next

theorem Visits.const {turns : TurnCalls} (h : Visits lib (fun _ => turns) k next q) (j : ℕ) :
    Visits lib (fun _ => turns) j next q := by
  induction h generalizing j with
  | here => exact .here
  | later hturn _ ih => exact .later hturn (ih (j + 1))

theorem Fails.of_again (hturn : turn lib .succeed cur next = .again next')
    (h : Fails lib w next') : Fails lib w (cur :: next) := by
  have hloop : loop lib (fun _ => .succeed) 0 (cur :: next) =
      loop lib (fun _ => .succeed) 0 next' := by
    rw [loop_of_again hturn, loop_const _ _ 0]
  cases h with
  | deep hv hlt => exact .deep (.later hturn (hv.const 1)) hlt
  | outOfBounds hout => exact .outOfBounds (hloop ▸ hout)
  | later hlater => exact .later (hloop ▸ hlater)

theorem Fails.of_done {outcome : Outcome Entry}
    (hturn : turn lib .succeed cur next = .done outcome) (h : Fails lib w next) :
    Fails lib w (cur :: next) := .later (by rw [loop_of_done hturn]; exact h)

theorem fails_of_outOfBounds (hturn : turn lib .succeed cur next = .done .outOfBounds) :
    Fails lib w (cur :: next) := .outOfBounds (by rw [loop_of_done hturn])

end Loop

variable [Inhabited Entry]

/-- A record is visited in some calls. -/
def Visited (lib : LibTree Entry) (calls : List Call) (call : Call) (q : QueuedRecord Entry) : Prop :=
  call.acquired ∧ ¬ call.closed ∧ Visits lib call.turns 0 (run lib calls).next q

/-- Whatever is called: a record that is visited stands behind no more bits than an address has; a
search node behind that many bits is reported; and nothing is written outside `ip_packed`. -/
structure StaysInside (lib : LibTree Entry) : Prop where
  depth_le : ∀ calls call q, Visited lib calls call q → q.depth ≤ lib.depth
  reported : ∀ calls call q, Visited lib calls call q → q.type = .searchNode → ¬ Skipped lib q →
    q.depth = lib.depth →
      (readerIterNext lib call (run lib calls).next).1 = .raised .maxMindDBError q
  inBounds : ∀ calls call, (readerIterNext lib call (run lib calls).next).1 ≠ .outOfBounds

/-! ## Long paths -/

/-- A path leads to a search node that is not skipped. -/
def LibTree.Expands (lib : LibTree Entry) (path : List Bool) : Prop :=
  (lib.recordAt path).type = .searchNode ∧
    ¬ ((lib.recordAt path).value = lib.ipv4StartNode ∧ 2 ^ 32 ≤ firstAddress path)

/-- Unskipped search nodes lead through `w` bits to one more. -/
def LibTree.LongPath (lib : LibTree Entry) (w : ℕ) : Prop :=
  ∃ path, path.length = w ∧ ∀ p, p <+: path → lib.Expands p

/-- The record stands behind a path through unskipped search nodes, and is queued with this path. -/
structure Placed (lib : LibTree Entry) (q : QueuedRecord Entry) (path : List Bool) : Prop where
  length_le : path.length ≤ 128
  depth : q.depth = path.length
  ipPacked : q.ipPacked = packPath path
  node : q.node = lib.recordAt path
  through : ∀ p b, p ++ [b] <+: path → lib.Expands p

variable {lib : LibTree Entry} {q cur : QueuedRecord Entry} {path : List Bool} {w : ℕ}

theorem LibTree.LongPath.mono {v : ℕ} (h : lib.LongPath w) (hv : v ≤ w) : lib.LongPath v := by
  obtain ⟨path, hlen, hpath⟩ := h
  refine ⟨path.take v, by rw [List.length_take]; omega, fun p hp => hpath p ?_⟩
  exact hp.trans (List.take_prefix v path)

theorem exists_concat_prefix {p path : List Bool} (h : p <+: path) (hne : p ≠ path) :
    ∃ b, p ++ [b] <+: path := by
  obtain ⟨t, rfl⟩ := h
  cases t with
  | nil => exact absurd (List.append_nil p).symm hne
  | cons b t => exact ⟨b, t, by rw [List.append_assoc]; rfl⟩

/-- Where a record stands, no path is long but one it is on. -/
theorem Placed.length_le_of_not (h : Placed lib q path) (hw : ¬ lib.LongPath w) :
    path.length ≤ w := by
  by_contra hlt
  refine hw ⟨path.take w, by rw [List.length_take]; omega, fun p hp => ?_⟩
  have hlen := hp.length_le
  rw [List.length_take] at hlen
  have hprefix := hp.trans (List.take_prefix w path)
  obtain ⟨b, hb⟩ := exists_concat_prefix hprefix fun heq => by rw [heq] at hlen; omega
  exact h.through p b hb

theorem Placed.skipped_iff (h : Placed lib q path) :
    Skipped lib q ↔ q.node.value = lib.ipv4StartNode ∧ 2 ^ 32 ≤ firstAddress path := by
  rw [Skipped, h.ipPacked, isIpv6_packPath h.length_le, decide_eq_true_eq]
  rfl

theorem Placed.expands_iff (h : Placed lib q path) :
    q.type = .searchNode ∧ ¬ Skipped lib q ↔ lib.Expands path := by
  rw [h.skipped_iff, h.node]
  unfold LibTree.Expands
  rw [← h.node]
  rfl

/-- An unskipped search node leads to a long path. -/
theorem Placed.longPath (h : Placed lib q path) (ht : q.type = .searchNode)
    (hs : ¬ Skipped lib q) : lib.LongPath path.length := by
  refine ⟨path, rfl, fun p hp => ?_⟩
  by_cases heq : p = path
  · rw [heq]
    exact h.expands_iff.mp ⟨ht, hs⟩
  · obtain ⟨b, hb⟩ := exists_concat_prefix hp heq
    exact h.through p b hb

theorem Placed.child (h : Placed lib q path) (hexp : lib.Expands path) (hlt : path.length < 128)
    (right : Bool) : Placed lib
      ((lib.child q.node right).queue (packPath (path ++ [right])) (q.depth + 1))
      (path ++ [right]) where
  length_le := by
    rw [List.length_append, List.length_singleton]
    omega
  depth := by rw [List.length_append, List.length_singleton, ← h.depth]; rfl
  ipPacked := rfl
  node := by
    rw [LibTree.recordAt, List.foldl_append, ← LibTree.recordAt, ← h.node]
    rfl
  through := by
    intro p b hp
    rcases List.prefix_concat_iff.mp hp with heq | hp
    · rw [(List.append_inj' heq rfl).1]
      exact hexp
    · exact h.through p b hp

theorem lt_of_setBit {ip ip' : Bytes} {depth : ℕ} (h : setBit ip depth = some ip') :
    depth < 128 := by
  unfold setBit at h
  split_ifs at h with hlt
  omega

theorem setBit_eq_none {ip : Bytes} {depth : ℕ} (h : setBit ip depth = none) : 128 ≤ depth := by
  unfold setBit at h
  split_ifs at h with hlt
  omega

theorem Placed.expand {calls : TurnCalls} {next next' : List (QueuedRecord Entry)}
    (hq : Placed lib cur path) (h : turn lib calls cur next = .again next') :
    next' = next ∧ ¬ lib.Expands path ∨
      ∃ q₀ q₁, next' = q₀ :: q₁ :: next ∧ lib.Expands path ∧
        Placed lib q₀ (path ++ [false]) ∧ Placed lib q₁ (path ++ [true]) := by
  rcases turn_again h with ⟨rfl, ht⟩ | ⟨ipPacked, ht, hs, hb, rfl⟩
  · refine .inl ⟨rfl, fun hexp => ?_⟩
    obtain ⟨htype, hskip⟩ := hq.expands_iff.mpr hexp
    rcases ht with ht | ⟨-, ht⟩
    · rw [ht] at htype
      cases htype
    · exact hskip ht
  · have hexp := hq.expands_iff.mp ⟨ht, hs⟩
    have hlt := lt_of_setBit hb
    rw [hq.depth] at hlt
    have hleft := hq.child hexp hlt false
    have hright := hq.child hexp hlt true
    rw [packPath_append_false hlt, ← hq.ipPacked] at hleft
    rw [hq.ipPacked, hq.depth, setBit_packPath hlt, Option.some.injEq] at hb
    subst hb
    exact .inr ⟨_, _, rfl, hexp, hleft, hright⟩

/-! ## Every visited record is placed -/

/-- Every record of a list is placed. -/
def AllPlaced (lib : LibTree Entry) (qs : List (QueuedRecord Entry)) : Prop :=
  ∀ q ∈ qs, ∃ path, Placed lib q path

theorem AllPlaced.tail {next : List (QueuedRecord Entry)} (h : AllPlaced lib (cur :: next)) :
    AllPlaced lib next := fun q hq => h q (List.mem_cons_of_mem _ hq)

theorem AllPlaced.again {calls : TurnCalls} {next next' : List (QueuedRecord Entry)}
    (h : AllPlaced lib (cur :: next)) (hturn : turn lib calls cur next = .again next') :
    AllPlaced lib next' := by
  obtain ⟨path, hcur⟩ := h cur List.mem_cons_self
  rcases hcur.expand hturn with ⟨rfl, -⟩ | ⟨q₀, q₁, rfl, -, h₀, h₁⟩
  · exact h.tail
  · intro q hq
    rcases List.mem_cons.mp hq with rfl | hq
    · exact ⟨_, h₀⟩
    rcases List.mem_cons.mp hq with rfl | hq
    · exact ⟨_, h₁⟩
    · exact h.tail q hq

theorem Visits.placed {calls : ℕ → TurnCalls} {k : ℕ} {next : List (QueuedRecord Entry)}
    (h : Visits lib calls k next q) (hnext : AllPlaced lib next) : ∃ path, Placed lib q path := by
  induction h with
  | here => exact hnext _ List.mem_cons_self
  | later hturn _ ih => exact ih (hnext.again hturn)

/-- The list that a call leaves; and where it writes outside `ip_packed`. -/
theorem allPlaced_loop {calls : ℕ → TurnCalls} {k : ℕ} {next : List (QueuedRecord Entry)}
    (h : AllPlaced lib next) :
    AllPlaced lib (loop lib calls k next).2 ∧
      ((loop lib calls k next).1 = .outOfBounds → lib.LongPath 128) := by
  induction hm : weight next using Nat.strong_induction_on generalizing k next with
  | _ m ih =>
  rcases next with _ | ⟨cur, next⟩
  · rw [loop]
    exact ⟨h, fun hout => by cases hout⟩
  cases hturn : turn lib (calls k) cur next with
  | again next' =>
    rw [loop_of_again hturn]
    have hlt := weight_of_again hturn
    rw [hm] at hlt
    exact ih _ hlt (h.again hturn) rfl
  | done outcome =>
    rw [loop_of_done hturn]
    refine ⟨h.tail, fun hout => ?_⟩
    rcases turn_done hturn with ⟨_, _, rfl, -⟩ | ⟨_, rfl⟩ | ⟨-, ht, hs, hb⟩
    · cases hout
    · cases hout
    · obtain ⟨path, hcur⟩ := h cur List.mem_cons_self
      refine (hcur.longPath ht hs).mono ?_
      rw [← hcur.depth]
      exact setBit_eq_none hb

theorem allPlaced_readerIterNext {next : List (QueuedRecord Entry)} (h : AllPlaced lib next)
    (call : Call) :
    AllPlaced lib (readerIterNext lib call next).2 ∧
      ((readerIterNext lib call next).1 = .outOfBounds → lib.LongPath 128) := by
  unfold readerIterNext
  split_ifs
  · exact ⟨h, fun hout => by cases hout⟩
  · exact ⟨h, fun hout => by cases hout⟩
  · exact allPlaced_loop h

theorem allPlaced_run (calls : List Call) : AllPlaced lib (run lib calls).next := by
  induction calls using List.reverseRecOn with
  | nil =>
    intro q hq
    obtain rfl := List.mem_singleton.mp hq
    have hzero : List.replicate 16 0 = packPath [] := by decide +kernel
    exact ⟨[], by simp, rfl, hzero, rfl, by simp⟩
  | append_singleton calls call ih =>
    rw [run_append]
    exact (allPlaced_readerIterNext ih call).1

/-! ## Calls over a long path -/

section Fails

variable {next : List (QueuedRecord Entry)}

theorem turn_succeed (hq : Placed lib cur path) (hexp : lib.Expands path)
    (next : List (QueuedRecord Entry)) :
    turn lib .succeed cur next = .done .outOfBounds ∨
      ∃ next', turn lib .succeed cur next = .again next' := by
  obtain ⟨ht, hs⟩ := hq.expands_iff.mpr hexp
  have hs' : ¬ (cur.record = lib.ipv4StartNode ∧ isIpv6 cur.ipPacked) := hs
  unfold turn
  simp only [ht, if_neg hs', TurnCalls.succeed, Bool.not_true, Bool.false_eq_true, if_false]
  cases setBit cur.ipPacked cur.depth with
  | none => exact .inl rfl
  | some ipPacked => exact .inr ⟨_, rfl⟩

/-- A record on a long path that is on the list: the calls come to what lies behind it. -/
theorem fails_of_mem (hlen : path.length = w) (hpath : ∀ p, p <+: path → lib.Expands p)
    (h : ∃ q ∈ next, ∃ p, p <+: path ∧ Placed lib q p) : Fails lib w next := by
  induction hm : weight next using Nat.strong_induction_on generalizing next with
  | _ m ih =>
  obtain ⟨q, hmem, p, hp, hq⟩ := h
  rcases next with _ | ⟨cur, next⟩
  · cases hmem
  have hweight : weight (cur :: next) = 3 ^ (129 - cur.depth) + weight next := weight_cons _ _
  have hpos : 0 < 3 ^ (129 - cur.depth) := by positivity
  rcases List.mem_cons.mp hmem with rfl | hmem
  -- the record is visited
  · have hexp := hpath p hp
    rcases turn_succeed hq hexp next with hturn | ⟨next', hturn⟩
    · exact fails_of_outOfBounds hturn
    rcases hq.expand hturn with ⟨-, hnot⟩ | ⟨q₀, q₁, rfl, -, h₀, h₁⟩
    · exact absurd hexp hnot
    by_cases heq : p = path
    · refine .deep (.later hturn .here) ?_
      rw [h₀.depth, heq, List.length_append, List.length_singleton]
      omega
    · have hlt := weight_of_again hturn
      rw [hm] at hlt
      obtain ⟨b, hb⟩ := exists_concat_prefix hp heq
      refine .of_again hturn (ih _ hlt ?_ rfl)
      cases b with
      | false => exact ⟨q₀, by simp, _, hb, h₀⟩
      | true => exact ⟨q₁, by simp, _, hb, h₁⟩
  -- another record is visited, and this one stays on the list
  · cases hturn : turn lib .succeed cur next with
    | again next' =>
      have hlt := weight_of_again hturn
      rw [hm] at hlt
      have hmem' : q ∈ next' := by
        rcases turn_again hturn with ⟨rfl, -⟩ | ⟨_, -, -, -, rfl⟩
        · exact hmem
        · exact List.mem_cons_of_mem _ (List.mem_cons_of_mem _ hmem)
      exact .of_again hturn (ih _ hlt ⟨q, hmem', p, hp, hq⟩ rfl)
    | done outcome => exact .of_done hturn (ih _ (by omega) ⟨q, hmem, p, hp, hq⟩ rfl)

theorem Fails.not_staysInside {calls : List Call}
    (h : Fails lib lib.depth (run lib calls).next) : ¬ StaysInside lib := by
  intro hstays
  generalize hnext : (run lib calls).next = next at h
  induction h generalizing calls with
  | deep hv hlt =>
    subst hnext
    have hle := hstays.depth_le calls .succeeds _ ⟨rfl, by simp [Call.succeeds], hv⟩
    omega
  | outOfBounds hout =>
    subst hnext
    exact hstays.inBounds calls .succeeds hout
  | later _ ih =>
    subst hnext
    exact ih (congrArg History.next (run_append calls .succeeds))

end Fails

theorem LibTree.LongPath.not_staysInside (h : lib.LongPath lib.depth) : ¬ StaysInside lib := by
  obtain ⟨path, hlen, hpath⟩ := h
  have hplaced : AllPlaced lib (run lib []).next := allPlaced_run []
  obtain ⟨root, hroot⟩ := hplaced QueuedRecord.zero (List.mem_singleton_self _)
  have hnil : root = [] := by
    have hdepth := hroot.depth
    exact List.length_eq_zero_iff.mp hdepth.symm
  subst hnil
  have hfails : Fails lib lib.depth (run lib []).next :=
    fails_of_mem hlen hpath ⟨_, List.mem_singleton_self _, [], List.nil_prefix, hroot⟩
  exact hfails.not_staysInside

theorem staysInside_of_not_longPath (hdepth : lib.depth ≤ 128) (h : ¬ lib.LongPath lib.depth) :
    StaysInside lib where
  depth_le := by
    intro calls call q hv
    obtain ⟨path, hq⟩ := hv.2.2.placed (allPlaced_run calls)
    rw [hq.depth]
    exact hq.length_le_of_not h
  reported := by
    intro calls call q hv ht hs hq
    obtain ⟨path, hplaced⟩ := hv.2.2.placed (allPlaced_run calls)
    have hlong := hplaced.longPath ht hs
    rw [← hplaced.depth, hq] at hlong
    exact absurd hlong h
  inBounds := fun calls call hout =>
    h (((allPlaced_readerIterNext (allPlaced_run calls) call).2 hout).mono hdepth)

/-- **When the iterator of the extension stays inside.** -/
theorem LibTree.staysInside_iff (hdepth : lib.depth ≤ 128) :
    StaysInside lib ↔ ¬ lib.LongPath lib.depth :=
  ⟨fun h hlong => hlong.not_staysInside h, staysInside_of_not_longPath hdepth⟩

end MaxMindDB.Extension
