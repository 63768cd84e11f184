import MaxMindDB.Extension.Iterator
import MaxMindDB.Lib.Worklist

/-!
# The iterator as a traversal

The list of the iterator is the worklist of a traversal of the search tree: a queued record stands
for the leaves below it, and its `ip_packed` is its path, with zeros behind.

`next_refines`: after any calls, what has been returned and what the list still leads to are the
leaves of the recursive traversal of the tree, but for the subtrees of the records that raising
calls have taken off the list.
-/

namespace MaxMindDB.Extension

open Octets BitString Worklist

variable {Entry : Type}

/-! ## The recursive traversal -/

/-- The first of the addresses that begin with a path. -/
def firstAddress (path : List Bool) : ℕ := ofBits path * 2 ^ (128 - path.length)

namespace LibTree

variable (lib : LibTree Entry)

/-- The record under a bit of the node that a record leads to; node numbers have 32 bits. -/
def child (r : NodeRecord Entry) (right : Bool) : NodeRecord Entry :=
  (lib.readNode (r.value % 2 ^ 32)).side right

/-- No path from the record leads through more than `w` nodes. -/
def DepthAtMost : ℕ → NodeRecord Entry → Prop
  | 0, r => r.type ≠ .searchNode
  | w + 1, r => r.type = .searchNode → ∀ right, DepthAtMost w (lib.child r right)

/-- The data leaves below a record behind a path, from left to right, without those below search
nodes equal to the IPv4 start node at an address whose first 12 bytes are not all zero. -/
def leaves : ℕ → NodeRecord Entry → List Bool → List (List Bool × Entry)
  | 0, r, path => if r.type = .data then [(path, r.entry)] else []
  | w + 1, r, path =>
    match r.type with
    | .searchNode =>
      if r.value = lib.ipv4StartNode ∧ 2 ^ 32 ≤ firstAddress path then []
      else leaves w (lib.child r false) (path ++ [false]) ++
        leaves w (lib.child r true) (path ++ [true])
    | .data => [(path, r.entry)]
    | _ => []

variable {lib} {w : ℕ} {r : NodeRecord Entry} {path : List Bool}

theorem leaves_of_data (h : r.type = .data) : lib.leaves w r path = [(path, r.entry)] := by
  cases w <;> simp [leaves, h]

theorem leaves_of_empty (h : r.type = .empty) : lib.leaves w r path = [] := by
  cases w <;> simp [leaves, h]

theorem leaves_of_skipped (h : r.type = .searchNode)
    (hs : r.value = lib.ipv4StartNode ∧ 2 ^ 32 ≤ firstAddress path) :
    lib.leaves w r path = [] := by
  cases w with
  | zero => simp [leaves, h]
  | succ w => simp only [leaves, h, if_pos hs]

theorem leaves_of_node (h : r.type = .searchNode)
    (hs : ¬ (r.value = lib.ipv4StartNode ∧ 2 ^ 32 ≤ firstAddress path)) :
    lib.leaves (w + 1) r path = lib.leaves w (lib.child r false) (path ++ [false]) ++
      lib.leaves w (lib.child r true) (path ++ [true]) := by
  simp only [leaves, h, if_neg hs]

theorem prefix_of_mem_leaves {leaf : List Bool × Entry} (h : leaf ∈ lib.leaves w r path) :
    path <+: leaf.1 := by
  induction w generalizing r path with
  | zero =>
    unfold leaves at h
    split_ifs at h
    · obtain rfl := List.mem_singleton.mp h
      exact List.prefix_rfl
    · cases h
  | succ w ih =>
    unfold leaves at h
    split at h
    · split_ifs at h
      · cases h
      · rcases List.mem_append.mp h with h | h <;>
          exact (List.prefix_append path _).trans (ih h)
    · obtain rfl := List.mem_singleton.mp h
      exact List.prefix_rfl
    · cases h

/-- The leaves part from left to right. -/
theorem leaves_before (lib : LibTree Entry) (w : ℕ) (r : NodeRecord Entry) (path : List Bool) :
    (lib.leaves w r path).Pairwise fun x y => Before x.1 y.1 := by
  induction w generalizing r path with
  | zero =>
    unfold leaves
    split_ifs
    · exact List.pairwise_singleton _ _
    · exact .nil
  | succ w ih =>
    unfold leaves
    split
    · split_ifs
      · exact .nil
      · refine List.pairwise_append.mpr ⟨ih _ _, ih _ _, fun x hx y hy => ?_⟩
        exact ⟨path, prefix_of_mem_leaves hx, prefix_of_mem_leaves hy⟩
    · exact List.pairwise_singleton _ _
    · exact .nil

theorem leaves_nodup (lib : LibTree Entry) (w : ℕ) (r : NodeRecord Entry) (path : List Bool) :
    (lib.leaves w r path).Nodup := by
  refine (lib.leaves_before w r path).imp fun h heq => ?_
  rw [heq] at h
  exact Before.irrefl _ h

end LibTree

/-! ## Packed paths -/

/-- The 16 bytes of a path, zeros after its bits. -/
def packPath (path : List Bool) : Bytes := beBytes 16 (firstAddress path)

theorem firstAddress_lt {path : List Bool} (h : path.length ≤ 128) :
    firstAddress path < 2 ^ 128 := block_lt h

theorem prefix_toBits {path : List Bool} (h : path.length ≤ 128) :
    path <+: toBits 128 (firstAddress path) :=
  (prefix_toBits_iff h (firstAddress_lt h)).mpr (Nat.mul_div_cancel _ (by positivity))

theorem beNat_packPath {path : List Bool} (h : path.length ≤ 128) :
    beNat (packPath path) = firstAddress path :=
  beNat_beBytes (by have := firstAddress_lt h; norm_num at this ⊢; exact this)

theorem firstAddress_append_false {path : List Bool} (h : path.length < 128) :
    firstAddress (path ++ [false]) = firstAddress path := by
  obtain ⟨k, hk⟩ : ∃ k, 128 - path.length = k + 1 := ⟨127 - path.length, by omega⟩
  have hk' : 128 - (path ++ [false]).length = k := by
    rw [List.length_append, List.length_singleton]
    omega
  rw [firstAddress, firstAddress, hk, hk', ofBits_append_singleton, pow_succ]
  simp only [Bool.toNat_false]
  ring

theorem firstAddress_append_true {path : List Bool} (h : path.length < 128) :
    firstAddress (path ++ [true]) = firstAddress path ||| 2 ^ (127 - path.length) := by
  obtain ⟨k, hk⟩ : ∃ k, 128 - path.length = k + 1 := ⟨127 - path.length, by omega⟩
  have hk' : 128 - (path ++ [true]).length = k := by
    rw [List.length_append, List.length_singleton]
    omega
  have hk'' : 127 - path.length = k := by omega
  have hlt : 2 ^ k < 2 ^ (k + 1) := Nat.pow_lt_pow_right (by norm_num) (by omega)
  rw [firstAddress, firstAddress, hk, hk', hk'', ofBits_append_singleton, Nat.mul_comm (ofBits path),
    ← Nat.two_pow_add_eq_or_of_lt hlt, pow_succ]
  simp only [Bool.toNat_true]
  ring

theorem packPath_append_false {path : List Bool} (h : path.length < 128) :
    packPath (path ++ [false]) = packPath path := by
  rw [packPath, packPath, firstAddress_append_false h]

theorem setBit_packPath {path : List Bool} (h : path.length < 128) :
    setBit (packPath path) path.length = some (packPath (path ++ [true])) := by
  have hbyte : path.length / 8 < 16 := by omega
  rw [setBit, if_pos hbyte, packPath, modify_beBytes _ hbyte, packPath, firstAddress_append_true h]

theorem isIpv6_packPath {path : List Bool} (h : path.length ≤ 128) :
    isIpv6 (packPath path) = decide (2 ^ 32 ≤ firstAddress path) := by
  have htake : (packPath path).take 12 = beBytes 12 (firstAddress path / 256 ^ 4) :=
    take_beBytes 12 4 _
  have hlt := firstAddress_lt h
  have hzero : (beBytes 12 (firstAddress path / 256 ^ 4)).foldl (fun z x => z ||| x) 0 = 0 ↔
      firstAddress path < 2 ^ 32 := by
    rw [foldl_or_eq_zero, ← beNat_eq_zero, beNat_beBytes_mod]
    norm_num
    omega
  rw [isIpv6, htake, Bool.eq_iff_iff, bne_iff_ne, ne_eq, hzero, decide_eq_true_eq, Nat.not_lt]

/-! ## Queued records -/

namespace QueuedRecord

variable (q : QueuedRecord Entry)

/-- The record of the tree that is queued. -/
def node : NodeRecord Entry := ⟨q.record, q.type, q.entry⟩

/-- The first `depth` bits of `ip_packed`. -/
def path : List Bool := (toBits 128 (beNat q.ipPacked)).take q.depth

/-- The leaf that a data record stands for. -/
def leaf : List Bool × Entry := (q.path, q.entry)

/-- The leaves below a queued record. -/
def leaves (lib : LibTree Entry) (q : QueuedRecord Entry) : List (List Bool × Entry) :=
  lib.leaves (128 - q.depth) q.node q.path

end QueuedRecord

variable [Inhabited Entry]

/-- The record that a path leads to from where an iterator starts. -/
def LibTree.recordAt (lib : LibTree Entry) (path : List Bool) : NodeRecord Entry :=
  path.foldl lib.child QueuedRecord.zero.node

/-- The record is the one behind a path through search nodes, and is queued with this path. -/
structure Queued (lib : LibTree Entry) (q : QueuedRecord Entry) (path : List Bool) : Prop where
  length_le : path.length ≤ 128
  depth : q.depth = path.length
  ipPacked : q.ipPacked = packPath path
  node : q.node = lib.recordAt path
  through : ∀ p b, p ++ [b] <+: path → (lib.recordAt p).type = .searchNode
  depthAtMost : lib.DepthAtMost (128 - path.length) q.node

variable {lib : LibTree Entry} {q cur : QueuedRecord Entry} {path : List Bool}

theorem Queued.path_eq (h : Queued lib q path) : q.path = path := by
  rw [QueuedRecord.path, h.depth, h.ipPacked, beNat_packPath h.length_le]
  exact (List.prefix_iff_eq_take.mp (prefix_toBits h.length_le)).symm

theorem Queued.leaves_eq (h : Queued lib q path) :
    q.leaves lib = lib.leaves (128 - path.length) q.node path := by
  rw [QueuedRecord.leaves, h.path_eq, h.depth]

theorem Queued.skipped_iff (h : Queued lib q path) :
    Skipped lib q ↔ q.node.value = lib.ipv4StartNode ∧ 2 ^ 32 ≤ firstAddress path := by
  rw [Skipped, h.ipPacked, isIpv6_packPath h.length_le, decide_eq_true_eq]
  rfl

theorem Queued.length_lt (h : Queued lib q path) (ht : q.type = .searchNode) :
    path.length < 128 := by
  by_contra hge
  have hd := h.depthAtMost
  rw [show 128 - path.length = 0 by omega] at hd
  exact hd ht

/-- The records of a node are queued with their paths. -/
theorem Queued.child (h : Queued lib q path) (ht : q.type = .searchNode) (right : Bool) :
    Queued lib ((lib.child q.node right).queue (packPath (path ++ [right])) (q.depth + 1))
      (path ++ [right]) where
  length_le := by
    have := h.length_lt ht
    rw [List.length_append, List.length_singleton]
    omega
  depth := by rw [List.length_append, List.length_singleton, ← h.depth]; rfl
  ipPacked := rfl
  node := by
    rw [LibTree.recordAt, List.foldl_append, ← LibTree.recordAt, ← h.node]
    rfl
  through := by
    intro p b hp
    rcases List.prefix_concat_iff.mp hp with heq | hp
    · rw [(List.append_inj' heq rfl).1, ← h.node]
      exact ht
    · exact h.through p b hp
  depthAtMost := by
    have hd := h.depthAtMost
    have hlt := h.length_lt ht
    rw [show 128 - path.length = 128 - (path ++ [right]).length + 1 by
      rw [List.length_append, List.length_singleton]; omega] at hd
    exact hd ht right

/-! ## A call takes steps of the traversal -/

/-- Every record of a list is queued with its path. -/
def AllQueued (lib : LibTree Entry) (qs : List (QueuedRecord Entry)) : Prop :=
  ∀ q ∈ qs, ∃ path, Queued lib q path

/-- A turn that goes on puts parts of the subtree in the place of the record. -/
theorem expand_of_again {calls : TurnCalls} {next next' : List (QueuedRecord Entry)}
    (hq : Queued lib cur path) (h : turn lib calls cur next = .again next') :
    ∃ qs, next' = qs ++ next ∧ AllQueued lib qs ∧
      cur.leaves lib = qs.flatMap (QueuedRecord.leaves lib) := by
  rcases turn_again h with ⟨rfl, ht⟩ | ⟨ipPacked, ht, hs, hb, rfl⟩
  · refine ⟨[], rfl, by simp [AllQueued], ?_⟩
    rw [hq.leaves_eq, List.flatMap_nil]
    rcases ht with ht | ⟨ht, hs⟩
    · exact LibTree.leaves_of_empty ht
    · exact LibTree.leaves_of_skipped ht (hq.skipped_iff.mp hs)
  · have hlt := hq.length_lt ht
    have hleft := hq.child ht false
    have hright := hq.child ht true
    rw [packPath_append_false hlt, ← hq.ipPacked] at hleft
    rw [hq.ipPacked, hq.depth, setBit_packPath hlt, Option.some.injEq] at hb
    subst hb
    refine ⟨[_, _], rfl, ?_, ?_⟩
    · intro q hmem
      rcases List.mem_cons.mp hmem with rfl | hmem
      · exact ⟨_, hleft⟩
      · obtain rfl := List.mem_singleton.mp hmem
        exact ⟨_, hright⟩
    · obtain ⟨w, hw⟩ : ∃ w, 128 - path.length = w + 1 := ⟨127 - path.length, by omega⟩
      have hw' : ∀ b, 128 - (path ++ [b]).length = w := fun b => by
        rw [List.length_append, List.length_singleton]
        omega
      rw [hq.leaves_eq, hw, LibTree.leaves_of_node ht fun h => hs (hq.skipped_iff.mpr h)]
      have hl := hleft.leaves_eq
      have hr := hright.leaves_eq
      rw [hw'] at hl hr
      rw [List.flatMap_cons, List.flatMap_cons, List.flatMap_nil, List.append_nil]
      exact (congrArg₂ (· ++ ·) hl hr).symm

theorem leaves_of_data (hq : Queued lib cur path) (ht : cur.type = .data) :
    cur.leaves lib = [cur.leaf] := by
  have hnode : cur.node.type = .data := ht
  rw [hq.leaves_eq, LibTree.leaves_of_data hnode, QueuedRecord.leaf, hq.path_eq]
  rfl

/-- The record that a call has returned a pair for. -/
def Outcome.handled : Outcome Entry → List (QueuedRecord Entry)
  | .item _ _ cur => [cur]
  | _ => []

/-- The record that a raising call has taken off the list. -/
def Outcome.popped : Outcome Entry → List (QueuedRecord Entry)
  | .raised _ (some cur) => [cur]
  | _ => []

/-- What the loop of a call does to the list is a number of steps of the traversal. -/
theorem loop_steps {calls : ℕ → TurnCalls} {k : ℕ} {next next' : List (QueuedRecord Entry)}
    {outcome : Outcome Entry} (hq : AllQueued lib next)
    (h : loop lib calls k next = (outcome, next')) (handled : List (List Bool × Entry))
    (popped : List (QueuedRecord Entry)) :
    outcome ≠ .outOfBounds ∧ AllQueued lib (outcome.handled ++ next') ∧
      Steps (QueuedRecord.leaves lib) ⟨handled, next, popped⟩
        ⟨handled ++ outcome.handled.map QueuedRecord.leaf, next', popped ++ outcome.popped⟩ := by
  induction hm : weight next using Nat.strong_induction_on generalizing k next with
  | _ m ih =>
  rcases next with _ | ⟨cur, next⟩
  · rw [loop, Prod.mk.injEq] at h
    obtain ⟨rfl, rfl⟩ := h
    refine ⟨by simp, by simp [AllQueued, Outcome.handled], ?_⟩
    simpa [Outcome.handled, Outcome.popped] using Relation.ReflTransGen.refl
  · obtain ⟨path, hcur⟩ := hq cur List.mem_cons_self
    have hnext : AllQueued lib next := fun q hmem => hq q (List.mem_cons_of_mem _ hmem)
    cases hturn : turn lib (calls k) cur next with
    | done outcome' =>
      rw [loop_of_done hturn, Prod.mk.injEq] at h
      obtain ⟨rfl, rfl⟩ := h
      rcases turn_done hturn with ⟨address, prefixLen, rfl, ht⟩ | ⟨error, rfl⟩ | ⟨-, ht, -, hb⟩
      · refine ⟨by simp, hq, ?_⟩
        simpa [Outcome.handled, Outcome.popped] using
          Relation.ReflTransGen.single (Step.handle (leaves_of_data hcur ht))
      · refine ⟨by simp, by simpa [Outcome.handled] using hnext, ?_⟩
        simpa [Outcome.handled, Outcome.popped] using Relation.ReflTransGen.single Step.drop
      · rw [hcur.ipPacked, hcur.depth, setBit_packPath (hcur.length_lt ht)] at hb
        cases hb
    | again next'' =>
      rw [loop_of_again hturn] at h
      obtain ⟨qs, rfl, hqs, hleaves⟩ := expand_of_again hcur hturn
      have hall : AllQueued lib (qs ++ next) := by
        intro q hmem
        rcases List.mem_append.mp hmem with hmem | hmem
        · exact hqs q hmem
        · exact hnext q hmem
      have hlt := weight_of_again hturn
      rw [hm] at hlt
      obtain ⟨h1, h2, h3⟩ := ih _ hlt hall h rfl
      exact ⟨h1, h2, .head (Step.expand hleaves) h3⟩

/-! ## Any number of calls -/

/-- The list of an iterator, the records that pairs have been returned for, and the records that
raising calls have taken off the list. -/
structure History (Entry : Type) where
  next : List (QueuedRecord Entry)
  handled : List (QueuedRecord Entry)
  popped : List (QueuedRecord Entry)

/-- An iterator as `Reader_iter` makes it. -/
def History.init : History Entry := ⟨[QueuedRecord.zero], [], []⟩

/-- One more call. -/
def History.call (lib : LibTree Entry) (s : History Entry) (call : Call) : History Entry :=
  let (outcome, next) := readerIterNext lib call s.next
  ⟨next, s.handled ++ outcome.handled, s.popped ++ outcome.popped⟩

/-- An iterator after some calls. -/
def run (lib : LibTree Entry) (calls : List Call) : History Entry :=
  calls.foldl (History.call lib) .init

theorem run_append (calls : List Call) (call : Call) :
    run lib (calls ++ [call]) = (run lib calls).call lib call := by
  rw [run, List.foldl_append]
  rfl

/-- What the traversal knows of a history. -/
def History.state (s : History Entry) :
    Worklist.State (QueuedRecord Entry) (List Bool × Entry) :=
  ⟨s.handled.map QueuedRecord.leaf, s.next, s.popped⟩

theorem readerIterNext_steps {call : Call} {next next' : List (QueuedRecord Entry)}
    {outcome : Outcome Entry} (hq : AllQueued lib next)
    (h : readerIterNext lib call next = (outcome, next')) (handled : List (List Bool × Entry))
    (popped : List (QueuedRecord Entry)) :
    outcome ≠ .outOfBounds ∧ AllQueued lib (outcome.handled ++ next') ∧
      Steps (QueuedRecord.leaves lib) ⟨handled, next, popped⟩
        ⟨handled ++ outcome.handled.map QueuedRecord.leaf, next', popped ++ outcome.popped⟩ := by
  unfold readerIterNext at h
  split_ifs at h
  · rw [Prod.mk.injEq] at h
    obtain ⟨rfl, rfl⟩ := h
    refine ⟨by simp, hq, ?_⟩
    simpa [Outcome.handled, Outcome.popped] using Relation.ReflTransGen.refl
  · rw [Prod.mk.injEq] at h
    obtain ⟨rfl, rfl⟩ := h
    refine ⟨by simp, hq, ?_⟩
    simpa [Outcome.handled, Outcome.popped] using Relation.ReflTransGen.refl
  · exact loop_steps hq h handled popped

/-- A call that takes no record off the list by raising returns the first of the leaves, or none. -/
theorem readerIterNext_leaves [DecidableEq Entry] {call : Call}
    {next next' : List (QueuedRecord Entry)} {outcome : Outcome Entry} (hq : AllQueued lib next)
    (hnodup : (next.flatMap (QueuedRecord.leaves lib)).Nodup)
    (h : readerIterNext lib call next = (outcome, next')) (hp : outcome.popped = []) :
    next.flatMap (QueuedRecord.leaves lib) =
      outcome.handled.map QueuedRecord.leaf ++ next'.flatMap (QueuedRecord.leaves lib) := by
  obtain ⟨-, -, hsteps⟩ := readerIterNext_steps hq h [] []
  have hleft := hsteps.handled_append_pending hnodup (by rw [remaining_nil]; rfl)
  rw [hp, List.append_nil, remaining_nil] at hleft
  exact hleft.symm

theorem call_steps {s : History Entry} (hq : AllQueued lib (s.handled ++ s.next)) (call : Call) :
    AllQueued lib ((s.call lib call).handled ++ (s.call lib call).next) ∧
      Steps (QueuedRecord.leaves lib) s.state (s.call lib call).state := by
  have hnext : AllQueued lib s.next := fun q hmem => hq q (List.mem_append_right _ hmem)
  cases hres : readerIterNext lib call s.next with
  | mk outcome next' =>
    obtain ⟨-, hall, hsteps⟩ := readerIterNext_steps hnext hres
      (s.handled.map QueuedRecord.leaf) s.popped
    have hcall : s.call lib call =
        ⟨next', s.handled ++ outcome.handled, s.popped ++ outcome.popped⟩ := by
      rw [History.call, hres]
    rw [hcall]
    refine ⟨fun q hmem => ?_, ?_⟩
    · rw [List.append_assoc] at hmem
      rcases List.mem_append.mp hmem with hmem | hmem
      · exact hq q (List.mem_append_left _ hmem)
      · exact hall q hmem
    · simpa only [History.state, List.map_append] using hsteps

theorem run_steps (h : lib.DepthAtMost 128 QueuedRecord.zero.node) (calls : List Call) :
    AllQueued lib ((run lib calls).handled ++ (run lib calls).next) ∧
      Steps (QueuedRecord.leaves lib) (History.init : History Entry).state (run lib calls).state := by
  induction calls using List.reverseRecOn with
  | nil =>
    refine ⟨fun q hmem => ⟨[], ?_⟩, .refl⟩
    obtain rfl := List.mem_singleton.mp hmem
    have hzero : List.replicate 16 0 = packPath [] := by decide +kernel
    exact ⟨by simp, rfl, hzero, rfl, by simp, h⟩
  | append_singleton calls call ih =>
    rw [run_append]
    obtain ⟨hq, hsteps⟩ := ih
    obtain ⟨hq', hsteps'⟩ := call_steps hq call
    exact ⟨hq', hsteps.trans hsteps'⟩

/-- **The worklist refines the recursive traversal, across errors.** Over a tree in which no path
leads through more than 128 nodes, after any calls: the leaves returned and those that the list still
leads to are, in this order, the leaves of the recursive traversal but for those below the records
that raising calls have taken off the list; no leaf is returned twice, and the addresses of the
leaves returned increase; every queued record is the one its path leads to, with the bits of the path
and zeros in `ip_packed`; and a further call does not write outside `ip_packed`, ends the iteration
only where the list leads to no leaf, and returns no pair but that of the first leaf it leads to. -/
theorem next_refines [DecidableEq Entry] (lib : LibTree Entry)
    (h : lib.DepthAtMost 128 QueuedRecord.zero.node) (calls : List Call) :
    (run lib calls).handled.map QueuedRecord.leaf ++
        (run lib calls).next.flatMap (QueuedRecord.leaves lib) =
      remaining (QueuedRecord.leaves lib) (run lib calls).popped
        (lib.leaves 128 QueuedRecord.zero.node []) ∧
    ((run lib calls).handled.map QueuedRecord.leaf).Nodup ∧
    ((run lib calls).handled.Pairwise fun q q' => beNat q.ipPacked < beNat q'.ipPacked) ∧
    (∀ q ∈ (run lib calls).next, ∃ path, path.length ≤ 128 ∧ q.depth = path.length ∧
      q.ipPacked = packPath path ∧ q.node = lib.recordAt path) ∧
    ∀ call outcome next, readerIterNext lib call (run lib calls).next = (outcome, next) →
      outcome ≠ .outOfBounds ∧
      (outcome = .stopIteration →
        next = [] ∧ (run lib calls).next.flatMap (QueuedRecord.leaves lib) = []) ∧
      ∀ address prefixLen cur, outcome = .item address prefixLen cur →
        (run lib calls).next.flatMap (QueuedRecord.leaves lib) =
          cur.leaf :: next.flatMap (QueuedRecord.leaves lib) := by
  obtain ⟨hq, hsteps⟩ := run_steps h calls
  have hall := lib.leaves_nodup 128 QueuedRecord.zero.node []
  have hleft : (run lib calls).handled.map QueuedRecord.leaf ++
      (run lib calls).next.flatMap (QueuedRecord.leaves lib) =
        remaining (QueuedRecord.leaves lib) (run lib calls).popped
          (lib.leaves 128 QueuedRecord.zero.node []) := by
    refine hsteps.handled_append_pending hall ?_
    unfold History.state History.init
    rw [remaining_nil, List.map_nil, List.nil_append, List.flatMap_singleton]
    rfl
  -- the leaves returned come first in what is left of the leaves of the traversal
  have hrem : ((run lib calls).handled.map QueuedRecord.leaf ++
      (run lib calls).next.flatMap (QueuedRecord.leaves lib)).Sublist
        (lib.leaves 128 QueuedRecord.zero.node []) := by
    rw [hleft]
    exact remaining_sublist _ _
  have hsub : ((run lib calls).handled.map QueuedRecord.leaf).Sublist
      (lib.leaves 128 QueuedRecord.zero.node []) := (List.sublist_append_left _ _).trans hrem
  refine ⟨hleft, hall.sublist hsub, ?_, fun q hmem => ?_, fun call outcome next hcall => ?_⟩
  · have hbefore := (lib.leaves_before 128 QueuedRecord.zero.node []).sublist hsub
    refine (List.pairwise_map.mp hbefore).imp_of_mem fun {q q'} hm hm' hb => ?_
    obtain ⟨path, hp⟩ := hq q (List.mem_append_left _ hm)
    obtain ⟨path', hp'⟩ := hq q' (List.mem_append_left _ hm')
    have hb : Before q.path q'.path := hb
    rw [hp.path_eq, hp'.path_eq] at hb
    rw [hp.ipPacked, hp'.ipPacked, beNat_packPath hp.length_le, beNat_packPath hp'.length_le]
    have hle := hb.block_le hp.length_le hp'.length_le
    have hpos : 0 < 2 ^ (128 - path.length) := by positivity
    rw [Nat.add_mul, Nat.one_mul] at hle
    unfold firstAddress
    omega
  · obtain ⟨path, hp⟩ := hq q (List.mem_append_right _ hmem)
    exact ⟨path, hp.length_le, hp.depth, hp.ipPacked, hp.node⟩
  · have hnext : AllQueued lib (run lib calls).next := fun q hmem =>
      hq q (List.mem_append_right _ hmem)
    have hnodup := hall.sublist ((List.sublist_append_right _ _).trans hrem)
    refine ⟨(readerIterNext_steps hnext hcall [] []).1, ?_, ?_⟩
    · rintro rfl
      have hempty := readerIterNext_stopIteration hcall
      have hleaves := readerIterNext_leaves hnext hnodup hcall rfl
      rw [hempty] at hleaves
      exact ⟨hempty, hleaves⟩
    · rintro address prefixLen cur rfl
      exact readerIterNext_leaves hnext hnodup hcall rfl

/-! Two calls over one node: a data record on the left, a record past the file on the right. -/

def oneNode : LibTree ℕ where
  ipv4StartNode := 0
  depth := 32
  readNode _ := ⟨⟨17, .data, 17⟩, ⟨99, .invalid, 0⟩⟩

theorem oneNode_child (r : NodeRecord ℕ) (right : Bool) :
    (oneNode.child r right).type ≠ .searchNode := by
  cases right <;> simp [LibTree.child, SearchNode.side, oneNode]

theorem oneNode_depthAtMost : oneNode.DepthAtMost 128 QueuedRecord.zero.node :=
  fun _ right h => absurd h (oneNode_child _ right)

def oneNodeLeft : QueuedRecord ℕ :=
  (⟨17, .data, 17⟩ : NodeRecord ℕ).queue (packPath [false]) 1

def oneNodeRight : QueuedRecord ℕ :=
  (⟨99, .invalid, 0⟩ : NodeRecord ℕ).queue (packPath [true]) 1

theorem oneNode_item : readerIterNext oneNode .succeeds [.zero] =
    (.item [0, 0, 0, 0] 1 oneNodeLeft, [oneNodeRight]) := by
  have hagain : turn oneNode .succeed .zero [] = .again [oneNodeLeft, oneNodeRight] := rfl
  have hdone : turn oneNode .succeed oneNodeLeft [oneNodeRight] =
      .done (.item [0, 0, 0, 0] 1 oneNodeLeft) := rfl
  exact (loop_of_again hagain).trans (loop_of_done hdone)

theorem oneNode_raised : readerIterNext oneNode .succeeds [oneNodeRight] =
    (.raised .maxMindDBError oneNodeRight, []) := loop_of_done rfl

theorem run_oneNode :
    run oneNode [.succeeds, .succeeds] = ⟨[], [oneNodeLeft], [oneNodeRight]⟩ ∧
      remaining (QueuedRecord.leaves oneNode) [oneNodeRight]
        (oneNode.leaves 128 QueuedRecord.zero.node []) = [([false], 17)] ∧
      [QueuedRecord.zero].flatMap (QueuedRecord.leaves oneNode) =
        ([false], 17) :: [oneNodeRight].flatMap (QueuedRecord.leaves oneNode) := by
  have hrun : run oneNode [.succeeds, .succeeds] = ⟨[], [oneNodeLeft], [oneNodeRight]⟩ := by
    simp [run, History.call, History.init, oneNode_item, oneNode_raised, Outcome.handled,
      Outcome.popped]
  have hleaf : oneNodeLeft.leaf = ([false], 17) := by decide +kernel
  have hrefines := (next_refines oneNode oneNode_depthAtMost [.succeeds, .succeeds]).1
  have hfirst := ((next_refines oneNode oneNode_depthAtMost []).2.2.2.2 _ _ _ oneNode_item).2.2
    _ _ _ rfl
  rw [hleaf] at hfirst
  rw [hrun, List.map_singleton, hleaf] at hrefines
  exact ⟨hrun, hrefines.symm, hfirst⟩

end MaxMindDB.Extension
