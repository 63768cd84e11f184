import MaxMindDB.Completeness
import MaxMindDB.Extension.Traversal

/-!
# The leaves of the two iterators

Both iterators leave out repeated occurrences of the IPv4 subtree. `ReaderIter_next` compares only
search nodes with the IPv4 start node; `_generate_children` compares every record value with it,
before it looks at what the value is.

`sameLeaves_iff`: on a database of one of the two versions they come to the same data records, at
the same places, exactly when the record at which IPv4 lookups start, if it is a data record, stands
at no other place.
-/

namespace MaxMindDB

open Octets BitString Raising

/-! ## What the iterators come to -/

/-- The data records `_generate_children` comes to, each with its path. -/
def Reader.reached (r : Reader) (n limit : ℕ) : Gen Exc (ℕ × List Bool) :=
  r.generateWith (fun node depth ipAcc => .ok (node, toBits depth ipAcc)) (.int n) limit 0 0 0

theorem Reader.reached_eq (r : Reader) (n limit : ℕ) :
    r.reached n limit = (r.tree n).leaves r.aliasSkip .recursionError limit 0 [] := by
  refine (r.generateWith_eq _ limit 0 []).trans ?_
  simp only [toBits_ofBits]
  exact Gen.mapM_ok _

namespace Extension

variable {Entry : Type} {lib : LibTree Entry}

/-- Calls of `ReaderIter_next` in which nothing fails, up to the one that stops the iteration, return
pairs for the records of the second list. -/
inductive Drains (lib : LibTree Entry) : List (QueuedRecord Entry) → List (QueuedRecord Entry) → Prop
  | stop {next rest : List (QueuedRecord Entry)} :
      readerIterNext lib .succeeds next = (.stopIteration, rest) → Drains lib next []
  | item {next rest curs : List (QueuedRecord Entry)} {cur : QueuedRecord Entry} {address : Bytes}
      {prefixLen : ℤ} : readerIterNext lib .succeeds next = (.item address prefixLen cur, rest) →
      Drains lib rest curs → Drains lib next (cur :: curs)

/-- The type of a record that is not 0, by comparison with the number of nodes. -/
def recordType (n value : ℕ) : RecordType :=
  if value < n then .searchNode else if value = n then .empty else .data

/-- libmaxminddb has opened the database of a reader. It opens none without nodes; the IPv4 start
node is what at most 96 zero bits lead to, and may be left 0 in a database of IPv4 addresses. -/
structure LibTree.Opens (lib : LibTree Entry) (r : Reader) (n : ℕ) : Prop where
  nodeCount_pos : 0 < n
  value : ∀ node < n, ∀ b v, (r.tree n).child node b = .ok v →
    ((lib.readNode node).side b).value = v
  type : ∀ node < n, ∀ b v, (r.tree n).child node b = .ok v → v ≠ 0 →
    ((lib.readNode node).side b).type = recordType n v
  start : (∃ k, (r.tree n).walk (List.replicate 96 false) 0 = .ok (lib.ipv4StartNode, k)) ∨
    ¬ r.metadata.ipVersion.eqInt 6 ∧ lib.ipv4StartNode = 0

/-! ## A run in which nothing fails -/

theorem turn_succeed_ne_raised {cur : QueuedRecord Entry} {next : List (QueuedRecord Entry)}
    (ht : cur.type = .searchNode ∨ cur.type = .empty ∨ cur.type = .data) (error : PyErr)
    (popped : Option (QueuedRecord Entry)) :
    turn lib .succeed cur next ≠ .done (.raised error popped) := by
  unfold turn
  rcases ht with ht | ht | ht <;> rw [ht] <;> simp only [TurnCalls.succeed]
  · by_cases hs : cur.record = lib.ipv4StartNode ∧ isIpv6 cur.ipPacked
    · simp [if_pos hs]
    · rw [if_neg hs]
      cases setBit cur.ipPacked cur.depth <;> simp
  · simp
  · simp

theorem Drains.of_again {cur : QueuedRecord Entry} {next next' curs : List (QueuedRecord Entry)}
    (hturn : turn lib .succeed cur next = .again next') (h : Drains lib next' curs) :
    Drains lib (cur :: next) curs := by
  have hnext : readerIterNext lib .succeeds (cur :: next) = readerIterNext lib .succeeds next' :=
    (loop_of_again hturn).trans (loop_const _ _ _ _)
  cases h with
  | stop hs => exact .stop (hnext.trans hs)
  | item hi hd => exact .item (hnext.trans hi) hd

theorem Drains.unique {next curs curs' : List (QueuedRecord Entry)} (h : Drains lib next curs)
    (h' : Drains lib next curs') : curs = curs' := by
  induction h generalizing curs' with
  | stop hs =>
    cases h' with
    | stop => rfl
    | item hi _ => rw [hs] at hi; cases hi
  | item hi _ ih =>
    cases h' with
    | stop hs => rw [hi] at hs; cases hs
    | item hi' hd =>
      rw [hi] at hi'
      cases hi'
      rw [ih hd]

/-! ## The tree behind the records -/

variable {r : Reader} {n : ℕ}

theorem recordType_eq_searchNode {value : ℕ} : recordType n value = .searchNode ↔ value < n := by
  unfold recordType
  split_ifs with h h' <;> simp [h]

theorem recordType_eq_data {value : ℕ} : recordType n value = .data ↔ n < value := by
  unfold recordType
  split_ifs with h h'
  · simp only [false_iff]; omega
  · simp only [false_iff]; omega
  · simp only [true_iff]; omega

/-- The record is what libmaxminddb reports for the value behind a path of the tree. -/
structure Stands (r : Reader) (n : ℕ) (rec : NodeRecord Entry) (path : List Bool) (node : ℕ) :
    Prop where
  reaches : (r.tree n).Reaches 0 path node
  value : rec.value = node
  type : rec.type = recordType n node
  lt : node < 2 ^ 32

namespace Stands

variable {rec : NodeRecord Entry} {path : List Bool} {w v node : ℕ}

theorem reaches_child (h : Stands r n rec path node) (hn : node < n) {b : Bool}
    (hc : (r.tree n).child node b = .ok v) : (r.tree n).Reaches 0 (path ++ [b]) v :=
  BitTrie.reaches_append.mpr
    ⟨node, h.reaches, BitTrie.reaches_cons.mpr ⟨hn, v, hc, BitTrie.reaches_nil v⟩⟩

/-- In a bounded tree no record leads back to the root, so every type is by comparison. -/
theorem child (hl : lib.Opens r n) (hb : (r.tree n).Bounded w 0) (h : Stands r n rec path node)
    (hn : node < n) {b : Bool} (hc : (r.tree n).child node b = .ok v) :
    Stands r n (lib.child rec b) (path ++ [b]) v := by
  have hreach := h.reaches_child hn hc
  have hv : v ≠ 0 := by
    rintro rfl
    exact hb.not_reaches_self (BitTrie.reaches_nil 0) hl.nodeCount_pos (by simp) hreach
  have hread : rec.value % 2 ^ 32 = node := by rw [h.value, Nat.mod_eq_of_lt h.lt]
  unfold LibTree.child
  rw [hread]
  exact ⟨hreach, hl.value node hn b v hc, hl.type node hn b v hc hv, Reader.readNode_lt hc⟩

theorem depthAtMost (hl : lib.Opens r n) {w₀ : ℕ} (hb₀ : (r.tree n).Bounded w₀ 0)
    (h : Stands r n rec path node) (hb : (r.tree n).Bounded w node) : lib.DepthAtMost w rec := by
  induction w generalizing rec path node with
  | zero =>
    intro ht
    have hn := recordType_eq_searchNode.mp (h.type.symm.trans ht)
    exact absurd hb.le_of_zero (by rw [Reader.tree_count]; omega)
  | succ w ih =>
    intro ht b
    have hn := recordType_eq_searchNode.mp (h.type.symm.trans ht)
    obtain ⟨v, hc, hbv⟩ := hb.child hn b
    exact ih (h.child hl hb₀ hn hc) hbv

end Stands

/-- What `ReaderIter_next` leaves out, by the path that leads to it. -/
def nextSkip (lib : LibTree Entry) (n node : ℕ) (path : List Bool) : Bool :=
  decide (node < n ∧ node = lib.ipv4StartNode ∧ 2 ^ 32 ≤ firstAddress path)

/-- Values that are not nodes are leaves of both traversals, or of none. -/
theorem Stands.leaves_eq_of_le {node : ℕ} {rec : NodeRecord Entry} {path : List Bool}
    (h : Stands r n rec path node) (hle : n ≤ node) (spent : Exc) (w : ℕ) :
    (lib.leaves w rec path).map Prod.fst =
      ((r.tree n).leaves (nextSkip lib n) spent (w + 1) node path).yields.map Prod.snd := by
  rcases Nat.eq_or_lt_of_le hle with heq | hgt
  · have ht : rec.type = .empty := by rw [h.type, ← heq]; simp [recordType]
    rw [LibTree.leaves_of_empty ht, BitTrie.leaves_of_eq heq.symm]
    rfl
  · have hskip : nextSkip lib n node path = false := decide_eq_false fun hs => by omega
    rw [LibTree.leaves_of_data (h.type.trans (recordType_eq_data.mpr hgt)),
      BitTrie.leaves_of_gt hskip hgt]
    rfl

theorem Stands.leaves_eq (hl : lib.Opens r n) {w₀ w node : ℕ} (hb₀ : (r.tree n).Bounded w₀ 0)
    {rec : NodeRecord Entry} {path : List Bool} (h : Stands r n rec path node)
    (hb : (r.tree n).Bounded w node) (spent : Exc) :
    (lib.leaves w rec path).map Prod.fst =
      ((r.tree n).leaves (nextSkip lib n) spent (w + 1) node path).yields.map Prod.snd := by
  induction w generalizing rec path node with
  | zero => exact h.leaves_eq_of_le hb.le_of_zero spent 0
  | succ w ih =>
    rcases Nat.lt_or_ge node n with hlt | hge
    swap
    · exact h.leaves_eq_of_le hge spent (w + 1)
    have ht := h.type.trans (recordType_eq_searchNode.mpr hlt)
    by_cases hs : rec.value = lib.ipv4StartNode ∧ 2 ^ 32 ≤ firstAddress path
    · have hskip : nextSkip lib n node path = true :=
        decide_eq_true ⟨hlt, h.value ▸ hs.1, hs.2⟩
      rw [LibTree.leaves_of_skipped ht hs, BitTrie.leaves_of_skip hskip]
      rfl
    · have hskip : nextSkip lib n node path = false :=
        decide_eq_false fun hn => hs ⟨h.value.trans hn.2.1, hn.2.2⟩
      obtain ⟨left, hcl, hbl⟩ := hb.child hlt false
      obtain ⟨right, hcr, hbr⟩ := hb.child hlt true
      rw [LibTree.leaves_of_node ht hs, BitTrie.leaves_of_lt hskip hlt, hcl, hcr, Gen.await_ok,
        Gen.await_ok, Gen.andThen_of_none (hbl.leaves_raised_none (Nat.lt_succ_self w) _),
        List.map_append, List.map_append, ih (h.child hl hb₀ hlt hcl) hbl,
        ih (h.child hl hb₀ hlt hcr) hbr]

/-! ## What a run in which nothing fails comes to -/

variable [Inhabited Entry]

/-- The two iterators come to the same data records at the same places. -/
def SameLeaves (lib : LibTree Entry) (r : Reader) (n : ℕ) : Prop :=
  ∃ leaves curs, Settles (fun limit => r.reached n limit) ⟨leaves, none⟩ ∧
    Drains lib [QueuedRecord.zero] curs ∧
    ∀ record path, (record, path) ∈ leaves ↔
      ∃ cur ∈ curs, cur.record = record ∧ cur.depth = path.length ∧ cur.path = path

/-- Every record that is queued is one an iterator can handle. -/
def Handleable (lib : LibTree Entry) : Prop :=
  ∀ q path, Queued lib q path → q.type = .searchNode ∨ q.type = .empty ∨ q.type = .data

theorem exists_drains (hlib : Handleable lib) {next : List (QueuedRecord Entry)}
    (hq : AllQueued lib next) : ∃ curs, Drains lib next curs ∧
      curs.map QueuedRecord.leaf = next.flatMap (QueuedRecord.leaves lib) ∧
      AllQueued lib curs ∧ ∀ cur ∈ curs, cur.type = .data := by
  induction hm : weight next using Nat.strong_induction_on generalizing next with
  | _ m ih =>
  rcases next with _ | ⟨cur, next⟩
  · have hstop : readerIterNext lib .succeeds [] = (.stopIteration, []) := loop.eq_1 lib _ _
    exact ⟨[], .stop hstop, rfl, by simp [AllQueued], by simp⟩
  obtain ⟨path, hcur⟩ := hq cur List.mem_cons_self
  have hnext : AllQueued lib next := fun q hmem => hq q (List.mem_cons_of_mem _ hmem)
  cases hturn : turn lib .succeed cur next with
  | again next' =>
    obtain ⟨qs, rfl, hqs, hleaves⟩ := expand_of_again hcur hturn
    have hall : AllQueued lib (qs ++ next) := fun q hmem =>
      (List.mem_append.mp hmem).elim (hqs q) (hnext q)
    obtain ⟨curs, hd, hmap, hrest⟩ := ih _ (hm ▸ weight_of_again hturn) hall rfl
    refine ⟨curs, hd.of_again hturn, ?_, hrest⟩
    rw [hmap, List.flatMap_append, List.flatMap_cons, hleaves]
  | done outcome =>
    have hloop : readerIterNext lib .succeeds (cur :: next) = (outcome, next) :=
      loop_of_done hturn
    rcases turn_done hturn with ⟨address, prefixLen, rfl, ht⟩ | ⟨error, rfl⟩ | ⟨-, ht, -, hb⟩
    · have hlt : weight next < m := by
        rw [← hm, weight_cons]
        have : 0 < 3 ^ (129 - cur.depth) := by positivity
        omega
      obtain ⟨curs, hd, hmap, hqueued, hdata⟩ := ih _ hlt hnext rfl
      refine ⟨cur :: curs, .item hloop hd, ?_, ?_, ?_⟩
      · rw [List.map_cons, hmap, List.flatMap_cons, leaves_of_data hcur ht, List.singleton_append]
      · intro q hmem
        rcases List.mem_cons.mp hmem with rfl | hmem
        · exact ⟨path, hcur⟩
        · exact hqueued q hmem
      · intro q hmem
        rcases List.mem_cons.mp hmem with rfl | hmem
        · exact ht
        · exact hdata q hmem
    · exact absurd hturn (turn_succeed_ne_raised (hlib cur path hcur) error cur)
    · rw [hcur.ipPacked, hcur.depth, setBit_packPath (hcur.length_lt ht)] at hb
      cases hb

theorem stands_zero (hl : lib.Opens r n) :
    Stands r n (QueuedRecord.zero : QueuedRecord Entry).node [] 0 where
  reaches := BitTrie.reaches_nil 0
  value := rfl
  type := (recordType_eq_searchNode.mpr hl.nodeCount_pos).symm
  lt := by norm_num

theorem Queued.stands (hl : lib.Opens r n) {w : ℕ} (hb : (r.tree n).Bounded w 0)
    {q : QueuedRecord Entry} {path : List Bool} (hq : Queued lib q path) :
    Stands r n q.node path q.record := by
  have key : ∀ p, p <+: path → ∃ node, Stands r n (lib.recordAt p) p node := by
    intro p
    induction p using List.reverseRecOn with
    | nil => exact fun _ => ⟨0, stands_zero hl⟩
    | append_singleton p b ih =>
      intro hp
      obtain ⟨node, h⟩ := ih ((List.prefix_append _ _).trans hp)
      have hn := recordType_eq_searchNode.mp (h.type.symm.trans (hq.through p b hp))
      obtain ⟨v, hc⟩ := hb.exists_child h.reaches hn b
      refine ⟨v, ?_⟩
      rw [LibTree.recordAt, List.foldl_append]
      exact h.child hl hb hn hc
  obtain ⟨node, h⟩ := key path List.prefix_rfl
  rw [← hq.node] at h
  obtain rfl : q.record = node := h.value
  exact h

theorem handleable (hl : lib.Opens r n) {w : ℕ} (hb : (r.tree n).Bounded w 0) : Handleable lib := by
  intro q path hq
  have ht : q.type = recordType n q.record := (hq.stands hl hb).type
  unfold recordType at ht
  split_ifs at ht
  · exact .inl ht
  · exact .inr (.inl ht)
  · exact .inr (.inr ht)

/-- The records that calls return pairs for, up to the end, when nothing fails. -/
theorem exists_drained (hl : lib.Opens r n) (hb : (r.tree n).Bounded r.bits 0) :
    ∃ curs, Drains lib [QueuedRecord.zero] curs ∧ ∀ record path,
      (∃ cur ∈ curs, cur.record = record ∧ cur.depth = path.length ∧ cur.path = path) ↔
        (r.tree n).Reaches 0 path record ∧ n < record ∧
          (r.tree n).Open (nextSkip lib n) 0 [] path := by
  have hbits : r.bits ≤ 128 := by
    rcases r.bits_eq with h | h <;> omega
  have hb128 := hb.mono hbits
  have hdepth := (stands_zero hl).depthAtMost hl hb hb128
  obtain ⟨curs, hd, hmap, hq, hdata⟩ := exists_drains (handleable hl hb) (run_steps hdepth []).1
  refine ⟨curs, hd, fun record path => ?_⟩
  have hleaves : curs.map QueuedRecord.path =
      ((r.tree n).visited (nextSkip lib n) .recursionError 128).map Prod.snd := by
    refine Eq.trans ?_ ((stands_zero hl).leaves_eq hl hb hb128 .recursionError)
    refine Eq.trans ?_ (congrArg (List.map Prod.fst) (hmap.trans (List.flatMap_singleton _ _)))
    rw [List.map_map]
    rfl
  constructor
  · rintro ⟨cur, hcur, rfl, -, rfl⟩
    obtain ⟨path, hpath⟩ := hq cur hcur
    have hstands := hpath.stands hl hb
    have hdat := recordType_eq_data.mp (hstands.type.symm.trans (hdata cur hcur))
    have hmem : cur.path ∈ curs.map QueuedRecord.path := List.mem_map_of_mem hcur
    rw [hleaves] at hmem
    obtain ⟨⟨leaf, p⟩, hvisited, heq⟩ := List.mem_map.mp hmem
    obtain rfl : p = cur.path := heq
    rw [hpath.path_eq] at hvisited ⊢
    exact ⟨hstands.reaches, hdat, (hb128.mem_visited.mp hvisited).2.2⟩
  · intro h
    have hmem : path ∈ curs.map QueuedRecord.path := by
      rw [hleaves]
      exact List.mem_map.mpr ⟨(record, path), hb128.mem_visited.mpr h, rfl⟩
    obtain ⟨cur, hcur, rfl⟩ := List.mem_map.mp hmem
    obtain ⟨path, hpath⟩ := hq cur hcur
    have hreaches := (hpath.stands hl hb).reaches
    rw [hpath.path_eq] at h ⊢
    exact ⟨cur, hcur, hreaches.unique h.1, hpath.depth, hpath.path_eq⟩

/-! ## What the iterators leave out -/

variable {buffer : Buffer} {filename : String} {limit : ℕ}

omit [Inhabited Entry] in
theorem LibTree.Opens.ipv4StartNode_eq (hl : lib.Opens r n)
    (ho : Reader.Opened buffer filename limit r n) (h6 : r.metadata.ipVersion.eqInt 6) :
    lib.ipv4StartNode = r.ipv4Start := by
  rcases hl.start with ⟨k, hk⟩ | ⟨hnot, -⟩
  · obtain ⟨k', hk'⟩ := Reader.walk_ipv4Start ho.new ho.nodeCount h6
    rw [hk] at hk'
    exact (Prod.mk.inj (Except.ok.inj hk')).1
  · exact absurd h6 hnot

omit [Inhabited Entry] in
theorem LibTree.Opens.nextSkip_v4 (hl : lib.Opens r n) (hb : (r.tree n).Bounded r.bits 0)
    (h6 : ¬ r.metadata.ipVersion.eqInt 6) {path : List Bool} {mid : ℕ}
    (hr : (r.tree n).Reaches 0 path mid) : nextSkip lib n mid path = false := by
  apply decide_eq_false
  rintro ⟨hlt, heq, hhigh⟩
  rcases hl.start with ⟨k, hk⟩ | ⟨-, h0⟩
  · -- 96 zero bits end at a leaf
    rw [← heq] at hk
    have hlen := BitTrie.walk_eq_length hk hlt
    rw [hlen] at hk
    have := hb.length_lt hk hlt
    rw [Reader.treeVersion_bits, if_neg h6, List.length_replicate] at this
    omega
  · obtain rfl : mid = 0 := heq.trans h0
    refine hb.not_reaches_self (BitTrie.reaches_nil 0) hlt ?_ hr
    rintro rfl
    exact absurd hhigh (by norm_num [firstAddress])

omit [Inhabited Entry] in
theorem prefix_zeros_append {path : List Bool} (hlen : path.length ≤ 128)
    (h : firstAddress path < 2 ^ 32) :
    path <+: List.replicate 96 false ++ toBits 32 (firstAddress path) := by
  rw [← toBits_eq_zeros_append h]
  exact prefix_toBits hlen

omit [Inhabited Entry] in
/-- The two iterators leave out the same leaves, but for the places of a data record at which IPv4
lookups start. -/
theorem open_aliasSkip_iff (ho : Reader.Opened buffer filename limit r n)
    (hb : (r.tree n).Bounded r.bits 0) (hl : lib.Opens r n) {path : List Bool} {leaf : ℕ}
    (hr : (r.tree n).Reaches 0 path leaf) (hleaf : n < leaf) :
    (r.tree n).Open r.aliasSkip 0 [] path ↔
      (r.tree n).Open (nextSkip lib n) 0 [] path ∧ (leaf = r.ipv4Start → ofBits path = 0) := by
  constructor
  · intro h
    refine ⟨fun q mid hq hrq => ?_, fun heq => ?_⟩
    · by_cases h6 : r.metadata.ipVersion.eqInt 6
      · apply decide_eq_false
        rintro ⟨-, heq, hhigh⟩
        refine of_decide_eq_false (h q mid hq hrq) ⟨fun h0 => ?_, ?_⟩
        · rw [List.nil_append] at h0 hhigh
          rw [firstAddress, h0, Nat.zero_mul] at hhigh
          omega
        · rw [heq, hl.ipv4StartNode_eq ho h6]
      · exact hl.nextSkip_v4 hb h6 hrq
    · by_contra hne
      exact of_decide_eq_false (h path leaf List.prefix_rfl hr) ⟨hne, heq⟩
  · rintro ⟨h, hstart⟩ q mid hq hrq
    apply decide_eq_false
    rintro ⟨hne, heq⟩
    rw [List.nil_append] at hne
    rcases Nat.lt_or_ge mid n with hlt | hge
    · by_cases h6 : r.metadata.ipVersion.eqInt 6
      · have hlen : q.length ≤ 128 := by
          have := hb.length_le hrq
          rcases r.bits_eq with hbits | hbits <;> omega
        rcases Nat.lt_or_ge (firstAddress q) (2 ^ 32) with hlow | hhigh
        · rw [heq] at hrq hlt
          exact hne (Reader.ofBits_eq_zero_of_reaches_ipv4Start ho hb h6 hlt
            (prefix_zeros_append hlen hlow) hrq)
        · refine of_decide_eq_false (h q mid hq hrq) ⟨hlt, ?_, hhigh⟩
          rw [heq, hl.ipv4StartNode_eq ho h6]
      · have h0 : mid = 0 := heq.trans (Reader.ipv4Start_of_not_six ho h6)
        subst h0
        refine hb.not_reaches_self (BitTrie.reaches_nil 0) hlt ?_ hrq
        rintro rfl
        exact hne rfl
    · obtain ⟨rfl, rfl⟩ := hrq.eq_of_prefix hge hr hq
      exact hne (hstart heq)

theorem settles_reached (hb : (r.tree n).Bounded r.bits 0) :
    Settles (fun limit => r.reached n limit) ⟨r.iterLeaves n, none⟩ := by
  filter_upwards [Filter.eventually_gt_atTop r.bits] with limit hlimit
  rw [r.reached_eq, hb.leaves_eq_visited hlimit]
  rfl

/-- Python leaves out a data record at which IPv4 lookups start at its other places. -/
theorem not_sameLeaves (ho : Reader.Opened buffer filename limit r n)
    (hb : (r.tree n).Bounded r.bits 0) (hl : lib.Opens r n) (hgt : n < r.ipv4Start)
    {path : List Bool} (hr : (r.tree n).Reaches 0 path r.ipv4Start) (hne : ofBits path ≠ 0) :
    ¬ SameLeaves lib r n := by
  rintro ⟨leaves, curs, hleaves, hd, hiff⟩
  have heq := hleaves.unique (settles_reached hb)
  obtain rfl : leaves = r.iterLeaves n := congrArg Gen.yields heq
  obtain ⟨curs', hd', hmem⟩ := exists_drained hl hb
  obtain rfl := hd.unique hd'
  have hopen : (r.tree n).Open (nextSkip lib n) 0 [] path := by
    intro q mid hq hrq
    by_cases h6 : r.metadata.ipVersion.eqInt 6
    · apply decide_eq_false
      rintro ⟨hlt, heq, -⟩
      rw [hl.ipv4StartNode_eq ho h6] at heq
      omega
    · exact hl.nextSkip_v4 hb h6 hrq
  have hreached := (hiff _ _).mpr ((hmem _ _).mpr ⟨hr, hgt, hopen⟩)
  have halias := (hb.mem_visited.mp hreached).2.2
  exact hne (((open_aliasSkip_iff ho hb hl hr hgt).mp halias).2 rfl)

/-- **When the two iterators visit the same data records.** -/
theorem sameLeaves_iff (ho : Reader.Opened buffer filename limit r n)
    (hb : (r.tree n).Bounded r.bits 0) (hl : lib.Opens r n) :
    SameLeaves lib r n ↔
      (n < r.ipv4Start → ∀ path, (r.tree n).Reaches 0 path r.ipv4Start → ofBits path = 0) := by
  constructor
  · intro h hgt path hr
    by_contra hne
    exact not_sameLeaves ho hb hl hgt hr hne h
  · intro h
    obtain ⟨curs, hd, hmem⟩ := exists_drained hl hb
    refine ⟨r.iterLeaves n, curs, settles_reached hb, hd, fun record path => ?_⟩
    rw [hmem, Reader.iterLeaves, hb.mem_visited]
    refine and_congr_right fun hr => and_congr_right fun hgt => ?_
    rw [open_aliasSkip_iff ho hb hl hr hgt, and_iff_left]
    rintro rfl
    exact h hgt path hr

/-! libmaxminddb on the samples, whose left record is empty or the record on the right. -/

def sampleTree (shared : Bool) : LibTree ℕ where
  ipv4StartNode := Sample.record shared false
  depth := 128
  readNode _ :=
    ⟨⟨Sample.record shared false, recordType 1 (Sample.record shared false), 0⟩, ⟨17, .data, 0⟩⟩

theorem sampleTree_opens (shared : Bool) :
    (sampleTree shared).Opens (Sample.database shared).reader 1 where
  nodeCount_pos := Nat.zero_lt_one
  value := by
    intro node hn b v hc
    obtain rfl := Nat.lt_one_iff.mp hn
    rw [Sample.tree_child] at hc
    cases hc
    cases shared <;> cases b <;> rfl
  type := by
    intro node hn b v hc _
    obtain rfl := Nat.lt_one_iff.mp hn
    rw [Sample.tree_child] at hc
    cases hc
    cases shared <;> cases b <;> rfl
  start := .inl ⟨1, Sample.tree_walk shared false _⟩

theorem sample_sameLeaves : SameLeaves (sampleTree false) (Sample.database false).reader 1 := by
  obtain ⟨limit, ho⟩ := Sample.opened false
  refine (sameLeaves_iff ho (Sample.database false).wellFormed.bounded (sampleTree_opens false)).mpr ?_
  intro hgt
  rw [Sample.ipv4Start_eq] at hgt
  exact absurd hgt (by decide)

/-- One data record on both sides is reported twice by `ReaderIter_next` only. -/
theorem not_sample_sameLeaves :
    ¬ ∀ (buffer : Buffer) (filename : String) (limit n : ℕ) (r : Reader) (lib : LibTree ℕ),
      r.Opened buffer filename limit n → (r.tree n).Bounded r.bits 0 → lib.Opens r n →
        SameLeaves lib r n := by
  intro hall
  obtain ⟨limit, ho⟩ := Sample.opened true
  have hb := (Sample.database true).wellFormed.bounded
  have hstart := Sample.ipv4Start_eq true
  have hr : ((Sample.database true).reader.tree 1).Reaches 0 [true] 17 := Sample.tree_walk true true []
  refine not_sameLeaves ho hb (sampleTree_opens true) (by rw [hstart]; decide) ?_
    (show ofBits [true] ≠ 0 by decide) (hall _ _ _ _ _ _ ho hb (sampleTree_opens true))
  rw [hstart]
  exact hr

end Extension

end MaxMindDB
