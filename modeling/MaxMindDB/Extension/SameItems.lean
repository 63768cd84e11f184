import MaxMindDB.Extension.Networks
import MaxMindDB.Extension.SameAnswer

/-!
# What the two readers iterate over

`list(reader)` of the C extension over libmaxminddb, and of the reader in Python, on the same database.

`sameItems_iff`: both return, and return the same networks with the same values in the same order,
exactly when Python's iteration is complete, libmaxminddb lists each value that is come to, and a `long`
holds each `uint32` of it.
-/

namespace MaxMindDB.Extension

open Octets BitString Raising IPNetwork

/-! ## The list -/

/-- `list` of an iterator: the pairs that its calls return, up to the one that stops the iteration. A
call converts the entries of its record, and makes the network of its address. -/
inductive Lists (tree : LibTree ℕ) (lib : LibMaxMindDB ℕ (List EntryData))
    (fromEntries : List EntryData → Except PyErr PyObj) :
    List (QueuedRecord ℕ) → List (IPNetwork × PyObj) → Prop
  | stop {next rest : List (QueuedRecord ℕ)} :
      readerIterNext tree .succeeds next = (.stopIteration, rest) → Lists tree lib fromEntries next []
  | item {next rest : List (QueuedRecord ℕ)} {address : Bytes} {prefixLen : ℤ} {cur : QueuedRecord ℕ}
      {entries : List EntryData} {object : PyObj} {net : IPNetwork} {items : List (IPNetwork × PyObj)} :
      readerIterNext tree .succeeds next = (.item address prefixLen cur, rest) →
      lib.getEntryDataList cur.entry = .ok entries → fromEntries entries = .ok object →
      ipNetworkPacked address prefixLen = .ok net → Lists tree lib fromEntries rest items →
      Lists tree lib fromEntries next ((net, object) :: items)

section

variable {tree : LibTree ℕ} {path : List Bool}

/-- The first byte of the address that a network is made of. -/
def firstByte (tree : LibTree ℕ) (path : List Bool) : ℕ :=
  if tree.depth = 128 ∧ firstAddress path < 2 ^ 32 then 12 else 0

/-- How many bytes there are of it. -/
def byteCount (tree : LibTree ℕ) (path : List Bool) : ℕ :=
  if tree.depth = 128 ∧ 2 ^ 32 ≤ firstAddress path then 16 else 4

/-- The network of the leaf behind a path. -/
def networkOf (tree : LibTree ℕ) (path : List Bool) : Except Exc IPNetwork :=
  ipNetworkPacked
    (slice (packPath path) (firstByte tree path) (firstByte tree path + byteCount tree path))
    (path.length - firstByte tree path * 8)

theorem network_of_turn {calls : TurnCalls} {cur cur' : QueuedRecord ℕ}
    {next : List (QueuedRecord ℕ)} {address : Bytes} {prefixLen : ℤ} (hq : Queued tree cur path)
    (h : turn tree calls cur next = .done (.item address prefixLen cur')) :
    cur' = cur ∧ ipNetworkPacked address prefixLen = networkOf tree path := by
  have hdata : cur.type = .data := by
    rcases turn_done h with ⟨_, _, -, ht⟩ | ⟨_, heq⟩ | ⟨heq, -⟩
    · exact ht
    · cases heq
    · cases heq
  have hsix := isIpv6_packPath hq.length_le
  unfold turn at h
  unfold networkOf firstByte byteCount
  simp only [hdata, hq.ipPacked, hq.depth, hsix] at h
  by_cases hhigh : 2 ^ 32 ≤ firstAddress path
  · have hlow : ¬ firstAddress path < 2 ^ 32 := Nat.not_lt.mpr hhigh
    simp only [hhigh, hlow, decide_true, Bool.not_true, Bool.false_eq_true, and_false, and_true,
      if_false] at h ⊢
    split_ifs at h ⊢ <;> rw [Turn.done.injEq] at h <;> cases h <;> exact ⟨rfl, rfl⟩
  · have hlow : firstAddress path < 2 ^ 32 := Nat.not_le.mp hhigh
    simp only [hhigh, hlow, decide_false, Bool.not_false, Bool.false_eq_true, and_false, and_true,
      if_false] at h ⊢
    split_ifs at h ⊢ <;> rw [Turn.done.injEq] at h <;> cases h <;> exact ⟨rfl, rfl⟩

theorem network_of_next {next rest : List (QueuedRecord ℕ)} {address : Bytes} {prefixLen : ℤ}
    {cur : QueuedRecord ℕ} (hq : AllQueued tree next)
    (h : readerIterNext tree .succeeds next = (.item address prefixLen cur, rest)) :
    ipNetworkPacked address prefixLen = networkOf tree cur.path := by
  have key : ∀ (k : ℕ) (next : List (QueuedRecord ℕ)), AllQueued tree next →
      loop tree (fun _ => .succeed) k next = (.item address prefixLen cur, rest) →
        ipNetworkPacked address prefixLen = networkOf tree cur.path := by
    intro k next hq h
    induction hm : weight next using Nat.strong_induction_on generalizing k next with
    | _ m ih =>
    rcases next with _ | ⟨first, next⟩
    · rw [loop] at h
      cases h
    obtain ⟨path, hfirst⟩ := hq first List.mem_cons_self
    cases hturn : turn tree .succeed first next with
    | done outcome =>
      rw [loop_of_done hturn, Prod.mk.injEq] at h
      obtain ⟨rfl, rfl⟩ := h
      obtain ⟨rfl, hnet⟩ := network_of_turn hfirst hturn
      rw [hnet, hfirst.path_eq]
    | again next' =>
      rw [loop_of_again hturn] at h
      obtain ⟨qs, rfl, hqs, -⟩ := expand_of_again hfirst hturn
      have hall : AllQueued tree (qs ++ next) := fun q hmem =>
        (List.mem_append.mp hmem).elim (hqs q) fun hmem => hq q (List.mem_cons_of_mem _ hmem)
      exact ih _ (hm ▸ weight_of_again hturn) _ _ hall h rfl
  exact key 0 next hq h

/-- The pair that is made for a record. -/
def MadeFor (tree : LibTree ℕ) (lib : LibMaxMindDB ℕ (List EntryData))
    (fromEntries : List EntryData → Except PyErr PyObj) (cur : QueuedRecord ℕ)
    (item : IPNetwork × PyObj) : Prop :=
  networkOf tree cur.path = .ok item.1 ∧
    ∃ entries, lib.getEntryDataList cur.entry = .ok entries ∧ fromEntries entries = .ok item.2

/-- The list is the pairs that are made for the records that calls return pairs for. -/
theorem lists_iff {lib : LibMaxMindDB ℕ (List EntryData)}
    {fromEntries : List EntryData → Except PyErr PyObj} {next curs : List (QueuedRecord ℕ)}
    {items : List (IPNetwork × PyObj)} (hq : AllQueued tree next) (hd : Drains tree next curs) :
    Lists tree lib fromEntries next items ↔
      List.Forall₂ (MadeFor tree lib fromEntries) curs items := by
  induction hd generalizing items with
  | stop hs =>
    rw [List.forall₂_nil_left_iff]
    refine ⟨fun h => ?_, fun h => h ▸ .stop hs⟩
    cases h with
    | stop => rfl
    | item hi => rw [hs] at hi; cases hi
  | @item next rest curs cur address prefixLen hi _ ih =>
    have hnet := network_of_next hq hi
    obtain ⟨-, hall, -⟩ := readerIterNext_steps hq hi [] []
    have hrest : ∀ items, Lists tree lib fromEntries rest items ↔
        List.Forall₂ (MadeFor tree lib fromEntries) curs items := fun items =>
      ih fun q hmem => hall q (List.mem_append_right _ hmem)
    constructor
    · intro h
      cases h with
      | stop hs => rw [hi] at hs; cases hs
      | item hi' hentries hobject hnetwork hrest' =>
        rw [hi] at hi'
        cases hi'
        exact .cons ⟨hnet.symm.trans hnetwork, _, hentries, hobject⟩ ((hrest _).mp hrest')
    · intro h
      cases h with
      | cons hmade hrest' =>
        obtain ⟨hnetwork, entries, hentries, hobject⟩ := hmade
        exact .item hi hentries hobject (hnet.trans hnetwork) ((hrest _).mpr hrest')

end

/-! ## Networks -/

section

variable {tree : LibTree ℕ} {path : List Bool}

theorem networkOf_v4 (hdepth : tree.depth = 32) (hlen : path.length ≤ 32)
    (hlt : ofBits path * 2 ^ (32 - path.length) < 2 ^ 32)
    (hdvd : 2 ^ (32 - path.length) ∣ ofBits path * 2 ^ (32 - path.length)) :
    networkOf tree path = .ok ⟨.v4, _, path.length, hlen, hlt, hdvd⟩ := by
  have hshift : firstAddress path / 256 ^ 12 = ofBits path * 2 ^ (32 - path.length) := by
    have hsplit : 2 ^ (128 - path.length) = 2 ^ (32 - path.length) * 256 ^ 12 := by
      rw [show 128 - path.length = 32 - path.length + 96 by omega, pow_add]
      norm_num
    rw [firstAddress, hsplit, ← Nat.mul_assoc]
    exact Nat.mul_div_cancel _ (by positivity)
  have hslice : slice (packPath path) 0 (0 + 4) =
      beBytes 4 (ofBits path * 2 ^ (32 - path.length)) := by
    unfold slice packPath
    rw [List.drop_zero, ← hshift]
    exact take_beBytes 4 12 _
  unfold networkOf firstByte byteCount
  rw [hdepth, if_neg (by omega), if_neg (by omega), hslice, Nat.cast_zero, Int.zero_mul, Int.sub_zero]
  exact ipNetworkPacked_v4 hlt hlen hdvd

theorem networkOf_high (hdepth : tree.depth = 128) (hlen : path.length ≤ 128)
    (hhigh : 2 ^ 32 ≤ firstAddress path) (hdvd : 2 ^ (128 - path.length) ∣ firstAddress path) :
    networkOf tree path = .ok ⟨.v6, _, path.length, hlen, firstAddress_lt hlen, hdvd⟩ := by
  have hslice : slice (packPath path) 0 (0 + 16) = packPath path := by
    unfold slice packPath
    rw [List.drop_zero, List.take_of_length_le (by rw [length_beBytes])]
  unfold networkOf firstByte byteCount
  rw [if_neg (by omega), if_pos ⟨hdepth, hhigh⟩, hslice, Nat.cast_zero, Int.zero_mul, Int.sub_zero]
  exact ipNetworkPacked_v6 (firstAddress_lt hlen) hlen hdvd

theorem networkOf_low (hdepth : tree.depth = 128) (hlong : 96 ≤ path.length)
    (hlow : firstAddress path < 2 ^ 32) (hlen : path.length - 96 ≤ 32)
    (hdvd : 2 ^ (32 - (path.length - 96)) ∣ firstAddress path) :
    networkOf tree path = .ok ⟨.v4, _, path.length - 96, hlen, hlow, hdvd⟩ := by
  have hslice : slice (packPath path) 12 (12 + 4) = beBytes 4 (firstAddress path) := by
    unfold slice packPath
    rw [drop_beBytes 12 4, List.take_of_length_le (by rw [length_beBytes])]
  have hcast : (path.length : ℤ) - (12 : ℕ) * 8 = (path.length - 96 : ℕ) := by omega
  unfold networkOf firstByte byteCount
  rw [if_pos ⟨hdepth, hlow⟩, if_neg (by omega), hslice, hcast]
  exact ipNetworkPacked_v4 hlow hlen hdvd

theorem exists_network {r : Reader} (hdepth : tree.depth = r.bits) (hlen : path.length ≤ r.bits)
    (hren : Reader.Renderable r.bits path) :
    ∃ net, r.leafNetwork path.length (ofBits path) = .ok net ∧ networkOf tree path = .ok net := by
  have hlt := block_lt hlen
  have hdvd : 2 ^ (r.bits - path.length) ∣ ofBits path * 2 ^ (r.bits - path.length) :=
    Dvd.intro_left _ rfl
  rw [Reader.leafNetwork_eq, if_neg (Nat.not_lt.mpr hlen)]
  rcases r.bits_eq with hb | hb
  · rw [hb] at hdepth hlen hlt hdvd ⊢
    refine ⟨_, ?_, networkOf_v4 hdepth hlen hlt hdvd⟩
    rw [if_neg (by simp)]
    exact ipNetwork_v4 hlt hlen hdvd
  rw [hb] at hdepth hlen hdvd hren ⊢
  obtain ⟨hzeros, hne⟩ := hren rfl
  have hfirst : ofBits path * 2 ^ (128 - path.length) = firstAddress path := rfl
  rw [hfirst] at hdvd hne ⊢
  by_cases hhigh : 2 ^ 32 ≤ firstAddress path
  · refine ⟨_, ?_, networkOf_high hdepth hlen hhigh hdvd⟩
    rw [if_neg (by omega)]
    exact ipNetwork_v6 hhigh (firstAddress_lt hlen) hlen hdvd
  · have hlow := Nat.not_le.mp hhigh
    have hlong : 96 ≤ path.length := by
      by_contra hshort
      exact hshort (hzeros (ofBits_eq_zero_of_firstAddress_lt hlow (by omega)))
    have hcast : (path.length : ℤ) - 96 = (path.length - 96 : ℕ) := by omega
    have hdvd' : 2 ^ (32 - (path.length - 96)) ∣ firstAddress path := by
      rwa [show 32 - (path.length - 96) = 128 - path.length by omega]
    refine ⟨_, ?_, networkOf_low hdepth hlong hlow (by omega) hdvd'⟩
    rw [if_pos ⟨hlow.le, rfl⟩, hcast]
    exact ipNetwork_v4 hlow (by omega) hdvd'

end

/-! ## Leaves -/

/-- libmaxminddb has opened the database: it gives the widths of its addresses, and for a record that
points into the data section the offset there. -/
structure Iterates (tree : LibTree ℕ) (db : Parts) : Prop where
  opens : tree.Opens db.reader db.nodes.length
  depth : tree.depth = db.ipVersion.bits
  entry : ∀ node < db.nodes.length, ∀ b d, (db.reader.tree db.nodes.length).child node b =
    .ok (db.nodes.length + dataSectionSeparatorSize + d) → ((tree.readNode node).side b).entry = d

section

variable {tree : LibTree ℕ} {db : Parts}

theorem exists_stands_recordAt {r : Reader} {n w : ℕ} (hl : tree.Opens r n) (hb : (r.tree n).Bounded w 0)
    {path : List Bool} (h : ∀ p b, p ++ [b] <+: path → (tree.recordAt p).type = .searchNode) :
    ∃ node, Stands r n (tree.recordAt path) path node := by
  induction path using List.reverseRecOn with
  | nil => exact ⟨0, stands_zero hl⟩
  | append_singleton p b ih =>
    obtain ⟨node, hs⟩ := ih fun q c hq => h q c (hq.trans (List.prefix_append _ _))
    have hn := recordType_eq_searchNode.mp (hs.type.symm.trans (h p b List.prefix_rfl))
    obtain ⟨v, hc⟩ := hb.exists_child hs.reaches hn b
    refine ⟨v, ?_⟩
    rw [LibTree.recordAt, List.foldl_append]
    exact hs.child hl hb hn hc

theorem Iterates.entry_eq (h : Iterates tree db) {q : QueuedRecord ℕ} {path : List Bool}
    (hq : Queued tree q path) {d : ℕ}
    (hd : q.record = db.nodes.length + dataSectionSeparatorSize + d) : q.entry = d := by
  have hb := db.wellFormed.bounded
  have hstands := hq.stands h.opens hb
  rcases List.eq_nil_or_concat' path with rfl | ⟨p, b, rfl⟩
  · have hzero := BitTrie.reaches_nil_iff.mp hstands.reaches
    have hpos := h.opens.nodeCount_pos
    omega
  have hthrough : ∀ q c, q ++ [c] <+: p → (tree.recordAt q).type = .searchNode :=
    fun q c hqc => hq.through q c (hqc.trans (List.prefix_append _ _))
  obtain ⟨node, hp⟩ := exists_stands_recordAt h.opens hb hthrough
  have hn := recordType_eq_searchNode.mp (hp.type.symm.trans (hq.through p b List.prefix_rfl))
  obtain ⟨v, hc⟩ := hb.exists_child hp.reaches hn b
  obtain rfl := (hp.reaches_child hn hc).unique hstands.reaches
  have hnode : q.node = tree.child (tree.recordAt p) b := by
    rw [hq.node, LibTree.recordAt, List.foldl_append]
    rfl
  have hread : (tree.recordAt p).value % 2 ^ 32 = node := by
    rw [hp.value, Nat.mod_eq_of_lt hp.lt]
  have hentry : q.entry = ((tree.readNode node).side b).entry := by
    rw [← hread]
    exact congrArg NodeRecord.entry hnode
  rw [hentry]
  rw [hd] at hc
  exact h.entry node hn b d hc

/-- The leaf that a record is queued for, as Python lists it. -/
def treeLeaf (cur : QueuedRecord ℕ) : ℕ × List Bool := (cur.record, cur.path)

/-- The leaves that `ReaderIter_next` comes to. -/
def nextLeaves (tree : LibTree ℕ) (r : Reader) (n : ℕ) : List (ℕ × List Bool) :=
  (r.tree n).visited (nextSkip tree n) .recursionError 128

theorem eq_of_map_snd {r : Reader} {n : ℕ} {xs ys : List (ℕ × List Bool)}
    (hx : ∀ x ∈ xs, (r.tree n).Reaches 0 x.2 x.1) (hy : ∀ y ∈ ys, (r.tree n).Reaches 0 y.2 y.1)
    (h : xs.map Prod.snd = ys.map Prod.snd) : xs = ys := by
  induction xs generalizing ys with
  | nil => exact (List.map_eq_nil_iff.mp h.symm).symm
  | cons x xs ih =>
    cases ys with
    | nil => cases h
    | cons y ys =>
      rw [List.map_cons, List.map_cons, List.cons.injEq] at h
      have hfirst := hx x List.mem_cons_self
      rw [h.1] at hfirst
      have hxy : x = y := Prod.ext (hfirst.unique (hy y List.mem_cons_self)) h.1
      rw [hxy, ih (fun z hz => hx z (List.mem_cons_of_mem _ hz))
        (fun z hz => hy z (List.mem_cons_of_mem _ hz)) h.2]

theorem exists_drains_leaves {r : Reader} {n : ℕ} (hl : tree.Opens r n)
    (hb : (r.tree n).Bounded r.bits 0) :
    AllQueued tree [QueuedRecord.zero] ∧ ∃ curs, Drains tree [QueuedRecord.zero] curs ∧
      AllQueued tree curs ∧ curs.map treeLeaf = nextLeaves tree r n := by
  have hbits : r.bits ≤ 128 := by
    rcases r.bits_eq with h | h <;> omega
  have hb128 := hb.mono hbits
  have hdepth := (stands_zero hl).depthAtMost hl hb hb128
  have hzero := (run_steps hdepth []).1
  obtain ⟨curs, hd, hmap, hq, -⟩ := exists_drains (handleable hl hb) hzero
  refine ⟨hzero, curs, hd, hq, eq_of_map_snd (r := r) (n := n) ?_ ?_ ?_⟩
  · intro x hx
    obtain ⟨cur, hcur, rfl⟩ := List.mem_map.mp hx
    obtain ⟨path, hpath⟩ := hq cur hcur
    have hreaches := (hpath.stands hl hb).reaches
    rwa [← hpath.path_eq] at hreaches
  · rintro ⟨leaf, path⟩ hx
    exact (hb128.mem_visited.mp hx).1
  · refine Eq.trans ?_ ((stands_zero hl).leaves_eq hl hb hb128 .recursionError)
    refine Eq.trans ?_ (congrArg (List.map Prod.fst) (hmap.trans (List.flatMap_singleton _ _)))
    rw [List.map_map, List.map_map]
    rfl

/-! ## The two orders -/

variable {buffer : Buffer} {filename : String} {limit n : ℕ} {r : Reader}

/-- `ReaderIter_next` comes to the leaves that Python comes to, and to the other places of a data
record at which IPv4 lookups start. -/
theorem mem_iterLeaves_iff (ho : Reader.Opened buffer filename limit r n)
    (hb : (r.tree n).Bounded r.bits 0) (hl : tree.Opens r n) {leaf : ℕ} {path : List Bool} :
    (leaf, path) ∈ r.iterLeaves n ↔
      (leaf, path) ∈ nextLeaves tree r n ∧ (leaf = r.ipv4Start → ofBits path = 0) := by
  have hbits : r.bits ≤ 128 := by
    rcases r.bits_eq with h | h <;> omega
  unfold nextLeaves Reader.iterLeaves
  rw [hb.mem_visited, (hb.mono hbits).mem_visited, and_assoc, and_assoc]
  exact and_congr_right fun hr => and_congr_right fun hgt => open_aliasSkip_iff ho hb hl hr hgt

theorem eq_of_before {xs ys : List (ℕ × List Bool)} (hx : xs.Pairwise fun x y => Before x.2 y.2)
    (hy : ys.Pairwise fun x y => Before x.2 y.2) (h : xs.Perm ys) : xs = ys :=
  List.Perm.eq_of_pairwise (fun _ _ _ _ hab hba => absurd hba hab.asymm) hx hy h

theorem nodup_of_before {xs : List (ℕ × List Bool)} (h : xs.Pairwise fun x y => Before x.2 y.2) :
    xs.Nodup := by
  refine List.Pairwise.imp (fun {x y} hxy => ?_) h
  rintro rfl
  exact Before.irrefl _ hxy

/-- The readers come to as many leaves only where they come to the same. -/
theorem leaves_eq_of_length (ho : Reader.Opened buffer filename limit r n)
    (hb : (r.tree n).Bounded r.bits 0) (hl : tree.Opens r n)
    (h : (nextLeaves tree r n).length ≤ (r.iterLeaves n).length) :
    r.iterLeaves n = nextLeaves tree r n := by
  have hiter : (r.iterLeaves n).Pairwise fun x y => Before x.2 y.2 := BitTrie.leaves_before _ _ _ _ _ _
  have hnext : (nextLeaves tree r n).Pairwise fun x y => Before x.2 y.2 :=
    BitTrie.leaves_before _ _ _ _ _ _
  have hsub : r.iterLeaves n ⊆ nextLeaves tree r n := fun x hx =>
    ((mem_iterLeaves_iff ho hb hl).mp hx).1
  exact eq_of_before hiter hnext ((List.subperm_of_subset (nodup_of_before hiter) hsub).perm_of_length_le h)

end

/-! ## When the lists are the same -/

/-- Both lists are made, and are one. -/
def SameItems (tree : LibTree ℕ) (lib : LibMaxMindDB ℕ (List EntryData))
    (fromEntries : List EntryData → Except PyErr PyObj) (r : Reader) : Prop :=
  ∃ items, Lists tree lib fromEntries [QueuedRecord.zero] items ∧
    Settles (fun limit => r.iter limit) ⟨items.map fun item => (item.1, item.2.record), none⟩

section

variable {db : Parts} {tree : LibTree ℕ} {lib : LibMaxMindDB ℕ (List EntryData)} {value : ℕ → DataTree}
  {long : CLong} {fromEntries : List EntryData → Except PyErr PyObj} {path : List Bool} {leaf : ℕ}

theorem exists_encodes (hr : (db.reader.tree db.nodes.length).Reaches 0 path leaf)
    (hl : db.nodes.length < leaf) :
    ∃ d v e, leaf = db.nodes.length + dataSectionSeparatorSize + d ∧ Encodes db.data 0 d v e := by
  unfold BitTrie.Reaches at hr
  rw [db.tree_walk] at hr
  obtain ⟨v, ⟨rfl, -⟩ | ⟨d, v', e, rfl, henc, -⟩⟩ := db.holds_of_walk hr (Nat.le_of_lt hl)
  · exact absurd hl (lt_irrefl _)
  · exact ⟨d, v', e, rfl, henc⟩

theorem madeFor_iff (hs : Serves lib db value) (hmakes : ∀ d, Makes long fromEntries (value d))
    (hi : Iterates tree db) {cur : QueuedRecord ℕ} (hq : Queued tree cur path) {d e : ℕ} {v : Record}
    (hd : cur.record = db.nodes.length + dataSectionSeparatorSize + d) (henc : Encodes db.data 0 d v e)
    {item : IPNetwork × PyObj} :
    MadeFor tree lib fromEntries cur item ↔
      networkOf tree path = .ok item.1 ∧ ListedAt lib d ∧
        (value d).objectWith long.ofUint32 = item.2 := by
  unfold MadeFor
  rw [hq.path_eq, hi.entry_eq hq hd]
  refine and_congr_right fun _ => ?_
  constructor
  · rintro ⟨entries, hentries, hobject⟩
    have hlisted : ListedAt lib d := ⟨entries, hentries⟩
    rw [(hs.entries d v e henc hlisted).1] at hentries
    obtain rfl := Except.ok.inj hentries
    exact ⟨hlisted, Except.ok.inj ((fromEntries_flatten (hmakes d)).symm.trans hobject)⟩
  · rintro ⟨hlisted, hobject⟩
    exact ⟨_, (hs.entries d v e henc hlisted).1,
      (fromEntries_flatten (hmakes d)).trans (congrArg Except.ok hobject)⟩

theorem settles_emitNetwork {d e : ℕ} {v : Record} {net : IPNetwork}
    (hleaf : leaf = db.nodes.length + dataSectionSeparatorSize + d) (henc : Encodes db.data 0 d v e)
    (hnet : db.reader.leafNetwork path.length (ofBits path) = .ok net) :
    Settles (fun limit => db.reader.emitNetwork limit leaf path.length (ofBits path)) (.ok (net, v)) := by
  subst hleaf
  filter_upwards [db.resolve_settles henc] with limit hlimit
  exact Reader.emitNetwork_eq_ok.mpr ⟨hnet, hlimit⟩

theorem exists_item (hs : Serves lib db value) (hmakes : ∀ d, Makes long fromEntries (value d))
    (hi : Iterates tree db) {cur : QueuedRecord ℕ} (hq : Queued tree cur path)
    (hr : (db.reader.tree db.nodes.length).Reaches 0 path cur.record)
    (hl : db.nodes.length < cur.record) (hren : Reader.Renderable db.reader.bits path)
    (hfits : ∀ d, cur.record = db.nodes.length + dataSectionSeparatorSize + d →
      ListedAt lib d ∧ (value d).Fits long) :
    ∃ item, MadeFor tree lib fromEntries cur item ∧
      Settles (fun limit => db.reader.emitNetwork limit cur.record path.length (ofBits path))
        (.ok (item.1, item.2.record)) := by
  obtain ⟨d, v, e, hd, henc⟩ := exists_encodes hr hl
  have hdepth : tree.depth = db.reader.bits := hi.depth.trans (reader_bits db).symm
  obtain ⟨net, hpython, hextension⟩ :=
    exists_network hdepth (db.wellFormed.bounded.length_le hr) hren
  obtain ⟨hlisted, hlong⟩ := hfits d hd
  refine ⟨(net, (value d).objectWith long.ofUint32), ?_, ?_⟩
  · exact (madeFor_iff hs hmakes hi hq hd henc).mpr ⟨hextension, hlisted, rfl⟩
  · have hrecord : ((value d).objectWith long.ofUint32).record = v :=
      ((record_objectWith_iff (value d)).mpr hlong).trans (hs.entries d v e henc hlisted).2
    rw [hrecord]
    exact settles_emitNetwork hd henc hpython

theorem fits_of_item (hs : Serves lib db value) (hmakes : ∀ d, Makes long fromEntries (value d))
    (hi : Iterates tree db) {cur : QueuedRecord ℕ} (hq : Queued tree cur path)
    (hr : (db.reader.tree db.nodes.length).Reaches 0 path cur.record)
    (hl : db.nodes.length < cur.record) {item : IPNetwork × PyObj}
    (hmade : MadeFor tree lib fromEntries cur item)
    (hemit : Settles (fun limit => db.reader.emitNetwork limit cur.record path.length (ofBits path))
      (.ok (item.1, item.2.record)))
    {d : ℕ} (hd : cur.record = db.nodes.length + dataSectionSeparatorSize + d) :
    ListedAt lib d ∧ (value d).Fits long := by
  obtain ⟨d', v, e, hd', henc⟩ := exists_encodes hr hl
  obtain rfl : d = d' := Nat.add_left_cancel (hd.symm.trans hd')
  obtain ⟨-, hlisted, hobject⟩ := (madeFor_iff hs hmakes hi hq hd henc).mp hmade
  obtain ⟨limit, hlimit⟩ := hemit.exists
  have hnet := (Reader.emitNetwork_eq_ok.mp hlimit).1
  have hrecord := hemit.unique (settles_emitNetwork hd henc hnet)
  rw [Except.ok.injEq, Prod.mk.injEq] at hrecord
  refine ⟨hlisted, (record_objectWith_iff (value d)).mp ?_⟩
  rw [hobject, hrecord.2, (hs.entries d v e henc hlisted).2]

theorem exists_forall₂ {α β : Type*} {R : α → β → Prop} {as : List α} (h : ∀ a ∈ as, ∃ b, R a b) :
    ∃ bs, List.Forall₂ R as bs := by
  induction as with
  | nil => exact ⟨[], .nil⟩
  | cons a as ih =>
    obtain ⟨b, hb⟩ := h a List.mem_cons_self
    obtain ⟨bs, hbs⟩ := ih fun a' ha' => h a' (List.mem_cons_of_mem _ ha')
    exact ⟨b :: bs, .cons hb hbs⟩

/-- Where the two readers return one list, they have come to the same leaves. -/
theorem leaves_eq_of_sameItems {buffer : Buffer} {filename : String} {limit : ℕ}
    (ho : Reader.Opened buffer filename limit db.reader db.nodes.length) (hi : Iterates tree db)
    {curs : List (QueuedRecord ℕ)} {items : List (IPNetwork × PyObj)}
    (hcurs : curs.map treeLeaf = nextLeaves tree db.reader db.nodes.length)
    (hmade : List.Forall₂ (MadeFor tree lib fromEntries) curs items)
    (hiter : Settles (fun limit => db.reader.iter limit)
      ⟨items.map fun item => (item.1, item.2.record), none⟩) :
    db.reader.iterLeaves db.nodes.length = curs.map treeLeaf ∧ ∀ᶠ limit in Filter.atTop,
      List.Forall₂ (fun cur item => db.reader.emitNetwork limit cur.record cur.path.length
        (ofBits cur.path) = .ok (item.1, item.2.record)) curs items := by
  have hpython : ∀ᶠ limit in Filter.atTop, List.Forall₂
      (fun x item => db.reader.emitNetwork limit x.1 x.2.length (ofBits x.2) =
        .ok (item.1, PyObj.record item.2)) (db.reader.iterLeaves db.nodes.length) items := by
    filter_upwards [hiter, Filter.eventually_gt_atTop db.reader.bits] with limit hlimit hgt
    rw [Reader.iter_eq_mapM db.reader_hasNodeCount db.wellFormed hgt] at hlimit
    have hall := Gen.mapM_yields_of_none (congrArg Gen.raised hlimit)
    rw [congrArg Gen.yields hlimit] at hall
    simpa only [List.forall₂_map_right_iff] using hall
  obtain ⟨limit, hlimit⟩ := hpython.exists
  have hlength : (nextLeaves tree db.reader db.nodes.length).length ≤
      (db.reader.iterLeaves db.nodes.length).length := by
    rw [← hcurs, List.length_map, hmade.length_eq, hlimit.length_eq]
  have heq := leaves_eq_of_length ho db.wellFormed.bounded hi.opens hlength
  rw [← hcurs] at heq
  refine ⟨heq, hpython.mono fun limit hall => ?_⟩
  rw [heq] at hall
  exact List.forall₂_map_left_iff.mp hall

theorem iterable_of_sameItems {buffer : Buffer} {filename : String} {limit : ℕ}
    (ho : Reader.Opened buffer filename limit db.reader db.nodes.length) (hi : Iterates tree db)
    {curs : List (QueuedRecord ℕ)} {items : List (IPNetwork × Record)}
    (hd : Drains tree [QueuedRecord.zero] curs) (hq : AllQueued tree curs)
    (heq : db.reader.iterLeaves db.nodes.length = curs.map treeLeaf)
    (hiter : Settles (fun limit => db.reader.iter limit) ⟨items, none⟩) :
    db.reader.Iterable db.nodes.length where
  renderable := fun path leaf hr hl hh =>
    Reader.renderable_of_settles db.reader_hasNodeCount db.wellFormed hiter hr hl hh
  start := by
    intro hgt path hr
    by_contra hne
    refine not_sameLeaves ho db.wellFormed.bounded hi.opens hgt hr hne
      ⟨_, curs, settles_reached db.wellFormed.bounded, hd, fun record path => ?_⟩
    rw [heq, List.mem_map]
    constructor
    · rintro ⟨cur, hcur, hleaf⟩
      obtain ⟨rfl, rfl⟩ := Prod.mk.inj hleaf
      obtain ⟨path, hpath⟩ := hq cur hcur
      exact ⟨cur, hcur, rfl, by rw [hpath.path_eq, hpath.depth], rfl⟩
    · rintro ⟨cur, hcur, rfl, -, rfl⟩
      exact ⟨cur, hcur, rfl⟩

/-- Where no other place leads to the start of the IPv4 addresses, the leaves are the same. -/
theorem leaves_eq_of_start {buffer : Buffer} {filename : String} {limit : ℕ}
    (ho : Reader.Opened buffer filename limit db.reader db.nodes.length) (hi : Iterates tree db)
    (hstart : db.nodes.length < db.reader.ipv4Start → ∀ path,
      (db.reader.tree db.nodes.length).Reaches 0 path db.reader.ipv4Start → ofBits path = 0) :
    db.reader.iterLeaves db.nodes.length = nextLeaves tree db.reader db.nodes.length := by
  have hb := db.wellFormed.bounded
  have hbits : db.reader.bits ≤ 128 := by
    rcases db.reader.bits_eq with h | h <;> omega
  refine leaves_eq_of_length ho hb hi.opens (List.Subperm.length_le (List.subperm_of_subset ?_ ?_))
  · exact nodup_of_before (BitTrie.leaves_before _ _ _ _ _ _)
  · rintro ⟨leaf, path⟩ hx
    obtain ⟨hr, hgt, -⟩ := (hb.mono hbits).mem_visited.mp hx
    exact (mem_iterLeaves_iff ho hb hi.opens).mpr ⟨hx, fun h => hstart (h ▸ hgt) path (h ▸ hr)⟩

end

/-- **When the two readers return one list.** -/
theorem sameItems_iff (db : Database) {tree : LibTree ℕ} {lib : LibMaxMindDB ℕ (List EntryData)}
    {value : ℕ → DataTree} {long : CLong} {fromEntries : List EntryData → Except PyErr PyObj}
    (hs : Serves lib db.toParts value) (hi : Iterates tree db.toParts)
    (hmakes : ∀ d, Makes long fromEntries (value d)) :
    SameItems tree lib fromEntries db.reader ↔
      db.reader.Iterable db.nodes.length ∧ ∀ d path, (db.reader.tree db.nodes.length).Reaches 0 path
        (db.nodes.length + dataSectionSeparatorSize + d) →
          ¬ db.reader.Hidden db.nodes.length path → ListedAt lib d ∧ (value d).Fits long := by
  obtain ⟨limit₀, hnew⟩ := (db.opens "").exists
  have ho : Reader.Opened (.ofBytes db.file) "" limit₀ db.reader db.nodes.length :=
    ⟨hnew, db.reader_hasNodeCount⟩
  have hw := db.toParts.wellFormed
  obtain ⟨hzero, curs, hd, hq, hcurs⟩ := exists_drains_leaves hi.opens hw.bounded
  constructor
  · rintro ⟨items, hlists, hiter⟩
    have hmade := (lists_iff hzero hd).mp hlists
    obtain ⟨heq, hemit⟩ := leaves_eq_of_sameItems ho hi hcurs hmade hiter
    refine ⟨iterable_of_sameItems ho hi hd hq heq hiter, fun d path hr hh => ?_⟩
    have hgt : db.nodes.length < db.nodes.length + dataSectionSeparatorSize + d := by
      have hpos : dataSectionSeparatorSize = 16 := rfl
      omega
    have hmem := (Reader.mem_iterLeaves hw).mpr ⟨hr, hgt, hh⟩
    rw [heq] at hmem
    obtain ⟨cur, hcur, hleaf⟩ := List.mem_map.mp hmem
    obtain ⟨hrecord, rfl⟩ := Prod.mk.inj hleaf
    obtain ⟨path, hpath⟩ := hq cur hcur
    rw [← hrecord] at hr hgt
    obtain ⟨i, hi', rfl⟩ := List.getElem_of_mem hcur
    have hitem : i < items.length := hmade.length_eq ▸ hi'
    have hpair : MadeFor tree lib fromEntries curs[i] items[i] :=
      (List.forall₂_iff_get.mp hmade).2 i hi' hitem
    have hsettles : Settles (fun limit => db.reader.emitNetwork limit curs[i].record
        curs[i].path.length (ofBits curs[i].path)) (.ok (items[i].1, items[i].2.record)) :=
      hemit.mono fun limit hall => (List.forall₂_iff_get.mp hall).2 i hi' hitem
    rw [← hpath.path_eq] at hpath
    exact fits_of_item hs hmakes hi hpath hr hgt hpair hsettles hrecord
  · rintro ⟨hiterable, hfits⟩
    have heq := (leaves_eq_of_start ho hi hiterable.start).trans hcurs.symm
    have hitems : ∀ cur ∈ curs, ∃ item, MadeFor tree lib fromEntries cur item ∧
        Settles (fun limit => db.reader.emitNetwork limit cur.record cur.path.length
          (ofBits cur.path)) (.ok (item.1, item.2.record)) := by
      intro cur hcur
      have hmem : treeLeaf cur ∈ db.reader.iterLeaves db.nodes.length := by
        rw [heq]
        exact List.mem_map_of_mem hcur
      obtain ⟨hr, hgt, hh⟩ := (Reader.mem_iterLeaves hw).mp hmem
      obtain ⟨path, hpath⟩ := hq cur hcur
      rw [← hpath.path_eq] at hpath
      exact exists_item hs hmakes hi hpath hr hgt (hiterable.renderable _ _ hr hgt hh)
        fun d hrecord => hfits d cur.path (hrecord ▸ hr) hh
    obtain ⟨items, hall⟩ := exists_forall₂ hitems
    refine ⟨items, (lists_iff hzero hd).mpr (hall.imp fun _ _ h => h.1), ?_⟩
    have hemit : List.Forall₂ (fun x y => Settles (fun limit => db.reader.emitNetwork limit x.1
        x.2.length (ofBits x.2)) (.ok y)) (curs.map treeLeaf)
          (items.map fun item => (item.1, item.2.record)) := by
      rw [List.forall₂_map_left_iff, List.forall₂_map_right_iff]
      exact hall.imp fun _ _ h => h.2
    filter_upwards [settles_mapM_of_forall₂ hemit, Filter.eventually_gt_atTop db.reader.bits]
      with limit hlimit hgt
    rw [Reader.iter_eq_mapM db.reader_hasNodeCount hw hgt, heq]
    exact hlimit

/-! The sample whose left record is empty. -/

theorem sampleTree_iterates : Iterates (sampleTree false) (Sample.database false).toParts where
  opens := sampleTree_opens false
  depth := rfl
  entry := by
    intro node hn b d hc
    have hcount : (Sample.database false).nodes.length = 1 := rfl
    rw [hcount] at hn hc
    obtain rfl := Nat.lt_one_iff.mp hn
    rw [Sample.tree_child] at hc
    have hd := Except.ok.inj hc
    have hsixteen : dataSectionSeparatorSize = 16 := rfl
    unfold Sample.record at hd
    have hzero : d = 0 := by split_ifs at hd <;> omega
    rw [hzero]
    cases b <;> rfl

theorem sample_sameItems : SameItems (sampleTree false) sampleLookups (fun _ => .ok (.str "a"))
    (Sample.database false).reader := by
  refine (sameItems_iff (Sample.database false) sampleLookups_serves sampleTree_iterates
    fun _ => makes_objectWith .bits32 _).mpr ⟨⟨?_, ?_⟩, fun _ _ _ _ => ⟨⟨_, rfl⟩, trivial⟩⟩
  · intro path leaf hr hl _
    obtain ⟨b, rfl, rfl⟩ := Sample.reaches_eq hr hl
    rw [Sample.bits_eq]
    cases b with
    | false => exact absurd hl (by decide)
    | true => decide
  · intro hl
    rw [Sample.ipv4Start_eq] at hl
    exact absurd hl (by decide)

end MaxMindDB.Extension
