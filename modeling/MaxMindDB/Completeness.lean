import MaxMindDB.Iteration

/-!
# Completeness of iteration

On a well-formed database (no path of the search tree is longer than an address, and every record
that occurs in it is decodable) iteration should run to its end and yield one network for each
address that has a record, but for the addresses below a repeated occurrence of the IPv4 subtree.

`iterComplete_iff`: it does exactly when the leaves that it comes to are renderable and the record at
which IPv4 lookups start, if it is a data record, stands at no other place. The counterexample has
its record for `::/1`.
-/

namespace MaxMindDB

open BitString Raising

/-- The network covers an address in the address space of the database: the addresses below
`::/96` are those of IPv4. -/
def IPNetwork.Covers (net : IPNetwork) (a : IPAddress) : Prop :=
  (a.version = .v4 → net.version = .v4) ∧ net.networkAddress ≤ a.ip ∧ a.ip ≤ net.lastAddress

instance (net : IPNetwork) (a : IPAddress) : Decidable (net.Covers a) :=
  inferInstanceAs (Decidable ((_ → _) ∧ _ ∧ _))

namespace Reader

/-- The database behind a reader is well-formed. -/
structure WellFormed (r : Reader) (n : ℕ) : Prop where
  bounded : (r.tree n).Bounded r.bits 0
  decodable : ∀ path leaf, (r.tree n).Reaches 0 path leaf → n < leaf →
    ∃ v, Settles (fun limit => r.resolveDataPointer limit leaf) (.ok v)

/-- The address lies below an occurrence of the IPv4 subtree other than `::/96`. -/
def Aliased (r : Reader) (n : ℕ) (a : IPAddress) : Prop :=
  a.version = .v6 ∧ r.ipv4Start < n ∧
    ∃ q, q <+: a.toBits ∧ q ≠ List.replicate 96 false ∧ (r.tree n).Reaches 0 q r.ipv4Start

/-- Iteration runs to its end, and of the networks it has yielded then, exactly one covers each
address that has a record and is not aliased. -/
def IterComplete (r : Reader) (n : ℕ) : Prop :=
  ∃ items, Settles (fun limit => r.iter limit) ⟨items, none⟩ ∧
    ∀ a : IPAddress, a.version.bits ≤ r.bits → ¬ r.Aliased n a →
      (∃ v p, Settles (fun limit => r.getWithPrefixLen limit a) (.ok (some v, p))) →
        items.countP (fun item => item.1.Covers a) = 1

/-- The path leads to, or through, a value that iteration skips. -/
def Hidden (r : Reader) (n : ℕ) (path : List Bool) : Prop :=
  ∃ q, q <+: path ∧ ofBits q ≠ 0 ∧ (r.tree n).Reaches 0 q r.ipv4Start

/-- When iteration is complete: the data records that it comes to are renderable, and the start of
the IPv4 addresses, if it is a data record, stands behind zeros only. -/
structure Iterable (r : Reader) (n : ℕ) : Prop where
  renderable : ∀ path leaf, (r.tree n).Reaches 0 path leaf → n < leaf → ¬ r.Hidden n path →
    Renderable r.bits path
  start : n < r.ipv4Start → ∀ path, (r.tree n).Reaches 0 path r.ipv4Start → ofBits path = 0

variable {r : Reader} {n : ℕ} {buffer : Buffer} {filename : String} {limit₀ : ℕ}

theorem open_iff_not_hidden {path : List Bool} :
    (r.tree n).Open r.aliasSkip 0 [] path ↔ ¬ r.Hidden n path := by
  unfold BitTrie.Open Hidden aliasSkip
  constructor
  · rintro h ⟨q, hq, hne, hr⟩
    have := h q _ hq hr
    rw [decide_eq_false_iff_not] at this
    exact this ⟨hne, rfl⟩
  · intro h q mid hq hr
    rw [decide_eq_false_iff_not]
    rintro ⟨hne, rfl⟩
    exact h ⟨q, hq, hne, hr⟩

/-- The leaves that iteration comes to. -/
def iterLeaves (r : Reader) (n : ℕ) : List (ℕ × List Bool) :=
  (r.tree n).visited r.aliasSkip .recursionError r.bits

theorem mem_iterLeaves (hw : r.WellFormed n) {leaf : ℕ} {path : List Bool} :
    (leaf, path) ∈ r.iterLeaves n ↔
      (r.tree n).Reaches 0 path leaf ∧ n < leaf ∧ ¬ r.Hidden n path := by
  rw [iterLeaves, hw.bounded.mem_visited, open_iff_not_hidden, tree_count]

theorem iter_eq_mapM (hn : r.HasNodeCount n) (hw : r.WellFormed n) {limit : ℕ}
    (hl : r.bits < limit) :
    r.iter limit = Gen.mapM (fun x => r.emitNetwork limit x.1 x.2.length (ofBits x.2))
      ⟨r.iterLeaves n, none⟩ := by
  rw [iter_eq hn, hw.bounded.leaves_eq_visited hl]
  rfl

theorem exists_leaf_of_mem (hn : r.HasNodeCount n) (hw : r.WellFormed n) {limit : ℕ}
    (hl : r.bits < limit) {x : IPNetwork × Record} (hx : x ∈ (r.iter limit).yields) :
    ∃ leaf path, (leaf, path) ∈ r.iterLeaves n ∧ Renders r.bits x.1 path := by
  rw [iter_eq_mapM hn hw hl] at hx
  obtain ⟨⟨leaf, path⟩, hmem, hemit⟩ := Gen.mem_mapM hx
  exact ⟨leaf, path, hmem, renders_of_leafNetwork (emitNetwork_eq_ok.mp hemit).1⟩

/-! ## What completeness takes -/

theorem settles_limit {items : List (IPNetwork × Record)}
    (h : Settles (fun limit => r.iter limit) ⟨items, none⟩) :
    ∃ limit, r.bits < limit ∧ r.iter limit = ⟨items, none⟩ :=
  ((Filter.eventually_gt_atTop r.bits).and h).exists

theorem renderable_of_settles (hn : r.HasNodeCount n) (hw : r.WellFormed n)
    {items : List (IPNetwork × Record)} (h : Settles (fun limit => r.iter limit) ⟨items, none⟩)
    {path : List Bool} {leaf : ℕ} (hr : (r.tree n).Reaches 0 path leaf) (hl : n < leaf)
    (hh : ¬ r.Hidden n path) : Renderable r.bits path := by
  obtain ⟨limit, hlimit, hiter⟩ := settles_limit h
  rw [iter_eq_mapM hn hw hlimit] at hiter
  have hnone := congrArg Gen.raised hiter
  obtain ⟨x, hx⟩ := (Gen.mapM_raised_none.mp hnone).2 _ ((mem_iterLeaves hw).mpr ⟨hr, hl, hh⟩)
  have hnet := (emitNetwork_eq_ok.mp hx).1
  have hspec := r.leafNetwork_spec path
  by_contra hren
  rw [if_neg (fun h => hren h.2), hnet] at hspec
  cases hspec

theorem exists_address {path : List Bool} (h : path.length ≤ r.bits) :
    ∃ a : IPAddress, a.version = r.treeVersion ∧ path <+: toBits r.bits a.ip := by
  have hlt := block_lt h
  refine ⟨⟨r.treeVersion, ofBits path * 2 ^ (r.bits - path.length), hlt⟩, rfl, ?_⟩
  rw [prefix_toBits_iff h hlt]
  exact Nat.mul_div_cancel _ (by positivity)

theorem Opened.settles_of_reaches (ho : Opened buffer filename limit₀ r n) {a : IPAddress}
    (ha : a.version.bits ≤ r.bits) {path : List Bool} {leaf : ℕ}
    (hr : (r.tree n).Reaches 0 path leaf) (hl : n < leaf) (hp : path <+: toBits r.bits a.ip)
    {v : Record} (hv : Settles (fun limit => r.resolveDataPointer limit leaf) (.ok v)) :
    ∃ p, Settles (fun limit => r.getWithPrefixLen limit a) (.ok (some v, p)) := by
  refine ⟨path.length - (r.bits - a.version.bits), ?_⟩
  filter_upwards [hv] with limit hlimit
  rw [ho.getWithPrefixLen_eq ha, hr.walk (Nat.le_of_lt hl) hp]
  simp only [Except.ok_bind, answer]
  rw [if_neg (by omega), if_neg (by omega), hlimit]
  rfl

theorem Opened.exists_leaf (ho : Opened buffer filename limit₀ r n) {a : IPAddress}
    (ha : a.version.bits ≤ r.bits) {limit p : ℕ} {v : Record}
    (h : r.getWithPrefixLen limit a = .ok (some v, p)) :
    ∃ path leaf, (r.tree n).Reaches 0 path leaf ∧ n < leaf ∧ path <+: toBits r.bits a.ip := by
  rw [ho.getWithPrefixLen_eq ha] at h
  cases hw : (r.tree n).walk (toBits r.bits a.ip) 0 with
  | error e => rw [hw] at h; cases h
  | ok x =>
    obtain ⟨leaf, k⟩ := x
    refine ⟨_, leaf, BitTrie.reaches_of_walk hw, ?_, List.take_prefix _ _⟩
    rw [hw, Except.ok_bind] at h
    simp only [answer] at h
    split_ifs at h with hlt heq
    · cases h
    · cases h
    · omega

/-- A data record at which IPv4 lookups start stands behind zeros only: its other places would be
skipped. -/
theorem start_of_complete (ho : Opened buffer filename limit₀ r n) (hw : r.WellFormed n)
    (h : r.IterComplete n) (hl : n < r.ipv4Start) {path : List Bool}
    (hr : (r.tree n).Reaches 0 path r.ipv4Start) : ofBits path = 0 := by
  obtain ⟨items, hiter, hcover⟩ := h
  obtain ⟨limit, hlimit, hitems⟩ := settles_limit hiter
  by_contra hne
  obtain ⟨a, ha, hpath⟩ := exists_address (hw.bounded.length_le hr)
  have hbits : a.version.bits ≤ r.bits := by rw [ha]; exact le_rfl
  obtain ⟨v, hv⟩ := hw.decodable path _ hr hl
  obtain ⟨p, hget⟩ := ho.settles_of_reaches hbits hr hl hpath hv
  have hone := hcover a hbits (fun h => by have := h.2.1; omega) ⟨v, p, hget⟩
  obtain ⟨x, hx, hcov⟩ := List.countP_pos_iff.mp (by rw [hone]; exact Nat.one_pos)
  have hmem : x ∈ (r.iter limit).yields := by rw [hitems]; exact hx
  obtain ⟨leaf, path', hleaf, hrender⟩ := exists_leaf_of_mem ho.nodeCount hw hlimit hmem
  obtain ⟨hr', hl', hhidden⟩ := (mem_iterLeaves hw).mp hleaf
  have hcovers : x.1.Covers a := of_decide_eq_true hcov
  have hip : a.ip < 2 ^ r.bits :=
    lt_of_lt_of_le a.ip_lt (Nat.pow_le_pow_right (by norm_num) hbits)
  have hpath' := (hrender.prefix_iff hip).mpr hcovers.2
  have heq : path = path' := by
    rcases List.prefix_or_prefix_of_prefix hpath hpath' with hp | hp
    · exact (hr.eq_of_prefix (Nat.le_of_lt hl) hr' hp).1
    · exact (hr'.eq_of_prefix (Nat.le_of_lt hl') hr hp).1.symm
  exact hhidden ⟨path, heq ▸ List.prefix_rfl, hne, hr⟩

/-! ## What it needs -/

theorem ipv4Start_of_not_six (ho : Opened buffer filename limit₀ r n)
    (h6 : ¬ r.metadata.ipVersion.eqInt 6) : r.ipv4Start = 0 := by
  obtain ⟨start, -, hl⟩ := load_of_new ho.new
  have h := (load_cases hl).2.2
  rwa [if_neg h6] at h

theorem reaches_ipv4Start (ho : Opened buffer filename limit₀ r n)
    (h6 : r.metadata.ipVersion.eqInt 6) (hlt : r.ipv4Start < n) :
    (r.tree n).Reaches 0 (List.replicate 96 false) r.ipv4Start := by
  obtain ⟨k, hk⟩ := walk_ipv4Start ho.new ho.nodeCount h6
  unfold BitTrie.Reaches
  rw [hk, BitTrie.walk_eq_length hk hlt]

/-- The IPv4 subtree does not occur again below `::/96`. -/
theorem ofBits_eq_zero_of_reaches_ipv4Start (ho : Opened buffer filename limit₀ r n)
    (hb : (r.tree n).Bounded r.bits 0) (h6 : r.metadata.ipVersion.eqInt 6) (hlt : r.ipv4Start < n)
    {q bs : List Bool} (hq : q <+: List.replicate 96 false ++ bs)
    (hr : (r.tree n).Reaches 0 q r.ipv4Start) : ofBits q = 0 := by
  have hzeros := reaches_ipv4Start ho h6 hlt
  rcases List.prefix_or_prefix_of_prefix hq (List.prefix_append _ bs) with hshort | hlong
  · exact ofBits_of_prefix_zeros hshort
  · obtain ⟨s, rfl⟩ := hlong
    obtain ⟨mid, hm, hs⟩ := BitTrie.reaches_append.mp hr
    obtain rfl := hm.unique hzeros
    rcases List.eq_nil_or_concat s with rfl | ⟨s', b, rfl⟩
    · rw [List.append_nil, ofBits_replicate_false]
    · exact absurd hs (hb.not_reaches_self hzeros hlt (by simp))

/-- A record that is looked up and not aliased is not hidden from iteration. -/
theorem not_hidden_of_not_aliased (ho : Opened buffer filename limit₀ r n) (hw : r.WellFormed n)
    (hstart : n < r.ipv4Start → ∀ path, (r.tree n).Reaches 0 path r.ipv4Start → ofBits path = 0)
    {a : IPAddress} (hna : ¬ r.Aliased n a) {path : List Bool} {leaf : ℕ}
    (hr : (r.tree n).Reaches 0 path leaf) (hl : n < leaf) (hp : path <+: toBits r.bits a.ip) :
    ¬ r.Hidden n path := by
  rintro ⟨q, hq, hne, hrq⟩
  rcases Nat.lt_trichotomy r.ipv4Start n with hlt | heq | hgt
  · by_cases h6 : r.metadata.ipVersion.eqInt 6
    · have hbits : r.bits = 128 := by rw [treeVersion_bits, if_pos h6]
      rw [hbits] at hp
      cases hv : a.version with
      | v6 =>
        refine hna ⟨hv, hlt, q, ?_, ?_, hrq⟩
        · rw [IPAddress.toBits, hv]
          exact hq.trans hp
        · rintro rfl
          exact hne (ofBits_replicate_false 96)
      | v4 =>
        have hip : a.ip < 2 ^ 32 := by
          have h := a.ip_lt
          rwa [hv] at h
        have hsplit : toBits 128 a.ip = List.replicate 96 false ++ toBits 32 a.ip :=
          toBits_eq_zeros_append hip
        rw [hsplit] at hp
        exact hne (ofBits_eq_zero_of_reaches_ipv4Start ho hw.bounded h6 hlt (hq.trans hp) hrq)
    -- in a database of IPv4 addresses the root does not occur again
    · have h0 := ipv4Start_of_not_six ho h6
      have hqne : q ≠ [] := by
        rintro rfl
        exact hne rfl
      rw [h0] at hrq hlt
      exact hw.bounded.not_reaches_self (BitTrie.reaches_nil 0) hlt hqne hrq
  · have := (hrq.eq_of_prefix (by rw [tree_count]; omega) hr hq).2
    omega
  · exact hne (hstart hgt q hrq)

theorem countP_eq_one {items : List (IPNetwork × Record)} {a : IPAddress}
    (hp : items.Pairwise fun x y => x.1.lastAddress < y.1.networkAddress)
    (hx : ∃ x ∈ items, x.1.Covers a) : items.countP (fun item => item.1.Covers a) = 1 := by
  have hle : items.countP (fun item => item.1.Covers a) ≤ 1 := by
    rw [List.countP_eq_length_filter]
    have hf := hp.filter fun item => decide (item.1.Covers a)
    have hall : ∀ x ∈ items.filter fun item => decide (item.1.Covers a), x.1.Covers a :=
      fun x hx => of_decide_eq_true (List.mem_filter.mp hx).2
    generalize items.filter (fun item => decide (item.1.Covers a)) = l at hf hall
    match l, hf, hall with
    | [], _, _ => exact Nat.zero_le _
    | [_], _, _ => exact le_rfl
    | x :: y :: _, hf, hall =>
      have hlt := (List.pairwise_cons.mp hf).1 y (by simp)
      have h1 := (hall x (by simp)).2.2
      have h2 := (hall y (by simp)).2.1
      omega
  have hpos : 0 < items.countP (fun item => item.1.Covers a) := by
    obtain ⟨x, hmem, hcov⟩ := hx
    exact List.countP_pos_iff.mpr ⟨x, hmem, decide_eq_true hcov⟩
  omega

theorem iterComplete_of_iterable (ho : Opened buffer filename limit₀ r n) (hw : r.WellFormed n)
    (h : r.Iterable n) : r.IterComplete n := by
  have hemit : ∀ x ∈ r.iterLeaves n, ∃ y, Settles
      (fun limit => r.emitNetwork limit x.1 x.2.length (ofBits x.2)) (.ok y) := by
    rintro ⟨leaf, path⟩ hx
    obtain ⟨hr, hl, hh⟩ := (mem_iterLeaves hw).mp hx
    have hspec := r.leafNetwork_spec path
    rw [if_pos ⟨hw.bounded.length_le hr, h.renderable path leaf hr hl hh⟩] at hspec
    obtain ⟨net, hnet, -⟩ := hspec
    obtain ⟨v, hv⟩ := hw.decodable path leaf hr hl
    refine ⟨(net, v), ?_⟩
    filter_upwards [hv] with limit hlimit
    exact emitNetwork_eq_ok.mpr ⟨hnet, hlimit⟩
  obtain ⟨items, hitems⟩ := settles_mapM hemit
  have hiter : Settles (fun limit => r.iter limit) ⟨items, none⟩ := by
    filter_upwards [hitems, Filter.eventually_gt_atTop r.bits] with limit hlimit hgt
    rw [iter_eq_mapM ho.nodeCount hw hgt, hlimit]
  refine ⟨items, hiter, fun a ha hna ⟨v, p, hget⟩ => ?_⟩
  obtain ⟨limit, hgt, heq⟩ := settles_limit hiter
  have hpair := iter_pairwise ho.nodeCount limit
  rw [heq] at hpair
  refine countP_eq_one hpair ?_
  obtain ⟨limit', hlimit'⟩ := hget.exists
  obtain ⟨path, leaf, hr, hl, hp⟩ := ho.exists_leaf ha hlimit'
  have hh := not_hidden_of_not_aliased ho hw h.start hna hr hl hp
  have hmap := iter_eq_mapM ho.nodeCount hw hgt
  rw [heq] at hmap
  have hnone := congrArg Gen.raised hmap
  obtain ⟨x, hx, hxe⟩ := Gen.mapM_mem_of_none hnone.symm ((mem_iterLeaves hw).mpr ⟨hr, hl, hh⟩)
  rw [← hmap] at hx
  have hrender := renders_of_leafNetwork (emitNetwork_eq_ok.mp hxe).1
  have hip : a.ip < 2 ^ r.bits :=
    lt_of_lt_of_le a.ip_lt (Nat.pow_le_pow_right (by norm_num) ha)
  have hrange := (hrender.prefix_iff hip).mp hp
  refine ⟨x, hx, fun hv => hrender.version ?_, hrange⟩
  have hlt := a.ip_lt
  rw [hv] at hlt
  exact lt_of_le_of_lt hrange.1 hlt

/-- **When iteration is complete.** On a well-formed database of one of the two versions iteration
runs to its end, with one network for each address that has a record and is not aliased, exactly
when the data records it comes to are renderable and the start of the IPv4 addresses, if it is a
data record, stands behind zeros only. -/
theorem iterComplete_iff (ho : Opened buffer filename limit₀ r n) (hw : r.WellFormed n) :
    r.IterComplete n ↔ r.Iterable n := by
  constructor
  · intro h
    have ⟨items, hiter, _⟩ := h
    exact ⟨fun path leaf hr hl hh => renderable_of_settles ho.nodeCount hw hiter hr hl hh,
      fun hl path hr => start_of_complete ho hw h hl hr⟩
  · exact iterComplete_of_iterable ho hw

end Reader

theorem Parts.wellFormed (db : Parts) : db.reader.WellFormed db.nodes.length where
  bounded := by
    intro bs hbs
    have hbits : db.reader.bits = db.ipVersion.bits := by
      rw [Reader.treeVersion_bits, reader_ipVersion]
      cases db.ipVersion <;> simp [IPVersion.number]
    rw [hbits] at hbs
    obtain ⟨leaf, k, hw, hl⟩ := db.bounded bs hbs
    exact ⟨leaf, k, by rw [tree_walk, hw], hl⟩
  decodable := by
    intro path leaf hr hl
    unfold BitTrie.Reaches at hr
    rw [tree_walk] at hr
    obtain ⟨v, ⟨rfl, -⟩ | ⟨d, v', e, rfl, henc, -⟩⟩ := db.holds_of_walk hr (Nat.le_of_lt hl)
    · omega
    · exact ⟨v', db.resolve_settles henc⟩

namespace Sample

theorem bits_eq (shared : Bool) : (database shared).reader.bits = 128 := by
  rw [Reader.treeVersion_bits, if_pos (ipVersion_eq shared)]

theorem reaches_eq {shared : Bool} {path : List Bool} {leaf : ℕ}
    (h : ((database shared).reader.tree 1).Reaches 0 path leaf) (hl : 1 < leaf) :
    ∃ b, path = [b] ∧ leaf = record shared b := by
  rcases path with _ | ⟨b, bs⟩
  · rw [BitTrie.reaches_nil_iff] at h
    omega
  · unfold BitTrie.Reaches at h
    rw [tree_walk] at h
    simp only [Except.ok.injEq, Prod.mk.injEq, List.length_cons] at h
    obtain rfl : bs = [] := List.length_eq_zero_iff.mp (by omega)
    exact ⟨b, rfl, h.1.symm⟩

theorem iterComplete : (database false).reader.IterComplete 1 := by
  obtain ⟨limit, ho⟩ := opened false
  refine (Reader.iterComplete_iff ho (database false).wellFormed).mpr ⟨?_, ?_⟩
  · intro path leaf hr hl _
    obtain ⟨b, rfl, rfl⟩ := reaches_eq hr hl
    rw [bits_eq]
    cases b with
    | false => exact absurd hl (by decide)
    | true => decide
  · intro hl
    rw [ipv4Start_eq] at hl
    exact absurd hl (by decide)

/-- A data record for `::/1` ends iteration. -/
theorem not_iterComplete : ¬ ∀ (buffer : Buffer) (filename : String) (limit n : ℕ) (r : Reader),
    r.Opened buffer filename limit n → r.WellFormed n → r.IterComplete n := by
  intro hall
  obtain ⟨limit, ho⟩ := opened true
  obtain ⟨items, hiter, -⟩ := hall _ _ _ _ _ ho (database true).wellFormed
  have hr : ((database true).reader.tree 1).Reaches 0 [false] 17 := tree_walk true false []
  have hh : ¬ (database true).reader.Hidden 1 [false] := by
    rintro ⟨q, hq, hne, -⟩
    exact hne (ofBits_of_prefix_zeros (k := 1) hq)
  have hren := Reader.renderable_of_settles ho.nodeCount (database true).wellFormed hiter hr
    (by decide) hh
  rw [bits_eq] at hren
  exact absurd hren (by decide)

end Sample

end MaxMindDB
