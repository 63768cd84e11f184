import MaxMindDB.Reader

/-!
# Lookups as walks

A reader whose `node_count` is a natural number `n` has a search tree `r.tree n`, whatever bytes it
is read from. The loops of the reader over packed addresses are walks there, so a lookup is a walk
along the bits of the address followed by an answer that depends on where the walk arrives.

The walk of an IPv4 lookup begins at the IPv4 start node; it uses the bits that the walk from node 0
uses behind 96 zero bits (`walk_embedV4`).
-/

namespace MaxMindDB

open Octets BitString

/-! ## Bits of a packed address -/

theorem and_one_shiftRight (m k : ℕ) : 1 &&& (m >>> k) = (m.testBit k).toNat := by
  rw [Nat.testBit_eq_decide_div_mod_eq, Nat.shiftRight_eq_div_pow, Nat.one_and_eq_mod_two]
  rcases Nat.mod_two_eq_zero_or_one (m / 2 ^ k) with h | h <;> simp [h]

theorem packed_bit (a : IPAddress) {i : ℕ} (hi : i < a.version.bits) :
    1 &&& ((a.packed.getD (i >>> 3) 0).toNat >>> (7 - i % 8)) =
      (a.ip.testBit (a.version.bits - 1 - i)).toNat := by
  have hi' : i < a.version.packedSize * 8 := hi
  have hk : i / 8 < a.version.packedSize := by omega
  have hbyte : (a.packed.getD (i >>> 3) 0).toNat =
      a.ip / 2 ^ (8 * (a.version.packedSize - 1 - i / 8)) % 2 ^ 8 := by
    rw [Nat.shiftRight_eq_div_pow, List.getD_eq_getElem?_getD, IPAddress.packed,
      getElem_beBytes hk, pow_mul]
    simp
  rw [and_one_shiftRight, hbyte, Nat.testBit_mod_two_pow, Nat.testBit_div_two_pow,
    decide_eq_true (by omega), Bool.true_and, IPVersion.bits]
  congr 2
  omega

theorem drop_toBits (a : IPAddress) {i : ℕ} (hi : i < a.version.bits) :
    a.toBits.drop i = a.ip.testBit (a.version.bits - 1 - i) :: a.toBits.drop (i + 1) := by
  have hbit : a.toBits[i]? = some (a.ip.testBit (a.version.bits - 1 - i)) := getElem?_toBits hi
  obtain ⟨hlt, heq⟩ := List.getElem?_eq_some_iff.mp hbit
  rw [List.drop_eq_getElem_cons hlt, heq]

/-! ## IPv4 addresses in an IPv6 tree -/

/-- The IPv4 address of a number. -/
def IPAddress.ofV4 (ip : ℕ) (h : ip < 2 ^ 32) : IPAddress := ⟨.v4, ip, h⟩

/-- The IPv6 address of 96 zero bits and the bits of an IPv4 address. -/
def IPAddress.embedV4 (ip : ℕ) (h : ip < 2 ^ 32) : IPAddress :=
  ⟨.v6, ip, lt_of_lt_of_le h (by simp)⟩

theorem toBits_embedV4 {ip : ℕ} (h : ip < 2 ^ 32) :
    (IPAddress.embedV4 ip h).toBits =
      List.replicate 96 false ++ (IPAddress.ofV4 ip h).toBits :=
  toBits_eq_zeros_append (v := 96) (w := 32) h

/-! ## The search tree of a reader -/

/-- The reader's `node_count` is the natural number `n`. -/
def Reader.HasNodeCount (r : Reader) (n : ℕ) : Prop :=
  r.metadata.nodeCount.asNum = .ok (.int n)

/-- The search tree of a reader with `n` nodes. -/
def Reader.tree (r : Reader) (n : ℕ) : BitTrie Exc where
  count := n
  child node b := r.readNode node b.toNat

@[simp] theorem Reader.tree_count (r : Reader) (n : ℕ) : (r.tree n).count = n := rfl

theorem unpack_lt {n v : ℕ} {bs : Bytes} (h : unpack n bs = .ok v) : v < 256 ^ n := by
  unfold unpack at h
  split_ifs at h with hl
  cases h
  exact hl ▸ beNat_lt bs

namespace Reader

variable {r : Reader} {n : ℕ}

/-- A record has at most 32 bits. -/
theorem readNode_lt {node index v : ℕ} (h : r.readNode node index = .ok v) : v < 2 ^ 32 := by
  have key : ∀ {bs : Bytes}, unpack 4 bs = .ok v → v < 2 ^ 32 := fun hu => by
    have := unpack_lt hu
    norm_num at this ⊢
    exact this
  unfold readNode at h
  obtain ⟨size, -, h⟩ := Except.bind_eq_ok.mp h
  obtain ⟨base, -, h⟩ := Except.bind_eq_ok.mp h
  dsimp only at h
  split_ifs at h
  · obtain ⟨offset, -, h⟩ := Except.bind_eq_ok.mp h
    obtain ⟨bs, -, h⟩ := Except.bind_eq_ok.mp h
    exact key h
  · obtain ⟨offset, -, h⟩ := Except.bind_eq_ok.mp h
    obtain ⟨bs, -, h⟩ := Except.bind_eq_ok.mp h
    split at h
    · cases h
    · exact key h
  · obtain ⟨offset, -, h⟩ := Except.bind_eq_ok.mp h
    obtain ⟨bs, -, h⟩ := Except.bind_eq_ok.mp h
    split at h
    · cases h
    · exact key h
  · obtain ⟨offset, -, h⟩ := Except.bind_eq_ok.mp h
    obtain ⟨bs, -, h⟩ := Except.bind_eq_ok.mp h
    exact key h
  · obtain ⟨recordSize, -, h⟩ := Except.bind_eq_ok.mp h
    cases h

/-- The loop of a lookup is a walk along the bits that are left. -/
theorem findLoop_eq (a : IPAddress) (turns node i : ℕ) (h : i + turns = a.version.bits) :
    r.findLoop (.int n) a.packed a.version.bits turns node i =
      ((r.tree n).walk (a.toBits.drop i) node >>= fun p => .ok (p.1, i + p.2)) := by
  induction turns generalizing node i with
  | zero =>
    rw [List.drop_eq_nil_of_le (by rw [IPAddress.length_toBits]; omega)]
    simp [findLoop]
  | succ turns ih =>
    have hi : i < a.version.bits := by omega
    rw [findLoop, drop_toBits a hi]
    by_cases hn : node < n
    · have hc : i < a.version.bits ∧ (PyNum.int node).lt (.int n) = true := by simp [hi, hn]
      have hw : node < (r.tree n).count := hn
      rw [if_pos hc, packed_bit a hi, BitTrie.walk, if_pos hw]
      show (r.readNode node _ >>= fun next => _) = _
      cases hread : r.readNode node (a.ip.testBit (a.version.bits - 1 - i)).toNat with
      | error e => simp [tree, hread]
      | ok next =>
        simp only [Except.ok_bind, ih next (i + 1) (by omega), tree, hread]
        cases BitTrie.walk _ (a.toBits.drop (i + 1)) next with
        | error e => rfl
        | ok p =>
          simp only [Except.ok_bind]
          rw [Nat.add_assoc, Nat.add_comm 1]
    · have hc : ¬ (i < a.version.bits ∧ (PyNum.int node).lt (.int n) = true) := by simp [hn]
      rw [if_neg hc, BitTrie.walk_of_le _ (by rw [tree_count]; omega)]
      rfl

/-- What a lookup answers when its walk has arrived. -/
def answer (r : Reader) (n limit : ℕ) (p : ℕ × ℕ) : Except Exc (Option Record × ℕ) :=
  if p.1 < n then .error (.invalidDatabaseError .invalidNode)
  else if p.1 = n then .ok (none, p.2)
  else r.resolveDataPointer limit p.1 >>= fun record => .ok (some record, p.2)

/-- The walk of a lookup, whatever number `node_count` is, and what it returns. -/
theorem findAddressInTree_of_nodeCount {nodeCount : PyNum}
    (hn : r.metadata.nodeCount.asNum = .ok nodeCount) (a : IPAddress) :
    r.findAddressInTree a.packed =
      (r.findLoop nodeCount a.packed a.version.bits a.version.bits
        (r.startNode a.version.bits) 0 >>= fun p =>
          if (PyNum.int p.1).eq nodeCount then .ok (0, p.2)
          else if nodeCount.lt (.int p.1) then .ok p
          else .error (.invalidDatabaseError .invalidNode)) := by
  have hlen : a.packed.length * 8 = a.version.bits := by simp [IPAddress.packed, IPVersion.bits]
  unfold findAddressInTree
  rw [hlen, hn]
  rfl

theorem findAddressInTree_eq (hn : r.HasNodeCount n) (a : IPAddress) :
    r.findAddressInTree a.packed =
      ((r.tree n).walk a.toBits (r.startNode a.version.bits) >>= fun p =>
        if p.1 < n then .error (.invalidDatabaseError .invalidNode)
        else if p.1 = n then .ok (0, p.2) else .ok p) := by
  rw [findAddressInTree_of_nodeCount hn, findLoop_eq a _ _ 0 (by omega), List.drop_zero]
  cases (r.tree n).walk a.toBits (r.startNode a.version.bits) with
  | error e => rfl
  | ok p =>
    obtain ⟨leaf, k⟩ := p
    simp only [Except.ok_bind, PyNum.eq_int, PyNum.lt_int, Nat.cast_inj, Nat.cast_lt,
      decide_eq_true_eq, Nat.zero_add]
    rcases Nat.lt_trichotomy leaf n with h | h | h
    · rw [if_neg (by omega), if_neg (by omega), if_pos h]
    · rw [if_pos h, if_neg (by omega), if_pos h]
    · rw [if_neg (by omega), if_pos h, if_neg (by omega), if_neg (by omega)]

/-- **A lookup is a walk and an answer.** -/
theorem getWithPrefixLen_eq (hn : r.HasNodeCount n) (limit : ℕ) (a : IPAddress) :
    r.getWithPrefixLen limit a =
      if a.version = .v6 ∧ r.metadata.ipVersion.eqInt 4 then .error .valueError
      else (r.tree n).walk a.toBits (r.startNode a.version.bits) >>= r.answer n limit := by
  unfold getWithPrefixLen
  split_ifs with hv
  · rfl
  · rw [findAddressInTree_eq hn]
    cases (r.tree n).walk a.toBits (r.startNode a.version.bits) with
    | error e => rfl
    | ok p =>
      obtain ⟨leaf, k⟩ := p
      simp only [Except.ok_bind, Except.pure_eq_ok, answer]
      rcases Nat.lt_trichotomy leaf n with h | h | h
      · rw [if_pos h, if_pos h]
        rfl
      · rw [if_neg (by omega), if_pos h, if_neg (by omega), if_pos h]
        rfl
      · rw [if_neg (by omega), if_neg (by omega), if_neg (by omega), if_neg (by omega)]
        simp only [Except.ok_bind, if_pos (show leaf ≠ 0 by omega)]

theorem walk_of_getWithPrefixLen (hn : r.HasNodeCount n) {limit p : ℕ} {a : IPAddress}
    {record : Option Record} (h : r.getWithPrefixLen limit a = .ok (record, p)) :
    ¬ (a.version = .v6 ∧ r.metadata.ipVersion.eqInt 4) ∧
      ∃ leaf, (r.tree n).walk a.toBits (r.startNode a.version.bits) = .ok (leaf, p) ∧
        r.answer n limit (leaf, p) = .ok (record, p) := by
  rw [getWithPrefixLen_eq hn] at h
  split_ifs at h with hv
  obtain ⟨⟨leaf, k⟩, hw, hans⟩ := Except.bind_eq_ok.mp h
  have hk : k = p := by
    unfold answer at hans
    split_ifs at hans
    · cases hans; rfl
    · obtain ⟨v, -, hv⟩ := Except.bind_eq_ok.mp hans
      cases hv; rfl
  subst hk
  exact ⟨hv, leaf, hw, hans⟩

/-! ## The IPv4 start node -/

/-- The loop of the constructor is a walk along zeros. -/
theorem ipv4Walk_eq (k node : ℕ) :
    r.ipv4Walk (.int n) k node =
      ((r.tree n).walk (List.replicate k false) node >>= fun p => .ok p.1) := by
  induction k generalizing node with
  | zero => rfl
  | succ k ih =>
    rw [ipv4Walk, List.replicate_succ]
    by_cases hlt : node < n
    · have hw : node < (r.tree n).count := hlt
      rw [if_neg (by simpa using hlt), BitTrie.walk, if_pos hw]
      show (r.readNode node 0 >>= fun next => _) = _
      cases hread : r.readNode node 0 with
      | error e => simp [tree, hread]
      | ok next =>
        simp only [Except.ok_bind, ih next, tree, Bool.toNat_false, hread]
        cases BitTrie.walk _ (List.replicate k false) next <;> rfl
    · rw [if_pos (by simpa using hlt), BitTrie.walk_of_le _ (by rw [tree_count]; omega)]
      rfl

theorem ipv4Walk_congr {r r' : Reader} (h : r'.readNode = r.readNode) (nodeCount : PyNum)
    (k node : ℕ) : r'.ipv4Walk nodeCount k node = r.ipv4Walk nodeCount k node := by
  induction k generalizing node with
  | zero => rfl
  | succ k ih => simp only [ipv4Walk, ih, h]

theorem ipv4Walk_withStart (r : Reader) (start : ℕ) (nodeCount : PyNum) (k node : ℕ) :
    ipv4Walk { r with ipv4Start := start } nodeCount k node = r.ipv4Walk nodeCount k node := by
  apply ipv4Walk_congr
  rfl

theorem load_cases {buffer : Buffer} {filename : String} {limit start : ℕ}
    (h : load buffer filename limit start = .ok r) :
    r.buffer = buffer ∧
      (∃ size, r.metadata.searchTreeSize = .ok size ∧
        size.add (.int dataSectionSeparatorSize) = .ok r.decoderBase) ∧
      if r.metadata.ipVersion.eqInt 6 then
        ∃ nodeCount, r.metadata.nodeCount.asNum = .ok nodeCount ∧
          r.ipv4Walk nodeCount 96 0 = .ok r.ipv4Start
      else r.ipv4Start = 0 := by
  unfold load at h
  obtain ⟨⟨metadata, e⟩, -, h⟩ := Except.bind_eq_ok.mp h
  cases metadata with
  | dict items =>
    simp only at h
    obtain ⟨metadata, -, h⟩ := Except.bind_eq_ok.mp h
    obtain ⟨size, hsize, h⟩ := Except.bind_eq_ok.mp h
    obtain ⟨base, hbase, h⟩ := Except.bind_eq_ok.mp h
    split_ifs at h with h6
    · obtain ⟨nodeCount, hnc, h⟩ := Except.bind_eq_ok.mp h
      obtain ⟨start, hwalk, h⟩ := Except.bind_eq_ok.mp h
      cases h
      refine ⟨rfl, ⟨size, hsize, hbase⟩, ?_⟩
      rw [if_pos h6]
      refine ⟨nodeCount, hnc, ?_⟩
      rw [← hwalk]
      exact ipv4Walk_withStart { buffer, metadata, decoderBase := base, ipv4Start := 0 } start
        nodeCount 96 0
    · cases h
      exact ⟨rfl, ⟨size, hsize, hbase⟩, by rw [if_neg h6]⟩
  | _ => cases h

theorem new_of_rfind_some {buffer : Buffer} {filename : String} {limit start : ℕ}
    (h : buffer.rfind metadataStartMarker (buffer.size - 128 * 1024) = .ok (some start)) :
    new buffer filename limit =
      (load buffer filename limit (start + metadataStartMarker.length)).mapError
        fun e => ⟨e, false⟩ := by
  rw [new, h]

theorem new_of_rfind_none {buffer : Buffer} {filename : String} {limit : ℕ}
    (h : buffer.rfind metadataStartMarker (buffer.size - 128 * 1024) = .ok none) :
    new buffer filename limit = .error ⟨.invalidDatabaseError (.openingFile filename), true⟩ := by
  rw [new, h]

theorem load_of_new {buffer : Buffer} {filename : String} {limit : ℕ}
    (h : new buffer filename limit = .ok r) :
    ∃ start, buffer.rfind metadataStartMarker (buffer.size - 128 * 1024) = .ok (some start) ∧
      load buffer filename limit (start + metadataStartMarker.length) = .ok r := by
  unfold new at h
  split at h
  · cases h
  · cases h
  · rename_i start hstart
    refine ⟨start, hstart, ?_⟩
    cases hl : load buffer filename limit (start + metadataStartMarker.length) with
    | error e => rw [hl] at h; cases h
    | ok r' => rw [hl] at h; cases h; rfl

/-- In a database of IPv6 addresses, IPv4 lookups start where 96 zero bits lead. -/
theorem walk_ipv4Start {buffer : Buffer} {filename : String} {limit : ℕ}
    (h : new buffer filename limit = .ok r) (hn : r.HasNodeCount n)
    (h6 : r.metadata.ipVersion.eqInt 6) :
    ∃ k, (r.tree n).walk (List.replicate 96 false) 0 = .ok (r.ipv4Start, k) := by
  obtain ⟨start, -, hl⟩ := load_of_new h
  have hstart := (load_cases hl).2.2
  rw [if_pos h6] at hstart
  obtain ⟨nodeCount, hnc, hwalk⟩ := hstart
  unfold HasNodeCount at hn
  rw [hn] at hnc
  cases hnc
  rw [ipv4Walk_eq] at hwalk
  obtain ⟨⟨leaf, k⟩, hw, hleaf⟩ := Except.bind_eq_ok.mp hwalk
  cases hleaf
  exact ⟨k, hw⟩

/-- The bits a lookup uses from the IPv4 start node are those it uses from node 0, but for the
first 96; where no IPv4 subtree exists it uses none. -/
theorem walk_embedV4 {k : ℕ}
    (hk : (r.tree n).walk (List.replicate 96 false) 0 = .ok (r.ipv4Start, k))
    {ip : ℕ} (h : ip < 2 ^ 32) :
    (r.tree n).walk (IPAddress.ofV4 ip h).toBits r.ipv4Start =
      ((r.tree n).walk (IPAddress.embedV4 ip h).toBits 0 >>= fun p => .ok (p.1, p.2 - 96)) := by
  have hle : k ≤ 96 := by simpa using BitTrie.walk_length_le hk
  rw [toBits_embedV4, BitTrie.walk_append, hk]
  by_cases hlt : r.ipv4Start < n
  · obtain rfl : k = 96 := by simpa using BitTrie.walk_eq_length hk hlt
    simp only [Except.bind]
    cases (r.tree n).walk (IPAddress.ofV4 ip h).toBits r.ipv4Start with
    | error e => rfl
    | ok p => simp [Except.map]
  · simp only [Except.bind]
    rw [BitTrie.walk_of_le _ (by rw [tree_count]; omega)]
    simp only [Except.map, Except.ok_bind]
    congr 2
    omega

theorem answer_sub (r : Reader) (n limit : ℕ) (p : ℕ × ℕ) (j : ℕ) :
    r.answer n limit (p.1, p.2 - j) =
      (r.answer n limit p).map fun x => (x.1, x.2 - j) := by
  unfold answer
  split_ifs
  · rfl
  · rfl
  · cases r.resolveDataPointer limit p.1 <;> rfl

end Reader

end MaxMindDB
