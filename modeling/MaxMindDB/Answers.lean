import MaxMindDB.Database

/-!
# The answers of lookups

Two facts about lookups in any search tree, whatever bytes it is read from. An answer comes with a
prefix length that delimits it (`prefixLen_delimits`). And an address is looked up along its bits in
the address space of the database (`Opened.getWithPrefixLen_eq`), although IPv4 lookups in a
database of IPv6 addresses start elsewhere.
-/

namespace MaxMindDB

open Octets BitString Raising

namespace Reader

variable {r : Reader} {n : ℕ}

/-- **The prefix length delimits the answer.** It is at most the length of the address, and every
address of the same version with the same first bits has the same answer. -/
theorem prefixLen_delimits (hn : r.HasNodeCount n) {limit p : ℕ} {a : IPAddress}
    {record : Option Record} (h : r.getWithPrefixLen limit a = .ok (record, p)) :
    p ≤ a.version.bits ∧ ∀ b : IPAddress, b.version = a.version →
      b.toBits.take p = a.toBits.take p → r.getWithPrefixLen limit b = .ok (record, p) := by
  obtain ⟨hv, leaf, hw, hans⟩ := walk_of_getWithPrefixLen hn h
  refine ⟨by simpa using BitTrie.walk_length_le hw, fun b hb hbits => ?_⟩
  have hwb : (r.tree n).walk b.toBits (r.startNode b.version.bits) = .ok (leaf, p) := by
    rw [hb]
    exact BitTrie.walk_congr hw (by simp [hb]) hbits.symm
  rw [getWithPrefixLen_eq hn, if_neg (by rw [hb]; exact hv), hwb]
  exact hans

end Reader

theorem Sample.delimits_address : ∃ limit, ∀ b : IPAddress, b.version = .v6 →
    b.toBits.take 1 = Sample.address.toBits.take 1 →
      (Sample.database false).reader.getWithPrefixLen limit b = .ok (some (.str "a"), 1) := by
  obtain ⟨limit, h⟩ := (Sample.get_address false).exists
  exact ⟨limit, (Reader.prefixLen_delimits (Sample.database false).reader_hasNodeCount h).2⟩

/-! ## The address space of a database -/

/-- The version of the addresses of a database: `ip_version` 6, or not. -/
def Reader.treeVersion (r : Reader) : IPVersion := if r.metadata.ipVersion.eqInt 6 then .v6 else .v4

/-- The bits of the addresses of a database. -/
def Reader.bits (r : Reader) : ℕ := r.treeVersion.bits

namespace Reader

variable {r : Reader} {n : ℕ}

theorem treeVersion_bits : r.bits = if r.metadata.ipVersion.eqInt 6 then 128 else 32 := by
  unfold bits treeVersion
  split_ifs <;> rfl

/-- An opened reader whose search tree has `n` nodes. -/
structure Opened (buffer : Buffer) (filename : String) (limit : ℕ) (r : Reader) (n : ℕ) : Prop where
  new : Reader.new buffer filename limit = .ok r
  nodeCount : r.HasNodeCount n

variable {buffer : Buffer} {filename : String} {limit₀ : ℕ}

/-- A lookup walks from node 0 along the bits of the address in the address space of the database,
and does not count the bits that an IPv4 address lacks there. -/
theorem Opened.getWithPrefixLen_eq (ho : Opened buffer filename limit₀ r n) {a : IPAddress}
    (ha : a.version.bits ≤ r.bits) (limit : ℕ) :
    r.getWithPrefixLen limit a =
      ((r.tree n).walk (toBits r.bits a.ip) 0 >>= r.answer n limit).map
        fun x => (x.1, x.2 - (r.bits - a.version.bits)) := by
  rw [Reader.getWithPrefixLen_eq ho.nodeCount]
  obtain ⟨version, ip, hip⟩ := a
  simp only at ha ⊢
  by_cases h6 : r.metadata.ipVersion.eqInt 6
  · have hbits : r.bits = 128 := by rw [treeVersion_bits, if_pos h6]
    have hnot4 : ¬ r.metadata.ipVersion.eqInt 4 := fun h4 =>
      absurd (Record.eqInt_unique h4 h6) (by norm_num)
    rw [if_neg (fun hv => hnot4 hv.2), hbits]
    cases version with
    | v6 =>
      have hstart : r.startNode IPVersion.v6.bits = 0 := by simp [startNode]
      rw [hstart]
      show _ = ((r.tree n).walk (IPAddress.toBits ⟨.v6, ip, hip⟩) 0 >>= _).map _
      cases (r.tree n).walk (IPAddress.toBits ⟨.v6, ip, hip⟩) 0 with
      | error e => rfl
      | ok p =>
        simp only [Except.ok_bind, IPVersion.bits_v6, Nat.sub_self, Nat.sub_zero]
        cases r.answer n limit p <;> rfl
    | v4 =>
      obtain ⟨k, hk⟩ := walk_ipv4Start ho.new ho.nodeCount h6
      have hstart : r.startNode IPVersion.v4.bits = r.ipv4Start := by simp [startNode, h6]
      have hip' : ip < 2 ^ 32 := hip
      rw [hstart]
      show (r.tree n).walk (IPAddress.ofV4 ip hip').toBits r.ipv4Start >>= _ =
        ((r.tree n).walk (IPAddress.embedV4 ip hip').toBits 0 >>= _).map _
      rw [walk_embedV4 hk]
      cases (r.tree n).walk (IPAddress.embedV4 ip hip').toBits 0 with
      | error e => rfl
      | ok p => exact answer_sub r n limit p 96
  · have hbits : r.bits = 32 := by rw [treeVersion_bits, if_neg h6]
    cases version with
    | v6 => rw [hbits] at ha; simp at ha
    | v4 =>
      have hstart : r.startNode IPVersion.v4.bits = 0 := by simp [startNode, h6]
      rw [if_neg (by simp), hstart, hbits]
      show _ = ((r.tree n).walk (IPAddress.toBits ⟨.v4, ip, hip⟩) 0 >>= _).map _
      cases (r.tree n).walk (IPAddress.toBits ⟨.v4, ip, hip⟩) 0 with
      | error e => rfl
      | ok p =>
        simp only [Except.ok_bind, IPVersion.bits_v4, Nat.sub_self, Nat.sub_zero]
        cases r.answer n limit p <;> rfl

end Reader

theorem Sample.ipVersion_eq (shared : Bool) :
    (Sample.database shared).reader.metadata.ipVersion.eqInt 6 := by
  rw [Parts.reader_ipVersion]
  rfl

theorem Sample.opened (shared : Bool) : ∃ limit,
    Reader.Opened (.ofBytes (Sample.database shared).file) "Test.mmdb" limit
      (Sample.database shared).reader 1 := by
  obtain ⟨limit, h⟩ := Sample.database_opens shared "Test.mmdb"
  exact ⟨limit, h, (Sample.database shared).reader_hasNodeCount⟩

end MaxMindDB
