import MaxMindDB.Extension.SameLeaves

/-!
# The networks of the C iterator

For a data record `ReaderIter_next` calls `ipaddress.ip_network` with the 16 bytes of the path and
the depth, or with the last 4 bytes and the depth less 96 when the first 12 are zero. It does not
look at the depth.

`rendersLeaf_iff`: the network is the one of the addresses that begin with the path, unless the leaf
stands behind fewer than 96 bits, all zero; there the prefix length is negative, and `ip_network`
raises.
-/

namespace MaxMindDB

open Octets BitString

/-! ## `ip_network` of packed addresses -/

namespace IPNetwork

/-- The constructor of one version on the bytes of an address and a prefix length; `none` when the
bytes are not as many as the version has, or the prefix length is out of range. -/
def ofPacked (version : IPVersion) (packed : Bytes) (prefixlen : ℤ) :
    Option (Except Exc IPNetwork) :=
  if packed.length = version.packedSize then ofVersion version (beNat packed) prefixlen else none

/-- `ipaddress.ip_network((packed, prefixlen))`. -/
def ipNetworkPacked (packed : Bytes) (prefixlen : ℤ) : Except Exc IPNetwork :=
  match ofPacked .v4 packed prefixlen with
  | some network => network
  | none =>
    match ofPacked .v6 packed prefixlen with
    | some network => network
    | none => .error .valueError

theorem ofPacked_beBytes {version : IPVersion} {address : ℕ} (h : address < 2 ^ version.bits)
    (prefixlen : ℤ) : ofPacked version (beBytes version.packedSize address) prefixlen =
      ofVersion version address prefixlen := by
  have hlt : address < 256 ^ version.packedSize := by
    rw [show 256 = 2 ^ 8 by norm_num, ← pow_mul, Nat.mul_comm]
    exact h
  rw [ofPacked, if_pos (length_beBytes _ _), beNat_beBytes hlt]

theorem ofPacked_of_length {version : IPVersion} {packed : Bytes}
    (h : packed.length ≠ version.packedSize) (prefixlen : ℤ) :
    ofPacked version packed prefixlen = none := by
  rw [ofPacked, if_neg h]

theorem ipNetworkPacked_v6 {address k : ℕ} (ha : address < 2 ^ 128) (hk : k ≤ 128)
    (hd : 2 ^ (128 - k) ∣ address) :
    ipNetworkPacked (beBytes 16 address) k = .ok ⟨.v6, address, k, hk, ha, hd⟩ := by
  have h6 : ofPacked .v6 (beBytes 16 address) k = some (.ok ⟨.v6, address, k, hk, ha, hd⟩) :=
    (ofPacked_beBytes ha k).trans (ofVersion_of_dvd ha hk hd)
  rw [ipNetworkPacked, ofPacked_of_length (by rw [length_beBytes]; decide), h6]

theorem ipNetworkPacked_v4 {address k : ℕ} (ha : address < 2 ^ 32) (hk : k ≤ 32)
    (hd : 2 ^ (32 - k) ∣ address) :
    ipNetworkPacked (beBytes 4 address) k = .ok ⟨.v4, address, k, hk, ha, hd⟩ := by
  have h4 : ofPacked .v4 (beBytes 4 address) k = some (.ok ⟨.v4, address, k, hk, ha, hd⟩) :=
    (ofPacked_beBytes ha k).trans (ofVersion_of_dvd ha hk hd)
  rw [ipNetworkPacked, h4]

theorem ipNetworkPacked_of_neg {address : ℕ} {prefixlen : ℤ} (ha : address < 2 ^ 32)
    (h : prefixlen < 0) : ipNetworkPacked (beBytes 4 address) prefixlen = .error .valueError := by
  have h4 : ofPacked .v4 (beBytes 4 address) prefixlen = none :=
    (ofPacked_beBytes ha _).trans (ofVersion_of_not (by omega))
  rw [ipNetworkPacked, h4, ofPacked_of_length (by rw [length_beBytes]; decide)]

/-- All addresses that begin with the path lie inside `::/96`. -/
def InsideV4 (path : List Bool) : Prop := List.replicate 96 false <+: path

instance (path : List Bool) : Decidable (InsideV4 path) :=
  inferInstanceAs (Decidable (List.replicate 96 false <+: path))

/-- The network is the one of the 128-bit addresses that begin with the path; when these lie inside
`::/96`, as IPv4 addresses. -/
structure Exactly (net : IPNetwork) (path : List Bool) : Prop where
  version : net.version = if InsideV4 path then .v4 else .v6
  prefixlen : net.prefixlen = if InsideV4 path then path.length - 96 else path.length
  contains : ∀ a : IPAddress, net.Contains a ↔ a.version = net.version ∧ path <+: toBits 128 a.ip

end IPNetwork

namespace Extension

open IPNetwork

/-! ## Paths behind zero bits -/

variable {path : List Bool}

/-- Fewer than 96 bits put a one, if there is one, in the first 12 bytes. -/
theorem ofBits_eq_zero_of_firstAddress_lt (h : firstAddress path < 2 ^ 32)
    (hlen : path.length < 96) : ofBits path = 0 := by
  by_contra hne
  have hpow : 2 ^ 33 ≤ 2 ^ (128 - path.length) := Nat.pow_le_pow_right (by norm_num) (by omega)
  have hmul : 1 * 2 ^ (128 - path.length) ≤ firstAddress path :=
    Nat.mul_le_mul_right _ (Nat.pos_of_ne_zero hne)
  omega

theorem insideV4_iff (h : path.length ≤ 128) :
    InsideV4 path ↔ 96 ≤ path.length ∧ firstAddress path < 2 ^ 32 := by
  constructor
  · rintro ⟨rest, rfl⟩
    simp only [List.length_append, List.length_replicate] at h ⊢
    refine ⟨by omega, ?_⟩
    have hblock : ofBits rest * 2 ^ (32 - rest.length) < 2 ^ 32 := block_lt (by omega)
    rw [firstAddress, ofBits_append, ofBits_replicate_false, Nat.zero_mul, Nat.zero_add,
      List.length_append, List.length_replicate]
    rwa [show 128 - (96 + rest.length) = 32 - rest.length by omega]
  · rintro ⟨hlen, hlow⟩
    have hzeros := prefix_zeros_append h hlow
    exact List.prefix_of_prefix_length_le (List.prefix_append _ _) hzeros
      (by rw [List.length_replicate]; exact hlen)

theorem exactly_of_renders {net : IPNetwork} (h : Reader.Renders 128 net path)
    (hv : net.version = if InsideV4 path then .v4 else .v6) : net.Exactly path := by
  have hdepth := h.depth
  refine ⟨hv, ?_, fun a => ?_⟩
  · split_ifs at hv ⊢ <;> rw [hv] at hdepth <;> simp only [IPVersion.bits_v4, IPVersion.bits_v6] at hdepth
    · omega
    · omega
  · have hip : a.version = net.version → a.ip < 2 ^ 128 := by
      intro hav
      have hwidth := h.width
      rw [← hav] at hwidth
      exact lt_of_lt_of_le a.ip_lt (Nat.pow_le_pow_right (by norm_num) hwidth)
    exact and_congr_right fun hav => (h.prefix_iff (hip hav)).symm

/-! ## What `ip_network` is called with -/

/-- The first byte of the address that is passed. -/
def ipStart (path : List Bool) : ℕ := if 2 ^ 32 ≤ firstAddress path then 0 else 12

/-- How many bytes are passed. -/
def ipLength (path : List Bool) : ℕ := if 2 ^ 32 ≤ firstAddress path then 16 else 4

/-- The network of the leaf behind a path is made, and is the right one. -/
def RendersLeaf (address : Bytes) (prefixLen : ℤ) (path : List Bool) : Prop :=
  ∃ net, ipNetworkPacked address prefixLen = .ok net ∧ net.Exactly path

theorem rendersLeaf_v6 (h : path.length ≤ 128) (hhigh : 2 ^ 32 ≤ firstAddress path) :
    RendersLeaf (packPath path) path.length path := by
  have hnot : ¬ InsideV4 path := fun hi => by
    have := (insideV4_iff h).mp hi
    omega
  refine ⟨_, ipNetworkPacked_v6 (firstAddress_lt h) h (Dvd.intro_left _ rfl), ?_⟩
  refine exactly_of_renders ⟨le_rfl, h, rfl, rfl, fun hlt => ?_⟩ ?_
  · simp only at hlt
    omega
  · rw [if_neg hnot]

theorem rendersLeaf_v4 (h : path.length ≤ 128) (hlen : 96 ≤ path.length)
    (hlow : firstAddress path < 2 ^ 32) :
    RendersLeaf (beBytes 4 (firstAddress path)) (path.length - 96) path := by
  have hcast : (path.length : ℤ) - 96 = (path.length - 96 : ℕ) := by omega
  have hdvd : 2 ^ (32 - (path.length - 96)) ∣ firstAddress path := by
    rw [show 32 - (path.length - 96) = 128 - path.length by omega]
    exact Dvd.intro_left _ rfl
  rw [hcast]
  refine ⟨_, ipNetworkPacked_v4 hlow (by omega) hdvd, ?_⟩
  refine exactly_of_renders ⟨Nat.le_of_ble_eq_true rfl, h, rfl, ?_, fun _ => rfl⟩ ?_
  · simp only [IPVersion.bits_v4]
    omega
  · rw [if_pos ((insideV4_iff h).mpr ⟨hlen, hlow⟩)]

theorem not_rendersLeaf {address : ℕ} (ha : address < 2 ^ 32) (hlen : path.length < 96) :
    ¬ RendersLeaf (beBytes 4 address) (path.length - 96) path := by
  rintro ⟨net, hnet, -⟩
  rw [ipNetworkPacked_of_neg ha (by omega)] at hnet
  cases hnet

/-- **Which paths are rendered.** -/
theorem rendersLeaf_packPath (h : path.length ≤ 128) :
    RendersLeaf (slice (packPath path) (ipStart path) (ipStart path + ipLength path))
        (path.length - ipStart path * 8) path ↔
      (ofBits path = 0 → 96 ≤ path.length) := by
  unfold ipStart ipLength
  by_cases hhigh : 2 ^ 32 ≤ firstAddress path
  · rw [if_pos hhigh, if_pos hhigh]
    have hslice : slice (packPath path) 0 (0 + 16) = packPath path := by
      unfold slice packPath
      rw [List.drop_zero, List.take_of_length_le (by rw [length_beBytes])]
    have hne : ofBits path ≠ 0 := by
      intro h0
      rw [firstAddress, h0, Nat.zero_mul] at hhigh
      omega
    rw [hslice]
    refine iff_of_true ?_ fun h0 => absurd h0 hne
    simpa using rendersLeaf_v6 h hhigh
  · rw [if_neg hhigh, if_neg hhigh]
    have hlow := Nat.not_le.mp hhigh
    have hslice : slice (packPath path) 12 (12 + 4) = beBytes 4 (firstAddress path) := by
      unfold slice packPath
      rw [drop_beBytes 12 4, List.take_of_length_le (by rw [length_beBytes])]
    rw [hslice]
    by_cases hlen : 96 ≤ path.length
    · exact iff_of_true (rendersLeaf_v4 h hlen hlow) fun _ => hlen
    · refine iff_of_false (not_rendersLeaf hlow (by omega)) fun hcond => hlen (hcond ?_)
      exact ofBits_eq_zero_of_firstAddress_lt hlow (by omega)

/-! ## Any call -/

variable {Entry : Type} {lib : LibTree Entry}

variable [Inhabited Entry]

/-- The turn that returns a pair passes the bytes and the depth of its record. -/
theorem turn_item {calls : TurnCalls} {cur cur' : QueuedRecord Entry}
    {next : List (QueuedRecord Entry)} {address : Bytes} {prefixLen : ℤ} (hd : lib.depth = 128)
    (hq : Queued lib cur path) (h : turn lib calls cur next = .done (.item address prefixLen cur')) :
    cur' = cur ∧ cur.type = .data ∧
      address = slice (packPath path) (ipStart path) (ipStart path + ipLength path) ∧
      prefixLen = path.length - ipStart path * 8 := by
  have hdata : cur.type = .data := by
    rcases turn_done h with ⟨_, _, -, ht⟩ | ⟨_, heq⟩ | ⟨heq, -⟩
    · exact ht
    · cases heq
    · cases heq
  unfold turn at h
  simp only [hdata, hd, hq.ipPacked, hq.depth, isIpv6_packPath hq.length_le] at h
  unfold ipStart ipLength
  by_cases hhigh : 2 ^ 32 ≤ firstAddress path
  · simp only [hhigh, decide_true, Bool.not_true, Bool.false_eq_true, and_false, and_true,
      if_true, if_false] at h ⊢
    split_ifs at h <;> rw [Turn.done.injEq] at h <;> cases h
    exact ⟨rfl, hdata, rfl, rfl⟩
  · simp only [hhigh, decide_false, Bool.not_false, Bool.false_eq_true, and_false, and_true,
      if_true, if_false] at h ⊢
    split_ifs at h <;> rw [Turn.done.injEq] at h <;> cases h
    exact ⟨rfl, hdata, rfl, rfl⟩

theorem loop_item {calls : ℕ → TurnCalls} {k : ℕ} {next rest : List (QueuedRecord Entry)}
    {address : Bytes} {prefixLen : ℤ} {cur : QueuedRecord Entry} (hd : lib.depth = 128)
    (hq : AllQueued lib next) (h : loop lib calls k next = (.item address prefixLen cur, rest)) :
    ∃ path, Queued lib cur path ∧ cur.type = .data ∧
      address = slice (packPath path) (ipStart path) (ipStart path + ipLength path) ∧
      prefixLen = path.length - ipStart path * 8 := by
  induction hm : weight next using Nat.strong_induction_on generalizing k next with
  | _ m ih =>
  rcases next with _ | ⟨first, next⟩
  · rw [loop] at h
    cases h
  · obtain ⟨path, hfirst⟩ := hq first List.mem_cons_self
    cases hturn : turn lib (calls k) first next with
    | done outcome =>
      rw [loop_of_done hturn, Prod.mk.injEq] at h
      obtain ⟨rfl, rfl⟩ := h
      obtain ⟨rfl, hitem⟩ := turn_item hd hfirst hturn
      exact ⟨path, hfirst, hitem⟩
    | again next' =>
      rw [loop_of_again hturn] at h
      obtain ⟨qs, rfl, hqs, -⟩ := expand_of_again hfirst hturn
      have hall : AllQueued lib (qs ++ next) := by
        intro q hmem
        rcases List.mem_append.mp hmem with hmem | hmem
        · exact hqs q hmem
        · exact hq q (List.mem_cons_of_mem _ hmem)
      exact ih _ (hm ▸ weight_of_again hturn) hall h rfl

/-- **When a data leaf is rendered as its network.** In a database of IPv6 addresses in whose tree no
path leads through more than 128 nodes, let a call, after any others, come to `ip_network`: its
record is the data record behind a path, and the network is made and is the one of the path, exactly
when the path is not one of fewer than 96 zero bits. -/
theorem rendersLeaf_iff (hd : lib.depth = 128) (h : lib.DepthAtMost 128 QueuedRecord.zero.node)
    (calls : List Call) (call : Call) {address : Bytes} {prefixLen : ℤ} {cur : QueuedRecord Entry}
    {rest : List (QueuedRecord Entry)}
    (hitem : readerIterNext lib call (run lib calls).next = (.item address prefixLen cur, rest)) :
    cur.depth = cur.path.length ∧ cur.node = lib.recordAt cur.path ∧ cur.type = .data ∧
      (RendersLeaf address prefixLen cur.path ↔ (ofBits cur.path = 0 → 96 ≤ cur.path.length)) := by
  have hnext : AllQueued lib (run lib calls).next := fun q hmem =>
    (run_steps h calls).1 q (List.mem_append_right _ hmem)
  unfold readerIterNext at hitem
  split_ifs at hitem
  · cases hitem
  · cases hitem
  obtain ⟨path, hpath, hdata, rfl, rfl⟩ := loop_item hd hnext hitem
  rw [hpath.path_eq]
  exact ⟨hpath.depth, hpath.node, hdata, rendersLeaf_packPath hpath.length_le⟩

/-! The leaf `8000::/1` of the sample is rendered, the leaf `::/1` of the other is not. -/

theorem sampleTree_depthAtMost (shared : Bool) :
    (sampleTree shared).DepthAtMost 128 QueuedRecord.zero.node := by
  intro _ right hnode
  cases shared <;> cases right <;> cases hnode

theorem next_sampleTree_false : ∃ cur rest,
    readerIterNext (sampleTree false) .succeeds (run (sampleTree false) []).next =
      (.item (packPath [true]) 1 cur, rest) ∧ cur.path = [true] := by
  refine ⟨⟨packPath [true], 1, 17, .data, 0⟩, [], ?_, by decide +kernel⟩
  have hnode : turn (sampleTree false) .succeed QueuedRecord.zero [] =
      .again [⟨packPath [], 1, 1, .empty, 0⟩, ⟨packPath [true], 1, 17, .data, 0⟩] := rfl
  have hempty : turn (sampleTree false) .succeed ⟨packPath [], 1, 1, .empty, 0⟩
      [⟨packPath [true], 1, 17, .data, 0⟩] = .again [⟨packPath [true], 1, 17, .data, 0⟩] := rfl
  have hdata : turn (sampleTree false) .succeed ⟨packPath [true], 1, 17, .data, 0⟩ [] =
      .done (.item (packPath [true]) 1 ⟨packPath [true], 1, 17, .data, 0⟩) := rfl
  show loop (sampleTree false) (fun _ => .succeed) 0 [QueuedRecord.zero] = _
  rw [loop, hnode]
  dsimp only
  rw [loop, hempty]
  dsimp only
  rw [loop, hdata]

theorem sample_rendersLeaf : RendersLeaf (packPath [true]) 1 [true] := by
  obtain ⟨cur, rest, hnext, hpath⟩ := next_sampleTree_false
  have h := (rendersLeaf_iff rfl (sampleTree_depthAtMost false) [] .succeeds hnext).2.2.2
  rw [hpath] at h
  exact h.mpr (by decide)

theorem next_sampleTree_true : ∃ cur rest,
    readerIterNext (sampleTree true) .succeeds (run (sampleTree true) []).next =
      (.item (beBytes 4 0) (-95) cur, rest) ∧ cur.path = [false] := by
  refine ⟨⟨packPath [], 1, 17, .data, 0⟩, [⟨packPath [true], 1, 17, .data, 0⟩], ?_,
    by decide +kernel⟩
  have hnode : turn (sampleTree true) .succeed QueuedRecord.zero [] =
      .again [⟨packPath [], 1, 17, .data, 0⟩, ⟨packPath [true], 1, 17, .data, 0⟩] := rfl
  have hdata : turn (sampleTree true) .succeed ⟨packPath [], 1, 17, .data, 0⟩
      [⟨packPath [true], 1, 17, .data, 0⟩] =
        .done (.item (beBytes 4 0) (-95) ⟨packPath [], 1, 17, .data, 0⟩) := rfl
  show loop (sampleTree true) (fun _ => .succeed) 0 [QueuedRecord.zero] = _
  rw [loop, hnode]
  dsimp only
  rw [loop, hdata]

theorem not_rendersLeaves :
    ¬ ∀ (lib : LibTree ℕ) (calls : List Call) (call : Call) (address : Bytes) (prefixLen : ℤ)
      (cur : QueuedRecord ℕ) (rest : List (QueuedRecord ℕ)),
      lib.depth = 128 → lib.DepthAtMost 128 QueuedRecord.zero.node →
        readerIterNext lib call (run lib calls).next = (.item address prefixLen cur, rest) →
          RendersLeaf address prefixLen cur.path := by
  intro hall
  obtain ⟨cur, rest, hnext, hpath⟩ := next_sampleTree_true
  have h := hall _ [] .succeeds _ _ _ _ rfl (sampleTree_depthAtMost true) hnext
  rw [hpath] at h
  have hshort : [false].length < 96 := by decide
  exact not_rendersLeaf (by decide) hshort h

end Extension

end MaxMindDB
