import MaxMindDB.Answers

/-!
# Iterating over a reader

`_generate_children` and what it yields: an `ipaddress` network and the record of each data leaf.
`generateWith` is the recursion with the rendering of a leaf as a parameter, and the traversal of
the search tree it performs is that of `BitTrie.leaves` (`generateWith_eq`), with the accumulated
prefix and the depth in place of the path.

`iter_sound`: what iteration yields, up to where it ends or raises, is what lookups answer, in
strictly increasing order.
-/

namespace MaxMindDB

open Octets BitString

/-! ## Networks -/

/-- An `ipaddress.IPv4Network` or `ipaddress.IPv6Network`: no host bit of its address is set. -/
structure IPNetwork where
  version : IPVersion
  networkAddress : ℕ
  prefixlen : ℕ
  prefixlen_le : prefixlen ≤ version.bits
  address_lt : networkAddress < 2 ^ version.bits
  no_host_bits : 2 ^ (version.bits - prefixlen) ∣ networkAddress

namespace IPNetwork

/-- The number of the last address of a network. -/
def lastAddress (net : IPNetwork) : ℕ :=
  net.networkAddress + (2 ^ (net.version.bits - net.prefixlen) - 1)

/-- `address in network`. -/
def Contains (net : IPNetwork) (a : IPAddress) : Prop :=
  a.version = net.version ∧ net.networkAddress ≤ a.ip ∧ a.ip ≤ net.lastAddress

/-- The constructor of one version, on an address and a prefix length; `none` when one of them is
out of range, which is what lets `ip_network` try the other version. -/
def ofVersion (version : IPVersion) (address : ℕ) (prefixlen : ℤ) :
    Option (Except Exc IPNetwork) :=
  if h : address < 2 ^ version.bits ∧ 0 ≤ prefixlen ∧ prefixlen ≤ version.bits then
    if hb : 2 ^ (version.bits - prefixlen.toNat) ∣ address then
      some (.ok ⟨version, address, prefixlen.toNat, by omega, h.1, hb⟩)
    else some (.error .valueError)
  else none

/-- `ipaddress.ip_network((address, prefixlen))`. -/
def ipNetwork (address : ℕ) (prefixlen : ℤ) : Except Exc IPNetwork :=
  match ofVersion .v4 address prefixlen with
  | some network => network
  | none =>
    match ofVersion .v6 address prefixlen with
    | some network => network
    | none => .error .valueError

theorem ofVersion_of_dvd {version : IPVersion} {address k : ℕ} (ha : address < 2 ^ version.bits)
    (hk : k ≤ version.bits) (hd : 2 ^ (version.bits - k) ∣ address) :
    ofVersion version address k = some (.ok ⟨version, address, k, hk, ha, hd⟩) := by
  rw [ofVersion, dif_pos ⟨ha, by omega, by omega⟩, dif_pos (by simpa using hd)]
  rfl

theorem ofVersion_of_not_dvd {version : IPVersion} {address k : ℕ}
    (ha : address < 2 ^ version.bits) (hk : k ≤ version.bits)
    (hd : ¬ 2 ^ (version.bits - k) ∣ address) :
    ofVersion version address k = some (.error .valueError) := by
  rw [ofVersion, dif_pos ⟨ha, by omega, by omega⟩, dif_neg (by simpa using hd)]

theorem ofVersion_of_not {version : IPVersion} {address : ℕ} {prefixlen : ℤ}
    (h : ¬ (address < 2 ^ version.bits ∧ 0 ≤ prefixlen ∧ prefixlen ≤ version.bits)) :
    ofVersion version address prefixlen = none := by
  rw [ofVersion, dif_neg h]

theorem ipNetwork_v4 {address k : ℕ} (ha : address < 2 ^ 32) (hk : k ≤ 32)
    (hd : 2 ^ (32 - k) ∣ address) :
    ipNetwork address k = .ok ⟨.v4, address, k, hk, ha, hd⟩ := by
  rw [ipNetwork, ofVersion_of_dvd ha hk hd]

theorem ofVersion_v4_of_le {address : ℕ} (ha : 2 ^ 32 ≤ address) (prefixlen : ℤ) :
    ofVersion .v4 address prefixlen = none :=
  ofVersion_of_not fun h => absurd h.1 (by rw [IPVersion.bits_v4]; omega)

theorem ipNetwork_v6 {address k : ℕ} (h4 : 2 ^ 32 ≤ address) (ha : address < 2 ^ 128)
    (hk : k ≤ 128) (hd : 2 ^ (128 - k) ∣ address) :
    ipNetwork address k = .ok ⟨.v6, address, k, hk, ha, hd⟩ := by
  rw [ipNetwork, ofVersion_v4_of_le h4, ofVersion_of_dvd ha hk hd]

theorem ipNetwork_of_not_dvd {address k : ℕ} (h4 : 2 ^ 32 ≤ address) (ha : address < 2 ^ 128)
    (hk : k ≤ 128) (hd : ¬ 2 ^ (128 - k) ∣ address) :
    ipNetwork address k = .error .valueError := by
  rw [ipNetwork, ofVersion_v4_of_le h4, ofVersion_of_not_dvd ha hk hd]

theorem ipNetwork_of_neg {address : ℕ} {prefixlen : ℤ} (h : prefixlen < 0) :
    ipNetwork address prefixlen = .error .valueError := by
  rw [ipNetwork, ofVersion_of_not (by omega), ofVersion_of_not (by omega)]

end IPNetwork

/-! ## The generator -/

namespace Reader

variable (r : Reader)

/-- `_IPV4_MAX_NUM`. -/
def ipv4MaxNum : ℕ := 2 ^ 32

/-- The recursion of `_generate_children`, where `emit` makes what is yielded for a data record
from its node number, depth and accumulated prefix. -/
def generateWith {α : Type} (emit : ℕ → ℕ → ℕ → Except Exc α) (nodeCount : PyNum) :
    ℕ → ℕ → ℕ → ℕ → Gen Exc α
  | 0, _, _, _ => .raise .recursionError
  | limit + 1, node, depth, ipAcc =>
    -- nodes aliased to IPv4 are skipped
    if ipAcc ≠ 0 ∧ node = r.ipv4Start then .done
    else if nodeCount.lt (.int node) then .await (emit node depth ipAcc) .yield
    else if (PyNum.int node).lt nodeCount then
      .await (r.readNode node 0) fun left =>
        let ipAcc := ipAcc <<< 1
        let depth := depth + 1
        (generateWith emit nodeCount limit left depth ipAcc).andThen
          (.await (r.readNode node 1) fun right =>
            generateWith emit nodeCount limit right depth (ipAcc ||| 1))
    else .done

/-- The network `_generate_children` makes for a data record. -/
def leafNetwork (depth ipAcc : ℕ) : Except Exc IPNetwork :=
  let bits := if r.metadata.ipVersion.eqInt 6 then 128 else 32
  -- a shift by a negative number of bits
  if bits < depth then .error .valueError else
  let ipAcc := ipAcc <<< (bits - depth)
  let depth : ℤ := if ipAcc ≤ ipv4MaxNum ∧ bits = 128 then depth - 96 else depth
  IPNetwork.ipNetwork ipAcc depth

/-- What `_generate_children` yields for a data record. -/
def emitNetwork (limit node depth ipAcc : ℕ) : Except Exc (IPNetwork × Record) := do
  return (← r.leafNetwork depth ipAcc, ← r.resolveDataPointer limit node)

/-- `_generate_children`. -/
def generateChildren (limit node depth ipAcc : ℕ) : Gen Exc (IPNetwork × Record) :=
  .await r.metadata.nodeCount.asNum fun nodeCount =>
    r.generateWith (r.emitNetwork limit) nodeCount limit node depth ipAcc

/-- `__iter__`, run until it ends or raises. -/
def iter (limit : ℕ) : Gen Exc (IPNetwork × Record) := r.generateChildren limit 0 0 0

variable {r} {n : ℕ}

/-- The values `_generate_children` skips, by the path that leads to them. -/
def aliasSkip (r : Reader) (node : ℕ) (path : List Bool) : Bool :=
  decide (ofBits path ≠ 0 ∧ node = r.ipv4Start)

/-- The recursion is the traversal of the search tree, with the prefix and the depth for a path. -/
theorem generateWith_eq {α : Type} (emit : ℕ → ℕ → ℕ → Except Exc α) (limit node : ℕ)
    (path : List Bool) :
    r.generateWith emit (.int n) limit node path.length (ofBits path) =
      ((r.tree n).leaves r.aliasSkip .recursionError limit node path).mapM
        fun x => emit x.1 x.2.length (ofBits x.2) := by
  induction limit generalizing node path with
  | zero => rfl
  | succ limit ih =>
    have hleft := fun left => ih left (path ++ [false])
    have hright := fun right => ih right (path ++ [true])
    simp only [List.length_append, List.length_singleton] at hleft hright
    rw [generateWith]
    split_ifs with hs hgt hlt
    · rw [BitTrie.leaves_of_skip (by simpa [aliasSkip] using hs)]
      rfl
    · rw [BitTrie.leaves_of_gt (by simpa [aliasSkip] using hs) (by simpa using hgt),
        Gen.mapM_yield]
    · rw [BitTrie.leaves_of_lt (by simpa [aliasSkip] using hs) (by simpa using hlt),
        Gen.mapM_await]
      simp only [Gen.mapM_andThen, Gen.mapM_await, ofBits_right]
      simp only [ofBits_left, hleft, hright]
      rfl
    · have heq : node = (r.tree n).count := by
        simp only [PyNum.lt_int, Nat.cast_lt, decide_eq_true_eq] at hgt hlt
        rw [tree_count]
        omega
      rw [BitTrie.leaves_of_eq heq]
      rfl

/-- **Iteration renders the traversal of the search tree.** -/
theorem iter_eq (hn : r.HasNodeCount n) (limit : ℕ) :
    r.iter limit =
      ((r.tree n).leaves r.aliasSkip .recursionError limit 0 []).mapM
        fun x => r.emitNetwork limit x.1 x.2.length (ofBits x.2) := by
  unfold iter generateChildren
  unfold HasNodeCount at hn
  rw [hn, Gen.await_ok]
  exact generateWith_eq _ limit 0 []

/-! ## Rendering a leaf -/

/-- `net` is the network of the addresses that begin with `path`, in a tree of `bits` bits. -/
structure Renders (bits : ℕ) (net : IPNetwork) (path : List Bool) : Prop where
  width : net.version.bits ≤ bits
  length : path.length ≤ bits
  address : net.networkAddress = ofBits path * 2 ^ (bits - path.length)
  depth : net.prefixlen + bits = path.length + net.version.bits
  version : net.networkAddress < 2 ^ 32 → net.version = .v4

/-- Where rendering succeeds: an IPv4 network needs a prefix of no fewer than 96 bits, and the
address that follows the IPv4 addresses is taken for one of them. -/
def Renderable (bits : ℕ) (path : List Bool) : Prop :=
  bits = 128 → (ofBits path = 0 → 96 ≤ path.length) ∧
    ofBits path * 2 ^ (128 - path.length) ≠ 2 ^ 32

instance (bits : ℕ) (path : List Bool) : Decidable (Renderable bits path) :=
  inferInstanceAs (Decidable (bits = 128 → _ ∧ _))

theorem leafNetwork_eq (path : List Bool) :
    r.leafNetwork path.length (ofBits path) =
      if r.bits < path.length then .error .valueError else
        IPNetwork.ipNetwork (ofBits path * 2 ^ (r.bits - path.length))
          (if ofBits path * 2 ^ (r.bits - path.length) ≤ 2 ^ 32 ∧ r.bits = 128 then
            (path.length : ℤ) - 96 else path.length) := by
  rw [leafNetwork, ← treeVersion_bits, Nat.shiftLeft_eq]
  rfl

theorem bits_eq (r : Reader) : r.bits = 32 ∨ r.bits = 128 := by
  rw [treeVersion_bits]
  split_ifs
  · exact .inr rfl
  · exact .inl rfl

/-- **Rendering succeeds on renderable paths, and on no others**, and then renders the path. -/
theorem leafNetwork_spec (r : Reader) (path : List Bool) :
    if path.length ≤ r.bits ∧ Renderable r.bits path then
      ∃ net, r.leafNetwork path.length (ofBits path) = .ok net ∧ Renders r.bits net path
    else r.leafNetwork path.length (ofBits path) = .error .valueError := by
  rw [leafNetwork_eq]
  by_cases hlen : path.length ≤ r.bits
  swap
  · rw [if_neg (fun h => hlen h.1), if_pos (by omega)]
  have hlt := block_lt hlen
  have hdvd : 2 ^ (r.bits - path.length) ∣ ofBits path * 2 ^ (r.bits - path.length) :=
    Dvd.intro_left _ rfl
  rw [if_neg (show ¬ r.bits < path.length by omega)]
  rcases r.bits_eq with hb | hb
  · rw [hb] at hlen hlt hdvd ⊢
    have hren : Renderable 32 path := fun h => absurd h (by norm_num)
    rw [if_pos ⟨hlen, hren⟩, if_neg (by simp), IPNetwork.ipNetwork_v4 hlt hlen hdvd]
    exact ⟨_, rfl, le_rfl, hlen, rfl, rfl, fun _ => rfl⟩
  rw [hb] at hlen hlt hdvd ⊢
  by_cases hle : ofBits path * 2 ^ (128 - path.length) ≤ 2 ^ 32
  swap
  -- an IPv6 network
  · have hren : Renderable 128 path := fun _ => ⟨fun h => absurd hle (by simp [h]), by omega⟩
    rw [if_pos ⟨hlen, hren⟩, if_neg (fun h => hle h.1),
      IPNetwork.ipNetwork_v6 (by omega) hlt hlen hdvd]
    exact ⟨_, rfl, le_rfl, hlen, rfl, rfl, fun h => absurd h (by simp only; omega)⟩
  rw [if_pos (show _ ∧ (128 : ℕ) = 128 from ⟨hle, rfl⟩)]
  by_cases hshort : path.length < 96
  -- the prefix length would be negative
  · have hzero : ofBits path = 0 := by
      by_contra hne
      have hpow : 2 ^ 33 ≤ 2 ^ (128 - path.length) := Nat.pow_le_pow_right (by norm_num) (by omega)
      have hmul : 1 * 2 ^ (128 - path.length) ≤ ofBits path * 2 ^ (128 - path.length) :=
        Nat.mul_le_mul_right _ (Nat.pos_of_ne_zero hne)
      omega
    rw [if_neg (fun h => absurd ((h.2 rfl).1 hzero) (by omega)),
      IPNetwork.ipNetwork_of_neg (by omega)]
  have hcast : (path.length : ℤ) - 96 = (path.length - 96 : ℕ) := by omega
  have hsub : 32 - (path.length - 96) = 128 - path.length := by omega
  rw [hcast]
  by_cases heq : ofBits path * 2 ^ (128 - path.length) = 2 ^ 32
  -- a prefix of at most 32 bits leaves host bits
  · have hnot : ¬ 2 ^ (128 - (path.length - 96)) ∣ 2 ^ 32 := by
      rw [Nat.pow_dvd_pow_iff_le_right (by norm_num)]
      omega
    rw [if_neg (fun h => (h.2 rfl).2 heq), heq,
      IPNetwork.ipNetwork_of_not_dvd le_rfl (by norm_num) (by omega) hnot]
  -- an IPv4 network
  · have hren : Renderable 128 path := fun _ => ⟨fun _ => by omega, heq⟩
    rw [if_pos ⟨hlen, hren⟩, IPNetwork.ipNetwork_v4 (by omega) (by omega) (by rw [hsub]; exact hdvd)]
    exact ⟨_, rfl, by simp, hlen, rfl, by simp only [IPVersion.bits_v4]; omega, fun _ => rfl⟩

theorem renders_of_leafNetwork {path : List Bool} {net : IPNetwork}
    (h : r.leafNetwork path.length (ofBits path) = .ok net) : Renders r.bits net path := by
  have hspec := r.leafNetwork_spec path
  split_ifs at hspec
  · obtain ⟨net', hnet, hrender⟩ := hspec
    rw [hnet] at h
    cases h
    exact hrender
  · rw [hspec] at h
    cases h

theorem emitNetwork_eq_ok {limit node : ℕ} {path : List Bool} {x : IPNetwork × Record} :
    r.emitNetwork limit node path.length (ofBits path) = .ok x ↔
      r.leafNetwork path.length (ofBits path) = .ok x.1 ∧
        r.resolveDataPointer limit node = .ok x.2 := by
  unfold emitNetwork
  cases r.leafNetwork path.length (ofBits path) with
  | error e => simp
  | ok net =>
    cases r.resolveDataPointer limit node with
    | error e => simp
    | ok record =>
      obtain ⟨net', record'⟩ := x
      simp

/-- The addresses of a rendered network are those whose bits begin with the path. -/
theorem Renders.prefix_iff {bits : ℕ} {net : IPNetwork} {path : List Bool}
    (h : Renders bits net path) {ip : ℕ} (hip : ip < 2 ^ bits) :
    path <+: toBits bits ip ↔ net.networkAddress ≤ ip ∧ ip ≤ net.lastAddress := by
  have hsize : net.version.bits - net.prefixlen = bits - path.length := by
    have := h.depth
    have := net.prefixlen_le
    omega
  have hpos : 0 < 2 ^ (bits - path.length) := by positivity
  rw [prefix_toBits_iff h.length hip, Nat.div_eq_iff hpos, IPNetwork.lastAddress, h.address, hsize]
  omega

theorem Renders.lt_of_before {bits : ℕ} {net net' : IPNetwork} {path path' : List Bool}
    (h : Renders bits net path) (h' : Renders bits net' path') (hb : Before path path') :
    net.lastAddress < net'.networkAddress := by
  have hle := hb.block_le h.length h'.length
  have hsize : net.version.bits - net.prefixlen = bits - path.length := by
    have := h.depth
    have := net.prefixlen_le
    omega
  have hpos : 0 < 2 ^ (bits - path.length) := by positivity
  rw [IPNetwork.lastAddress, h.address, h'.address, hsize]
  rw [Nat.add_mul, Nat.one_mul] at hle
  omega

/-! ## Soundness -/

variable {buffer : Buffer} {filename : String} {limit₀ : ℕ}

theorem mem_iter (hn : r.HasNodeCount n) {limit : ℕ} {x : IPNetwork × Record}
    (hx : x ∈ (r.iter limit).yields) :
    ∃ leaf path, (r.tree n).Reaches 0 path leaf ∧ n < leaf ∧ Renders r.bits x.1 path ∧
      r.resolveDataPointer limit leaf = .ok x.2 := by
  rw [iter_eq hn] at hx
  obtain ⟨⟨leaf, path⟩, hmem, hemit⟩ := Gen.mem_mapM hx
  obtain ⟨q, hq, hreach, hlt, -⟩ := BitTrie.mem_leaves hmem
  obtain rfl : path = q := hq
  obtain ⟨hnet, hrec⟩ := emitNetwork_eq_ok.mp hemit
  exact ⟨leaf, path, hreach, hlt, renders_of_leafNetwork hnet, hrec⟩

theorem iter_pairwise (hn : r.HasNodeCount n) (limit : ℕ) :
    (r.iter limit).yields.Pairwise fun x y => x.1.lastAddress < y.1.networkAddress := by
  rw [iter_eq hn]
  refine Gen.mapM_pairwise (BitTrie.leaves_before _ _ _ _ _ _) fun x _ y _ b b' hxy hb hb' => ?_
  exact (renders_of_leafNetwork (emitNetwork_eq_ok.mp hb).1).lt_of_before
    (renders_of_leafNetwork (emitNetwork_eq_ok.mp hb').1) hxy

/-- **Iteration is sound against lookup and ordered.** Whatever the search tree: for every address
of a network that is yielded, the lookup returns the record and the prefix length of the network;
and each network ends, in the address space of the database, before the ones yielded after it
begin. -/
theorem iter_sound (ho : Opened buffer filename limit₀ r n) (limit : ℕ) :
    (∀ x ∈ (r.iter limit).yields, ∀ a : IPAddress, x.1.Contains a →
      r.getWithPrefixLen limit a = .ok (some x.2, x.1.prefixlen)) ∧
    (r.iter limit).yields.Pairwise fun x y => x.1.lastAddress < y.1.networkAddress := by
  refine ⟨?_, iter_pairwise ho.nodeCount limit⟩
  intro x hx a ⟨hver, hlo, hhi⟩
  obtain ⟨leaf, path, hreach, hlt, hrender, hrec⟩ := mem_iter ho.nodeCount hx
  have hwidth : a.version.bits ≤ r.bits := hver ▸ hrender.width
  have hip : a.ip < 2 ^ r.bits :=
    lt_of_lt_of_le a.ip_lt (Nat.pow_le_pow_right (by norm_num) hwidth)
  have hwalk := hreach.walk (Nat.le_of_lt hlt) ((hrender.prefix_iff hip).mpr ⟨hlo, hhi⟩)
  have hans : r.answer n limit (leaf, path.length) = .ok (some x.2, path.length) := by
    simp only [answer]
    rw [if_neg (by omega), if_neg (by omega), hrec, Except.ok_bind]
  rw [ho.getWithPrefixLen_eq hwidth, hwalk, Except.ok_bind, hans]
  have hdepth := hrender.depth
  have hle := hrender.width
  simp only [Except.map, Except.ok.injEq, Prod.mk.injEq, true_and, hver]
  omega

/-- The traversal of the samples. Where the records are shared, the right one is skipped. -/
theorem sample_leaves (shared : Bool) {limit : ℕ} (hl : 2 ≤ limit) :
    ((Sample.database shared).reader.tree 1).leaves (Sample.database shared).reader.aliasSkip
      .recursionError limit 0 [] = ⟨[(17, [!shared])], none⟩ := by
  obtain ⟨k, rfl⟩ := Nat.exists_eq_add_of_le' hl
  have hroot : (Sample.database shared).reader.aliasSkip 0 [] = false := rfl
  have hleft : (Sample.database shared).reader.aliasSkip (Sample.record shared false) [false] =
      false := rfl
  rw [BitTrie.leaves_of_lt hroot (by simp), Sample.tree_child, Sample.tree_child, Gen.await_ok,
    Gen.await_ok, List.nil_append, List.nil_append]
  cases shared with
  | false =>
    have hright : (Sample.database false).reader.aliasSkip 17 [true] = false := by
      simp only [aliasSkip, Sample.ipv4Start_eq]
      decide
    have hempty : Sample.record false false =
        ((Sample.database false).reader.tree 1).count := rfl
    rw [BitTrie.leaves_of_eq hempty, show Sample.record false true = 17 from rfl,
      BitTrie.leaves_of_gt hright (by simp)]
    rfl
  | true =>
    have hright : (Sample.database true).reader.aliasSkip 17 [true] := by
      simp only [aliasSkip, Sample.ipv4Start_eq]
      decide
    rw [BitTrie.leaves_of_gt hleft (by simp; decide), show Sample.record true true = 17 from rfl,
      BitTrie.leaves_of_skip hright]
    rfl

/-- The network `8000::/1` of the sample, and lookups in it. -/
theorem sample_iter : ∃ limit net, net.networkAddress = 2 ^ 127 ∧
    (net, .str "a") ∈ ((Sample.database false).reader.iter limit).yields ∧
      ∀ a, net.Contains a → (Sample.database false).reader.getWithPrefixLen limit a =
        .ok (some (.str "a"), net.prefixlen) := by
  obtain ⟨limit₀, ho⟩ := Sample.opened false
  obtain ⟨limit, hlimit, hres⟩ :=
    ((Filter.eventually_ge_atTop 2).and (Sample.resolve_seventeen false)).exists
  have hb : (Sample.database false).reader.bits = 128 := by
    rw [treeVersion_bits, if_pos (Sample.ipVersion_eq false)]
  have hspec := (Sample.database false).reader.leafNetwork_spec [true]
  rw [if_pos (by rw [hb]; decide)] at hspec
  obtain ⟨net, hnet, hrender⟩ := hspec
  have hmem : (net, .str "a") ∈ ((Sample.database false).reader.iter limit).yields := by
    have hyield : (⟨[(17, [true])], none⟩ : Gen Exc (ℕ × List Bool)) = .yield (17, [true]) := rfl
    have hemit : (Sample.database false).reader.emitNetwork limit 17 [true].length
        (ofBits [true]) = .ok (net, .str "a") := emitNetwork_eq_ok.mpr ⟨hnet, hres⟩
    rw [iter_eq ho.nodeCount, sample_leaves false hlimit, Bool.not_false, hyield, Gen.mapM_yield,
      hemit]
    simp
  refine ⟨limit, net, ?_, hmem, (iter_sound ho limit).1 _ hmem⟩
  rw [hrender.address, hb]
  rfl

end Reader

end MaxMindDB
