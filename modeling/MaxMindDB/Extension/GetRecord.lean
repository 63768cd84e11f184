import MaxMindDB.Answers

/-!
# Lookups of the C extension

`get_record` of `maxminddb.c`. libmaxminddb is a parameter: what its lookup and its decoding of an
entry report. In a database of IPv6 addresses the netmask it reports for an IPv4 address counts
from the first of 128 bits, and `get_record` takes the first 96 off again.

`shortcut_agrees`: the Python reader's IPv4 start node gives IPv4 addresses the answers of the walk
from node 0, and `get_record` the same prefix lengths.
-/

namespace MaxMindDB

open Octets BitString

namespace Extension

/-! ## `get_record` -/

/-- Failures of libmaxminddb. -/
inductive MMDBError where
  | ipv6LookupInIPv4Database
  | other (status : ℕ)

/-- Exceptions set when a function of the extension returns `NULL`. -/
inductive PyErr where
  | valueError
  | runtimeError
  | maxMindDBError
  | noMemory
  /-- Set by a function that was called. -/
  | propagated

/-- `MMDB_lookup_result_s`. -/
structure LookupResult (Entry : Type) where
  foundEntry : Bool
  entry : Entry
  netmask : ℕ

/-- The part of libmaxminddb a lookup uses, for one open database. -/
structure LibMaxMindDB (Entry Data : Type) where
  ipVersion : ℕ
  lookupSockaddr : IPAddress → Except MMDBError (LookupResult Entry)
  getEntryDataList : Entry → Except MMDBError Data

variable {Entry Data Value : Type}

/-- The record of a lookup result: `None` when no entry was found, else the converted entry. -/
def entryRecord (lib : LibMaxMindDB Entry Data) (fromEntryDataList : Data → Except PyErr Value)
    (result : LookupResult Entry) : Except PyErr (Option Value) :=
  if !result.foundEntry then .ok none
  else match lib.getEntryDataList result.entry with
    | .error _ => .error .maxMindDBError
    | .ok data => fromEntryDataList data >>= fun record => .ok (some record)

/-- `get_record` on a parsed address: the record and the prefix length, or the exception set.
`acquired` is the outcome of taking the lock, `open_` whether `mmdb` is not `NULL`. -/
def getRecord (lib : LibMaxMindDB Entry Data) (fromEntryDataList : Data → Except PyErr Value)
    (acquired open_ : Bool) (a : IPAddress) : Except PyErr (Option Value × ℕ) :=
  if !acquired then .error .runtimeError
  else if !open_ then .error .valueError
  else match lib.lookupSockaddr a with
    | .error .ipv6LookupInIPv4Database => .error .valueError
    | .error (.other _) => .error .maxMindDBError
    | .ok result =>
      let prefixLen := result.netmask
      let prefixLen :=
        if a.version = .v4 ∧ lib.ipVersion = 6 then
          -- without an IPv4 subtree the prefix length is 0
          if 96 ≤ prefixLen then prefixLen - 96 else 0
        else prefixLen
      entryRecord lib fromEntryDataList result >>= fun record => .ok (record, prefixLen)

/-- What `get_record` returns once the lookup of an IPv4 address in an IPv6 database succeeds. -/
theorem getRecord_of_lookup {lib : LibMaxMindDB Entry Data} {a : IPAddress}
    {result : LookupResult Entry} (hl : lib.lookupSockaddr a = .ok result) (hv : a.version = .v4)
    (h6 : lib.ipVersion = 6) (fromEntryDataList : Data → Except PyErr Value) :
    getRecord lib fromEntryDataList true true a =
      (entryRecord lib fromEntryDataList result).map fun record => (record, result.netmask - 96) := by
  have hpre : (if a.version = .v4 ∧ lib.ipVersion = 6 then
      if 96 ≤ result.netmask then result.netmask - 96 else 0 else result.netmask) =
        result.netmask - 96 := by
    rw [if_pos ⟨hv, h6⟩]
    split_ifs <;> omega
  unfold getRecord
  simp only [hl, hpre, Bool.not_true, Bool.false_eq_true, if_false]
  cases entryRecord lib fromEntryDataList result <;> rfl

/-! ## The shortcut -/

open Reader

/-- **The IPv4 start node is a shortcut of the plain walk.** In an opened database of IPv6
addresses, the lookup of a 128-bit address is the walk from node 0; the lookup of an IPv4 address
answers what that of its 128-bit address answers, the prefix length less 96 (and not below zero),
and raises what that raises; and `get_record`, over a libmaxminddb whose netmask is the number of
bits of the 128-bit address walked, reports the prefix length that the Python lookup finds. -/
theorem shortcut_agrees {buffer : Buffer} {filename : String} {limit₀ n : ℕ} {r : Reader}
    (hnew : Reader.new buffer filename limit₀ = .ok r) (hn : r.HasNodeCount n)
    (h6 : r.metadata.ipVersion.eqInt 6) {ip : ℕ} (h : ip < 2 ^ 32) :
    (∀ limit, r.getWithPrefixLen limit (.embedV4 ip h) =
        (r.tree n).walk (IPAddress.embedV4 ip h).toBits 0 >>= r.answer n limit ∧
      r.getWithPrefixLen limit (.ofV4 ip h) =
        (r.getWithPrefixLen limit (.embedV4 ip h)).map fun x => (x.1, x.2 - 96)) ∧
    (∀ (Entry Data Value : Type) (lib : LibMaxMindDB Entry Data)
      (fromEntryDataList : Data → Except PyErr Value) (result : LookupResult Entry) (pointer p : ℕ),
      lib.ipVersion = 6 → lib.lookupSockaddr (.ofV4 ip h) = .ok result →
      (∀ leaf k, (r.tree n).walk (IPAddress.embedV4 ip h).toBits 0 = .ok (leaf, k) →
        result.netmask = k) →
      r.findAddressInTree (IPAddress.ofV4 ip h).packed = .ok (pointer, p) →
      getRecord lib fromEntryDataList true true (.ofV4 ip h) =
        (entryRecord lib fromEntryDataList result).map fun record => (record, p)) := by
  obtain ⟨k, hk⟩ := walk_ipv4Start hnew hn h6
  have hstart4 : r.startNode (IPAddress.ofV4 ip h).version.bits = r.ipv4Start := by
    simp [startNode, h6, IPAddress.ofV4]
  have hstart6 : r.startNode (IPAddress.embedV4 ip h).version.bits = 0 := by
    simp [startNode, IPAddress.embedV4]
  have hnot4 : ¬ r.metadata.ipVersion.eqInt 4 := fun h4 =>
    absurd (Record.eqInt_unique h4 h6) (by norm_num)
  constructor
  · intro limit
    have hplain : r.getWithPrefixLen limit (.embedV4 ip h) =
        (r.tree n).walk (IPAddress.embedV4 ip h).toBits 0 >>= r.answer n limit := by
      rw [getWithPrefixLen_eq hn, hstart6, if_neg fun hv => hnot4 hv.2]
    refine ⟨hplain, ?_⟩
    rw [hplain, getWithPrefixLen_eq hn, hstart4, if_neg (fun hv => hnot4 hv.2), walk_embedV4 hk h]
    cases (r.tree n).walk (IPAddress.embedV4 ip h).toBits 0 with
    | error e => rfl
    | ok p => exact answer_sub r n limit p 96
  · intro Entry Data Value lib convert result pointer p hv hlook hmask hfind
    rw [getRecord_of_lookup hlook rfl hv]
    rw [findAddressInTree_eq hn, hstart4, walk_embedV4 hk h] at hfind
    cases hw : (r.tree n).walk (IPAddress.embedV4 ip h).toBits 0 with
    | error e => rw [hw] at hfind; cases hfind
    | ok q =>
      obtain ⟨leaf, i⟩ := q
      rw [hmask leaf i hw]
      rw [hw] at hfind
      simp only [Except.ok_bind] at hfind
      split_ifs at hfind <;> cases hfind <;> rfl

/-! `1.2.3.4` in the sample, over a libmaxminddb that walks one bit of its 128 bits. -/

def sampleLib : LibMaxMindDB ℕ String where
  ipVersion := 6
  lookupSockaddr _ := .ok ⟨true, 17, 1⟩
  getEntryDataList _ := .ok "a"

theorem sample_shortcut :
    (∀ᶠ limit in Filter.atTop, (Sample.database true).reader.getWithPrefixLen limit
      (.ofV4 0x01020304 (by decide)) = .ok (some (.str "a"), 0)) ∧
    getRecord sampleLib .ok true true (.ofV4 0x01020304 (by decide)) = .ok (some "a", 0) := by
  obtain ⟨limit, ho⟩ := Sample.opened true
  have h6 := Sample.ipVersion_eq true
  have hip : 0x01020304 < 2 ^ 32 := by decide
  have hwalk : ((Sample.database true).reader.tree 1).walk
      (IPAddress.embedV4 0x01020304 hip).toBits 0 = .ok (17, 1) := by
    rw [toBits_embedV4]
    exact Sample.tree_walk true false _
  obtain ⟨hpython, hextension⟩ := shortcut_agrees ho.new ho.nodeCount h6 hip
  constructor
  · filter_upwards [Sample.resolve_seventeen true] with limit hlimit
    obtain ⟨hplain, hshortcut⟩ := hpython limit
    rw [hshortcut, hplain, hwalk, Except.ok_bind, answer, if_neg (by decide), if_neg (by decide), hlimit]
    rfl
  refine (hextension ℕ String String sampleLib .ok ⟨true, 17, 1⟩ 17 0 rfl rfl ?_ ?_).trans rfl
  · intro leaf k hw
    rw [hwalk] at hw
    cases hw
    rfl
  · have hstart : (Sample.database true).reader.startNode
        (IPAddress.ofV4 0x01020304 hip).version.bits = 17 := by
      rw [startNode, if_pos ⟨h6, rfl⟩, Sample.ipv4Start_eq]
      rfl
    rw [findAddressInTree_eq ho.nodeCount, hstart, BitTrie.walk_of_le _ (by simp)]
    rfl

end Extension

end MaxMindDB
