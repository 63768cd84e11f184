import MaxMindDB.CallGraph
import MaxMindDB.Corruption
import MaxMindDB.Handle

/-!
# Offsets before the buffer

Python counts a negative offset into bytes or a memory map from the end, and a `FileBuffer` cannot read
there. The model stops at one, with an exception of its own.

A lookup never comes to one (`getWithPrefixLen_ne`), and iteration does only where `node_count` is a
negative integer, so that the root is a data record (`iter_raised_ne`).
-/

namespace MaxMindDB

open Octets Raising Except

theorem not_foreign_of_plain (e : Exc) (h : e.Plain) : ¬ e.Foreign := by
  cases e <;> first | exact id | exact fun _ => h

/-- `node_count` is not a negative integer. -/
def Metadata.NodeCountNonneg (m : Metadata) : Prop := ∀ n : ℤ, m.nodeCount.asNum = .ok (.int n) → 0 ≤ n

namespace Reader

variable {r : Reader} {f : Bytes} {buffer : Buffer} {filename : String} {limit limit₀ : ℕ}

/-! ## Calls that decode nothing -/

theorem raisesOnly_of_plain {α : Type} {x : Except Exc α} (h : RaisesOnly Exc.Plain x) :
    RaisesOnly (fun e => ¬ e.Foreign) x := h.mono not_foreign_of_plain

theorem raisesOnly_readNode (r : Reader) (node index : ℕ) :
    RaisesOnly (fun e => ¬ e.Foreign) (r.readNode node index) := by
  have slice : ∀ {α : Type} (base : PyNum) (i : ℤ) (size : ℕ) {k : Bytes → Except Exc α},
      (∀ bs, RaisesOnly Exc.Plain (k bs)) → RaisesOnly (fun e => ¬ e.Foreign)
        (base.add (.int i) >>= fun offset => r.sliceAt offset size >>= k) := fun base i size k hk =>
    raisesOnly_of_plain ((raisesOnly_arith _ _).bind fun _ => (raisesOnly_sliceAt _ _ _).bind hk)
  unfold readNode
  refine (raisesOnly_of_plain (raisesOnly_nodeByteSize _)).bind fun size =>
    (raisesOnly_of_plain (raisesOnly_arith _ _)).bind fun base => ?_
  dsimp only
  split_ifs
  · exact slice _ _ _ fun bs => raisesOnly_unpack _ _
  · refine slice _ _ _ fun bs => ?_
    cases bs with
    | nil => exact raisesOnly_error trivial
    | cons first rest => exact raisesOnly_unpack _ _
  · refine slice _ _ _ fun bs => ?_
    cases bs.getLast? with
    | none => exact raisesOnly_error trivial
    | some last => exact raisesOnly_unpack _ _
  · exact slice _ _ _ fun bs => raisesOnly_unpack _ _
  · exact (raisesOnly_of_plain (raisesOnly_formatted _)).bind fun _ => raisesOnly_error id

theorem raisesOnly_findLoop (nodeCount : PyNum) (packed : Bytes) (bitCount turns node i : ℕ) :
    RaisesOnly (fun e => ¬ e.Foreign) (r.findLoop nodeCount packed bitCount turns node i) := by
  induction turns generalizing node i with
  | zero => exact raisesOnly_ok
  | succ turns ih =>
    rw [findLoop]
    split_ifs
    · exact (raisesOnly_readNode r _ _).bind fun _ => ih _ _
    · exact raisesOnly_ok

theorem raisesOnly_ipNetwork (address : ℕ) (prefixlen : ℤ) :
    RaisesOnly Exc.Plain (IPNetwork.ipNetwork address prefixlen) := by
  have hversion : ∀ version x, IPNetwork.ofVersion version address prefixlen = some x →
      RaisesOnly Exc.Plain x := by
    intro version x h
    unfold IPNetwork.ofVersion at h
    split_ifs at h
    · cases h
      exact raisesOnly_ok
    · cases h
      exact raisesOnly_error trivial
  unfold IPNetwork.ipNetwork
  split
  · next h => exact hversion _ _ h
  · split
    · next h => exact hversion _ _ h
    · exact raisesOnly_error trivial

theorem raisesOnly_leafNetwork (r : Reader) (depth ipAcc : ℕ) :
    RaisesOnly Exc.Plain (r.leafNetwork depth ipAcc) := by
  unfold leafNetwork
  extract_lets bits
  split_ifs
  · exact raisesOnly_error trivial
  · exact raisesOnly_ipNetwork _ _

/-! ## Calls that decode -/

theorem decodeAt_ne (hb : r.buffer.toSliceable = .ofBytes f) {resolved : PyNum}
    (ho : ∀ o, resolved = .int o → 0 ≤ o ∧ ∃ base : ℕ, r.decoderBase = .int base) :
    r.decodeAt limit resolved ≠ .error .negativeOffset := by
  unfold decodeAt
  cases resolved with
  | float x => nofun
  | int o =>
    obtain ⟨hpos, base, hbase⟩ := ho o rfl
    obtain ⟨offset, rfl⟩ := Int.eq_ofNat_of_zero_le hpos
    rw [hb, hbase]
    exact decode_ne_error (e := .negativeOffset) trivial nofun limit

theorem resolveDataPointer_ne (hb : r.buffer.toSliceable = .ofBytes f) {pointer : ℕ}
    (ho : ∀ o, r.dataOffset pointer = .ok (.int o) → 0 ≤ o ∧ ∃ base : ℕ, r.decoderBase = .int base) :
    r.resolveDataPointer limit pointer ≠ .error .negativeOffset := by
  rw [resolveDataPointer_eq]
  cases hresolved : r.dataOffset pointer with
  | error e =>
    rintro ⟨⟩
    exact raisesOnly_dataOffset r pointer _ hresolved
  | ok resolved =>
    rw [ok_bind]
    split_ifs
    · nofun
    · have hne : r.decodeAt limit resolved ≠ .error .negativeOffset :=
        decodeAt_ne hb fun o heq => ho o (heq ▸ hresolved)
      cases hdecode : r.decodeAt limit resolved with
      | error e =>
        rintro ⟨⟩
        exact hne hdecode
      | ok x => nofun

/-- **A lookup does not stop.** -/
theorem getWithPrefixLen_ne (hnew : Reader.new buffer filename limit₀ = .ok r)
    (hb : r.buffer.toSliceable = .ofBytes f) (limit : ℕ) (a : IPAddress) :
    r.getWithPrefixLen limit a ≠ .error .negativeOffset := by
  intro h
  by_cases hv : r.Supports a
  · cases hn : r.metadata.nodeCount.asNum with
    | error e =>
      unfold getWithPrefixLen findAddressInTree at h
      rw [if_neg hv, hn] at h
      cases h
      exact raisesOnly_asNum _ _ hn
    | ok nodeCount =>
      have hfst := congrArg (Except.map Prod.fst) h
      rw [getWithPrefixLen_of_nodeCount hv hn] at hfst
      cases hloop : r.findLoop nodeCount a.packed a.version.bits a.version.bits
          (r.startNode a.version.bits) 0 with
      | error e =>
        rw [hloop] at hfst
        cases hfst
        exact raisesOnly_findLoop _ _ _ _ _ _ _ hloop trivial
      | ok p =>
        obtain ⟨leaf, i⟩ := p
        rw [hloop] at hfst
        simp only [Except.map, ok_bind] at hfst
        split_ifs at hfst with heq hlt h0
        case neg => cases hfst
        have hne : r.resolveDataPointer limit leaf ≠ .error .negativeOffset :=
          resolveDataPointer_ne hb fun o ho => dataOffset_nonneg hnew hn hloop hlt h0 ho
        cases hresolve : r.resolveDataPointer limit leaf with
        | ok v =>
          rw [hresolve] at hfst
          cases hfst
        | error e =>
          rw [hresolve] at hfst
          cases hfst
          exact hne hresolve
  · unfold getWithPrefixLen at h
    rw [if_pos (not_not.mp hv)] at h
    cases h

/-! ## Iteration -/

/-- Iteration is at the root, or has read a record. -/
theorem generateWith_raised_ne {α : Type} {emit : ℕ → ℕ → ℕ → Except Exc α} {nodeCount : PyNum}
    (hemit : ∀ (node depth ipAcc : ℕ), nodeCount.lt (.int node) → node = 0 ∨ r.HasRead nodeCount →
      emit node depth ipAcc ≠ .error .negativeOffset)
    (limit : ℕ) {node : ℕ} (depth ipAcc : ℕ) (hnode : node = 0 ∨ r.HasRead nodeCount) :
    (r.generateWith emit nodeCount limit node depth ipAcc).raised ≠ some .negativeOffset := by
  have hdone : (none : Option Exc) ≠ some .negativeOffset := fun h => by cases h
  induction limit generalizing node depth ipAcc with
  | zero =>
    rw [generateWith, Gen.raise_raised]
    exact fun h => by cases h
  | succ limit ih =>
    have hread : ∀ index, r.readNode node index ≠ .error .negativeOffset :=
      fun index h => raisesOnly_readNode r node index _ h trivial
    rw [generateWith]
    split_ifs with hskip hgt hlt
    · exact hdone
    · exact Gen.await_raised_ne (hemit node depth ipAcc hgt hnode) fun _ _ => hdone
    · refine Gen.await_raised_ne (hread 0) fun left hleft => Gen.andThen_raised_ne ?_ ?_
      · exact ih _ _ (.inr ⟨node, 0, left, hleft, .inl hlt⟩)
      · exact Gen.await_raised_ne (hread 1) fun right hright =>
          ih _ _ (.inr ⟨node, 1, right, hright, .inl hlt⟩)
    · exact hdone

/-- **Nor does iteration**, where `node_count` is not negative. -/
theorem iter_raised_ne (hnew : Reader.new buffer filename limit₀ = .ok r)
    (hb : r.buffer.toSliceable = .ofBytes f) (hcount : r.metadata.NodeCountNonneg) (limit : ℕ) :
    (r.iter limit).raised ≠ some .negativeOffset := by
  obtain ⟨start, -, hload⟩ := load_of_new hnew
  obtain ⟨-, ⟨size, hsize, hbase⟩, -⟩ := load_cases hload
  refine Gen.await_raised_ne (fun h => raisesOnly_asNum _ _ h) fun nodeCount hn =>
    generateWith_raised_ne (fun node depth ipAcc hgt hnode => ?_) limit 0 0 (.inl rfl)
  refine bind_ne_error (fun h => raisesOnly_leafNetwork r _ _ _ h) fun net =>
    bind_ne_error (resolveDataPointer_ne hb fun o ho => ?_) fun _ => nofun
  rcases hnode with rfl | hread
  -- the root is a data record only where fewer than no nodes are counted
  · unfold dataOffset at ho
    rw [hn, ok_bind] at ho
    obtain ⟨difference, hdifference, ho⟩ := bind_eq_ok.mp ho
    obtain ⟨size, -, ho⟩ := bind_eq_ok.mp ho
    obtain ⟨d, s, rfl, rfl, -⟩ := PyNum.arith_eq_int ho
    obtain ⟨l, n, -, rfl, -⟩ := PyNum.arith_eq_int hdifference
    have hpos := hcount n hn
    simp only [PyNum.lt_int, decide_eq_true_eq] at hgt
    omega
  · exact hread.dataOffset_nonneg hn hsize hbase hgt ho

end Reader

theorem toSliceable_of_init {platform : Platform} {mode : ℤ} {f : Bytes} {filename : String} {limit : ℕ}
    {h : Handle} (hi : Reader.init platform mode f filename limit = .ok h) :
    h.reader.buffer.toSliceable = .ofBytes f := by
  obtain ⟨buffer, r, hload, hnew, hh⟩ := Reader.init_eq_ok.mp hi
  obtain ⟨start, -, hload'⟩ := Reader.load_of_new hnew
  have hr : r.buffer = buffer := (Reader.load_cases hload').1
  rw [hh, hr]
  rcases Reader.loadBuffer_cases hload with ⟨-, rfl⟩ | ⟨-, rfl⟩
  · rw [FileBuffer.toBuffer_new]
    rfl
  · rfl

end MaxMindDB
