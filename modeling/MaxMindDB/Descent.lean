import MaxMindDB.CallGraph
import MaxMindDB.NodeReads
import MaxMindDB.Walking
import MaxMindDB.Extension.Descent

/-!
# How deep iteration descends

`_generate_children` calls itself for the two records of every search node it does not skip, and ends at
the first exception. Its calls are no more than the bits of an address and one deep, and the count of its
shift is not negative, exactly when it comes to no search node behind as many bits as an address has
(`staysInside_iff`); nothing else bounds them.

`visitWith` is the recursion of `generateWith` again, yielding the arguments of each call
(`visitWith_raised`).

1. Every call is made for a record that iteration comes to (`mem_visitWith`), and where a call ends without
   an exception, so does iteration over what its record leads to (`finishes_of_raised`).
2. Under bounds that are great enough, what iteration comes to is called (`part_of_comes`), since what lies
   to the left of it has been iterated over.
-/

namespace MaxMindDB

open BitString Except

/-- The arguments of a call of `_generate_children`. -/
structure Position where
  node : ℕ
  depth : ℕ
  ipAcc : ℕ

namespace Reader

variable (r : Reader)

/-- The recursion of `generateWith`, which yields the arguments of each call in the place of what is made
for a data record. -/
def visitWith {α : Type} (emit : ℕ → ℕ → ℕ → Except Exc α) (nodeCount : PyNum) :
    ℕ → ℕ → ℕ → ℕ → Gen Exc Position
  | 0, _, _, _ => .raise .recursionError
  | limit + 1, node, depth, ipAcc =>
    (Gen.yield ⟨node, depth, ipAcc⟩).andThen <|
      if ipAcc ≠ 0 ∧ node = r.ipv4Start then .done
      else if nodeCount.lt (.int node) then .await (emit node depth ipAcc) fun _ => .done
      else if (PyNum.int node).lt nodeCount then
        .await (r.readNode node 0) fun left =>
          let ipAcc := ipAcc <<< 1
          let depth := depth + 1
          (visitWith emit nodeCount limit left depth ipAcc).andThen
            (.await (r.readNode node 1) fun right =>
              visitWith emit nodeCount limit right depth (ipAcc ||| 1))
      else .done

/-- A search node that is not skipped. -/
def Expands (nodeCount : PyNum) (node ipAcc : ℕ) : Prop :=
  ¬ (ipAcc ≠ 0 ∧ node = r.ipv4Start) ∧ ¬ nodeCount.lt (.int node) ∧ (PyNum.int node).lt nodeCount

/-- Iteration over what a record leads to runs to its end: the nodes can be read, and each data record
makes a network and is decoded. -/
inductive Finishes (nodeCount : PyNum) : List Bool → ℕ → Prop where
  | skipped {path : List Bool} {node : ℕ} : ofBits path ≠ 0 ∧ node = r.ipv4Start →
      Finishes nodeCount path node
  | data {path : List Bool} {node limit : ℕ} {item : IPNetwork × Record} :
      ¬ (ofBits path ≠ 0 ∧ node = r.ipv4Start) → nodeCount.lt (.int node) →
      r.emitNetwork limit node path.length (ofBits path) = .ok item → Finishes nodeCount path node
  | search {path : List Bool} {node left right : ℕ} : r.Expands nodeCount node (ofBits path) →
      r.readNode node 0 = .ok left → Finishes nodeCount (path ++ [false]) left →
      r.readNode node 1 = .ok right → Finishes nodeCount (path ++ [true]) right →
      Finishes nodeCount path node
  | empty {path : List Bool} {node : ℕ} : ¬ (ofBits path ≠ 0 ∧ node = r.ipv4Start) →
      ¬ nodeCount.lt (.int node) → ¬ (PyNum.int node).lt nodeCount → Finishes nodeCount path node

/-- Iteration comes to a record along the bits of a path: through search nodes that are not skipped, and
past what lies to the left of it. -/
inductive Comes (nodeCount : PyNum) : List Bool → ℕ → Prop where
  | root : Comes nodeCount [] 0
  | left {path : List Bool} {node left : ℕ} : Comes nodeCount path node →
      r.Expands nodeCount node (ofBits path) → r.readNode node 0 = .ok left →
      Comes nodeCount (path ++ [false]) left
  | right {path : List Bool} {node left right : ℕ} : Comes nodeCount path node →
      r.Expands nodeCount node (ofBits path) → r.readNode node 0 = .ok left →
      r.Finishes nodeCount (path ++ [false]) left → r.readNode node 1 = .ok right →
      Comes nodeCount (path ++ [true]) right

/-- Iteration comes to a search node behind `w` bits, and does not skip it. -/
def LongPath (nodeCount : PyNum) (w : ℕ) : Prop :=
  ∃ path node, path.length = w ∧ r.Comes nodeCount path node ∧ r.Expands nodeCount node (ofBits path)

/-- Whatever bounds the recursion and the decoder: no call is deeper than an address has bits, and the
count of the shift is not negative; a search node at that depth is reported; and the calls are no more
than the bits and one deep. -/
structure StaysInside (nodeCount : PyNum) : Prop where
  depth_le : ∀ limit₀ limit,
    ∀ pos ∈ (r.visitWith (r.emitNetwork limit₀) nodeCount limit 0 0 0).yields, pos.depth ≤ r.bits
  shift_nonneg : ∀ limit₀ limit,
    ∀ pos ∈ (r.visitWith (r.emitNetwork limit₀) nodeCount limit 0 0 0).yields,
      (0 : ℤ) ≤ r.bits - pos.depth
  reported : ∀ limit₀ limit,
    ∀ pos ∈ (r.visitWith (r.emitNetwork limit₀) nodeCount limit 0 0 0).yields, pos.depth = r.bits →
      r.Expands nodeCount pos.node pos.ipAcc →
        ∃ fault, (r.generateWith (r.emitNetwork limit₀) nodeCount limit 0 0 0).raised =
          some (.invalidDatabaseError fault)
  bounded : ∀ limit₀ limit, r.bits < limit →
    r.generateWith (r.emitNetwork limit₀) nodeCount limit 0 0 0 =
      r.generateWith (r.emitNetwork limit₀) nodeCount (r.bits + 1) 0 0 0

variable {r} {nodeCount : PyNum} {path : List Bool} {node w limit limit₀ : ℕ}

/-! ## Calls -/

theorem raised_andThen_congr {ε α β : Type*} {g h : Gen ε α} {g' h' : Gen ε β}
    (hg : g.raised = g'.raised) (hh : h.raised = h'.raised) :
    (g.andThen h).raised = (g'.andThen h').raised := by
  unfold Gen.andThen
  rw [← hg]
  cases g.raised with
  | none => exact hh
  | some e => rfl

theorem raised_await_congr {ε α β γ : Type*} {x : Except ε γ} {k : γ → Gen ε α}
    {k' : γ → Gen ε β} (h : ∀ c, (k c).raised = (k' c).raised) :
    (Gen.await x k).raised = (Gen.await x k').raised := by
  cases x with
  | error e => rfl
  | ok c => exact h c

theorem visitWith_raised {α : Type} (emit : ℕ → ℕ → ℕ → Except Exc α) (limit node depth ipAcc : ℕ) :
    (r.visitWith emit nodeCount limit node depth ipAcc).raised =
      (r.generateWith emit nodeCount limit node depth ipAcc).raised := by
  induction limit generalizing node depth ipAcc with
  | zero => rfl
  | succ limit ih =>
    rw [visitWith, generateWith, Gen.andThen_of_none rfl]
    dsimp only
    split_ifs
    · rfl
    · exact raised_await_congr fun _ => rfl
    · exact raised_await_congr fun left =>
        raised_andThen_congr (ih _ _ _) (raised_await_congr fun right => ih _ _ _)
    · rfl

theorem finishes_of_raised
    (h : (r.generateWith (r.emitNetwork limit₀) nodeCount limit node path.length (ofBits path)).raised =
      none) : r.Finishes nodeCount path node := by
  induction limit generalizing path node with
  | zero => cases h
  | succ limit ih =>
    rw [generateWith] at h
    split_ifs at h with hs hgt hlt
    · exact .skipped hs
    · cases hemit : r.emitNetwork limit₀ node path.length (ofBits path) with
      | error e => rw [hemit] at h; cases h
      | ok item => exact .data hs hgt hemit
    · have hlen : ∀ b, (path ++ [b]).length = path.length + 1 := fun b => by simp
      cases hleft : r.readNode node 0 with
      | error e => rw [hleft] at h; cases h
      | ok left =>
        rw [hleft, Gen.await_ok] at h
        obtain ⟨hl, hr⟩ := Gen.andThen_raised_none.mp h
        rw [ofBits_left, ← hlen false] at hl
        cases hright : r.readNode node 1 with
        | error e => rw [hright] at hr; cases hr
        | ok right =>
          rw [hright, Gen.await_ok, ofBits_right, ← hlen true] at hr
          exact .search ⟨hs, hgt, hlt⟩ hleft (ih hl) hright (ih hr)
    · exact .empty hs hgt hlt

/-- **Every call is made for a record that iteration comes to**, with the length of the path for its depth
and its bits for the accumulated prefix. -/
theorem mem_visitWith {pos : Position} (h : r.Comes nodeCount path node)
    (hpos : pos ∈ (r.visitWith (r.emitNetwork limit₀) nodeCount limit node path.length
      (ofBits path)).yields) :
    ∃ path' node', r.Comes nodeCount path' node' ∧ pos = ⟨node', path'.length, ofBits path'⟩ := by
  induction limit generalizing path node with
  | zero => cases hpos
  | succ limit ih =>
    rw [visitWith] at hpos
    rcases Gen.mem_andThen hpos with hpos | hpos
    · exact ⟨path, node, h, List.mem_singleton.mp hpos⟩
    split_ifs at hpos with hs hgt hlt
    · cases hpos
    · cases hemit : r.emitNetwork limit₀ node path.length (ofBits path) with
      | error e => rw [hemit] at hpos; cases hpos
      | ok x => rw [hemit] at hpos; cases hpos
    · have hexp : r.Expands nodeCount node (ofBits path) := ⟨hs, hgt, hlt⟩
      have hlen : ∀ b, (path ++ [b]).length = path.length + 1 := fun b => by simp
      cases hleft : r.readNode node 0 with
      | error e => rw [hleft] at hpos; cases hpos
      | ok left =>
        rw [hleft, Gen.await_ok] at hpos
        dsimp only at hpos
        rw [ofBits_right, ofBits_left, ← hlen false] at hpos
        cases hraised : (r.visitWith (r.emitNetwork limit₀) nodeCount limit left
            (path ++ [false]).length (ofBits (path ++ [false]))).raised with
        | some e =>
          rw [Gen.andThen_of_some hraised] at hpos
          exact ih (h.left hexp hleft) hpos
        | none =>
          rcases Gen.mem_andThen hpos with hpos | hpos
          · exact ih (h.left hexp hleft) hpos
          · rw [visitWith_raised] at hraised
            cases hright : r.readNode node 1 with
            | error e => rw [hright] at hpos; cases hpos
            | ok right =>
              rw [hright, Gen.await_ok, hlen false, ← hlen true] at hpos
              exact ih (h.right hexp hleft (finishes_of_raised hraised) hright) hpos
    · cases hpos

/-! ## Paths of search nodes -/

theorem Comes.length_le (h : r.Comes nodeCount path node) (hw : ¬ r.LongPath nodeCount w) :
    path.length ≤ w := by
  have hchild : ∀ {path : List Bool} {node : ℕ} {b : Bool}, r.Comes nodeCount path node →
      r.Expands nodeCount node (ofBits path) → path.length ≤ w → (path ++ [b]).length ≤ w := by
    intro path node b hpath hexp hle
    rw [List.length_append, List.length_singleton]
    have hne : path.length ≠ w := fun hlen => hw ⟨path, node, hlen, hpath, hexp⟩
    omega
  induction h with
  | root => exact Nat.zero_le w
  | left hpath hexp _ ih => exact hchild hpath hexp ih
  | right hpath hexp _ _ _ ih => exact hchild hpath hexp ih

theorem Comes.length_lt (h : r.Comes nodeCount path node) (hw : ¬ r.LongPath nodeCount w)
    (hexp : r.Expands nodeCount node (ofBits path)) : path.length < w := by
  have hle := h.length_le hw
  have hne : path.length ≠ w := fun hlen => hw ⟨path, node, hlen, h, hexp⟩
  omega

/-- Without long paths, no bound above what is left of the width is reached. -/
theorem generateWith_of_not_longPath (limit₀ : ℕ) (hw : ¬ r.LongPath nodeCount w) {limit limit' : ℕ}
    (h : r.Comes nodeCount path node) (hl : w - path.length < limit) (hl' : w - path.length < limit') :
    r.generateWith (r.emitNetwork limit₀) nodeCount limit node path.length (ofBits path) =
      r.generateWith (r.emitNetwork limit₀) nodeCount limit' node path.length (ofBits path) := by
  induction limit generalizing path node limit' with
  | zero => omega
  | succ limit ih =>
    obtain ⟨limit', rfl⟩ := Nat.exists_eq_add_of_le' (show 1 ≤ limit' by omega)
    rw [generateWith, generateWith]
    split_ifs with hs hgt hlt
    · rfl
    · rfl
    · have hexp : r.Expands nodeCount node (ofBits path) := ⟨hs, hgt, hlt⟩
      have hlength := h.length_lt hw hexp
      have hlen : ∀ b, (path ++ [b]).length = path.length + 1 := fun b => by simp
      have hchild : ∀ (b : Bool) next, r.Comes nodeCount (path ++ [b]) next →
          r.generateWith (r.emitNetwork limit₀) nodeCount limit next (path.length + 1)
              (ofBits (path ++ [b])) =
            r.generateWith (r.emitNetwork limit₀) nodeCount limit' next (path.length + 1)
              (ofBits (path ++ [b])) := by
        intro b next hnext
        rw [← hlen b]
        exact ih hnext (by rw [hlen]; omega) (by rw [hlen]; omega)
      dsimp only
      rw [ofBits_right, ofBits_left]
      cases hleft : r.readNode node 0 with
      | error e => rfl
      | ok left =>
        rw [Gen.await_ok, Gen.await_ok, hchild false left (h.left hexp hleft)]
        cases hraised : (r.generateWith (r.emitNetwork limit₀) nodeCount limit' left
            (path.length + 1) (ofBits (path ++ [false]))).raised with
        | some e => rw [Gen.andThen_of_some hraised, Gen.andThen_of_some hraised]
        | none =>
          cases hright : r.readNode node 1 with
          | error e => rfl
          | ok right =>
            rw [← hlen false] at hraised
            have hcomes := h.right hexp hleft (finishes_of_raised hraised) hright
            rw [Gen.await_ok, Gen.await_ok, hchild true right hcomes]
    · rfl

theorem staysInside_of_not_longPath (h : ¬ r.LongPath nodeCount r.bits) :
    r.StaysInside nodeCount := by
  have hvisit : ∀ limit₀ limit,
      ∀ pos ∈ (r.visitWith (r.emitNetwork limit₀) nodeCount limit 0 0 0).yields, pos.depth ≤ r.bits ∧
        (pos.depth = r.bits → ¬ r.Expands nodeCount pos.node pos.ipAcc) := by
    intro limit₀ limit pos hpos
    obtain ⟨path, node, hpath, rfl⟩ := mem_visitWith .root hpos
    refine ⟨hpath.length_le h, fun hlen hexp => ?_⟩
    have hlt := hpath.length_lt h hexp
    exact absurd hlen hlt.ne
  refine ⟨fun limit₀ limit pos hpos => (hvisit limit₀ limit pos hpos).1,
    fun limit₀ limit pos hpos => ?_, fun limit₀ limit pos hpos hdepth hexp =>
      absurd hexp ((hvisit limit₀ limit pos hpos).2 hdepth), ?_⟩
  · have hle := (hvisit limit₀ limit pos hpos).1
    omega
  · intro limit₀ limit hlimit
    exact generateWith_of_not_longPath limit₀ h .root (by simpa using hlimit) (by simp)

/-! ## Calls over a long path -/

theorem emitNetwork_of_le {limit' : ℕ} {item : IPNetwork × Record}
    (h : r.emitNetwork limit node path.length (ofBits path) = .ok item) (hle : limit ≤ limit') :
    r.emitNetwork limit' node path.length (ofBits path) = .ok item := by
  obtain ⟨hnet, hrecord⟩ := emitNetwork_eq_ok.mp h
  refine emitNetwork_eq_ok.mpr ⟨hnet, ?_⟩
  unfold resolveDataPointer at hrecord ⊢
  obtain ⟨nodeCount, hnodeCount, hrecord⟩ := bind_eq_ok.mp hrecord
  obtain ⟨difference, hdifference, hrecord⟩ := bind_eq_ok.mp hrecord
  obtain ⟨size, hsize, hrecord⟩ := bind_eq_ok.mp hrecord
  obtain ⟨resolved, hresolved, hrecord⟩ := bind_eq_ok.mp hrecord
  rw [hnodeCount, ok_bind, hdifference, ok_bind, hsize, ok_bind, hresolved, ok_bind]
  dsimp only at hrecord ⊢
  split_ifs at hrecord ⊢
  · cases hrecord
  · obtain ⟨x, hx, hrecord⟩ := bind_eq_ok.mp hrecord
    have hx' : r.decodeAt limit' resolved = .ok x := by
      unfold decodeAt at hx ⊢
      split at hx
      · cases hx
      · exact Decoder.decode_of_le hx hle
      · cases hx
    rw [hx']
    exact hrecord

theorem visitWith_search {left : ℕ} (hexp : r.Expands nodeCount node (ofBits path))
    (hleft : r.readNode node 0 = .ok left) :
    r.visitWith (r.emitNetwork limit₀) nodeCount (limit + 1) node path.length (ofBits path) =
      (Gen.yield ⟨node, path.length, ofBits path⟩).andThen
        ((r.visitWith (r.emitNetwork limit₀) nodeCount limit left (path.length + 1)
          (ofBits (path ++ [false]))).andThen (.await (r.readNode node 1) fun right =>
            r.visitWith (r.emitNetwork limit₀) nodeCount limit right (path.length + 1)
              (ofBits (path ++ [true])))) := by
  rw [visitWith, if_neg hexp.1, if_neg hexp.2.1, if_pos hexp.2.2, hleft, Gen.await_ok]
  dsimp only
  rw [ofBits_right, ofBits_left]

theorem raised_of_finishes (h : r.Finishes nodeCount path node) : ∃ bound, ∀ limit₀ limit,
    bound ≤ limit₀ → bound ≤ limit →
      (r.visitWith (r.emitNetwork limit₀) nodeCount limit node path.length (ofBits path)).raised =
        none := by
  induction h with
  | skipped hs =>
    refine ⟨1, fun limit₀ limit _ hl => ?_⟩
    obtain ⟨limit, rfl⟩ := Nat.exists_eq_add_of_le' hl
    rw [visitWith, if_pos hs]
    rfl
  | @data path node bound item hs hgt hemit =>
    refine ⟨bound + 1, fun limit₀ limit hl₀ hl => ?_⟩
    obtain ⟨limit, rfl⟩ := Nat.exists_eq_add_of_le' (show 1 ≤ limit by omega)
    rw [visitWith, if_neg hs, if_pos hgt, emitNetwork_of_le hemit (show bound ≤ limit₀ by omega)]
    rfl
  | @search path node left right hexp hleft _ hright _ ihl ihr =>
    obtain ⟨bl, hbl⟩ := ihl
    obtain ⟨br, hbr⟩ := ihr
    refine ⟨max bl br + 1, fun limit₀ limit hl₀ hl => ?_⟩
    obtain ⟨limit, rfl⟩ := Nat.exists_eq_add_of_le' (show 1 ≤ limit by omega)
    have hrl := hbl limit₀ limit (by omega) (by omega)
    have hrr := hbr limit₀ limit (by omega) (by omega)
    rw [List.length_append, List.length_singleton] at hrl hrr
    rw [visitWith_search hexp hleft, hright, Gen.await_ok]
    exact Gen.andThen_raised_none.mpr ⟨rfl, Gen.andThen_raised_none.mpr ⟨hrl, hrr⟩⟩
  | empty hs hgt hlt =>
    refine ⟨1, fun limit₀ limit _ hl => ?_⟩
    obtain ⟨limit, rfl⟩ := Nat.exists_eq_add_of_le' hl
    rw [visitWith, if_neg hs, if_neg hgt, if_neg hlt]
    rfl

/-- **What iteration comes to is called**, under bounds that are great enough: the calls that are made for
a record are a part of all calls. -/
theorem part_of_comes (h : r.Comes nodeCount path node) : ∃ bound, ∀ limit₀ limit,
    bound ≤ limit₀ → bound ≤ limit →
      (r.visitWith (r.emitNetwork limit₀) nodeCount limit node path.length (ofBits path)).Part
        (r.visitWith (r.emitNetwork limit₀) nodeCount (limit + path.length) 0 0 0) := by
  induction h with
  | root => exact ⟨0, fun limit₀ limit _ _ => .refl _⟩
  | @left path node left hpath hexp hleft ih =>
    obtain ⟨bound, hbound⟩ := ih
    refine ⟨bound, fun limit₀ limit hl₀ hl => ?_⟩
    have hpart := hbound limit₀ (limit + 1) hl₀ (by omega)
    rw [visitWith_search hexp hleft] at hpart
    rw [List.length_append, List.length_singleton, Nat.add_comm path.length 1, ← Nat.add_assoc,
      Nat.add_comm 1 path.length]
    exact ((Gen.part_andThen_left _ _).trans (Gen.part_andThen_right rfl _)).trans hpart
  | @right path node left right hpath hexp hleft hfinishes hright ih =>
    obtain ⟨bound, hbound⟩ := ih
    obtain ⟨bl, hbl⟩ := raised_of_finishes hfinishes
    refine ⟨max bound bl, fun limit₀ limit hl₀ hl => ?_⟩
    have hpart := hbound limit₀ (limit + 1) (by omega) (by omega)
    have hraised := hbl limit₀ limit (by omega) (by omega)
    rw [visitWith_search hexp hleft, hright, Gen.await_ok] at hpart
    rw [List.length_append, List.length_singleton] at hraised
    rw [List.length_append, List.length_singleton, Nat.add_comm path.length 1, ← Nat.add_assoc,
      Nat.add_comm 1 path.length]
    exact ((Gen.part_andThen_right hraised _).trans (Gen.part_andThen_right rfl _)).trans hpart

/-- The first record of a path has been read, so that no record is reported. -/
theorem Comes.readNode_ne (h : r.Comes nodeCount path node) (hne : path ≠ []) (fault : Fault) :
    r.readNode node 0 ≠ .error (.invalidDatabaseError fault) := by
  obtain ⟨known, hknown⟩ : ∃ known : RecordSize, r.metadata.recordSize.eqInt known.bits := by
    cases h with
    | root => exact absurd rfl hne
    | left _ _ hread => exact known_of_readNode false hread
    | right _ _ hread => exact known_of_readNode false hread
  intro herror
  refine not_allows_readNode node false hknown ?_
  rw [Bool.toNat_false, herror]
  exact .raises trivial

theorem LongPath.not_staysInside (h : r.LongPath nodeCount r.bits) : ¬ r.StaysInside nodeCount := by
  intro hstays
  obtain ⟨path, node, hlen, hcomes, hexp⟩ := h
  obtain ⟨bound, hbound⟩ := part_of_comes hcomes
  have hpart := hbound bound (bound + 2) le_rfl (by omega)
  cases hleft : r.readNode node 0 with
  | ok left =>
    -- the left record is called for behind one more bit
    rw [visitWith_search hexp hleft] at hpart
    have hmem := hpart.mem ⟨left, path.length + 1, ofBits (path ++ [false])⟩ ?_
    · have hle := hstays.depth_le _ _ _ hmem
      rw [← hlen] at hle
      exact Nat.not_succ_le_self _ hle
    · refine (Gen.part_andThen_right rfl _).mem _ ((Gen.part_andThen_left _ _).mem _ ?_)
      exact (Gen.part_andThen_left _ _).mem _ (List.mem_singleton_self _)
  | error e =>
    -- the node cannot be read, and this is not reported
    have hraised : (r.visitWith (r.emitNetwork bound) nodeCount (bound + 2) node path.length
        (ofBits path)).raised = some e := by
      rw [visitWith, if_neg hexp.1, if_neg hexp.2.1, if_pos hexp.2.2, hleft]
      rfl
    have hmem := hpart.mem ⟨node, path.length, ofBits path⟩
      ((Gen.part_andThen_left _ _).mem _ (List.mem_singleton_self _))
    obtain ⟨fault, hfault⟩ := hstays.reported _ _ _ hmem hlen hexp
    rw [← visitWith_raised, hpart.raised e hraised, Option.some.injEq] at hfault
    rw [hfault] at hleft
    refine hcomes.readNode_ne ?_ fault hleft
    rintro rfl
    rcases r.bits_eq with hbits | hbits <;> rw [hbits] at hlen <;> cases hlen

/-- **When `_generate_children` stays inside.** -/
theorem staysInside_iff : r.StaysInside nodeCount ↔ ¬ r.LongPath nodeCount r.bits :=
  ⟨fun h hlong => hlong.not_staysInside h, staysInside_of_not_longPath⟩

end Reader

/-- **When iteration stays inside the address.** In the extension, exactly over the trees in which no
path of unskipped search nodes is longer than an address; in Python, exactly over those in which it comes
to no such path. -/
theorem iteration_staysInside {Entry : Type} [Inhabited Entry] (lib : Extension.LibTree Entry)
    (hdepth : lib.depth = 32 ∨ lib.depth = 128) (r : Reader) (nodeCount : PyNum) :
    (Extension.StaysInside lib ↔ ¬ lib.LongPath lib.depth) ∧
      (r.StaysInside nodeCount ↔ ¬ r.LongPath nodeCount r.bits) :=
  ⟨Extension.LibTree.staysInside_iff (by omega), Reader.staysInside_iff⟩

/-! Trees without long paths. -/

theorem Extension.oneNode_not_longPath : ¬ oneNode.LongPath 32 := by
  rintro ⟨path, hlen, hpath⟩
  obtain ⟨b, bs, rfl⟩ := List.exists_cons_of_length_eq_add_one hlen
  exact oneNode_child _ b (hpath [b] (List.prefix_append [b] bs)).1

theorem Sample.reader_not_longPath (shared : Bool) :
    ¬ (Sample.database shared).reader.LongPath (.int 1) 128 := by
  rintro ⟨path, node, hlen, hcomes, hexp⟩
  -- the records of the only node are not below 1
  have hlt : ∀ {node ipAcc : ℕ}, (Sample.database shared).reader.Expands (.int 1) node ipAcc →
      node = 0 := by
    intro node ipAcc h
    have hlt := h.2.2
    rw [PyNum.lt_int, decide_eq_true_eq] at hlt
    omega
  have hrecord : ∀ {parent : ℕ} {path : List Bool} (b : Bool),
      (Sample.database shared).reader.Expands (.int 1) parent (ofBits path) →
        (Sample.database shared).reader.readNode parent b.toNat ≠ .ok node := by
    intro parent path b hparent hread
    rw [hlt hparent] at hread
    have hchild := Sample.tree_child shared b
    rw [show ((Sample.database shared).reader.tree 1).child 0 b = _ from hread] at hchild
    cases hchild
    have hzero := hlt hexp
    revert hzero
    cases shared <;> cases b <;> decide
  cases hcomes with
  | root => cases hlen
  | left _ hparent hread => exact hrecord false hparent hread
  | right _ hparent _ _ hread => exact hrecord true hparent hread

theorem sample_staysInside : Extension.StaysInside Extension.oneNode ∧
    (Sample.database false).reader.StaysInside (.int 1) := by
  have hbits : (Sample.database false).reader.bits = 128 := by
    rw [Reader.treeVersion_bits, if_pos (Sample.ipVersion_eq false)]
  obtain ⟨hext, hpy⟩ := iteration_staysInside Extension.oneNode (.inl rfl)
    (Sample.database false).reader (.int 1)
  refine ⟨hext.mpr Extension.oneNode_not_longPath, hpy.mpr ?_⟩
  rw [hbits]
  exact Sample.reader_not_longPath false

/-! A tree of two nodes, where both records of each are the second one. -/

namespace Extension

def cycle : LibTree ℕ where
  ipv4StartNode := 1
  depth := 128
  readNode _ := ⟨⟨1, .searchNode, 0⟩, ⟨1, .searchNode, 0⟩⟩

theorem cycle_type (path : List Bool) : (cycle.recordAt path).type = .searchNode := by
  induction path using List.reverseRecOn with
  | nil => rfl
  | append_singleton path b _ =>
    rw [LibTree.recordAt, List.foldl_append]
    cases b <;> rfl

theorem cycle_longPath (w : ℕ) : cycle.LongPath w := by
  refine ⟨List.replicate w false, List.length_replicate, fun p hp => ⟨cycle_type p, fun h => ?_⟩⟩
  have hle := h.2
  rw [firstAddress, ofBits_of_prefix_zeros hp, Nat.zero_mul] at hle
  omega

end Extension

/-! The same tree, packed, in the address space of IPv6. -/

namespace Sample

def cycle : Reader where
  buffer := .ofBytes (packNodes .bits24 [(1, 1), (1, 1)])
  metadata := {
    (oneNode []).metadata with
    ipVersion := .int 6
    nodeCount := .int 2
    recordSize := .int 24 }
  decoderBase := .int 28
  ipv4Start := 1

theorem cycle_readNode {node : ℕ} (h : node < 2) (right : Bool) :
    cycle.readNode node right.toNat = .ok 1 := by
  have hl : node < [((1 : ℕ), (1 : ℕ)), (1, 1)].length := h
  have hnode : [((1 : ℕ), (1 : ℕ)), (1, 1)][node] = (1, 1) := by
    match node, h with
    | 0, _ => rfl
    | 1, _ => rfl
  have hb : Octets.HasBytes (packNodes .bits24 [(1, 1), (1, 1)]) (node * RecordSize.bits24.nodeBytes)
      (packNode .bits24 (1, 1)) := by
    have h := @hasBytes_packNodes .bits24 _ _ hl []
    rwa [hnode, List.append_nil] at h
  have hread := Reader.readNode_packed (r := cycle) rfl rfl hb (by decide) (by decide) right
  cases right <;> exact hread

theorem cycle_ipv4Walk (k : ℕ) : cycle.ipv4Walk (.int 2) (k + 1) 0 = .ok 1 := by
  have hone : ∀ k, cycle.ipv4Walk (.int 2) k 1 = .ok 1 := by
    intro k
    induction k with
    | zero => rfl
    | succ k ih =>
      rw [Reader.ipv4Walk, if_neg (by simp)]
      exact (congrArg (· >>= _) (cycle_readNode Nat.one_lt_two false)).trans ih
  rw [Reader.ipv4Walk, if_neg (by simp)]
  exact (congrArg (· >>= _) (cycle_readNode Nat.two_pos false)).trans (hone k)

theorem cycle_expands {node : ℕ} (h : node < 2) (k : ℕ) :
    cycle.Expands (.int 2) node (ofBits (List.replicate k false)) := by
  refine ⟨fun hs => hs.1 (ofBits_replicate_false k), ?_, ?_⟩
  · rw [PyNum.lt_int, decide_eq_true_eq]
    omega
  · rw [PyNum.lt_int, decide_eq_true_eq]
    omega

theorem cycle_comes (k : ℕ) : ∃ node < 2, cycle.Comes (.int 2) (List.replicate k false) node := by
  induction k with
  | zero => exact ⟨0, Nat.two_pos, .root⟩
  | succ k ih =>
    obtain ⟨node, hnode, hcomes⟩ := ih
    rw [List.replicate_succ']
    exact ⟨1, Nat.one_lt_two, hcomes.left (cycle_expands hnode k) (cycle_readNode hnode false)⟩

theorem cycle_longPath (w : ℕ) : cycle.LongPath (.int 2) w := by
  obtain ⟨node, hnode, hcomes⟩ := cycle_comes w
  exact ⟨List.replicate w false, node, List.length_replicate, hcomes, cycle_expands hnode w⟩

/-- The iterator of the extension follows the cycle past the end of an address, and so does
`_generate_children`. -/
theorem not_staysInside_cycle :
    (¬ ∀ lib : Extension.LibTree ℕ, lib.depth = 32 ∨ lib.depth = 128 → Extension.StaysInside lib) ∧
    ¬ ∀ (r : Reader) (nodeCount : PyNum), r.metadata.nodeCount.asNum = .ok nodeCount →
      r.ipv4Walk nodeCount 96 0 = .ok r.ipv4Start → r.StaysInside nodeCount :=
  ⟨fun h => (Extension.cycle_longPath 128).not_staysInside (h Extension.cycle (.inr rfl)),
    fun h => (cycle_longPath cycle.bits).not_staysInside (h cycle (.int 2) rfl (cycle_ipv4Walk 95))⟩

end Sample

end MaxMindDB
