import MaxMindDB.Lib.BitString
import MaxMindDB.Lib.Generator

/-!
# Binary tries over node numbers

A trie is a number of nodes and a way to read the two children of a node, which may fail. A child
below the number of nodes is again a node; any other value ends a path. Nothing is assumed about
the values: a trie may share nodes, or have cycles.

`walk` follows a bit string until it leaves the nodes, and `leaves` lists, depth first and left
first, the values above the number of nodes together with the paths that reach them, leaving out
what lies below a skipped value. The two are compared: each listed leaf is what every walk along
its path arrives at (`mem_leaves`), the leaves part from left to right (`leaves_before`), and a
traversal that runs to its end lists every leaf that no skipped value hides (`mem_leaves_of_none`).
-/

open BitString

/-- A trie: nodes are numbered below `count`. -/
structure BitTrie (ε : Type*) where
  count : ℕ
  child : ℕ → Bool → Except ε ℕ

namespace BitTrie

variable {ε : Type*} (t : BitTrie ε)

/-! ## Walks -/

/-- Follow the bits from `node` while it is a node; the value arrived at and the bits used. -/
def walk : List Bool → ℕ → Except ε (ℕ × ℕ)
  | [], node => .ok (node, 0)
  | b :: bs, node =>
    if node < t.count then
      match t.child node b with
      | .error e => .error e
      | .ok next =>
        match walk bs next with
        | .error e => .error e
        | .ok (leaf, k) => .ok (leaf, k + 1)
    else .ok (node, 0)

@[simp] theorem walk_nil (node : ℕ) : t.walk [] node = .ok (node, 0) := rfl

theorem walk_of_le {node : ℕ} (h : t.count ≤ node) (bs : List Bool) :
    t.walk bs node = .ok (node, 0) := by
  cases bs with
  | nil => rfl
  | cons b bs => rw [walk, if_neg (by omega)]

variable {t}

theorem walk_cons_eq_ok {node leaf k : ℕ} {b : Bool} {bs : List Bool} (h : node < t.count) :
    t.walk (b :: bs) node = .ok (leaf, k) ↔
      ∃ next k', t.child node b = .ok next ∧ t.walk bs next = .ok (leaf, k') ∧ k = k' + 1 := by
  rw [walk, if_pos h]
  constructor
  · intro hw
    cases hc : t.child node b with
    | error e => simp [hc] at hw
    | ok next =>
      cases hn : t.walk bs next with
      | error e => simp [hc, hn] at hw
      | ok p =>
        simp only [hc, hn, Except.ok.injEq, Prod.mk.injEq] at hw
        exact ⟨next, p.2, rfl, by rw [hn, ← hw.1], hw.2.symm⟩
  · rintro ⟨next, k', hc, hn, rfl⟩
    simp [hc, hn]

theorem walk_length_le {node leaf k : ℕ} {bs : List Bool} (h : t.walk bs node = .ok (leaf, k)) :
    k ≤ bs.length := by
  induction bs generalizing node leaf k with
  | nil => cases h; rfl
  | cons b bs ih =>
    by_cases hn : node < t.count
    · obtain ⟨next, k', -, hw, rfl⟩ := (walk_cons_eq_ok hn).mp h
      have := ih hw
      simp only [List.length_cons]
      omega
    · rw [walk_of_le t (by omega)] at h
      cases h
      exact Nat.zero_le _

theorem walk_eq_length {node leaf k : ℕ} {bs : List Bool} (h : t.walk bs node = .ok (leaf, k))
    (hl : leaf < t.count) : k = bs.length := by
  induction bs generalizing node leaf k with
  | nil => cases h; rfl
  | cons b bs ih =>
    by_cases hn : node < t.count
    · obtain ⟨next, k', -, hw, rfl⟩ := (walk_cons_eq_ok hn).mp h
      rw [ih hw hl, List.length_cons]
    · rw [walk_of_le t (by omega)] at h
      cases h
      exact absurd hl hn

theorem walk_append (xs ys : List Bool) (node : ℕ) :
    t.walk (xs ++ ys) node =
      (t.walk xs node).bind fun p => (t.walk ys p.1).map fun q => (q.1, p.2 + q.2) := by
  induction xs generalizing node with
  | nil =>
    rw [List.nil_append]
    cases h : t.walk ys node <;> simp [Except.bind, Except.map, h]
  | cons b xs ih =>
    rw [List.cons_append]
    by_cases hn : node < t.count
    · rw [walk, if_pos hn, walk, if_pos hn]
      cases t.child node b with
      | error e => rfl
      | ok next =>
        simp only [ih next]
        cases t.walk xs next with
        | error e => rfl
        | ok p =>
          simp only [Except.bind]
          cases t.walk ys p.1 with
          | error e => rfl
          | ok q => simp only [Except.map]; congr 2; omega
    · rw [walk_of_le t (by omega), walk_of_le t (by omega)]
      simp only [Except.bind]
      rw [walk_of_le t (by omega)]
      rfl

theorem walk_append_ok {xs ys : List Bool} {node mid leaf j k : ℕ}
    (hx : t.walk xs node = .ok (mid, j)) (hy : t.walk ys mid = .ok (leaf, k)) :
    t.walk (xs ++ ys) node = .ok (leaf, j + k) := by
  rw [walk_append, hx]
  simp only [Except.bind]
  rw [hy]
  rfl

theorem walk_append_eq_ok {xs ys : List Bool} {node leaf k : ℕ} :
    t.walk (xs ++ ys) node = .ok (leaf, k) ↔
      ∃ mid i j, t.walk xs node = .ok (mid, i) ∧ t.walk ys mid = .ok (leaf, j) ∧ k = i + j := by
  constructor
  · intro h
    rw [walk_append] at h
    cases hx : t.walk xs node with
    | error e => rw [hx] at h; cases h
    | ok p =>
      obtain ⟨mid, i⟩ := p
      rw [hx] at h
      simp only [Except.bind] at h
      cases hy : t.walk ys mid with
      | error e => rw [hy] at h; cases h
      | ok q =>
        obtain ⟨leaf', j⟩ := q
        rw [hy] at h
        cases h
        exact ⟨mid, i, j, rfl, hy, rfl⟩
  · rintro ⟨mid, i, j, hx, hy, rfl⟩
    exact walk_append_ok hx hy

/-- The bits a walk has used determine where it arrives. -/
theorem walk_take {node leaf k : ℕ} {bs : List Bool} (h : t.walk bs node = .ok (leaf, k)) :
    t.walk (bs.take k) node = .ok (leaf, k) := by
  induction bs generalizing node leaf k with
  | nil => cases h; rfl
  | cons b bs ih =>
    by_cases hn : node < t.count
    · obtain ⟨next, k', hc, hw, rfl⟩ := (walk_cons_eq_ok hn).mp h
      rw [List.take_succ_cons]
      exact (walk_cons_eq_ok hn).mpr ⟨next, k', hc, ih hw, rfl⟩
    · rw [walk_of_le t (by omega)] at h
      cases h
      rfl

/-- **A walk depends only on the bits it uses**: two strings of one length that agree on them
arrive at the same value. -/
theorem walk_congr {node leaf k : ℕ} {xs ys : List Bool} (h : t.walk xs node = .ok (leaf, k))
    (hl : xs.length = ys.length) (hk : xs.take k = ys.take k) :
    t.walk ys node = .ok (leaf, k) := by
  have htake := walk_take h
  rw [hk] at htake
  rw [← List.take_append_drop k ys]
  by_cases hleaf : leaf < t.count
  · have : k = ys.length := hl ▸ walk_eq_length h hleaf
    rw [List.drop_eq_nil_of_le (by omega), List.append_nil]
    exact htake
  · exact walk_append_ok htake (walk_of_le t (by omega) _)

theorem walk_of_child_eq {t' : BitTrie ε} (hc : t.count = t'.count)
    (h : ∀ node < t.count, ∀ b, t.child node b = t'.child node b) (bs : List Bool) (node : ℕ) :
    t.walk bs node = t'.walk bs node := by
  induction bs generalizing node with
  | nil => rfl
  | cons b bs ih =>
    rw [walk, walk, hc]
    split_ifs with hn
    · rw [h node (hc ▸ hn) b]
      cases t'.child node b with
      | error e => rfl
      | ok next => simp only [ih next]
    · rfl

theorem exists_walk (h : ∀ node < t.count, ∀ b, ∃ next, t.child node b = .ok next)
    (bs : List Bool) (node : ℕ) : ∃ leaf k, t.walk bs node = .ok (leaf, k) := by
  induction bs generalizing node with
  | nil => exact ⟨node, 0, rfl⟩
  | cons b bs ih =>
    by_cases hn : node < t.count
    · obtain ⟨next, hc⟩ := h node hn b
      obtain ⟨leaf, k, hw⟩ := ih next
      exact ⟨leaf, k + 1, (walk_cons_eq_ok hn).mpr ⟨next, k, hc, hw, rfl⟩⟩
    · exact ⟨node, 0, walk_of_le t (by omega) _⟩

/-! ## Arriving -/

/-- `path` leads from `node` to `leaf`, every bit of it used. -/
def Reaches (t : BitTrie ε) (node : ℕ) (path : List Bool) (leaf : ℕ) : Prop :=
  t.walk path node = .ok (leaf, path.length)

theorem reaches_nil (node : ℕ) : t.Reaches node [] node := rfl

theorem reaches_nil_iff {node leaf : ℕ} : t.Reaches node [] leaf ↔ node = leaf := by
  simp [Reaches]

theorem reaches_cons {node leaf : ℕ} {b : Bool} {path : List Bool} :
    t.Reaches node (b :: path) leaf ↔
      node < t.count ∧ ∃ next, t.child node b = .ok next ∧ t.Reaches next path leaf := by
  unfold Reaches
  by_cases hn : node < t.count
  · rw [walk_cons_eq_ok hn]
    simp only [List.length_cons, Nat.add_right_cancel_iff]
    constructor
    · rintro ⟨next, k', hc, hw, rfl⟩
      exact ⟨hn, next, hc, hw⟩
    · rintro ⟨-, next, hc, hw⟩
      exact ⟨next, _, hc, hw, rfl⟩
  · rw [walk_of_le t (by omega)]
    simp [hn]

theorem reaches_append {node leaf : ℕ} {p q : List Bool} :
    t.Reaches node (p ++ q) leaf ↔ ∃ mid, t.Reaches node p mid ∧ t.Reaches mid q leaf := by
  unfold Reaches
  rw [walk_append_eq_ok]
  constructor
  · rintro ⟨mid, i, j, hp, hq, hk⟩
    have h1 := walk_length_le hp
    have h2 := walk_length_le hq
    rw [List.length_append] at hk
    obtain rfl : i = p.length := by omega
    obtain rfl : j = q.length := by omega
    exact ⟨mid, hp, hq⟩
  · rintro ⟨mid, hp, hq⟩
    exact ⟨mid, _, _, hp, hq, List.length_append⟩

theorem Reaches.unique {node leaf leaf' : ℕ} {path : List Bool} (h : t.Reaches node path leaf)
    (h' : t.Reaches node path leaf') : leaf = leaf' := by
  unfold Reaches at h h'
  rw [h] at h'
  cases h'
  rfl

theorem Reaches.eq_or_child {node leaf : ℕ} {path : List Bool} (h : t.Reaches node path leaf) :
    leaf = node ∨ ∃ parent < t.count, ∃ b, t.child parent b = .ok leaf := by
  cases path using List.reverseRecOn with
  | nil => exact .inl (reaches_nil_iff.mp h).symm
  | append_singleton path b _ =>
    obtain ⟨parent, -, hb⟩ := reaches_append.mp h
    obtain ⟨hp, next, hc, hn⟩ := reaches_cons.mp hb
    rw [reaches_nil_iff] at hn
    exact .inr ⟨parent, hp, b, hn ▸ hc⟩

/-- Every walk along an extension of the path of a leaf arrives at that leaf. -/
theorem Reaches.walk {node leaf : ℕ} {path bs : List Bool} (h : t.Reaches node path leaf)
    (hl : t.count ≤ leaf) (hp : path <+: bs) : t.walk bs node = .ok (leaf, path.length) := by
  obtain ⟨s, rfl⟩ := hp
  exact walk_append_ok h (walk_of_le t hl s)

theorem reaches_of_walk {node leaf k : ℕ} {bs : List Bool} (h : t.walk bs node = .ok (leaf, k)) :
    t.Reaches node (bs.take k) leaf := by
  unfold Reaches
  rw [List.length_take, Nat.min_eq_left (walk_length_le h)]
  exact walk_take h

theorem Reaches.eq_of_prefix {node leaf leaf' : ℕ} {p q : List Bool} (h : t.Reaches node p leaf)
    (hl : t.count ≤ leaf) (h' : t.Reaches node q leaf') (hpq : p <+: q) : p = q ∧ leaf = leaf' := by
  obtain ⟨s, rfl⟩ := hpq
  obtain ⟨mid, hp, hs⟩ := reaches_append.mp h'
  obtain rfl := h.unique hp
  cases s with
  | nil =>
    rw [reaches_nil_iff] at hs
    exact ⟨(List.append_nil p).symm, hs⟩
  | cons b s =>
    have := (reaches_cons.mp hs).1
    omega

/-! ## Traversal -/

/-- The leaves below `node`, depth first and left first, with the path of each; `path` has led to
`node`. Nothing below a skipped value is listed, and `spent` is raised when the traversal is `fuel`
calls deep. -/
def leaves (t : BitTrie ε) (skip : ℕ → List Bool → Bool) (spent : ε) :
    ℕ → ℕ → List Bool → Gen ε (ℕ × List Bool)
  | 0, _, _ => .raise spent
  | fuel + 1, node, path =>
    if skip node path then .done
    else if t.count < node then .yield (node, path)
    else if node < t.count then
      .await (t.child node false) fun left =>
        (leaves t skip spent fuel left (path ++ [false])).andThen
          (.await (t.child node true) fun right => leaves t skip spent fuel right (path ++ [true]))
    else .done

/-- No value on the way down `q` from `node`, its end included, is skipped. -/
def Open (t : BitTrie ε) (skip : ℕ → List Bool → Bool) (node : ℕ) (path q : List Bool) : Prop :=
  ∀ q' mid, q' <+: q → t.Reaches node q' mid → skip mid (path ++ q') = false

variable {skip : ℕ → List Bool → Bool} {spent : ε}

theorem leaves_of_skip {node : ℕ} {path : List Bool} (hs : skip node path) (fuel : ℕ) :
    t.leaves skip spent (fuel + 1) node path = .done := by
  rw [leaves, if_pos hs]

theorem leaves_of_gt {node : ℕ} {path : List Bool} (hs : skip node path = false)
    (hgt : t.count < node) (fuel : ℕ) :
    t.leaves skip spent (fuel + 1) node path = .yield (node, path) := by
  rw [leaves, if_neg (by simp [hs]), if_pos hgt]

theorem leaves_of_lt {node : ℕ} {path : List Bool} (hs : skip node path = false)
    (hlt : node < t.count) (fuel : ℕ) :
    t.leaves skip spent (fuel + 1) node path =
      .await (t.child node false) fun left =>
        (t.leaves skip spent fuel left (path ++ [false])).andThen
          (.await (t.child node true) fun right =>
            t.leaves skip spent fuel right (path ++ [true])) := by
  rw [leaves, if_neg (by simp [hs]), if_neg (by omega), if_pos hlt]

theorem leaves_of_eq {node : ℕ} {path : List Bool} (heq : node = t.count) (fuel : ℕ) :
    t.leaves skip spent (fuel + 1) node path = .done := by
  rw [leaves, if_neg (show ¬ t.count < node by omega), if_neg (show ¬ node < t.count by omega),
    ite_self]

theorem open_cons {node next : ℕ} {b : Bool} {path q : List Bool} (hn : node < t.count)
    (hc : t.child node b = .ok next) :
    t.Open skip node path (b :: q) ↔
      skip node path = false ∧ t.Open skip next (path ++ [b]) q := by
  constructor
  · intro h
    refine ⟨by simpa using h [] node List.nil_prefix (reaches_nil node), fun q' mid hq' hr => ?_⟩
    have := h (b :: q') mid (List.cons_prefix_cons.mpr ⟨rfl, hq'⟩)
      (reaches_cons.mpr ⟨hn, next, hc, hr⟩)
    simpa using this
  · rintro ⟨h0, h⟩ q' mid hq' hr
    cases q' with
    | nil =>
      rw [reaches_nil_iff] at hr
      simpa [hr] using h0
    | cons b' q' =>
      obtain ⟨rfl, hq⟩ := List.cons_prefix_cons.mp hq'
      obtain ⟨-, next', hc', hr'⟩ := reaches_cons.mp hr
      rw [hc] at hc'
      cases hc'
      simpa using h q' mid hq hr'

/-- **Soundness of the traversal.** A listed leaf lies above the number of nodes at the end of its
path, and nothing on that path is skipped. -/
theorem mem_leaves {fuel node leaf : ℕ} {path p : List Bool}
    (h : (leaf, p) ∈ (t.leaves skip spent fuel node path).yields) :
    ∃ q, p = path ++ q ∧ t.Reaches node q leaf ∧ t.count < leaf ∧ t.Open skip node path q := by
  induction fuel generalizing node path with
  | zero => simp [leaves] at h
  | succ fuel ih =>
    rw [leaves] at h
    split_ifs at h with hs hgt hlt
    · simp at h
    · simp only [Gen.yield_yields, List.mem_singleton, Prod.mk.injEq] at h
      obtain ⟨rfl, rfl⟩ := h
      refine ⟨[], by simp, reaches_nil _, hgt, fun q' mid hq' hr => ?_⟩
      obtain rfl := List.prefix_nil.mp hq'
      rw [reaches_nil_iff] at hr
      simpa [← hr] using hs
    · have hs' : skip node path = false := by simpa using hs
      have step : ∀ (b : Bool) (next : ℕ), t.child node b = .ok next →
          (leaf, p) ∈ (t.leaves skip spent fuel next (path ++ [b])).yields →
          ∃ q, p = path ++ q ∧ t.Reaches node q leaf ∧ t.count < leaf ∧
            t.Open skip node path q := by
        intro b next hc hm
        obtain ⟨q, rfl, hr, hl, ho⟩ := ih hm
        exact ⟨b :: q, by simp, reaches_cons.mpr ⟨hlt, next, hc, hr⟩, hl,
          (open_cons hlt hc).mpr ⟨hs', ho⟩⟩
      cases hl : t.child node false with
      | error e => rw [hl] at h; simp at h
      | ok left =>
        rw [hl, Gen.await_ok] at h
        rcases Gen.mem_andThen h with hm | hm
        · exact step false left hl hm
        · cases hr : t.child node true with
          | error e => rw [hr] at hm; simp at hm
          | ok right =>
            rw [hr, Gen.await_ok] at hm
            exact step true right hr hm
    · simp at h

theorem prefix_of_mem_leaves {fuel node leaf : ℕ} {path p : List Bool}
    (h : (leaf, p) ∈ (t.leaves skip spent fuel node path).yields) : path <+: p := by
  obtain ⟨q, rfl, -⟩ := mem_leaves h
  exact List.prefix_append _ _

/-- **The order of the traversal.** The paths of the listed leaves part from left to right. -/
theorem leaves_before (t : BitTrie ε) (skip : ℕ → List Bool → Bool) (spent : ε)
    (fuel node : ℕ) (path : List Bool) :
    (t.leaves skip spent fuel node path).yields.Pairwise fun x y => Before x.2 y.2 := by
  induction fuel generalizing node path with
  | zero => exact .nil
  | succ fuel ih =>
    rw [leaves]
    split_ifs with hs hgt hlt
    · exact .nil
    · exact List.pairwise_singleton _ _
    · cases t.child node false with
      | error e => exact .nil
      | ok left =>
        rw [Gen.await_ok]
        cases t.child node true with
        | error e => exact Gen.pairwise_andThen (ih _ _) .nil (by simp)
        | ok right =>
          refine Gen.pairwise_andThen (ih _ _) (ih _ _) fun x hx y hy => ?_
          exact ⟨path, prefix_of_mem_leaves hx, prefix_of_mem_leaves hy⟩
    · exact .nil

/-- **Completeness of the traversal.** Run to its end, it lists every leaf that nothing skipped
hides. -/
theorem mem_leaves_of_none {fuel node leaf : ℕ} {path q : List Bool}
    (h : (t.leaves skip spent fuel node path).raised = none) (hr : t.Reaches node q leaf)
    (hl : t.count < leaf) (ho : t.Open skip node path q) :
    (leaf, path ++ q) ∈ (t.leaves skip spent fuel node path).yields := by
  induction fuel generalizing node path q with
  | zero => simp [leaves] at h
  | succ fuel ih =>
    have hs : skip node path = false := by
      simpa using ho [] node List.nil_prefix (reaches_nil node)
    rw [leaves, if_neg (by simp [hs])] at h ⊢
    cases q with
    | nil =>
      rw [reaches_nil_iff] at hr
      subst hr
      rw [if_pos hl]
      simp
    | cons b q =>
      obtain ⟨hn, next, hc, hr'⟩ := reaches_cons.mp hr
      have ho' := ((open_cons hn hc).mp ho).2
      rw [if_neg (by omega), if_pos hn] at h ⊢
      cases hleft : t.child node false with
      | error e => rw [hleft] at h; simp at h
      | ok left =>
        rw [hleft, Gen.await_ok] at h
        rw [Gen.await_ok]
        obtain ⟨h0, h1⟩ := Gen.andThen_raised_none.mp h
        rw [Gen.andThen_of_none h0]
        cases hright : t.child node true with
        | error e => rw [hright] at h1; simp at h1
        | ok right =>
          rw [hright, Gen.await_ok] at h1
          simp only [Gen.await_ok, List.mem_append]
          cases b with
          | false =>
            rw [hleft] at hc
            cases hc
            exact .inl (by simpa using ih h0 hr' ho')
          | true =>
            rw [hright] at hc
            cases hc
            exact .inr (by simpa using ih h1 hr' ho')

/-- Every path of `w` bits from `node` can be read and leaves the nodes. -/
def Bounded (t : BitTrie ε) (w node : ℕ) : Prop :=
  ∀ bs : List Bool, bs.length = w → ∃ leaf k, t.walk bs node = .ok (leaf, k) ∧ t.count ≤ leaf

theorem Bounded.child {w node : ℕ} (h : t.Bounded (w + 1) node) (hn : node < t.count) (b : Bool) :
    ∃ next, t.child node b = .ok next ∧ t.Bounded w next := by
  obtain ⟨leaf, k, hw, -⟩ := h (b :: List.replicate w false) (by simp)
  obtain ⟨next, -, hc, -⟩ := (walk_cons_eq_ok hn).mp hw
  refine ⟨next, hc, fun bs hbs => ?_⟩
  obtain ⟨leaf', k', hw', hl'⟩ := h (b :: bs) (by simp [hbs])
  obtain ⟨next', k'', hc', hw'', -⟩ := (walk_cons_eq_ok hn).mp hw'
  rw [hc] at hc'
  cases hc'
  exact ⟨leaf', k'', hw'', hl'⟩

theorem Bounded.le_of_zero {node : ℕ} (h : t.Bounded 0 node) : t.count ≤ node := by
  obtain ⟨leaf, k, hw, hl⟩ := h [] rfl
  cases hw
  exact hl

theorem Bounded.mono {w v node : ℕ} (h : t.Bounded w node) (hv : w ≤ v) : t.Bounded v node := by
  intro bs hbs
  obtain ⟨leaf, k, hw, hl⟩ := h (bs.take w) (by rw [List.length_take]; omega)
  refine ⟨leaf, k + 0, ?_, hl⟩
  rw [← List.take_append_drop w bs]
  exact walk_append_ok hw (t.walk_of_le hl _)

theorem Bounded.length_lt {w node mid : ℕ} {p : List Bool} (h : t.Bounded w node)
    (hr : t.Reaches node p mid) (hm : mid < t.count) : p.length < w := by
  by_contra hge
  obtain ⟨leaf, k, hw, hl⟩ := h (p.take w) (by rw [List.length_take]; omega)
  have hp : t.Reaches node (p.take w ++ p.drop w) mid := by rwa [List.take_append_drop]
  obtain ⟨mid', h1, h2⟩ := reaches_append.mp hp
  unfold Reaches at h1
  rw [hw] at h1
  cases h1
  cases hd : p.drop w with
  | nil => rw [hd, reaches_nil_iff] at h2; omega
  | cons b s =>
    rw [hd] at h2
    have := (reaches_cons.mp h2).1
    omega

theorem Bounded.exists_child {w node mid : ℕ} {p : List Bool} (h : t.Bounded w node)
    (hr : t.Reaches node p mid) (hm : mid < t.count) (b : Bool) :
    ∃ next, t.child mid b = .ok next := by
  have hlt := h.length_lt hr hm
  obtain ⟨leaf, k, hw, -⟩ := h (p ++ b :: List.replicate (w - p.length - 1) false) (by
    simp only [List.length_append, List.length_cons, List.length_replicate]
    omega)
  obtain ⟨mid', i, j, hp, hs, -⟩ := walk_append_eq_ok.mp hw
  unfold Reaches at hr
  rw [hr] at hp
  cases hp
  obtain ⟨next, -, hc, -⟩ := (walk_cons_eq_ok hm).mp hs
  exact ⟨next, hc⟩

/-- The traversal of a bounded trie runs to its end. -/
theorem Bounded.leaves_raised_none {w node fuel : ℕ} (h : t.Bounded w node) (hf : w < fuel)
    (path : List Bool) : (t.leaves skip spent fuel node path).raised = none := by
  induction fuel generalizing w node path with
  | zero => omega
  | succ fuel ih =>
    rw [leaves]
    split_ifs with hs hgt hlt
    · rfl
    · rfl
    · cases w with
      | zero => exact absurd h.le_of_zero (by omega)
      | succ w =>
        obtain ⟨left, hl, hbl⟩ := h.child hlt false
        obtain ⟨right, hr, hbr⟩ := h.child hlt true
        rw [hl, hr, Gen.await_ok, Gen.await_ok, Gen.andThen_raised_none]
        exact ⟨ih hbl (by omega) _, ih hbr (by omega) _⟩
    · rfl

theorem leaves_succ_of_none {fuel node : ℕ} {path : List Bool}
    (h : (t.leaves skip spent fuel node path).raised = none) :
    t.leaves skip spent (fuel + 1) node path = t.leaves skip spent fuel node path := by
  induction fuel generalizing node path with
  | zero => simp [leaves] at h
  | succ fuel ih =>
    rw [leaves]
    conv_rhs => rw [leaves]
    rw [leaves] at h
    split_ifs with hs hgt hlt
    · rfl
    · rfl
    · rw [if_neg (by simpa using hs), if_neg hgt, if_pos hlt] at h
      cases hl : t.child node false with
      | error e => rfl
      | ok left =>
        rw [hl, Gen.await_ok] at h
        obtain ⟨h0, h1⟩ := Gen.andThen_raised_none.mp h
        rw [Gen.await_ok, Gen.await_ok, ih h0]
        cases hr : t.child node true with
        | error e => rfl
        | ok right =>
          rw [hr, Gen.await_ok] at h1
          rw [Gen.await_ok, Gen.await_ok, ih h1]
    · rfl

theorem Bounded.leaves_eq {w node fuel : ℕ} (h : t.Bounded w node) (hf : w < fuel)
    (path : List Bool) :
    t.leaves skip spent fuel node path = t.leaves skip spent (w + 1) node path := by
  induction fuel, hf using Nat.le_induction with
  | base => rfl
  | succ fuel hle ih => rw [leaves_succ_of_none (h.leaves_raised_none hle path), ih]

theorem Bounded.length_le {w node leaf : ℕ} {p : List Bool} (h : t.Bounded w node)
    (hr : t.Reaches node p leaf) : p.length ≤ w := by
  rcases List.eq_nil_or_concat p with rfl | ⟨q, b, rfl⟩
  · exact Nat.zero_le _
  · rw [List.concat_eq_append] at hr ⊢
    obtain ⟨mid, hq, hb⟩ := reaches_append.mp hr
    have := h.length_lt hq (reaches_cons.mp hb).1
    rw [List.length_append, List.length_singleton]
    omega

/-- No path comes back to a node below a bounded one. -/
theorem Bounded.not_reaches_self {w node mid : ℕ} {p s : List Bool} (h : t.Bounded w node)
    (hp : t.Reaches node p mid) (hm : mid < t.count) (hs : s ≠ []) : ¬ t.Reaches mid s mid := by
  intro hr
  have hall : ∀ k, ∃ q, k ≤ q.length ∧ t.Reaches mid q mid := by
    intro k
    induction k with
    | zero => exact ⟨[], Nat.zero_le _, reaches_nil _⟩
    | succ k ih =>
      obtain ⟨q, hq, hrq⟩ := ih
      have hpos := List.length_pos_iff.mpr hs
      exact ⟨q ++ s, by rw [List.length_append]; omega, reaches_append.mpr ⟨mid, hrq, hr⟩⟩
  obtain ⟨q, hq, hrq⟩ := hall w
  have := h.length_lt (reaches_append.mpr ⟨mid, hp, hrq⟩) hm
  rw [List.length_append] at this
  omega

/-! ## The leaves of a bounded trie -/

/-- The leaves a traversal from node 0 of a trie bounded by `w` lists. -/
def visited (t : BitTrie ε) (skip : ℕ → List Bool → Bool) (spent : ε) (w : ℕ) :
    List (ℕ × List Bool) := (t.leaves skip spent (w + 1) 0 []).yields

theorem Bounded.leaves_eq_visited {w fuel : ℕ} (h : t.Bounded w 0) (hf : w < fuel) :
    t.leaves skip spent fuel 0 [] = ⟨t.visited skip spent w, none⟩ := by
  rw [h.leaves_eq hf, visited, ← h.leaves_raised_none (Nat.lt_succ_self w) []]

/-- The leaves listed are those that no skipped value hides. -/
theorem Bounded.mem_visited {w leaf : ℕ} {p : List Bool} (h : t.Bounded w 0) :
    (leaf, p) ∈ t.visited skip spent w ↔
      t.Reaches 0 p leaf ∧ t.count < leaf ∧ t.Open skip 0 [] p := by
  constructor
  · intro hm
    obtain ⟨q, rfl, hr, hl, ho⟩ := mem_leaves hm
    exact ⟨hr, hl, ho⟩
  · rintro ⟨hr, hl, ho⟩
    exact mem_leaves_of_none (h.leaves_raised_none (Nat.lt_succ_self w) []) hr hl ho

end BitTrie
