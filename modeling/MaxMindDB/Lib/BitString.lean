import MaxMindDB.Lib.Octets
import Mathlib.Data.List.Induction
import Mathlib.Data.Nat.Bitwise

/-!
# Bit strings

A bit string is read from its most significant bit. `ofBits` is the number it spells, `toBits w n`
the low `w` bits of `n`. The strings of one width, ordered as numbers, are split by a prefix into
an interval: `prefix_toBits_iff` turns "`n` begins with the bits `p`" into arithmetic on `n`, and
`Before` is the order of two strings that part at a first differing bit.
-/

namespace BitString

/-- The number a bit string spells, most significant bit first. -/
def ofBits (bs : List Bool) : ℕ := bs.foldl (fun n b => 2 * n + b.toNat) 0

/-- The low `w` bits of `n`, most significant first. -/
def toBits : ℕ → ℕ → List Bool
  | 0, _ => []
  | w + 1, n => n.testBit w :: toBits w n

@[simp] theorem ofBits_nil : ofBits [] = 0 := rfl

theorem ofBits_append_singleton (bs : List Bool) (b : Bool) :
    ofBits (bs ++ [b]) = 2 * ofBits bs + b.toNat := by
  simp [ofBits, List.foldl_append]

theorem shiftLeft_or_toNat (n : ℕ) (b : Bool) : n <<< 1 ||| b.toNat = 2 * n + b.toNat := by
  rw [← Nat.shiftLeft_add_eq_or_of_lt (by cases b <;> decide), Nat.shiftLeft_eq, pow_one,
    Nat.mul_comm]

/-- A shift appends the bit 0. -/
theorem ofBits_left (bs : List Bool) : ofBits bs <<< 1 = ofBits (bs ++ [false]) := by
  have h := shiftLeft_or_toNat (ofBits bs) false
  rw [Bool.toNat_false, Nat.or_zero] at h
  rw [h, ofBits_append_singleton, Bool.toNat_false]

/-- A shift and `||| 1` append the bit 1. -/
theorem ofBits_right (bs : List Bool) : ofBits bs <<< 1 ||| 1 = ofBits (bs ++ [true]) := by
  rw [ofBits_append_singleton]
  exact shiftLeft_or_toNat (ofBits bs) true

theorem ofBits_append (xs ys : List Bool) :
    ofBits (xs ++ ys) = ofBits xs * 2 ^ ys.length + ofBits ys := by
  induction ys using List.reverseRecOn with
  | nil => simp
  | append_singleton ys b ih =>
    rw [← List.append_assoc, ofBits_append_singleton, ofBits_append_singleton, ih,
      List.length_append, List.length_singleton, pow_succ]
    ring

theorem ofBits_cons (b : Bool) (bs : List Bool) :
    ofBits (b :: bs) = b.toNat * 2 ^ bs.length + ofBits bs := by
  have h := ofBits_append [b] bs
  rwa [List.singleton_append, show ofBits [b] = b.toNat by simp [ofBits]] at h

theorem ofBits_lt (bs : List Bool) : ofBits bs < 2 ^ bs.length := by
  induction bs using List.reverseRecOn with
  | nil => simp
  | append_singleton bs b ih =>
    have hb : b.toNat ≤ 1 := Bool.toNat_le b
    rw [ofBits_append_singleton, List.length_append, List.length_singleton, pow_succ]
    omega

/-- The first number of `w` bits that begins with a string. -/
theorem block_lt {p : List Bool} {w : ℕ} (h : p.length ≤ w) :
    ofBits p * 2 ^ (w - p.length) < 2 ^ w := by
  calc ofBits p * 2 ^ (w - p.length)
      < 2 ^ p.length * 2 ^ (w - p.length) :=
        Nat.mul_lt_mul_of_pos_right (ofBits_lt p) (by positivity)
    _ = 2 ^ w := by rw [← pow_add, Nat.add_sub_cancel' h]

theorem ofBits_replicate_false (k : ℕ) : ofBits (List.replicate k false) = 0 := by
  induction k with
  | zero => rfl
  | succ k ih => rw [List.replicate_succ, ofBits_cons, ih]; simp

theorem ofBits_of_prefix_zeros {p : List Bool} {k : ℕ} (h : p <+: List.replicate k false) :
    ofBits p = 0 := by
  rw [(List.prefix_replicate_iff.mp h).2, ofBits_replicate_false]

@[simp] theorem length_toBits (w n : ℕ) : (toBits w n).length = w := by
  induction w with
  | zero => rfl
  | succ w ih => simp [toBits, ih]

theorem getElem?_toBits {w n i : ℕ} (h : i < w) :
    (toBits w n)[i]? = some (n.testBit (w - 1 - i)) := by
  induction w generalizing i with
  | zero => omega
  | succ w ih =>
    cases i with
    | zero => simp [toBits]
    | succ i =>
      rw [toBits, List.getElem?_cons_succ, ih (by omega)]
      congr 2
      omega

theorem ofBits_toBits_mod (w n : ℕ) : ofBits (toBits w n) = n % 2 ^ w := by
  induction w with
  | zero => simp [toBits, Nat.mod_one]
  | succ w ih =>
    rw [toBits, ofBits_cons, ih, length_toBits, Nat.testBit_eq_decide_div_mod_eq, pow_succ,
      Nat.mod_mul]
    rcases Nat.mod_two_eq_zero_or_one (n / 2 ^ w) with h | h <;> simp [h]
    ring

theorem ofBits_toBits {w n : ℕ} (h : n < 2 ^ w) : ofBits (toBits w n) = n := by
  rw [ofBits_toBits_mod, Nat.mod_eq_of_lt h]

theorem ofBits_injective {xs ys : List Bool} (hl : xs.length = ys.length)
    (h : ofBits xs = ofBits ys) : xs = ys := by
  induction xs generalizing ys with
  | nil => exact (List.length_eq_zero_iff.mp hl.symm).symm
  | cons x xs ih =>
    cases ys with
    | nil => simp at hl
    | cons y ys =>
      simp only [List.length_cons, Nat.add_right_cancel_iff] at hl
      have hx := ofBits_lt xs
      have hy := ofBits_lt ys
      rw [ofBits_cons, ofBits_cons, hl] at h
      rw [hl] at hx
      cases x <;> cases y <;> simp only [Bool.toNat_false, Bool.toNat_true] at h
      · rw [ih hl (by omega)]
      · omega
      · omega
      · rw [ih hl (by omega)]

theorem toBits_ofBits (bs : List Bool) : toBits bs.length (ofBits bs) = bs :=
  ofBits_injective (length_toBits _ _) (ofBits_toBits (ofBits_lt bs))

theorem toBits_add (v w n : ℕ) : toBits (v + w) n = toBits v (n / 2 ^ w) ++ toBits w n := by
  apply List.ext_getElem?
  intro i
  by_cases hi : i < v + w
  · rw [getElem?_toBits hi]
    by_cases hv : i < v
    · rw [List.getElem?_append_left (by simpa using hv), getElem?_toBits hv,
        Nat.testBit_div_two_pow]
      congr 2
      omega
    · rw [List.getElem?_append_right (by simpa using hv), length_toBits,
        getElem?_toBits (by omega)]
      congr 2
      omega
  · rw [List.getElem?_eq_none (by simpa using hi), List.getElem?_eq_none]
    simp only [List.length_append, length_toBits]
    omega

theorem toBits_eq_zeros_append {v w n : ℕ} (h : n < 2 ^ w) :
    toBits (v + w) n = List.replicate v false ++ toBits w n := by
  rw [toBits_add, Nat.div_eq_of_lt h]
  congr 1
  apply ofBits_injective (by simp)
  rw [ofBits_replicate_false, ofBits_toBits_mod, Nat.zero_mod]

/-- The `w`-bit string of `n` begins with `p` exactly when `n` lies in the block of `p`. -/
theorem prefix_toBits_iff {w n : ℕ} {p : List Bool} (hp : p.length ≤ w) (hn : n < 2 ^ w) :
    p <+: toBits w n ↔ n / 2 ^ (w - p.length) = ofBits p := by
  obtain ⟨k, rfl⟩ := Nat.exists_eq_add_of_le hp
  rw [Nat.add_sub_cancel_left, toBits_add, List.prefix_iff_eq_take, List.take_left' (by simp)]
  have hlt : n / 2 ^ k < 2 ^ p.length := by
    rw [Nat.div_lt_iff_lt_mul (by positivity), ← pow_add]
    exact hn
  constructor
  · intro h
    conv_rhs => rw [h]
    rw [ofBits_toBits hlt]
  · intro h
    rw [h, toBits_ofBits]

/-! ## The order of strings that part -/

/-- `p` and `q` part at a first differing bit, where `p` goes left and `q` goes right. -/
def Before (p q : List Bool) : Prop := ∃ c, c ++ [false] <+: p ∧ c ++ [true] <+: q

theorem Before.of_prefix {p q p' q' : List Bool} (h : Before p q) (hp : p <+: p') (hq : q <+: q') :
    Before p' q' := by
  obtain ⟨c, h0, h1⟩ := h
  exact ⟨c, h0.trans hp, h1.trans hq⟩

theorem Before.ofBits_lt {p q : List Bool} (h : Before p q) (hl : p.length = q.length) :
    ofBits p < ofBits q := by
  obtain ⟨c, ⟨s, rfl⟩, ⟨t, rfl⟩⟩ := h
  have hst : s.length = t.length := by
    simp only [List.length_append, List.length_singleton] at hl
    omega
  have hs := BitString.ofBits_lt s
  rw [ofBits_append (c ++ [false]), ofBits_append (c ++ [true]), ofBits_append_singleton,
    ofBits_append_singleton, ← hst]
  simp only [Bool.toNat_false, Bool.toNat_true]
  have : (2 * ofBits c + 1) * 2 ^ s.length = (2 * ofBits c + 0) * 2 ^ s.length + 2 ^ s.length := by
    ring
  omega

theorem ofBits_replicate_true (k : ℕ) : ofBits (List.replicate k true) + 1 = 2 ^ k := by
  induction k with
  | zero => rfl
  | succ k ih =>
    rw [List.replicate_succ, ofBits_cons, List.length_replicate, pow_succ]
    simp only [Bool.toNat_true]
    omega

/-- The blocks of two strings that part do not meet, and stand in their order. -/
theorem Before.block_le {p q : List Bool} {w : ℕ} (h : Before p q) (hp : p.length ≤ w)
    (hq : q.length ≤ w) :
    (ofBits p + 1) * 2 ^ (w - p.length) ≤ ofBits q * 2 ^ (w - q.length) := by
  have hlt := (h.of_prefix (List.prefix_append p (List.replicate (w - p.length) true))
    (List.prefix_append q (List.replicate (w - q.length) false))).ofBits_lt (by
      simp only [List.length_append, List.length_replicate]
      omega)
  have hones := ofBits_replicate_true (w - p.length)
  rw [ofBits_append, ofBits_append, ofBits_replicate_false, List.length_replicate,
    List.length_replicate] at hlt
  rw [Nat.add_mul]
  omega

theorem Before.not_common {p q r : List Bool} (h : Before p q) (hp : p <+: r) : ¬ q <+: r := by
  intro hq
  obtain ⟨c, h0, h1⟩ := h.of_prefix hp hq
  have e0 := List.prefix_iff_eq_take.mp h0
  have e1 := List.prefix_iff_eq_take.mp h1
  rw [List.length_append, List.length_singleton] at e0 e1
  have := List.append_cancel_left (e0.trans e1.symm)
  simp at this

theorem Before.irrefl (p : List Bool) : ¬ Before p p := fun h =>
  h.not_common List.prefix_rfl List.prefix_rfl

theorem Before.asymm {p q : List Bool} (h : Before p q) : ¬ Before q p := by
  intro h'
  have hp : p.length ≤ max p.length q.length := le_max_left _ _
  have hq : q.length ≤ max p.length q.length := le_max_right _ _
  have hlt : ∀ (n : ℕ) (bs : List Bool), n * 2 ^ (max p.length q.length - bs.length) <
      (n + 1) * 2 ^ (max p.length q.length - bs.length) := fun n bs =>
    Nat.mul_lt_mul_of_pos_right (Nat.lt_succ_self n) (by positivity)
  have hpq := h.block_le hp hq
  have hqp := h'.block_le hq hp
  exact absurd (((hlt _ _).trans_le hpq).trans ((hlt _ _).trans_le hqp)) (lt_irrefl _)

end BitString
