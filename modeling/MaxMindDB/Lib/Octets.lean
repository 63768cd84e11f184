import Mathlib.Data.List.Basic
import Mathlib.Tactic.Ring
import Mathlib.Tactic.Linarith

/-!
# Byte strings: slices, big-endian numbers and searching

Byte strings are lists of octets. `slice b i j` is the half-open range of `b`, clamped at its
end; `HasBytes b o xs` says that `xs` stands in `b` at offset `o` in full, so that a slice taken
there is exact. `beNat` reads a byte string as a big-endian number and `beBytes` writes one, and
`rfind` is the rightmost occurrence of a needle at or after a start.
-/

namespace Octets

/-- A byte string. -/
abbrev Bytes := List UInt8

/-! ## Slices -/

/-- The bytes of `b` from offset `i` up to, not including, offset `j`. -/
def slice (b : Bytes) (i j : ℕ) : Bytes := (b.drop i).take (j - i)

/-- The byte string `xs` stands in `b` at offset `o`. -/
def HasBytes (b : Bytes) (o : ℕ) (xs : Bytes) : Prop := xs <+: b.drop o

instance (b : Bytes) (o : ℕ) (xs : Bytes) : Decidable (HasBytes b o xs) :=
  inferInstanceAs (Decidable (xs <+: b.drop o))

theorem length_slice (b : Bytes) (i j : ℕ) :
    (slice b i j).length = min (j - i) (b.length - i) := by
  simp [slice]

theorem HasBytes.slice {b xs : Bytes} {o : ℕ} (h : HasBytes b o xs) :
    slice b o (o + xs.length) = xs := by
  unfold Octets.slice
  rw [Nat.add_sub_cancel_left]
  exact (List.prefix_iff_eq_take.mp h).symm

theorem slice_of_hasBytes {b xs : Bytes} {o n : ℕ} (h : HasBytes b o xs) (hn : xs.length = n) :
    slice b o (o + n) = xs := by
  rw [← hn]; exact h.slice

theorem slice_append_of_le {xs : Bytes} {j : ℕ} (h : j ≤ xs.length) (ys : Bytes) (i : ℕ) :
    slice (xs ++ ys) i j = slice xs i j := by
  unfold slice
  rw [List.drop_append, List.take_append_of_le_length]
  rw [List.length_drop]
  exact Nat.sub_le_sub_right h i

theorem hasBytes_slice (b : Bytes) (i j : ℕ) : HasBytes b i (slice b i j) :=
  List.take_prefix _ _

theorem HasBytes.length_le {b xs : Bytes} {o : ℕ} (h : HasBytes b o xs) (hx : xs ≠ []) :
    o + xs.length ≤ b.length := by
  have hle : xs.length ≤ (b.drop o).length := List.IsPrefix.length_le h
  have hpos := List.length_pos_iff.mpr hx
  rw [List.length_drop] at hle
  omega

theorem HasBytes.getElem? {b xs : Bytes} {o k : ℕ} (h : HasBytes b o xs) (hk : k < xs.length) :
    b[o + k]? = xs[k]? := by
  obtain ⟨t, ht⟩ := h
  rw [← List.getElem?_drop, ← ht, List.getElem?_append_left hk]

theorem hasBytes_nil (b : Bytes) (o : ℕ) : HasBytes b o [] := List.nil_prefix

/-- What stands in a string stands in it after bytes are put before and behind. -/
theorem HasBytes.embed {b xs : Bytes} {o : ℕ} (h : HasBytes b o xs) (pre post : Bytes) :
    HasBytes (pre ++ b ++ post) (pre.length + o) xs := by
  obtain ⟨t, ht⟩ := h
  by_cases ho : o ≤ b.length
  · refine ⟨t ++ post, ?_⟩
    rw [← List.append_assoc, ht, List.append_assoc, List.drop_append,
      List.drop_eq_nil_of_le (Nat.le_add_right _ _), Nat.add_sub_cancel_left, List.nil_append,
      List.drop_append_of_le_length ho]
  · rw [List.drop_eq_nil_of_le (by omega)] at ht
    obtain ⟨rfl, -⟩ := List.append_eq_nil_iff.mp ht
    exact hasBytes_nil _ _

theorem hasBytes_append (pre xs post : Bytes) : HasBytes (pre ++ xs ++ post) pre.length xs := by
  refine ⟨post, ?_⟩
  rw [List.append_assoc, List.drop_left]

theorem hasBytes_append_iff {b xs ys : Bytes} {o : ℕ} :
    HasBytes b o (xs ++ ys) ↔ HasBytes b o xs ∧ HasBytes b (o + xs.length) ys := by
  unfold HasBytes
  rw [← List.drop_drop]
  constructor
  · rintro ⟨t, ht⟩
    rw [← ht, List.append_assoc, List.drop_left]
    exact ⟨List.prefix_append _ _, List.prefix_append _ _⟩
  · rintro ⟨⟨t, ht⟩, hy⟩
    rw [← ht, List.drop_left] at hy
    rw [← ht]
    exact (List.prefix_append_right_inj xs).mpr hy

/-! ## Big-endian numbers -/

/-- The big-endian number a byte string spells. -/
def beNat (bs : Bytes) : ℕ := bs.foldl (fun n x => n * 256 + x.toNat) 0

/-- The low `w` bytes of `n`, most significant first. -/
def beBytes : ℕ → ℕ → Bytes
  | 0, _ => []
  | w + 1, n => UInt8.ofNat (n / 256 ^ w % 256) :: beBytes w n

theorem beNat_nil : beNat [] = 0 := rfl

theorem foldl_beNat (bs : Bytes) (n : ℕ) :
    bs.foldl (fun n x => n * 256 + x.toNat) n = n * 256 ^ bs.length + beNat bs := by
  induction bs generalizing n with
  | nil => simp [beNat]
  | cons x xs ih =>
    have h0 : beNat (x :: xs) = x.toNat * 256 ^ xs.length + beNat xs := by
      rw [beNat, List.foldl_cons, ih, Nat.zero_mul, Nat.zero_add]
    rw [List.foldl_cons, ih, h0, List.length_cons, pow_succ]
    ring

theorem beNat_cons (x : UInt8) (bs : Bytes) :
    beNat (x :: bs) = x.toNat * 256 ^ bs.length + beNat bs := by
  rw [beNat, List.foldl_cons, foldl_beNat, Nat.zero_mul, Nat.zero_add]

theorem beNat_singleton (x : UInt8) : beNat [x] = x.toNat := by simp [beNat]

theorem beNat_lt (bs : Bytes) : beNat bs < 256 ^ bs.length := by
  induction bs with
  | nil => simp [beNat]
  | cons x xs ih =>
    have hx : x.toNat + 1 ≤ 256 := x.toNat_lt
    have hmul : (x.toNat + 1) * 256 ^ xs.length ≤ 256 * 256 ^ xs.length :=
      Nat.mul_le_mul_right _ hx
    rw [beNat_cons, List.length_cons, pow_succ']
    linarith [hmul, ih, Nat.add_mul x.toNat 1 (256 ^ xs.length)]

theorem beNat_replicate_append (k : ℕ) (bs : Bytes) :
    beNat (List.replicate k 0 ++ bs) = beNat bs := by
  induction k with
  | zero => rfl
  | succ k ih => rw [List.replicate_succ, List.cons_append, beNat_cons, ih]; simp

@[simp] theorem length_beBytes (w n : ℕ) : (beBytes w n).length = w := by
  induction w with
  | zero => rfl
  | succ w ih => simp [beBytes, ih]

theorem beNat_beBytes_mod (w n : ℕ) : beNat (beBytes w n) = n % 256 ^ w := by
  induction w with
  | zero => simp [beBytes, beNat, Nat.mod_one]
  | succ w ih =>
    have hbyte : (UInt8.ofNat (n / 256 ^ w % 256)).toNat = n / 256 ^ w % 256 := by simp
    rw [beBytes, beNat_cons, hbyte, length_beBytes, ih, pow_succ, Nat.mod_mul]
    ring

theorem beNat_beBytes {w n : ℕ} (h : n < 256 ^ w) : beNat (beBytes w n) = n := by
  rw [beNat_beBytes_mod, Nat.mod_eq_of_lt h]

theorem getElem_beBytes {w n k : ℕ} (hk : k < w) :
    (beBytes w n)[k]? = some (UInt8.ofNat (n / 256 ^ (w - 1 - k) % 256)) := by
  induction w generalizing k with
  | zero => omega
  | succ w ih =>
    cases k with
    | zero => simp [beBytes]
    | succ k =>
      rw [beBytes, List.getElem?_cons_succ, ih (by omega)]
      congr 5
      omega

theorem beNat_eq_zero {bs : Bytes} : beNat bs = 0 ↔ ∀ x ∈ bs, x = 0 := by
  induction bs with
  | nil => simp [beNat_nil]
  | cons x xs ih =>
    rw [beNat_cons, Nat.add_eq_zero_iff, Nat.mul_eq_zero, ih, List.forall_mem_cons]
    have hx : x.toNat = 0 ↔ x = 0 := by
      rw [← UInt8.toNat_inj]
      rfl
    rw [hx]
    simp

theorem foldl_or_eq_zero {bs : Bytes} {z : UInt8} :
    bs.foldl (fun z x => z ||| x) z = 0 ↔ z = 0 ∧ ∀ x ∈ bs, x = 0 := by
  induction bs generalizing z with
  | nil => simp
  | cons x xs ih =>
    rw [List.foldl_cons, ih, UInt8.or_eq_zero_iff, List.forall_mem_cons]
    tauto

theorem take_beBytes (v w n : ℕ) : (beBytes (v + w) n).take v = beBytes v (n / 256 ^ w) := by
  apply List.ext_getElem?
  intro k
  by_cases hk : k < v
  · rw [List.getElem?_take_of_lt hk, getElem_beBytes (by omega), getElem_beBytes hk,
      Nat.div_div_eq_div_mul, ← pow_add]
    congr 5
    omega
  · rw [List.getElem?_eq_none (by rw [List.length_take]; omega),
      List.getElem?_eq_none (by rw [length_beBytes]; omega)]

theorem drop_beBytes (v w n : ℕ) : (beBytes (v + w) n).drop v = beBytes w n := by
  apply List.ext_getElem?
  intro k
  rw [List.getElem?_drop]
  by_cases hk : k < w
  · rw [getElem_beBytes (by omega), getElem_beBytes hk]
    congr 5
    omega
  · rw [List.getElem?_eq_none (by rw [length_beBytes]; omega),
      List.getElem?_eq_none (by rw [length_beBytes]; omega)]

/-- A byte of a number with one more bit. -/
theorem byte_or_two_pow {w d k : ℕ} (n : ℕ) (hd : d / 8 < w) (hk : k < w) :
    (n ||| 2 ^ (8 * w - 1 - d)) / 256 ^ (w - 1 - k) % 256 =
      n / 256 ^ (w - 1 - k) % 256 ||| if d / 8 = k then 1 <<< (7 - d % 8) else 0 := by
  have hpow : 256 ^ (w - 1 - k) = 2 ^ (8 * (w - 1 - k)) := by
    rw [pow_mul]
    norm_num
  apply Nat.eq_of_testBit_eq
  intro i
  rw [hpow, show 256 = 2 ^ 8 by norm_num, Nat.testBit_or, Nat.testBit_mod_two_pow,
    Nat.testBit_mod_two_pow, Nat.testBit_div_two_pow, Nat.testBit_div_two_pow, Nat.testBit_or,
    Nat.testBit_two_pow]
  by_cases hi : i < 8
  · split_ifs with hdk
    · have hiff : 8 * w - 1 - d = i + 8 * (w - 1 - k) ↔ 7 - d % 8 = i := by omega
      rw [Nat.one_shiftLeft, Nat.testBit_two_pow]
      simp [hi, hiff]
    · have hne : 8 * w - 1 - d ≠ i + 8 * (w - 1 - k) := by omega
      simp [hi, hne]
  · split_ifs with hdk
    · have hne : 7 - d % 8 ≠ i := by omega
      rw [Nat.one_shiftLeft, Nat.testBit_two_pow]
      simp [hi, hne]
    · simp [hi]

/-- Setting a bit of the bytes sets it in the number. -/
theorem modify_beBytes {w d : ℕ} (n : ℕ) (hd : d / 8 < w) :
    (beBytes w n).modify (d / 8) (fun x => x ||| UInt8.ofNat (1 <<< (7 - d % 8))) =
      beBytes w (n ||| 2 ^ (8 * w - 1 - d)) := by
  apply List.ext_getElem?
  intro k
  rw [List.getElem?_modify]
  by_cases hk : k < w
  · rw [getElem_beBytes hk, getElem_beBytes hk]
    rw [byte_or_two_pow n hd hk, UInt8.ofNat_or]
    split_ifs <;> simp
  · rw [List.getElem?_eq_none (by rw [length_beBytes]; omega),
      List.getElem?_eq_none (by rw [length_beBytes]; omega)]
    rfl
/-! ## Searching -/

/-- The greatest offset in `[start, i]` at which `needle` stands in `b`. -/
def rfindAux (b needle : Bytes) (start : ℕ) : ℕ → Option ℕ
  | 0 => if start = 0 ∧ needle.isPrefixOf b then some 0 else none
  | i + 1 =>
    if start ≤ i + 1 ∧ needle.isPrefixOf (b.drop (i + 1)) then some (i + 1)
    else rfindAux b needle start i

/-- The rightmost offset at or after `start` at which `needle` stands in `b`. -/
def rfind (b needle : Bytes) (start : ℕ) : Option ℕ := rfindAux b needle start b.length

theorem rfindAux_eq_some {b needle : Bytes} {start i k : ℕ} :
    rfindAux b needle start i = some k ↔
      (start ≤ k ∧ k ≤ i ∧ HasBytes b k needle ∧
        ∀ j, k < j → j ≤ i → start ≤ j → ¬ HasBytes b j needle) := by
  induction i with
  | zero =>
    simp only [rfindAux, List.isPrefixOf_iff_prefix]
    constructor
    · intro h
      split_ifs at h with hc
      cases h
      exact ⟨by omega, le_refl _, hc.2, fun j hj hj' => by omega⟩
    · rintro ⟨h1, h2, h3, -⟩
      obtain rfl : k = 0 := by omega
      rw [if_pos ⟨by omega, h3⟩]
  | succ i ih =>
    simp only [rfindAux, List.isPrefixOf_iff_prefix]
    by_cases hc : start ≤ i + 1 ∧ needle <+: b.drop (i + 1)
    · rw [if_pos hc]
      constructor
      · intro h
        cases h
        exact ⟨hc.1, le_refl _, hc.2, fun j hj hj' => by omega⟩
      · rintro ⟨-, h2, -, h4⟩
        by_contra hne
        have hlt : k < i + 1 := by
          rcases Nat.lt_or_ge k (i + 1) with h | h
          · exact h
          · exact absurd (by rw [show k = i + 1 by omega]) hne
        exact h4 (i + 1) hlt (le_refl _) hc.1 hc.2
    · rw [if_neg hc, ih]
      constructor
      · rintro ⟨h1, h2, h3, h4⟩
        refine ⟨h1, by omega, h3, fun j hj hj' hs hb => ?_⟩
        rcases Nat.lt_or_ge j (i + 1) with hlt | hge
        · exact h4 j hj (by omega) hs hb
        · obtain rfl : j = i + 1 := by omega
          exact hc ⟨hs, hb⟩
      · rintro ⟨h1, h2, h3, h4⟩
        have hne : k ≠ i + 1 := by
          rintro rfl
          exact hc ⟨h1, h3⟩
        exact ⟨h1, by omega, h3, fun j hj hj' => h4 j hj (by omega)⟩

/-- `rfind` finds the last occurrence, and nothing else. -/
theorem rfind_eq_some {b needle : Bytes} {start k : ℕ} (hn : needle ≠ []) :
    rfind b needle start = some k ↔
      (start ≤ k ∧ HasBytes b k needle ∧ ∀ j, k < j → ¬ HasBytes b j needle) := by
  rw [rfind, rfindAux_eq_some]
  constructor
  · rintro ⟨h1, -, h3, h4⟩
    refine ⟨h1, h3, fun j hj hb => ?_⟩
    have := hb.length_le hn
    exact h4 j hj (by omega) (by omega) hb
  · rintro ⟨h1, h3, h4⟩
    have := h3.length_le hn
    exact ⟨h1, by omega, h3, fun j hj _ _ => h4 j hj⟩

theorem rfind_drop {b needle : Bytes} (hn : needle ≠ []) (start : ℕ) :
    (rfind (b.drop start) needle 0).map (start + ·) = rfind b needle start := by
  have hdrop : ∀ j, HasBytes (b.drop start) j needle ↔ HasBytes b (start + j) needle := fun j => by
    rw [HasBytes, HasBytes, List.drop_drop]
  apply Option.ext
  intro k
  rw [rfind_eq_some hn, Option.map_eq_some_iff]
  constructor
  · rintro ⟨j, hj, rfl⟩
    obtain ⟨-, hb, hlast⟩ := (rfind_eq_some hn).mp hj
    refine ⟨Nat.le_add_right _ _, (hdrop j).mp hb, fun i hi hbi => ?_⟩
    obtain ⟨i', rfl⟩ := Nat.exists_eq_add_of_le (show start ≤ i by omega)
    exact hlast i' (by omega) ((hdrop i').mpr hbi)
  · rintro ⟨hle, hb, hlast⟩
    obtain ⟨j, rfl⟩ := Nat.exists_eq_add_of_le hle
    refine ⟨j, (rfind_eq_some hn).mpr ⟨Nat.zero_le _, (hdrop j).mpr hb, fun i hi hbi => ?_⟩, rfl⟩
    exact hlast (start + i) (by omega) ((hdrop i).mp hbi)

theorem hasBytes_dropLast {b xs : Bytes} {o : ℕ} (hx : xs ≠ []) :
    HasBytes b.dropLast o xs ↔ HasBytes b o xs ∧ o + xs.length ≠ b.length := by
  have hpos := List.length_pos_iff.mpr hx
  rw [HasBytes, HasBytes, List.dropLast_eq_take, List.drop_take, List.prefix_take_iff]
  refine and_congr_right fun h => ?_
  have := HasBytes.length_le h hx
  omega

theorem suffix_iff_hasBytes {b xs : Bytes} :
    xs <:+ b ↔ ∃ o, HasBytes b o xs ∧ o + xs.length = b.length := by
  constructor
  · rintro ⟨pre, rfl⟩
    refine ⟨pre.length, ?_, by rw [List.length_append]⟩
    unfold HasBytes
    simp only [List.drop_left, List.prefix_rfl]
  · rintro ⟨o, h, hl⟩
    have heq : xs = b.drop o := h.eq_of_length (by rw [List.length_drop]; omega)
    rw [heq]
    exact List.drop_suffix _ _

/-- The last byte matters to a search when the needle ends there, and only then. -/
theorem rfind_dropLast {b needle : Bytes} (hn : needle ≠ []) {start : ℕ}
    (hs : needle.length ≤ b.length → start + needle.length ≤ b.length) :
    rfind b.dropLast needle start = rfind b needle start ↔ ¬ needle <:+ b := by
  constructor
  · intro h hsuffix
    obtain ⟨o, hb, ho⟩ := suffix_iff_hasBytes.mp hsuffix
    have hlast : ∀ j, o < j → ¬ HasBytes b j needle := fun j hj hbj => by
      have := hbj.length_le hn
      omega
    have hfound := (rfind_eq_some hn).mpr ⟨(by have := hs (by omega); omega : start ≤ o), hb, hlast⟩
    rw [← h] at hfound
    exact ((hasBytes_dropLast hn).mp ((rfind_eq_some hn).mp hfound).2.1).2 ho
  · intro h
    have hall : ∀ j, HasBytes b.dropLast j needle ↔ HasBytes b j needle := fun j => by
      rw [hasBytes_dropLast hn]
      exact and_iff_left_of_imp fun hb heq => h (suffix_iff_hasBytes.mpr ⟨j, hb, heq⟩)
    apply Option.ext
    intro k
    rw [rfind_eq_some hn, rfind_eq_some hn]
    simp only [hall]

end Octets
