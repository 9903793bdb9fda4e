import Mathlib

/-!
# Rounding to significant digits

A floating-point number of base `b` with `p` digits is a rational rounded to a
multiple of its quantum, the power of `b` that leaves exactly `p` digits before
the point. Ties go to the even multiple. The exponent is unbounded, so the
results hold for a machine format as long as its exponent range is not left.

`binary64` is the 53-digit binary format. Conversion back to an integer cuts
the fraction off.
-/

namespace SignificantDigits

/-! ## Round half to even -/

def halfEven (x : ℚ) : ℤ :=
  if x - ⌊x⌋ < 1 / 2 then ⌊x⌋
  else if 1 / 2 < x - ⌊x⌋ then ⌊x⌋ + 1
  else if ⌊x⌋ % 2 = 0 then ⌊x⌋ else ⌊x⌋ + 1

theorem abs_halfEven_sub_le (x : ℚ) : |(halfEven x : ℚ) - x| ≤ 1 / 2 := by
  have h0 := Int.floor_le x
  have h1 := Int.lt_floor_add_one x
  unfold halfEven
  split_ifs with ha hb hc <;> rw [abs_le] <;> push_cast <;> constructor <;> linarith

@[simp] theorem halfEven_intCast (n : ℤ) : halfEven (n : ℚ) = n := by
  simp [halfEven]

theorem halfEven_nonneg {x : ℚ} (h : 0 ≤ x) : 0 ≤ halfEven x := by
  have hf : 0 ≤ ⌊x⌋ := Int.floor_nonneg.mpr h
  unfold halfEven
  split_ifs <;> omega

theorem halfEven_nonpos {x : ℚ} (h : x ≤ 0) : halfEven x ≤ 0 := by
  rcases eq_or_lt_of_le h with rfl | hlt
  · simp [halfEven]
  · have hf : ⌊x⌋ < 0 := Int.floor_lt.mpr (by simpa using hlt)
    unfold halfEven
    split_ifs <;> omega

theorem halfEven_le_floor_add_one (x : ℚ) : halfEven x ≤ ⌊x⌋ + 1 := by
  unfold halfEven
  split_ifs <;> omega

theorem floor_le_halfEven (x : ℚ) : ⌊x⌋ ≤ halfEven x := by
  unfold halfEven
  split_ifs <;> omega

theorem halfEven_mono {x y : ℚ} (h : x ≤ y) : halfEven x ≤ halfEven y := by
  rcases (Int.floor_le_floor h).eq_or_lt with hf | hf
  · -- in one unit interval the larger fraction is rounded up at least as often
    have hsub : x - ⌊x⌋ ≤ y - ⌊y⌋ := by
      rw [hf]
      linarith
    unfold halfEven
    rw [← hf] at hsub ⊢
    split_ifs <;> first | omega | linarith
  · calc halfEven x ≤ ⌊x⌋ + 1 := halfEven_le_floor_add_one x
      _ ≤ ⌊y⌋ := hf
      _ ≤ halfEven y := floor_le_halfEven y

/-! ## Rounding to `p` digits of base `b` -/

def quantum (b p : ℕ) (x : ℚ) : ℚ := (b : ℚ) ^ (Int.log b |x| + 1 - p)

def toDigits (b p : ℕ) (x : ℚ) : ℚ := halfEven (x / quantum b p x) * quantum b p x

variable {b p : ℕ}

theorem quantum_pos (hb : 1 < b) (x : ℚ) : 0 < quantum b p x :=
  zpow_pos (by exact_mod_cast lt_trans one_pos hb) _

theorem abs_toDigits_sub_le_quantum (hb : 1 < b) (x : ℚ) :
    |toDigits b p x - x| ≤ quantum b p x / 2 := by
  have hq := quantum_pos (p := p) hb x
  have hx : x = x / quantum b p x * quantum b p x := by field_simp
  have key := abs_halfEven_sub_le (x / quantum b p x)
  calc |toDigits b p x - x|
      = |((halfEven (x / quantum b p x) : ℚ) - x / quantum b p x) * quantum b p x| := by
        unfold toDigits
        congr 1
        rw [sub_mul, ← hx]
    _ = |(halfEven (x / quantum b p x) : ℚ) - x / quantum b p x| * quantum b p x := by
        rw [abs_mul, abs_of_pos hq]
    _ ≤ 1 / 2 * quantum b p x := by gcongr
    _ = quantum b p x / 2 := by ring

theorem quantum_le (hb : 1 < b) {x : ℚ} (hx : x ≠ 0) :
    quantum b p x ≤ |x| * (b : ℚ) ^ (1 - (p : ℤ)) := by
  have hb0 : (b : ℚ) ≠ 0 := by exact_mod_cast (lt_trans one_pos hb).ne'
  have hlog : (b : ℚ) ^ Int.log b |x| ≤ |x| := Int.zpow_log_le_self hb (abs_pos.mpr hx)
  have hsplit : quantum b p x = (b : ℚ) ^ Int.log b |x| * (b : ℚ) ^ (1 - (p : ℤ)) := by
    rw [quantum, ← zpow_add₀ hb0]
    ring_nf
  rw [hsplit]
  gcongr

/-- **Relative error.** Half a unit in the last of `p` digits. -/
theorem abs_toDigits_sub_le (hb : 1 < b) (x : ℚ) :
    |toDigits b p x - x| ≤ |x| * ((b : ℚ) ^ (1 - (p : ℤ)) / 2) := by
  rcases eq_or_ne x 0 with rfl | hx
  · have h0 : toDigits b p 0 = 0 := by
      have := halfEven_intCast 0
      simp only [Int.cast_zero] at this
      simp [toDigits, this]
    simp [h0]
  · have h1 := abs_toDigits_sub_le_quantum (p := p) hb x
    have h2 := quantum_le (p := p) hb hx
    linarith

theorem toDigits_nonneg (hb : 1 < b) {x : ℚ} (hx : 0 ≤ x) : 0 ≤ toDigits b p x := by
  have hq := quantum_pos (p := p) hb x
  have : (0 : ℚ) ≤ halfEven (x / quantum b p x) := by
    exact_mod_cast halfEven_nonneg (div_nonneg hx hq.le)
  exact mul_nonneg this hq.le

theorem toDigits_nonpos (hb : 1 < b) {x : ℚ} (hx : x ≤ 0) : toDigits b p x ≤ 0 := by
  have hq := quantum_pos (p := p) hb x
  have : (halfEven (x / quantum b p x) : ℚ) ≤ 0 := by
    exact_mod_cast halfEven_nonpos (div_nonpos_of_nonpos_of_nonneg hx hq.le)
  exact mul_nonpos_of_nonpos_of_nonneg this hq.le

/-- An integer of at most `p` digits is kept as it is. -/
theorem toDigits_intCast (hb : 1 < b) {n : ℤ} (hn : |n| < (b : ℤ) ^ p) :
    toDigits b p n = n := by
  have hb0 : (b : ℚ) ≠ 0 := by exact_mod_cast (lt_trans one_pos hb).ne'
  rcases eq_or_ne n 0 with rfl | hn0
  · have := abs_toDigits_sub_le (p := p) hb 0
    simpa using this
  · have habs : (0 : ℚ) < |(n : ℚ)| := by exact_mod_cast abs_pos.mpr hn0
    have hlt : |(n : ℚ)| < (b : ℚ) ^ (p : ℤ) := by
      rw [zpow_natCast]
      exact_mod_cast hn
    have hlog : Int.log b |(n : ℚ)| + 1 ≤ p :=
      (Int.lt_zpow_iff_log_lt hb habs).mp hlt
    -- the quantum is one over a power of `b`, so `n` is a multiple of it
    obtain ⟨k, hk⟩ := Int.eq_ofNat_of_zero_le (sub_nonneg.mpr hlog)
    have hq : quantum b p (n : ℚ) = ((b : ℚ) ^ k)⁻¹ := by
      have : Int.log b |(n : ℚ)| + 1 - p = -(k : ℤ) := by omega
      rw [quantum, this, zpow_neg, zpow_natCast]
    have hdiv : (n : ℚ) / quantum b p (n : ℚ) = ((n * (b : ℤ) ^ k : ℤ) : ℚ) := by
      rw [hq]
      push_cast
      field_simp
    rw [toDigits, hdiv, halfEven_intCast, hq]
    push_cast
    field_simp

/-- Rounding never leaves the decade of `x` downwards, and upwards only to its end. -/
theorem zpow_log_le_toDigits (hb : 1 < b) (hp : 0 < p) {x : ℚ} (hx : 0 < x) :
    (b : ℚ) ^ Int.log b x ≤ toDigits b p x ∧ toDigits b p x ≤ (b : ℚ) ^ (Int.log b x + 1) := by
  have hb0 : (b : ℚ) ≠ 0 := by exact_mod_cast (lt_trans one_pos hb).ne'
  have hq := quantum_pos (p := p) hb x
  have habs : |x| = x := abs_of_pos hx
  -- in units of the quantum the decade is that of the integers with `p` digits
  have hscale : ∀ k : ℕ, ((b ^ k : ℕ) : ℤ) * quantum b p x =
      (b : ℚ) ^ (Int.log b x + 1 - p + k) := by
    intro k
    rw [quantum, habs, zpow_add₀ hb0 _ (k : ℤ), zpow_natCast]
    push_cast
    ring
  have hlow : (b : ℚ) ^ Int.log b x = ((b ^ (p - 1) : ℕ) : ℤ) * quantum b p x := by
    rw [hscale]
    congr 1
    omega
  have hhigh : (b : ℚ) ^ (Int.log b x + 1) = ((b ^ p : ℕ) : ℤ) * quantum b p x := by
    rw [hscale]
    congr 1
    omega
  rw [hlow, hhigh]
  constructor
  · refine mul_le_mul_of_nonneg_right ?_ hq.le
    have hle : (((b ^ (p - 1) : ℕ) : ℤ) : ℚ) ≤ x / quantum b p x := by
      rw [le_div_iff₀ hq, ← hlow]
      exact Int.zpow_log_le_self hb hx
    have := halfEven_mono hle
    rw [halfEven_intCast] at this
    exact_mod_cast this
  · refine mul_le_mul_of_nonneg_right ?_ hq.le
    have hle : x / quantum b p x ≤ (((b ^ p : ℕ) : ℤ) : ℚ) := by
      rw [div_le_iff₀ hq, ← hhigh]
      exact (Int.lt_zpow_succ_log_self hb x).le
    have := halfEven_mono hle
    rw [halfEven_intCast] at this
    exact_mod_cast this

/-- **Rounding is monotone.** -/
theorem toDigits_mono (hb : 1 < b) (hp : 0 < p) {x y : ℚ} (hx : 0 ≤ x) (h : x ≤ y) :
    toDigits b p x ≤ toDigits b p y := by
  rcases hx.eq_or_lt with rfl | hx
  · have h0 : toDigits b p 0 = 0 := by exact_mod_cast toDigits_intCast hb (n := 0) (by positivity)
    rw [h0]
    exact toDigits_nonneg hb h
  · have hy : 0 < y := hx.trans_le h
    rcases (Int.log_mono_right (b := b) hx h).eq_or_lt with hlog | hlog
    · have hquantum : quantum b p x = quantum b p y := by
        rw [quantum, quantum, abs_of_pos hx, abs_of_pos hy, hlog]
      have hq := quantum_pos (p := p) hb y
      rw [toDigits, toDigits, hquantum]
      refine mul_le_mul_of_nonneg_right ?_ hq.le
      exact_mod_cast halfEven_mono (div_le_div_of_nonneg_right h hq.le)
    · have hb1 : (1 : ℚ) ≤ b := by exact_mod_cast hb.le
      calc toDigits b p x ≤ (b : ℚ) ^ (Int.log b x + 1) := (zpow_log_le_toDigits hb hp hx).2
        _ ≤ (b : ℚ) ^ Int.log b y := zpow_le_zpow_right₀ hb1 hlog
        _ ≤ toDigits b p y := (zpow_log_le_toDigits hb hp hy).1

/-! ## The 53-digit binary format -/

def binary64 (x : ℚ) : ℚ := toDigits 2 53 x

theorem abs_binary64_sub_le (x : ℚ) : |binary64 x - x| ≤ |x| / 2 ^ 53 := by
  have h := abs_toDigits_sub_le (p := 53) Nat.one_lt_two x
  have hc : ((2 : ℕ) : ℚ) ^ (1 - ((53 : ℕ) : ℤ)) / 2 = 1 / 2 ^ 53 := by
    norm_num [zpow_neg]
  rw [hc] at h
  calc |binary64 x - x| ≤ |x| * (1 / 2 ^ 53) := h
    _ = |x| / 2 ^ 53 := by ring

theorem abs_binary64_le (x : ℚ) : |binary64 x| ≤ |x| * (1 + 1 / 2 ^ 53) := by
  have herr := abs_binary64_sub_le x
  have htri : |binary64 x| ≤ |binary64 x - x| + |x| := by
    simpa using abs_add_le (binary64 x - x) x
  calc |binary64 x| ≤ |x| / 2 ^ 53 + |x| := by linarith
    _ = |x| * (1 + 1 / 2 ^ 53) := by ring

theorem binary64_nonneg {x : ℚ} (hx : 0 ≤ x) : 0 ≤ binary64 x :=
  toDigits_nonneg Nat.one_lt_two hx

theorem binary64_nonpos {x : ℚ} (hx : x ≤ 0) : binary64 x ≤ 0 :=
  toDigits_nonpos Nat.one_lt_two hx

theorem binary64_intCast {n : ℤ} (hn : |n| < 2 ^ 53) : binary64 n = n :=
  toDigits_intCast Nat.one_lt_two (by exact_mod_cast hn)

theorem binary64_mono {x y : ℚ} (hx : 0 ≤ x) (h : x ≤ y) : binary64 x ≤ binary64 y :=
  toDigits_mono Nat.one_lt_two (by norm_num) hx h

/-- Rounding does not fall below an integer the format has. -/
theorem le_binary64 {n : ℤ} (h0 : 0 ≤ n) (hn : n < 2 ^ 53) {x : ℚ} (h : (n : ℚ) ≤ x) :
    (n : ℚ) ≤ binary64 x := by
  have hexact : binary64 (n : ℚ) = n := binary64_intCast (by rwa [abs_of_nonneg h0])
  rw [← hexact]
  exact binary64_mono (by exact_mod_cast h0) h

/-! ## Cutting the fraction off -/

/-- Truncation toward zero. -/
def trunc (x : ℚ) : ℤ := if 0 ≤ x then ⌊x⌋ else ⌈x⌉

theorem trunc_nonneg {x : ℚ} (hx : 0 ≤ x) : 0 ≤ trunc x := by
  simp [trunc, hx, Int.floor_nonneg]

theorem trunc_le {x : ℚ} (hx : 0 ≤ x) : (trunc x : ℚ) ≤ x := by
  simp [trunc, hx, Int.floor_le]

theorem lt_trunc_add_one {x : ℚ} (hx : 0 ≤ x) : x < trunc x + 1 := by
  simp [trunc, hx, Int.lt_floor_add_one]

theorem trunc_eq {n : ℤ} {x : ℚ} (h0 : 0 ≤ n) (hle : (n : ℚ) ≤ x) (hlt : x < n + 1) :
    trunc x = n := by
  have hx : (0 : ℚ) ≤ x := le_trans (by exact_mod_cast h0) hle
  rw [trunc, if_pos hx]
  exact Int.floor_eq_iff.mpr ⟨hle, hlt⟩

theorem trunc_nonpos {x : ℚ} (hx : x ≤ 0) : trunc x ≤ 0 := by
  rcases eq_or_lt_of_le hx with rfl | hlt
  · simp [trunc]
  · simp [trunc, hlt.not_ge, Int.ceil_le, hx]

theorem le_trunc {x : ℚ} (hx : x ≤ 0) : x ≤ (trunc x : ℚ) := by
  rcases eq_or_lt_of_le hx with rfl | hlt
  · simp [trunc]
  · simp [trunc, hlt.not_ge, Int.le_ceil]

theorem abs_trunc_le (x : ℚ) : |(trunc x : ℚ)| ≤ |x| := by
  rcases le_total 0 x with hx | hx
  · have h0 : (0 : ℚ) ≤ trunc x := by exact_mod_cast trunc_nonneg hx
    rw [abs_of_nonneg h0, abs_of_nonneg hx]
    exact trunc_le hx
  · have h0 : (trunc x : ℚ) ≤ 0 := by exact_mod_cast trunc_nonpos hx
    rw [abs_of_nonpos h0, abs_of_nonpos hx]
    exact neg_le_neg (le_trunc hx)

end SignificantDigits
