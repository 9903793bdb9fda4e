import Unlucky21.Lib.Bytes

/-!
# The true difficulty of a share

The block inserted before `datum_reward_share_submit`. A share hash is a
256-bit number in little-endian order whose top word is known to be zero; the
next two words decide the difficulty, and a hash below both gets a constant.
The arithmetic of `double` is exact here.
-/

namespace Stratum

open Wire

abbrev ShareHash := Vector UInt8 32

/-- The hash as a number. -/
def ShareHash.value (h : ShareHash) : ℕ := leNat h.toList

/-- Four bytes shifted into place, the most significant first. -/
def word32 (b3 b2 b1 b0 : UInt8) : UInt32 :=
  (b3.toUInt32 <<< 24) ||| (b2.toUInt32 <<< 16) ||| (b1.toUInt32 <<< 8) ||| b0.toUInt32

def hHi (shareHash : ShareHash) : UInt32 :=
  word32 shareHash[27] shareHash[26] shareHash[25] shareHash[24]

def hLo (shareHash : ShareHash) : UInt32 :=
  word32 shareHash[23] shareHash[22] shareHash[21] shareHash[20]

def trueDiffComputed (shareHash : ShareHash) : ℚ :=
  if hHi shareHash = 0 then
    (if hLo shareHash > 0 then 0xFFFF * 281474976710656 / (hLo shareHash).toNat else 10 ^ 20)
  else 0xFFFF0000 / ((hHi shareHash).toNat + (hLo shareHash).toNat / 4294967296)

/-! ## The two words as one -/

theorem toNat_word32 (b3 b2 b1 b0 : UInt8) :
    (word32 b3 b2 b1 b0).toNat = leNat [b0, b1, b2, b3] := by
  have h0 := b0.toNat_lt
  have h1 := b1.toNat_lt
  have h2 := b2.toNat_lt
  have h3 := b3.toNat_lt
  have e3 : b3.toNat <<< 24 % 2 ^ 32 = b3.toNat <<< 24 := by
    rw [Nat.shiftLeft_eq]; omega
  have e2 : b2.toNat <<< 16 % 2 ^ 32 = b2.toNat <<< 16 := by
    rw [Nat.shiftLeft_eq]; omega
  have e1 : b1.toNat <<< 8 % 2 ^ 32 = b1.toNat <<< 8 := by
    rw [Nat.shiftLeft_eq]; omega
  have o32 : b3.toNat <<< 24 ||| b2.toNat <<< 16 = (b3.toNat <<< 8 + b2.toNat) <<< 16 := by
    rw [Nat.shiftLeft_add_eq_or_of_lt h2, Nat.shiftLeft_or_distrib, ← Nat.shiftLeft_add]
  have o21 : (b3.toNat <<< 8 + b2.toNat) <<< 16 ||| b1.toNat <<< 8 =
      ((b3.toNat <<< 8 + b2.toNat) <<< 8 + b1.toNat) <<< 8 := by
    rw [Nat.shiftLeft_add_eq_or_of_lt h1, Nat.shiftLeft_or_distrib, ← Nat.shiftLeft_add]
  simp only [word32, UInt32.toNat_or, UInt32.toNat_shiftLeft, UInt8.toNat_toUInt32,
    UInt32.reduceToNat, Nat.reduceMod]
  rw [e3, e2, e1, o32, o21, ← Nat.shiftLeft_add_eq_or_of_lt h0]
  simp only [leNat, Nat.shiftLeft_eq]
  ring

/-- Both words, `h_hi` in front. -/
def words (shareHash : ShareHash) : ℕ :=
  (hHi shareHash).toNat * 2 ^ 32 + (hLo shareHash).toNat

variable {a b shareHash : ShareHash}

/-- What is known of a share that is accepted: its top word is zero. -/
def TopWordZero (shareHash : ShareHash) : Prop :=
  shareHash[28] = 0 ∧ shareHash[29] = 0 ∧ shareHash[30] = 0 ∧ shareHash[31] = 0

instance : Decidable (TopWordZero shareHash) := inferInstanceAs (Decidable (_ ∧ _))

theorem leNat_high_bytes (h : TopWordZero shareHash) :
    leNat (shareHash.toList.drop 20) = words shareHash := by
  obtain ⟨h28, h29, h30, h31⟩ := h
  have hdrop : shareHash.toList.drop 20 =
      [shareHash[20], shareHash[21], shareHash[22], shareHash[23]] ++
        ([shareHash[24], shareHash[25], shareHash[26], shareHash[27]] ++
          [shareHash[28], shareHash[29], shareHash[30], shareHash[31]]) := by
    apply List.ext_getElem (by simp)
    intro i hi _
    simp only [List.length_drop, Vector.length_toList] at hi
    interval_cases i <;> simp
  rw [hdrop, leNat_append, leNat_append, words, hHi, hLo, toNat_word32, toNat_word32]
  simp [leNat, h28, h29, h30, h31]
  ring

/-- The two words are the hash without its low 160 bits. -/
theorem value_div (h : TopWordZero shareHash) : shareHash.value / 2 ^ 160 = words shareHash := by
  have hlow := leNat_lt (shareHash.toList.take 20)
  have hlen : (shareHash.toList.take 20).length = 20 := by simp
  rw [hlen] at hlow
  rw [ShareHash.value, ← List.take_append_drop 20 shareHash.toList, leNat_append, hlen,
    leNat_high_bytes h]
  omega

/-! ## The difficulty -/

/-- **One formula.** Both branches divide the difficulty-1 target by the same number. -/
theorem trueDiffComputed_eq (h : words shareHash ≠ 0) :
    trueDiffComputed shareHash = 0xFFFF * 2 ^ 48 / words shareHash := by
  unfold trueDiffComputed
  split_ifs with hhi hlo
  · simp [words, hhi]
    norm_num
  · have hlo' : hLo shareHash = 0 := by simpa using hlo
    simp [words, hhi, hlo'] at h
  · have hw : ((words shareHash : ℕ) : ℚ) =
        ((hHi shareHash).toNat + (hLo shareHash).toNat / 4294967296) * 2 ^ 32 := by
      simp only [words]
      push_cast
      ring
    rw [hw]
    field_simp
    norm_num

theorem trueDiffComputed_zero (h : words shareHash = 0) : trueDiffComputed shareHash = 10 ^ 20 := by
  have hhi : hHi shareHash = 0 := UInt32.toNat_inj.mp (by simp [words] at h; exact h.1)
  have hlo : hLo shareHash = 0 := UInt32.toNat_inj.mp (by simp [words] at h; exact h.2)
  simp [trueDiffComputed, hhi, hlo]

/-- The constant is above every quotient. -/
theorem trueDiffComputed_le (shareHash : ShareHash) : trueDiffComputed shareHash ≤ 10 ^ 20 := by
  by_cases h : words shareHash = 0
  · exact (trueDiffComputed_zero h).le
  · have hpos : (1 : ℚ) ≤ words shareHash := by exact_mod_cast Nat.one_le_iff_ne_zero.mpr h
    rw [trueDiffComputed_eq h]
    calc (0xFFFF * 2 ^ 48 : ℚ) / words shareHash ≤ 0xFFFF * 2 ^ 48 :=
          div_le_self (by norm_num) hpos
      _ ≤ 10 ^ 20 := by norm_num

theorem trueDiffComputed_anti (h : words a ≤ words b) :
    trueDiffComputed b ≤ trueDiffComputed a := by
  by_cases ha : words a = 0
  · rw [trueDiffComputed_zero ha]
    exact trueDiffComputed_le b
  · have hb : words b ≠ 0 := by omega
    have hpos : (0 : ℚ) < words a := by exact_mod_cast Nat.pos_of_ne_zero ha
    have hle : (words a : ℚ) ≤ words b := by exact_mod_cast h
    rw [trueDiffComputed_eq ha, trueDiffComputed_eq hb]
    exact div_le_div_of_nonneg_left (by norm_num) hpos hle

theorem words_ne_zero (h : ¬ (hHi shareHash = 0 ∧ hLo shareHash = 0)) :
    words shareHash ≠ 0 := by
  intro h0
  simp only [words, Nat.add_eq_zero_iff, Nat.mul_eq_zero] at h0
  exact h ⟨UInt32.toNat_inj.mp (by simpa using h0.1), UInt32.toNat_inj.mp h0.2⟩

/-- **A better hash never ranks lower**; and unless both words are zero the
difficulty is the difficulty-1 target over the hash with its low 160 bits cleared. -/
theorem better_hash_not_lower (ha : TopWordZero a) (hb : TopWordZero b) :
    (a.value < b.value → trueDiffComputed b ≤ trueDiffComputed a) ∧
      (¬ (hHi a = 0 ∧ hLo a = 0) →
        trueDiffComputed a = 0xFFFF * 2 ^ 208 / ((a.value / 2 ^ 160 * 2 ^ 160 : ℕ) : ℚ)) := by
  constructor
  · intro hlt
    apply trueDiffComputed_anti
    rw [← value_div ha, ← value_div hb]
    exact Nat.div_le_div_right hlt.le
  · intro hwords
    have hne := words_ne_zero hwords
    have hpos : (words a : ℚ) ≠ 0 := by exact_mod_cast hne
    rw [trueDiffComputed_eq hne, value_div ha]
    push_cast
    field_simp
    norm_num

/-- The seam: the smallest hash of the upper branch against the largest of the lower. -/
def lastBelow : ShareHash := Vector.ofFn fun i => if i < 24 then 0xff else 0

def firstAbove : ShareHash := Vector.ofFn fun i => if i = 24 then 1 else 0

theorem better_hash_not_lower_seam :
    trueDiffComputed firstAbove ≤ trueDiffComputed lastBelow ∧
      trueDiffComputed firstAbove =
        0xFFFF * 2 ^ 208 / ((firstAbove.value / 2 ^ 160 * 2 ^ 160 : ℕ) : ℚ) := by
  have hbelow : TopWordZero lastBelow := by decide
  have habove : TopWordZero firstAbove := by decide
  exact ⟨(better_hash_not_lower hbelow habove).1 (by decide +kernel),
    (better_hash_not_lower habove hbelow).2 (by decide)⟩

end Stratum
