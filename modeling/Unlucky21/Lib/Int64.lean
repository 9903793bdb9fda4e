import Mathlib

/-!
# Signed 64-bit arithmetic

A signed word is the integer in `[-2^63, 2^63)` that is congruent to the exact
result. Sums and products may therefore be reduced once at the end.
-/

namespace Int64Arith

def int64 (n : ℤ) : ℤ := n.bmod (2 ^ 64)

def InRange (n : ℤ) : Prop := -2 ^ 63 ≤ n ∧ n < 2 ^ 63

instance (n : ℤ) : Decidable (InRange n) := inferInstanceAs (Decidable (_ ∧ _))

theorem int64_of_inRange {n : ℤ} (h : InRange n) : int64 n = n := by
  unfold InRange at h
  unfold int64
  rw [Int.bmod_eq_of_le] <;> norm_num <;> omega

theorem inRange_int64 (n : ℤ) : InRange (int64 n) := by
  have hlo := Int.le_bmod (x := n) (m := 2 ^ 64) (by norm_num)
  have hhi := Int.bmod_lt (x := n) (m := 2 ^ 64) (by norm_num)
  unfold InRange int64
  norm_num at hlo hhi ⊢
  omega

theorem int64_modEq (n : ℤ) : int64 n ≡ n [ZMOD 2 ^ 64] := by
  have h : int64 n % ((2 ^ 64 : ℕ) : ℤ) = n % ((2 ^ 64 : ℕ) : ℤ) := Int.bmod_emod
  exact_mod_cast h

theorem int64_congr {m n : ℤ} (h : m ≡ n [ZMOD 2 ^ 64]) : int64 m = int64 n := by
  unfold int64
  have : m % ((2 ^ 64 : ℕ) : ℤ) = n % ((2 ^ 64 : ℕ) : ℤ) := by exact_mod_cast h
  rw [← Int.emod_bmod m, this, Int.emod_bmod]

/-- The running total of a loop is the exact sum, reduced once. -/
theorem foldl_int64_add (xs : List ℤ) :
    ∀ acc, xs.foldl (fun acc x => int64 (acc + x)) (int64 acc) = int64 (acc + xs.sum) := by
  induction xs with
  | nil => simp
  | cons x xs ih =>
      intro acc
      have hacc : int64 (int64 acc + x) = int64 (acc + x) :=
        int64_congr ((int64_modEq acc).add_right x)
      rw [List.foldl_cons, hacc, ih, List.sum_cons, add_assoc]

end Int64Arith
