import Mathlib

/-!
# Little-endian integers and hexadecimal text

Byte strings are lists of `UInt8`, texts are lists of characters. The printing
functions are those of C's `printf`: `printHex w n` is `%0{w}x`. Reading hex
back goes through a digit-pair reader that is a parameter, so that the lemmas
serve any reader that inverts the printed digits.
-/

namespace Wire

abbrev Bytes := List UInt8
abbrev Text := List Char

/-! ## Little-endian integers -/

/-- The `k` low bytes of `n`, least significant first. -/
def leBytes : ℕ → ℕ → Bytes
  | 0, _ => []
  | k + 1, n => UInt8.ofNat n :: leBytes k (n / 256)

def leNat : Bytes → ℕ
  | [] => 0
  | b :: bs => b.toNat + 256 * leNat bs

@[simp] theorem leBytes_length (k n : ℕ) : (leBytes k n).length = k := by
  induction k generalizing n with
  | zero => rfl
  | succ k ih => simp [leBytes, ih]

theorem leNat_leBytes_mod (k n : ℕ) : leNat (leBytes k n) = n % 256 ^ k := by
  induction k generalizing n with
  | zero => simp [leBytes, leNat, Nat.mod_one]
  | succ k ih =>
      have hb : (UInt8.ofNat n).toNat = n % 256 := by simp
      rw [leBytes, leNat, ih, hb, pow_succ', Nat.mod_mul]

theorem leNat_leBytes {k n : ℕ} (h : n < 256 ^ k) : leNat (leBytes k n) = n := by
  rw [leNat_leBytes_mod, Nat.mod_eq_of_lt h]

theorem leNat_lt (bs : Bytes) : leNat bs < 256 ^ bs.length := by
  induction bs with
  | nil => simp [leNat]
  | cons b bs ih =>
      have hb : b.toNat < 256 := b.toNat_lt
      have hmul : 256 * leNat bs + 256 ≤ 256 * 256 ^ bs.length := by omega
      rw [leNat, List.length_cons, pow_succ']
      omega

theorem leBytes_leNat (bs : Bytes) : leBytes bs.length (leNat bs) = bs := by
  induction bs with
  | nil => rfl
  | cons b bs ih =>
      have hb : b.toNat < 256 := b.toNat_lt
      have hdiv : (b.toNat + 256 * leNat bs) / 256 = leNat bs := by omega
      have hmod : UInt8.ofNat (b.toNat + 256 * leNat bs) = b := by
        apply UInt8.toNat_inj.mp
        simp only [UInt8.toNat_ofNat']
        omega
      rw [List.length_cons, leNat, leBytes, hdiv, ih, hmod]

theorem leNat_append (as bs : Bytes) :
    leNat (as ++ bs) = leNat as + 256 ^ as.length * leNat bs := by
  induction as with
  | nil => simp [leNat]
  | cons a as ih =>
      rw [List.cons_append, leNat, ih, leNat, List.length_cons, pow_succ']
      ring

/-! ## Hexadecimal printing -/

/-- The digits of `n`, padded with zeros to at least `w` of them: `%0{w}x`. -/
def printHex (w n : ℕ) : Text :=
  List.replicate (w - (Nat.toDigits 16 n).length) '0' ++ Nat.toDigits 16 n

/-- Exactly `w` digits, most significant first. -/
def hexFixed : ℕ → ℕ → Text
  | 0, _ => []
  | w + 1, n => hexFixed w (n / 16) ++ [(n % 16).digitChar]

@[simp] theorem hexFixed_length (w n : ℕ) : (hexFixed w n).length = w := by
  induction w generalizing n with
  | zero => rfl
  | succ w ih => simp [hexFixed, ih]

theorem hexFixed_zero (w : ℕ) : hexFixed w 0 = List.replicate w '0' := by
  induction w with
  | zero => rfl
  | succ w ih => simp [hexFixed, ih, List.replicate_succ', Nat.digitChar]

/-- A number that fits its field is printed on exactly that many digits. -/
theorem printHex_eq_hexFixed {w n : ℕ} (hw : 0 < w) (h : n < 16 ^ w) :
    printHex w n = hexFixed w n := by
  induction w generalizing n with
  | zero => omega
  | succ w ih =>
      rw [hexFixed]
      by_cases hn : n < 16
      · have hdiv : n / 16 = 0 := by omega
        have hmod : n % 16 = n := by omega
        rw [printHex, Nat.toDigits_of_lt_base hn, hdiv, hmod, hexFixed_zero]
        simp
      · have hw' : 0 < w := by
          rcases Nat.eq_zero_or_pos w with rfl | hpos
          · simp at h; omega
          · exact hpos
        have hlt : n / 16 < 16 ^ w := by
          rw [pow_succ] at h
          omega
        rw [← ih hw' hlt, printHex, Nat.toDigits_of_base_le (by norm_num) (by omega), printHex]
        simp only [List.length_append, List.length_singleton, Nat.add_sub_add_right,
          List.append_assoc]

/-! ## Reading hexadecimal -/

/-- Read a text two characters at a time; an odd last character is read with
the terminating NUL behind it. -/
def unhex (digits : Char → Char → UInt8) : Text → Bytes
  | [] => []
  | [c] => [digits c '\x00']
  | c :: d :: t => digits c d :: unhex digits t

theorem unhex_append {digits : Char → Char → UInt8} :
    ∀ {s t : Text}, 2 ∣ s.length →
      unhex digits (s ++ t) = unhex digits s ++ unhex digits t
  | [], _, _ => rfl
  | [_], _, h => by simp at h
  | c :: d :: s, t, h => by
      have hs : 2 ∣ s.length := by simp only [List.length_cons] at h; omega
      simp [unhex, unhex_append hs]

theorem unhex_length {digits : Char → Char → UInt8} :
    ∀ {s : Text}, 2 ∣ s.length → 2 * (unhex digits s).length = s.length
  | [], _ => rfl
  | [_], h => by simp at h
  | c :: d :: s, h => by
      have hs : 2 ∣ s.length := by simp only [List.length_cons] at h; omega
      have ih : 2 * (unhex digits s).length = s.length := unhex_length hs
      simp only [unhex, List.length_cons]
      omega

/-- A reader that inverts the printed (lower-case) digits. -/
def ReadsDigits (digits : Char → Char → UInt8) : Prop :=
  ∀ hi lo, hi < 16 → lo < 16 →
    digits (Nat.digitChar hi) (Nat.digitChar lo) = UInt8.ofNat (16 * hi + lo)

end Wire
