import Unlucky21.Reward.Rounds

/-!
# The solo pool

No rounds and no leaderboard: the finder takes all but one percent. The split
is computed for the coinbase and once more, from the fees of the found-block
message, for the row that is shown later.
-/

namespace Reward.Solo

open Wire Int64Arith SignificantDigits

def soloFeePercent : ℚ := binary64 (1 / 100)

def getCoinbaseOutputs (minerAddress : Text) (feesSats : ℤ) : List CoinbaseOutput :=
  let total := int64 (subsidySats + feesSats)
  let poolFee := cut soloFeePercent total
  let finderAmount := int64 (total - poolFee)
  [⟨minerAddress, finderAmount⟩, ⟨poolFeeAddress, poolFee⟩]

structure SoloBlockRow where
  height : ℤ
  hash : Text
  finderAddress : Text
  coinbaseTxid : Text
  feesSats : ℤ
  payoutSats : ℤ
deriving DecidableEq, Repr

/-- The row `BlockFound` writes. -/
def soloBlockRow (msg : BlockFoundMsg) : SoloBlockRow :=
  let total := int64 (subsidySats + msg.feesSats)
  let poolFee := cut soloFeePercent total
  { height := msg.height
    hash := msg.hash
    finderAddress := msg.finderAddress
    coinbaseTxid := msg.coinbaseTxid
    feesSats := msg.feesSats
    payoutSats := int64 (total - poolFee) }

/-- `ON CONFLICT (hash) DO NOTHING`; `none` is a constraint violation. -/
def blockFound (rows : List SoloBlockRow) (msg : BlockFoundMsg) : Option (List SoloBlockRow) :=
  if varchar 64 msg.hash && varchar 90 msg.finderAddress && varchar 64 msg.coinbaseTxid then
    some (if rows.any fun r => r.hash = msg.hash then rows else rows ++ [soloBlockRow msg])
  else none

/-! ## The finder's part grows with the fees -/

def finderPart (total : ℤ) : ℤ := int64 (total - cut soloFeePercent total)

theorem finderPart_subsidy : finderPart subsidySats = 309375000 := by decide +kernel

theorem finderPart_of_gt {total : ℤ} (hlo : subsidySats < total) (hhi : total < 2 ^ 63) :
    309375000 < finderPart total := by
  have hpos : (0 : ℚ) ≤ total := by
    have : (0 : ℤ) ≤ total := by unfold subsidySats at hlo; omega
    exact_mod_cast this
  have htotal : (312500001 : ℚ) ≤ total := by
    have : (312500001 : ℤ) ≤ total := by unfold subsidySats at hlo; omega
    exact_mod_cast this
  have hfee : (cut soloFeePercent total : ℚ) ≤ total * (1 / 100) * (1 + 1 / 2 ^ 53) ^ 3 := by
    have h := abs_cut_le (1 / 100) total
    rw [abs_of_nonneg hpos, abs_of_nonneg (by norm_num : (0 : ℚ) ≤ 1 / 100)] at h
    exact (le_abs_self _).trans h
  have hfee0 : 0 ≤ cut soloFeePercent total :=
    cut_nonneg (by norm_num) (by exact_mod_cast hpos)
  have hgt : (309375000 : ℚ) < total - cut soloFeePercent total := by
    have hc : (1 / 100 : ℚ) * (1 + 1 / 2 ^ 53) ^ 3 ≤ 1 / 100 + 1 / 10 ^ 12 := by norm_num
    have hfee' : (cut soloFeePercent total : ℚ) ≤ total * (1 / 100 + 1 / 10 ^ 12) := by
      calc (cut soloFeePercent total : ℚ) ≤ total * ((1 / 100) * (1 + 1 / 2 ^ 53) ^ 3) := by
            rw [← mul_assoc]
            exact hfee
        _ ≤ total * (1 / 100 + 1 / 10 ^ 12) := by gcongr
    linarith
  have hgt' : 309375000 < total - cut soloFeePercent total := by exact_mod_cast hgt
  rw [finderPart, int64_of_inRange ⟨by omega, by omega⟩]
  exact hgt'

theorem finderPart_of_neg {total : ℤ} (hlo : -2 ^ 63 ≤ total) (hneg : total < 0) :
    finderPart total < 0 := by
  have htotal : (total : ℚ) < 0 := by exact_mod_cast hneg
  have hfee0 : cut soloFeePercent total ≤ 0 := cut_nonpos (by norm_num) hneg.le
  have hfee : -(total : ℚ) * (-1) < cut soloFeePercent total := by
    have h := (abs_le.mp (abs_cut_le (1 / 100) total)).1
    rw [abs_of_neg htotal, abs_of_nonneg (by norm_num : (0 : ℚ) ≤ 1 / 100)] at h
    have hc : (1 / 100 : ℚ) * (1 + 1 / 2 ^ 53) ^ 3 < 1 := by norm_num
    calc -(total : ℚ) * (-1) < -(-total * ((1 / 100) * (1 + 1 / 2 ^ 53) ^ 3)) := by nlinarith
      _ ≤ cut soloFeePercent total := by
        rw [← mul_assoc]
        exact h
  have hlt : total < cut soloFeePercent total := by
    have : (total : ℚ) < cut soloFeePercent total := by linarith
    exact_mod_cast this
  rw [finderPart, int64_of_inRange ⟨by omega, by omega⟩]
  omega

/-- Only without fees does the finder get the finder's part of the subsidy. -/
theorem finderPart_eq_iff {fees : ℤ} (h0 : 0 ≤ fees) (hfees : InRange fees) :
    finderPart (int64 (subsidySats + fees)) = finderPart (int64 (subsidySats + 0)) ↔ fees = 0 := by
  have hsub : int64 (subsidySats + 0) = subsidySats :=
    int64_of_inRange ⟨by norm_num [subsidySats], by norm_num [subsidySats]⟩
  constructor
  · intro heq
    by_contra hne
    rw [hsub, finderPart_subsidy] at heq
    have hrange := inRange_int64 (subsidySats + fees)
    rcases lt_or_ge (subsidySats + fees) (2 ^ 63) with hlt | hge
    · have htotal : int64 (subsidySats + fees) = subsidySats + fees :=
        int64_of_inRange ⟨by unfold subsidySats at *; omega, hlt⟩
      have hgt : 309375000 < finderPart (subsidySats + fees) := finderPart_of_gt (by omega) hlt
      rw [htotal] at heq
      omega
    · -- the sum wraps to a negative total
      have hwrap : int64 (subsidySats + fees) = subsidySats + fees - 2 ^ 64 := by
        have hcongr : int64 (subsidySats + fees) = int64 (subsidySats + fees - 2 ^ 64) :=
          int64_congr (by simp [Int.ModEq])
        rw [hcongr]
        have := hfees.2
        exact int64_of_inRange ⟨by omega, by unfold subsidySats; omega⟩
      have hneg : int64 (subsidySats + fees) < 0 := by
        have := hfees.2
        rw [hwrap]
        unfold subsidySats
        omega
      have := finderPart_of_neg hrange.1 hneg
      omega
  · rintro rfl
    rfl

end Reward.Solo
