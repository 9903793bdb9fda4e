import Unlucky21.Lib.Bytes
import Unlucky21.Lib.Int64
import Unlucky21.Lib.SignificantDigits

/-!
# Splitting the block reward

`BuildOutputs` takes the two float64 cuts off the total, divides the rest by
21, and gives the pool what the divisions and the empty slots leave over. All
integer arithmetic is int64. `splitReward` is the part after the cuts, for
whatever the two conversions yield.
-/

namespace Reward

open Wire Int64Arith SignificantDigits

def finderPercent : ℚ := binary64 (21 / 1000)

def poolFeePercent : ℚ := binary64 (21 / 1000)

def maxRankedSlots : ℕ := 21

def poolFeeAddress : Text := "1DR9pDLvFVnaJBRT5M4hUJLiuCQ7YE8D7b".toList

structure CoinbaseOutput where
  address : Text
  amountSats : ℤ
deriving DecidableEq, Repr

/-- `int64(float64(total) * percent)`. -/
def cut (percent : ℚ) (total : ℤ) : ℤ := trunc (binary64 (binary64 total * percent))

def remaining (total finderAmount poolFeeBase : ℤ) : ℤ :=
  int64 (int64 (total - finderAmount) - poolFeeBase)

def perSlot (total finderAmount poolFeeBase : ℤ) : ℤ :=
  (remaining total finderAmount poolFeeBase).tdiv maxRankedSlots

/-- The base cut, the slots nobody fills and the dust of the division. -/
def poolFeeOut (total finderAmount poolFeeBase : ℤ) (filledSlots : ℕ) : ℤ :=
  let slot := perSlot total finderAmount poolFeeBase
  let dust := int64 (remaining total finderAmount poolFeeBase - int64 (slot * maxRankedSlots))
  let unfilledSlots : ℤ := maxRankedSlots - filledSlots
  int64 (int64 (poolFeeBase + int64 (slot * unfilledSlots)) + dust)

def splitReward (minerAddress : Text) (total finderAmount poolFeeBase : ℤ)
    (ranked : List Text) : List CoinbaseOutput :=
  let slot := perSlot total finderAmount poolFeeBase
  let filledSlots := min ranked.length maxRankedSlots
  ⟨minerAddress, finderAmount⟩ :: (ranked.take filledSlots).map (⟨·, slot⟩) ++
    [⟨poolFeeAddress, poolFeeOut total finderAmount poolFeeBase filledSlots⟩]

/-- The outputs, or the message of the panic when they do not add up. -/
def checkedSplit (minerAddress : Text) (total finderAmount poolFeeBase : ℤ)
    (ranked : List Text) : Except String (List CoinbaseOutput) :=
  let outputs := splitReward minerAddress total finderAmount poolFeeBase ranked
  let got := outputs.foldl (fun got o => int64 (got + o.amountSats)) 0
  if got = total then .ok outputs else .error "coinbase: output sum invariant violated"

def buildOutputs (minerAddress : Text) (subsidySats feesSats : ℤ) (ranked : List Text) :
    Except String (List CoinbaseOutput) :=
  let total := int64 (subsidySats + feesSats)
  checkedSplit minerAddress total (cut finderPercent total) (cut poolFeePercent total) ranked

/-! ## The cuts -/

/-- Three roundings and a truncation: the product at most three half units up. -/
theorem abs_cut_le (percent : ℚ) (total : ℤ) :
    |(cut (binary64 percent) total : ℚ)| ≤
      |(total : ℚ)| * |percent| * (1 + 1 / 2 ^ 53) ^ 3 := by
  have hpercent := abs_binary64_le percent
  have htotal := abs_binary64_le (total : ℚ)
  have hu : (0 : ℚ) ≤ 1 + 1 / 2 ^ 53 := by norm_num
  calc |(cut (binary64 percent) total : ℚ)|
      ≤ |binary64 (binary64 total * binary64 percent)| := abs_trunc_le _
    _ ≤ |binary64 (total : ℚ) * binary64 percent| * (1 + 1 / 2 ^ 53) := abs_binary64_le _
    _ = |binary64 (total : ℚ)| * |binary64 percent| * (1 + 1 / 2 ^ 53) := by rw [abs_mul]
    _ ≤ (|(total : ℚ)| * (1 + 1 / 2 ^ 53)) * (|percent| * (1 + 1 / 2 ^ 53)) *
          (1 + 1 / 2 ^ 53) := by gcongr
    _ = |(total : ℚ)| * |percent| * (1 + 1 / 2 ^ 53) ^ 3 := by ring

theorem cut_nonneg {percent : ℚ} (hp : 0 ≤ percent) {total : ℤ} (ht : 0 ≤ total) :
    0 ≤ cut (binary64 percent) total := by
  have htotal : (0 : ℚ) ≤ total := by exact_mod_cast ht
  exact trunc_nonneg (binary64_nonneg (mul_nonneg (binary64_nonneg htotal) (binary64_nonneg hp)))

theorem cut_nonpos {percent : ℚ} (hp : 0 ≤ percent) {total : ℤ} (ht : total ≤ 0) :
    cut (binary64 percent) total ≤ 0 := by
  have htotal : (total : ℚ) ≤ 0 := by exact_mod_cast ht
  exact trunc_nonpos (binary64_nonpos
    (mul_nonpos_of_nonpos_of_nonneg (binary64_nonpos htotal) (binary64_nonneg hp)))

/-! ## The sum -/

theorem sum_amounts_splitReward (miner : Text) (total f p : ℤ) (ranked : List Text) :
    ((splitReward miner total f p ranked).map CoinbaseOutput.amountSats).sum =
      f + ((min ranked.length maxRankedSlots : ℕ) * perSlot total f p +
        poolFeeOut total f p (min ranked.length maxRankedSlots)) := by
  have hk_le : min ranked.length maxRankedSlots ≤ ranked.length := min_le_left _ _
  generalize hk : min ranked.length maxRankedSlots = k at hk_le ⊢
  simp [splitReward, hk, Function.comp_def, List.map_const', hk_le]

/-- The sum of the amounts, over the integers, is the total up to a multiple
of 2^64. -/
theorem sum_splitReward_modEq (miner : Text) (total f p : ℤ) (ranked : List Text) :
    ((splitReward miner total f p ranked).map CoinbaseOutput.amountSats).sum ≡
      total [ZMOD 2 ^ 64] := by
  set k := min ranked.length maxRankedSlots with hk
  set slot := perSlot total f p with hslot
  have hsum : ((splitReward miner total f p ranked).map CoinbaseOutput.amountSats).sum =
      f + (k * slot + poolFeeOut total f p k) := sum_amounts_splitReward miner total f p ranked
  have hrem : remaining total f p ≡ total - f - p [ZMOD 2 ^ 64] :=
    (int64_modEq _).trans ((int64_modEq _).sub_right p)
  have hpool : poolFeeOut total f p k ≡
      (p + slot * (maxRankedSlots - (k : ℤ))) +
        ((total - f - p) - slot * maxRankedSlots) [ZMOD 2 ^ 64] :=
    (int64_modEq _).trans (((int64_modEq _).trans ((int64_modEq _).add_left p)).add
      ((int64_modEq _).trans (hrem.sub (int64_modEq _))))
  rw [hsum]
  calc f + (k * slot + poolFeeOut total f p k)
      ≡ f + (k * slot + ((p + slot * (maxRankedSlots - (k : ℤ))) +
          ((total - f - p) - slot * maxRankedSlots))) [ZMOD 2 ^ 64] :=
        (hpool.add_left _).add_left _
    _ = total := by ring

/-- The outputs between the finder's and the pool's. -/
theorem splitReward_ranked (miner : Text) (total f p : ℤ) (ranked : List Text) :
    (splitReward miner total f p ranked).tail.dropLast =
      (ranked.take maxRankedSlots).map (⟨·, perSlot total f p⟩) := by
  have hmin : ranked.take (min ranked.length maxRankedSlots) = ranked.take maxRankedSlots := by
    rw [min_comm, ← List.take_take, List.take_length]
  simp [splitReward, hmin]

/-- The panic branch is dead. -/
theorem checkedSplit_eq (miner : Text) {total : ℤ} (h : InRange total) (f p : ℤ)
    (ranked : List Text) :
    checkedSplit miner total f p ranked = .ok (splitReward miner total f p ranked) := by
  have hfold := foldl_int64_add
    ((splitReward miner total f p ranked).map CoinbaseOutput.amountSats) 0
  have h0 : int64 0 = 0 := int64_of_inRange ⟨by norm_num, by norm_num⟩
  rw [List.foldl_map, h0, zero_add, int64_congr (sum_splitReward_modEq miner total f p ranked),
    int64_of_inRange h] at hfold
  simp [checkedSplit, hfold]

theorem buildOutputs_eq (miner : Text) (subsidy fees : ℤ) (ranked : List Text) :
    buildOutputs miner subsidy fees ranked =
      .ok (splitReward miner (int64 (subsidy + fees))
        (cut finderPercent (int64 (subsidy + fees)))
        (cut poolFeePercent (int64 (subsidy + fees))) ranked) :=
  checkedSplit_eq miner (inRange_int64 _) _ _ ranked

end Reward
