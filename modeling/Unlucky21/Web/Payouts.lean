import Unlucky21.Reward.Payout
import Unlucky21.Reward.Solo
import Unlucky21.Web.Leaderboard

/-!
# One reward, computed in several places

The split of a block reward is written in `BuildOutputs`, in `buildSnapshot` and
in the website's `calcPayouts`; the solo fee in `GetCoinbaseOutputs` and in
`BlockFound`. The percentages are no binary fractions. Their nearest doubles lie
above them, so a product never falls below an integer that the exact one
reaches, and it stays clear of the next one.
-/

namespace Web

open Wire Reward Int64Arith SignificantDigits

/-! ## The percentages -/

theorem le_binary64_rewardPercent : (21 / 1000 : ℚ) ≤ binary64 (21 / 1000) := by decide +kernel

theorem le_binary64_soloPercent : (1 / 100 : ℚ) ≤ binary64 (1 / 100) := by decide +kernel

/-- Two roundings up of a fraction with denominator `d` do not reach the next
integer as long as they are less than one part in `d`. -/
theorem floor_product_eq {a d : ℕ} (hd : 0 < d) (hup : (a / d : ℚ) ≤ binary64 (a / d)) {total : ℤ}
    (h0 : 0 ≤ total) (hsmall : 3 * (a * total) < 2 ^ 53) :
    (((a * total / d : ℤ) : ℚ) ≤ binary64 (total * binary64 (a / d))) ∧
      binary64 (total * binary64 (a / d)) < ((a * total / d : ℤ) : ℚ) + 1 := by
  have hd' : (0 : ℚ) < d := by exact_mod_cast hd
  have ht : (0 : ℚ) ≤ total := by exact_mod_cast h0
  have hexact0 : (0 : ℚ) ≤ a * total / d := by positivity
  have hnonneg : 0 ≤ (a : ℤ) * total := by positivity
  set n := (a : ℤ) * total / d with hn
  have hn0 : 0 ≤ n := Int.ediv_nonneg hnonneg (by omega)
  have hnle : n ≤ a * total := Int.ediv_le_self _ hnonneg
  -- the exact product and the one with the rounded percentage
  have hfloor : (n : ℚ) ≤ a * total / d := by
    rw [le_div_iff₀ hd']
    exact_mod_cast Int.ediv_mul_le (a * total) (by omega : (d : ℤ) ≠ 0)
  have hgap : (a : ℚ) * total / d + 1 / d ≤ n + 1 := by
    rw [← add_div, div_le_iff₀ hd']
    have hlt := Int.lt_ediv_add_one_mul_self (a * total) (by omega : 0 < (d : ℤ))
    exact_mod_cast Int.add_one_le_of_lt hlt
  have hlow : (a * total / d : ℚ) ≤ total * binary64 (a / d) := by
    calc (a * total / d : ℚ) = total * (a / d) := by ring
      _ ≤ total * binary64 (a / d) := by gcongr
  have hpercent : binary64 (a / d) ≤ (a / d : ℚ) * (1 + 1 / 2 ^ 53) := by
    have h := (le_abs_self _).trans (abs_binary64_le (a / d : ℚ))
    rwa [abs_of_nonneg (by positivity : (0 : ℚ) ≤ a / d)] at h
  constructor
  · exact le_binary64 hn0 (by omega) (hfloor.trans hlow)
  · have hx : (0 : ℚ) ≤ total * binary64 (a / d) := hexact0.trans hlow
    have hround : binary64 (total * binary64 (a / d)) ≤
        total * binary64 (a / d) * (1 + 1 / 2 ^ 53) := by
      have h := (le_abs_self _).trans (abs_binary64_le (total * binary64 (a / d)))
      rwa [abs_of_nonneg hx] at h
    have hsmall' : 3 * ((a : ℚ) * total) < 2 ^ 53 := by exact_mod_cast hsmall
    have herror : (a * total / d : ℚ) * (3 / 2 ^ 53) < 1 / d := by
      rw [div_mul_eq_mul_div, div_lt_div_iff_of_pos_right hd']
      linarith
    calc binary64 (total * binary64 (a / d))
        ≤ total * binary64 (a / d) * (1 + 1 / 2 ^ 53) := hround
      _ ≤ total * ((a / d : ℚ) * (1 + 1 / 2 ^ 53)) * (1 + 1 / 2 ^ 53) := by gcongr
      _ = (a * total / d : ℚ) * (1 + 1 / 2 ^ 53) ^ 2 := by ring
      _ ≤ (a * total / d : ℚ) * (1 + 3 / 2 ^ 53) := by
        gcongr
        norm_num
      _ = (a * total / d : ℚ) + (a * total / d : ℚ) * (3 / 2 ^ 53) := by ring
      _ < (a * total / d : ℚ) + 1 / d := by gcongr
      _ ≤ n + 1 := hgap

/-- `int64(float64(total) * percent)` is the exact quotient. -/
theorem cut_eq_ediv {a d : ℕ} (hd : 0 < d) (hup : (a / d : ℚ) ≤ binary64 (a / d)) {total : ℤ}
    (h0 : 0 ≤ total) (hexact : total < 2 ^ 53) (hsmall : 3 * (a * total) < 2 ^ 53) :
    cut (binary64 (a / d)) total = a * total / d := by
  obtain ⟨hle, hlt⟩ := floor_product_eq hd hup h0 hsmall
  have hn0 : 0 ≤ (a : ℤ) * total / d := Int.ediv_nonneg (by positivity) (by omega)
  rw [cut, binary64_intCast (by rwa [abs_of_nonneg h0])]
  exact trunc_eq hn0 hle hlt

/-- `Math.floor` of a rounded quotient is the integer quotient. -/
theorem floor_binary64_div {r d : ℤ} (hd : 0 < d) (h0 : 0 ≤ r) (hr : r < 2 ^ 53) :
    ⌊binary64 (r / d)⌋ = r / d := by
  have hd' : (0 : ℚ) < d := by exact_mod_cast hd
  have hr0 : (0 : ℚ) ≤ r := by exact_mod_cast h0
  have hn0 : 0 ≤ r / d := Int.ediv_nonneg h0 hd.le
  have hnle : r / d ≤ r := Int.ediv_le_self _ h0
  have hfloor : ((r / d : ℤ) : ℚ) ≤ r / d := by
    rw [le_div_iff₀ hd']
    exact_mod_cast Int.ediv_mul_le r hd.ne'
  have hgap : (r : ℚ) / d + 1 / d ≤ ((r / d : ℤ) : ℚ) + 1 := by
    rw [← add_div, div_le_iff₀ hd']
    exact_mod_cast Int.add_one_le_of_lt (Int.lt_ediv_add_one_mul_self r hd)
  have hround : binary64 (r / d) ≤ (r / d : ℚ) * (1 + 1 / 2 ^ 53) := by
    have h := (le_abs_self _).trans (abs_binary64_le (r / d : ℚ))
    rwa [abs_of_nonneg (by positivity)] at h
  have herror : (r / d : ℚ) * (1 / 2 ^ 53) < 1 / d := by
    have hlt : (r : ℚ) < 2 ^ 53 := by exact_mod_cast hr
    rw [div_mul_eq_mul_div, div_lt_div_iff_of_pos_right hd']
    linarith
  refine Int.floor_eq_iff.mpr ⟨le_binary64 hn0 (by omega) hfloor, ?_⟩
  calc binary64 (r / d) ≤ (r / d : ℚ) * (1 + 1 / 2 ^ 53) := hround
    _ = (r / d : ℚ) + (r / d : ℚ) * (1 / 2 ^ 53) := by ring
    _ < (r / d : ℚ) + 1 / d := by gcongr
    _ ≤ ((r / d : ℤ) : ℚ) + 1 := hgap

/-! ## The split -/

/-- Totals up to a million coins. -/
structure SmallTotal (total : ℤ) : Prop where
  nonneg : 0 ≤ total
  most : total ≤ 10 ^ 14

namespace SmallTotal

variable {total : ℤ} (h : SmallTotal total)

include h

theorem int64_eq : int64 total = total := by
  have := h.nonneg
  have := h.most
  exact int64_of_inRange ⟨by omega, by omega⟩

theorem lt_two_pow : total < 2 ^ 53 := by
  have := h.most
  omega

theorem rewardCut_eq : cut (binary64 (21 / 1000)) total = 21 * total / 1000 := by
  have := h.most
  have hup : (((21 : ℕ) : ℚ) / (1000 : ℕ)) ≤ binary64 (((21 : ℕ) : ℚ) / (1000 : ℕ)) := by
    exact_mod_cast le_binary64_rewardPercent
  have hcut := cut_eq_ediv (by norm_num) hup h.nonneg h.lt_two_pow (by push_cast; omega)
  exact_mod_cast hcut

theorem soloCut_eq : cut (binary64 (1 / 100)) total = total / 100 := by
  have := h.most
  have hup : (((1 : ℕ) : ℚ) / (100 : ℕ)) ≤ binary64 (((1 : ℕ) : ℚ) / (100 : ℕ)) := by
    exact_mod_cast le_binary64_soloPercent
  have hcut := cut_eq_ediv (by norm_num) hup h.nonneg h.lt_two_pow (by push_cast; omega)
  have hone : ((1 : ℕ) : ℤ) * total / (100 : ℕ) = total / 100 := by
    rw [Nat.cast_one, one_mul]
    rfl
  rw [← hone, ← hcut]
  norm_num

theorem coveredCuts : CoveredCuts total (21 * total / 1000) (21 * total / 1000) := by
  have := h.nonneg
  have := h.most
  exact ⟨⟨by omega, by omega⟩, by omega, by omega, by omega⟩

theorem perSlot_eq : perSlot total (21 * total / 1000) (21 * total / 1000) =
    (total - 2 * (21 * total / 1000)) / 21 := by
  rw [h.coveredCuts.perSlot_eq]
  congr 1
  ring

theorem poolFeeOut_eq {k : ℕ} (hk : k ≤ 21) :
    poolFeeOut total (21 * total / 1000) (21 * total / 1000) k =
      21 * total / 1000 + (total - 2 * (21 * total / 1000)) / 21 * (21 - k) +
        (total - 2 * (21 * total / 1000)) % 21 := by
  have htwo : total - 21 * total / 1000 - 21 * total / 1000 = total - 2 * (21 * total / 1000) := by
    ring
  rw [h.coveredCuts.poolFeeOut_eq hk, htwo]

theorem calcPayouts_eq {subsidy fees : ℤ} (htotal : subsidy + fees = total) (filledSlots : ℕ) :
    calcPayouts subsidy fees filledSlots =
      ⟨21 * total / 1000, (total - 2 * (21 * total / 1000)) / 21, 21 * total / 1000⟩ := by
  have h0 := h.nonneg
  have h14 := h.most
  have hcut : ⌊binary64 (((total : ℤ) : ℚ) * binary64 (21 / 1000))⌋ = 21 * total / 1000 := by
    have hx : (0 : ℚ) ≤ binary64 ((total : ℚ) * binary64 (21 / 1000)) :=
      binary64_nonneg (mul_nonneg (by exact_mod_cast h0) (binary64_nonneg (by norm_num)))
    have hexact : binary64 (total : ℚ) = total :=
      binary64_intCast (by rw [abs_of_nonneg h0]; exact h.lt_two_pow)
    rw [← h.rewardCut_eq, cut, hexact, trunc, if_pos hx]
  have hslot : ⌊binary64 (((total - 21 * total / 1000 - 21 * total / 1000 : ℤ) : ℚ) / (21 : ℤ))⌋ =
      (total - 2 * (21 * total / 1000)) / 21 := by
    rw [floor_binary64_div (by norm_num) (by omega) (by omega)]
    congr 1
    ring
  simp only [calcPayouts, finderPercent, poolFeePercent, maxRankedSlots, htotal, hcut]
  exact congrArg (fun s => (⟨_, s, _⟩ : Payouts)) hslot

end SmallTotal

/-- **All copies agree.** Up to a million coins every copy of the split takes
2.1 % rounded down, twice, and a twenty-first of the rest, rounded down; both
solo copies take 1 % rounded down. -/
theorem splits_agree {subsidy fees total fee slot : ℤ} (htotal : total = subsidy + fees)
    (hfee : fee = 21 * total / 1000) (hslot : slot = (total - 2 * fee) / 21) (h0 : 0 ≤ total)
    (h14 : total ≤ 10 ^ 14) :
    -- `BuildOutputs`: its cuts, its per-slot amount, and the outputs made of them
    (cut Reward.finderPercent (int64 total) = fee ∧ cut Reward.poolFeePercent (int64 total) = fee ∧
      ∀ miner ranked, buildOutputs miner subsidy fees ranked =
        .ok (⟨miner, fee⟩ :: (ranked.take 21).map (⟨·, slot⟩) ++
          [⟨poolFeeAddress, fee + slot * (21 - (min ranked.length 21 : ℕ)) +
            (total - 2 * fee) % 21⟩])) ∧
    -- `buildSnapshot`
    (subsidy = Reward.subsidySats → ∀ snapshot, buildSnapshot snapshot fees =
      snapshot.map fun e => ⟨e.rank, e.btcAddress, slot⟩) ∧
    (∀ filledSlots, calcPayouts subsidy fees filledSlots = ⟨fee, slot, fee⟩) ∧
    -- the solo pool
    (subsidy = Reward.subsidySats →
      (∀ miner, Solo.getCoinbaseOutputs miner fees =
        [⟨miner, total - total / 100⟩, ⟨poolFeeAddress, total / 100⟩]) ∧
      ∀ msg : BlockFoundMsg, msg.feesSats = fees →
        (Solo.soloBlockRow msg).payoutSats = total - total / 100) := by
  subst htotal hfee hslot
  set total := subsidy + fees
  set fee := 21 * total / 1000
  set slot := (total - 2 * fee) / 21
  have h : SmallTotal total := ⟨h0, h14⟩
  have hcut : cut Reward.finderPercent (int64 total) = fee := by
    rw [h.int64_eq]
    exact h.rewardCut_eq
  have hcut' : cut Reward.poolFeePercent (int64 total) = fee := hcut
  have hsolo : cut Solo.soloFeePercent total = total / 100 := h.soloCut_eq
  have hrest : int64 (total - total / 100) = total - total / 100 :=
    int64_of_inRange ⟨by omega, by omega⟩
  refine ⟨⟨hcut, hcut', fun miner ranked => ?_⟩, ?_, fun filledSlots => h.calcPayouts_eq rfl _, ?_⟩
  · have hmin : ranked.take (min ranked.length Reward.maxRankedSlots) = ranked.take 21 := by
      rw [min_comm, ← List.take_take, List.take_length]
      rfl
    have hpool : poolFeeOut total fee fee (min ranked.length Reward.maxRankedSlots) =
        fee + slot * (21 - (min ranked.length 21 : ℕ)) + (total - 2 * fee) % 21 :=
      h.poolFeeOut_eq (min_le_right _ _)
    rw [buildOutputs_eq, splitReward, hcut, hcut', h.int64_eq, h.perSlot_eq, hmin, hpool]
  · rintro rfl snapshot
    have hslot : perSlot (int64 total) (cut Reward.finderPercent (int64 total))
        (cut Reward.poolFeePercent (int64 total)) = slot := by
      rw [hcut, hcut', h.int64_eq, h.perSlot_eq]
    exact congrArg (fun s => snapshot.map fun e => (⟨e.rank, e.btcAddress, s⟩ : SnapshotEntry)) hslot
  · rintro rfl
    refine ⟨fun miner => ?_, fun msg hmsg => ?_⟩
    · show [(⟨miner, int64 (int64 total - cut Solo.soloFeePercent (int64 total))⟩ : CoinbaseOutput),
        ⟨poolFeeAddress, cut Solo.soloFeePercent (int64 total)⟩] = _
      rw [h.int64_eq, hsolo, hrest]
    · show int64 (int64 (Reward.subsidySats + msg.feesSats) -
        cut Solo.soloFeePercent (int64 (Reward.subsidySats + msg.feesSats))) = _
      rw [hmsg]
      show int64 (int64 total - cut Solo.soloFeePercent (int64 total)) = _
      rw [h.int64_eq, hsolo, hrest]

/-- A total of 1000 times an odd number, where the exact cut is an integer. -/
theorem splits_agree_round :
    buildOutputs ['m'] 312500000 1000 [['a'], ['b']] =
        .ok [⟨['m'], 6562521⟩, ⟨['a'], 14255998⟩, ⟨['b'], 14255998⟩, ⟨poolFeeAddress, 277426483⟩] ∧
      calcPayouts 312500000 1000 2 = ⟨6562521, 14255998, 6562521⟩ := by
  have h := splits_agree (show (312501000 : ℤ) = 312500000 + 1000 by norm_num)
    (show 6562521 = 21 * (312501000 : ℤ) / 1000 by norm_num)
    (show (14255998 : ℤ) = (312501000 - 2 * 6562521) / 21 by norm_num) (by norm_num) (by norm_num)
  exact ⟨h.1.2.2 ['m'] [['a'], ['b']], h.2.2.1 2⟩

end Web
