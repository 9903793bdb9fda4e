import Unlucky21.Reward.Builder

/-!
# What a block reward is split into

Whatever the cuts are, the outputs add up to the total in int64 arithmetic. If
the total covers them, the split is exact and nobody pays in. For the rewards a
block can have, from the bare subsidy up to all coins there are, every output
gets something.
-/

namespace Reward

open Wire Int64Arith SignificantDigits

/-- Rewards between 3.125 and 21 million coins. -/
structure BlockReward (total : ℤ) : Prop where
  least : 312500000 ≤ total
  most : total ≤ 2100000000000000

variable {total f p : ℤ}

/-- 2.1 % in float64, truncated: something, and less than a fortieth. -/
theorem BlockReward.cut_bounds (h : BlockReward total) :
    0 < cut (binary64 (21 / 1000)) total ∧ 40 * cut (binary64 (21 / 1000)) total ≤ total := by
  have hlo : (312500000 : ℚ) ≤ total := by exact_mod_cast h.least
  have hexact : binary64 (total : ℚ) = total := by
    apply binary64_intCast
    have := h.least
    have := h.most
    rw [abs_of_nonneg (by omega)]
    omega
  have hpercent := abs_le.mp (abs_binary64_sub_le (21 / 1000))
  rw [abs_of_nonneg (by norm_num : (0 : ℚ) ≤ 21 / 1000)] at hpercent
  have hp_lo : (20 / 1000 : ℚ) ≤ binary64 (21 / 1000) := by linarith [hpercent.1]
  have hp_hi : binary64 (21 / 1000) ≤ (22 / 1000 : ℚ) := by linarith [hpercent.2]
  have hx_lo : (total : ℚ) * (20 / 1000) ≤ total * binary64 (21 / 1000) := by gcongr
  have hx_hi : (total : ℚ) * binary64 (21 / 1000) ≤ total * (22 / 1000) := by gcongr
  have hx : (0 : ℚ) ≤ total * binary64 (21 / 1000) := by linarith
  have hround := abs_le.mp (abs_binary64_sub_le ((total : ℚ) * binary64 (21 / 1000)))
  rw [abs_of_nonneg hx] at hround
  have hy_lo : (total : ℚ) * (10 / 1000) ≤ binary64 (total * binary64 (21 / 1000)) := by
    linarith [hround.1]
  have hy_hi : binary64 (total * binary64 (21 / 1000)) ≤ (total : ℚ) * (25 / 1000) := by
    linarith [hround.2]
  have hy : (0 : ℚ) ≤ binary64 (total * binary64 (21 / 1000)) := by linarith
  have hcut : cut (binary64 (21 / 1000)) total =
      trunc (binary64 (total * binary64 (21 / 1000))) := by
    rw [cut, hexact]
  have hfloor := lt_trunc_add_one hy
  have hle := trunc_le hy
  rw [hcut]
  constructor
  · have hq : (0 : ℚ) < trunc (binary64 (total * binary64 (21 / 1000))) := by linarith
    exact_mod_cast hq
  · have hq : (40 : ℚ) * trunc (binary64 (total * binary64 (21 / 1000))) ≤ total := by linarith
    exact_mod_cast hq

/-! ## Cuts the total covers -/

structure CoveredCuts (total f p : ℤ) : Prop where
  inRange : InRange total
  finder : 0 ≤ f
  pool : 0 ≤ p
  covered : f + p ≤ total

namespace CoveredCuts

variable (h : CoveredCuts total f p)

include h

theorem remaining_eq : remaining total f p = total - f - p := by
  obtain ⟨⟨hlo, hhi⟩, hf, hp, hle⟩ := h
  have h1 : InRange (total - f) := ⟨by omega, by omega⟩
  have h2 : InRange (total - f - p) := ⟨by omega, by omega⟩
  rw [remaining, int64_of_inRange h1, int64_of_inRange h2]

theorem perSlot_eq : perSlot total f p = (total - f - p) / 21 := by
  have hle := h.covered
  rw [perSlot, h.remaining_eq]
  exact Int.tdiv_eq_ediv_of_nonneg (by omega)

theorem poolFeeOut_eq {k : ℕ} (hk : k ≤ 21) : poolFeeOut total f p k =
    p + (total - f - p) / 21 * (21 - k) + (total - f - p) % 21 := by
  obtain ⟨⟨hlo, hhi⟩, hf, hp, hle⟩ := id h
  have hmax : ((maxRankedSlots : ℕ) : ℤ) = 21 := rfl
  have hdiv := Int.mul_ediv_add_emod (total - f - p) 21
  set slot := (total - f - p) / 21 with hslot
  have hslot_nonneg : 0 ≤ slot := by omega
  have hslot_le : slot * 21 ≤ total - f - p := by omega
  have hunfilled : 0 ≤ slot * (21 - (k : ℤ)) := mul_nonneg hslot_nonneg (by omega)
  have hunfilled_le : slot * (21 - (k : ℤ)) ≤ slot * 21 :=
    mul_le_mul_of_nonneg_left (by omega) hslot_nonneg
  have hdust : total - f - p - slot * 21 = (total - f - p) % 21 := by omega
  have h1 : InRange (slot * 21) := ⟨by omega, by omega⟩
  have h2 : InRange ((total - f - p) % 21) := ⟨by omega, by omega⟩
  have h3 : InRange (slot * (21 - (k : ℤ))) := ⟨by omega, by omega⟩
  have h4 : InRange (p + slot * (21 - (k : ℤ))) := ⟨by omega, by omega⟩
  have h5 : InRange (p + slot * (21 - (k : ℤ)) + (total - f - p) % 21) := ⟨by omega, by omega⟩
  simp only [poolFeeOut, h.remaining_eq, h.perSlot_eq, hmax, ← hslot]
  rw [int64_of_inRange h1, hdust, int64_of_inRange h2, int64_of_inRange h3, int64_of_inRange h4,
    int64_of_inRange h5]

/-- The pool gets its base cut at least, and with all slots filled the dust. -/
theorem poolFeeOut_bounds {k : ℕ} (hk : k ≤ 21) :
    p ≤ poolFeeOut total f p k ∧ (k = 21 → poolFeeOut total f p k < p + 21) := by
  have hle := h.covered
  have hunfilled : 0 ≤ (total - f - p) / 21 * (21 - (k : ℤ)) :=
    mul_nonneg (by omega) (by omega)
  rw [h.poolFeeOut_eq hk]
  constructor
  · omega
  · rintro rfl
    push_cast
    omega

/-- **Nobody pays in.** -/
theorem splitReward_nonneg (miner : Text) (ranked : List Text) :
    ∀ o ∈ splitReward miner total f p ranked, 0 ≤ o.amountSats := by
  have hle := h.covered
  have hslot := h.perSlot_eq
  have hpool := (h.poolFeeOut_bounds (min_le_right ranked.length maxRankedSlots)).1
  have hp := h.pool
  intro o ho
  simp only [splitReward, List.mem_append, List.mem_cons, List.mem_map, List.not_mem_nil,
    or_false] at ho
  rcases ho with (rfl | ⟨a, -, rfl⟩) | rfl
  · exact h.finder
  · show 0 ≤ perSlot total f p
    omega
  · exact hp.trans hpool

/-- **Nothing is lost.** -/
theorem sum_splitReward (miner : Text) (ranked : List Text) :
    ((splitReward miner total f p ranked).map CoinbaseOutput.amountSats).sum = total := by
  have hdiv := Int.mul_ediv_add_emod (total - f - p) 21
  have hk : min ranked.length maxRankedSlots ≤ 21 := min_le_right _ _
  rw [sum_amounts_splitReward, h.perSlot_eq, h.poolFeeOut_eq hk]
  linarith

end CoveredCuts

/-! ## Rewards a block can have -/

/-- Cuts of which the rest is still most of the total. -/
structure SmallCuts (total f p : ℤ) : Prop where
  reward : BlockReward total
  finder : 0 < f
  finder_le : 40 * f ≤ total
  pool : 0 < p
  pool_le : 40 * p ≤ total

theorem BlockReward.smallCuts (h : BlockReward total) :
    SmallCuts total (cut finderPercent total) (cut poolFeePercent total) :=
  ⟨h, h.cut_bounds.1, h.cut_bounds.2, h.cut_bounds.1, h.cut_bounds.2⟩

namespace SmallCuts

variable (h : SmallCuts total f p)

include h

theorem covered : CoveredCuts total f p := by
  obtain ⟨⟨hlo, hhi⟩, hf, hf', hp, hp'⟩ := h
  exact ⟨⟨by omega, by omega⟩, hf.le, hp.le, by omega⟩

/-- **Everyone gets something.** -/
theorem splitReward_bounds (miner : Text) (ranked : List Text) :
    ∀ o ∈ splitReward miner total f p ranked, 0 < o.amountSats ∧ o.amountSats ≤ total := by
  obtain ⟨⟨hlo, hhi⟩, hf, hf', hp, hp'⟩ := id h
  have hk : min ranked.length maxRankedSlots ≤ 21 := min_le_right _ _
  have hpool := h.covered.poolFeeOut_eq hk
  have hslot := h.covered.perSlot_eq
  have hunfilled : 0 ≤ (total - f - p) / 21 * (21 - ((min ranked.length maxRankedSlots : ℕ) : ℤ)) :=
    mul_nonneg (by omega) (by omega)
  have hunfilled_le : (total - f - p) / 21 * (21 - ((min ranked.length maxRankedSlots : ℕ) : ℤ)) ≤
      (total - f - p) / 21 * 21 := mul_le_mul_of_nonneg_left (by omega) (by omega)
  intro o ho
  simp only [splitReward, List.mem_append, List.mem_cons, List.mem_map, List.not_mem_nil,
    or_false] at ho
  rcases ho with (rfl | ⟨a, -, rfl⟩) | rfl
  · exact ⟨hf, by show f ≤ total; omega⟩
  · show 0 < perSlot total f p ∧ perSlot total f p ≤ total
    omega
  · show 0 < poolFeeOut total f p _ ∧ poolFeeOut total f p _ ≤ total
    omega

end SmallCuts

/-! ## Any two cuts -/

/-- **`BuildOutputs` always balances.** For any two results of the conversions
the panic is not reached, and the outputs add up to the total as int64s. Where
the total covers the cuts, they add up to it exactly. -/
theorem buildOutputs_balances (miner : Text) (subsidy fees f p : ℤ) (ranked : List Text) :
    ∃ slot pool outputs,
      checkedSplit miner (int64 (subsidy + fees)) f p ranked = .ok outputs ∧
      outputs = ⟨miner, f⟩ :: (ranked.take maxRankedSlots).map (⟨·, slot⟩) ++
        [⟨poolFeeAddress, pool⟩] ∧
      outputs.length = min ranked.length maxRankedSlots + 2 ∧
      int64 (outputs.map CoinbaseOutput.amountSats).sum = int64 (subsidy + fees) ∧
      (0 ≤ f → 0 ≤ p → f + p ≤ int64 (subsidy + fees) →
        (outputs.map CoinbaseOutput.amountSats).sum = int64 (subsidy + fees) ∧
        (∀ o ∈ outputs, 0 ≤ o.amountSats) ∧ p ≤ pool ∧
        (maxRankedSlots ≤ ranked.length → pool < p + 21)) := by
  have hrange := inRange_int64 (subsidy + fees)
  set total := int64 (subsidy + fees) with htotal
  have htake : ranked.take (min ranked.length maxRankedSlots) = ranked.take maxRankedSlots := by
    rw [min_comm, ← List.take_take, List.take_length]
  refine ⟨perSlot total f p, poolFeeOut total f p (min ranked.length maxRankedSlots), _,
    checkedSplit_eq miner hrange f p ranked, ?_, ?_, ?_, fun hf hp hle => ?_⟩
  · rw [splitReward, htake]
  · simp [splitReward, min_comm]
  · rw [int64_congr (sum_splitReward_modEq miner total f p ranked), int64_of_inRange hrange]
  · have hcuts : CoveredCuts total f p := ⟨hrange, hf, hp, hle⟩
    have hpool := hcuts.poolFeeOut_bounds (min_le_right ranked.length maxRankedSlots)
    exact ⟨hcuts.sum_splitReward miner ranked, hcuts.splitReward_nonneg miner ranked, hpool.1,
      fun hfull => hpool.2 (min_eq_right hfull)⟩

/-- More addresses than slots. -/
theorem buildOutputs_balances_overfull :
    ∃ (pool : ℤ) (outputs : List CoinbaseOutput),
      checkedSplit ['m'] 312500000 6562500 6562500 (List.replicate 22 ['a']) = .ok outputs ∧
      outputs.length = 23 ∧ (outputs.map CoinbaseOutput.amountSats).sum = 312500000 ∧
      (∀ o ∈ outputs, 0 ≤ o.amountSats) ∧ 6562500 ≤ pool ∧ pool < 6562500 + 21 := by
  have htotal : int64 (312500000 + 0) = 312500000 :=
    int64_of_inRange ⟨by norm_num, by norm_num⟩
  obtain ⟨slot, pool, outputs, hok, -, hlen, -, hcovered⟩ :=
    buildOutputs_balances ['m'] 312500000 0 6562500 6562500 (List.replicate 22 ['a'])
  rw [htotal] at hok hcovered
  obtain ⟨hsum, hnonneg, hbase, hdust⟩ := hcovered (by norm_num) (by norm_num) (by norm_num)
  exact ⟨pool, outputs, hok, hlen, hsum, hnonneg, hbase, hdust (by decide)⟩

end Reward
