import Unlucky21.Gateway.Personal
import Unlucky21.Reward.Payout
import Unlucky21.Reward.PoolHandler

/-!
# The gateway with the service behind it

From a coinbase value to the bytes a miner is sent: the gateway infers the fees,
the service splits the reward and answers in JSON, the gateway reads the answer,
decodes the addresses and writes the second half of the coinbase.
-/

namespace Gateway

open Wire CText Half Reward Int64Arith

/-- `handleCoinbase` over the pool's handler; a panic leaves no answer. -/
def poolService (handler : PoolHandler) (minerAddress : Text) (feesSats : ℤ) : Option Text :=
  match getCoinbaseOutputs handler minerAddress feesSats with
  | .ok outputs => some (handleCoinbase minerAddress (.ok outputs))
  | .error _ => none

/-- Addresses of the leaderboard as the gateway lets them in, at most 21. -/
structure PlainBoard (handler : PoolHandler) : Prop where
  length_le : handler.top21.length ≤ 21
  plain : ∀ e ∈ handler.top21, PlainAddress e.btcAddress

/-- What the service pays for a block of the given value. -/
def payout (handler : PoolHandler) (coinbaseValue : UInt64) (miner : Text) : List CoinbaseOutput :=
  let total : ℤ := coinbaseValue.toNat
  splitReward miner total (cut finderPercent total) (cut poolFeePercent total)
    (handler.top21.map Entry.btcAddress)

variable {handler : PoolHandler} {coinbaseValue : UInt64} {miner : Text}

theorem int64_coinbaseValue (h : BlockReward coinbaseValue.toNat) :
    int64 coinbaseValue.toNat = coinbaseValue.toNat := by
  have hhi := h.most
  exact int64_of_inRange ⟨by omega, by omega⟩

/-- The fees the gateway infers. -/
theorem feesSats_eq (h : BlockReward coinbaseValue.toNat) :
    feesSats coinbaseValue = coinbaseValue.toNat - 312500000 := by
  have hlo := h.least
  unfold feesSats
  rw [int64_coinbaseValue h]
  split <;> omega

/-- With the subsidy they add up to the coinbase value. -/
theorem subsidy_add_feesSats (h : BlockReward coinbaseValue.toNat) :
    int64 (subsidySats + feesSats coinbaseValue) = coinbaseValue.toNat := by
  have hsubsidy : subsidySats = 312500000 := rfl
  rw [feesSats_eq h, hsubsidy, add_sub_cancel, int64_coinbaseValue h]

theorem getCoinbaseOutputs_eq (h : BlockReward coinbaseValue.toNat) :
    getCoinbaseOutputs handler miner (feesSats coinbaseValue) =
      .ok (payout handler coinbaseValue miner) := by
  rw [getCoinbaseOutputs, buildOutputs_eq, subsidy_add_feesSats h]
  rfl

theorem payout_bounds (h : BlockReward coinbaseValue.toNat) :
    ∀ o ∈ payout handler coinbaseValue miner,
      0 < o.amountSats ∧ o.amountSats ≤ coinbaseValue.toNat :=
  h.smallCuts.splitReward_bounds miner _

theorem sum_payout (h : BlockReward coinbaseValue.toNat) :
    ((payout handler coinbaseValue miner).map CoinbaseOutput.amountSats).sum =
      coinbaseValue.toNat :=
  h.smallCuts.covered.sum_splitReward miner _

theorem length_payout (hboard : PlainBoard handler) (coinbaseValue : UInt64) (miner : Text) :
    (payout handler coinbaseValue miner).length = handler.top21.length + 2 := by
  have hle : handler.top21.length ≤ maxRankedSlots := hboard.length_le
  simp [payout, splitReward, hle]

/-- Who is paid: the finder, the cached list and the pool. -/
theorem map_address_payout (hboard : PlainBoard handler) (coinbaseValue : UInt64) (miner : Text) :
    (payout handler coinbaseValue miner).map CoinbaseOutput.address =
      miner :: handler.top21.map Entry.btcAddress ++ [poolFeeAddress] := by
  have hle : handler.top21.length ≤ maxRankedSlots := hboard.length_le
  simp only [payout, splitReward, List.length_map, min_eq_left hle, List.map_append, List.map_cons,
    List.map_map, List.map_nil]
  rw [List.take_of_length_le (by simp)]
  simp [Function.comp_def]

theorem plainAddress_poolFeeAddress : PlainAddress poolFeeAddress :=
  plainAddress_of_isValidBtcAddress (by decide)

/-- The finder's address, ranked ones and the pool's. -/
theorem plain_payout (hboard : PlainBoard handler) (hminer : PlainAddress miner) :
    ∀ o ∈ payout handler coinbaseValue miner, PlainAddress o.address := by
  intro o ho
  simp only [payout, splitReward, List.mem_append, List.mem_cons, List.mem_map, List.not_mem_nil,
    or_false] at ho
  rcases ho with (rfl | ⟨a, ha, rfl⟩) | rfl
  · exact hminer
  · obtain ⟨e, he, rfl⟩ := List.mem_map.mp (List.mem_of_mem_take ha)
    exact hboard.plain e he
  · exact plainAddress_poolFeeAddress

/-- **What the gateway learns from the service.** -/
theorem request_poolService (h : BlockReward coinbaseValue.toNat) (hboard : PlainBoard handler)
    (hminer : PlainAddress miner) :
    datumRequestCoinbaseOutputs (poolService handler) miner (feesSats coinbaseValue) =
      some ((payout handler coinbaseValue miner).map rewardOutput) := by
  have hservice : poolService handler miner (feesSats coinbaseValue) =
      some (coinbaseResponse (payout handler coinbaseValue miner)) := by
    rw [poolService, getCoinbaseOutputs_eq h]
    rfl
  have hlen := length_payout hboard coinbaseValue miner
  have h21 := hboard.length_le
  have hmost := h.most
  refine datumRequestCoinbaseOutputs_eq hminer (inRange_feesSats _) hservice
    (by rw [hlen]; unfold REWARD_MAX_OUTPUTS; omega) fun o ho => ?_
  obtain ⟨hpos, hle⟩ := payout_bounds h o ho
  exact ⟨plain_payout hboard hminer o ho, by omega, by omega⟩

/-! ## What a miner is sent -/

/-- The outputs to addresses the decoder knows. -/
def decodable (u : DatumUtils) (outputs : List CoinbaseOutput) : List TxOut :=
  outputs.filterMap fun o => (u.addr2OutputScript o.address).map fun script =>
    ⟨o.amountSats.toNat, script⟩

/-- What the others add up to. -/
def undecodable (u : DatumUtils) (outputs : List CoinbaseOutput) : ℤ :=
  ((outputs.filter fun o => (u.addr2OutputScript o.address).isNone).map
    CoinbaseOutput.amountSats).sum

/-- The pool's output, or the dead one. -/
def leftover (u : DatumUtils) (s : StratumJob) (outputs : List CoinbaseOutput) : TxOut :=
  if 0 < undecodable u outputs then ⟨(undecodable u outputs).toNat, s.poolAddrScript⟩ else deadOut

variable {u : DatumUtils} {outputs : List CoinbaseOutput}

theorem personalOutputs_map_rewardOutput (hlen : outputs.length ≤ REWARD_MAX_OUTPUTS)
    (h : ∀ o ∈ outputs, 0 < o.amountSats ∧ InRange o.amountSats) :
    (personalOutputs u (outputs.map rewardOutput)).map Output.txOut = decodable u outputs := by
  rw [personalOutputs, List.take_of_length_le (by rwa [List.length_map])]
  clear hlen
  induction outputs with
  | nil => rfl
  | cons o outputs ih =>
      obtain ⟨⟨hpos, -, hlt⟩, hrest⟩ := List.forall_mem_cons.mp h
      have hne : ¬ (rewardOutput o).amountSats ≤ 0 := not_le.mpr hpos
      have hvalue : (UInt64.ofInt o.amountSats).toNat = o.amountSats.toNat := by
        rw [UInt64.ofInt, UInt64.toNat_ofNat']
        omega
      have ih := ih hrest
      rw [List.map_cons, decodable, List.filterMap_cons, List.filterMap_cons, if_neg hne]
      cases hscript : u.addr2OutputScript o.address with
      | none =>
          have hout : (rewardOutput o).output u = none := by
            rw [RewardOutput.output, rewardOutput, hscript, Option.map_none]
          rw [hout]
          exact ih
      | some script =>
          have hout : (rewardOutput o).output u = some ⟨UInt64.ofInt o.amountSats, script⟩ := by
            rw [RewardOutput.output, rewardOutput, hscript, Option.map_some]
          rw [hout, Option.map_some, List.map_cons, ih, decodable, Output.txOut, hvalue]

theorem values_decodable (h : ∀ o ∈ outputs, 0 < o.amountSats) :
    (values (decodable u outputs) : ℤ) + undecodable u outputs =
      (outputs.map CoinbaseOutput.amountSats).sum := by
  induction outputs with
  | nil => rfl
  | cons o outputs ih =>
      obtain ⟨hpos, hrest⟩ := List.forall_mem_cons.mp h
      have ih := ih hrest
      unfold decodable undecodable at ih ⊢
      rw [List.filterMap_cons, List.filter_cons, List.map_cons, List.sum_cons, ← ih]
      cases u.addr2OutputScript o.address with
      | none =>
          simp only [Option.map_none, Option.isNone_none, if_true, List.map_cons, List.sum_cons]
          omega
      | some script =>
          simp only [Option.map_some, Option.isNone_some, Bool.false_eq_true, if_false,
            values_cons]
          push_cast
          omega

theorem undecodable_nonneg (h : ∀ o ∈ outputs, 0 < o.amountSats) : 0 ≤ undecodable u outputs := by
  apply List.sum_nonneg
  rintro a ha
  obtain ⟨o, ho, rfl⟩ := List.mem_map.mp ha
  exact (h o (List.mem_of_mem_filter ho)).le

/-- A known address is paid. -/
theorem decodable_ne_nil {o : CoinbaseOutput} (ho : o ∈ outputs)
    (h : (u.addr2OutputScript o.address).isSome) : decodable u outputs ≠ [] := by
  obtain ⟨script, hscript⟩ := Option.isSome_iff_exists.mp h
  have hmem : (⟨o.amountSats.toNat, script⟩ : TxOut) ∈ decodable u outputs :=
    List.mem_filterMap.mpr ⟨o, ho, by rw [hscript]; rfl⟩
  exact List.ne_nil_of_mem hmem

/-- What goes to unknown addresses is what the known ones leave. -/
theorem lastOut_eq_leftover {s : StratumJob} {outs : List Output}
    (hmap : outs.map Output.txOut = decodable u outputs)
    (hpos : ∀ o ∈ outputs, 0 < o.amountSats)
    (hsum : (outputs.map CoinbaseOutput.amountSats).sum = s.coinbaseValue.toNat) :
    totalSats outs ≤ s.coinbaseValue ∧
      lastOut s (totalSats outs).toNat = leftover u s outputs := by
  have hvalues := values_decodable (u := u) hpos
  have hrest := undecodable_nonneg (u := u) hpos
  rw [← hmap, values_map_txOut, hsum] at hvalues
  have hlt := s.coinbaseValue.toNat_lt
  have htotal : (totalSats outs).toNat = exactTotal outs := by
    rw [toNat_totalSats]
    exact Nat.mod_eq_of_lt (by omega)
  refine ⟨UInt64.le_iff_toNat_le.mpr (by omega), ?_⟩
  unfold lastOut leftover
  rw [htotal]
  by_cases h : 0 < undecodable u outputs
  · rw [if_pos h, if_pos (by omega)]
    congr 1
    omega
  · rw [if_neg h, if_neg (by omega)]

/-- **The payout of a miner's coinbase, end to end.** Where the extranonce is in
the scriptSig, the miner's second half is written, and it decodes as a sequence
number, a count and exactly: what the service pays to known addresses, the
pool's leftover or the dead output, both commitments, and lock time 0. -/
theorem personal_coinbase_pays (hu : u.Documented) {s : StratumJob} {wit : Bytes}
    (hreward : BlockReward s.coinbaseValue.toNat) (hboard : PlainBoard handler)
    (hminer : PlainAddress miner) (hdecodes : (u.addr2OutputScript miner).isSome)
    (hlayout : s.enInCb = true) (hpool : s.poolAddrScript.length ≤ 64)
    (hwit : Commits u s.blockTemplate.defaultWitnessCommitment wit) (coinb2Out : Text) :
    ∃ (outputs : List CoinbaseOutput) (p : PersonalCoinb2) (outs : List TxOut) (body : Bytes),
      buildOutputs miner 312500000 (s.coinbaseValue.toNat - 312500000)
        (handler.top21.map Entry.btcAddress) = .ok outputs ∧
      generatePersonalCoinb2 u (poolService handler) s miner coinb2Out = some p ∧
      outs = decodable u outputs ++ leftover u s outputs :: [⟨0, wit⟩, signetOut] ∧
      p.coinb2Bin = finalSequence ++ body ∧ parseBody body = some (outs, 0) ∧
      body = compactSize outs.length ++ (serOuts outs ++ leBytes 4 0) := by
  -- the split is positive amounts that add up to the coinbase value
  have hbounds : ∀ o ∈ payout handler s.coinbaseValue miner,
      0 < o.amountSats ∧ o.amountSats ≤ s.coinbaseValue.toNat := payout_bounds hreward
  have hsum : ((payout handler s.coinbaseValue miner).map CoinbaseOutput.amountSats).sum =
      s.coinbaseValue.toNat := sum_payout hreward
  have hpos := fun o ho => (hbounds o ho).1
  set outputs := payout handler s.coinbaseValue miner with houtputs
  have hlen : outputs.length ≤ REWARD_MAX_OUTPUTS := by
    rw [houtputs, length_payout hboard]
    have := hboard.length_le
    unfold REWARD_MAX_OUTPUTS
    omega
  set outs := personalOutputs u (outputs.map rewardOutput) with houts
  have hmap : outs.map Output.txOut = decodable u outputs := by
    refine personalOutputs_map_rewardOutput hlen fun o ho => ⟨hpos o ho, ?_⟩
    have := hbounds o ho
    have := hreward.most
    exact ⟨by omega, by omega⟩
  -- the miner's own output decodes, so the list the gateway keeps is not empty
  have hne : outs ≠ [] := by
    have hfinder : (⟨miner, cut finderPercent s.coinbaseValue.toNat⟩ : CoinbaseOutput) ∈ outputs :=
      List.mem_cons_self
    have := decodable_ne_nil hfinder hdecodes
    rw [← hmap] at this
    exact fun h => this (by rw [h]; rfl)
  obtain ⟨hcovered, hlast⟩ := lastOut_eq_leftover hmap hpos hsum
  -- the input plays no role in the second half
  have hw : Writable u s ⟨[], 0, 0⟩ [] wit := ⟨hu, hpool, hwit, Encodes.nil, rfl, Nat.zero_le _⟩
  have hscript : ∀ o ∈ outs, o.outputScript.length ≤ 64 :=
    fun o ho => script_le_of_mem_personalOutputs hu ho
  have hshort : outs.length ≤ REWARD_MAX_OUTPUTS := length_personalOutputs_le _
  have hbin := coinb2Bin_personalCoinb2 hw hscript hshort coinb2Out
  have hpersonal : personalOuts s outs wit =
      decodable u outputs ++ leftover u s outputs :: [⟨0, wit⟩, signetOut] := by
    rw [personalOuts, hmap, hlast, commitmentOuts]
  have hcount : (personalOuts s outs wit).length = outs.length + 3 := length_personalOuts s outs wit
  rw [personalTail, hlayout, if_pos rfl, seqTail, ← hcount, outTail, List.append_assoc] at hbin
  have hparse := parseBody_ser (n := (personalOuts s outs wit).length)
    (by rw [hcount]; unfold REWARD_MAX_OUTPUTS at hshort; omega)
    (show 0 < 2 ^ 32 by norm_num) (fits_personalOuts hw hscript)
  rw [if_pos rfl] at hparse
  refine ⟨outputs, _, personalOuts s outs wit, _, ?_,
    generatePersonalCoinb2_eq hminer.nonempty (request_poolService hreward hboard hminer) hne
      hcovered coinb2Out, hpersonal, hbin, hparse, rfl⟩
  rw [← feesSats_eq hreward]
  exact getCoinbaseOutputs_eq hreward

/-! ## A board of two -/

/-- One ranked address that decodes and one that does not. -/
def rankedHandler : PoolHandler where
  svc := .boot .initial
  roundID := 1
  top21 := [⟨minerAddress, 2000, 0, 1⟩, ⟨"bc1qunknown".toList, 1000, 0, 2⟩]
  tasks := fun _ => .idle
  pass := .idle

/-- A job whose coinb2 starts with the sequence number. -/
def scriptSigJob : StratumJob :=
  { freshJob 312500000 [] with
    poolAddrScript := feeScript
    coinbase := fun _ => { freshCoinbase with coinb2 := "ffffffff".toList } }

theorem personal_coinbase_pays_rankedHandler :
    ∃ (outputs : List CoinbaseOutput) (p : PersonalCoinb2) (outs : List TxOut) (body : Bytes),
      buildOutputs minerAddress 312500000 0 [minerAddress, "bc1qunknown".toList] = .ok outputs ∧
      generatePersonalCoinb2 poolUtils (poolService rankedHandler) scriptSigJob minerAddress [] =
        some p ∧
      outs = decodable poolUtils outputs ++
        leftover poolUtils scriptSigJob outputs :: [⟨0, witnessScript⟩, signetOut] ∧
      p.coinb2Bin = finalSequence ++ body ∧ parseBody body = some (outs, 0) ∧
      body = compactSize outs.length ++ (serOuts outs ++ leBytes 4 0) := by
  have hunknown : PlainAddress "bc1qunknown".toList := plainAddress_of_isValidBtcAddress (by decide)
  have hminer : PlainAddress minerAddress := plainAddress_of_isValidBtcAddress (by decide)
  have hboard : PlainBoard rankedHandler := by
    refine ⟨by decide, fun e he => ?_⟩
    rcases List.mem_cons.mp he with rfl | he
    · exact hminer
    · obtain rfl := List.mem_singleton.mp he
      exact hunknown
  exact personal_coinbase_pays (s := scriptSigJob) documented_poolUtils
    ⟨by decide, by decide⟩ hboard hminer (by decide) (by decide) (by decide)
    (commits_freshJob 312500000 []) []

end Gateway
