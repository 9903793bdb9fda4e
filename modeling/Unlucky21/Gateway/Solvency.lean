import Unlucky21.Gateway.Personal

/-!
# No more than the template holds

What the coinbases of a job pay, as the integer sum of the values written into
them, for whatever the service answers. A negative amount is a value from 2^63
on for the shared coinbases; taking one makes the running total wrap, and 2^64
too much is paid.
-/

namespace Gateway

open Wire CText Greedy Half Int64Arith

variable {u : DatumUtils} {s : StratumJob} {input : CoinbaseInput}

/-! ## The sum over both halves -/

@[simp] theorem paid_outputs (h : Half) (outs : List TxOut) :
    (h.outputs u outs).paid = h.paid + values outs := by
  induction outs generalizing h with
  | nil => rfl
  | cons o outs ih =>
      rw [Half.outputs_cons, ih, paid_output, values_cons, add_assoc]

@[simp] theorem paid_payRest (h : Half) (total : ℕ) :
    (h.payRest u s total).paid = h.paid + (lastOut s total).value := by
  unfold Half.payRest lastOut
  split
  · exact paid_output u h _ _
  · exact paid_deadOutput h

@[simp] theorem paid_restart (h : Half) : (h.restart u).paid = 0 := rfl

@[simp] theorem paid_writeInput (inScript : Bool) (enPrefix : UInt16) (h : Half) :
    (writeInput u input inScript enPrefix h).paid = h.paid := by
  cases inScript <;> simp [writeInput]

def Draft.paid (d : Draft) : ℕ := d.c1.paid + d.c2.paid

theorem paid_copy (src dst : Draft) : (src.copy dst).paid = src.paid := rfl

theorem paid_headDraft (space : Bool) (t : Fin 6) :
    (headDraft u s input space t).c1.paid = 0 ∧ (headDraft u s input space t).c2.paid = 0 := by
  simp [headDraft]

theorem paid_writeEmpty (space : Bool) (d : Draft) :
    (writeEmpty u s space d).c1.paid = d.c1.paid ∧
      (writeEmpty u s space d).c2.paid = d.c2.paid + s.coinbaseValue.toNat := by
  cases space
  · simp [writeEmpty]
  · simp [writeEmpty]

/-- A selection pays the coinbase value, and 2^64 more for every wrap. -/
theorem paid_selection (remaining : ℤ) (n : ℕ) (special : Bool) :
    values (firstHalf n special (selection s remaining)) +
      (values (secondHalf n special (selection s remaining)) +
        (lastOut s (wrapped (selection s remaining))).value) =
    s.coinbaseValue.toNat + 2 ^ 64 * (taken Output.value (selection s remaining) / 2 ^ 64) := by
  have hhalves := values_halves n special (selection s remaining)
  have hlast := value_lastOut (wrapped_le s remaining)
  have hmod := Nat.div_add_mod (taken Output.value (selection s remaining)) (2 ^ 64)
  unfold wrapped at hlast ⊢
  omega

/-- In the layout with the count in coinb1 nothing is taken back. -/
theorem paid_subtypeBySize (remaining : ℤ) (space special : Bool) (d : Draft) :
    (subtypeBySize u s remaining space special d).paid =
      d.c1.paid + (if space && !special then 0 else d.c2.paid) +
        (s.coinbaseValue.toNat +
          2 ^ 64 * (taken Output.value (selection s remaining) / 2 ^ 64)) := by
  have hpaid := paid_selection (s := s) remaining (c1Count s remaining special d.c1.cursor.idx) special
  rw [subtypeBySize_eq, Draft.paid]
  by_cases hscript : (space && !special) = true
  · have hspecial : special = false := by
      rcases special with _ | _
      · rfl
      · simp at hscript
    subst hspecial
    rw [firstHalf_of_not_special, values_nil, zero_add] at hpaid
    simp only [hscript, if_true, paid_commitments, paid_payRest, paid_outputs, paid_varint,
      paid_restart, zero_add, hpaid, add_zero]
  · simp only [hscript, Bool.false_eq_true, if_false, paid_commitments, paid_payRest, paid_outputs,
      paid_varint, paid_extranonce]
    omega

/-- Type 0, written twice, pays twice. -/
theorem paid_typeDraft (emptyOnly : Bool) (t : Fin 6) :
    (typeDraft u s input input.space emptyOnly t).paid =
      if emptyOnly then s.coinbaseValue.toNat
      else (if t = 0 ∧ input.space = false then s.coinbaseValue.toNat else 0) +
        (s.coinbaseValue.toNat + 2 ^ 64 * (taken Output.value (typeSelection s input t) / 2 ^ 64)) := by
  obtain ⟨hhead1, hhead2⟩ : (headDraft u s input input.space t).c1.paid = 0 ∧
      (headDraft u s input input.space t).c2.paid = 0 := paid_headDraft input.space t
  obtain ⟨hempty1, hempty2⟩ :=
    paid_writeEmpty (u := u) (s := s) input.space (headDraft u s input input.space 0)
  obtain ⟨h1, h2⟩ : (headDraft u s input input.space 0).c1.paid = 0 ∧
      (headDraft u s input input.space 0).c2.paid = 0 := paid_headDraft input.space 0
  rw [h1] at hempty1
  rw [h2, zero_add] at hempty2
  unfold typeDraft
  cases emptyOnly with
  | true =>
      have hempty : (writeEmpty u s input.space (headDraft u s input input.space 0)).paid =
          s.coinbaseValue.toNat := by
        rw [Draft.paid, hempty1, hempty2, zero_add]
      simp only [if_true]
      split
      · exact hempty
      · exact (paid_copy _ _).trans hempty
  | false =>
      simp only [Bool.false_eq_true, if_false]
      rw [paid_subtypeBySize]
      by_cases ht : t = 0
      · subst ht
        rw [if_pos rfl, hempty1, hempty2]
        have hcond : (input.space && decide ((0 : Fin 6) ≠ 2) && !decide ((0 : Fin 6) = 2)) =
            input.space := by simp
        rw [hcond]
        congr 1
        cases input.space <;> simp
      · rw [if_neg ht, hhead1, hhead2]
        simp [ht]

/-- The log is what the transaction pays, where there is one. -/
theorem paid_typeDraft_eq_values (script wit en : Bytes) {t : Fin 6} (ht : t = 0 → input.space) :
    (typeDraft u s input input.space false t).paid = values (typeOuts s input script wit en t) := by
  have htwice : ¬ (t = 0 ∧ input.space = false) := by
    rintro ⟨h0, hspace⟩
    rw [ht h0] at hspace
    cases hspace
  rw [values_typeOuts, paid_typeDraft, if_neg Bool.false_ne_true, if_neg htwice, zero_add]

/-! ## Within the template -/

/-- When a shared coinbase pays no more than there is. -/
def TypeSolvent (s : StratumJob) (input : CoinbaseInput) (t : Fin 6) : Prop :=
  s.availableCoinbaseOutputs = [] ∨
    (NoWrap s (remainingSize s input input.space t) ∧
      (t = 0 → input.space = true ∨ s.coinbaseValue = 0))

theorem paid_typeDraft_le_iff (t : Fin 6) :
    (typeDraft u s input input.space s.availableCoinbaseOutputs.isEmpty t).paid ≤
      s.coinbaseValue.toNat ↔ TypeSolvent s input t := by
  have hzero : s.coinbaseValue.toNat = 0 ↔ s.coinbaseValue = 0 :=
    ⟨fun h => UInt64.toNat_inj.mp h, fun h => by rw [h]; rfl⟩
  rw [paid_typeDraft, TypeSolvent, noWrap_iff]
  generalize taken Output.value (selection s (remainingSize s input input.space t)) = k
  cases hempty : s.availableCoinbaseOutputs with
  | nil => simp
  | cons o outs =>
      simp only [List.isEmpty_cons, Bool.false_eq_true, if_false, reduceCtorEq, false_or, ← hzero]
      by_cases htwice : t = 0 ∧ input.space = false
      · rw [if_pos htwice]
        simp only [htwice, Bool.false_eq_true, false_or, forall_true_left]
        omega
      · rw [if_neg htwice]
        have hlayout : t = 0 → input.space = true ∨ s.coinbaseValue.toNat = 0 := by
          intro ht
          left
          by_contra hspace
          exact htwice ⟨ht, by simpa using hspace⟩
        simp only [and_iff_left hlayout]
        omega

/-- The values written for a miner, by its own total. -/
theorem sum_values_personalCoinb2 {outs : List Output} (h : totalSats outs ≤ s.coinbaseValue)
    (buf : Text) : (personalCoinb2 u s outs buf).values.sum =
      s.coinbaseValue.toNat + 2 ^ 64 * (exactTotal outs / 2 ^ 64) := by
  have hvalues := values_personalOuts h []
  have hpaid : (writePersonal u s outs (Half.start buf)).paid = values (personalOuts s outs []) := by
    unfold writePersonal personalOuts
    simp only [outputs_map_txOut, payRest_toNat]
    cases s.enInCb <;> simp
  exact hpaid.trans hvalues

/-- Amounts that are not negative never wrap. -/
theorem noWrap_sharedOutputs (hcv : s.coinbaseValue.toNat < 2 ^ 63) {reply : List RewardOutput}
    (hs : s.availableCoinbaseOutputs = sharedOutputs u reply)
    (h : ∀ o ∈ reply, 0 ≤ o.amountSats ∧ InRange o.amountSats) (remaining : ℤ) :
    NoWrap s remaining := by
  refine noWrap_of_lt hcv (fun o ho => ?_) remaining
  rw [hs] at ho
  obtain ⟨r, hr, hro⟩ := List.mem_filterMap.mp ho
  obtain ⟨script, -, rfl⟩ := Option.map_eq_some_iff.mp hro
  obtain ⟨hnonneg, -, hlt⟩ := h r (List.mem_of_mem_take hr)
  show (UInt64.ofInt r.amountSats).toNat < 2 ^ 63
  rw [UInt64.ofInt, UInt64.toNat_ofNat']
  omega

variable {cfg : Config} {service : Text → ℤ → Option Text}

/-- The job the thread leaves behind. -/
theorem datumCoinbaserThread_eq {s' : StratumJob} {reply : List RewardOutput}
    (hreply : (datumRequestCoinbaseOutputs service cfg.miningPoolAddress
      (feesSats s.coinbaseValue)).getD [] = reply)
    (hs' : datumCoinbaserThread u cfg service s = some s') :
    ∃ pool input, poolAddrScript u cfg = some pool ∧
      generateCoinbaseInput u cfg s.height = some input ∧
      s' = ((s.withReply u reply).withPool cfg pool).withCoinbases u input
        (sharedOutputs u reply).isEmpty := by
  subst hreply
  unfold datumCoinbaserThread generateCoinbaseTxns at hs'
  obtain ⟨pool, hpool, hs'⟩ := Option.bind_eq_some_iff.mp hs'
  obtain ⟨input, hinput, hs'⟩ := Option.bind_eq_some_iff.mp hs'
  exact ⟨pool, input, hpool, hinput, (Option.some.inj hs').symm⟩

/-- **What is paid, whatever the service answers.** Each shared coinbase pays at
most the coinbase value exactly when its selection does not wrap and it is not
written twice; a personal coinb2 does exactly when the positive amounts of the
reply add up below 2^64. -/
theorem coinbases_solvent_iff {s' : StratumJob} {reply : List RewardOutput}
    (hreply : (datumRequestCoinbaseOutputs service cfg.miningPoolAddress
      (feesSats s.coinbaseValue)).getD [] = reply)
    (hs' : datumCoinbaserThread u cfg service s = some s') :
    ∃ pool input job, poolAddrScript u cfg = some pool ∧
      generateCoinbaseInput u cfg s.height = some input ∧
      job = (s.withReply u reply).withPool cfg pool ∧
      (∀ t, s'.coinbase t =
          (typeDraft u job input input.space job.availableCoinbaseOutputs.isEmpty t).coinbase u ∧
        ((typeDraft u job input input.space job.availableCoinbaseOutputs.isEmpty t).paid ≤
          s.coinbaseValue.toNat ↔ TypeSolvent job input t)) ∧
      ∀ (btcAddr buf : Text) (own : List RewardOutput) (p : PersonalCoinb2),
        datumRequestCoinbaseOutputs service btcAddr (feesSats s.coinbaseValue) = some own →
        generatePersonalCoinb2 u service s' btcAddr buf = some p →
        (p.values.sum ≤ s.coinbaseValue.toNat ↔ exactTotal (personalOutputs u own) < 2 ^ 64) := by
  obtain ⟨pool, input, hpool, hinput, rfl⟩ := datumCoinbaserThread_eq hreply hs'
  refine ⟨pool, input, _, hpool, hinput, rfl, fun t => ⟨rfl, paid_typeDraft_le_iff t⟩, ?_⟩
  intro btcAddr buf own p hown hp
  obtain ⟨own', hown', -, hcovered, rfl⟩ := generatePersonalCoinb2_eq_some hp
  obtain rfl := Option.some.inj (hown'.symm.trans hown)
  rw [sum_values_personalCoinb2 hcovered]
  show s.coinbaseValue.toNat + _ ≤ s.coinbaseValue.toNat ↔ _
  omega

/-! ## Two replies -/

theorem datumCoinbaserThread_eq_some (service : Text → ℤ → Option Text) (v : UInt64) :
    ∃ s', datumCoinbaserThread poolUtils (taggedConfig 9 0) service (freshJob v []) = some s' := by
  obtain ⟨input, script, -, -, hgen, -⟩ := generateCoinbaseTxns_eq documented_poolUtils
    (fits_taggedConfig (by norm_num : 9 ≤ 64) (by norm_num : 0 ≤ 64))
    (poolAddrScript_taggedConfig 9 0) (commits_freshJob v [])
    (s := (freshJob v []).withReply poolUtils ((datumRequestCoinbaseOutputs service
      (taggedConfig 9 0).miningPoolAddress (feesSats v)).getD []))
  exact ⟨_, hgen false⟩

/-- The pool's own request. -/
theorem request_miningPoolAddress (v : UInt64) {finderAmount poolFeeOut : ℤ}
    (hf : InRange finderAmount) (hp : InRange poolFeeOut) :
    (datumRequestCoinbaseOutputs (replyService finderAmount poolFeeOut)
      (taggedConfig 9 0).miningPoolAddress (feesSats v)).getD [] =
      (poolReply finderAmount poolFeeOut Reward.poolFeeAddress).map rewardOutput :=
  congrArg (·.getD []) (request_replyService (by decide) (inRange_feesSats v) hf hp)

/-- The job the pool's own reply is written into. -/
abbrev repliedJob (finderAmount poolFeeOut : ℤ) (v : UInt64) : StratumJob :=
  ((freshJob v []).withReply poolUtils ((poolReply finderAmount poolFeeOut
    Reward.poolFeeAddress).map rewardOutput)).withPool (taggedConfig 9 0) feeScript

theorem availableCoinbaseOutputs_repliedJob (finderAmount poolFeeOut : ℤ) (v : UInt64) :
    (repliedJob finderAmount poolFeeOut v).availableCoinbaseOutputs =
      [⟨UInt64.ofInt finderAmount, feeScript⟩, ⟨UInt64.ofInt poolFeeOut, feeScript⟩] := by
  have hscript : poolUtils.addr2OutputScript Reward.poolFeeAddress = some feeScript := by decide
  simp [repliedJob, StratumJob.withPool, StratumJob.withReply, sharedOutputs, poolReply,
    rewardOutput, RewardOutput.output, hscript]

theorem coinbases_solvent_plainService :
    ∃ s' input, datumCoinbaserThread poolUtils (taggedConfig 9 0) plainService
        (freshJob 312500000 []) = some s' ∧
      ∀ t, s'.coinbase t = (typeDraft poolUtils (repliedJob 6562500 305937500 312500000) input
          input.space false t).coinbase poolUtils ∧
        (typeDraft poolUtils (repliedJob 6562500 305937500 312500000) input input.space false
          t).paid ≤ 312500000 := by
  obtain ⟨s', hs'⟩ := datumCoinbaserThread_eq_some plainService 312500000
  have hf : InRange 6562500 := ⟨by norm_num, by norm_num⟩
  have hp : InRange 305937500 := ⟨by norm_num, by norm_num⟩
  obtain ⟨pool, input, job, hpool, hinput, hjob, hall, -⟩ :=
    coinbases_solvent_iff (s := freshJob 312500000 []) (request_miningPoolAddress _ hf hp) hs'
  obtain rfl := Option.some.inj (hpool.symm.trans (poolAddrScript_taggedConfig 9 0))
  obtain rfl : job = repliedJob 6562500 305937500 312500000 := hjob
  rw [availableCoinbaseOutputs_repliedJob, List.isEmpty_cons] at hall
  refine ⟨s', input, hs', fun t => ⟨(hall t).1, (hall t).2.mpr (Or.inr ⟨?_, ?_⟩)⟩⟩
  · refine noWrap_sharedOutputs (u := poolUtils) (by decide) rfl ?_ _
    decide
  · exact fun _ => Or.inl (space_short hinput)

/-- 100 and then -50: the running total drops to 50, and 2^64 is paid too much. -/
theorem negative_amount_overpays :
    ∃ s' input, datumCoinbaserThread poolUtils (taggedConfig 9 0) (replyService 100 (-50))
        (freshJob 312500000 []) = some s' ∧
      s'.coinbase 1 = (typeDraft poolUtils (repliedJob 100 (-50) 312500000) input input.space
        false 1).coinbase poolUtils ∧
      ¬ (typeDraft poolUtils (repliedJob 100 (-50) 312500000) input input.space false 1).paid ≤
        312500000 := by
  obtain ⟨s', hs'⟩ := datumCoinbaserThread_eq_some (replyService 100 (-50)) 312500000
  have hf : InRange 100 := ⟨by norm_num, by norm_num⟩
  have hp : InRange (-50) := ⟨by norm_num, by norm_num⟩
  obtain ⟨pool, input, hpool, hinput, hjob⟩ :=
    datumCoinbaserThread_eq (s := freshJob 312500000 []) (request_miningPoolAddress _ hf hp) hs'
  obtain rfl := Option.some.inj (hpool.symm.trans (poolAddrScript_taggedConfig 9 0))
  have hsome := availableCoinbaseOutputs_repliedJob 100 (-50) 312500000
  have hempty : (repliedJob 100 (-50) 312500000).availableCoinbaseOutputs.isEmpty = false := by
    rw [hsome, List.isEmpty_cons]
  refine ⟨s', input, hs', ?_, ?_⟩
  · rw [hjob, ← hempty]
    rfl
  · rw [← hempty]
    refine mt (paid_typeDraft_le_iff 1).mp ?_
    rintro (h | ⟨h, -⟩)
    · rw [hsome] at h
      cases h
    · have hwraps : (generateCoinbaseInput poolUtils (taggedConfig 9 0) 900000).map (fun i =>
          decide (NoWrap (repliedJob 100 (-50) 312500000)
            (remainingSize (repliedJob 100 (-50) 312500000) i i.space 1))) = some false := by
        decide
      have hinput' : generateCoinbaseInput poolUtils (taggedConfig 9 0) 900000 = some input := hinput
      rw [hinput', Option.map_some, Option.some_inj, decide_eq_false_iff_not] at hwraps
      exact hwraps h

end Gateway
