import Unlucky21.Gateway.Solvency

/-!
# The service's fallback

When the handler fails, the service answers with one output of -1 for the
address that asked, and means the full reward. The coinbaser thread casts the
amount to 2^64 - 1, which fits no coinbase value but that one, so the reward is
left over for the pool's script; the personal builder drops amounts that are not
positive and builds nothing.
-/

namespace Gateway

open Wire CText Greedy Half Reward Int64Arith

/-- The service while its handler fails. -/
def failingService (err : String) (minerAddress : Text) (_feesSats : ℤ) : Option Text :=
  some (handleCoinbase minerAddress (.error err))

/-! ## What a script is paid -/

def paidTo (script : Bytes) (outs : List TxOut) : ℕ :=
  values (outs.filter fun o => o.script = script)

/-- The halves join, under every extranonce, to a transaction that pays `value`
to the script. -/
def PaysScript (c : Coinbase) (script : Bytes) (value : ℕ) : Prop :=
  ∀ en : Bytes, en.length = 12 →
    ∃ tx, parseTx (c.coinb1Bin ++ en ++ c.coinb2Bin) = some tx ∧ paidTo script tx.outs = value

section

variable (script : Bytes)

@[simp] theorem paidTo_nil : paidTo script [] = 0 := rfl

@[simp] theorem paidTo_cons (o : TxOut) (outs : List TxOut) :
    paidTo script (o :: outs) = (if o.script = script then o.value else 0) + paidTo script outs := by
  by_cases h : o.script = script <;> simp [paidTo, h]

@[simp] theorem paidTo_append (as bs : List TxOut) :
    paidTo script (as ++ bs) = paidTo script as + paidTo script bs := by
  simp [paidTo]

@[simp] theorem paidTo_commitmentOuts (wit : Bytes) : paidTo script (commitmentOuts wit) = 0 := by
  simp [commitmentOuts, signetOut]

theorem paidTo_extranonceOut (enPrefix : ℕ) (en : Bytes) (outs : List TxOut) :
    paidTo script (extranonceOut enPrefix en :: outs) = paidTo script outs := by
  simp [extranonceOut]

/-- The halves share out the selection. -/
theorem paidTo_halves (n : ℕ) (special : Bool) (sel : List (ℕ × Output)) :
    paidTo script (firstHalf n special sel) + paidTo script (secondHalf n special sel) =
      paidTo script (sel.map fun p => p.2.txOut) := by
  induction sel with
  | nil => rfl
  | cons p sel ih =>
      rw [firstHalf_cons, secondHalf_cons, List.map_cons, paidTo_cons, ← ih]
      split
      · rw [paidTo_cons]
        ring
      · rw [paidTo_cons]
        ring

variable {s : StratumJob} {input : CoinbaseInput}

theorem paidTo_typeOuts (inScript wit en : Bytes) (t : Fin 6) :
    paidTo script (typeOuts s input inScript wit en t) =
      paidTo script ((typeSelection s input t).map fun p => p.2.txOut) +
        paidTo script [lastOut s (wrapped (typeSelection s input t))] := by
  have hhalves := paidTo_halves script (typeCount s input inScript t) (t = 2)
    (typeSelection s input t)
  have hrest : paidTo script (restOuts s (typeSelection s input t) wit) =
      paidTo script [lastOut s (wrapped (typeSelection s input t))] := by
    rw [restOuts, paidTo_cons, paidTo_cons, paidTo_commitmentOuts, paidTo_nil]
  rw [typeOuts]
  split
  next h =>
    have hfirst : typeFirst s input inScript t = [] := typeFirst_of_ne h.2
    rw [typeFirst] at hfirst
    rw [hfirst, paidTo_nil, zero_add] at hhalves
    rw [paidTo_append, hrest, typeSecond, hhalves]
  next =>
    rw [paidTo_append, paidTo_extranonceOut, paidTo_append, hrest, ← add_assoc, typeFirst,
      typeSecond, hhalves]

end

/-! ## One output of -1 -/

variable {u : DatumUtils} {s : StratumJob} {input : CoinbaseInput}

/-- 2^64 - 1 -/
def castMinusOne : UInt64 := UInt64.ofInt (-1)

/-- The cast amount fits one coinbase value only. -/
theorem selection_castMinusOne {script : Bytes}
    (ha : s.availableCoinbaseOutputs = [⟨castMinusOne, script⟩]) (remaining : ℤ) :
    selection s remaining =
      if (script.length : ℤ) + 9 ≤ remaining ∧ s.coinbaseValue.toNat = 2 ^ 64 - 1 then
        [(0, ⟨castMinusOne, script⟩)]
      else [] := by
  have hcv := s.coinbaseValue.toNat_lt
  have hiff : Fits (2 ^ 64) Output.cost Output.value s.coinbaseValue.toNat remaining 0
      ⟨castMinusOne, script⟩ ↔
      (script.length : ℤ) + 9 ≤ remaining ∧ s.coinbaseValue.toNat = 2 ^ 64 - 1 := by
    have hvalue : Output.value ⟨castMinusOne, script⟩ = 2 ^ 64 - 1 := rfl
    rw [Fits, hvalue]
    show (script.length : ℤ) + 9 ≤ remaining ∧ _ ↔ _
    refine and_congr_right fun _ => ?_
    omega
  rw [selection, ha]
  show take (2 ^ 64) Output.cost Output.value 30 s.coinbaseValue.toNat 0 remaining 0 [_] = _
  rw [take]
  simp only [hiff, take, ite_self]

theorem paidTo_lastOut (script : Bytes) (total : ℕ) :
    paidTo script [lastOut s total] =
      if s.poolAddrScript = script then s.coinbaseValue.toNat - total else 0 := by
  unfold lastOut
  split
  · simp
  next h =>
    have : s.coinbaseValue.toNat - total = 0 := by omega
    simp [deadOut, this]

/-- Who gets the reward of a type. -/
theorem paidTo_typeOuts_castMinusOne {script : Bytes}
    (ha : s.availableCoinbaseOutputs = [⟨castMinusOne, script⟩]) (inScript wit en : Bytes)
    (t : Fin 6) :
    paidTo script (typeOuts s input inScript wit en t) = s.coinbaseValue.toNat ↔
      s.poolAddrScript = script ∨ s.coinbaseValue.toNat = 0 ∨
        (s.coinbaseValue.toNat = 2 ^ 64 - 1 ∧
          (script.length : ℤ) + 9 ≤ remainingSize s input input.space t) := by
  rw [paidTo_typeOuts, paidTo_lastOut, typeSelection, selection_castMinusOne ha]
  by_cases hfit : (script.length : ℤ) + 9 ≤ remainingSize s input input.space t ∧
      s.coinbaseValue.toNat = 2 ^ 64 - 1
  · have hvalue : Output.value ⟨castMinusOne, script⟩ = 2 ^ 64 - 1 := rfl
    have hpaid : Output.txOut ⟨castMinusOne, script⟩ = ⟨2 ^ 64 - 1, script⟩ := rfl
    rw [if_pos hfit]
    simp [wrapped, hvalue, hpaid, hfit.2, hfit.1]
  · rw [if_neg hfit]
    simp only [wrapped, taken_nil, List.map_nil, paidTo_nil, Nat.zero_mod, Nat.sub_zero, zero_add]
    split
    next h => simp [h]
    next h =>
      constructor
      · exact fun h0 => .inr (.inl h0.symm)
      · rintro (hno | h0 | ⟨hcv, hle⟩)
        · exact absurd hno h
        · exact h0.symm
        · exact absurd ⟨hle, hcv⟩ hfit

/-! ## Both paths -/

variable {cfg : Config}

theorem request_failingService (err : String) {miner : Text} (hvalid : isValidBtcAddress miner = true)
    (coinbaseValue : UInt64) :
    datumRequestCoinbaseOutputs (failingService err) miner (feesSats coinbaseValue) =
      some [⟨miner, -1⟩] := by
  have hplain := plainAddress_of_isValidBtcAddress hvalid
  have hservice : failingService err miner (feesSats coinbaseValue) =
      some (coinbaseResponse [⟨miner, -1⟩]) := rfl
  refine datumRequestCoinbaseOutputs_eq hplain (inRange_feesSats _) hservice
    (show 1 ≤ 30 by norm_num) fun o ho => ?_
  obtain rfl := List.mem_singleton.mp ho
  exact ⟨hplain, by norm_num [InRange]⟩

/-- For a miner nothing is built, whoever asks. -/
theorem generatePersonalCoinb2_failingService (err : String) (s : StratumJob)
    (btcAddr coinb2Out : Text) :
    generatePersonalCoinb2 u (failingService err) s btcAddr coinb2Out = none := by
  refine Option.eq_none_iff_forall_ne_some.mpr fun p hp => ?_
  obtain ⟨reply, hreply, hne, -, -⟩ := generatePersonalCoinb2_eq_some hp
  have hvalid : isValidBtcAddress btcAddr = true := by
    unfold datumRequestCoinbaseOutputs at hreply
    split at hreply
    next h => exact h.1
    next => cases hreply
  obtain rfl := Option.some.inj (hreply.symm.trans (request_failingService err hvalid _))
  exact hne rfl

/-- A job whose only output is the one of -1, written out. -/
theorem paysScript_typeDraft_iff {script inScript wit : Bytes} (hw : Writable u s input inScript wit)
    (ha : s.availableCoinbaseOutputs = [⟨castMinusOne, script⟩]) (t : Fin 6) :
    PaysScript ((typeDraft u s input input.space false t).coinbase u) script
        s.coinbaseValue.toNat ↔
      (t = 0 → input.space) ∧
        (s.poolAddrScript = script ∨ s.coinbaseValue.toNat = 0 ∨
          (s.coinbaseValue.toNat = 2 ^ 64 - 1 ∧
            (script.length : ℤ) + 9 ≤ remainingSize s input input.space t)) := by
  obtain ⟨h1, h2⟩ := coinb1Bin_eq (readsAs_typeDraft hw false t)
  unfold PaysScript
  rw [h1, h2]
  constructor
  · intro hall
    obtain ⟨tx, htx, hpaid⟩ := hall wideExtranonce rfl
    have ht : t = 0 → input.space := by
      rintro rfl
      by_contra hspace
      rw [parseTx_doubled hw (by simpa using hspace)] at htx
      cases htx
    obtain ⟨i, hjoin⟩ := parseTx_type hw ht (show wideExtranonce.length = 12 from rfl)
    obtain rfl := Option.some.inj (htx.symm.trans hjoin)
    exact ⟨ht, (paidTo_typeOuts_castMinusOne ha inScript wit wideExtranonce t).mp hpaid⟩
  · rintro ⟨ht, hpaid⟩ en hen
    obtain ⟨i, hjoin⟩ := parseTx_type hw ht hen
    exact ⟨_, hjoin, (paidTo_typeOuts_castMinusOne ha inScript wit en t).mpr hpaid⟩

theorem sharedOutputs_minusOne {miner : Text} {script : Bytes}
    (h : u.addr2OutputScript miner = some script) :
    sharedOutputs u [⟨miner, -1⟩] = [⟨castMinusOne, script⟩] := by
  simp [sharedOutputs, RewardOutput.output, h, castMinusOne]

theorem datumCoinbaserThread_failingService (hu : u.Documented) (hcfg : cfg.Fits)
    {pool script wit : Bytes} (hpool : poolAddrScript u cfg = some pool)
    (hwit : Commits u s.blockTemplate.defaultWitnessCommitment wit) (err : String)
    (hvalid : isValidBtcAddress cfg.miningPoolAddress = true)
    (hscript : u.addr2OutputScript cfg.miningPoolAddress = some script) :
    ∃ input s', generateCoinbaseInput u cfg s.height = some input ∧
      datumCoinbaserThread u cfg (failingService err) s = some s' ∧
      ∀ t, PaysScript (s'.coinbase t) script s.coinbaseValue.toNat ↔
        (t = 0 → input.space) ∧
          (pool = script ∨ s.coinbaseValue.toNat = 0 ∨
            (s.coinbaseValue.toNat = 2 ^ 64 - 1 ∧ (script.length : ℤ) + 9 ≤
              remainingSize (s.withPool cfg pool) input input.space t)) := by
  have houts := sharedOutputs_minusOne hscript
  obtain ⟨input, inScript, hinput, hw, hgen, -⟩ := generateCoinbaseTxns_eq
    (s := s.withReply u [⟨cfg.miningPoolAddress, -1⟩]) hu hcfg hpool hwit
  have hs' : datumCoinbaserThread u cfg (failingService err) s =
      some (((s.withReply u [⟨cfg.miningPoolAddress, -1⟩]).withPool cfg pool).withCoinbases u input
        false) := by
    rw [datumCoinbaserThread, request_failingService err hvalid, Option.getD_some, hgen false]
    simp [StratumJob.withReply, houts]
  exact ⟨input, _, hinput, hs', fun t => paysScript_typeDraft_iff hw houts t⟩

/-- **When the fallback pays the miner.** The shared coinbase of a type pays the
whole coinbase value to the script of the address that asked exactly if type 0
is not written twice and the pool's script is that script, or there is nothing
to pay, or the coinbase value is 2^64 - 1 and the output fits. A personal second
half never does: there is none. -/
theorem fallback_honoured_iff (hu : u.Documented) (hcfg : cfg.Fits) {pool script wit : Bytes}
    (hpool : poolAddrScript u cfg = some pool)
    (hwit : Commits u s.blockTemplate.defaultWitnessCommitment wit) (err : String)
    (hvalid : isValidBtcAddress cfg.miningPoolAddress = true)
    (hscript : u.addr2OutputScript cfg.miningPoolAddress = some script) :
    ∃ input s', generateCoinbaseInput u cfg s.height = some input ∧
      datumCoinbaserThread u cfg (failingService err) s = some s' ∧
      (∀ t, PaysScript (s'.coinbase t) script s.coinbaseValue.toNat ↔
        (t = 0 → input.space) ∧
          (pool = script ∨ s.coinbaseValue.toNat = 0 ∨
            (s.coinbaseValue.toNat = 2 ^ 64 - 1 ∧ (script.length : ℤ) + 9 ≤
              remainingSize (s.withPool cfg pool) input input.space t))) ∧
      ∀ btcAddr buf : Text,
        generatePersonalCoinb2 u (failingService err) s' btcAddr buf = none := by
  obtain ⟨input, s', hinput, hs', hall⟩ :=
    datumCoinbaserThread_failingService hu hcfg hpool hwit err hvalid hscript
  exact ⟨input, s', hinput, hs', hall,
    fun btcAddr buf => generatePersonalCoinb2_failingService err s' btcAddr buf⟩

/-- The pool asks for its own address, which is also where its script comes from. -/
theorem fallback_honoured_ownScript :
    ∃ s', datumCoinbaserThread poolUtils (taggedConfig 9 0) (failingService "down")
        (freshJob 312500000 []) = some s' ∧
      (∀ t, t ≠ 0 → PaysScript (s'.coinbase t) feeScript 312500000) ∧
      ∀ btcAddr buf : Text,
        generatePersonalCoinb2 poolUtils (failingService "down") s' btcAddr buf = none := by
  have hscript : poolUtils.addr2OutputScript (taggedConfig 9 0).miningPoolAddress =
      some feeScript := by decide
  obtain ⟨input, s', -, hs', hpays, hnone⟩ := fallback_honoured_iff (s := freshJob 312500000 [])
    documented_poolUtils (fits_taggedConfig (by norm_num) (by norm_num))
    (poolAddrScript_taggedConfig 9 0) (commits_freshJob 312500000 []) "down" (by decide) hscript
  exact ⟨s', hs', fun t ht => (hpays t).mpr ⟨fun h0 => absurd h0 ht, .inl rfl⟩, hnone⟩

/-- The address is the miner's, the script is set by the upstream pool. -/
def overrideConfig : Config :=
  { taggedConfig 9 0 with
    miningPoolAddress := minerAddress
    overrideMiningPoolScriptsig := feeScript
    protocolActive := true }

/-- Type 1 pays nobody but the upstream pool, and a miner gets no coinbase at all. -/
theorem fallback_lost :
    (∃ s', datumCoinbaserThread poolUtils overrideConfig (failingService "down")
        (freshJob 312500000 []) = some s' ∧ ¬ PaysScript (s'.coinbase 1) minerScript 312500000) ∧
      ¬ ∃ p, generatePersonalCoinb2 poolUtils (failingService "down") (freshJob 312500000 [])
        minerAddress [] = some p := by
  have hcfg : overrideConfig.Fits := ⟨by decide, by decide, by decide, by decide⟩
  obtain ⟨input, s', -, hs', hall⟩ := datumCoinbaserThread_failingService
    (s := freshJob 312500000 []) documented_poolUtils hcfg
    (show poolAddrScript poolUtils overrideConfig = some feeScript from rfl)
    (commits_freshJob 312500000 []) "down" (by decide)
    (show poolUtils.addr2OutputScript minerAddress = some minerScript by decide)
  refine ⟨⟨s', hs', fun hpays => ?_⟩, ?_⟩
  · rcases ((hall 1).mp hpays).2 with h | h | ⟨h, -⟩
    · exact absurd h (by decide)
    · exact absurd h (by decide)
    · exact absurd h (by decide)
  · rw [generatePersonalCoinb2_failingService]
    rintro ⟨p, hp⟩
    cases hp

end Gateway
