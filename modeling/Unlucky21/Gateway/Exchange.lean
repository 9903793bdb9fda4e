import Unlucky21.Gateway.Layout

/-!
# A miner's second half behind the shared first half

The miner is sent the coinb1 of its own type together with its personal coinb2.
The two agree for the types that leave the sequence number and the output count
to coinb2. Behind a coinb1 that holds the count they agree only where the count
happens to fit and coinb1 pays nothing; a sequence number there is read as the
value of an output.
-/

namespace Gateway

open Wire CText Half

/-- One transaction, all bytes consumed, whose outputs are worth `value`. -/
def PaysTotal (bs : Bytes) (value : ℕ) : Prop :=
  ∃ tx, parseTx bs = some tx ∧ values tx.outs = value

/-- The first half joins with the miner's second half under every extranonce. -/
def Replaces (c : Coinbase) (p : PersonalCoinb2) (value : ℕ) : Prop :=
  ∀ en : Bytes, en.length = 12 → PaysTotal (c.coinb1Bin ++ en ++ p.coinb2Bin) value

/-- The halves agree on who carries the count, and on the count. -/
def LayoutAgrees (s : StratumJob) (input : CoinbaseInput) (script : Bytes) (emptyOnly : Bool)
    (t : Fin 6) (outs : List Output) : Prop :=
  (input.space ∧ (emptyOnly ∨ t ≠ 2)) ∨
    (input.space = false ∧ s.coinbaseValue.toNat % 2 ^ 32 ≠ 2 ^ 32 - 1 ∧ emptyOnly = false ∧ t ≠ 0 ∧
      (typeSelection s input t).length = (typeFirst s input script t).length + outs.length ∧
      values (typeFirst s input script t) = 0)

variable {u : DatumUtils} {s : StratumJob} {input : CoinbaseInput} {script wit : Bytes}

theorem values_le_of_mem {outs : List TxOut} {o : TxOut} (h : o ∈ outs) : o.value ≤ values outs :=
  List.single_le_sum (by simp) _ (List.mem_map_of_mem h)

section

variable {outs : List Output} (hw : Writable u s input script wit) (ha : Accepted s outs)

include hw ha

/-- The extranonce in the scriptSig. -/
theorem paysTotal_script {en : Bytes} (hlen : outs.length ≤ REWARD_MAX_OUTPUTS)
    (hen : en.length = 12) :
    PaysTotal (scriptHead script s.enPrefix.toNat ++ en ++
      seqTail (outs.length + 3) (personalOuts s outs wit)) s.coinbaseValue.toNat ↔
      exactTotal outs < 2 ^ 64 := by
  have hn : outs.length + 3 < 2 ^ 64 := by unfold REWARD_MAX_OUTPUTS at hlen; omega
  have hjoin := parseTx_script_join s.enPrefix.toNat hw.short hen hn
    (fits_personalOuts hw ha.script)
  rw [if_pos (length_personalOuts s outs wit).symm] at hjoin
  have hvalues := values_personalOuts ha.covered wit
  constructor
  · rintro ⟨tx, htx, hsum⟩
    obtain rfl := Option.some.inj (hjoin.symm.trans htx)
    have hsum' : values (personalOuts s outs wit) = s.coinbaseValue.toNat := hsum
    omega
  · intro hlt
    refine ⟨_, hjoin, ?_⟩
    rw [Nat.div_eq_of_lt hlt] at hvalues
    simpa using hvalues

/-- The extranonce in an output, and coinb2 starting with outputs. -/
theorem paysTotal_output {en : Bytes} (hen : en.length = 12) {n : ℕ} (hn : n < 2 ^ 64)
    {first : List TxOut} (hfirst : ∀ o ∈ first, o.Fits) :
    PaysTotal (outputHead script n first s.enPrefix.toNat ++ en ++
      outTail (personalOuts s outs wit)) s.coinbaseValue.toNat ↔
      n = first.length + (outs.length + 4) ∧ values first = 0 ∧ exactTotal outs < 2 ^ 64 := by
  have hjoin := parseTx_output_join s.enPrefix.toNat hw.short hen hn hfirst
    (fits_personalOuts hw ha.script)
  have hvalues := values_personalOuts ha.covered wit
  have hsum : values (first ++ extranonceOut s.enPrefix.toNat en :: personalOuts s outs wit) =
      values first + values (personalOuts s outs wit) := by
    rw [values_append, values_cons]
    show _ + (0 + _) = _
    rw [zero_add]
  rw [length_personalOuts] at hjoin
  by_cases hcount : n = first.length + 1 + (outs.length + 3)
  · rw [if_pos hcount] at hjoin
    constructor
    · rintro ⟨tx, htx, htotal⟩
      obtain rfl := Option.some.inj (hjoin.symm.trans htx)
      have htotal' : values (first ++ extranonceOut s.enPrefix.toNat en ::
        personalOuts s outs wit) = s.coinbaseValue.toNat := htotal
      rw [hsum, hvalues] at htotal'
      refine ⟨by omega, by omega, by omega⟩
    · rintro ⟨-, hzero, hlt⟩
      refine ⟨_, hjoin, ?_⟩
      show values (first ++ extranonceOut s.enPrefix.toNat en :: personalOuts s outs wit) = _
      rw [hsum, hvalues, hzero, Nat.div_eq_of_lt hlt]
      omega
  · rw [if_neg hcount] at hjoin
    constructor
    · rintro ⟨tx, htx, -⟩
      rw [hjoin] at htx
      cases htx
    · rintro ⟨h, -⟩
      omega

/-- A sequence number behind a count that is already there. -/
theorem le_of_paysTotal_mixed {en : Bytes} (hlen : outs.length ≤ REWARD_MAX_OUTPUTS)
    (hen : en.length = 12) {n m : ℕ} {first : List TxOut} (hn : n < 2 ^ 64)
    (hcount : n = first.length + 1 + (m + 1)) (hfirst : ∀ o ∈ first, o.Fits) {value : ℕ}
    (h : PaysTotal (outputHead script n first s.enPrefix.toNat ++ en ++
      seqTail (outs.length + 3) (personalOuts s outs wit)) value) : 5 * 2 ^ 32 - 1 ≤ value := by
  subst hcount
  obtain ⟨tx, htx, hsum⟩ := h
  have hpos : 0 < outs.length := List.length_pos_iff.mpr ha.nonempty
  unfold REWARD_MAX_OUTPUTS at hlen
  obtain ⟨o, ho, hle⟩ := exists_value_ge_of_mixed_join hw.short hen
    (show outs.length + 3 < 0xfd by omega) hn hfirst htx
  have := values_le_of_mem ho
  omega

/-! ## One type -/

variable {c : Coinbase} {p : PersonalCoinb2} {emptyOnly inScript : Bool} {t : Fin 6}

theorem replaces_of_layoutAgrees (hlen : outs.length ≤ REWARD_MAX_OUTPUTS)
    (hc : c.coinb1Bin = typeCoinb1 s input script emptyOnly t)
    (hp : p.coinb2Bin = if inScript then seqTail (outs.length + 3) (personalOuts s outs wit)
      else outTail (personalOuts s outs wit))
    (hin : inScript = true ↔ input.space = true ∨ s.coinbaseValue.toNat % 2 ^ 32 = 2 ^ 32 - 1)
    (hexact : exactTotal outs < 2 ^ 64) (h : LayoutAgrees s input script emptyOnly t outs) :
    Replaces c p s.coinbaseValue.toNat := by
  intro en hen
  rw [hc, hp]
  rcases h with ⟨hspace, ht⟩ | ⟨hspace, hcv, rfl, ht0, hcount, hzero⟩
  · have htrue : inScript = true := hin.mpr (Or.inl hspace)
    rw [typeCoinb1, if_pos ⟨hspace, ht⟩, htrue, if_pos rfl]
    exact (paysTotal_script hw ha hlen hen).mpr hexact
  · have hfalse : inScript = false := by
      rw [← Bool.not_eq_true, hin, hspace]
      simpa using hcv
    have hsel := length_typeSelection_le s input t
    have h16 : maxSize t ≤ 16000 := by fin_cases t <;> decide
    rw [typeCoinb1_output (by simp [hspace]) ht0, hfalse, if_neg Bool.false_ne_true]
    exact (paysTotal_output hw ha hen (by omega) (fits_typeFirst s input script t)).mpr
      ⟨by omega, hzero, hexact⟩

theorem length_personalTail_le {n : ℕ} (hlen : outs.length ≤ REWARD_MAX_OUTPUTS)
    (hn : n < 0xfd) (inScript : Bool) :
    (if inScript then seqTail n (personalOuts s outs wit)
      else outTail (personalOuts s outs wit)).length ≤ 3000 := by
  have hser := length_serOuts_map_txOut_le ha.script
  have houts := length_serOuts_personalOuts hw outs
  have hlast := length_lastOut_le hw.pool (totalSats outs).toNat
  have hpool := hw.pool
  have hwit := hw.commits.short
  unfold REWARD_MAX_OUTPUTS at hlen
  split
  · rw [length_seqTail, compactSize_length_of_lt hn]
    omega
  · rw [length_outTail]
    omega

/-- The other direction, for coinbase values below the least amount a sequence
number can be read as. -/
theorem layoutAgrees_of_replaces (hlen : outs.length ≤ REWARD_MAX_OUTPUTS)
    (hc : c.coinb1Bin = typeCoinb1 s input script emptyOnly t)
    (hp : p.coinb2Bin = if inScript then seqTail (outs.length + 3) (personalOuts s outs wit)
      else outTail (personalOuts s outs wit))
    (hin : inScript = true ↔ input.space = true ∨ s.coinbaseValue.toNat % 2 ^ 32 = 2 ^ 32 - 1)
    (hcv : s.coinbaseValue.toNat < 5 * 2 ^ 32 - 1)
    (h : Replaces c p s.coinbaseValue.toNat) :
    exactTotal outs < 2 ^ 64 ∧ LayoutAgrees s input script emptyOnly t outs := by
  have hen : wideExtranonce.length = 12 := rfl
  have hsel := length_typeSelection_le s input t
  have h16 : maxSize t ≤ 16000 := by fin_cases t <;> decide
  have hpos : 0 < outs.length := List.length_pos_iff.mpr ha.nonempty
  have hpays := h wideExtranonce hen
  rw [hc, hp] at hpays
  by_cases hscript : input.space ∧ (emptyOnly ∨ t ≠ 2)
  · have htrue : inScript = true := hin.mpr (Or.inl hscript.1)
    rw [typeCoinb1, if_pos hscript, htrue, if_pos rfl] at hpays
    exact ⟨(paysTotal_script hw ha hlen hen).mp hpays, Or.inl hscript⟩
  rw [typeCoinb1, if_neg hscript] at hpays
  cases emptyOnly with
  | true =>
      -- the count in coinb1 is that of the empty coinbase
      rw [if_pos rfl] at hpays
      have hnone : ∀ o ∈ ([] : List TxOut), o.Fits := by simp
      cases inScript with
      | true =>
          rw [if_pos rfl] at hpays
          have := le_of_paysTotal_mixed (m := 2) hw ha hlen hen (by norm_num) (by simp) hnone hpays
          omega
      | false =>
          rw [if_neg Bool.false_ne_true] at hpays
          have hcount := ((paysTotal_output hw ha hen (by norm_num) hnone).mp hpays).1
          simp only [List.length_nil] at hcount
          omega
  | false =>
      rw [if_neg Bool.false_ne_true] at hpays
      by_cases ht0 : t = 0
      · subst ht0
        rw [if_pos rfl] at hpays
        obtain ⟨tx, htx, -⟩ := hpays
        have h500 : maxSize 0 = 500 := rfl
        have htail := length_personalTail_le (n := outs.length + 3) hw ha hlen
          (by unfold REWARD_MAX_OUTPUTS at hlen; omega) inScript
        have hthree : 3 ≤ (if inScript then seqTail (outs.length + 3) (personalOuts s outs wit)
            else outTail (personalOuts s outs wit)).length := by
          split
          · simp [seqTail, outTail, finalSequence]
          · simp [outTail]
        rw [parseTx_doubledHead hw.short (by omega) hthree (by omega)] at htx
        cases htx
      · rw [if_neg ht0] at hpays
        have hfirst := fits_typeFirst s input script t
        have hhalves := length_halves (typeCount s input script t) (t = 2) (typeSelection s input t)
        cases inScript with
        | true =>
            rw [if_pos rfl] at hpays
            have hle : (typeFirst s input script t).length ≤ (typeSelection s input t).length :=
              hhalves ▸ Nat.le_add_right _ _
            have := le_of_paysTotal_mixed
              (m := (typeSelection s input t).length - (typeFirst s input script t).length + 2)
              hw ha hlen hen (by omega) (by omega) hfirst hpays
            omega
        | false =>
            rw [if_neg Bool.false_ne_true] at hpays
            have hspace : ¬ (input.space = true ∨ s.coinbaseValue.toNat % 2 ^ 32 = 2 ^ 32 - 1) :=
              fun hor => Bool.false_ne_true (hin.mpr hor)
            obtain ⟨hcount, hzero, hexact⟩ := (paysTotal_output hw ha hen (by omega) hfirst).mp hpays
            exact ⟨hexact, Or.inr ⟨by simpa using (not_or.mp hspace).1, (not_or.mp hspace).2, rfl,
              ht0, by omega, hzero⟩⟩

end

/-! ## Jobs -/

variable {cfg : Config}

/-- Once the six types of a job are written. -/
theorem replaces_withCoinbases (hw : Writable u s input script wit) (emptyOnly : Bool)
    {service : Text → ℤ → Option Text} {btcAddr buf : Text} {reply : List RewardOutput}
    {p : PersonalCoinb2} (t : Fin 6)
    (hreply : datumRequestCoinbaseOutputs service btcAddr (feesSats s.coinbaseValue) = some reply)
    (hp : generatePersonalCoinb2 u service (s.withCoinbases u input emptyOnly) btcAddr buf =
      some p) :
    (exactTotal (personalOutputs u reply) < 2 ^ 64 ∧
        LayoutAgrees s input script emptyOnly t (personalOutputs u reply) →
      Replaces ((s.withCoinbases u input emptyOnly).coinbase t) p s.coinbaseValue.toNat) ∧
    (s.coinbaseValue.toNat < 5 * 2 ^ 32 - 1 →
      Replaces ((s.withCoinbases u input emptyOnly).coinbase t) p s.coinbaseValue.toNat →
      exactTotal (personalOutputs u reply) < 2 ^ 64 ∧
        LayoutAgrees s input script emptyOnly t (personalOutputs u reply)) := by
  have hw' : Writable u (s.withCoinbases u input emptyOnly) input script wit :=
    ⟨hw.documented, hw.pool, hw.commits, hw.cb, hw.size, hw.short⟩
  obtain ⟨reply', hreply', hne, hcovered, rfl⟩ := generatePersonalCoinb2_eq_some hp
  obtain rfl := Option.some.inj (hreply'.symm.trans hreply)
  have ha : Accepted s (personalOutputs u reply') :=
    ⟨hne, hcovered, fun o ho => script_le_of_mem_personalOutputs hw.documented ho⟩
  have hlen := length_personalOutputs_le (u := u) reply'
  have hc : ((s.withCoinbases u input emptyOnly).coinbase t).coinb1Bin =
      typeCoinb1 s input script emptyOnly t := (coinb1Bin_eq (readsAs_typeDraft hw emptyOnly t)).1
  have hp2 := coinb2Bin_personalCoinb2 hw' ha.script hlen buf
  have hin := enInCb_withCoinbases hw emptyOnly
  exact ⟨fun h => replaces_of_layoutAgrees hw ha hlen hc hp2 hin h.1 h.2,
    fun hcv h => layoutAgrees_of_replaces hw ha hlen hc hp2 hin hcv h⟩

/-- **Whether a miner's second half fits.** Behind the coinb1 of type `t` the
personal coinb2 of a reply gives a transaction that pays the coinbase value when
the positive amounts add up without wrapping and the layouts agree; and, unless
the coinbase value is beyond 214 coins, only then. -/
theorem personal_replaces_iff (hu : u.Documented) (hcfg : cfg.Fits) {pool : Bytes}
    (hpool : poolAddrScript u cfg = some pool)
    (hwit : Commits u s.blockTemplate.defaultWitnessCommitment wit)
    (hsome : s.availableCoinbaseOutputs ≠ []) (emptyOnly : Bool) :
    ∃ input script s', generateCoinbaseInput u cfg s.height = some input ∧
      Encodes u.hex2binUchar input.cb script ∧ script.length = input.size ∧
      generateCoinbaseTxns u cfg s emptyOnly = some s' ∧
      ∀ (service : Text → ℤ → Option Text) (btcAddr buf : Text) (reply : List RewardOutput)
        (p : PersonalCoinb2) (t : Fin 6),
        datumRequestCoinbaseOutputs service btcAddr (feesSats s.coinbaseValue) = some reply →
        generatePersonalCoinb2 u service s' btcAddr buf = some p →
        (exactTotal (personalOutputs u reply) < 2 ^ 64 ∧
            LayoutAgrees (s.withPool cfg pool) input script emptyOnly t (personalOutputs u reply) →
          Replaces (s'.coinbase t) p s.coinbaseValue.toNat) ∧
        (s.coinbaseValue.toNat < 5 * 2 ^ 32 - 1 →
          Replaces (s'.coinbase t) p s.coinbaseValue.toNat →
          exactTotal (personalOutputs u reply) < 2 ^ 64 ∧
            LayoutAgrees (s.withPool cfg pool) input script emptyOnly t
              (personalOutputs u reply)) := by
  obtain ⟨input, script, hinput, hw, hgen, -⟩ := generateCoinbaseTxns_eq hu hcfg hpool hwit
  have hemptied : (emptyOnly || s.availableCoinbaseOutputs.isEmpty) = emptyOnly := by
    simp [List.isEmpty_eq_false_iff.mpr hsome]
  have hs' := hgen emptyOnly
  rw [hemptied] at hs'
  refine ⟨input, script, _, hinput, hw.cb, hw.size, hs', ?_⟩
  intro service btcAddr buf reply p t hreply hp
  exact replaces_withCoinbases hw emptyOnly t hreply hp

/-! ## A miner of the pool -/

def twoOutputs : List Output := [⟨6562500, minerScript⟩, ⟨305937500, feeScript⟩]

theorem personalOutputs_poolReply :
    personalOutputs poolUtils ((poolReply 6562500 305937500 minerAddress).map rewardOutput) =
      twoOutputs := by
  decide

theorem generatePersonalCoinb2_plainService {s' : StratumJob}
    (hcv : s'.coinbaseValue = 312500000) (buf : Text) :
    generatePersonalCoinb2 poolUtils plainService s' minerAddress buf =
      some (personalCoinb2 poolUtils s' twoOutputs buf) := by
  have hreply : datumRequestCoinbaseOutputs plainService minerAddress (feesSats s'.coinbaseValue) =
      some ((poolReply 6562500 305937500 minerAddress).map rewardOutput) := by
    rw [hcv]
    exact request_minerAddress
  have hall := generatePersonalCoinb2_eq (u := poolUtils) (s := s') (by decide) hreply
    (by rw [personalOutputs_poolReply]; decide)
    (by rw [personalOutputs_poolReply, hcv]; decide) buf
  rwa [personalOutputs_poolReply] at hall

theorem coinbaseValue_generateCoinbaseTxns {emptyOnly : Bool} {s' : StratumJob}
    (h : generateCoinbaseTxns u cfg s emptyOnly = some s') : s'.coinbaseValue = s.coinbaseValue := by
  unfold generateCoinbaseTxns at h
  obtain ⟨pool, -, h⟩ := Option.bind_eq_some_iff.mp h
  obtain ⟨input, -, h⟩ := Option.bind_eq_some_iff.mp h
  obtain rfl := Option.some.inj h
  rfl

theorem personal_replaces_type1 :
    ∃ s' p, generateCoinbaseTxns poolUtils (taggedConfig 9 0) oneOutputJob false = some s' ∧
      generatePersonalCoinb2 poolUtils plainService s' minerAddress [] = some p ∧
      Replaces (s'.coinbase 1) p 312500000 := by
  obtain ⟨input, script, s', hinput, -, -, hs', hall⟩ := personal_replaces_iff documented_poolUtils
    (fits_taggedConfig (by norm_num : 9 ≤ 64) (by norm_num : 0 ≤ 64))
    (poolAddrScript_taggedConfig 9 0)
    (commits_freshJob 312500000 [⟨312500000, minerScript⟩]) (List.cons_ne_nil _ _) false
  have hp := generatePersonalCoinb2_plainService (coinbaseValue_generateCoinbaseTxns hs') []
  refine ⟨s', _, hs', hp, ?_⟩
  refine (hall _ _ _ _ _ 1 request_minerAddress hp).1 ?_
  rw [personalOutputs_poolReply]
  exact ⟨by decide, Or.inl ⟨space_short hinput, Or.inr (by decide)⟩⟩

/-- Type 2 carries the count in coinb1 where the others do not. -/
theorem type2_not_replaced :
    ∃ s' p, generateCoinbaseTxns poolUtils (taggedConfig 9 0) oneOutputJob false = some s' ∧
      generatePersonalCoinb2 poolUtils plainService s' minerAddress [] = some p ∧
      ¬ Replaces (s'.coinbase 2) p 312500000 := by
  obtain ⟨input, script, hinput, hw, hgen, -⟩ := generateCoinbaseTxns_eq documented_poolUtils
    (fits_taggedConfig (by norm_num : 9 ≤ 64) (by norm_num : 0 ≤ 64))
    (poolAddrScript_taggedConfig 9 0) (commits_freshJob 312500000 [⟨312500000, minerScript⟩])
  have hs' := hgen false
  have hp := generatePersonalCoinb2_plainService (coinbaseValue_generateCoinbaseTxns hs') []
  refine ⟨_, _, hs', hp, fun hreplaces => ?_⟩
  have hspace := space_short hinput
  obtain ⟨-, hagrees⟩ := (replaces_withCoinbases hw false 2 request_minerAddress hp).2
    (by decide) hreplaces
  rcases hagrees with ⟨-, h | h⟩ | ⟨h, -⟩
  · cases h
  · exact h rfl
  · rw [hspace] at h
    cases h

end Gateway
