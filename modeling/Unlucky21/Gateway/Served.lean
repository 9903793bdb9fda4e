import Unlucky21.Gateway.Board
import Unlucky21.Reward.Solo
import Unlucky21.Web.Payouts

/-!
# What miners are sent

Whichever service is behind the socket, the second half of a miner's coinbase
spends the coinbase value on the addresses of the answer. For the pool these
are, in every state of every run, the miner, the pool and people who mined; for
the solo pool the miner and the pool, at 99 to 1.
-/

namespace Gateway

open Wire CText Half Reward Int64Arith Runs

/-! ## The half and its outputs -/

/-- A sequence number, a count, the outputs and lock time 0. -/
def PersonalCoinb2.Pays (p : PersonalCoinb2) (outs : List TxOut) : Prop :=
  ∃ body, p.coinb2Bin = finalSequence ++ body ∧ parseBody body = some (outs, 0)

/-- The outputs of the answer, the leftover and the commitments. -/
def servedOuts (u : DatumUtils) (job : StratumJob) (outputs : List CoinbaseOutput) (wit : Bytes) :
    List TxOut :=
  decodable u outputs ++ leftover u job outputs :: commitmentOuts wit

/-- An answer that splits the coinbase value of a job. -/
structure Splits (job : StratumJob) (outputs : List CoinbaseOutput) : Prop where
  length_le : outputs.length ≤ REWARD_MAX_OUTPUTS
  positive : ∀ o ∈ outputs, 0 < o.amountSats
  sum : (outputs.map CoinbaseOutput.amountSats).sum = job.coinbaseValue.toNat
  most : job.coinbaseValue.toNat < 2 ^ 63

variable {u : DatumUtils} {job : StratumJob} {miner : Text} {outputs : List CoinbaseOutput}
  {wit : Bytes}

theorem Splits.inRange (h : Splits job outputs) {o : CoinbaseOutput} (ho : o ∈ outputs) :
    InRange o.amountSats := by
  have hle : o.amountSats ≤ (outputs.map CoinbaseOutput.amountSats).sum :=
    List.single_le_sum (fun a ha => by
      obtain ⟨p, hp, rfl⟩ := List.mem_map.mp ha
      exact (h.positive p hp).le) _ (List.mem_map_of_mem ho)
  have hsum := h.sum
  have hmost := h.most
  have hpos := h.positive o ho
  exact ⟨by omega, by omega⟩

/-- **A split of the coinbase value is what the half pays**, up to addresses
that do not decode: their part is the pool's. -/
theorem pays_of_request (hu : u.Documented) {service : Text → ℤ → Option Text}
    (hrequest : datumRequestCoinbaseOutputs service miner (feesSats job.coinbaseValue) =
      some (outputs.map rewardOutput))
    (hne : miner ≠ []) (hsplits : Splits job outputs)
    (hdecodes : ∃ o ∈ outputs, (u.addr2OutputScript o.address).isSome)
    (hlayout : job.enInCb = true) (hpool : job.poolAddrScript.length ≤ 64)
    (hwit : Commits u job.blockTemplate.defaultWitnessCommitment wit) (coinb2Out : Text) :
    ∃ p, generatePersonalCoinb2 u service job miner coinb2Out = some p ∧
      p.Pays (servedOuts u job outputs wit) := by
  set outs := personalOutputs u (outputs.map rewardOutput) with houts
  have hmap : outs.map Output.txOut = decodable u outputs :=
    personalOutputs_map_rewardOutput hsplits.length_le fun o ho =>
      ⟨hsplits.positive o ho, hsplits.inRange ho⟩
  have hkept : outs ≠ [] := by
    obtain ⟨o, ho, hscript⟩ := hdecodes
    have hnil := decodable_ne_nil ho hscript
    rw [← hmap] at hnil
    exact fun h => hnil (by rw [h]; rfl)
  obtain ⟨hcovered, hlast⟩ := lastOut_eq_leftover hmap hsplits.positive hsplits.sum
  -- the input plays no role in the second half
  have hw : Writable u job ⟨[], 0, 0⟩ [] wit :=
    ⟨hu, hpool, hwit, Encodes.nil, rfl, Nat.zero_le _⟩
  have hscript : ∀ o ∈ outs, o.outputScript.length ≤ 64 :=
    fun o ho => script_le_of_mem_personalOutputs hu ho
  have hshort : outs.length ≤ REWARD_MAX_OUTPUTS := length_personalOutputs_le _
  have hbin := coinb2Bin_personalCoinb2 hw hscript hshort coinb2Out
  have hserved : personalOuts job outs wit = servedOuts u job outputs wit := by
    rw [personalOuts, hmap, hlast, servedOuts]
  have hcount : (personalOuts job outs wit).length = outs.length + 3 :=
    length_personalOuts job outs wit
  rw [personalTail, hlayout, if_pos rfl, seqTail, ← hcount, outTail, List.append_assoc] at hbin
  have hparse := parseBody_ser (n := (personalOuts job outs wit).length)
    (by rw [hcount]; unfold REWARD_MAX_OUTPUTS at hshort; omega)
    (show 0 < 2 ^ 32 by norm_num) (fits_personalOuts hw hscript)
  rw [if_pos rfl, hserved] at hparse
  rw [hserved] at hbin
  exact ⟨_, generatePersonalCoinb2_eq hne hrequest hkept hcovered coinb2Out, _, hbin, hparse⟩

/-- The half spends the coinbase value, no more and no less. -/
theorem values_servedOuts (hsplits : Splits job outputs) :
    values (servedOuts u job outputs wit) = job.coinbaseValue.toNat := by
  have hvalues := values_decodable (u := u) hsplits.positive
  have hrest := undecodable_nonneg (u := u) hsplits.positive
  rw [hsplits.sum] at hvalues
  have hlast : ((leftover u job outputs).value : ℤ) = undecodable u outputs := by
    unfold leftover
    split_ifs with hpos
    · exact Int.toNat_of_nonneg hpos.le
    · show (0 : ℤ) = _
      omega
  rw [servedOuts, values_append, values_cons, values_commitmentOuts]
  omega

/-- Who gets something is in the answer, or the pool. -/
theorem mem_servedOuts {o : TxOut} (ho : o ∈ servedOuts u job outputs wit) (hpos : 0 < o.value) :
    o.script = job.poolAddrScript ∨
      ∃ a ∈ outputs, u.addr2OutputScript a.address = some o.script := by
  rw [servedOuts, List.mem_append, List.mem_cons] at ho
  rcases ho with hdecoded | hlast | hcommit
  · obtain ⟨a, ha, hout⟩ := List.mem_filterMap.mp hdecoded
    obtain ⟨script, hscript, rfl⟩ := Option.map_eq_some_iff.mp hout
    exact .inr ⟨a, ha, hscript⟩
  · left
    unfold leftover at hlast
    split_ifs at hlast
    · exact hlast ▸ rfl
    · exact absurd hpos (by simp [hlast, deadOut])
  · simp only [commitmentOuts, signetOut, List.mem_cons, List.not_mem_nil, or_false] at hcommit
    rcases hcommit with rfl | rfl <;> exact absurd hpos (by simp)

/-! ## Where the list was read -/

/-- At some moment of the run this was the exact list of a round. -/
def WasExact (h₀ : PoolHandler) (es : List PoolEvent) (entries : List Entry) : Prop :=
  ∃ es₁ es₂ t n now, es = es₁ ++ es₂ ∧ run Pool.step (.boot h₀) es₁ = some t ∧
    Top21Exact (liveShares t.handler.db.shares n) now entries

theorem WasExact.snoc {h₀ : PoolHandler} {es : List PoolEvent} {entries : List Entry}
    (h : WasExact h₀ es entries) (e : PoolEvent) : WasExact h₀ (es ++ [e]) entries := by
  obtain ⟨es₁, es₂, t, n, now, rfl, hrun, hexact⟩ := h
  exact ⟨es₁, es₂ ++ [e], t, n, now, List.append_assoc _ _ _, hrun, hexact⟩

/-- The cached list is empty or was exact; those of the refreshes under way were. -/
structure Provenance (h₀ : PoolHandler) (es : List PoolEvent) (h : PoolHandler) : Prop where
  cached : h.top21 = [] ∨ WasExact h₀ es h.top21
  refreshed : ∀ tid n entries, h.tasks tid = .refreshed n entries → WasExact h₀ es entries

theorem Provenance.boot {h₀ h : PoolHandler} {es : List PoolEvent} {db : Db}
    (hboot : PoolHandler.boot db = some h) : Provenance h₀ es h := by
  obtain ⟨-, -, htasks, -, htop, -⟩ := boot_fields hboot
  refine ⟨.inl htop, fun tid n entries ht => ?_⟩
  rw [htasks] at ht
  cases ht

theorem Provenance.step {h₀ h h' : PoolHandler} {es : List PoolEvent} {e : PoolEvent}
    (hinv : Provenance h₀ es h) (hboard : BoardStep h h')
    (hquery : ∀ n now scan entries, getTop21 h.db n now scan = .ok entries →
      WasExact h₀ es entries) : Provenance h₀ (es ++ [e]) h' where
  cached := by
    rcases hboard.cached with hsame | hempty | ⟨tid, n, ht⟩
    · exact hsame ▸ hinv.cached.imp_right fun h => h.snoc e
    · exact .inl hempty
    · exact .inr ((hinv.refreshed tid n _ ht).snoc e)
  refreshed tid n entries ht := by
    refine WasExact.snoc ?_ e
    rcases hboard.refreshed tid n entries ht with hold | ⟨now, scan, htop⟩
    · exact hinv.refreshed tid n entries hold
    · exact hquery n now scan entries htop

section

variable {db : Db} {h₀ : PoolHandler} {es : List PoolEvent} {s : Pool}
  (hboot : PoolHandler.boot db = some h₀) (hes : ∀ e ∈ es, e.Harmless)
  (hrun : run Pool.step (.boot h₀) es = some s)

include hboot hes hrun

theorem provenance_of_run (hrows : ∀ r ∈ db.shares, r.Castable) (hmoderate : ModerateRun es) :
    Provenance h₀ es s.handler := by
  refine run_history (P := fun es s => (∀ e ∈ es, e.Harmless) → ModerateRun es →
    Provenance h₀ es s.handler) (fun _ _ => ?_)
    (fun es s e s' hrun ih hs hes hmoderate => ?_) hrun hes hmoderate
  · exact .boot hboot
  · have hes' : ∀ e ∈ es, e.Harmless := fun e he => hes e (List.mem_append_left _ he)
    have hmoderate' : ModerateRun es := fun tid sent r hconnect =>
      hmoderate tid sent r (List.mem_append_left _ hconnect)
    have hinv := ih hes' hmoderate'
    have hquery : ∀ n now scan entries, getTop21 s.handler.db n now scan = .ok entries →
        WasExact h₀ es entries := fun n now scan entries htop => by
      -- the list is read in the state before the step
      obtain ⟨entries', heq, hexact⟩ := top21Exact_of_castable
        (castable_of_run hboot hes' hrun hrows hmoderate')
        (top21_getTop21 s.handler.db n now scan)
      obtain rfl := Except.ok.inj (htop.symm.trans heq)
      exact ⟨es, [], s, n, now, (List.append_nil es).symm, hrun, hexact⟩
    rcases Pool.step_handler hs with hsame | ⟨e', hs'⟩ | hboot'
    · exact hsame ▸ hinv.step (.of_tasks (.inl rfl) rfl) hquery
    · exact hinv.step (boardStep_of_step hs') hquery
    · exact .boot hboot'

/-! ## The pool -/

theorem splits_payout (hrows : ∀ r ∈ db.shares, isValidBtcAddress r.btcAddress = true)
    (hreward : BlockReward job.coinbaseValue.toNat) (miner : Text) :
    Splits job (payout s.handler job.coinbaseValue miner) where
  length_le := by
    have hboard := plainBoard_of_run hboot hes hrun hrows
    have hle := hboard.length_le
    rw [length_payout hboard]
    unfold REWARD_MAX_OUTPUTS
    omega
  positive o ho := (payout_bounds hreward o ho).1
  sum := sum_payout hreward
  most := by
    have hmost := hreward.most
    omega

/-- A twenty-first of what the finder's and the pool's 2.1 % leave. -/
def slotSats (coinbaseValue : ℕ) : ℕ := (coinbaseValue - 2 * (21 * coinbaseValue / 1000)) / 21

omit hes in
theorem slot_mem_payout (hsmall : job.coinbaseValue.toNat ≤ 10 ^ 14) {e : Entry}
    (he : e ∈ s.handler.top21) :
    (⟨e.btcAddress, slotSats job.coinbaseValue.toNat⟩ : CoinbaseOutput) ∈
      payout s.handler job.coinbaseValue miner := by
  have htotal : Web.SmallTotal (job.coinbaseValue.toNat : ℤ) := ⟨by omega, by exact_mod_cast hsmall⟩
  have hcut : cut finderPercent job.coinbaseValue.toNat = 21 * job.coinbaseValue.toNat / 1000 :=
    htotal.rewardCut_eq
  have hfee : cut poolFeePercent job.coinbaseValue.toNat = 21 * job.coinbaseValue.toNat / 1000 :=
    htotal.rewardCut_eq
  have hslot : (slotSats job.coinbaseValue.toNat : ℤ) =
      perSlot job.coinbaseValue.toNat (21 * job.coinbaseValue.toNat / 1000)
        (21 * job.coinbaseValue.toNat / 1000) := by
    have hle : 2 * (21 * job.coinbaseValue.toNat / 1000) ≤ job.coinbaseValue.toNat := by omega
    rw [htotal.perSlot_eq, slotSats]
    push_cast [Nat.cast_sub hle]
    rfl
  have hle : s.handler.top21.length ≤ maxRankedSlots := (boardFromTable_of_run hboot hrun).cached.1
  simp only [payout, splitReward, hcut, hfee, ← hslot, List.length_map, min_eq_left hle]
  refine List.mem_append_left _ (List.mem_cons_of_mem _ (List.mem_map.mpr ⟨e.btcAddress, ?_, rfl⟩))
  rw [List.take_of_length_le (by simp)]
  exact List.mem_map_of_mem he

end

/-- The solo handler behind the socket. -/
def soloService (blockFound : BlockFoundMsg → Bool) : Text → ℤ → Option Text :=
  socketService (fun miner fees => .ok (Solo.getCoinbaseOutputs miner fees)) blockFound

/-- One percent of the value, rounded down. -/
theorem solo_getCoinbaseOutputs_eq (hreward : BlockReward job.coinbaseValue.toNat)
    (hsmall : job.coinbaseValue.toNat ≤ 10 ^ 14) (miner : Text) :
    Solo.getCoinbaseOutputs miner (feesSats job.coinbaseValue) =
      [⟨miner, job.coinbaseValue.toNat - job.coinbaseValue.toNat / 100⟩,
        ⟨poolFeeAddress, job.coinbaseValue.toNat / 100⟩] := by
  have htotal : Web.SmallTotal (job.coinbaseValue.toNat : ℤ) := ⟨by omega, by exact_mod_cast hsmall⟩
  have hfee : cut Solo.soloFeePercent job.coinbaseValue.toNat = job.coinbaseValue.toNat / 100 :=
    htotal.soloCut_eq
  have hfinder : int64 (job.coinbaseValue.toNat - job.coinbaseValue.toNat / 100 : ℤ) =
      job.coinbaseValue.toNat - job.coinbaseValue.toNat / 100 :=
    int64_of_inRange ⟨by omega, by omega⟩
  simp only [Solo.getCoinbaseOutputs, subsidy_add_feesSats hreward, hfee, hfinder]

theorem splits_solo (hreward : BlockReward job.coinbaseValue.toNat)
    (hsmall : job.coinbaseValue.toNat ≤ 10 ^ 14) (miner : Text) :
    Splits job (Solo.getCoinbaseOutputs miner (feesSats job.coinbaseValue)) where
  length_le := Nat.le_of_ble_eq_true rfl
  positive := by
    have hleast := hreward.least
    rw [solo_getCoinbaseOutputs_eq hreward hsmall]
    refine List.forall_mem_cons.mpr ⟨?_, List.forall_mem_singleton.mpr ?_⟩
    · show (0 : ℤ) < _ - _
      omega
    · show (0 : ℤ) < _ / _
      omega
  sum := by
    rw [solo_getCoinbaseOutputs_eq hreward hsmall]
    simp
  most := by omega

/-- **Solo miners are paid.** The half gives the miner the coinbase value less one
percent rounded down; that percent is for the pool's fee address, or for the
pool's script if the address does not decode. -/
theorem solo_coinbase_pays (hu : u.Documented) (blockFound : BlockFoundMsg → Bool)
    (hreward : BlockReward job.coinbaseValue.toNat) (hsmall : job.coinbaseValue.toNat ≤ 10 ^ 14)
    (hminer : isValidBtcAddress miner = true) {script : Bytes}
    (hdecodes : u.addr2OutputScript miner = some script) (hlayout : job.enInCb = true)
    (hpool : job.poolAddrScript.length ≤ 64)
    (hwit : Commits u job.blockTemplate.defaultWitnessCommitment wit) (coinb2Out : Text) :
    ∃ p, generatePersonalCoinb2 u (soloService blockFound) job miner coinb2Out = some p ∧
      p.Pays (⟨job.coinbaseValue.toNat - job.coinbaseValue.toNat / 100, script⟩ ::
        ((match u.addr2OutputScript poolFeeAddress with
          | some feeScript => [⟨job.coinbaseValue.toNat / 100, feeScript⟩, deadOut]
          | none => [⟨job.coinbaseValue.toNat / 100, job.poolAddrScript⟩]) ++ commitmentOuts wit)) := by
  have hplain := plainAddress_of_isValidBtcAddress hminer
  have hsplits := splits_solo hreward hsmall miner
  have heq := solo_getCoinbaseOutputs_eq hreward hsmall miner
  have hleast := hreward.least
  have hrequest : datumRequestCoinbaseOutputs (soloService blockFound) miner
      (feesSats job.coinbaseValue) =
        some ((Solo.getCoinbaseOutputs miner (feesSats job.coinbaseValue)).map rewardOutput) := by
    refine datumRequestCoinbaseOutputs_eq hplain (inRange_feesSats _)
      (socketService_eq _ _ hminer (inRange_feesSats _)) hsplits.length_le fun o ho =>
        ⟨?_, hsplits.inRange ho⟩
    rw [heq] at ho
    simp only [List.mem_cons, List.not_mem_nil, or_false] at ho
    rcases ho with rfl | rfl
    · exact hplain
    · exact plainAddress_poolFeeAddress
  have hfinder : ∃ o ∈ Solo.getCoinbaseOutputs miner (feesSats job.coinbaseValue),
      (u.addr2OutputScript o.address).isSome := by
    rw [heq]
    exact ⟨_, List.mem_cons_self, by simp [hdecodes]⟩
  obtain ⟨p, hp, hpays⟩ := pays_of_request hu hrequest hplain.nonempty hsplits hfinder hlayout
    hpool hwit coinb2Out
  refine ⟨p, hp, ?_⟩
  have hpart : ((job.coinbaseValue.toNat : ℤ) - job.coinbaseValue.toNat / 100).toNat =
      job.coinbaseValue.toNat - job.coinbaseValue.toNat / 100 := by omega
  have hpercent : ((job.coinbaseValue.toNat : ℤ) / 100).toNat = job.coinbaseValue.toNat / 100 := by
    omega
  have hpos : (0 : ℤ) < job.coinbaseValue.toNat / 100 := by omega
  rw [heq, servedOuts] at hpays
  convert hpays using 1
  cases hfee : u.addr2OutputScript poolFeeAddress with
  | none => simp [decodable, leftover, undecodable, hdecodes, hfee, hpart, hpercent, hpos]
  | some feeScript => simp [decodable, leftover, undecodable, hdecodes, hfee, hpart, hpercent]

theorem solo_coinbase_pays_scriptSigJob :
    ∃ p, generatePersonalCoinb2 poolUtils (soloService fun _ => true) scriptSigJob minerAddress [] =
        some p ∧
      p.Pays [⟨309375000, minerScript⟩, ⟨3125000, feeScript⟩, deadOut, ⟨0, witnessScript⟩,
        signetOut] :=
  solo_coinbase_pays documented_poolUtils _
    (show BlockReward (scriptSigJob.coinbaseValue.toNat : ℤ) from ⟨by decide, by decide⟩)
    (by decide) (by decide) (by rfl) (by decide) (by decide) (commits_freshJob 312500000 []) []

end Gateway
