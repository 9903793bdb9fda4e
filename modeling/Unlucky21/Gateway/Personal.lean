import Unlucky21.Gateway.ReplyParser
import Unlucky21.Gateway.WellFormed

/-!
# The service's outputs in a coinbase

The two places where the gateway asks the reward service. The coinbaser thread
asks on behalf of the pool and hands every output it can decode to the shared
coinbases, whatever the amount. For a miner only positive amounts are taken, and
the second half of the coinbase is written anew; whether the sequence number
belongs into it is read off the shared second half of type 0.
-/

namespace Gateway

open Wire CText Half Reward Int64Arith

def feesSats (coinbaseValue : UInt64) : ℤ :=
  if 312500000 < int64 coinbaseValue.toNat then int64 coinbaseValue.toNat - 312500000 else 0

variable (u : DatumUtils) (cfg : Config) (service : Text → ℤ → Option Text)

/-- The script of the address and the amount, cast to `uint64_t`. -/
def RewardOutput.output (o : RewardOutput) : Option Output :=
  (u.addr2OutputScript o.address).map fun script => ⟨UInt64.ofInt o.amountSats, script⟩

/-! ## The shared coinbases -/

/-- The outputs the coinbaser thread keeps for a job. -/
def sharedOutputs (reply : List RewardOutput) : List Output :=
  (reply.take 512).filterMap (RewardOutput.output u)

def StratumJob.withReply (s : StratumJob) (reply : List RewardOutput) : StratumJob :=
  { s with
    availableCoinbaseOutputs := sharedOutputs u reply
    isDatumJob := s.isDatumJob || !(sharedOutputs u reply).isEmpty }

/-- `datum_coinbaser_thread`, for one job: no reply is a reply without outputs. -/
def datumCoinbaserThread (s : StratumJob) : Option StratumJob :=
  let reply := datumRequestCoinbaseOutputs service cfg.miningPoolAddress (feesSats s.coinbaseValue)
  generateCoinbaseTxns u cfg (s.withReply u (reply.getD [])) false

/-! ## The coinbase of a miner -/

def personalOutputs (reply : List RewardOutput) : List Output :=
  (reply.take REWARD_MAX_OUTPUTS).filterMap fun o =>
    if o.amountSats ≤ 0 then none else o.output u

/-- The running total of the amounts, modulo 2^64. -/
def totalSats (outs : List Output) : UInt64 := outs.foldl (fun total o => total + o.valueSats) 0

/-- The shared second half of type 0 starts with a sequence number. -/
def StratumJob.enInCb (s : StratumJob) : Bool :=
  "ffffffff".toList.isPrefixOf (cstr (s.coinbase 0).coinb2)

def writePersonal (s : StratumJob) (outs : List Output) (h : Half) : Half :=
  let h := if s.enInCb then (h.put "ffffffff".toList).varint u (outs.length + 3) else h
  let h := outs.foldl (fun h o => h.output u o.valueSats.toNat o.outputScript) h
  let h :=
    if totalSats outs < s.coinbaseValue then
      h.output u (s.coinbaseValue - totalSats outs).toNat s.poolAddrScript
    else h.deadOutput
  (h.commitments s.blockTemplate.defaultWitnessCommitment).terminate

structure PersonalCoinb2 where
  outputCount : ℕ
  coinb2 : Text
  coinb2Bin : Bytes
  /-- What the half logged. -/
  values : List ℕ
deriving DecidableEq, Repr

def personalCoinb2 (s : StratumJob) (outs : List Output) (coinb2Out : Text) : PersonalCoinb2 :=
  let h := writePersonal u s outs (Half.start coinb2Out)
  { outputCount := outs.length
    coinb2 := h.cursor.buf
    coinb2Bin := unhex u.hex2binUchar h.cursor.written
    values := h.values }

/-- `datum_generate_personal_coinb2`; without a result the shared half is sent. -/
def generatePersonalCoinb2 (s : StratumJob) (btcAddr coinb2Out : Text) : Option PersonalCoinb2 := do
  if btcAddr = [] then none
  else
    let personal ← datumRequestCoinbaseOutputs service btcAddr (feesSats s.coinbaseValue)
    if personal = [] then none
    else
      let outs := personalOutputs u personal
      if outs = [] then none
      else if s.coinbaseValue < totalSats outs then none
      else some (personalCoinb2 u s outs coinb2Out)

/-! ## What it consists of -/

variable {u cfg service} {s : StratumJob}

/-- Outputs that are accepted for a job. -/
structure Accepted (s : StratumJob) (outs : List Output) : Prop where
  nonempty : outs ≠ []
  covered : totalSats outs ≤ s.coinbaseValue
  script : ∀ o ∈ outs, o.outputScript.length ≤ 64

theorem script_le_of_mem_personalOutputs (hu : u.Documented) {reply : List RewardOutput} {o : Output}
    (h : o ∈ personalOutputs u reply) : o.outputScript.length ≤ 64 := by
  obtain ⟨r, -, hr⟩ := List.mem_filterMap.mp h
  split at hr
  · cases hr
  · obtain ⟨script, hscript, rfl⟩ := Option.map_eq_some_iff.mp hr
    exact (hu.addr2OutputScript _ _ hscript).2

theorem length_personalOutputs_le (reply : List RewardOutput) :
    (personalOutputs u reply).length ≤ REWARD_MAX_OUTPUTS :=
  (List.length_filterMap_le _ _).trans (List.length_take_le _ _)

theorem generatePersonalCoinb2_eq_some {btcAddr coinb2Out : Text} {p : PersonalCoinb2}
    (h : generatePersonalCoinb2 u service s btcAddr coinb2Out = some p) :
    ∃ reply, datumRequestCoinbaseOutputs service btcAddr (feesSats s.coinbaseValue) = some reply ∧
      personalOutputs u reply ≠ [] ∧ totalSats (personalOutputs u reply) ≤ s.coinbaseValue ∧
      p = personalCoinb2 u s (personalOutputs u reply) coinb2Out := by
  unfold generatePersonalCoinb2 at h
  split at h
  · cases h
  · obtain ⟨reply, hreply, h⟩ := Option.bind_eq_some_iff.mp h
    split at h
    · cases h
    · simp only at h
      split at h
      · cases h
      next hne =>
        split at h
        · cases h
        next hle =>
          exact ⟨reply, hreply, hne, UInt64.not_lt.mp hle, (Option.some.inj h).symm⟩

theorem generatePersonalCoinb2_eq {btcAddr : Text} {reply : List RewardOutput} (hne : btcAddr ≠ [])
    (hreply : datumRequestCoinbaseOutputs service btcAddr (feesSats s.coinbaseValue) = some reply)
    (houts : personalOutputs u reply ≠ [])
    (hcovered : totalSats (personalOutputs u reply) ≤ s.coinbaseValue) (coinb2Out : Text) :
    generatePersonalCoinb2 u service s btcAddr coinb2Out =
      some (personalCoinb2 u s (personalOutputs u reply) coinb2Out) := by
  have hreply_ne : reply ≠ [] := by
    rintro rfl
    exact houts rfl
  unfold generatePersonalCoinb2
  rw [if_neg hne, hreply, Option.bind_eq_bind, Option.bind_some, if_neg hreply_ne]
  simp only
  rw [if_neg houts, if_neg (UInt64.not_lt.mpr hcovered)]

/-- The total before it wraps. -/
def exactTotal (outs : List Output) : ℕ := (outs.map Output.value).sum

@[simp] theorem exactTotal_cons (o : Output) (outs : List Output) :
    exactTotal (o :: outs) = o.value + exactTotal outs := by
  simp [exactTotal]

theorem toNat_totalSats (outs : List Output) : (totalSats outs).toNat = exactTotal outs % 2 ^ 64 := by
  have hfold : ∀ (l : List Output) (t : UInt64),
      (l.foldl (fun total o => total + o.valueSats) t).toNat = (t.toNat + exactTotal l) % 2 ^ 64 := by
    intro l
    induction l with
    | nil =>
        intro t
        have := t.toNat_lt
        simp [exactTotal, Nat.mod_eq_of_lt this]
    | cons o l ih =>
        intro t
        rw [List.foldl_cons, ih, toNat_add_value, Nat.mod_add_mod, exactTotal_cons, add_assoc]
  rw [totalSats, hfold]
  simp

theorem values_map_txOut (outs : List Output) : values (outs.map Output.txOut) = exactTotal outs := by
  rw [values, List.map_map]
  rfl

/-- The outputs of a miner's coinbase, the extranonce output apart. -/
def personalOuts (s : StratumJob) (outs : List Output) (wit : Bytes) : List TxOut :=
  outs.map Output.txOut ++ lastOut s (totalSats outs).toNat :: commitmentOuts wit

theorem length_personalOuts (s : StratumJob) (outs : List Output) (wit : Bytes) :
    (personalOuts s outs wit).length = outs.length + 3 := by
  simp [personalOuts, commitmentOuts]

theorem length_serOuts_map_txOut_le {outs : List Output}
    (hs : ∀ o ∈ outs, o.outputScript.length ≤ 64) :
    (serOuts (outs.map Output.txOut)).length ≤ outs.length * 81 := by
  have hscripts : ∀ o ∈ outs.map Output.txOut, o.script.length ≤ 64 := by
    intro o ho
    obtain ⟨p, hp, rfl⟩ := List.mem_map.mp ho
    exact hs p hp
  have hser := length_serOuts_le hscripts
  rwa [List.length_map] at hser

theorem length_serOuts_personalOuts {input : CoinbaseInput} {script wit : Bytes}
    (hw : Writable u s input script wit) (outs : List Output) :
    (serOuts (personalOuts s outs wit)).length = (serOuts (outs.map Output.txOut)).length +
      ((lastOut s (totalSats outs).toNat).ser.length + (wit.length + 24)) := by
  rw [personalOuts, serOuts_append, List.length_append, serOuts_cons, List.length_append,
    length_commitmentOuts hw]

/-- Like a type's selection, a total that wraps pays 2^64 too much. -/
theorem values_personalOuts {outs : List Output} (h : totalSats outs ≤ s.coinbaseValue)
    (wit : Bytes) : values (personalOuts s outs wit) =
      s.coinbaseValue.toNat + 2 ^ 64 * (exactTotal outs / 2 ^ 64) := by
  have hlast := value_lastOut (UInt64.le_iff_toNat_le.mp h)
  have htotal := toNat_totalSats outs
  have hmod := Nat.div_add_mod (exactTotal outs) (2 ^ 64)
  simp only [personalOuts, values_append, values_cons, values_commitmentOuts, values_map_txOut]
  omega

theorem fits_personalOuts {input : CoinbaseInput} {script wit : Bytes}
    (hw : Writable u s input script wit) {outs : List Output}
    (hs : ∀ o ∈ outs, o.outputScript.length ≤ 64) : ∀ o ∈ personalOuts s outs wit, o.Fits := by
  refine fits_append ?_ (List.forall_mem_cons.mpr ⟨fits_lastOut hw _, fits_commitmentOuts hw⟩)
  intro o ho
  obtain ⟨p, hp, rfl⟩ := List.mem_map.mp ho
  have := hs p hp
  exact ⟨p.valueSats.toNat_lt, by show p.outputScript.length < 2 ^ 64; omega⟩

/-! ## What is written -/

/-- The second half of a miner's coinbase. -/
def personalTail (s : StratumJob) (outs : List Output) (wit : Bytes) : Bytes :=
  if s.enInCb then seqTail (outs.length + 3) (personalOuts s outs wit)
  else outTail (personalOuts s outs wit)

theorem outputs_map_txOut (h : Half) (outs : List Output) :
    outs.foldl (fun h o => h.output u o.valueSats.toNat o.outputScript) h =
      h.outputs u (outs.map Output.txOut) := by
  rw [Half.outputs, List.foldl_map]
  rfl

/-- **The second half of a miner's coinbase**, as bytes. -/
theorem coinb2Bin_personalCoinb2 {input : CoinbaseInput} {script wit : Bytes}
    (hw : Writable u s input script wit) {outs : List Output}
    (hs : ∀ o ∈ outs, o.outputScript.length ≤ 64) (hlen : outs.length ≤ REWARD_MAX_OUTPUTS)
    (buf : Text) : (personalCoinb2 u s outs buf).coinb2Bin = personalTail s outs wit := by
  have hu := hw.documented
  have hscripts : ∀ o ∈ outs.map Output.txOut, o.script.length < 2 ^ 64 := by
    intro o ho
    obtain ⟨p, hp, rfl⟩ := List.mem_map.mp ho
    have := hs p hp
    show p.outputScript.length < 2 ^ 64
    omega
  have hstart := reads_start (u := u) buf
  have hseq : Encodes u.hex2binUchar "ffffffff".toList finalSequence := by
    have hhex : hexOf finalSequence = "ffffffff".toList := by decide
    exact hhex ▸ encodes_hexOf hu.hex2binUchar _
  have hread : (writePersonal u s outs (Half.start buf)).Reads u (personalTail s outs wit) := by
    unfold writePersonal personalTail
    simp only [outputs_map_txOut, payRest_toNat]
    cases s.enInCb with
    | true =>
        have hn : outs.length + 3 < 2 ^ 64 := by unfold REWARD_MAX_OUTPUTS at hlen; omega
        have hhead := ((hstart.put hseq).varint hu hn).outputs hu hscripts
        have hall := (reads_commit hw (hhead.payRest hu hw.pool (totalSats outs).toNat)).terminate
        simpa [seqTail, outTail, personalOuts] using hall
    | false =>
        have hall := (reads_commit hw
          ((hstart.outputs hu hscripts).payRest hu hw.pool (totalSats outs).toNat)).terminate
        simpa [outTail, personalOuts] using hall
  exact Encodes.unhex_eq hread

/-! ## Replies of the pool -/

def minerAddress : Text := "bc1qw508d6qejxtdg4y5r3zarvary0c5xw7kv8f3t4".toList

/-- Two outputs for whoever asks and for the pool. -/
def poolReply (finderAmount poolFeeOut : ℤ) (miner : Text) : List CoinbaseOutput :=
  [⟨miner, finderAmount⟩, ⟨poolFeeAddress, poolFeeOut⟩]

def replyService (finderAmount poolFeeOut : ℤ) (miner : Text) (_fees : ℤ) : Option Text :=
  some (coinbaseResponse (poolReply finderAmount poolFeeOut miner))

theorem request_replyService {finderAmount poolFeeOut fees : ℤ} {miner : Text}
    (hminer : isValidBtcAddress miner = true) (hfees : InRange fees) (hf : InRange finderAmount)
    (hp : InRange poolFeeOut) :
    datumRequestCoinbaseOutputs (replyService finderAmount poolFeeOut) miner fees =
      some ((poolReply finderAmount poolFeeOut miner).map rewardOutput) := by
  have hplain := plainAddress_of_isValidBtcAddress hminer
  have hpool : PlainAddress poolFeeAddress := plainAddress_of_isValidBtcAddress (by decide)
  refine datumRequestCoinbaseOutputs_eq hplain hfees rfl (show 2 ≤ 30 by norm_num) ?_
  intro o ho
  rcases List.mem_cons.mp ho with rfl | ho
  · exact ⟨hplain, hf⟩
  · obtain rfl := List.mem_singleton.mp ho
    exact ⟨hpool, hp⟩

theorem inRange_feesSats (coinbaseValue : UInt64) : InRange (feesSats coinbaseValue) := by
  have h := inRange_int64 coinbaseValue.toNat
  unfold feesSats
  unfold InRange at h ⊢
  split <;> omega

/-- 3.125 coins and no ranked miners: 2.1 % and the rest. -/
abbrev plainService : Text → ℤ → Option Text := replyService 6562500 305937500

theorem request_minerAddress :
    datumRequestCoinbaseOutputs plainService minerAddress (feesSats 312500000) =
      some ((poolReply 6562500 305937500 minerAddress).map rewardOutput) :=
  request_replyService (by decide) (inRange_feesSats _) ⟨by norm_num, by norm_num⟩
    ⟨by norm_num, by norm_num⟩

end Gateway
