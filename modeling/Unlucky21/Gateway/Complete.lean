import Unlucky21.Gateway.Service
import Unlucky21.Gateway.Solvency

/-!
# Every output of the reply

Whether a shared coinbase contains all outputs of the reply is a question of its
budget: the size of the type, less what every coinbase needs, and less still
where the template is nearly full. The selection gives up once fewer than 30
bytes are left, so that much has to be spare in front of the last output.
-/

namespace Gateway

open Wire CText Greedy Half Reward Int64Arith

/-- The bytes the selection has to start with to take all outputs. -/
def spaceNeeded (outs : List Output) : ℤ :=
  max (outs.map Output.cost).sum ((outs.dropLast.map Output.cost).sum + 30)

/-- The template's limits leave that much, next to the fixed part of a coinbase. -/
structure LeavesRoom (t : Template) (fixedBytes needed : ℤ) : Prop where
  size : t.txnTotalSize.toNat + 85 + 36 + fixedBytes + needed ≤ t.sizelimit.toNat
  weight : t.txnTotalWeight.toNat + 340 + 36 + 4 * (fixedBytes + needed) ≤ t.weightlimit.toNat

/-- The output of a reply, as it is in a transaction. -/
def RewardOutput.txOut (u : DatumUtils) (o : RewardOutput) : TxOut :=
  ⟨o.amountSats.toNat, (u.addr2OutputScript o.address).getD []⟩

/-- Under every extranonce a transaction with these outputs, in order, that pays
nothing else. -/
def PaysAll (c : Coinbase) (outs : List TxOut) : Prop :=
  ∀ en : Bytes, en.length = 12 → ∃ tx, parseTx (c.coinb1Bin ++ en ++ c.coinb2Bin) = some tx ∧
    outs.Sublist tx.outs ∧ values tx.outs = values outs

variable {u : DatumUtils} {s : StratumJob} {input : CoinbaseInput}

/-! ## Budgets -/

theorem i32_eq {n : ℤ} (h : 0 ≤ n) (h' : n < 2 ^ 31) : i32 n = n := by
  unfold i32
  rw [Int.bmod_eq_of_le] <;> norm_num <;> omega

theorem u32_le {n : ℤ} (h : 0 ≤ n) : u32 n ≤ n := by
  unfold u32
  omega

/-- With room for `needed` bytes nothing wraps. -/
theorem sizeRoom_eq_some {t : Template} {maxSz fixedBytes needed r : ℤ}
    (h : LeavesRoom t fixedBytes needed) (h0 : 0 ≤ needed) (hfixed : 0 ≤ fixedBytes)
    (hmax : 0 ≤ maxSz) (hbig : maxSz < 2 ^ 31)
    (hr : sizeRoom t (fixedBytes + maxSz) fixedBytes = some r) :
    r = t.sizelimit.toNat - (t.txnTotalSize.toNat + 85 + 36) - fixedBytes := by
  have hsize := h.size
  unfold sizeRoom at hr
  simp only at hr
  split at hr
  next hlt =>
    have hle := u32_le (n := fixedBytes + maxSz + t.txnTotalSize.toNat + 85 + 36) (by omega)
    obtain rfl := Option.some.inj hr
    exact i32_eq (by omega) (by omega)
  next => cases hr

theorem weightRoom_eq_some {t : Template} {maxSz fixedBytes needed r : ℤ}
    (h : LeavesRoom t fixedBytes needed) (h0 : 0 ≤ needed) (hfixed : 0 ≤ fixedBytes)
    (hmax : 0 ≤ maxSz) (hbig : maxSz < 2 ^ 31)
    (hr : weightRoom t (fixedBytes + maxSz) fixedBytes = some r) :
    r = (t.weightlimit.toNat - (t.txnTotalWeight.toNat + 340 + 36)) / 4 - fixedBytes := by
  have hweight := h.weight
  have hlimit := t.weightlimit.toNat_lt
  unfold weightRoom at hr
  simp only at hr
  split at hr
  next hlt =>
    have hle := u32_le (n := (fixedBytes + maxSz) * 4 + t.txnTotalWeight.toNat + 340 + 36) (by omega)
    obtain rfl := Option.some.inj hr
    have hroom : u32 (t.weightlimit.toNat - (t.txnTotalWeight.toNat + 340 + 36)) =
        t.weightlimit.toNat - (t.txnTotalWeight.toNat + 340 + 36) := by
      unfold u32
      exact Int.emod_eq_of_lt (by omega) (by omega)
    rw [hroom]
    exact i32_eq (by omega) (by omega)
  next => cases hr

theorem le_sizeRoom {t : Template} {maxSz fixedBytes needed r : ℤ} (h : LeavesRoom t fixedBytes needed)
    (h0 : 0 ≤ needed) (hfixed : 0 ≤ fixedBytes) (hmax : 0 ≤ maxSz) (hbig : maxSz < 2 ^ 31)
    (hr : sizeRoom t (fixedBytes + maxSz) fixedBytes = some r) : needed ≤ r := by
  have hsize := h.size
  rw [sizeRoom_eq_some h h0 hfixed hmax hbig hr]
  omega

theorem le_weightRoom {t : Template} {maxSz fixedBytes needed r : ℤ}
    (h : LeavesRoom t fixedBytes needed) (h0 : 0 ≤ needed) (hfixed : 0 ≤ fixedBytes)
    (hmax : 0 ≤ maxSz) (hbig : maxSz < 2 ^ 31)
    (hr : weightRoom t (fixedBytes + maxSz) fixedBytes = some r) : needed ≤ r := by
  have hweight := h.weight
  rw [weightRoom_eq_some h h0 hfixed hmax hbig hr]
  omega

/-- The answer of the limit that is asked last. -/
def limitRoom (t : Template) (maxSz fixedBytes : ℤ) : ℤ :=
  (weightRoom t (fixedBytes + maxSz) fixedBytes).getD
    ((sizeRoom t (fixedBytes + maxSz) fixedBytes).getD (maxSz + fixedBytes))

/-- With room, no answer is negative. -/
theorem fitToTemplate_eq_min {t : Template} {maxSz fixedBytes needed : ℤ}
    (h : LeavesRoom t fixedBytes needed) (h0 : 0 ≤ needed) (hfixed : 0 ≤ fixedBytes)
    (hbudget : needed ≤ maxSz) (hbig : maxSz < 2 ^ 31) :
    needed ≤ limitRoom t maxSz fixedBytes ∧
      fitToTemplate maxSz fixedBytes t = min (limitRoom t maxSz fixedBytes) (maxSz - fixedBytes) := by
  have hmax : 0 ≤ maxSz := by omega
  have hle_getD : ∀ {o : Option ℤ} {d : ℤ}, (∀ r, o = some r → needed ≤ r) → needed ≤ d →
      needed ≤ o.getD d := by
    intro o d ho hd
    cases o with
    | none => exact hd
    | some r => exact ho r rfl
  have hsize : needed ≤ (sizeRoom t (fixedBytes + maxSz) fixedBytes).getD (maxSz + fixedBytes) :=
    hle_getD (fun r hr => le_sizeRoom h h0 hfixed hmax hbig hr) (by omega)
  have hweight : needed ≤ limitRoom t maxSz fixedBytes :=
    hle_getD (fun r hr => le_weightRoom h h0 hfixed hmax hbig hr) hsize
  refine ⟨hweight, ?_⟩
  unfold fitToTemplate
  simp only
  rw [if_neg (by rintro ⟨-, hneg⟩; omega), if_neg (by unfold limitRoom at hweight; rintro ⟨-, hneg⟩; omega)]
  show min (max (limitRoom t maxSz fixedBytes) 0) (maxSz - fixedBytes) = _
  rw [max_eq_left (h0.trans hweight)]

/-- A template with room does not cut what the type itself allows. -/
theorem le_fitToTemplate {t : Template} {maxSz fixedBytes needed : ℤ}
    (h : LeavesRoom t fixedBytes needed) (h0 : 0 ≤ needed) (hfixed : 0 ≤ fixedBytes)
    (hbudget : needed ≤ maxSz - fixedBytes) (hbig : maxSz < 2 ^ 31) :
    needed ≤ fitToTemplate maxSz fixedBytes t := by
  obtain ⟨hweight, hfit⟩ := fitToTemplate_eq_min h h0 hfixed (by omega) hbig
  rw [hfit]
  exact le_min hweight hbudget

/-! ## Taking everything -/

theorem selection_all {remaining : ℤ} (hneeded : spaceNeeded s.availableCoinbaseOutputs ≤ remaining)
    (hpos : ∀ o ∈ s.availableCoinbaseOutputs, 0 < o.value)
    (hsum : exactTotal s.availableCoinbaseOutputs ≤ s.coinbaseValue.toNat) :
    (selection s remaining).map Prod.snd = s.availableCoinbaseOutputs := by
  refine take_all s.coinbaseValue.toNat_lt _ 0 _ _ (fun o ho => ⟨?_, hpos o ho⟩)
    ((le_max_left _ _).trans hneeded) ((le_max_right _ _).trans hneeded) ?_
  · exact (show (0 : ℤ) ≤ 9 by norm_num).trans (cost_nonneg o)
  · show 0 + exactTotal s.availableCoinbaseOutputs ≤ s.coinbaseValue.toNat
    omega

/-- The first half takes a front part: positions increase. -/
theorem halves_append (n : ℕ) (special : Bool) {sel : List (ℕ × Output)}
    (h : sel.Pairwise fun p q => p.1 < q.1) :
    firstHalf n special sel ++ secondHalf n special sel = sel.map fun p => p.2.txOut := by
  induction sel with
  | nil => rfl
  | cons p sel ih =>
      rw [List.pairwise_cons] at h
      rw [firstHalf_cons, secondHalf_cons, List.map_cons, ← ih h.2]
      split
      next => rw [List.cons_append]
      next hp =>
        have hnone : firstHalf n special sel = [] := by
          rw [firstHalf, List.map_eq_nil_iff, List.filter_eq_nil_iff]
          intro q hq
          have hlt := h.1 q hq
          simp only [Bool.and_eq_true, decide_eq_true_eq, not_and] at hp ⊢
          exact fun hs => by have := hp hs; omega
        rw [hnone, List.nil_append, List.nil_append]

/-- A type that takes everything pays every output and nothing else. -/
theorem typeOuts_all {t : Fin 6} (script wit en : Bytes)
    (hall : (typeSelection s input t).map Prod.snd = s.availableCoinbaseOutputs)
    (hsum : exactTotal s.availableCoinbaseOutputs = s.coinbaseValue.toNat) :
    (s.availableCoinbaseOutputs.map Output.txOut).Sublist (typeOuts s input script wit en t) ∧
      values (typeOuts s input script wit en t) =
        values (s.availableCoinbaseOutputs.map Output.txOut) := by
  have htaken : taken Output.value (typeSelection s input t) = s.coinbaseValue.toNat := by
    rw [← hsum, exactTotal, ← hall, List.map_map]
    rfl
  have hlt := s.coinbaseValue.toNat_lt
  constructor
  · have hpair : (typeSelection s input t).Pairwise fun p q => p.1 < q.1 := pairwise_take _ _ _ _
    have happend : typeFirst s input script t ++ typeSecond s input script t =
        s.availableCoinbaseOutputs.map Output.txOut := by
      rw [← hall, List.map_map]
      exact halves_append _ _ hpair
    rw [← happend, typeOuts]
    split
    next h =>
      rw [typeFirst_of_ne h.2, List.nil_append]
      exact List.sublist_append_left _ _
    next =>
      exact (List.Sublist.refl _).append
        ((List.sublist_append_left _ _).trans (List.sublist_cons_self _ _))
  · rw [values_typeOuts, htaken, Nat.div_eq_of_lt hlt, values_map_txOut, hsum]
    omega

/-! ## Replies -/

theorem sharedOutputs_map_txOut {reply : List RewardOutput} (hlen : reply.length ≤ 512)
    (h : ∀ o ∈ reply, (u.addr2OutputScript o.address).isSome ∧ 0 < o.amountSats ∧
      InRange o.amountSats) :
    (sharedOutputs u reply).map Output.txOut = reply.map (RewardOutput.txOut u) := by
  rw [sharedOutputs, List.take_of_length_le hlen]
  clear hlen
  induction reply with
  | nil => rfl
  | cons o reply ih =>
      obtain ⟨⟨hsome, hpos, -, hlt⟩, hrest⟩ := List.forall_mem_cons.mp h
      obtain ⟨script, hscript⟩ := Option.isSome_iff_exists.mp hsome
      have hvalue : (UInt64.ofInt o.amountSats).toNat = o.amountSats.toNat := by
        rw [UInt64.ofInt, UInt64.toNat_ofNat']
        omega
      have hout : o.output u = some ⟨UInt64.ofInt o.amountSats, script⟩ := by
        rw [RewardOutput.output, hscript, Option.map_some]
      rw [List.filterMap_cons_some hout, List.map_cons, List.map_cons, ih hrest]
      simp [Output.txOut, RewardOutput.txOut, hvalue, hscript]

/-- Outputs for the finder, up to 21 ranked addresses and the pool, all decodable,
that share out the coinbase value. -/
structure FullReply (u : DatumUtils) (coinbaseValue : UInt64) (reply : List RewardOutput) :
    Prop where
  length_ge : 2 ≤ reply.length
  length_le : reply.length ≤ 23
  decodes : ∀ o ∈ reply, ∃ script, u.addr2OutputScript o.address = some script ∧
    script.length ≤ 34
  positive : ∀ o ∈ reply, 0 < o.amountSats
  sum : (reply.map RewardOutput.amountSats).sum = coinbaseValue.toNat

namespace FullReply

variable {coinbaseValue : UInt64} {reply : List RewardOutput}
  (h : FullReply u coinbaseValue reply) (hrange : ∀ o ∈ reply, InRange o.amountSats)

include h

theorem values_txOut : values (reply.map (RewardOutput.txOut u)) = coinbaseValue.toNat := by
  have hcast : ∀ l : List RewardOutput, (∀ o ∈ l, 0 < o.amountSats) →
      ((values (l.map (RewardOutput.txOut u)) : ℕ) : ℤ) = (l.map RewardOutput.amountSats).sum := by
    intro l
    induction l with
    | nil => intro _; rfl
    | cons o l ih =>
        intro hl
        obtain ⟨ho, hrest⟩ := List.forall_mem_cons.mp hl
        rw [List.map_cons, values_cons, List.map_cons, List.sum_cons, ← ih hrest]
        have hvalue : (o.txOut u).value = o.amountSats.toNat := rfl
        rw [hvalue]
        omega
  have hint := hcast reply h.positive
  rw [h.sum] at hint
  exact_mod_cast hint

include hrange

theorem map_txOut : (sharedOutputs u reply).map Output.txOut = reply.map (RewardOutput.txOut u) := by
  refine sharedOutputs_map_txOut (h.length_le.trans (by norm_num)) fun o ho => ?_
  obtain ⟨script, hscript, -⟩ := h.decodes o ho
  exact ⟨by rw [hscript]; rfl, h.positive o ho, hrange o ho⟩

theorem isEmpty_sharedOutputs : (sharedOutputs u reply).isEmpty = false := by
  rw [List.isEmpty_eq_false_iff]
  intro hnil
  have hlen := congrArg List.length (h.map_txOut hrange)
  have hge := h.length_ge
  rw [hnil, List.map_nil, List.length_nil, List.length_map] at hlen
  omega

/-- Each output kept is one of the reply's. -/
theorem of_mem {o : Output} (ho : o ∈ sharedOutputs u reply) :
    0 < o.value ∧ o.outputScript.length ≤ 34 := by
  have hmem : o.txOut ∈ reply.map (RewardOutput.txOut u) := by
    rw [← h.map_txOut hrange]
    exact List.mem_map_of_mem ho
  obtain ⟨r, hr, hro⟩ := List.mem_map.mp hmem
  obtain ⟨script, hscript, hle⟩ := h.decodes r hr
  have hvalue : r.amountSats.toNat = o.value := congrArg TxOut.value hro
  have hbytes : (u.addr2OutputScript r.address).getD [] = o.outputScript :=
    congrArg TxOut.script hro
  have hpos := h.positive r hr
  rw [hscript, Option.getD_some] at hbytes
  subst hbytes
  exact ⟨by omega, hle⟩

theorem exactTotal_sharedOutputs : exactTotal (sharedOutputs u reply) = coinbaseValue.toNat := by
  rw [← values_map_txOut, h.map_txOut hrange, h.values_txOut]

/-- 23 outputs of at most 43 bytes, and the spare 30. -/
theorem spaceNeeded_le : spaceNeeded (sharedOutputs u reply) ≤ 1019 := by
  have hsum : ∀ l : List Output, (∀ o ∈ l, o.outputScript.length ≤ 34) →
      (l.map Output.cost).sum ≤ 43 * l.length := by
    intro l
    induction l with
    | nil => simp
    | cons o l ih =>
        intro hl
        obtain ⟨ho, hrest⟩ := List.forall_mem_cons.mp hl
        have := ih hrest
        simp only [List.map_cons, List.sum_cons, List.length_cons, Output.cost]
        push_cast
        omega
  have hscript : ∀ o ∈ sharedOutputs u reply, o.outputScript.length ≤ 34 :=
    fun o ho => (h.of_mem hrange ho).2
  have hall := hsum _ hscript
  have hdrop := hsum _ fun o ho => hscript o (List.mem_of_mem_dropLast ho)
  have hlen : (sharedOutputs u reply).length ≤ 23 :=
    ((List.length_filterMap_le _ _).trans (List.length_take_le' _ _)).trans h.length_le
  have hlen' : (sharedOutputs u reply).dropLast.length ≤ 23 := by
    rw [List.length_dropLast]
    omega
  unfold spaceNeeded
  omega

end FullReply

/-- The service's own replies are full ones, if every address decodes. -/
theorem fullReply_payout {handler : PoolHandler} {coinbaseValue : UInt64} {miner : Text}
    (h : BlockReward coinbaseValue.toNat) (hboard : PlainBoard handler)
    (hdecodes : ∀ o ∈ payout handler coinbaseValue miner, ∃ script,
      u.addr2OutputScript o.address = some script ∧ script.length ≤ 34) :
    FullReply u coinbaseValue ((payout handler coinbaseValue miner).map rewardOutput) where
  length_ge := by
    rw [List.length_map, length_payout hboard]
    omega
  length_le := by
    have := hboard.length_le
    rw [List.length_map, length_payout hboard]
    omega
  decodes := by
    intro r hr
    obtain ⟨o, ho, rfl⟩ := List.mem_map.mp hr
    exact hdecodes o ho
  positive := by
    intro r hr
    obtain ⟨o, ho, rfl⟩ := List.mem_map.mp hr
    exact (payout_bounds h o ho).1
  sum := by
    rw [List.map_map]
    exact sum_payout h

theorem spaceNeeded_nonneg (outs : List Output) : 0 ≤ spaceNeeded outs := by
  refine le_trans ?_ (le_max_left _ _)
  apply List.sum_nonneg
  rintro c hc
  obtain ⟨o, -, rfl⟩ := List.mem_map.mp hc
  exact (show (0 : ℤ) ≤ 9 by norm_num).trans (cost_nonneg o)

theorem cbReqSize_bounds {pool size : ℕ} (hpool : pool ≤ 64) (hsize : size ≤ 100) (space : Bool)
    (t : Fin 6) : 0 ≤ cbReqSize pool size space t ∧ cbReqSize pool size space t ≤ 293 := by
  unfold cbReqSize
  split <;> omega

theorem cbReqSize_nonneg (pool size : ℕ) (space : Bool) (t : Fin 6) :
    0 ≤ cbReqSize pool size space t := by
  unfold cbReqSize
  split <;> omega

/-- A type whose selection takes every output of the reply. -/
theorem paysAll_type {script wit : Bytes} (hw : Writable u s input script wit) {t : Fin 6}
    (ht : t = 0 → input.space)
    (hbudget : spaceNeeded s.availableCoinbaseOutputs ≤
      remainingSize s input input.space t)
    (hpos : ∀ o ∈ s.availableCoinbaseOutputs, 0 < o.value)
    (hsum : exactTotal s.availableCoinbaseOutputs = s.coinbaseValue.toNat) :
    PaysAll ((typeDraft u s input input.space false t).coinbase u)
      (s.availableCoinbaseOutputs.map Output.txOut) := by
  intro en hen
  obtain ⟨h1, h2⟩ := coinb1Bin_eq (readsAs_typeDraft hw false t)
  obtain ⟨i, hparse⟩ := parseTx_type hw ht hen
  obtain ⟨hsub, hvalues⟩ := typeOuts_all script wit en
    (selection_all hbudget hpos hsum.le) hsum
  rw [h1, h2]
  exact ⟨_, hparse, hsub, hvalues⟩

variable {cfg : Config} {service : Text → ℤ → Option Text}

/-- A full reply leaves no coinbase empty. -/
theorem datumCoinbaserThread_full {pool : Bytes} {reply : List RewardOutput}
    (hreply : datumRequestCoinbaseOutputs service cfg.miningPoolAddress
      (feesSats s.coinbaseValue) = some reply)
    (hfull : FullReply u s.coinbaseValue reply)
    (hgen : ∀ emptyOnly, generateCoinbaseTxns u cfg (s.withReply u reply) emptyOnly =
      some (((s.withReply u reply).withPool cfg pool).withCoinbases u input
        (emptyOnly || (s.withReply u reply).availableCoinbaseOutputs.isEmpty))) :
    datumCoinbaserThread u cfg service s =
      some (((s.withReply u reply).withPool cfg pool).withCoinbases u input false) := by
  obtain ⟨-, hrange⟩ := datumRequestCoinbaseOutputs_bounds hreply
  have hsome : (s.withReply u reply).availableCoinbaseOutputs.isEmpty = false :=
    hfull.isEmpty_sharedOutputs hrange
  rw [datumCoinbaserThread, hreply, Option.getD_some, hgen false, hsome, Bool.or_false]

/-- **Who is in a shared coinbase.** For a full reply and a template with room
for all its outputs: every type whose budget has that much, and the three large
types in any case, pays all outputs and nothing else; type 0 only where it is
not written twice. -/
theorem shared_coinbases_complete (hu : u.Documented) (hcfg : cfg.Fits) {pool wit : Bytes}
    (hpool : poolAddrScript u cfg = some pool)
    (hwit : Commits u s.blockTemplate.defaultWitnessCommitment wit) {reply : List RewardOutput}
    (hreply : datumRequestCoinbaseOutputs service cfg.miningPoolAddress
      (feesSats s.coinbaseValue) = some reply)
    (hfull : FullReply u s.coinbaseValue reply) :
    ∃ input s', generateCoinbaseInput u cfg s.height = some input ∧
      datumCoinbaserThread u cfg service s = some s' ∧
      ∀ t : Fin 6, (t = 0 → input.space) →
        LeavesRoom s.blockTemplate (cbReqSize pool.length input.size input.space t)
          (spaceNeeded (sharedOutputs u reply)) →
        spaceNeeded (sharedOutputs u reply) ≤
            maxSize t - cbReqSize pool.length input.size input.space t ∨
          (input.size ≤ 100 ∧ 3 ≤ t) →
        PaysAll (s'.coinbase t) (reply.map (RewardOutput.txOut u)) := by
  obtain ⟨-, hrange⟩ := datumRequestCoinbaseOutputs_bounds hreply
  obtain ⟨input, script, hinput, hw, hgen, -⟩ :=
    generateCoinbaseTxns_eq (s := s.withReply u reply) hu hcfg hpool hwit
  have hmap := hfull.map_txOut hrange
  have hs' := datumCoinbaserThread_full hreply hfull hgen
  refine ⟨input, _, hinput, hs', fun t ht hroom hbudget => ?_⟩
  have hneeded := hfull.spaceNeeded_le hrange
  have hfixed := cbReqSize_nonneg pool.length input.size input.space t
  have hlarge : spaceNeeded (sharedOutputs u reply) ≤
      maxSize t - cbReqSize pool.length input.size input.space t := by
    rcases hbudget with h | ⟨hsize, h3⟩
    · exact h
    · have hreq := (cbReqSize_bounds (length_poolAddrScript_le hu hcfg hpool) hsize input.space t).2
      have hmax : 2250 ≤ maxSize t := by
        revert h3
        fin_cases t <;> decide
      omega
  have hbig : maxSize t < 2 ^ 31 := by fin_cases t <;> decide
  have hremaining := le_fitToTemplate hroom (spaceNeeded_nonneg _) hfixed hlarge hbig
  rw [← hmap]
  exact paysAll_type hw ht hremaining (fun o ho => (hfull.of_mem hrange ho).1)
    (hfull.exactTotal_sharedOutputs hrange)

/-! ## The pool's own reply -/

theorem leavesRoom_freshJob {v : UInt64} {outs : List Output} {fixedBytes needed : ℤ}
    (hfixed : fixedBytes ≤ 293) (hneeded : needed ≤ 1019) :
    LeavesRoom (freshJob v outs).blockTemplate fixedBytes needed := by
  have hsize : (freshJob v outs).blockTemplate.txnTotalSize.toNat = 250 := rfl
  have hweight : (freshJob v outs).blockTemplate.txnTotalWeight.toNat = 1000 := rfl
  have hsizelimit : (freshJob v outs).blockTemplate.sizelimit.toNat = 4000000 := rfl
  have hweightlimit : (freshJob v outs).blockTemplate.weightlimit.toNat = 4000000 := rfl
  constructor
  · rw [hsize, hsizelimit]
    omega
  · rw [hweight, hweightlimit]
    omega

/-! ## A full board -/

/-- Every output of 31 bytes or more counts against the budget. -/
theorem length_typeOuts_le {t : Fin 6} (script wit en : Bytes)
    (h : ∀ o ∈ s.availableCoinbaseOutputs, 22 ≤ o.outputScript.length) :
    31 * ((typeOuts s input script wit en t).length : ℤ) ≤ maxSize t + 124 := by
  have hcost : ∀ o ∈ s.availableCoinbaseOutputs, (31 : ℤ) ≤ o.cost := by
    intro o ho
    have := h o ho
    unfold Output.cost
    omega
  have htaken : 31 * ((typeSelection s input t).length : ℤ) ≤
      max (remainingSize s input input.space t) 0 := length_take_mul_le (by norm_num) hcost 0 _ 0
  have hbudget := remainingSize_le s input input.space t
  have h0 : 0 ≤ maxSize t := by fin_cases t <;> decide
  have hhalves : (typeFirst s input script t).length + (typeSecond s input script t).length =
      (typeSelection s input t).length := length_halves _ _ _
  have hthree : (restOuts s (typeSelection s input t) wit).length = 3 := rfl
  have hlen : (typeOuts s input script wit en t).length ≤ (typeSelection s input t).length + 4 := by
    unfold typeOuts
    split
    · rw [List.length_append, hthree]
      omega
    · rw [List.length_append, List.length_cons, List.length_append, hthree]
      omega
  omega

/-- 21 ranked addresses. -/
def boardHandler : PoolHandler where
  svc := .boot .initial
  roundID := 1
  top21 := (List.range 21).map fun k => ⟨"bc1qranked".toList ++ Nat.toDigits 10 k, 1000, 0, k + 1⟩
  tasks := fun _ => .idle
  pass := .idle

/-- A witness program of 20 bytes for every address but the pool's. -/
def witnessProgram (a : Text) : Bytes :=
  if a = poolFeeAddress then feeScript
  else 0x00 :: 0x14 :: (a.takeD 20 'q').map fun c => UInt8.ofNat c.toNat

def boardUtils : DatumUtils := referenceUtils fun a => some (witnessProgram a)

def boardReply : List RewardOutput :=
  (payout boardHandler 312500000 poolFeeAddress).map rewardOutput

theorem documented_boardUtils : boardUtils.Documented := documented_referenceUtils _

theorem length_witnessProgram (a : Text) :
    22 ≤ (witnessProgram a).length ∧ (witnessProgram a).length ≤ 34 := by
  unfold witnessProgram
  split
  · decide
  · rw [List.length_cons, List.length_cons, List.length_map, List.takeD_length]
    decide

theorem addr2OutputScript_boardUtils (a : Text) :
    boardUtils.addr2OutputScript a = some (witnessProgram a) := by
  have hlen := length_witnessProgram a
  have hkept : (0 < (witnessProgram a).length && (witnessProgram a).length ≤ 64) = true := by
    rw [Bool.and_eq_true, decide_eq_true_eq, decide_eq_true_eq]
    omega
  show Option.filter (fun s => 0 < s.length && s.length ≤ 64) (some (witnessProgram a)) = _
  rw [Option.filter_some, if_pos hkept]

theorem blockReward_subsidy : BlockReward (312500000 : UInt64).toNat := ⟨by decide, by decide⟩

theorem plainBoard_boardHandler : PlainBoard boardHandler where
  length_le := by decide
  plain := by
    have hvalid : ∀ e ∈ boardHandler.top21, isValidBtcAddress e.btcAddress := by decide
    exact fun e he => plainAddress_of_isValidBtcAddress (hvalid e he)

theorem request_boardHandler :
    datumRequestCoinbaseOutputs (poolService boardHandler) (taggedConfig 9 0).miningPoolAddress
      (feesSats 312500000) = some boardReply :=
  request_poolService blockReward_subsidy plainBoard_boardHandler plainAddress_poolFeeAddress

theorem fullReply_boardReply : FullReply boardUtils 312500000 boardReply :=
  fullReply_payout blockReward_subsidy plainBoard_boardHandler fun o _ =>
    ⟨_, addr2OutputScript_boardUtils o.address, (length_witnessProgram o.address).2⟩

theorem nodup_boardReply : (boardReply.map (RewardOutput.txOut boardUtils)).Nodup := by
  decide +kernel

theorem length_script_boardReply :
    ∀ o ∈ sharedOutputs boardUtils boardReply, 22 ≤ o.outputScript.length := by
  intro o ho
  obtain ⟨-, hrange⟩ := datumRequestCoinbaseOutputs_bounds request_boardHandler
  have hmem : o.txOut ∈ boardReply.map (RewardOutput.txOut boardUtils) := by
    rw [← fullReply_boardReply.map_txOut hrange]
    exact List.mem_map_of_mem ho
  obtain ⟨r, -, hro⟩ := List.mem_map.mp hmem
  have hscript : (boardUtils.addr2OutputScript r.address).getD [] = o.outputScript :=
    congrArg TxOut.script hro
  rw [addr2OutputScript_boardUtils, Option.getD_some] at hscript
  rw [← hscript]
  exact (length_witnessProgram r.address).1

theorem space_boardUtils {input : CoinbaseInput}
    (hinput : generateCoinbaseInput boardUtils (taggedConfig 9 0) 900000 = some input) :
    input.space = true := by
  have hmap : (generateCoinbaseInput boardUtils (taggedConfig 9 0) 900000).map
      CoinbaseInput.space = some true := by decide
  rw [hinput] at hmap
  exact Option.some.inj hmap

/-- The 21 ranked addresses are paid by each of the large types, behind the two fees. -/
theorem shared_coinbases_complete_board :
    ∃ s', datumCoinbaserThread boardUtils (taggedConfig 9 0) (poolService boardHandler)
        (freshJob 312500000 []) = some s' ∧
      boardReply.length = 23 ∧
      ∀ t, 3 ≤ t → PaysAll (s'.coinbase t) (boardReply.map (RewardOutput.txOut boardUtils)) := by
  have hpool : poolAddrScript boardUtils (taggedConfig 9 0) = some feeScript :=
    addr2OutputScript_boardUtils poolFeeAddress
  obtain ⟨input, s', hinput, hs', hall⟩ := shared_coinbases_complete (s := freshJob 312500000 [])
    documented_boardUtils (fits_taggedConfig (by norm_num : 9 ≤ 64) (by norm_num : 0 ≤ 64)) hpool
    ⟨encodes_hexOf documented_boardUtils.hex2binUchar witnessScript, by decide⟩
    request_boardHandler fullReply_boardReply
  obtain ⟨-, hrange⟩ := datumRequestCoinbaseOutputs_bounds request_boardHandler
  have hspace := space_boardUtils hinput
  have hsize : input.size ≤ 85 := by simpa [CoinbaseInput.space] using hspace
  have hreq (t : Fin 6) := (cbReqSize_bounds (show feeScript.length ≤ 64 by decide)
    (show input.size ≤ 100 by omega) input.space t).2
  exact ⟨s', hs', by decide, fun t ht => hall t (fun _ => hspace)
    (leavesRoom_freshJob (hreq t) (fullReply_boardReply.spaceNeeded_le hrange))
    (Or.inr ⟨by omega, ht⟩)⟩

/-- 23 outputs of 31 bytes and more are no 500 bytes: type 1 has to leave some out. -/
theorem type1_drops_outputs :
    ∃ reply input s', datumRequestCoinbaseOutputs (poolService boardHandler)
        (taggedConfig 9 0).miningPoolAddress (feesSats 312500000) = some reply ∧
      FullReply boardUtils 312500000 reply ∧
      generateCoinbaseInput boardUtils (taggedConfig 9 0) 900000 = some input ∧
      input.size ≤ 100 ∧ input.space = true ∧
      LeavesRoom (freshJob 312500000 []).blockTemplate
        (cbReqSize feeScript.length input.size input.space 1)
        (spaceNeeded (sharedOutputs boardUtils reply)) ∧
      datumCoinbaserThread boardUtils (taggedConfig 9 0) (poolService boardHandler)
        (freshJob 312500000 []) = some s' ∧
      ∀ en : Bytes, en.length = 12 → ∃ tx,
        parseTx ((s'.coinbase 1).coinb1Bin ++ en ++ (s'.coinbase 1).coinb2Bin) = some tx ∧
        ¬ reply.map (RewardOutput.txOut boardUtils) ⊆ tx.outs := by
  have hreply := request_boardHandler
  have hfull := fullReply_boardReply
  obtain ⟨-, hrange⟩ := datumRequestCoinbaseOutputs_bounds hreply
  obtain ⟨input, script, hinput, hw, hgen, -⟩ := generateCoinbaseTxns_eq
    (s := (freshJob 312500000 []).withReply boardUtils boardReply)
    documented_boardUtils (fits_taggedConfig (by norm_num : 9 ≤ 64) (by norm_num : 0 ≤ 64))
    (show poolAddrScript boardUtils (taggedConfig 9 0) = some feeScript from
      addr2OutputScript_boardUtils poolFeeAddress)
    ⟨encodes_hexOf documented_boardUtils.hex2binUchar witnessScript, by decide⟩
  have hinput : generateCoinbaseInput boardUtils (taggedConfig 9 0) 900000 = some input := hinput
  have hspace := space_boardUtils hinput
  have hsize : input.size ≤ 85 := by simpa [CoinbaseInput.space] using hspace
  have hreq := (cbReqSize_bounds (show feeScript.length ≤ 64 by decide)
    (show input.size ≤ 100 by omega) input.space 1).2
  have hs' := datumCoinbaserThread_full (s := freshJob 312500000 []) hreply hfull hgen
  refine ⟨boardReply, input, _, hreply, hfull, hinput, by omega, hspace,
    leavesRoom_freshJob hreq (hfull.spaceNeeded_le hrange), hs', fun en hen => ?_⟩
  obtain ⟨h1, h2⟩ := coinb1Bin_eq (readsAs_typeDraft hw false 1)
  obtain ⟨i, hparse⟩ := parseTx_type hw (t := 1) (fun _ => hspace) hen
  rw [← h1, ← h2] at hparse
  refine ⟨_, hparse, fun hsub => ?_⟩
  -- 23 different outputs would all have to be among those written
  have hlong := (nodup_boardReply.subperm hsub).length_le
  have hbudget : 31 * ((typeOuts (((freshJob 312500000 []).withReply boardUtils boardReply).withPool
      (taggedConfig 9 0) feeScript) input script witnessScript en 1).length : ℤ) ≤ maxSize 1 + 124 :=
    length_typeOuts_le script witnessScript en length_script_boardReply
  have hreplies : (boardReply.map (RewardOutput.txOut boardUtils)).length = 23 := by decide
  have hmax : maxSize 1 = 500 := rfl
  rw [hreplies] at hlong
  rw [hmax] at hbudget
  simp only at hlong
  omega

end Gateway
