import Unlucky21.Gateway.Complete
import Unlucky21.Gateway.Exchange

/-!
# Blocks within the template's limits

A coinbase type has a budget for the outputs it selects, cut to what the template
leaves. What every coinbase needs is added up by hand and comes out 18 bytes
short with the usual commitment, the weight limit's answer replaces the size
limit's, and a miner's second half is not checked at all. The outputs may fill
the budget, so no template is safe that has no room for the largest coinbase
there can be; one that has it is.
-/

namespace Gateway

open Wire CText Greedy Half

/-- With a coinbase of `n` bytes the block respects the limits, counted as
`fitToTemplate` counts them. -/
structure InLimits (t : Template) (n : ℕ) : Prop where
  size : n + t.txnTotalSize.toNat + 85 + 36 ≤ t.sizelimit.toNat
  weight : n * 4 + t.txnTotalWeight.toNat + 340 + 36 ≤ t.weightlimit.toNat

theorem InLimits.mono {t : Template} {m n : ℕ} (h : InLimits t n) (hle : m ≤ n) : InLimits t m :=
  ⟨by have := h.size; omega, by have := h.weight; omega⟩

/-- The halves with the extranonce between them. -/
def joinedLength (coinb1 coinb2 : Bytes) : ℕ := coinb1.length + 12 + coinb2.length

/-- The coinbaser thread and the parser of a remote coinbaser both keep at most
512 outputs, with scripts of at most 64 bytes. -/
structure Available (outs : List Output) : Prop where
  count : outs.length ≤ 512
  script : ∀ o ∈ outs, o.outputScript.length ≤ 64

def StratumJob.withOutputs (s : StratumJob) (outs : List Output) : StratumJob :=
  { s with availableCoinbaseOutputs := outs }

variable {u : DatumUtils} {s : StratumJob} {input : CoinbaseInput} {script wit : Bytes}

/-! ## The budget, exactly -/

theorem leavesRoom_of_inLimits {t : Template} {n : ℕ} (h : InLimits t n) (fixedBytes : ℤ) :
    LeavesRoom t fixedBytes (n - fixedBytes) :=
  ⟨by have := h.size; omega, by have := h.weight; omega⟩

/-- A budget that is cut reaches up to a limit. -/
theorem not_inLimits_of_cut {t : Template} {n : ℕ} {maxSz fixedBytes : ℤ} (h : InLimits t n)
    (hfixed : 0 ≤ fixedBytes) (hn : fixedBytes ≤ n) (hmax : n ≤ maxSz) (hbig : maxSz < 2 ^ 31)
    (hcut : fitToTemplate maxSz fixedBytes t ≠ maxSz - fixedBytes) {m : ℕ}
    (hm : fixedBytes + fitToTemplate maxSz fixedBytes t < m) : ¬ InLimits t m := by
  have hroom := leavesRoom_of_inLimits h fixedBytes
  have hneeded : 0 ≤ n - fixedBytes := by omega
  have hmax0 : 0 ≤ maxSz := by omega
  obtain ⟨-, hfit⟩ := fitToTemplate_eq_min hroom hneeded hfixed (by omega) hbig
  rw [hfit] at hcut hm
  rcases le_total (limitRoom t maxSz fixedBytes) (maxSz - fixedBytes) with hle | hge
  · rw [min_eq_left hle] at hcut hm
    unfold limitRoom at hcut hm
    rintro ⟨hsize, hweight⟩
    cases hwt : weightRoom t (fixedBytes + maxSz) fixedBytes with
    | some r =>
        have hr := weightRoom_eq_some hroom hneeded hfixed hmax0 hbig hwt
        rw [hwt, Option.getD_some] at hm
        omega
    | none =>
        rw [hwt, Option.getD_none] at hcut hm
        cases hsz : sizeRoom t (fixedBytes + maxSz) fixedBytes with
        | some r =>
            have hr := sizeRoom_eq_some hroom hneeded hfixed hmax0 hbig hsz
            rw [hsz, Option.getD_some] at hm
            omega
        | none =>
            -- nothing is cut but by the type itself
            unfold limitRoom at hle
            rw [hwt, hsz, Option.getD_none, Option.getD_none] at hle
            rw [hsz, Option.getD_none] at hcut
            omega
  · exact absurd (min_eq_right hge) hcut

/-! ## Lengths -/

/-- The budget counts an output as it is written. -/
theorem length_halves_ser {sel : List (ℕ × Output)}
    (hsel : ∀ p ∈ sel, p.2.outputScript.length ≤ 64) (n : ℕ)
    (special : Bool) :
    ((serOuts (firstHalf n special sel)).length + (serOuts (secondHalf n special sel)).length : ℤ) =
      (sel.map fun p => p.2.cost).sum := by
  induction sel with
  | nil => rfl
  | cons p sel ih =>
      obtain ⟨hp, hrest⟩ := List.forall_mem_cons.mp hsel
      have hser : (p.2.txOut.ser.length : ℤ) = p.2.cost := by
        have hlt : p.2.txOut.script.length < 0xfd := by
          show p.2.outputScript.length < 0xfd
          omega
        rw [TxOut.ser_length_of_lt hlt]
        exact Nat.cast_add _ _
      rw [firstHalf_cons, secondHalf_cons, List.map_cons, List.sum_cons, ← ih hrest, ← hser]
      split
      · rw [serOuts_cons, List.length_append]
        push_cast
        ring
      · rw [serOuts_cons, List.length_append]
        push_cast
        ring

/-! ## Coinbases -/

/-- What a coinbase without outputs of the reply is long; the sum by hand leaves
out the signet commitment and some bytes more. -/
theorem joinedLength_emptied (hw : Writable u s input script wit) (t : Fin 6) :
    (joinedLength (typeCoinb1 s input script true t) (typeCoinb2 s input script wit true t) : ℤ) =
      cbReqSize s.poolAddrScript.length input.size input.space 0 + wit.length - 20 := by
  have hempty := length_emptyOuts hw
  have hsize := hw.size
  unfold joinedLength typeCoinb1 typeCoinb2 cbReqSize
  cases hspace : input.space with
  | true =>
      simp only [true_and, true_or, if_true, length_scriptHead hw.short, length_seqTail, hempty,
        compactSize_length_of_lt (show 3 < 0xfd by norm_num), Bool.not_true, Bool.false_or]
      rw [if_neg (by decide)]
      push_cast
      omega
  | false =>
      simp only [Bool.false_eq_true, false_and, if_false, if_true, length_outputHead hw.short,
        length_outTail, hempty, serOuts_nil, List.length_nil,
        compactSize_length_of_lt (show 4 < 0xfd by norm_num), Bool.not_false, Bool.true_or]
      push_cast
      omega

/-- The bytes of the output count. -/
def countLength (input : CoinbaseInput) (n : ℕ) (t : Fin 6) : ℕ :=
  (compactSize (n + if input.space ∧ t ≠ 2 then 3 else 4)).length

theorem short_of_mem_typeSelection (ha : Available s.availableCoinbaseOutputs)
    (input : CoinbaseInput) (t : Fin 6) :
    ∀ p ∈ typeSelection s input t, p.2.outputScript.length ≤ 64 := fun p hp =>
  ha.script p.2 ((take_sublist s.availableCoinbaseOutputs 0 _ 0).subset (List.mem_map_of_mem hp))

/-- A type that is written once. -/
theorem joinedLength_type (hw : Writable u s input script wit)
    (ha : Available s.availableCoinbaseOutputs) {t : Fin 6} (ht : t = 0 → input.space) :
    (joinedLength (typeCoinb1 s input script false t) (typeCoinb2 s input script wit false t) : ℤ) =
      cbReqSize s.poolAddrScript.length input.size input.space t + wit.length - 20 +
        ((typeSelection s input t).map fun p => p.2.cost).sum +
        (countLength input (typeSelection s input t).length t - 1) +
        ((lastOut s (wrapped (typeSelection s input t))).ser.length -
          (s.poolAddrScript.length + 9)) := by
  have hhalves := length_halves_ser (short_of_mem_typeSelection ha input t)
    (typeCount s input script t) (t = 2)
  have hrest := length_restOuts hw (typeSelection s input t)
  have hsize := hw.size
  unfold joinedLength countLength
  by_cases hspace : input.space ∧ t ≠ 2
  · have hfirst : firstHalf (typeCount s input script t) (t = 2) (typeSelection s input t) = [] :=
      typeFirst_of_ne hspace.2
    rw [hfirst] at hhalves
    have hspecial : decide (t = 2) = false := by simpa using hspace.2
    rw [hspecial] at hhalves
    simp only [serOuts_nil, List.length_nil] at hhalves
    simp only [typeCoinb1, typeCoinb2, cbReqSize, hspace.1, hspace.2, typeSecond, ne_eq,
      not_false_eq_true, or_true, if_true, Bool.false_eq_true, if_false, and_self,
      length_scriptHead hw.short, length_seqTail, serOuts_append, List.length_append, hrest,
      Bool.not_true, Bool.false_or, decide_false]
    push_cast
    omega
  · have ht0 : t ≠ 0 := by
      rintro rfl
      exact hspace ⟨ht rfl, by decide⟩
    have hten : (!input.space || decide (t = 2)) = true := by
      by_cases h2 : t = 2
      · simp [h2]
      · simpa [h2] using hspace
    simp only [typeCoinb1_output hspace ht0, typeCoinb2_output hspace ht0, cbReqSize, if_neg hspace,
      typeFirst, typeSecond, length_outputHead hw.short, length_outTail, serOuts_append,
      List.length_append, hrest, hten, if_true]
    push_cast
    omega

/-- The most a coinbase can come to: the largest budget, what the sum by hand
leaves out, two bytes for an output count above 252 and what a dead output has
over a tiny pool script. -/
def largestCoinbase (pool wit : Bytes) : ℕ := 16000 + (wit.length - 20) + 2 + (3 - pool.length)

theorem sum_cost_le (s : StratumJob) {remaining bound : ℤ} (hle : remaining ≤ bound)
    (h0 : 0 ≤ bound) : ((selection s remaining).map fun p => p.2.cost).sum ≤ bound := by
  rcases lt_or_ge remaining 0 with hneg | hpos
  · have hnil : selection s remaining = [] :=
      take_of_budget_neg _ _ (fun o _ => (by norm_num : (0 : ℤ) ≤ 9).trans (cost_nonneg o)) hneg
    rw [hnil]
    exact h0
  · have h : ((selection s remaining).map fun p => p.2.cost).sum ≤ remaining :=
      cost_take_le s.availableCoinbaseOutputs 0 remaining 0 hpos
    exact h.trans hle

theorem sum_cost_typeSelection_le (s : StratumJob) (input : CoinbaseInput) (t : Fin 6) :
    cbReqSize s.poolAddrScript.length input.size input.space t +
      ((typeSelection s input t).map fun p => p.2.cost).sum ≤
      max (maxSize t) (cbReqSize s.poolAddrScript.length input.size input.space t) := by
  have h := sum_cost_le s (fitToTemplate_le (maxSize t)
    (cbReqSize s.poolAddrScript.length input.size input.space t) s.blockTemplate) (le_max_right _ _)
  unfold typeSelection remainingSize
  omega

theorem cbReqSize_le_of_writable (hw : Writable u s input script wit) (t : Fin 6) :
    0 ≤ cbReqSize s.poolAddrScript.length input.size input.space t ∧
      cbReqSize s.poolAddrScript.length input.size input.space t ≤ 400 := by
  have hpool := hw.pool
  have hsize := hw.size
  have hshort := hw.short
  unfold cbReqSize
  split <;> constructor <;> omega

/-- The largest coinbase of a type that is written once. -/
theorem joinedLength_type_le (hw : Writable u s input script wit) (hlen : 38 ≤ wit.length)
    (ha : Available s.availableCoinbaseOutputs) {t : Fin 6} (ht : t = 0 → input.space) :
    joinedLength (typeCoinb1 s input script false t) (typeCoinb2 s input script wit false t) ≤
      largestCoinbase s.poolAddrScript wit := by
  have hjoined := joinedLength_type hw ha ht
  have hsum := sum_cost_typeSelection_le s input t
  have hlast := length_lastOut_le hw.pool (wrapped (typeSelection s input t))
  have hsel := length_typeSelection_le s input t
  have h16 := maxSize_le t
  have hcount : countLength input (typeSelection s input t).length t ≤ 3 :=
    compactSize_length_le_three (by split <;> omega)
  have hreq := (cbReqSize_le_of_writable hw t).2
  unfold largestCoinbase
  omega

/-- Type 0 written twice is small. -/
theorem joinedLength_doubled_le (hw : Writable u s input script wit) (hspace : input.space = false)
    (ha : Available s.availableCoinbaseOutputs) :
    joinedLength (typeCoinb1 s input script false 0) (typeCoinb2 s input script wit false 0) ≤
      largestCoinbase s.poolAddrScript wit := by
  have hhalves := length_halves_ser (short_of_mem_typeSelection ha input 0)
    (typeCount s input script 0) ((0 : Fin 6) = 2)
  have hsum : ((typeSelection s input 0).map fun p => p.2.cost).sum ≤ maxSize 0 :=
    sum_cost_le s (remainingSize_le s input input.space 0) (by decide)
  have h500 : maxSize 0 = 500 := rfl
  have hrest := length_restOuts hw (typeSelection s input 0)
  have hlast := length_lastOut_le hw.pool (wrapped (typeSelection s input 0))
  have hempty := length_emptyOuts hw
  have hsel := length_typeSelection_le s input 0
  have hcount : (compactSize ((typeSelection s input 0).length + 4)).length ≤ 3 :=
    compactSize_length_le_three (by omega)
  have hpool := hw.pool
  have hshort := hw.short
  have hwit := hw.commits.short
  rw [joinedLength, typeCoinb1_doubled hspace, typeCoinb2_doubled hspace]
  simp only [doubledHead, typeSecond, List.length_append, length_outputHead hshort,
    length_extranonceHead, length_outTail, serOuts_append, serOuts_nil, List.length_nil, hempty,
    hrest, compactSize_length_of_lt (show 4 < 0xfd by norm_num)]
  unfold largestCoinbase
  omega

theorem joinedLength_emptied_le (hw : Writable u s input script wit) (t : Fin 6) :
    joinedLength (typeCoinb1 s input script true t) (typeCoinb2 s input script wit true t) ≤
      largestCoinbase s.poolAddrScript wit := by
  have hjoined := joinedLength_emptied hw t
  have hreq := (cbReqSize_le_of_writable hw 0).2
  unfold largestCoinbase
  omega

/-- **No shared coinbase is larger.** -/
theorem joinedLength_le (hw : Writable u s input script wit) (hlen : 38 ≤ wit.length)
    (ha : Available s.availableCoinbaseOutputs) (emptyOnly : Bool) (t : Fin 6) :
    joinedLength (typeCoinb1 s input script emptyOnly t) (typeCoinb2 s input script wit emptyOnly t) ≤
      largestCoinbase s.poolAddrScript wit := by
  cases emptyOnly with
  | true => exact joinedLength_emptied_le hw t
  | false =>
      by_cases ht : t = 0 → input.space
      · exact joinedLength_type_le hw hlen ha ht
      · obtain ⟨rfl, hspace⟩ := Classical.not_imp.mp ht
        exact joinedLength_doubled_le hw (by simpa using hspace) ha

/-! ## A miner's coinbase -/

theorem length_typeFirst_le (ha : Available s.availableCoinbaseOutputs) (input : CoinbaseInput)
    (script : Bytes) (t : Fin 6) : (serOuts (typeFirst s input script t)).length ≤ 755 := by
  by_cases h2 : t = 2
  · subst h2
    have hhalves := length_halves_ser (short_of_mem_typeSelection ha input 2)
      (typeCount s input script 2) ((2 : Fin 6) = 2)
    have hsum : ((typeSelection s input 2).map fun p => p.2.cost).sum ≤ maxSize 2 :=
      sum_cost_le s (remainingSize_le s input input.space 2) (by decide)
    have h755 : maxSize 2 = 755 := rfl
    unfold typeFirst
    omega
  · rw [typeFirst_of_ne h2]
    exact Nat.zero_le _

theorem length_typeCoinb1_le (hw : Writable u s input script wit)
    (ha : Available s.availableCoinbaseOutputs) (emptyOnly : Bool) (t : Fin 6) :
    (typeCoinb1 s input script emptyOnly t).length ≤ 1100 := by
  have hshort := hw.short
  have hfirst := length_typeFirst_le ha input script t
  have hsel := length_typeSelection_le s input t
  have h16 := maxSize_le t
  have hcount : (compactSize ((typeSelection s input t).length + 4)).length ≤ 3 :=
    compactSize_length_le_three (by omega)
  unfold typeCoinb1
  split_ifs
  · rw [length_scriptHead hshort]
    omega
  · rw [length_outputHead hshort, compactSize_length_of_lt (by norm_num), serOuts_nil,
      List.length_nil]
    omega
  · simp only [doubledHead, List.length_append, length_outputHead hshort, length_extranonceHead,
      serOuts_nil, List.length_nil, compactSize_length_of_lt (show 4 < 0xfd by norm_num)]
    omega
  · rw [length_outputHead hshort]
    omega

theorem length_personalTail (hw : Writable u s input script wit) {outs : List Output}
    (hlen : outs.length ≤ REWARD_MAX_OUTPUTS) :
    (personalTail s outs wit).length = (serOuts (outs.map Output.txOut)).length +
      (lastOut s (totalSats outs).toNat).ser.length + wit.length + 28 +
        if s.enInCb then 5 else 0 := by
  have houts := length_serOuts_personalOuts hw outs
  unfold REWARD_MAX_OUTPUTS at hlen
  unfold personalTail
  split
  · rw [length_seqTail, houts, compactSize_length_of_lt (by omega)]
    omega
  · rw [length_outTail, houts]
    omega

theorem joinedLength_personal_le (hw : Writable u s input script wit) (hlen : 38 ≤ wit.length)
    (ha : Available s.availableCoinbaseOutputs) (emptyOnly : Bool) (t : Fin 6) {outs : List Output}
    (houts : outs.length ≤ REWARD_MAX_OUTPUTS) (hs : ∀ o ∈ outs, o.outputScript.length ≤ 64)
    {s' : StratumJob} (hw' : Writable u s' input script wit) :
    joinedLength (typeCoinb1 s input script emptyOnly t) (personalTail s' outs wit) ≤
      largestCoinbase s.poolAddrScript wit := by
  have hfirst := length_typeCoinb1_le hw ha emptyOnly t
  have htail := length_personalTail hw' houts
  have hlast := length_lastOut_le hw'.pool (totalSats outs).toNat
  have hpool := hw'.pool
  have hwit := hw.commits.short
  have hser := length_serOuts_map_txOut_le hs
  unfold REWARD_MAX_OUTPUTS at houts
  unfold joinedLength largestCoinbase
  split at htail <;> omega

/-! ## Outputs that fill a budget -/

/-- Outputs that cost `room` together, all but the last one `unit` each, and at
least 34 left for that. -/
def fillerBy (unit room : ℕ) (last : UInt64) : List Output :=
  List.replicate ((room - 34) / unit) ⟨0, List.replicate (unit - 9) 0⟩ ++
    [⟨last, List.replicate (room - unit * ((room - 34) / unit) - 9) 0⟩]

/-- Outputs that cost `room` together, at most 73 bytes each and 30 left in front
of the last one. -/
def filler (room : ℕ) (last : UInt64) : List Output := fillerBy 40 room last

section

variable {unit room : ℕ}

theorem length_fillerBy (unit room : ℕ) (last : UInt64) :
    (fillerBy unit room last).length = (room - 34) / unit + 1 := by
  simp [fillerBy]

/-- What is left for the last output. -/
theorem fillerBy_left (h0 : 0 < unit) (room : ℕ) :
    34 ≤ room → 34 + unit * ((room - 34) / unit) ≤ room ∧
      room < 34 + unit + unit * ((room - 34) / unit) := by
  intro h34
  have hsplit := Nat.div_add_mod (room - 34) unit
  have hlt := Nat.mod_lt (room - 34) h0
  omega

/-- Below 34 bytes the last output is alone. -/
theorem fillerBy_alone (h34 : room < 34) (unit : ℕ) : (room - 34) / unit = 0 := by
  rw [Nat.sub_eq_zero_of_le h34.le, Nat.zero_div]

theorem available_fillerBy (h9 : 9 ≤ unit) (h40 : unit ≤ 40)
    (hcount : (room - 34) / unit + 1 ≤ 512) (last : UInt64) : Available (fillerBy unit room last) where
  count := by
    rw [length_fillerBy]
    exact hcount
  script := by
    intro o ho
    rcases List.mem_append.mp ho with ho | ho
    · rw [List.eq_of_mem_replicate ho, List.length_replicate]
      omega
    · rw [List.mem_singleton.mp ho, List.length_replicate]
      rcases lt_or_ge room 34 with hlow | hhigh
      · omega
      · have := fillerBy_left (show 0 < unit by omega) room hhigh
        omega

theorem dropLast_fillerBy (unit room : ℕ) (last : UInt64) :
    (fillerBy unit room last).dropLast =
      List.replicate ((room - 34) / unit) ⟨0, List.replicate (unit - 9) 0⟩ := by
  rw [fillerBy, List.dropLast_concat]

theorem cost_fillerBy (h9 : 9 ≤ unit) (hroom : 9 ≤ room) (last : UInt64) :
    ((fillerBy unit room last).map Output.cost).sum = room := by
  have hunit : ((unit - 9 : ℕ) : ℤ) + 9 = unit := by omega
  have hmul : ((room - 34) / unit : ℕ) * (unit : ℤ) = (unit * ((room - 34) / unit) : ℕ) := by
    rw [Nat.cast_mul, mul_comm]
  have hleft : unit * ((room - 34) / unit) + 9 ≤ room := by
    rcases lt_or_ge room 34 with hlow | hhigh
    · rw [fillerBy_alone hlow]
      omega
    · have := fillerBy_left (show 0 < unit by omega) room hhigh
      omega
  simp only [fillerBy, List.map_append, List.map_replicate, List.sum_append, List.sum_replicate,
    List.map_cons, List.map_nil, List.sum_singleton, Output.cost, List.length_replicate, nsmul_eq_mul,
    hunit, hmul]
  omega

theorem value_fillerBy (unit room : ℕ) (last : UInt64) :
    ((fillerBy unit room last).map Output.value).sum = last.toNat := by
  simp [fillerBy, Output.value]

theorem selection_fillerBy (h9 : 9 ≤ unit) {last : UInt64}
    (hs : s.availableCoinbaseOutputs = fillerBy unit room last) (hroom : 9 ≤ room)
    (hcv : 0 < s.coinbaseValue.toNat) (hlast : last.toNat ≤ s.coinbaseValue.toNat) :
    (selection s room).map Prod.snd = fillerBy unit room last := by
  unfold selection selectFrom
  rw [hs]
  refine take_all_of_room s.coinbaseValue.toNat_lt _ 0 _ _
    (fun o _ => (by norm_num : (0 : ℤ) ≤ 9).trans (cost_nonneg o)) (cost_fillerBy h9 hroom last).le
    (by rw [value_fillerBy]; simpa using hlast) ?_
  rw [dropLast_fillerBy]
  rcases lt_or_ge room 34 with hlow | hhigh
  · rw [fillerBy_alone hlow]
    exact Or.inl rfl
  · right
    have hleft := fillerBy_left (show 0 < unit by omega) room hhigh
    have hunit : ((unit - 9 : ℕ) : ℤ) + 9 = unit := by omega
    have hmul : ((room - 34) / unit : ℕ) * (unit : ℤ) = (unit * ((room - 34) / unit) : ℕ) := by
      rw [Nat.cast_mul, mul_comm]
    simp only [List.map_replicate, List.sum_replicate, Output.cost, Output.value,
      List.length_replicate, nsmul_eq_mul, hunit, hmul]
    constructor
    · omega
    · simpa using hcv

end

theorem available_filler {room : ℕ} (hroom : room ≤ 16000) (last : UInt64) :
    Available (filler room last) :=
  available_fillerBy (by norm_num) le_rfl (by omega) last

/-- The last value decides whether the pool is paid: a dead output is longer than
one with a tiny script. -/
def fillerLast (s : StratumJob) : UInt64 := if s.poolAddrScript.length < 3 then s.coinbaseValue else 0

theorem fillerLast_le (s : StratumJob) : (fillerLast s).toNat ≤ s.coinbaseValue.toNat := by
  unfold fillerLast
  split
  · exact le_rfl
  · exact Nat.zero_le _

theorem length_lastOut_fillerLast (hpool : s.poolAddrScript.length ≤ 64)
    (hcv : 0 < s.coinbaseValue.toNat) : (lastOut s (fillerLast s).toNat).ser.length =
      s.poolAddrScript.length + 9 + (3 - s.poolAddrScript.length) := by
  rw [length_lastOut hpool]
  unfold fillerLast
  split
  next h =>
    rw [if_neg (lt_irrefl _)]
    omega
  next h =>
    have hzero : (0 : UInt64).toNat < s.coinbaseValue.toNat := hcv
    rw [if_pos hzero]
    omega

/-- A type filled up. -/
theorem joinedLength_fillerBy (hw : Writable u s input script wit)
    (hcv : 0 < s.coinbaseValue.toNat) {t : Fin 6} (ht : t ≠ 0) {unit room : ℕ} (h9 : 9 ≤ unit)
    (h40 : unit ≤ 40) (hcount : (room - 34) / unit + 1 ≤ 512)
    (hs : s.availableCoinbaseOutputs = fillerBy unit room (fillerLast s))
    (hroom : remainingSize s input input.space t = room) (h9' : 9 ≤ room) :
    (joinedLength (typeCoinb1 s input script false t) (typeCoinb2 s input script wit false t) : ℤ) =
      cbReqSize s.poolAddrScript.length input.size input.space t + wit.length - 20 + room +
        (countLength input ((room - 34) / unit + 1) t - 1) + (3 - s.poolAddrScript.length : ℕ) := by
  have ha : Available s.availableCoinbaseOutputs := hs ▸ available_fillerBy h9 h40 hcount _
  have hall : (typeSelection s input t).map Prod.snd = fillerBy unit room (fillerLast s) := by
    rw [typeSelection, hroom]
    exact selection_fillerBy h9 hs h9' hcv (fillerLast_le s)
  have hlen : (typeSelection s input t).length = (room - 34) / unit + 1 := by
    rw [← length_fillerBy unit room (fillerLast s), ← hall, List.length_map]
  have hcost : ((typeSelection s input t).map fun p => p.2.cost).sum = room := by
    rw [← cost_fillerBy h9 h9' (fillerLast s), ← hall, List.map_map]
    rfl
  have htotal : wrapped (typeSelection s input t) = (fillerLast s).toNat := by
    have hvalue : taken Output.value (typeSelection s input t) = (fillerLast s).toNat := by
      rw [← value_fillerBy unit room (fillerLast s), ← hall, List.map_map]
      rfl
    rw [wrapped, hvalue]
    exact Nat.mod_eq_of_lt (fillerLast s).toNat_lt
  have hlast := length_lastOut_fillerLast hw.pool hcv
  rw [joinedLength_type hw ha fun h => absurd h ht, hlen, hcost, htotal, hlast]
  push_cast
  ring

/-- Type 4 filled up. -/
theorem joinedLength_filler (hw : Writable u s input script wit) (hcv : 0 < s.coinbaseValue.toNat)
    {room : ℕ} (hs : s.availableCoinbaseOutputs = filler room (fillerLast s))
    (hroom : remainingSize s input input.space 4 = room) (h9 : 9 ≤ room) :
    (joinedLength (typeCoinb1 s input script false 4) (typeCoinb2 s input script wit false 4) : ℤ) =
      cbReqSize s.poolAddrScript.length input.size input.space 4 + wit.length - 20 + room +
        (countLength input ((room - 34) / 40 + 1) 4 - 1) + (3 - s.poolAddrScript.length : ℕ) := by
  have h16 : room ≤ 16000 := by
    have hmax := remainingSize_le s input input.space 4
    have h4 : maxSize 4 = 16000 := rfl
    omega
  exact joinedLength_fillerBy hw hcv (by decide) (by norm_num) le_rfl (by omega) hs hroom h9

/-- A template with room for the empty coinbase has room for an output. -/
theorem le_remainingSize (hw : Writable u s input script wit) (hlen : 38 ≤ wit.length) {n : ℕ}
    (hn : InLimits s.blockTemplate n)
    (hempty : (n : ℤ) = cbReqSize s.poolAddrScript.length input.size input.space 4 + wit.length - 20) :
    18 ≤ remainingSize s input input.space 4 := by
  have hreq := cbReqSize_le_of_writable hw 4
  have hwit := hw.commits.short
  have h16 : maxSize 4 = 16000 := rfl
  have hle : n - cbReqSize s.poolAddrScript.length input.size input.space 4 ≤
      remainingSize s input input.space 4 :=
    le_fitToTemplate (leavesRoom_of_inLimits hn _) (by omega) hreq.1 (by omega)
      (show maxSize 4 < 2 ^ 31 by decide)
  omega

/-- **Filled up, type 4 is as large as a coinbase can be, or beyond a limit.** -/
theorem inLimits_largest_of_filler (hw : Writable u s input script wit) (hlen : 38 ≤ wit.length)
    (hcv : 0 < s.coinbaseValue.toNat) {room : ℕ}
    (hs : s.availableCoinbaseOutputs = filler room (fillerLast s))
    (hroom : remainingSize s input input.space 4 = room) (h9 : 9 ≤ room) {n : ℕ}
    (hn : InLimits s.blockTemplate n)
    (hempty : (n : ℤ) = cbReqSize s.poolAddrScript.length input.size input.space 4 + wit.length - 20)
    (hserved : InLimits s.blockTemplate
      (joinedLength (typeCoinb1 s input script false 4) (typeCoinb2 s input script wit false 4))) :
    InLimits s.blockTemplate (largestCoinbase s.poolAddrScript wit) := by
  have hjoined := joinedLength_filler hw hcv hs hroom h9
  have hwit := hw.commits.short
  have h16 : maxSize 4 = 16000 := rfl
  have hreq := cbReqSize_le_of_writable hw 4
  by_cases hcut : remainingSize s input input.space 4 =
      maxSize 4 - cbReqSize s.poolAddrScript.length input.size input.space 4
  · -- the whole budget of the type: more than 252 outputs
    have hcount : countLength input ((room - 34) / 40 + 1) 4 = 3 := by
      refine compactSize_length_of_ge ?_ ?_
      · split <;> omega
      · split <;> omega
    rw [hcount] at hjoined
    have heq : joinedLength (typeCoinb1 s input script false 4)
        (typeCoinb2 s input script wit false 4) = largestCoinbase s.poolAddrScript wit := by
      unfold largestCoinbase
      omega
    exact heq ▸ hserved
  · have hcount : 1 ≤ countLength input ((room - 34) / 40 + 1) 4 := compactSize_length_pos _
    refine absurd hserved (not_inLimits_of_cut hn hreq.1 (by omega) (by omega)
      (show maxSize 4 < 2 ^ 31 by decide) hcut ?_)
    have hfit : fitToTemplate (maxSize 4)
        (cbReqSize s.poolAddrScript.length input.size input.space 4) s.blockTemplate = room := hroom
    rw [hfit]
    omega

/-! ## Jobs -/

variable {cfg : Config}

/-- Whatever outputs a job gets and whatever a miner is answered, the block is
within the limits. -/
def ServedInLimits (u : DatumUtils) (cfg : Config) (s : StratumJob) : Prop :=
  ∀ outs, Available outs → ∀ emptyOnly, ∃ s',
    generateCoinbaseTxns u cfg (s.withOutputs outs) emptyOnly = some s' ∧
      ∀ t, InLimits s.blockTemplate
          (joinedLength (s'.coinbase t).coinb1Bin (s'.coinbase t).coinb2Bin) ∧
        ∀ (service : Text → ℤ → Option Text) (btcAddr buf : Text) (p : PersonalCoinb2),
          generatePersonalCoinb2 u service s' btcAddr buf = some p →
            InLimits s.blockTemplate (joinedLength (s'.coinbase t).coinb1Bin p.coinb2Bin)

theorem coinbase_withCoinbases (hw : Writable u s input script wit) (emptyOnly : Bool) (t : Fin 6) :
    ((s.withCoinbases u input emptyOnly).coinbase t).coinb1Bin = typeCoinb1 s input script emptyOnly t ∧
      ((s.withCoinbases u input emptyOnly).coinbase t).coinb2Bin =
        typeCoinb2 s input script wit emptyOnly t :=
  coinb1Bin_eq (readsAs_typeDraft hw emptyOnly t)

/-- Room for the largest coinbase is enough. -/
theorem servedInLimits_of_largest (hu : u.Documented) (hcfg : cfg.Fits) {pool : Bytes}
    (hpool : poolAddrScript u cfg = some pool)
    (hwit : Commits u s.blockTemplate.defaultWitnessCommitment wit) (hlen : 38 ≤ wit.length)
    (h : InLimits s.blockTemplate (largestCoinbase pool wit)) : ServedInLimits u cfg s := by
  intro outs ha emptyOnly
  obtain ⟨input, script, -, hw, hgen, -⟩ := generateCoinbaseTxns_eq
    (s := s.withOutputs outs) hu hcfg hpool hwit
  refine ⟨_, hgen emptyOnly, fun t => ?_⟩
  obtain ⟨h1, h2⟩ := coinbase_withCoinbases hw (emptyOnly || outs.isEmpty) t
  constructor
  · refine h.mono ?_
    rw [show (StratumJob.withOutputs s outs).availableCoinbaseOutputs = outs from rfl, h1, h2]
    exact joinedLength_le hw hlen ha _ t
  · intro service btcAddr buf p hp
    have hw' : Writable u (((s.withOutputs outs).withPool cfg pool).withCoinbases u input
        (emptyOnly || outs.isEmpty)) input script wit :=
      ⟨hw.documented, hw.pool, hw.commits, hw.cb, hw.size, hw.short⟩
    obtain ⟨reply, -, -, -, rfl⟩ := generatePersonalCoinb2_eq_some hp
    have hs : ∀ o ∈ personalOutputs u reply, o.outputScript.length ≤ 64 :=
      fun o ho => script_le_of_mem_personalOutputs hu ho
    have hcount := length_personalOutputs_le (u := u) reply
    refine h.mono ?_
    rw [show (StratumJob.withOutputs s outs).availableCoinbaseOutputs = outs from rfl, h1]
    have hp2 := coinb2Bin_personalCoinb2 hw' hs hcount buf
    exact hp2 ▸ joinedLength_personal_le hw hlen ha _ t hcount hs hw'

/-- And it is needed. -/
theorem largest_of_servedInLimits (hu : u.Documented) (hcfg : cfg.Fits) {pool : Bytes}
    (hpool : poolAddrScript u cfg = some pool)
    (hwit : Commits u s.blockTemplate.defaultWitnessCommitment wit) (hlen : 38 ≤ wit.length)
    (hcv : 0 < s.coinbaseValue.toNat) {sEmpty : StratumJob}
    (hempty : generateCoinbaseTxns u cfg s true = some sEmpty)
    (hlimits : InLimits s.blockTemplate
      (joinedLength (sEmpty.coinbase 0).coinb1Bin (sEmpty.coinbase 0).coinb2Bin))
    (h : ServedInLimits u cfg s) : InLimits s.blockTemplate (largestCoinbase pool wit) := by
  obtain ⟨input, script, hinput, hw, hgen, -⟩ := generateCoinbaseTxns_eq hu hcfg hpool hwit
  obtain rfl := Option.some.inj ((hgen true).symm.trans hempty)
  obtain ⟨h1, h2⟩ := coinbase_withCoinbases hw true 0
  rw [Bool.true_or, h1, h2] at hlimits
  have hn := joinedLength_emptied hw 0
  -- types 0 and 4 need the same
  have hreq : cbReqSize (s.withPool cfg pool).poolAddrScript.length input.size input.space 0 =
      cbReqSize (s.withPool cfg pool).poolAddrScript.length input.size input.space 4 := rfl
  rw [hreq] at hn
  have hle := le_remainingSize hw hlen hlimits hn
  have h16 : maxSize 4 = 16000 := rfl
  have hmax := remainingSize_le (s.withPool cfg pool) input input.space 4
  obtain ⟨room, hroom⟩ := Int.eq_ofNat_of_zero_le (show 0 ≤ remainingSize (s.withPool cfg pool) input
    input.space 4 by omega)
  set outs := filler room (fillerLast (s.withPool cfg pool)) with houts
  obtain ⟨s', hs', hall⟩ := h outs (available_filler (by omega) _) false
  obtain ⟨input', script', hinput', hw', hgen', -⟩ := generateCoinbaseTxns_eq
    (s := s.withOutputs outs) hu hcfg hpool hwit
  obtain rfl := Option.some.inj (hinput.symm.trans hinput')
  have hne : (s.withOutputs outs).availableCoinbaseOutputs.isEmpty = false := by
    simp [StratumJob.withOutputs, houts, filler, fillerBy]
  have hfull := hgen' false
  rw [hne] at hfull
  obtain rfl := Option.some.inj (hfull.symm.trans hs')
  obtain ⟨h3, h4⟩ := coinbase_withCoinbases hw' false 4
  have hserved := (hall 4).1
  rw [Bool.or_false, h3, h4] at hserved
  exact inLimits_largest_of_filler hw' hlen hcv rfl hroom (by omega) hlimits hn hserved

theorem size_short {input : CoinbaseInput}
    (h : generateCoinbaseInput poolUtils (taggedConfig 9 0) 900000 = some input) : input.size = 19 := by
  have hmap : (generateCoinbaseInput poolUtils (taggedConfig 9 0) 900000).map
      CoinbaseInput.size = some 19 := by decide
  rw [h] at hmap
  exact Option.some.inj hmap

/-- The empty coinbase of a job at this height. -/
theorem joinedLength_empty_shortTag {s : StratumJob} (hheight : s.height = 900000)
    (hwit : Commits poolUtils s.blockTemplate.defaultWitnessCommitment witnessScript) :
    ∃ sEmpty, generateCoinbaseTxns poolUtils (taggedConfig 9 0) s true = some sEmpty ∧
      joinedLength (sEmpty.coinbase 0).coinb1Bin (sEmpty.coinbase 0).coinb2Bin = 181 := by
  obtain ⟨input, script, hinput, hw, hgen, -⟩ := generateCoinbaseTxns_eq (s := s)
    documented_poolUtils (fits_taggedConfig (by norm_num) (by norm_num))
    (poolAddrScript_taggedConfig 9 0) hwit
  rw [hheight] at hinput
  obtain ⟨h1, h2⟩ := coinbase_withCoinbases hw true 0
  have hn := joinedLength_emptied hw 0
  have h181 : cbReqSize feeScript.length 19 true 0 + witnessScript.length - 20 = (181 : ℕ) := by decide
  rw [space_short hinput, size_short hinput] at hn
  refine ⟨_, hgen true, ?_⟩
  rw [Bool.true_or, h1, h2]
  exact Nat.cast_injective (hn.trans h181)

/-- **When every block is within the limits.** If the block is with the empty
coinbase, it is with every coinbase exactly if the limits have room for the
largest one: 16020 bytes with the usual commitment. -/
theorem served_in_limits_iff (hu : u.Documented) (hcfg : cfg.Fits) {pool : Bytes}
    (hpool : poolAddrScript u cfg = some pool)
    (hwit : Commits u s.blockTemplate.defaultWitnessCommitment wit) (hlen : 38 ≤ wit.length)
    (hcv : 0 < s.coinbaseValue.toNat) {sEmpty : StratumJob}
    (hempty : generateCoinbaseTxns u cfg s true = some sEmpty)
    (hlimits : InLimits s.blockTemplate
      (joinedLength (sEmpty.coinbase 0).coinb1Bin (sEmpty.coinbase 0).coinb2Bin)) :
    ServedInLimits u cfg s ↔ InLimits s.blockTemplate (largestCoinbase pool wit) :=
  ⟨largest_of_servedInLimits hu hcfg hpool hwit hlen hcv hempty hlimits,
    servedInLimits_of_largest hu hcfg hpool hwit hlen⟩

theorem served_in_limits_freshJob : ServedInLimits poolUtils (taggedConfig 9 0) (freshJob 312500000 []) := by
  obtain ⟨sEmpty, hempty, hlength⟩ := joinedLength_empty_shortTag
    (s := freshJob 312500000 []) rfl (commits_freshJob 312500000 [])
  refine (served_in_limits_iff documented_poolUtils (fits_taggedConfig (by norm_num) (by norm_num))
    (poolAddrScript_taggedConfig 9 0) (commits_freshJob 312500000 []) (by decide) (by decide) hempty
    ?_).mpr ⟨by decide, by decide⟩
  rw [hlength]
  exact ⟨by decide, by decide⟩

/-- The weight left is that of a coinbase of 194 bytes; the budget, counted from
163, leaves 31 for an output of 31. -/
def fullJob : StratumJob :=
  { freshJob 312500000 [⟨6562500, minerScript⟩] with
    blockTemplate := {
      txnTotalSize := 1600000
      txnTotalWeight := 3998848
      sizelimit := 4000000
      weightlimit := 4000000
      defaultWitnessCommitment := hexOf witnessScript } }

/-- The empty coinbase is within the limits; type 1 with one miner and the
miner's own coinbase are not. -/
theorem full_block_exceeds :
    (∃ sEmpty, generateCoinbaseTxns poolUtils (taggedConfig 9 0) fullJob true = some sEmpty ∧
      InLimits fullJob.blockTemplate
        (joinedLength (sEmpty.coinbase 0).coinb1Bin (sEmpty.coinbase 0).coinb2Bin)) ∧
    ∃ s' p, generateCoinbaseTxns poolUtils (taggedConfig 9 0) fullJob false = some s' ∧
      ¬ InLimits fullJob.blockTemplate
        (joinedLength (s'.coinbase 1).coinb1Bin (s'.coinbase 1).coinb2Bin) ∧
      generatePersonalCoinb2 poolUtils plainService s' minerAddress [] = some p ∧
      ¬ InLimits fullJob.blockTemplate
        (joinedLength (s'.coinbase 1).coinb1Bin p.coinb2Bin) := by
  constructor
  · obtain ⟨sEmpty, hempty, hlength⟩ := joinedLength_empty_shortTag (s := fullJob) rfl
      (commits_freshJob 0 [])
    refine ⟨sEmpty, hempty, ?_⟩
    rw [hlength]
    exact ⟨by decide, by decide⟩
  · obtain ⟨input, script, hinput, hw, hgen, -⟩ := generateCoinbaseTxns_eq (s := fullJob)
      documented_poolUtils (fits_taggedConfig (by norm_num) (by norm_num))
      (poolAddrScript_taggedConfig 9 0) (commits_freshJob 0 [])
    have hinput' : generateCoinbaseInput poolUtils (taggedConfig 9 0) 900000 = some input := hinput
    have hspace := space_short hinput'
    have hsize := size_short hinput'
    have ha : Available (fullJob.withPool (taggedConfig 9 0) feeScript).availableCoinbaseOutputs :=
      ⟨by decide, by decide⟩
    have hs' : generateCoinbaseTxns poolUtils (taggedConfig 9 0) fullJob false =
        some ((fullJob.withPool (taggedConfig 9 0) feeScript).withCoinbases poolUtils input false) :=
      hgen false
    have hp := generatePersonalCoinb2_plainService (coinbaseValue_generateCoinbaseTxns hs') []
    obtain ⟨h1, h2⟩ := coinbase_withCoinbases hw false 1
    have hsel : typeSelection (fullJob.withPool (taggedConfig 9 0) feeScript) input 1 =
        [(0, ⟨6562500, minerScript⟩)] := by
      unfold typeSelection remainingSize
      rw [hspace, hsize]
      decide
    -- what the template leaves is 776 weight units for the coinbase without its witness
    have hover : ∀ n : ℕ, 194 < n → ¬ InLimits fullJob.blockTemplate n := by
      rintro n hn ⟨-, hweight⟩
      have hgiven : n * 4 + 3998848 + 340 + 36 ≤ 4000000 := hweight
      omega
    refine ⟨_, _, hs', hover _ ?_, hp, hover _ ?_⟩
    · have hn := joinedLength_type hw ha (t := 1) fun h => absurd h (by decide)
      rw [hsel, countLength, hspace, hsize] at hn
      have hlength : (joinedLength _ _ : ℤ) = 212 := hn.trans (by decide)
      rw [h1, h2]
      omega
    · -- the personal half joins the same first half
      have hw' : Writable poolUtils ((fullJob.withPool (taggedConfig 9 0) feeScript).withCoinbases
          poolUtils input false) input script witnessScript :=
        ⟨hw.documented, hw.pool, hw.commits, hw.cb, hw.size, hw.short⟩
      have hcount : twoOutputs.length ≤ REWARD_MAX_OUTPUTS := by decide
      have hp2 := coinb2Bin_personalCoinb2 hw' (by decide) hcount []
      have htail := length_personalTail hw' hcount
      have hserved : (serOuts (twoOutputs.map Output.txOut)).length = 65 := by decide
      have hwitness : witnessScript.length = 38 := rfl
      have hfirst : (typeCoinb1 (fullJob.withPool (taggedConfig 9 0) feeScript) input script false
          1).length = 64 := by
        rw [typeCoinb1, if_pos ⟨hspace, Or.inr (by decide)⟩, length_scriptHead hw.short, hw.size, hsize]
      rw [h1, hp2, joinedLength, hfirst, htail, hserved, hwitness]
      omega

end Gateway
