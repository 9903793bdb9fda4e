import Unlucky21.Gateway.Limits

/-!
# The size of a coinbase type

Each type is made for mining firmware that takes no larger coinbase, and the
budget of the outputs is that size less what every coinbase needs. The sum by
hand leaves out the signet commitment and some bytes more, counts one byte for
the number of outputs and takes the pool's output for the shortest. A reply that
fills the budget overruns the type by as much, unless the template has cut the
budget by more.
-/

namespace Gateway

open Wire CText Greedy Half

variable {u : DatumUtils} {cfg : Config} {s : StratumJob} {input : CoinbaseInput}
  {script pool wit : Bytes}

/-- A type as it is written when there are no outputs to pay. -/
def payoutFree (u : DatumUtils) (cfg : Config) (s : StratumJob) (t : Fin 6) : Option Coinbase := do
  let pool ← poolAddrScript u cfg
  let input ← generateCoinbaseInput u cfg s.height
  some ((typeDraft u ((s.withOutputs []).withPool cfg pool) input input.space false t).coinbase u)

/-- Whatever outputs a job gets, the type is at most as large as it may be, if it
is without outputs. -/
def RespectsCeiling (u : DatumUtils) (cfg : Config) (s : StratumJob) (t : Fin 6) : Prop :=
  ∀ outs, Available outs → ∃ s' free,
    generateCoinbaseTxns u cfg (s.withOutputs outs) false = some s' ∧
      payoutFree u cfg s t = some free ∧
      ((joinedLength free.coinb1Bin free.coinb2Bin : ℤ) ≤ maxSize t →
        (joinedLength (s'.coinbase t).coinb1Bin (s'.coinbase t).coinb2Bin : ℤ) ≤ maxSize t)

/-- What the sum by hand may leave out: 18 bytes, two more for a number of outputs
above 252, for which only types 3 and 4 are large enough, and what a dead output
has over a tiny pool script. -/
def overrun (pool : Bytes) (t : Fin 6) : ℤ :=
  18 + (if t = 3 ∨ t = 4 then 2 else 0) + (3 - pool.length : ℕ)

/-- The template cuts the budget by that much. -/
def CutByTemplate (s : StratumJob) (pool : Bytes) (input : CoinbaseInput) (t : Fin 6) : Prop :=
  fitToTemplate (maxSize t) (cbReqSize pool.length input.size input.space t) s.blockTemplate +
    overrun pool t ≤ maxSize t - cbReqSize pool.length input.size input.space t

instance (s : StratumJob) (pool : Bytes) (input : CoinbaseInput) (t : Fin 6) :
    Decidable (CutByTemplate s pool input t) :=
  inferInstanceAs (Decidable (_ ≤ _))

/-! ## Lengths -/

theorem maxSize_ge (t : Fin 6) : 500 ≤ maxSize t := by
  fin_cases t <;> decide

theorem countLength_empty (input : CoinbaseInput) (t : Fin 6) : countLength input 0 t = 1 := by
  unfold countLength
  split <;> rfl

/-- Without outputs every type is within its size. -/
theorem joinedLength_typeEmpty (hw : Writable u s input script wit) (hlen : wit.length = 38)
    (hs : s.availableCoinbaseOutputs = []) {t : Fin 6} (ht : t ≠ 0) :
    (joinedLength (typeCoinb1 s input script false t) (typeCoinb2 s input script wit false t) : ℤ) ≤
      maxSize t := by
  have ha : Available s.availableCoinbaseOutputs := by
    rw [hs]
    exact ⟨by simp, by simp⟩
  have hsel : typeSelection s input t = [] := by
    unfold typeSelection selection selectFrom
    rw [hs]
    rfl
  have hjoined := joinedLength_type hw ha fun h => absurd h ht
  have hlast := length_lastOut_le hw.pool (wrapped (typeSelection s input t))
  have hreq := cbReqSize_le_of_writable hw t
  have hmax := maxSize_ge t
  have hpool := hw.pool
  rw [hsel, List.length_nil, countLength_empty, List.map_nil, List.sum_nil, ← hsel] at hjoined
  omega

theorem maxSize_le_of_ne {t : Fin 6} (h : ¬ (t = 3 ∨ t = 4)) : maxSize t ≤ 2250 := by
  revert t
  decide

/-- An output count that takes three bytes needs type 3 or 4. -/
theorem countLength_le (s : StratumJob) (input : CoinbaseInput) (t : Fin 6) :
    (countLength input (typeSelection s input t).length t : ℤ) ≤
      1 + if t = 3 ∨ t = 4 then 2 else 0 := by
  have hsel := length_selection_le s (remainingSize s input input.space t)
  have hfit := fitToTemplate_le (maxSize t)
    (cbReqSize s.poolAddrScript.length input.size input.space t) s.blockTemplate
  have hreq : 119 ≤ cbReqSize s.poolAddrScript.length input.size input.space t := by
    unfold cbReqSize
    split <;> omega
  have hbudget : 9 * ((typeSelection s input t).length : ℤ) ≤ max (maxSize t - 119) 0 := by
    unfold typeSelection remainingSize at *
    omega
  have hextra : (if input.space = true ∧ t ≠ 2 then 3 else 4) ≤ 4 := by
    split <;> norm_num
  unfold countLength
  by_cases h : t = 3 ∨ t = 4
  · have h16 := maxSize_le t
    have hle := compactSize_length_le_three (n := (typeSelection s input t).length +
      if input.space = true ∧ t ≠ 2 then 3 else 4) (by omega)
    rw [if_pos h]
    omega
  · have hmax := maxSize_le_of_ne h
    rw [if_neg h, compactSize_length_of_lt (by omega)]
    norm_num

/-! ## The largest coinbase of a type -/

/-- A job without a coinbase value pays at most one output. -/
theorem sum_cost_worthless (ha : Available s.availableCoinbaseOutputs)
    (hcv : s.coinbaseValue.toNat = 0) (input : CoinbaseInput) (t : Fin 6) :
    ((typeSelection s input t).map fun p => p.2.cost).sum ≤ 73 ∧
      (typeSelection s input t).length ≤ 1 := by
  have hone : (typeSelection s input t).length ≤ 1 := by
    unfold typeSelection selection selectFrom
    rw [hcv]
    exact length_take_cap_zero _ _ _ _
  refine ⟨?_, hone⟩
  have hshort := short_of_mem_typeSelection ha input t
  match htake : typeSelection s input t with
  | [] => norm_num
  | [p] =>
      have hp := hshort p (by rw [htake]; exact List.mem_singleton_self p)
      simp only [List.map_cons, List.map_nil, List.sum_singleton, Output.cost]
      omega
  | _ :: _ :: _ =>
      rw [htake] at hone
      simp at hone

/-- What a type comes to, at most. -/
theorem joinedLength_type_le_budget (hw : Writable u s input script wit) (hlen : wit.length = 38)
    (ha : Available s.availableCoinbaseOutputs) {t : Fin 6} (ht : t ≠ 0) :
    (joinedLength (typeCoinb1 s input script false t) (typeCoinb2 s input script wit false t) : ℤ) ≤
      cbReqSize s.poolAddrScript.length input.size input.space t +
        ((typeSelection s input t).map fun p => p.2.cost).sum + overrun s.poolAddrScript t := by
  have hjoined := joinedLength_type hw ha fun h => absurd h ht
  have hlast := length_lastOut_le hw.pool (wrapped (typeSelection s input t))
  have hcount := countLength_le s input t
  unfold overrun
  omega

theorem joinedLength_le_of_cut (hw : Writable u s input script wit) (hlen : wit.length = 38)
    (ha : Available s.availableCoinbaseOutputs) {t : Fin 6} (ht : t ≠ 0)
    (hcut : s.coinbaseValue.toNat = 0 ∨ CutByTemplate s s.poolAddrScript input t) :
    (joinedLength (typeCoinb1 s input script false t) (typeCoinb2 s input script wit false t) : ℤ) ≤
      maxSize t := by
  have hle := joinedLength_type_le_budget hw hlen ha ht
  have hreq := cbReqSize_le_of_writable hw t
  have hmax := maxSize_ge t
  have hover : overrun s.poolAddrScript t ≤ 23 := by
    unfold overrun
    split <;> omega
  rcases hcut with hcv | hcut
  · have hsum := (sum_cost_worthless ha hcv input t).1
    omega
  · have hsum := sum_cost_le s (le_max_left (remainingSize s input input.space t) 0)
      (le_max_right _ _)
    unfold CutByTemplate at hcut
    unfold typeSelection remainingSize at *
    omega

/-- Outputs of this cost fill a budget; only type 3 needs smaller ones to get
above 252 of them. -/
def fillerUnit (t : Fin 6) : ℕ := if t = 3 then 24 else 40

theorem fillerUnit_bounds (t : Fin 6) : 9 ≤ fillerUnit t ∧ fillerUnit t ≤ 40 := by
  revert t
  decide

theorem length_fillerUnit_le {t : Fin 6} {room : ℕ} (hroom : (room : ℤ) ≤ maxSize t) :
    (room - 34) / fillerUnit t + 1 ≤ 512 := by
  have h16 := maxSize_le t
  by_cases h3 : t = 3
  · subst h3
    have h6500 : maxSize 3 = 6500 := rfl
    show (room - 34) / 24 + 1 ≤ 512
    omega
  · rw [fillerUnit, if_neg h3]
    omega

/-- A budget of type 3 or 4 that is nearly the whole type takes more than 252
outputs. -/
theorem countLength_fillerUnit (input : CoinbaseInput) {t : Fin 6} {room : ℕ}
    (hlow : maxSize t - 423 ≤ room) (hhigh : (room : ℤ) ≤ maxSize t) :
    1 + (if t = 3 ∨ t = 4 then 2 else 0) ≤ countLength input ((room - 34) / fillerUnit t + 1) t := by
  by_cases h : t = 3 ∨ t = 4
  · rw [if_pos h]
    refine (compactSize_length_of_ge ?_ ?_).ge
    · rcases h with rfl | rfl
      · have h6500 : maxSize 3 = 6500 := rfl
        show _ ≤ (room - 34) / 24 + 1 + _
        split <;> omega
      · have h16 : maxSize 4 = 16000 := rfl
        show _ ≤ (room - 34) / 40 + 1 + _
        split <;> omega
    · have hle := length_fillerUnit_le hhigh
      split <;> omega
  · rw [if_neg h]
    exact compactSize_length_pos _

theorem fitToTemplate_nonneg {maxSz fixedBytes : ℤ} (h : fixedBytes ≤ maxSz) (t : Template) :
    0 ≤ fitToTemplate maxSz fixedBytes t := by
  unfold fitToTemplate
  simp only
  split_ifs
  · exact le_rfl
  · exact le_rfl
  · exact le_min (le_max_right _ _) (by omega)

/-- Unless it is cut, a budget filled up overruns the type. -/
theorem cut_of_joinedLength_le (hw : Writable u s input script wit) (hlen : wit.length = 38)
    (hcv : 0 < s.coinbaseValue.toNat) {t : Fin 6} (ht : t ≠ 0) {room : ℕ}
    (hroom : remainingSize s input input.space t = room)
    (hs : s.availableCoinbaseOutputs = fillerBy (fillerUnit t) room (fillerLast s))
    (hle : (joinedLength (typeCoinb1 s input script false t)
      (typeCoinb2 s input script wit false t) : ℤ) ≤ maxSize t) :
    CutByTemplate s s.poolAddrScript input t := by
  have hreq := cbReqSize_le_of_writable hw t
  have hmax := maxSize_ge t
  have hhigh := remainingSize_le s input input.space t
  have hover : overrun s.poolAddrScript t ≤ 23 := by
    unfold overrun
    split <;> omega
  show remainingSize s input input.space t + _ ≤ _
  by_contra hgt
  have h9 : 9 ≤ room := by omega
  have hjoined := joinedLength_fillerBy hw hcv ht (fillerUnit_bounds t).1 (fillerUnit_bounds t).2
    (length_fillerUnit_le (by omega)) hs hroom h9
  have hcount : 1 + (if t = 3 ∨ t = 4 then 2 else 0) ≤
      countLength input ((room - 34) / fillerUnit t + 1) t :=
    countLength_fillerUnit input (by omega) (by omega)
  unfold overrun at hgt
  by_cases h34 : t = 3 ∨ t = 4
  · rw [if_pos h34] at hcount hgt
    omega
  · rw [if_neg h34] at hcount hgt
    omega

/-! ## Jobs -/

theorem payoutFree_eq (hpool : poolAddrScript u cfg = some pool)
    (hinput : generateCoinbaseInput u cfg s.height = some input) (t : Fin 6)
    (hw : Writable u ((s.withOutputs []).withPool cfg pool) input script wit) :
    ∃ free, payoutFree u cfg s t = some free ∧
      free.coinb1Bin = typeCoinb1 ((s.withOutputs []).withPool cfg pool) input script false t ∧
      free.coinb2Bin = typeCoinb2 ((s.withOutputs []).withPool cfg pool) input script wit false t := by
  refine ⟨_, ?_, coinb1Bin_eq (readsAs_typeDraft hw false t)⟩
  simp [payoutFree, hpool, hinput]

/-- **When a type keeps to its size.** It does for every reply exactly if the job
is worthless or the template cuts the budget by what the sum by hand leaves out. -/
theorem ceiling_respected_iff (hu : u.Documented) (hcfg : cfg.Fits)
    (hpool : poolAddrScript u cfg = some pool)
    (hwit : Commits u s.blockTemplate.defaultWitnessCommitment wit) (hlen : wit.length = 38)
    (hinput : generateCoinbaseInput u cfg s.height = some input) {t : Fin 6} (ht : t ≠ 0) :
    RespectsCeiling u cfg s t ↔
      s.coinbaseValue.toNat = 0 ∨ CutByTemplate s pool input t := by
  have hgen : ∀ outs, ∃ script, Writable u ((s.withOutputs outs).withPool cfg pool) input script wit ∧
      generateCoinbaseTxns u cfg (s.withOutputs outs) false =
        some (((s.withOutputs outs).withPool cfg pool).withCoinbases u input outs.isEmpty) := by
    intro outs
    obtain ⟨input', script, hinput', hw, hgen, -⟩ := generateCoinbaseTxns_eq
      (s := s.withOutputs outs) hu hcfg hpool hwit
    obtain rfl := Option.some.inj (hinput.symm.trans hinput')
    exact ⟨script, hw, hgen false⟩
  obtain ⟨script₀, hw₀, -⟩ := hgen []
  obtain ⟨free, hfree, hfree1, hfree2⟩ := payoutFree_eq hpool hinput t hw₀
  constructor
  · intro h
    refine or_iff_not_imp_left.mpr fun hcv => ?_
    have hfit : 0 ≤ remainingSize (s.withPool cfg pool) input input.space t := by
      have hreq := (cbReqSize_le_of_writable hw₀ t).2
      have hmax := maxSize_ge t
      exact fitToTemplate_nonneg (hreq.trans (by omega)) _
    obtain ⟨room, hroom⟩ := Int.eq_ofNat_of_zero_le hfit
    -- a reply that fills the budget
    set outs := fillerBy (fillerUnit t) room (fillerLast (s.withPool cfg pool)) with houts
    have hroomle : (room : ℤ) ≤ maxSize t := hroom ▸ remainingSize_le _ _ _ _
    obtain ⟨s', free', hs', hfree', hle⟩ := h outs (available_fillerBy (fillerUnit_bounds t).1
      (fillerUnit_bounds t).2 (length_fillerUnit_le hroomle) _)
    obtain ⟨script, hw, hgen⟩ := hgen outs
    obtain rfl := Option.some.inj (hgen.symm.trans hs')
    obtain rfl := Option.some.inj (hfree.symm.trans hfree')
    obtain ⟨h1, h2⟩ := coinbase_withCoinbases hw outs.isEmpty t
    have hne : outs.isEmpty = false := by
      simp [houts, fillerBy]
    rw [h1, h2, hfree1, hfree2, hne] at hle
    exact cut_of_joinedLength_le hw hlen (Nat.pos_of_ne_zero hcv) ht hroom rfl
      (hle (joinedLength_typeEmpty hw₀ hlen rfl ht))
  · intro h outs ha
    obtain ⟨script, hw, hgen⟩ := hgen outs
    refine ⟨_, free, hgen, hfree, fun _ => ?_⟩
    obtain ⟨h1, h2⟩ := coinbase_withCoinbases hw outs.isEmpty t
    rw [h1, h2]
    cases hempty : outs.isEmpty with
    | true =>
        have hjoined := joinedLength_emptied hw t
        have hreq := cbReqSize_le_of_writable hw 0
        have hmax := maxSize_ge t
        omega
    | false => exact joinedLength_le_of_cut hw hlen ha ht h

/-- In a nearly full block the template cuts the budget of type 1 to 31 bytes. -/
theorem ceiling_respected_fullJob : RespectsCeiling poolUtils (taggedConfig 9 0) fullJob 1 := by
  have hcfg : (taggedConfig 9 0).Fits := fits_taggedConfig (by norm_num) (by norm_num)
  obtain ⟨input, -, hinput, -⟩ := generateCoinbaseTxns_eq (s := fullJob) documented_poolUtils hcfg
    (poolAddrScript_taggedConfig 9 0) (commits_freshJob 0 [])
  have hinput' : generateCoinbaseInput poolUtils (taggedConfig 9 0) 900000 = some input := hinput
  refine (ceiling_respected_iff (s := fullJob) documented_poolUtils hcfg
    (poolAddrScript_taggedConfig 9 0)
    (commits_freshJob 0 []) rfl hinput (by decide)).mpr (Or.inr ?_)
  unfold CutByTemplate
  rw [space_short hinput', size_short hinput']
  decide

/-- Seven taproot outputs and one for a public key hash. -/
def eightOutputs : List Output :=
  List.replicate 7 ⟨6562500, 0x51 :: 0x20 :: List.replicate 32 0x2a⟩ ++
    [⟨6562500, 0x00 :: 0x14 :: List.replicate 20 0x2a⟩]

/-- With these the budget of type 1 is used up to five bytes, and the coinbase is
513 bytes long instead of 500. -/
theorem type1_over_500 :
    ∃ s' free, generateCoinbaseTxns poolUtils (taggedConfig 9 0)
        ((freshJob 312500000 []).withOutputs eightOutputs) false = some s' ∧
      payoutFree poolUtils (taggedConfig 9 0) (freshJob 312500000 []) 1 = some free ∧
      joinedLength free.coinb1Bin free.coinb2Bin ≤ 500 ∧
      joinedLength (s'.coinbase 1).coinb1Bin (s'.coinbase 1).coinb2Bin = 513 ∧
      ¬ RespectsCeiling poolUtils (taggedConfig 9 0) (freshJob 312500000 []) 1 := by
  set s := (freshJob 312500000 []).withOutputs eightOutputs
  have hcfg : (taggedConfig 9 0).Fits := fits_taggedConfig (by norm_num) (by norm_num)
  obtain ⟨input, script, hinput, hw, hgen, -⟩ := generateCoinbaseTxns_eq (s := s)
    documented_poolUtils hcfg (poolAddrScript_taggedConfig 9 0) (commits_freshJob 0 [])
  have hinput' : generateCoinbaseInput poolUtils (taggedConfig 9 0) 900000 = some input := hinput
  have hspace := space_short hinput'
  have hsize := size_short hinput'
  have hwFree : Writable poolUtils (((freshJob 312500000 []).withOutputs []).withPool
      (taggedConfig 9 0) feeScript) input script witnessScript :=
    ⟨hw.documented, hw.pool, hw.commits, hw.cb, hw.size, hw.short⟩
  obtain ⟨free, hfree, hfree1, hfree2⟩ := payoutFree_eq (s := freshJob 312500000 [])
    (poolAddrScript_taggedConfig 9 0) hinput' 1 hwFree
  have hshort : (joinedLength free.coinb1Bin free.coinb2Bin : ℤ) ≤ 500 := by
    rw [hfree1, hfree2]
    exact joinedLength_typeEmpty hwFree rfl rfl (by decide)
  have ha : Available eightOutputs := ⟨by decide, by decide⟩
  have hsel : typeSelection (s.withPool (taggedConfig 9 0) feeScript) input 1 =
      (List.range 8).zip eightOutputs := by
    unfold typeSelection remainingSize
    rw [hspace, hsize]
    decide
  obtain ⟨h1, h2⟩ := coinbase_withCoinbases hw false 1
  have hs' : generateCoinbaseTxns poolUtils (taggedConfig 9 0) s false =
      some ((s.withPool (taggedConfig 9 0) feeScript).withCoinbases poolUtils input false) := hgen false
  have hlong : joinedLength (typeCoinb1 (s.withPool (taggedConfig 9 0) feeScript) input script false 1)
      (typeCoinb2 (s.withPool (taggedConfig 9 0) feeScript) input script witnessScript false 1) =
        513 := by
    have hn := joinedLength_type hw ha (t := 1) fun h => absurd h (by decide)
    rw [hsel, countLength, hspace, hsize] at hn
    have hlength : (joinedLength _ _ : ℤ) = 513 := hn.trans (by decide)
    exact_mod_cast hlength
  rw [← h1, ← h2] at hlong
  refine ⟨_, free, hs', hfree, by exact_mod_cast hshort, hlong, fun h => ?_⟩
  obtain ⟨s'', free', hs'', hfree', hle⟩ := h eightOutputs ha
  obtain rfl := Option.some.inj (hs'.symm.trans hs'')
  obtain rfl := Option.some.inj (hfree.symm.trans hfree')
  have hle500 : (joinedLength _ _ : ℤ) ≤ 500 := hle hshort
  rw [hlong] at hle500
  norm_num at hle500

end Gateway
