import Unlucky21.Gateway.Subsidy

/-!
# Every coinbase is a transaction

For which jobs, layouts and types the two halves of a shared coinbase join, under
every extranonce, to one transaction with one input that pays the coinbase value.
Type 0 does not when it is written twice without going back, and no type does
when an addition of the selection wraps.
-/

namespace Gateway

open Wire CText Greedy Half

/-- One transaction with one input and lock time 0 whose outputs are worth
`value`. -/
def IsCoinbase (bs : Bytes) (value : ℕ) : Prop :=
  ∃ tx, parseTx bs = some tx ∧ tx.ins.length = 1 ∧ tx.lockTime = 0 ∧
    (tx.outs.map TxOut.value).sum = value

/-- The coinbase of both halves under every extranonce. -/
def JoinsTo (c : Coinbase) (value : ℕ) : Prop :=
  ∀ en : Bytes, en.length = 12 → IsCoinbase (c.coinb1Bin ++ en ++ c.coinb2Bin) value

/-! ## Sums -/

/-- No addition of the selection that passes the test wraps. -/
def NoWrap (s : StratumJob) (remaining : ℤ) : Prop :=
  Exact (2 ^ 64) Output.cost Output.value 30 s.coinbaseValue.toNat remaining 0
    s.availableCoinbaseOutputs

instance (s : StratumJob) (remaining : ℤ) : Decidable (NoWrap s remaining) :=
  inferInstanceAs (Decidable (Exact ..))

theorem noWrap_iff (s : StratumJob) (remaining : ℤ) :
    NoWrap s remaining ↔ taken Output.value (selection s remaining) < 2 ^ 64 := by
  have hiff : NoWrap s remaining ↔ 0 + taken Output.value (selection s remaining) < 2 ^ 64 :=
    exact_iff_taken_lt s.coinbaseValue.toNat_lt _ 0 _ _ (Nat.zero_le _)
  rwa [zero_add] at hiff

/-- Values below 2^63 under a coinbase value below 2^63 never wrap. -/
theorem noWrap_of_lt {s : StratumJob} (hcv : s.coinbaseValue.toNat < 2 ^ 63)
    (h : ∀ o ∈ s.availableCoinbaseOutputs, o.value < 2 ^ 63) (remaining : ℤ) :
    NoWrap s remaining := by
  have hgo : ∀ (l : List Output) (budget : ℤ) (total : ℕ), (∀ o ∈ l, o.value < 2 ^ 63) →
      total ≤ s.coinbaseValue.toNat →
      Exact (2 ^ 64) Output.cost Output.value 30 s.coinbaseValue.toNat budget total l := by
    intro l
    induction l with
    | nil => intros; trivial
    | cons o l ih =>
        intro budget total hl htotal
        have ho := hl o List.mem_cons_self
        have hl' : ∀ o ∈ l, o.value < 2 ^ 63 := fun o' ho' => hl o' (List.mem_cons_of_mem _ ho')
        rw [Exact]
        split
        next hfit => exact ⟨by omega, Or.inr (ih _ _ hl' hfit.2)⟩
        next => exact ih _ _ hl' htotal
  exact hgo _ _ _ h (Nat.zero_le _)

theorem wrapped_le (s : StratumJob) (remaining : ℤ) :
    wrapped (selection s remaining) ≤ s.coinbaseValue.toNat := by
  have h : (0 + taken Output.value (selection s remaining)) % 2 ^ 64 ≤ s.coinbaseValue.toNat :=
    total_mod_le s.coinbaseValue.toNat_lt _ 0 _ _ (Nat.zero_le _)
  rwa [zero_add] at h

theorem value_lastOut {s : StratumJob} {total : ℕ} (h : total ≤ s.coinbaseValue.toNat) :
    total + (lastOut s total).value = s.coinbaseValue.toNat := by
  unfold lastOut
  split
  · show total + (s.coinbaseValue.toNat - total) = _
    omega
  · show total + 0 = _
    omega

def values (outs : List TxOut) : ℕ := (outs.map TxOut.value).sum

@[simp] theorem values_append (as bs : List TxOut) : values (as ++ bs) = values as + values bs := by
  simp [values]

@[simp] theorem values_cons (o : TxOut) (outs : List TxOut) :
    values (o :: outs) = o.value + values outs := by
  simp [values]

@[simp] theorem values_nil : values [] = 0 := rfl

@[simp] theorem values_commitmentOuts (wit : Bytes) : values (commitmentOuts wit) = 0 := rfl

/-- The two halves share out the selection. -/
theorem values_halves (n : ℕ) (special : Bool) (sel : List (ℕ × Output)) :
    values (firstHalf n special sel) + values (secondHalf n special sel) =
      taken Output.value sel := by
  induction sel with
  | nil => rfl
  | cons p sel ih =>
      rw [firstHalf_cons, secondHalf_cons, taken_cons, ← ih]
      have hp : p.2.txOut.value = p.2.value := rfl
      split
      · rw [values_cons, hp]
        ring
      · rw [values_cons, hp]
        ring

theorem length_halves (n : ℕ) (special : Bool) (sel : List (ℕ × Output)) :
    (firstHalf n special sel).length + (secondHalf n special sel).length = sel.length := by
  induction sel with
  | nil => rfl
  | cons p sel ih =>
      rw [firstHalf_cons, secondHalf_cons, List.length_cons, ← ih]
      split
      · rw [List.length_cons]
        omega
      · rw [List.length_cons]
        omega

/-- A wrapped addition pays 2^64 more than there is. -/
theorem values_type (s : StratumJob) (input : CoinbaseInput) (script wit : Bytes) (t : Fin 6) :
    values (typeFirst s input script t) + values (typeSecond s input script t ++
      restOuts s (typeSelection s input t) wit) =
    s.coinbaseValue.toNat + 2 ^ 64 * (taken Output.value (typeSelection s input t) / 2 ^ 64) := by
  have hhalves := values_halves (typeCount s input script t) (t = 2) (typeSelection s input t)
  have hlast : wrapped (typeSelection s input t) + (lastOut s (wrapped (typeSelection s input t))).value =
      s.coinbaseValue.toNat := value_lastOut (wrapped_le s _)
  have hmod := Nat.div_add_mod (taken Output.value (typeSelection s input t)) (2 ^ 64)
  simp only [restOuts, values_append, values_cons, values_commitmentOuts]
  unfold typeFirst typeSecond
  unfold wrapped at hlast ⊢
  omega

/-! ## Joins -/

variable {u : DatumUtils} {s : StratumJob} {input : CoinbaseInput} {script wit : Bytes}

theorem fits_commitmentOuts (hw : Writable u s input script wit) :
    ∀ o ∈ commitmentOuts wit, o.Fits := by
  intro o ho
  rcases List.mem_cons.mp ho with rfl | ho
  · have := hw.commits.short
    exact ⟨by norm_num, by show wit.length < 2 ^ 64; omega⟩
  · obtain rfl := List.mem_singleton.mp ho
    exact ⟨by norm_num [signetOut], by norm_num [signetOut]⟩

theorem fits_emptyOuts (hw : Writable u s input script wit) : ∀ o ∈ emptyOuts s wit, o.Fits := by
  intro o ho
  rcases List.mem_cons.mp ho with rfl | ho
  · have := hw.pool
    exact ⟨s.coinbaseValue.toNat_lt, by show s.poolAddrScript.length < 2 ^ 64; omega⟩
  · exact fits_commitmentOuts hw o ho

theorem fits_lastOut (hw : Writable u s input script wit) (total : ℕ) : (lastOut s total).Fits := by
  have hpool := hw.pool
  have hvalue := s.coinbaseValue.toNat_lt
  unfold lastOut
  split
  · constructor
    · show s.coinbaseValue.toNat - _ < 2 ^ 64
      omega
    · show s.poolAddrScript.length < 2 ^ 64
      omega
  · exact ⟨by norm_num [deadOut], by norm_num [deadOut]⟩

theorem fits_restOuts (hw : Writable u s input script wit) (sel : List (ℕ × Output)) :
    ∀ o ∈ restOuts s sel wit, o.Fits :=
  List.forall_mem_cons.mpr ⟨fits_lastOut hw _, fits_commitmentOuts hw⟩

theorem fits_typeFirst (s : StratumJob) (input : CoinbaseInput) (script : Bytes) (t : Fin 6) :
    ∀ o ∈ typeFirst s input script t, o.Fits := by
  intro o ho
  refine ⟨?_, script_lt_firstHalf s (remainingSize_lt s input input.space t) _ _ o ho⟩
  obtain ⟨p, -, rfl⟩ := List.mem_map.mp ho
  exact p.2.valueSats.toNat_lt

theorem fits_typeSecond (s : StratumJob) (input : CoinbaseInput) (script : Bytes) (t : Fin 6) :
    ∀ o ∈ typeSecond s input script t, o.Fits := by
  intro o ho
  refine ⟨?_, script_lt_secondHalf s (remainingSize_lt s input input.space t) _ _ o ho⟩
  obtain ⟨p, -, rfl⟩ := List.mem_map.mp ho
  exact p.2.valueSats.toNat_lt

theorem fits_append {as bs : List TxOut} (ha : ∀ o ∈ as, o.Fits) (hb : ∀ o ∈ bs, o.Fits) :
    ∀ o ∈ as ++ bs, o.Fits := by
  intro o ho
  rcases List.mem_append.mp ho with ho | ho
  · exact ha o ho
  · exact hb o ho

/-- The transaction type `t` joins to, for jobs that are not emptied and a type
that is not written twice. -/
def typeOuts (s : StratumJob) (input : CoinbaseInput) (script wit en : Bytes) (t : Fin 6) :
    List TxOut :=
  let rest := typeSecond s input script t ++ restOuts s (typeSelection s input t) wit
  if input.space ∧ t ≠ 2 then rest
  else typeFirst s input script t ++ extranonceOut s.enPrefix.toNat en :: rest

/-- **The join of a type**, and of its halves only. -/
theorem parseTx_type (hw : Writable u s input script wit) {t : Fin 6} (ht : t = 0 → input.space)
    {en : Bytes} (hen : en.length = 12) :
    ∃ i, parseTx (typeCoinb1 s input script false t ++ en ++
        typeCoinb2 s input script wit false t) =
      some ⟨1, [i], typeOuts s input script wit en t, 0⟩ := by
  have hlen := length_halves (typeCount s input script t) (t = 2) (typeSelection s input t)
  have hmax := length_typeSelection_le s input t
  have h16 : maxSize t ≤ 16000 := by fin_cases t <;> decide
  have hrest := fits_append (fits_typeSecond s input script t)
    (fits_restOuts hw (typeSelection s input t))
  have hthree : (restOuts s (typeSelection s input t) wit).length = 3 := rfl
  by_cases hspace : input.space ∧ t ≠ 2
  · refine ⟨coinbaseIn (extranonceScript script s.enPrefix.toNat en), ?_⟩
    have hjoin := parseTx_script_join s.enPrefix.toNat hw.short hen
      (show (typeSelection s input t).length + 3 < 2 ^ 64 by omega) hrest
    have hfirst : typeFirst s input script t = [] := typeFirst_of_ne hspace.2
    have hcount : (typeSelection s input t).length + 3 =
        (typeSecond s input script t ++ restOuts s (typeSelection s input t) wit).length := by
      rw [List.length_append, hthree, ← hlen]
      have : (firstHalf (typeCount s input script t) (t = 2) (typeSelection s input t)).length = 0 := by
        exact congrArg List.length hfirst
      show _ = (secondHalf (typeCount s input script t) (t = 2) (typeSelection s input t)).length + 3
      omega
    rw [if_pos hcount] at hjoin
    simpa [typeCoinb1, typeCoinb2, typeOuts, hspace.1, hspace.2] using hjoin
  · have ht0 : t ≠ 0 := by
      rintro rfl
      exact hspace ⟨ht rfl, by decide⟩
    refine ⟨coinbaseIn script, ?_⟩
    have hjoin := parseTx_output_join s.enPrefix.toNat hw.short hen
      (show (typeSelection s input t).length + 4 < 2 ^ 64 by omega)
      (fits_typeFirst s input script t) hrest
    have hcount : (typeSelection s input t).length + 4 = (typeFirst s input script t).length + 1 +
        (typeSecond s input script t ++ restOuts s (typeSelection s input t) wit).length := by
      rw [List.length_append, hthree, ← hlen]
      unfold typeFirst typeSecond
      omega
    rw [if_pos hcount] at hjoin
    rw [typeCoinb1_output hspace ht0, typeCoinb2_output hspace ht0, hjoin, typeOuts, if_neg hspace]

theorem values_typeOuts (s : StratumJob) (input : CoinbaseInput) (script wit en : Bytes)
    (t : Fin 6) : values (typeOuts s input script wit en t) =
      s.coinbaseValue.toNat + 2 ^ 64 * (taken Output.value (typeSelection s input t) / 2 ^ 64) := by
  rw [← values_type s input script wit t, typeOuts]
  split
  next h =>
    rw [typeFirst_of_ne h.2]
    simp
  next h =>
    rw [values_append, values_cons]
    show _ + (0 + _) = _
    ring

theorem parseTx_emptied (hw : Writable u s input script wit) (t : Fin 6) {en : Bytes}
    (hen : en.length = 12) :
    ∃ i, parseTx (typeCoinb1 s input script true t ++ en ++ typeCoinb2 s input script wit true t) =
      some ⟨1, [i], if input.space then emptyOuts s wit
        else extranonceOut s.enPrefix.toNat en :: emptyOuts s wit, 0⟩ := by
  have hfits := fits_emptyOuts hw
  cases hspace : input.space with
  | true =>
      have hjoin := parseTx_script_join s.enPrefix.toNat hw.short hen
        (show 3 < 2 ^ 64 by norm_num) hfits
      rw [if_pos (show 3 = (emptyOuts s wit).length from rfl)] at hjoin
      exact ⟨_, by simpa [typeCoinb1, typeCoinb2, hspace] using hjoin⟩
  | false =>
      have hnone : ∀ o ∈ ([] : List TxOut), o.Fits := by simp
      have hjoin := parseTx_output_join s.enPrefix.toNat hw.short hen
        (show 4 < 2 ^ 64 by norm_num) hnone hfits
      rw [if_pos (show 4 = ([] : List TxOut).length + 1 + (emptyOuts s wit).length from rfl)]
        at hjoin
      exact ⟨_, by simpa [typeCoinb1, typeCoinb2, hspace] using hjoin⟩

theorem length_serOuts_le {outs : List TxOut} {b : ℕ} (h : ∀ o ∈ outs, o.script.length ≤ b) :
    (serOuts outs).length ≤ outs.length * (17 + b) := by
  induction outs with
  | nil => simp
  | cons o outs ih =>
      have ho := h o List.mem_cons_self
      have hrest := ih fun o' ho' => h o' (List.mem_cons_of_mem _ ho')
      have hsize := compactSize_length_le o.script.length
      simp only [serOuts_cons, TxOut.ser, varBytes, List.length_append, leBytes_length,
        List.length_cons, Nat.succ_mul]
      omega

/-! ## Lengths -/

theorem length_lastOut (hpool : s.poolAddrScript.length ≤ 64) (total : ℕ) :
    (lastOut s total).ser.length =
      if total < s.coinbaseValue.toNat then s.poolAddrScript.length + 9 else 12 := by
  unfold lastOut
  split
  · exact TxOut.ser_length_of_lt (show s.poolAddrScript.length < 0xfd by omega)
  · rfl

theorem length_lastOut_le (hpool : s.poolAddrScript.length ≤ 64) (total : ℕ) :
    (lastOut s total).ser.length ≤
      s.poolAddrScript.length + 9 + (3 - s.poolAddrScript.length) := by
  rw [length_lastOut hpool]
  split <;> omega

theorem length_commitmentOuts (hw : Writable u s input script wit) :
    (serOuts (commitmentOuts wit)).length = wit.length + 24 := by
  have hwit : (⟨0, wit⟩ : TxOut).ser.length = wit.length + 9 :=
    TxOut.ser_length_of_lt (show wit.length < 0xfd from hw.commits.short)
  rw [commitmentOuts, serOuts_cons, List.length_append, hwit]
  show wit.length + 9 + 15 = _
  omega

theorem length_restOuts (hw : Writable u s input script wit) (sel : List (ℕ × Output)) :
    (serOuts (restOuts s sel wit)).length =
      (lastOut s (wrapped sel)).ser.length + (wit.length + 24) := by
  rw [restOuts, serOuts_cons, List.length_append, length_commitmentOuts hw]

theorem length_emptyOuts (hw : Writable u s input script wit) :
    (serOuts (emptyOuts s wit)).length = s.poolAddrScript.length + 9 + (wit.length + 24) := by
  have hpool : (⟨s.coinbaseValue.toNat, s.poolAddrScript⟩ : TxOut).ser.length =
      s.poolAddrScript.length + 9 :=
    TxOut.ser_length_of_lt (show s.poolAddrScript.length < 0xfd by have := hw.pool; omega)
  rw [emptyOuts, serOuts_cons, List.length_append, hpool, length_commitmentOuts hw]

/-! ## Type 0, written twice -/

/-- Written twice, type 0 has an extranonce under which it is no transaction. -/
theorem parseTx_doubled (hw : Writable u s input script wit) (hspace : input.space = false) :
    parseTx (typeCoinb1 s input script false 0 ++ wideExtranonce ++
      typeCoinb2 s input script wit false 0) = none := by
  have hlen := length_typeSelection_le s input 0
  have h500 : maxSize 0 = 500 := rfl
  have hpool := hw.pool
  have hwit := hw.commits.short
  have hempty := length_emptyOuts hw
  have hsecond : (serOuts (typeSecond s input script 0)).length ≤
      (typeSecond s input script 0).length * 617 := by
    refine length_serOuts_le (b := 600) fun o ho => ?_
    obtain ⟨p, hp, rfl⟩ := List.mem_map.mp ho
    have hle := script_le_of_mem_selection (List.mem_of_mem_filter hp)
    have hmax := remainingSize_le s input input.space 0
    show p.2.outputScript.length ≤ 600
    omega
  have hcount : (typeSecond s input script 0).length ≤ (typeSelection s input 0).length := by
    rw [typeSecond, secondHalf, List.length_map]
    exact List.length_filter_le _ _
  have hrest := length_restOuts hw (typeSelection s input 0)
  have hlast := length_lastOut_le hw.pool (wrapped (typeSelection s input 0))
  have htotal : (typeCoinb2 s input script wit false 0).length =
      (serOuts (emptyOuts s wit)).length + 4 +
        ((serOuts (typeSecond s input script 0)).length +
          (serOuts (restOuts s (typeSelection s input 0) wit)).length + 4) := by
    rw [typeCoinb2_doubled hspace]
    simp only [length_outTail, serOuts_append, List.length_append]
  rw [typeCoinb1_doubled hspace]
  exact parseTx_doubledHead hw.short (by omega) (by omega) (by omega)

/-! ## Jobs -/

/-- When the coinbase of type `t` is sound. -/
def TypeSound (s : StratumJob) (input : CoinbaseInput) (emptyOnly : Bool) (t : Fin 6) : Prop :=
  emptyOnly ∨ s.availableCoinbaseOutputs = [] ∨
    ((t = 0 → input.space) ∧ NoWrap s (remainingSize s input input.space t))

theorem joinsTo_iff (hw : Writable u s input script wit) {c : Coinbase} (emptied : Bool)
    {t : Fin 6} (hc1 : c.coinb1Bin = typeCoinb1 s input script emptied t)
    (hc2 : c.coinb2Bin = typeCoinb2 s input script wit emptied t) :
    JoinsTo c s.coinbaseValue.toNat ↔ emptied = true ∨
      ((t = 0 → input.space) ∧ NoWrap s (remainingSize s input input.space t)) := by
  unfold JoinsTo
  rw [hc1, hc2]
  cases emptied with
  | true =>
      simp only [true_or, iff_true]
      intro en hen
      obtain ⟨i, hparse⟩ := parseTx_emptied hw t hen
      refine ⟨_, hparse, rfl, rfl, ?_⟩
      show values (if input.space then _ else _) = _
      split
      · simp [emptyOuts]
      · simp [emptyOuts, extranonceOut]
  | false =>
      simp only [Bool.false_eq_true, false_or]
      constructor
      · intro hall
        have ht : t = 0 → input.space := by
          rintro rfl
          by_contra hspace
          -- type 0 without room in the script is written twice and parses for no extranonce
          obtain ⟨tx, hparse, -⟩ := hall wideExtranonce rfl
          rw [parseTx_doubled hw (by simpa using hspace)] at hparse
          cases hparse
        refine ⟨ht, (noWrap_iff s _).mpr ?_⟩
        obtain ⟨tx, hparse, -, -, hsum⟩ := hall wideExtranonce rfl
        obtain ⟨i, hjoin⟩ := parseTx_type hw ht (show wideExtranonce.length = 12 from rfl)
        -- the values of the joined outputs reach the coinbase value only if nothing wrapped
        obtain rfl := Option.some.inj (hparse.symm.trans hjoin)
        have hvalues := values_typeOuts s input script wit wideExtranonce t
        have hsum' : values (typeOuts s input script wit wideExtranonce t) =
            s.coinbaseValue.toNat := hsum
        show taken Output.value (typeSelection s input t) < 2 ^ 64
        omega
      · rintro ⟨ht, hnowrap⟩ en hen
        obtain ⟨i, hjoin⟩ := parseTx_type hw ht hen
        refine ⟨_, hjoin, rfl, rfl, ?_⟩
        have hlt : taken Output.value (typeSelection s input t) < 2 ^ 64 :=
          (noWrap_iff s _).mp hnowrap
        show values (typeOuts s input script wit en t) = _
        rw [values_typeOuts, Nat.div_eq_of_lt hlt]
        ring

variable {cfg : Config}

theorem length_poolAddrScript_le (hu : u.Documented) (hcfg : cfg.Fits) {pool : Bytes}
    (h : poolAddrScript u cfg = some pool) : pool.length ≤ 64 := by
  unfold poolAddrScript at h
  split at h
  · split at h
    · cases h
    · obtain rfl := Option.some.inj h
      exact hcfg.poolScript
  · exact (hu.addr2OutputScript _ _ h).2

/-- The coinbases of a job are generated, from a job that can be written. -/
theorem generateCoinbaseTxns_eq (hu : u.Documented) (hcfg : cfg.Fits) {pool : Bytes}
    (hpool : poolAddrScript u cfg = some pool)
    (hwit : Commits u s.blockTemplate.defaultWitnessCommitment wit) :
    ∃ (input : CoinbaseInput) (script : Bytes), generateCoinbaseInput u cfg s.height = some input ∧
      Writable u (s.withPool cfg pool) input script wit ∧
      (∀ emptyOnly, generateCoinbaseTxns u cfg s emptyOnly =
        some ((s.withPool cfg pool).withCoinbases u input
          (emptyOnly || s.availableCoinbaseOutputs.isEmpty))) ∧
      ∀ newBlock, generateBaseCoinbaseTxns u cfg s newBlock =
        some (({ s with poolAddrScript := pool, isDatumJob := cfg.protocolActive } :
          StratumJob).withBaseCoinbase u input newBlock) := by
  obtain ⟨input, script, hinput, hcb, hsize, hshort⟩ := generateCoinbaseInput_spec hu hcfg s.height
  refine ⟨input, script, hinput, ⟨hu, length_poolAddrScript_le hu hcfg hpool, hwit, hcb, hsize,
    hshort⟩, fun emptyOnly => ?_, fun newBlock => ?_⟩
  · simp [generateCoinbaseTxns, hpool, hinput]
  · simp [generateBaseCoinbaseTxns, hpool, hinput]

theorem coinb1Bin_eq {d : Draft} {first second : Bytes} (h : d.ReadsAs u first second) :
    (d.coinbase u).coinb1Bin = first ∧ (d.coinbase u).coinb2Bin = second := by
  have h1 := Cursor.cstr_buf h.c1Ends (Encodes.nul_not_mem h.c1)
  have h2 := Cursor.cstr_buf h.c2Ends (Encodes.nul_not_mem h.c2)
  constructor
  · show unhex u.hex2binUchar (cstr d.c1.cursor.buf) = first
    rw [h1]
    exact Encodes.unhex_eq h.c1
  · show unhex u.hex2binUchar (cstr d.c2.cursor.buf) = second
    rw [h2]
    exact Encodes.unhex_eq h.c2

/-- **Which coinbases are transactions.** The types of a job join to one
transaction with one input that pays the coinbase value exactly when they are
sound; the subsidy-only coinbase always does, in both functions that build it. -/
theorem coinbases_join_iff (hu : u.Documented) (hcfg : cfg.Fits) {pool : Bytes}
    (hpool : poolAddrScript u cfg = some pool)
    (hwit : Commits u s.blockTemplate.defaultWitnessCommitment wit)
    (hz : Zeroed s.subsidyOnlyCoinbase.coinb1) (emptyOnly : Bool) :
    ∃ input s' sBase, generateCoinbaseInput u cfg s.height = some input ∧
      generateCoinbaseTxns u cfg s emptyOnly = some s' ∧
      generateBaseCoinbaseTxns u cfg s true = some sBase ∧
      (∀ t, JoinsTo (s'.coinbase t) s.coinbaseValue.toNat ↔
        TypeSound (s.withPool cfg pool) input emptyOnly t) ∧
      ∀ en : Bytes, en.length = 12 →
        (emptyOnly ∨ s.availableCoinbaseOutputs = [] →
          PaysOnly (s'.subsidyOnlyCoinbase.coinb1Bin ++ en ++ s'.subsidyOnlyCoinbase.coinb2Bin)
            (u.blockReward s.height) pool) ∧
        PaysOnly (sBase.subsidyOnlyCoinbase.coinb1Bin ++ en ++
          sBase.subsidyOnlyCoinbase.coinb2Bin) (u.blockReward s.height) pool := by
  obtain ⟨input, script, hinput, hw, hgen, hbase⟩ := generateCoinbaseTxns_eq hu hcfg hpool hwit
  refine ⟨input, _, _, hinput, hgen emptyOnly, hbase true, ?_, ?_⟩
  · intro t
    obtain ⟨h1, h2⟩ := coinb1Bin_eq (readsAs_typeDraft hw
      (emptyOnly || s.availableCoinbaseOutputs.isEmpty) t)
    have hiff := joinsTo_iff hw (emptyOnly || s.availableCoinbaseOutputs.isEmpty) h1 h2
    refine hiff.trans ?_
    rw [TypeSound, ← or_assoc]
    apply or_congr_left
    simp [StratumJob.withPool]
  · intro en hen
    constructor
    · intro h
      have hemptied : (emptyOnly || s.availableCoinbaseOutputs.isEmpty) = true := by
        rcases h with h | h <;> simp [h]
      simp only [StratumJob.withCoinbases, hemptied, if_true]
      exact subsidyOnly_paysOnly hw hz hen
    · have hwBase : Writable u { s with poolAddrScript := pool, isDatumJob := cfg.protocolActive }
          input script wit :=
        ⟨hu, length_poolAddrScript_le hu hcfg hpool, hwit, hw.cb, hw.size, hw.short⟩
      exact subsidyOnly_paysOnly hwBase hz hen

/-! ## A job of the pool -/

/-- The pool's own output script. -/
def feeScript : Bytes :=
  [0x76, 0xa9, 0x14, 0x88, 0x32, 0xd9, 0x9d, 0x51, 0x22, 0x4a, 0xe1, 0xe3, 0x69, 0xf9, 0x6b, 0xa4,
    0x45, 0x19, 0x2f, 0x92, 0xe4, 0x40, 0x1b, 0x88, 0xac]

def minerScript : Bytes :=
  [0x00, 0x14, 0x75, 0x1e, 0x76, 0xe8, 0x19, 0x91, 0x96, 0xd4, 0x54, 0x94, 0x1c, 0x45, 0xd1, 0xb3,
    0xa3, 0x23, 0xf1, 0x43, 0x3b, 0xd6]

/-- Two addresses with their scripts. -/
def knownAddresses (a : Text) : Option Bytes :=
  if a = "1DR9pDLvFVnaJBRT5M4hUJLiuCQ7YE8D7b".toList then
    some feeScript
  else if a = "bc1qw508d6qejxtdg4y5r3zarvary0c5xw7kv8f3t4".toList then
    some minerScript
  else none

def poolUtils : DatumUtils := referenceUtils knownAddresses

/-- A configuration with tags of the given lengths. -/
def taggedConfig (primary secondary : ℕ) : Config where
  miningPoolAddress := "1DR9pDLvFVnaJBRT5M4hUJLiuCQ7YE8D7b".toList
  miningCoinbaseTagPrimary := List.replicate primary 0x55
  miningCoinbaseTagSecondary := List.replicate secondary 0x32
  overrideMiningCoinbaseTagPrimary := []
  overrideMiningPoolScriptsig := []
  primeId := 0
  coinbaseUniqueId := 21
  protocolActive := false

def freshCoinbase : Coinbase := ⟨[], [], [], []⟩

def witnessScript : Bytes := [0x6a, 0x24, 0xaa, 0x21, 0xa9, 0xed] ++ List.replicate 32 0x5a

/-- A new job over a template with one small transaction. -/
def freshJob (coinbaseValue : UInt64) (outputs : List Output) : StratumJob where
  height := 900000
  enPrefix := 0x1234
  coinbaseValue := coinbaseValue
  availableCoinbaseOutputs := outputs
  poolAddrScript := []
  isDatumJob := false
  targetPotIndex := 0
  blockTemplate := {
    txnTotalSize := 250
    txnTotalWeight := 1000
    sizelimit := 4000000
    weightlimit := 4000000
    defaultWitnessCommitment := hexOf witnessScript }
  coinbase := fun _ => freshCoinbase
  subsidyOnlyCoinbase := freshCoinbase

/-- One miner gets the whole coinbase value. -/
def oneOutputJob : StratumJob := freshJob 312500000 [⟨312500000, minerScript⟩]

theorem documented_poolUtils : poolUtils.Documented := documented_referenceUtils knownAddresses

theorem fits_taggedConfig {primary secondary : ℕ} (h0 : primary ≤ 64) (h1 : secondary ≤ 64) :
    (taggedConfig primary secondary).Fits where
  primary := List.length_replicate.trans_le h0
  override := Nat.zero_le _
  secondary := List.length_replicate.trans_le h1
  poolScript := Nat.zero_le _

theorem commits_freshJob (v : UInt64) (outputs : List Output) :
    Commits poolUtils (freshJob v outputs).blockTemplate.defaultWitnessCommitment witnessScript :=
  ⟨encodes_hexOf documented_poolUtils.hex2binUchar witnessScript, by decide⟩

theorem poolAddrScript_taggedConfig (primary secondary : ℕ) :
    poolAddrScript poolUtils (taggedConfig primary secondary) = some feeScript := by
  show poolUtils.addr2OutputScript "1DR9pDLvFVnaJBRT5M4hUJLiuCQ7YE8D7b".toList = _
  decide

/-- Short tags leave room for the extranonce. -/
theorem space_short {input : CoinbaseInput}
    (h : generateCoinbaseInput poolUtils (taggedConfig 9 0) 900000 = some input) :
    input.space = true := by
  have hmap : (generateCoinbaseInput poolUtils (taggedConfig 9 0) 900000).map
      CoinbaseInput.space = some true := by decide
  rw [h] at hmap
  exact Option.some.inj hmap

theorem space_long {input : CoinbaseInput}
    (h : generateCoinbaseInput poolUtils (taggedConfig 64 20) 900000 = some input) :
    input.space = false := by
  have hmap : (generateCoinbaseInput poolUtils (taggedConfig 64 20) 900000).map
      CoinbaseInput.space = some false := by decide
  rw [h] at hmap
  exact Option.some.inj hmap

theorem coinbases_join_shortTag :
    ∃ s', generateCoinbaseTxns poolUtils (taggedConfig 9 0) oneOutputJob false = some s' ∧
      ∀ t, JoinsTo (s'.coinbase t) 312500000 := by
  obtain ⟨input, s', -, hinput, hs', -, htypes, -⟩ := coinbases_join_iff documented_poolUtils
    (fits_taggedConfig (by norm_num : 9 ≤ 64) (by norm_num : 0 ≤ 64))
    (poolAddrScript_taggedConfig 9 0)
    (commits_freshJob 312500000 [⟨312500000, minerScript⟩]) (by simp [Zeroed, freshJob, freshCoinbase])
    false
  refine ⟨s', hs', fun t => (htypes t).mpr (Or.inr (Or.inr ⟨fun _ => space_short hinput, ?_⟩))⟩
  apply noWrap_of_lt
  · decide
  · intro o ho
    obtain rfl := List.mem_singleton.mp ho
    decide

/-- With long tags the output of type 0 is written behind an empty coinbase. -/
theorem type0_doubled_longTags :
    ∃ s', generateCoinbaseTxns poolUtils (taggedConfig 64 20) oneOutputJob false = some s' ∧
      ¬ JoinsTo (s'.coinbase 0) 312500000 := by
  obtain ⟨input, script, hinput, hw, hgen, -⟩ := generateCoinbaseTxns_eq documented_poolUtils
    (fits_taggedConfig (by norm_num : 64 ≤ 64) (by norm_num : 20 ≤ 64))
    (poolAddrScript_taggedConfig 64 20) (commits_freshJob 312500000 [⟨312500000, minerScript⟩])
  refine ⟨_, hgen false, fun hjoins => ?_⟩
  obtain ⟨h1, h2⟩ := coinb1Bin_eq (readsAs_typeDraft hw false 0)
  rcases (joinsTo_iff hw false h1 h2).mp hjoins with h | ⟨h, -⟩
  · cases h
  · rw [space_long hinput] at h
    exact absurd (h rfl) Bool.false_ne_true

end Gateway
