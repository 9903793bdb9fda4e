import Unlucky21.Gateway.WellFormed

/-!
# What one type serializes

`subtypeBySize` on its own: for every budget, every layout and whatever coinb1
holds already, the count it declares is the number of outputs it writes, and
these are the selection, cut in two, with the rest of the coinbase value and the
commitments behind it.
-/

namespace Gateway

open Wire CText Greedy Half

/-! ## The cut -/

/-- In a list of increasing positions, those below `n` are the front. -/
theorem exists_cut {α : Type*} {sel : List (ℕ × α)} (h : sel.Pairwise fun p q => p.1 < q.1)
    (n : ℕ) : ∃ k, (sel.filter fun p => p.1 < n) = sel.take k ∧
      (sel.filter fun p => !decide (p.1 < n)) = sel.drop k := by
  induction sel with
  | nil => exact ⟨0, rfl, rfl⟩
  | cons p sel ih =>
      obtain ⟨hp, hsel⟩ := List.pairwise_cons.mp h
      by_cases hlt : p.1 < n
      · obtain ⟨k, hfront, hback⟩ := ih hsel
        exact ⟨k + 1, by simp [hlt, hfront], by simp [hlt, hback]⟩
      · have hge : ∀ q ∈ sel, ¬ q.1 < n := fun q hq => by
          have := hp q hq
          omega
        refine ⟨0, ?_, ?_⟩
        · rw [List.take_zero, List.filter_eq_nil_iff]
          intro q hq
          rcases List.mem_cons.mp hq with rfl | hq
          · simpa using hlt
          · simpa using hge q hq
        · rw [List.drop_zero, List.filter_eq_self]
          intro q hq
          rcases List.mem_cons.mp hq with rfl | hq
          · simpa using hlt
          · simpa using hge q hq

/-- What goes to coinb1 is a front of the selection. -/
theorem exists_cut_halves {sel : List (ℕ × Output)} (h : sel.Pairwise fun p q => p.1 < q.1) (n : ℕ)
    (special : Bool) : ∃ k,
      firstHalf n special sel = ((sel.map Prod.snd).take k).map Output.txOut ∧
        secondHalf n special sel = ((sel.map Prod.snd).drop k).map Output.txOut := by
  cases special with
  | false =>
      refine ⟨0, by simp [firstHalf], ?_⟩
      simp [secondHalf, Function.comp_def]
  | true =>
      obtain ⟨k, hfront, hback⟩ := exists_cut h n
      refine ⟨k, ?_, ?_⟩
      · simp only [firstHalf, Bool.true_and, hfront, List.map_take, List.map_map, Function.comp_def]
      · simp only [secondHalf, Bool.true_and, hback, List.map_drop, List.map_map, Function.comp_def]

/-! ## Declared and serialized -/

/-- The draft continues `pre`, pays `front` in coinb1 and `back` in coinb2, and
declares as many outputs as it serializes: with the extranonce in the scriptSig
coinb1 stays as it was and coinb2 declares, else coinb1 declares, counting the
extranonce output it ends with. -/
def Draft.Declares (u : DatumUtils) (d : Draft) (enPrefix : UInt16) (inScript : Bool) (pre : Bytes)
    (front back : List TxOut) : Prop :=
  d.c2.cursor.Terminated ∧
    if inScript then
      front = [] ∧ d.c1.Reads u pre ∧ d.c2.Reads u (seqTail back.length back)
    else
      d.c1.cursor.Terminated ∧
        d.c1.Reads u (pre ++ compactSize (front.length + 1 + back.length) ++ serOuts front ++
          extranonceHead enPrefix.toNat) ∧
        d.c2.Reads u (outTail back)

variable {u : DatumUtils} {s : StratumJob} {wit pre : Bytes} {remaining : ℤ}

theorem declares_subtypeBySize (hu : u.Documented) (hpool : s.poolAddrScript.length ≤ 64)
    (hwit : Commits u s.blockTemplate.defaultWitnessCommitment wit) (hlt : remaining < 2 ^ 31)
    (space special : Bool) {c1 : Half} (hc1 : c1.Reads u pre) (buf : Text) :
    (subtypeBySize u s remaining space special ⟨c1, Half.start buf⟩).Declares u s.enPrefix
      (space && !special) pre
      (firstHalf (c1Count s remaining special c1.cursor.idx) special (selection s remaining))
      (secondHalf (c1Count s remaining special c1.cursor.idx) special (selection s remaining) ++
        restOuts s (selection s remaining) wit) := by
  have hlen := length_halves (c1Count s remaining special c1.cursor.idx) special
    (selection s remaining)
  have hrest : (restOuts s (selection s remaining) wit).length = 3 := rfl
  cases hlayout : space && !special with
  | true =>
      obtain ⟨rfl, rfl⟩ : space = true ∧ special = false := by simpa using hlayout
      have hall := reads_subtype_script hu hpool hwit hlt (d := ⟨c1, Half.start buf⟩)
        (reads_restart_start hu buf)
      rw [c1Count_of_not_special] at hlen ⊢
      rw [firstHalf_of_not_special, List.length_nil, zero_add] at hlen
      rw [← hlen] at hall
      refine ⟨Cursor.terminated_print _ _, firstHalf_of_not_special _ _, ?_, ?_⟩
      · rw [subtypeBySize_eq]
        exact hc1
      · rw [List.length_append, hrest]
        exact hall
  | false =>
      have hall := readsAs_subtype_output (d := ⟨c1, Half.start buf⟩) hu hpool hwit hlt space
        special hlayout hc1 (reads_start buf)
      refine ⟨hall.c2Ends, hall.c1Ends, ?_, by simpa using hall.c2⟩
      have hcount : (firstHalf (c1Count s remaining special c1.cursor.idx) special
          (selection s remaining)).length + 1 +
          (secondHalf (c1Count s remaining special c1.cursor.idx) special
            (selection s remaining) ++ restOuts s (selection s remaining) wit).length =
          (selection s remaining).length + 4 := by
        rw [List.length_append, hrest]
        omega
      rw [hcount]
      simpa [List.append_assoc] using hall.c1

/-- Without a wrapped addition the code's total is the true one. -/
theorem wrapped_eq_values (hcv : s.coinbaseValue.toNat < 2 ^ 63)
    (hvalue : ∀ o ∈ s.availableCoinbaseOutputs, o.value < 2 ^ 63) (remaining : ℤ) :
    wrapped (selection s remaining) =
      values (((selection s remaining).map Prod.snd).map Output.txOut) := by
  have hlt := (noWrap_iff s remaining).mp (noWrap_of_lt hcv hvalue remaining)
  rw [wrapped, Nat.mod_eq_of_lt hlt]
  simp [taken, values, Function.comp_def, Output.txOut, Output.value]

/-- **The two passes agree and conserve value.** The outputs serialized are some
of the available ones in their order, within the budget and a front of them in
coinb1, with what is left over and the commitments behind them; as many are
declared, and together they pay the coinbase value. -/
theorem passes_agree (hu : u.Documented) (hpool : s.poolAddrScript.length ≤ 64)
    (hwit : Commits u s.blockTemplate.defaultWitnessCommitment wit)
    (hcv : s.coinbaseValue.toNat < 2 ^ 63)
    (hvalue : ∀ o ∈ s.availableCoinbaseOutputs, o.value < 2 ^ 63)
    (h0 : 0 ≤ remaining) (hlt : remaining < 2 ^ 31) (space special : Bool)
    {c1 : Half} (hc1 : c1.Reads u pre) (buf : Text) :
    ∃ (miners : List Output) (k : ℕ),
      miners.Sublist s.availableCoinbaseOutputs ∧ (miners.map Output.cost).sum ≤ remaining ∧
        (subtypeBySize u s remaining space special ⟨c1, Half.start buf⟩).Declares u s.enPrefix
          (space && !special) pre ((miners.take k).map Output.txOut)
          ((miners.drop k).map Output.txOut ++
            lastOut s (values (miners.map Output.txOut)) :: commitmentOuts wit) ∧
        values ((miners.take k).map Output.txOut) + values ((miners.drop k).map Output.txOut ++
          lastOut s (values (miners.map Output.txOut)) :: commitmentOuts wit) =
            s.coinbaseValue.toNat := by
  have hpair : (selection s remaining).Pairwise fun p q => p.1 < q.1 := pairwise_take _ _ _ _
  obtain ⟨k, hfront, hback⟩ := exists_cut_halves hpair
    (c1Count s remaining special c1.cursor.idx) special
  have hwrapped := wrapped_eq_values hcv hvalue remaining
  have hdeclares := declares_subtypeBySize hu hpool hwit hlt space special hc1 buf
  rw [hfront, hback, restOuts, hwrapped] at hdeclares
  refine ⟨(selection s remaining).map Prod.snd, k, take_sublist _ _ _ _, ?_, hdeclares, ?_⟩
  · rw [List.map_map]
    exact cost_take_le _ _ _ _ h0
  · have hlast := value_lastOut (wrapped_le s remaining)
    rw [hwrapped] at hlast
    rw [values_append, values_cons, values_commitmentOuts, add_zero, ← add_assoc, ← values_append,
      ← List.map_append, List.take_append_drop]
    exact hlast

/-- A job for two miners. -/
def twoOutputJob : StratumJob := freshJob 312500000 [⟨100000000, minerScript⟩, ⟨200000000, minerScript⟩]

theorem passes_agree_twoOutputJob :
    ∃ (miners : List Output) (k : ℕ),
      miners.Sublist twoOutputJob.availableCoinbaseOutputs ∧ (miners.map Output.cost).sum ≤ 755 ∧
        (subtypeBySize poolUtils twoOutputJob 755 true true ⟨Half.start [], Half.start []⟩).Declares
          poolUtils twoOutputJob.enPrefix false [] ((miners.take k).map Output.txOut)
          ((miners.drop k).map Output.txOut ++ lastOut twoOutputJob
            (values (miners.map Output.txOut)) :: commitmentOuts witnessScript) ∧
        values ((miners.take k).map Output.txOut) + values ((miners.drop k).map Output.txOut ++
          lastOut twoOutputJob (values (miners.map Output.txOut)) ::
            commitmentOuts witnessScript) = 312500000 := by
  refine passes_agree (s := twoOutputJob) documented_poolUtils (by decide)
    (commits_freshJob 312500000 _) (by decide) ?_ (by decide) (by decide) true true
    (reads_start []) []
  intro o ho
  rcases List.mem_cons.mp ho with rfl | ho
  · decide
  · obtain rfl := List.mem_singleton.mp ho
    decide

end Gateway
