import Unlucky21.Gateway.Coinbaser

/-!
# The two passes over the outputs

The first pass counts, the second writes, and both repeat one greedy selection:
`selectFrom`. The second pass is a fold over what is selected. Of type 2's
selection the front goes to coinb1; the extranonce output closes coinb1 wherever
in the pass it is written.
-/

namespace Gateway

open Wire CText Greedy

def Output.value (o : Output) : ℕ := o.valueSats.toNat

def Output.txOut (o : Output) : TxOut := ⟨o.valueSats.toNat, o.outputScript⟩

/-- The outputs a type takes from position `k` on, with their positions. -/
def selectFrom (coinbaseValue : UInt64) (k : ℕ) (i : ℤ) (mval : UInt64) (l : List Output) :
    List (ℕ × Output) :=
  take (2 ^ 64) Output.cost Output.value 30 coinbaseValue.toNat k i mval.toNat l

variable {coinbaseValue : UInt64}

theorem cost_nonneg (o : Output) : 9 ≤ o.cost := by
  unfold Output.cost
  omega

/-- The code's test is the selection's. -/
theorem test_iff {i : ℤ} {mval : UInt64} {o : Output} :
    o.cost ≤ i ∧ mval + o.valueSats ≤ coinbaseValue ↔
      Fits (2 ^ 64) Output.cost Output.value coinbaseValue.toNat i mval.toNat o := by
  rw [Fits, UInt64.le_iff_toNat_le, UInt64.toNat_add]
  rfl

theorem stops_iff {i : ℤ} {mval : UInt64} :
    Stops 30 coinbaseValue.toNat i mval.toNat ↔ i < 30 ∨ coinbaseValue ≤ mval := by
  rw [Stops, UInt64.le_iff_toNat_le]

theorem toNat_add_value (mval : UInt64) (o : Output) :
    (mval + o.valueSats).toNat = (mval.toNat + o.value) % 2 ^ 64 :=
  UInt64.toNat_add _ _

theorem selectFrom_cons_of_test {k : ℕ} {i : ℤ} {mval : UInt64} {o : Output} {rest : List Output}
    (h : o.cost ≤ i ∧ mval + o.valueSats ≤ coinbaseValue) :
    selectFrom coinbaseValue k i mval (o :: rest) =
      (k, o) :: if i - o.cost < 30 ∨ coinbaseValue ≤ mval + o.valueSats then []
        else selectFrom coinbaseValue (k + 1) (i - o.cost) (mval + o.valueSats) rest := by
  rw [selectFrom, take, if_pos (test_iff.mp h), ← toNat_add_value]
  simp only [stops_iff, selectFrom]

theorem selectFrom_cons_of_not_test {k : ℕ} {i : ℤ} {mval : UInt64} {o : Output}
    {rest : List Output} (h : ¬ (o.cost ≤ i ∧ mval + o.valueSats ≤ coinbaseValue)) :
    selectFrom coinbaseValue k i mval (o :: rest) = selectFrom coinbaseValue (k + 1) i mval rest := by
  rw [selectFrom, take, if_neg (mt test_iff.mpr h)]
  rfl

/-! ## Counting -/

theorem m_countOutputs {special : Bool} : ∀ (l : List Output) (c : Count) (k : ℕ),
    (countOutputs coinbaseValue special l c).m =
      c.m + (selectFrom coinbaseValue k c.i c.mval l).length
  | [], _, _ => rfl
  | o :: rest, c, k => by
      rw [countOutputs]
      split
      next h =>
        rw [selectFrom_cons_of_test h]
        by_cases hstop : c.i - o.cost < 30 ∨ coinbaseValue ≤ c.mval + o.valueSats
        · rcases hstop with hlow | hfull
          · simp [hlow]
          · simp [hfull]
        · obtain ⟨hlow, hfull⟩ := not_or.mp hstop
          simp only [hlow, hfull, or_self, if_false]
          rw [m_countOutputs rest _ (k + 1)]
          simp only [List.length_cons]
          omega
      next h =>
        rw [selectFrom_cons_of_not_test h]
        exact m_countOutputs rest c (k + 1)

/-- Only type 2 puts outputs into coinb1. -/
theorem c1cnt_countOutputs : ∀ (l : List Output) (c : Count),
    (countOutputs coinbaseValue false l c).c1cnt = c.c1cnt
  | [], _ => rfl
  | o :: rest, c => by
      rw [countOutputs]
      split
      next h =>
        simp only [Bool.false_and]
        split
        · rfl
        · split
          · rfl
          · exact c1cnt_countOutputs rest _
      next h => exact c1cnt_countOutputs rest c

/-! ## Writing -/

variable {u : DatumUtils} {enPrefix : UInt16} {c1cnt : ℕ} {special : Bool}

/-- One output of the second pass. -/
def Writing.write (u : DatumUtils) (enPrefix : UInt16) (c1cnt : ℕ) (special : Bool) (w : Writing)
    (p : ℕ × Output) : Writing :=
  { w with j := w.j - p.2.cost, m := w.m - 1, mval := w.mval + p.2.valueSats }.place
    u enPrefix c1cnt special p.1 p.2

section

variable (u : DatumUtils) (enPrefix : UInt16) (c1cnt : ℕ) (special : Bool)

/-- Where an output is put does not change the counters. -/
theorem counters_write (w : Writing) (p : ℕ × Output) :
    (w.write u enPrefix c1cnt special p).j = w.j - p.2.cost ∧
      (w.write u enPrefix c1cnt special p).m = w.m - 1 ∧
      (w.write u enPrefix c1cnt special p).mval = w.mval + p.2.valueSats := by
  unfold Writing.write Writing.place
  split_ifs <;> exact ⟨rfl, rfl, rfl⟩

theorem writeOutputs_cons_of_test {k : ℕ} {o : Output} {rest : List Output} {w : Writing}
    (h : o.cost ≤ w.j ∧ w.mval + o.valueSats ≤ coinbaseValue) (hm : w.m ≠ 1) :
    writeOutputs u enPrefix coinbaseValue c1cnt special k (o :: rest) w =
      if w.j - o.cost < 30 ∨ coinbaseValue ≤ w.mval + o.valueSats then
        w.write u enPrefix c1cnt special (k, o)
      else writeOutputs u enPrefix coinbaseValue c1cnt special (k + 1) rest
        (w.write u enPrefix c1cnt special (k, o)) := by
  obtain ⟨hj, hcount, hmval⟩ := counters_write u enPrefix c1cnt special w (k, o)
  have hne : ¬ (w.write u enPrefix c1cnt special (k, o)).m = 0 := by omega
  have hstep : writeOutputs u enPrefix coinbaseValue c1cnt special k (o :: rest) w =
      (let w' := w.write u enPrefix c1cnt special (k, o)
       if w'.m = 0 then w'
       else if w'.j < 30 then w'
       else if coinbaseValue ≤ w'.mval then w'
       else writeOutputs u enPrefix coinbaseValue c1cnt special (k + 1) rest w') := by
    rw [writeOutputs, if_pos h]
    rfl
  simp only [hstep, hne, if_false, hj, hmval]
  by_cases hlow : w.j - o.cost < 30
  · simp [hlow]
  · simp [hlow]

/-- **The second pass** is a fold over the selection; the count it carries never
runs out. -/
theorem writeOutputs_eq_foldl : ∀ (l : List Output) (k : ℕ) (w : Writing),
    ((selectFrom coinbaseValue k w.j w.mval l).length : ℤ) < w.m →
      writeOutputs u enPrefix coinbaseValue c1cnt special k l w =
        (selectFrom coinbaseValue k w.j w.mval l).foldl
          (Writing.write u enPrefix c1cnt special) w
  | [], _, _, _ => rfl
  | o :: rest, k, w, hm => by
      by_cases h : o.cost ≤ w.j ∧ w.mval + o.valueSats ≤ coinbaseValue
      · obtain ⟨hj, hcount, hmval⟩ := counters_write u enPrefix c1cnt special w (k, o)
        rw [selectFrom_cons_of_test h] at hm ⊢
        rw [List.length_cons] at hm
        rw [writeOutputs_cons_of_test u enPrefix c1cnt special h (by omega), List.foldl_cons]
        split
        next => rfl
        next hgo =>
          rw [if_neg hgo] at hm
          have hleft : ((selectFrom coinbaseValue (k + 1)
              (w.write u enPrefix c1cnt special (k, o)).j
              (w.write u enPrefix c1cnt special (k, o)).mval rest).length : ℤ) <
              (w.write u enPrefix c1cnt special (k, o)).m := by
            rw [hj, hmval, hcount]
            push_cast at hm
            show ((selectFrom coinbaseValue (k + 1) (w.j - o.cost) (w.mval + o.valueSats)
              rest).length : ℤ) < w.m - 1
            omega
          rw [writeOutputs_eq_foldl rest (k + 1) _ hleft, hj, hmval]
      · rw [selectFrom_cons_of_not_test h] at hm ⊢
        rw [writeOutputs, if_neg h]
        exact writeOutputs_eq_foldl rest (k + 1) w hm

end

/-- The total the second pass ends with. -/
theorem mval_foldl_write (l : List (ℕ × Output)) (w : Writing) :
    (l.foldl (Writing.write u enPrefix c1cnt special) w).mval.toNat =
      (w.mval.toNat + taken Output.value l) % 2 ^ 64 := by
  induction l generalizing w with
  | nil =>
      have := w.mval.toNat_lt
      simp [Nat.mod_eq_of_lt this]
  | cons p l ih =>
      rw [List.foldl_cons, ih, (counters_write u enPrefix c1cnt special w p).2.2, toNat_add_value, taken_cons,
        Nat.mod_add_mod, add_assoc]

/-! ## Which half an output goes to -/

/-- Several outputs in a row. -/
def Half.outputs (u : DatumUtils) (h : Half) (outs : List TxOut) : Half :=
  outs.foldl (fun h o => h.output u o.value o.script) h

@[simp] theorem Half.outputs_nil (h : Half) : h.outputs u [] = h := rfl

@[simp] theorem Half.outputs_cons (h : Half) (o : TxOut) (outs : List TxOut) :
    h.outputs u (o :: outs) = (h.output u o.value o.script).outputs u outs := rfl

def firstHalf (c1cnt : ℕ) (special : Bool) (l : List (ℕ × Output)) : List TxOut :=
  (l.filter fun p => special && decide (p.1 < c1cnt)).map fun p => p.2.txOut

def secondHalf (c1cnt : ℕ) (special : Bool) (l : List (ℕ × Output)) : List TxOut :=
  (l.filter fun p => !(special && decide (p.1 < c1cnt))).map fun p => p.2.txOut

theorem firstHalf_cons {p : ℕ × Output} {l : List (ℕ × Output)} :
    firstHalf c1cnt special (p :: l) =
      if special && decide (p.1 < c1cnt) then p.2.txOut :: firstHalf c1cnt special l
      else firstHalf c1cnt special l := by
  rw [firstHalf, List.filter_cons]
  split <;> rfl

theorem secondHalf_cons {p : ℕ × Output} {l : List (ℕ × Output)} :
    secondHalf c1cnt special (p :: l) =
      if special && decide (p.1 < c1cnt) then secondHalf c1cnt special l
      else p.2.txOut :: secondHalf c1cnt special l := by
  rw [secondHalf, List.filter_cons]
  cases special && decide (p.1 < c1cnt) <;> rfl

theorem c2_foldl_write (l : List (ℕ × Output)) (w : Writing) :
    (l.foldl (Writing.write u enPrefix c1cnt special) w).draft.c2 =
      w.draft.c2.outputs u (secondHalf c1cnt special l) := by
  induction l generalizing w with
  | nil => rfl
  | cons p l ih =>
      rw [List.foldl_cons, ih, secondHalf_cons, Writing.write, Writing.place]
      split
      · rfl
      · split <;> rfl

/-- Behind coinb1's outputs nothing more goes there. -/
theorem c1_foldl_write_of_lt (u : DatumUtils) (enPrefix : UInt16) {l : List (ℕ × Output)}
    (w : Writing)
    (h : special = true → ∀ p ∈ l, c1cnt < p.1) :
    (l.foldl (Writing.write u enPrefix c1cnt special) w).draft.c1 = w.draft.c1 ∧
      (l.foldl (Writing.write u enPrefix c1cnt special) w).enDone = w.enDone := by
  induction l generalizing w with
  | nil => exact ⟨rfl, rfl⟩
  | cons p l ih =>
      have htail : special = true → ∀ q ∈ l, c1cnt < q.1 :=
        fun hs q hq => h hs q (List.mem_cons_of_mem _ hq)
      have hp : (special && decide (p.1 < c1cnt)) = false := by
        cases hs : special
        · rfl
        · have := h hs p List.mem_cons_self
          simp
          omega
      have hk : (special && decide (p.1 = c1cnt)) = false := by
        cases hs : special
        · rfl
        · have := h hs p List.mem_cons_self
          simp
          omega
      obtain ⟨hc1, hdone⟩ := ih (w.write u enPrefix c1cnt special p) htail
      rw [List.foldl_cons, hc1, hdone]
      simp [Writing.write, Writing.place, hp, hk]

/-- The extranonce output, if the pass has not written it. -/
def Writing.closed (w : Writing) (enPrefix : UInt16) : Half :=
  if !w.enDone then w.draft.c1.extranonce enPrefix.toNat else w.draft.c1

/-- coinb1 of type 2: its outputs, then the extranonce output. -/
theorem closed_foldl_write {l : List (ℕ × Output)} (hl : l.Pairwise fun p q => p.1 < q.1)
    (w : Writing) (hdone : w.enDone = false) :
    (l.foldl (Writing.write u enPrefix c1cnt true) w).closed enPrefix =
      (w.draft.c1.outputs u (firstHalf c1cnt true l)).extranonce enPrefix.toNat := by
  induction l generalizing w with
  | nil => simp [Writing.closed, hdone, firstHalf]
  | cons p l ih =>
      rw [List.pairwise_cons] at hl
      rw [List.foldl_cons]
      rcases lt_trichotomy p.1 c1cnt with hlt | heq | hgt
      · rw [ih hl.2 _ (by simp [Writing.write, Writing.place, hlt, hdone])]
        simp [Writing.write, Writing.place, hlt, firstHalf_cons, Output.txOut]
      · -- the pass closes coinb1 here, and everything behind goes to coinb2
        have hbehind : ∀ q ∈ l, c1cnt < q.1 := fun q hq => heq ▸ hl.1 q hq
        have hnone : firstHalf c1cnt true l = [] := by
          rw [firstHalf, List.map_eq_nil_iff, List.filter_eq_nil_iff]
          intro q hq
          have := hbehind q hq
          simp only [Bool.true_and, decide_eq_true_eq]
          omega
        obtain ⟨hc1, hd⟩ := c1_foldl_write_of_lt u enPrefix
          (w.write u enPrefix c1cnt true p) (fun _ => hbehind)
        have hfirst : firstHalf c1cnt true (p :: l) = [] := by
          simp [firstHalf_cons, heq, hnone]
        rw [Writing.closed, hd, hc1, hfirst]
        simp [Writing.write, Writing.place, heq]
      · have hskip : firstHalf c1cnt true (p :: l) = firstHalf c1cnt true l := by
          simp [firstHalf_cons, hgt.not_gt]
        have hne : p.1 ≠ c1cnt := hgt.ne'
        rw [ih hl.2 _ (by simp [Writing.write, Writing.place, hgt.not_gt, hne, hdone]), hskip]
        simp [Writing.write, Writing.place, hgt.not_gt, hne]

end Gateway
