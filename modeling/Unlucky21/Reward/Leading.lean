import Unlucky21.Reward.Outage

/-!
# Who leads

The list `GetTop21` returns, from the stored shares alone: the eligible addresses
of the best scores in order, equal scores in the order the database has them in.
There is only one such list.
-/

namespace Reward

open Wire Query

/-- The place of an address in the order the database has the rows in. -/
def tiePlace (rows : List ShareRow) (now : Time) (scan : List Text) (a : Text) : ℕ :=
  (scan ++ recentAddresses rows now).idxOf a

/-- By a better score, or by the place in the database among equal scores. -/
def Outranks (rows : List ShareRow) (now : Time) (scan : List Text) (a b : Text) : Prop :=
  ∃ v w, Score rows a v ∧ Score rows b w ∧
    (w < v ∨ w = v ∧ tiePlace rows now scan a < tiePlace rows now scan b)

/-- `as` are the 21 eligible addresses of the best scores, in order. -/
structure Leading (rows : List ShareRow) (now : Time) (scan as : List Text) : Prop where
  fit : ScoresFit rows
  scored : ∀ a, Eligible rows now a → ∃ v, Score rows a v
  eligible : ∀ a ∈ as, Eligible rows now a
  length : as.length = min 21 {a | Eligible rows now a}.ncard
  sorted : as.Pairwise (Outranks rows now scan)
  leftOut : ∀ a ∈ as, ∀ b, Eligible rows now b → b ∉ as → Outranks rows now scan a b

variable {rows : List ShareRow} {now : Time} {scan as bs : List Text}

theorem Outranks.asymm {a b : Text} (h : Outranks rows now scan a b) :
    ¬ Outranks rows now scan b a := by
  obtain ⟨v, w, hv, hw, hlt⟩ := h
  rintro ⟨w', v', hw', hv', hlt'⟩
  obtain rfl := hv.unique hv'
  obtain rfl := hw.unique hw'
  omega

theorem Leading.unique (h : Leading rows now scan as) (h' : Leading rows now scan bs) : as = bs :=
  eq_of_leftOut Outranks.asymm h.sorted h'.sorted (h.length.trans h'.length.symm)
    (fun a ha b hb => h.leftOut a ha b (h'.eligible b hb))
    fun b hb a ha => h'.leftOut b hb a (h.eligible a ha)

theorem tiePlace_lt {a b : Text} (hle : scan.idxOf a ≤ scan.idxOf b)
    (htie : scan.idxOf b ≤ scan.idxOf a →
      (recentAddresses rows now).idxOf a < (recentAddresses rows now).idxOf b) :
    tiePlace rows now scan a < tiePlace rows now scan b := by
  unfold tiePlace
  by_cases hb : b ∈ scan
  · have ha : a ∈ scan := List.idxOf_lt_length_iff.mp (hle.trans_lt (List.idxOf_lt_length_iff.mpr hb))
    rw [List.idxOf_append_of_mem ha, List.idxOf_append_of_mem hb]
    refine lt_of_le_of_ne hle fun heq => ?_
    obtain rfl := (List.idxOf_inj ha).mp heq
    exact lt_irrefl _ (htie le_rfl)
  · rw [List.idxOf_append_of_notMem hb]
    by_cases ha : a ∈ scan
    · rw [List.idxOf_append_of_mem ha]
      exact (List.idxOf_lt_length_iff.mpr ha).trans_le (Nat.le_add_right _ _)
    · rw [List.idxOf_append_of_notMem ha]
      have hback : scan.idxOf b ≤ scan.idxOf a :=
        List.idxOf_le_length.trans (List.idxOf_eq_length_iff.mpr ha).ge
      exact Nat.add_lt_add_left (htie hback) _

/-- What comes out first outranks what comes out later. -/
theorem pairwise_outranks (hscored : ∀ a, Eligible rows now a → ∃ v, Score rows a v) :
    ((recentAddresses rows now).insertionSort fun a b => rankedBefore rows scan a b).Pairwise
      (Outranks rows now scan) := by
  have := rankedBefore_total rows scan
  have := rankedBefore_trans rows scan
  have hstable := pairwise_insertionSort_stable (r := fun a b => rankedBefore rows scan a b = true)
    (nodup_recentAddresses rows now)
  have hrecent : ∀ {c}, c ∈ (recentAddresses rows now).insertionSort
      (fun a b => rankedBefore rows scan a b) → Eligible rows now c :=
    fun hc => mem_recentAddresses.mp ((List.perm_insertionSort _ _).mem_iff.mp hc)
  refine hstable.imp_of_mem fun {a b} ha hb ⟨hbefore, htie⟩ => ?_
  obtain ⟨v, hv⟩ := hscored a (hrecent ha)
  obtain ⟨w, hw⟩ := hscored b (hrecent hb)
  simp only [rankedBefore_iff, alltimeBest_eq_some_iff.mpr hv, alltimeBest_eq_some_iff.mpr hw,
    sortKey, Option.some.injEq] at hbefore htie
  refine ⟨v, w, hv, hw, hbefore.imp WithTop.coe_lt_coe.mp ?_⟩
  rintro ⟨rfl, hle⟩
  exact ⟨rfl, tiePlace_lt hle fun hback => htie (.inr ⟨rfl, hback⟩)⟩

theorem leading_take (hfit : ScoresFit rows)
    (hscored : ∀ a, Eligible rows now a → ∃ v, Score rows a v) :
    Leading rows now scan (((recentAddresses rows now).insertionSort
      fun a b => rankedBefore rows scan a b).take 21) := by
  set out := (recentAddresses rows now).insertionSort fun a b => rankedBefore rows scan a b with hout
  have hperm : out.Perm (recentAddresses rows now) := List.perm_insertionSort _ _
  have hpair : out.Pairwise (Outranks rows now scan) := pairwise_outranks hscored
  refine ⟨hfit, hscored, fun a ha => ?_, ?_, hpair.sublist (List.take_sublist _ _), ?_⟩
  · exact mem_recentAddresses.mp (hperm.mem_iff.mp (List.mem_of_mem_take ha))
  · rw [List.length_take, hperm.length_eq, ncard_eligible]
  · intro a ha b hb hnot
    have hmem : b ∈ out.take 21 ++ out.drop 21 := by
      rw [List.take_append_drop]
      exact hperm.mem_iff.mpr (mem_recentAddresses.mpr hb)
    rw [← List.take_append_drop 21 out, List.pairwise_append] at hpair
    exact hpair.2.2 a ha b ((List.mem_append.mp hmem).resolve_left hnot)

/-- **Who is on the board.** The query returns exactly the addresses that lead, and
nothing where a score cannot be cast or an eligible address has none. -/
theorem map_getTop21_eq_ok_iff {db : Db} {roundID : ℕ} {as : List Text} :
    (getTop21 db roundID now scan).map (List.map Entry.btcAddress) = .ok as ↔
      Leading (liveShares db.shares roundID) now scan as := by
  constructor
  · intro h
    cases hres : getTop21 db roundID now scan with
    | error err =>
        rw [hres] at h
        cases h
    | ok entries =>
        obtain ⟨hfit, hscored⟩ := scored_of_getTop21 hres
        rw [getTop21_of_scored hfit hscored] at h
        obtain rfl := Except.ok.inj h
        simpa [entryOf, Function.comp_def] using leading_take hfit hscored
  · intro h
    rw [getTop21_of_scored h.fit h.scored]
    refine congrArg Except.ok ?_
    simpa [entryOf, Function.comp_def] using (leading_take h.fit h.scored).unique h

end Reward
