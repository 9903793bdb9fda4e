import Unlucky21.Lib.Query
import Unlucky21.Reward.Leaderboard

/-!
# Standings

What a leaderboard is about, for any collection of shares: which addresses are
eligible, when their session started and what their score is. The functions the
query is made of compute exactly these.
-/

namespace Reward

open Wire Query

/-! ## Sessions and scores -/

/-- The times at which an address submitted a share. -/
def submissions (rows : List ShareRow) (a : Text) : Set Time :=
  {t | ∃ r ∈ rows, r.btcAddress = a ∧ r.submittedAt = t}

/-- A share less than seven days old. -/
def Eligible (rows : List ShareRow) (now : Time) (a : Text) : Prop :=
  ∃ t ∈ submissions rows a, now - t < sevenDays

/-- A share that follows the one before it by more than seven days. -/
def Resumes (rows : List ShareRow) (a : Text) (t : Time) : Prop :=
  t ∈ submissions rows a ∧
    ∃ p, IsGreatest {q ∈ submissions rows a | q < t} p ∧ sevenDays < t - p

def SessionStart (rows : List ShareRow) (a : Text) (t : Time) : Prop :=
  IsGreatest {t | Resumes rows a t} t

/-- A share of the address since its session start; without one, any share. -/
def InSession (rows : List ShareRow) (a : Text) (r : ShareRow) : Prop :=
  r ∈ rows ∧ r.btcAddress = a ∧ ∀ t, SessionStart rows a t → t ≤ r.submittedAt

def Score (rows : List ShareRow) (a : Text) (v : ℤ) : Prop :=
  IsGreatest {d | ∃ r, InSession rows a r ∧ r.trueDifficulty = some d} v

theorem Score.unique {rows : List ShareRow} {a : Text} {v w : ℤ} (hv : Score rows a v)
    (hw : Score rows a w) : v = w :=
  IsGreatest.unique hv hw

/-- What a list of the best 21 has to be. -/
structure Top21Exact (rows : List ShareRow) (now : Time) (entries : List Entry) : Prop where
  length : entries.length = min 21 {a | Eligible rows now a}.ncard
  nodup : (entries.map Entry.btcAddress).Nodup
  eligible : ∀ e ∈ entries, Eligible rows now e.btcAddress
  sorted : entries.Pairwise fun e f => f.bestShareDifficulty ≤ e.bestShareDifficulty
  score : ∀ e ∈ entries, Score rows e.btcAddress e.bestShareDifficulty
  lastActivity : ∀ e ∈ entries,
    IsGreatest {t ∈ submissions rows e.btcAddress | now - t < sevenDays} e.lastActivity
  rank : ∀ e ∈ entries, e.rank =
    1 + {b | Eligible rows now b ∧ ∃ v, Score rows b v ∧ e.bestShareDifficulty < v}.ncard
  leftOut : ∀ a, Eligible rows now a → a ∉ entries.map Entry.btcAddress →
    ∀ v, Score rows a v → ∀ e ∈ entries, v ≤ e.bestShareDifficulty

/-! ## What the query computes -/

theorem max?_eq_some_iff_isGreatest {l : List ℤ} {m : ℤ} :
    l.max? = some m ↔ IsGreatest {x | x ∈ l} m :=
  List.max?_eq_some_iff

theorem mem_ofAddress {rows : List ShareRow} {a : Text} {r : ShareRow} :
    r ∈ ofAddress rows a ↔ r ∈ rows ∧ r.btcAddress = a := by
  simp [ofAddress]

theorem mem_submissions {rows : List ShareRow} {a : Text} {t : Time} :
    t ∈ (ofAddress rows a).map ShareRow.submittedAt ↔ t ∈ submissions rows a := by
  simp [submissions, mem_ofAddress, and_assoc]

theorem nodup_recentAddresses (rows : List ShareRow) (now : Time) :
    (recentAddresses rows now).Nodup := List.nodup_dedup _

theorem mem_recentAddresses {rows : List ShareRow} {now : Time} {a : Text} :
    a ∈ recentAddresses rows now ↔ Eligible rows now a := by
  simp only [recentAddresses, List.mem_dedup, List.mem_map, recentShares, List.mem_filter,
    decide_eq_true_eq, Eligible, submissions, Set.mem_ofPred_eq]
  constructor
  · rintro ⟨r, ⟨hr, ht⟩, rfl⟩
    exact ⟨_, ⟨r, hr, rfl, rfl⟩, sub_lt_comm.mp ht⟩
  · rintro ⟨_, ⟨r, hr, rfl, rfl⟩, ht⟩
    exact ⟨r, ⟨hr, sub_lt_comm.mp ht⟩, rfl⟩

/-- The times `session_starts` takes the latest of. -/
theorem mem_gapTimes {rows : List ShareRow} {a : Text} {t : Time} :
    let times := ((ofAddress rows a).map ShareRow.submittedAt).insertionSort (· ≤ ·)
    t ∈ ((times.zip times.tail).filter fun p => sevenDays < p.2 - p.1).map Prod.snd ↔
      Resumes rows a t := by
  intro times
  have hpair : ∀ {p}, p < t → ((p, t) ∈ times.zip times.tail ↔
      p ∈ submissions rows a ∧ t ∈ submissions rows a ∧
        ∀ q ∈ submissions rows a, q ≤ p ∨ t ≤ q) := by
    intro p hlt
    rw [← filterMap_lag]
    simp only [List.mem_filterMap, Option.map_eq_some_iff, Prod.mk.injEq, Prod.exists]
    rw [← mem_submissions, ← mem_submissions]
    simp only [← mem_submissions]
    rw [← mem_lag_insertionSort_iff hlt]
    constructor
    · rintro ⟨t', _, hmem, q, rfl, rfl, rfl⟩
      exact hmem
    · intro hmem
      exact ⟨t, some p, hmem, p, rfl, rfl, rfl⟩
  simp only [List.mem_map, List.mem_filter, decide_eq_true_eq, Prod.exists,
    exists_eq_right, Resumes]
  have hpos : 0 < sevenDays := by decide
  constructor
  · rintro ⟨p, hmem, hgap⟩
    have hlt : p < t := sub_pos.mp (hpos.trans hgap)
    obtain ⟨hp, ht, hbetween⟩ := (hpair hlt).mp hmem
    refine ⟨ht, p, ⟨⟨hp, hlt⟩, fun q hq => ?_⟩, hgap⟩
    exact (hbetween q hq.1).resolve_right (not_le.mpr hq.2)
  · rintro ⟨ht, p, ⟨⟨hp, hlt⟩, hmax⟩, hgap⟩
    refine ⟨p, (hpair hlt).mpr ⟨hp, ht, fun q hq => ?_⟩, hgap⟩
    exact (lt_or_ge q t).imp (fun hqt => hmax ⟨hq, hqt⟩) id

theorem sessionStart_eq_some_iff {rows : List ShareRow} {a : Text} {t : Time} :
    sessionStart rows a = some t ↔ SessionStart rows a t := by
  rw [sessionStart, max?_eq_some_iff_isGreatest]
  simp only [mem_gapTimes, SessionStart]

theorem mem_sessionShares {rows : List ShareRow} {a : Text} {r : ShareRow} :
    r ∈ sessionShares rows a ↔ InSession rows a r := by
  rw [InSession, sessionShares]
  simp only [← sessionStart_eq_some_iff]
  cases hstart : sessionStart rows a with
  | none => simp [mem_ofAddress]
  | some t => simp [mem_ofAddress, and_assoc]

theorem alltimeBest_eq_some_iff {rows : List ShareRow} {a : Text} {v : ℤ} :
    alltimeBest rows a = some v ↔ Score rows a v := by
  rw [alltimeBest, max?_eq_some_iff_isGreatest]
  simp only [List.mem_filterMap, mem_sessionShares, Score]

/-- The session start is the time of a share, so a session is never empty. -/
theorem exists_mem_sessionShares {rows : List ShareRow} {r : ShareRow} (hr : r ∈ rows) :
    ∃ s, s ∈ sessionShares rows r.btcAddress := by
  rw [sessionShares]
  split
  next => exact ⟨r, mem_ofAddress.mpr ⟨hr, rfl⟩⟩
  next t hstart =>
    obtain ⟨⟨⟨s, hs, ha, ht⟩, -⟩, -⟩ := sessionStart_eq_some_iff.mp hstart
    exact ⟨s, List.mem_filter.mpr ⟨mem_ofAddress.mpr ⟨hs, ha⟩, by simp [ht]⟩⟩

/-- With difficulties in every row, every address has a score. -/
theorem exists_score {rows : List ShareRow} (hvalue : ∀ r ∈ rows, r.trueDifficulty.isSome)
    {r : ShareRow} (hr : r ∈ rows) : ∃ v, Score rows r.btcAddress v := by
  obtain ⟨s, hs⟩ := exists_mem_sessionShares hr
  obtain ⟨d, hd⟩ := Option.isSome_iff_exists.mp (hvalue s (mem_sessionShares.mp hs).1)
  have hmem : d ∈ (sessionShares rows r.btcAddress).filterMap ShareRow.trueDifficulty :=
    List.mem_filterMap.mpr ⟨s, hs, hd⟩
  cases hbest : alltimeBest rows r.btcAddress with
  | none =>
      rw [alltimeBest, List.max?_eq_none_iff] at hbest
      rw [hbest] at hmem
      cases hmem
  | some v => exact ⟨v, alltimeBest_eq_some_iff.mp hbest⟩

theorem lastActivity_eq_some_iff {rows : List ShareRow} {now : Time} {a : Text} {t : Time} :
    lastActivity rows now a = some t ↔
      IsGreatest {t ∈ submissions rows a | now - t < sevenDays} t := by
  have hmem : ∀ u, u ∈ (ofAddress (recentShares rows now) a).map ShareRow.submittedAt ↔
      u ∈ submissions rows a ∧ now - u < sevenDays := by
    intro u
    simp only [List.mem_map, mem_ofAddress, recentShares, List.mem_filter, decide_eq_true_eq,
      submissions, Set.mem_ofPred_eq]
    constructor
    · rintro ⟨r, ⟨⟨hr, ht⟩, rfl⟩, rfl⟩
      exact ⟨⟨r, hr, rfl, rfl⟩, sub_lt_comm.mp ht⟩
    · rintro ⟨⟨r, hr, rfl, rfl⟩, ht⟩
      exact ⟨r, ⟨⟨hr, sub_lt_comm.mp ht⟩, rfl⟩, rfl⟩
  rw [lastActivity, max?_eq_some_iff_isGreatest]
  simp only [hmem]

theorem ncard_mem_list {α : Type*} [DecidableEq α] {l : List α} (h : l.Nodup) :
    {a | a ∈ l}.ncard = l.length := by
  rw [← List.toFinset_card_of_nodup h, ← Set.ncard_coe_finset, List.coe_toFinset]

theorem ncard_eligible (rows : List ShareRow) (now : Time) :
    {a | Eligible rows now a}.ncard = (recentAddresses rows now).length := by
  rw [← ncard_mem_list (nodup_recentAddresses rows now)]
  exact congrArg Set.ncard (Set.ext fun a => mem_recentAddresses.symm)

end Reward
