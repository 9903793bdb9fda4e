import Unlucky21.Reward.Top21

/-!
# What takes the leaderboard down

`true_difficulty` may be NULL, or any number of up to 78 digits. The statement
casts the best one of a session to `BIGINT`, and Go scans it into a string: one
value from 2^63 on, or one recent address without a value, and nothing is
returned at all.
-/

namespace Reward

open Wire Query

/-- What the column admits; no share has a negative difficulty. -/
def ShareRow.Admissible (r : ShareRow) : Prop := ∀ d ∈ r.trueDifficulty, 0 ≤ d ∧ d < 10 ^ 78

/-- Some share of the address has a true difficulty. -/
def Valued (rows : List ShareRow) (a : Text) : Prop :=
  ∃ r ∈ rows, r.btcAddress = a ∧ r.trueDifficulty.isSome

/-- `GetTop21` answers with a list, and addresses without a true difficulty are
ranked above nobody who has one. -/
def LeaderboardUp (db : Db) (roundID : ℕ) (now : Time) : Prop :=
  (∀ res, Top21 db roundID now res → ∃ entries, res = .ok entries) ∧
    ∀ a b, Eligible (liveShares db.shares roundID) now a →
      Eligible (liveShares db.shares roundID) now b →
      ¬ Valued (liveShares db.shares roundID) a → Valued (liveShares db.shares roundID) b →
        ¬ rankOf (liveShares db.shares roundID) now a < rankOf (liveShares db.shares roundID) now b

theorem Score.valued {rows : List ShareRow} {a : Text} {v : ℤ} (h : Score rows a v) :
    Valued rows a := by
  obtain ⟨⟨r, hr, hd⟩, -⟩ := h
  exact ⟨r, hr.1, hr.2.1, by simp [hd]⟩

/-- With a NULL among the scores, a NULL comes first and fails to scan. -/
theorem mapM_scanRow_of_null {rows : List ShareRow} {now : Time} {out : List Text} {a : Text}
    (hout : OrderedDesc (fun a => sortKey (alltimeBest rows a)) (recentAddresses rows now) out)
    (ha : Eligible rows now a) (hnull : alltimeBest rows a = none) :
    ((out.map (rankedRow topColumns rows now)).take 21).mapM scanRow = .error .scan := by
  have hmem : a ∈ out := hout.1.mem_iff.mpr (mem_recentAddresses.mpr ha)
  obtain ⟨b, rest, rfl⟩ := List.exists_cons_of_ne_nil (List.ne_nil_of_mem hmem)
  have htop : sortKey (alltimeBest rows a) ≤ sortKey (alltimeBest rows b) := by
    rcases List.mem_cons.mp hmem with rfl | hmem
    · exact le_rfl
    · exact (List.pairwise_cons.mp hout.2).1 a hmem
  have hb : alltimeBest rows b = none := by
    rw [hnull] at htop
    exact top_le_iff.mp htop
  rw [List.map_cons, List.take_succ_cons, List.mapM_cons, scanRow_rankedRow, scanEntry, hb]
  rfl

theorem scanEntry_of_score {rows : List ShareRow} {now : Time} {a : Text} {v : ℤ} (ha : a ∈ recentAddresses rows now)
    (hv : Score rows a v) : scanEntry rows now a = .ok (entryOf rows now a) := by
  have hbest := alltimeBest_eq_some_iff.mpr hv
  rw [scanEntry, hbest, lastActivity_entryOf ha, entryOf, hbest]
  rfl

/-- With a score for every eligible address the query answers with the best 21. -/
theorem getTop21_of_scored {db : Db} {roundID : ℕ} {now : Time} {scan : List Text}
    (hfit : ScoresFit (liveShares db.shares roundID))
    (hscored : ∀ a, Eligible (liveShares db.shares roundID) now a →
      ∃ v, Score (liveShares db.shares roundID) a v) :
    getTop21 db roundID now scan =
      .ok ((((recentAddresses (liveShares db.shares roundID) now).insertionSort fun a b =>
        rankedBefore (liveShares db.shares roundID) scan a b).take 21).map
          (entryOf (liveShares db.shares roundID) now)) := by
  rw [getTop21, if_pos ((bigintFits_iff _).mpr hfit)]
  refine mapM_eq_ok fun a ha => ?_
  have hrecent := (List.perm_insertionSort _ _).mem_iff.mp (List.mem_of_mem_take ha)
  obtain ⟨v, hv⟩ := hscored a (mem_recentAddresses.mp hrecent)
  exact scanEntry_of_score hrecent hv

/-- It answers in no other case. -/
theorem scored_of_getTop21 {db : Db} {roundID : ℕ} {now : Time} {scan : List Text}
    {entries : List Entry}
    (h : getTop21 db roundID now scan = .ok entries) :
    ScoresFit (liveShares db.shares roundID) ∧
      ∀ a, Eligible (liveShares db.shares roundID) now a →
        ∃ v, Score (liveShares db.shares roundID) a v := by
  have htop := top21_getTop21 db roundID now scan
  have hfit : ScoresFit (liveShares db.shares roundID) := by
    by_contra hfit
    rw [(top21_of_not_fit hfit).mp htop] at h
    cases h
  refine ⟨hfit, fun a ha => ?_⟩
  cases hbest : alltimeBest (liveShares db.shares roundID) a with
  | some v => exact ⟨v, alltimeBest_eq_some_iff.mp hbest⟩
  | none =>
      rw [Top21, bigintFits_alltime, if_pos ((bigintFits_iff _).mpr hfit)] at htop
      obtain ⟨_, hordered, hres⟩ := htop
      obtain ⟨out, rfl, hout⟩ := orderedDesc_rankedRows_iff.mp hordered
      rw [hres, mapM_scanRow_of_null hout ha hbest] at h
      cases h

/-- **When the leaderboard is up.** Exactly if every session's best difficulty is
below 2^63 and every eligible address has a difficulty in its session. -/
theorem leaderboardUp_iff (db : Db) (roundID : ℕ) (now : Time)
    (hshares : ∀ r ∈ db.shares, r.Admissible) :
    LeaderboardUp db roundID now ↔
      (∀ a v, Score (liveShares db.shares roundID) a v → v < 2 ^ 63) ∧
        ∀ a, Eligible (liveShares db.shares roundID) now a →
          ∃ v, Score (liveShares db.shares roundID) a v := by
  set rows := liveShares db.shares roundID with hrows
  have hnonneg : ∀ a v, Score rows a v → -2 ^ 63 ≤ v := by
    rintro a v ⟨⟨r, hr, hd⟩, -⟩
    have := (hshares r (mem_liveShares.mp hr.1).1 v hd).1
    omega
  constructor
  · rintro ⟨hup, -⟩
    obtain ⟨entries, hok⟩ := hup _ (top21_getTop21 db roundID now [])
    obtain ⟨hfit, hscored⟩ := scored_of_getTop21 hok
    exact ⟨fun a v hv => (hfit a v hv).2, hscored⟩
  · rintro ⟨hbelow, hscored⟩
    have hfit : ScoresFit rows := fun a v hv => ⟨hnonneg a v hv, hbelow a v hv⟩
    refine ⟨fun res hres => ?_, fun a b ha _ hunvalued _ => ?_⟩
    · obtain ⟨scan, rfl⟩ := top21_iff.mp hres
      exact ⟨_, getTop21_of_scored hfit hscored⟩
    · obtain ⟨v, hv⟩ := hscored a ha
      exact absurd hv.valued hunvalued

theorem leaderboardUp_threeMiners :
    LeaderboardUp (tableOf [('a', 7), ('b', 7), ('c', 9)]) 1 0 := by
  have hvalued : ∀ r ∈ (tableOf [('a', 7), ('b', 7), ('c', 9)]).shares,
      ∃ d ∈ r.trueDifficulty, 0 ≤ d ∧ d < 2 ^ 63 := by decide
  refine (leaderboardUp_iff _ 1 0 fun r hr d hd => ?_).mpr ⟨?_, ?_⟩
  · obtain ⟨d', hd', h0, hlt⟩ := hvalued r hr
    obtain rfl : d' = d := Option.some.inj (hd'.symm.trans hd)
    exact ⟨h0, by omega⟩
  · rintro a v ⟨⟨r, hr, hd⟩, -⟩
    obtain ⟨d, hd', -, hlt⟩ := hvalued r (mem_liveShares.mp hr.1).1
    rwa [Option.some.inj (hd.symm.trans hd')]
  · rintro a ⟨t, ⟨r, hr, rfl, -⟩, -⟩
    refine exists_score (fun s hs => ?_) hr
    obtain ⟨d, hd, -⟩ := hvalued s (mem_liveShares.mp hs).1
    simp [Option.mem_def.mp hd]

/-- The difficulty the gateway reports for a hash with 96 leading zero bits. -/
def hugeTable : Db := tableOf [('a', 10 ^ 20), ('b', 7)]

/-- A row from before the column was added. -/
def nullTable : Db :=
  { tableOf [('b', 7)] with
    shares := (tableOf [('b', 7)]).shares ++ [⟨1, ['a'], [], 1, 0, false, none, none⟩] }

theorem one_row_takes_leaderboard_down :
    (∀ r ∈ hugeTable.shares, r.Admissible) ∧ ¬ LeaderboardUp hugeTable 1 0 ∧
      (∀ r ∈ nullTable.shares, r.Admissible) ∧ ¬ LeaderboardUp nullTable 1 0 := by
  have hhuge : getTop21 hugeTable 1 0 [] = .error .query := by decide
  have hnull : getTop21 nullTable 1 0 [] = .error .scan := by decide
  have hdown : ∀ {db err}, getTop21 db 1 0 [] = .error err → ¬ LeaderboardUp db 1 0 := by
    rintro db err herr ⟨hup, -⟩
    obtain ⟨entries, hok⟩ := hup _ (top21_getTop21 db 1 0 [])
    rw [herr] at hok
    cases hok
  refine ⟨fun r hr => ?_, hdown hhuge, fun r hr => ?_, hdown hnull⟩
  · simp only [hugeTable, tableOf, List.map_cons, List.map_nil, List.mem_cons, List.not_mem_nil,
      or_false] at hr
    rcases hr with rfl | rfl <;> simp [ShareRow.Admissible]
  · simp only [nullTable, tableOf, List.map_cons, List.map_nil, List.cons_append, List.nil_append,
      List.mem_cons, List.not_mem_nil, or_false] at hr
    rcases hr with rfl | rfl <;> simp [ShareRow.Admissible]

end Reward
