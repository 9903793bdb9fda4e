import Unlucky21.Reward.Sessions
import Unlucky21.Web.Leaderboard

/-!
# The stats page

`getExtendedPoolStats` publishes the least share to enter the top 21. It ranks
a third time, by the best share of the last seven days, where `GetTop21` ranks
by the best share of a session that may be far longer.
-/

namespace Web

open Wire Query Reward

/-! ## db.ts -/

structure ExtendedPoolStats where
  totalBlocks : ℕ
  activeMiners7d : ℕ
  currentRoundStarted : Option Time
  latestBlockHeight : Option ℤ
  acceptedSharesTotal : ℕ
  bestShareEver : Text
  minTop21Share : Option Text
  poolHashrateHs : ℚ
deriving DecidableEq, Repr

/-- `active_round`. -/
def activeRound (db : Db) : Option RoundRow :=
  (db.openRounds.insertionSort fun a b => b.startedAt ≤ a.startedAt).head?

/-- The shares of the open round that count. -/
def activeShares (db : Db) : List ShareRow :=
  match (activeRound db).map RoundRow.id with
  | none => []
  | some id => liveShares db.shares id

structure BestRow where
  btcAddress : Text
  bestShare : Option ℤ
deriving DecidableEq, Repr

def bestPerAddress (rows : List ShareRow) (now : Time) : List BestRow :=
  (groupBy ShareRow.btcAddress (recentShares rows now)).map fun g =>
    ⟨g.1, (g.2.filterMap ShareRow.trueDifficulty).max?⟩

structure RankedBest where
  bestShare : Option ℤ
  rnk : ℕ
deriving DecidableEq, Repr

def ranked (best : List BestRow) : List RankedBest :=
  best.map fun b => ⟨b.bestShare, rank (fun b => sortKey b.bestShare) best b⟩

/-- `MIN(best_share)` over rank 21 at most; without a row it is NULL. -/
def minTop21 (rows : List ShareRow) (now : Time) : Option ℤ :=
  (((ranked (bestPerAddress rows now)).filter fun r => r.rnk ≤ 21).filterMap
    RankedBest.bestShare).min?

/-- `ROUND(..)::BIGINT::TEXT` of a number without decimals. -/
def bigintText (best : Option ℤ) : Except QueryError (Option Text) :=
  if bigintFits best then .ok (best.map CText.printInt) else .error .query

def tenMinutes : ℤ := 10 * 60 * 1000000

/-- The hashrate is the number before it is printed and parsed again. -/
def getExtendedPoolStats (db : Db) (now : Time) : Except QueryError ExtendedPoolStats := do
  let bestEver ← bigintText (db.shares.filterMap ShareRow.trueDifficulty).max?
  let threshold ← bigintText (minTop21 (activeShares db) now)
  let confirmed := db.blocks.filter BlockRow.confirmed
  let latest := (confirmed.insertionSort fun a b => b.foundAt ≤ a.foundAt).head?
  let lately := db.shares.filter fun r => now - tenMinutes < r.submittedAt && !r.isStale
  .ok {
    totalBlocks := confirmed.length
    activeMiners7d := (recentAddresses db.shares now).length
    currentRoundStarted := (activeRound db).map RoundRow.startedAt
    latestBlockHeight := latest.map BlockRow.height
    acceptedSharesTotal := (db.shares.filter fun r => !r.isStale).length
    bestShareEver := bestEver.getD ['0']
    minTop21Share := threshold
    poolHashrateHs := (lately.map ShareRow.shareDifficulty).sum * 4294967296 / 600 }

/-! ## The two 21st places -/

/-- A share that a newcomer may submit to the round. -/
structure Newcomer (db : Db) (roundID : ℕ) (now : Time) (s : ShareRow) (d : ℤ) : Prop where
  round : s.roundId = roundID
  fresh : s.isStale = false
  recent : now - s.submittedAt < sevenDays
  first : ∀ r ∈ liveShares db.shares roundID, r.btcAddress ≠ s.btcAddress
  value : s.trueDifficulty = some d
  below : d < 2 ^ 63

/-- `GetTop21` answers with 21 entries, and the last one has this score. -/
def LastScore (db : Db) (roundID : ℕ) (now : Time) (threshold : Text) : Prop :=
  ∀ res, Top21 db roundID now res → ∃ entries e, res = .ok entries ∧ entries.length = 21 ∧
    entries.getLast? = some e ∧ threshold = CText.printInt e.bestShareDifficulty

/-- Whoever comes with a share strictly above is listed. -/
def Admits (db : Db) (roundID : ℕ) (now : Time) (threshold : Text) : Prop :=
  ∀ s v d, threshold = CText.printInt v → v < d → Newcomer db roundID now s d →
    ∀ res, Top21 { db with shares := db.shares ++ [s] } roundID now res →
      ∃ entries, res = .ok entries ∧ s.btcAddress ∈ entries.map Entry.btcAddress

/-- The page shows a threshold exactly if 21 are listed, and the real one. -/
def ThresholdReal (db : Db) (roundID : ℕ) (now : Time) : Prop :=
  ∃ stats, getExtendedPoolStats db now = .ok stats ∧
    (stats.minTop21Share = none ↔
      {a | Eligible (liveShares db.shares roundID) now a}.ncard < 21) ∧
    ∀ threshold ∈ stats.minTop21Share,
      LastScore db roundID now threshold ∧ Admits db roundID now threshold

/-- Eligible addresses with a score like this. -/
def withScore (rows : List ShareRow) (now : Time) (P : ℤ → Prop) : Set Text :=
  {a | Eligible rows now a ∧ ∃ v, Score rows a v ∧ P v}

/-- Addresses with a share like this in the last seven days. -/
def withWeekShare (rows : List ShareRow) (now : Time) (P : ℤ → Prop) : Set Text :=
  {a | ∃ r ∈ rows, r.btcAddress = a ∧ now - r.submittedAt < sevenDays ∧
    ∃ d, r.trueDifficulty = some d ∧ P d}

/-- 21 addresses have a share of the last seven days that fewer than 21 scores
are above, and 21 have a score that fewer than 21 addresses are above with a
share of the last seven days. -/
structure WeekDecides (rows : List ShareRow) (now : Time) : Prop where
  week : 21 ≤ (withWeekShare rows now fun d => (withScore rows now (d < ·)).ncard < 21).ncard
  session : 21 ≤ (withScore rows now fun v => (withWeekShare rows now (v < ·)).ncard < 21).ncard

/-- The best share of the last seven days. -/
def weekBest (rows : List ShareRow) (now : Time) (a : Text) : ℤ :=
  ((ofAddress (recentShares rows now) a).filterMap ShareRow.trueDifficulty).max?.getD 0

def sessionBest (rows : List ShareRow) (now : Time) (a : Text) : ℤ :=
  (entryOf rows now a).bestShareDifficulty

section Valued

variable {rows : List ShareRow} {now : Time} (hrows : ∀ r ∈ rows, r.trueDifficulty.isSome)

include hrows

theorem max?_week {a : Text} (ha : a ∈ recentAddresses rows now) :
    ((ofAddress (recentShares rows now) a).filterMap ShareRow.trueDifficulty).max? =
      some (weekBest rows now a) := by
  obtain ⟨r, hr, hra⟩ := List.mem_map.mp (List.mem_dedup.mp ha)
  obtain ⟨d, hd⟩ := Option.isSome_iff_exists.mp (hrows r (List.mem_of_mem_filter hr))
  have hmem : d ∈ (ofAddress (recentShares rows now) a).filterMap ShareRow.trueDifficulty :=
    List.mem_filterMap.mpr ⟨r, mem_ofAddress.mpr ⟨hr, hra⟩, hd⟩
  obtain ⟨v, hv⟩ := Option.ne_none_iff_exists'.mp
    (mt List.max?_eq_none_iff.mp (List.ne_nil_of_mem hmem))
  rw [weekBest, hv]
  rfl

theorem bestPerAddress_eq : bestPerAddress rows now =
    (recentAddresses rows now).map fun a => ⟨a, some (weekBest rows now a)⟩ := by
  rw [bestPerAddress, groupBy, List.map_map]
  refine List.map_congr_left fun a ha => ?_
  exact congrArg (BestRow.mk a) (max?_week hrows ha)

/-- Of the rows of rank 21 at most, the statement takes the least. -/
theorem minTop21_eq : minTop21 rows now =
    (leaders id 21 ((recentAddresses rows now).map (weekBest rows now))).min? := by
  rw [minTop21, bestPerAddress_eq hrows, ranked, leaders, List.map_map, List.filter_map,
    List.filter_map, List.filterMap_map]
  congr 1
  have hrank : ∀ a, rank (fun b : BestRow => sortKey b.bestShare)
      ((recentAddresses rows now).map fun a => ⟨a, some (weekBest rows now a)⟩)
      ⟨a, some (weekBest rows now a)⟩ =
      rank id ((recentAddresses rows now).map (weekBest rows now)) (weekBest rows now a) := by
    intro a
    simp only [rank, List.countP_map, Function.comp_def, sortKey, WithTop.some_eq_coe,
      WithTop.coe_lt_coe, id]
  simp only [Function.comp_def, hrank, List.filterMap_eq_map']

theorem minTop21_eq_none_iff : minTop21 rows now = none ↔ recentAddresses rows now = [] := by
  rw [minTop21_eq hrows, List.min?_eq_none_iff]
  constructor
  · intro hnil
    by_contra hne
    exact leaders_ne_nil id (by decide : 0 < 21) (by simpa using hne) hnil
  · intro hnil
    rw [hnil]
    rfl

theorem ncard_withScore (P : ℤ → Prop) [DecidablePred P] : (withScore rows now P).ncard =
    ((recentAddresses rows now).map (sessionBest rows now)).countP P := by
  rw [List.countP_map, List.countP_eq_length_filter,
    ← ncard_mem_list ((nodup_recentAddresses rows now).filter _)]
  congr 1
  ext a
  simp only [withScore, Set.mem_ofPred_eq, List.mem_filter, Function.comp_apply,
    decide_eq_true_eq, mem_recentAddresses]
  refine and_congr_right fun ha => ?_
  have hscore := score_entryOf hrows (mem_recentAddresses.mpr ha)
  constructor
  · rintro ⟨v, hv, hP⟩
    rwa [hv.unique hscore] at hP
  · exact fun hP => ⟨_, hscore, hP⟩

theorem ncard_withWeekShare {P : ℤ → Prop} [DecidablePred P] (hup : ∀ d e, d ≤ e → P d → P e) :
    (withWeekShare rows now P).ncard =
      ((recentAddresses rows now).map (weekBest rows now)).countP P := by
  rw [List.countP_map, List.countP_eq_length_filter,
    ← ncard_mem_list ((nodup_recentAddresses rows now).filter _)]
  congr 1
  ext a
  simp only [withWeekShare, Set.mem_ofPred_eq, List.mem_filter, Function.comp_apply,
    decide_eq_true_eq]
  constructor
  · rintro ⟨r, hr, rfl, ht, d, hd, hP⟩
    have ha : r.btcAddress ∈ recentAddresses rows now :=
      mem_recentAddresses.mpr ⟨_, ⟨r, hr, rfl, rfl⟩, ht⟩
    have hmax := max?_eq_some_iff_isGreatest.mp (max?_week hrows ha)
    refine ⟨ha, hup d _ (hmax.2 (List.mem_filterMap.mpr ⟨r, mem_ofAddress.mpr ⟨?_, rfl⟩, hd⟩)) hP⟩
    exact List.mem_filter.mpr ⟨hr, decide_eq_true (sub_lt_comm.mp ht)⟩
  · rintro ⟨ha, hP⟩
    have hmax := max?_eq_some_iff_isGreatest.mp (max?_week hrows ha)
    obtain ⟨r, hmine, hd⟩ := List.mem_filterMap.mp hmax.1
    obtain ⟨hrecent, hra⟩ := mem_ofAddress.mp hmine
    obtain ⟨hr, ht⟩ := List.mem_filter.mp hrecent
    exact ⟨r, hr, hra, sub_lt_comm.mp (of_decide_eq_true ht), _, hd, hP⟩

/-- The two conditions, on the best shares of each address. -/
theorem weekDecides_iff_countP : WeekDecides rows now ↔
    (21 ≤ ((recentAddresses rows now).map (weekBest rows now)).countP fun d =>
      ((recentAddresses rows now).map (sessionBest rows now)).countP (d < ·) < 21) ∧
    21 ≤ ((recentAddresses rows now).map (sessionBest rows now)).countP fun v =>
      ((recentAddresses rows now).map (weekBest rows now)).countP (v < ·) < 21 := by
  have hweek : ∀ v, (withWeekShare rows now (v < ·)).ncard =
      ((recentAddresses rows now).map (weekBest rows now)).countP (v < ·) := fun v =>
    ncard_withWeekShare hrows fun d e hde hvd => hvd.trans_le hde
  have hup : ∀ d e, d ≤ e →
      ((recentAddresses rows now).map (sessionBest rows now)).countP (d < ·) < 21 →
      ((recentAddresses rows now).map (sessionBest rows now)).countP (e < ·) < 21 :=
    fun d e hde => lt_of_le_of_lt (List.countP_mono_left fun x _ hx => by
      simpa using hde.trans_lt (by simpa using hx))
  constructor
  · rintro ⟨h, h'⟩
    simp only [hweek, ncard_withScore hrows] at h h'
    rw [ncard_withWeekShare hrows hup] at h
    exact ⟨h, h'⟩
  · rintro ⟨h, h'⟩
    refine ⟨?_, ?_⟩
    · simp only [ncard_withScore hrows]
      rwa [ncard_withWeekShare hrows hup]
    · simpa only [hweek, ncard_withScore hrows] using h'

/-- The 21st best of the week is the 21st best score just if the week decides. -/
theorem weekDecides_iff_place {v v' : ℤ}
    (h : NthBest 21 ((recentAddresses rows now).map (sessionBest rows now)) v)
    (h' : NthBest 21 ((recentAddresses rows now).map (weekBest rows now)) v') :
    WeekDecides rows now ↔ v = v' := by
  rw [weekDecides_iff_countP hrows, ← h.le_iff_unbeaten h', ← h'.le_iff_unbeaten h, le_antisymm_iff]

theorem WeekDecides.many (h : WeekDecides rows now) : 21 ≤ (recentAddresses rows now).length := by
  have := ((weekDecides_iff_countP hrows).mp h).1.trans List.countP_le_length
  rwa [List.length_map] at this

end Valued

/-! ## When the threshold is real -/

theorem activeShares_eq {db : Db} {r : RoundRow} (hopen : db.openRounds = [r]) :
    activeShares db = liveShares db.shares r.id := by
  simp [activeShares, activeRound, hopen]

/-- The statement fails only at its two casts. -/
theorem getExtendedPoolStats_iff {db : Db} {now : Time} {best threshold : Option ℤ}
    (hbest : (db.shares.filterMap ShareRow.trueDifficulty).max? = best)
    (hthreshold : minTop21 (activeShares db) now = threshold) {P : Option Text → Prop} :
    (∃ stats, getExtendedPoolStats db now = .ok stats ∧ P stats.minTop21Share) ↔
      bigintFits best = true ∧ bigintFits threshold = true ∧ P (threshold.map CText.printInt) := by
  simp only [getExtendedPoolStats, hbest, hthreshold, bigintText]
  by_cases hfits : bigintFits best = true
  · by_cases hfits' : bigintFits threshold = true
    · simp [hfits, hfits', bind, Except.bind]
    · simp [hfits, hfits', bind, Except.bind]
  · simp [hfits, bind, Except.bind]

theorem bigintFits_some {v : ℤ} : bigintFits (some v) = true ↔ -2 ^ 63 ≤ v ∧ v < 2 ^ 63 := by
  simp [bigintFits]

section Listed

variable {rows : List ShareRow} {now : Time} (hrows : ∀ r ∈ rows, r.trueDifficulty.isSome)

include hrows

theorem orderedDesc_sessionBest {out : List Text}
    (hout : OrderedDesc (fun a => sortKey (alltimeBest rows a)) (recentAddresses rows now) out) :
    OrderedDesc (sessionBest rows now) (recentAddresses rows now) out := by
  refine ⟨hout.1, hout.2.imp_of_mem fun ha hb hab => ?_⟩
  exact (sortKey_le_iff hrows (hout.1.mem_iff.mp hb) (hout.1.mem_iff.mp ha)).mp hab

/-- With 21 eligible addresses the list is full, and its last entry has the 21st
best score, whatever order ties come in. -/
theorem getLast?_top21 {out : List Text}
    (hout : OrderedDesc (fun a => sortKey (alltimeBest rows a)) (recentAddresses rows now) out)
    (hmany : 21 ≤ (recentAddresses rows now).length) :
    ((out.take 21).map (entryOf rows now)).length = 21 ∧
      ∃ a ∈ recentAddresses rows now,
        ((out.take 21).map (entryOf rows now)).getLast? = some (entryOf rows now a) ∧
        NthBest 21 ((recentAddresses rows now).map (sessionBest rows now))
          (sessionBest rows now a) := by
  have hlen : 20 < out.length := by
    rw [hout.1.length_eq]
    omega
  have htake : ((out.take 21).map (entryOf rows now)).length = 21 := by
    rw [List.length_map, List.length_take]
    omega
  refine ⟨htake, out[20], hout.1.mem_iff.mp (List.getElem_mem hlen), ?_,
    (orderedDesc_sessionBest hrows hout).nthBest hlen⟩
  rw [List.getLast?_eq_getElem?, htake]
  simp [hlen]

theorem exists_sessionPlace (hmany : 21 ≤ (recentAddresses rows now).length) :
    ∃ a ∈ recentAddresses rows now,
      NthBest 21 ((recentAddresses rows now).map (sessionBest rows now)) (sessionBest rows now a) := by
  obtain ⟨-, a, ha, -, hplace⟩ := getLast?_top21 hrows (orderedDesc_insertionSort _ _) hmany
  exact ⟨a, ha, hplace⟩

/-- With 21 eligible addresses a number is the last score just if every score can
be cast and it is the 21st best. -/
theorem lastScore_iff {db : Db} {roundID : ℕ} (hlive : rows = liveShares db.shares roundID)
    (hmany : 21 ≤ (recentAddresses rows now).length) {v : ℤ} :
    LastScore db roundID now (CText.printInt v) ↔
      ScoresFit rows ∧ NthBest 21 ((recentAddresses rows now).map (sessionBest rows now)) v := by
  subst hlive
  constructor
  · intro hlast
    have hfit : ScoresFit (liveShares db.shares roundID) := by
      by_contra hfit
      obtain ⟨_, _, herr, -⟩ := hlast _ ((top21_of_not_fit hfit).mpr rfl)
      cases herr
    have hout := orderedDesc_insertionSort
      (fun a => sortKey (alltimeBest (liveShares db.shares roundID) a))
      (recentAddresses (liveShares db.shares roundID) now)
    obtain ⟨_, e, heq, -, he, hthreshold⟩ :=
      hlast _ ((top21_of_fit hrows hfit).mpr ⟨_, hout, rfl⟩)
    obtain rfl := Except.ok.inj heq
    obtain ⟨-, a, -, ha, hplace⟩ := getLast?_top21 hrows hout hmany
    obtain rfl := Option.some.inj (ha.symm.trans he)
    obtain rfl := CText.printInt_injective hthreshold
    exact ⟨hfit, hplace⟩
  · rintro ⟨hfit, hplace⟩ res hres
    obtain ⟨out, hout, rfl⟩ := (top21_of_fit hrows hfit).mp hres
    obtain ⟨hlen, a, -, hlast, hplace'⟩ := getLast?_top21 hrows hout hmany
    have hav : sessionBest (liveShares db.shares roundID) now a = v :=
      (hplace'.eq_iff hplace).mpr fun _ => Iff.rfl
    exact ⟨_, _, rfl, hlen, hlast, congrArg CText.printInt hav.symm⟩

/-- A newcomer above the 21st place pushes somebody out. -/
theorem newcomer_listed {db : Db} {roundID : ℕ} (hlive : rows = liveShares db.shares roundID)
    (hfit : ScoresFit rows) {v d : ℤ}
    (hplace : NthBest 21 ((recentAddresses rows now).map (sessionBest rows now)) v)
    (hlow : -2 ^ 63 ≤ v) (hvd : v < d) {s : ShareRow} (hnew : Newcomer db roundID now s d)
    {res : Except QueryError (List Entry)}
    (hres : Top21 { db with shares := db.shares ++ [s] } roundID now res) :
    ∃ entries, res = .ok entries ∧ s.btcAddress ∈ entries.map Entry.btcAddress := by
  have hfirst : ∀ r ∈ rows, r.btcAddress ≠ s.btcAddress := hlive ▸ hnew.first
  have hnone : submissions rows s.btcAddress = ∅ :=
    Set.eq_empty_of_forall_notMem fun t ⟨r, hr, ha, _⟩ => hfirst r hr ha
  have hother : ∀ {a w}, a ≠ s.btcAddress → (Score (rows ++ [s]) a w ↔ Score rows a w) := by
    intro a w ha
    rw [← alltimeBest_eq_some_iff, ← alltimeBest_eq_some_iff, alltimeBest_append_of_ne ha.symm]
  have hscore : Score (rows ++ [s]) s.btcAddress d :=
    score_append_of_fresh (by simp [hnone]) (by simp [hnone, IsGreatest]) hnew.value
      (by simp [hnone])
  have hrows' : ∀ r ∈ rows ++ [s], r.trueDifficulty.isSome := by
    intro r hr
    rcases List.mem_append.mp hr with hr | hr
    · exact hrows r hr
    · rw [List.mem_singleton.mp hr, hnew.value]
      rfl
  have hfit' : ScoresFit (rows ++ [s]) := by
    intro a w hw
    by_cases ha : a = s.btcAddress
    · subst ha
      rw [hw.unique hscore]
      exact ⟨hlow.trans hvd.le, hnew.below⟩
    · exact hfit a w ((hother ha).mp hw)
  have hlive' : liveShares (db.shares ++ [s]) roundID = rows ++ [s] := by
    rw [hlive, liveShares, liveShares, List.filter_append]
    simp [hnew.round, hnew.fresh]
  have hold : ∀ {a}, a ≠ s.btcAddress → Eligible (rows ++ [s]) now a → Eligible rows now a := by
    rintro a ha ⟨t, ⟨r, hr, hra, hrt⟩, ht⟩
    rcases List.mem_append.mp hr with hr | hr
    · exact ⟨t, ⟨r, hr, hra, hrt⟩, ht⟩
    · exact absurd (by rw [← hra, List.mem_singleton.mp hr]) ha
  obtain ⟨out, hout, rfl⟩ :=
    (top21_of_fit (by simpa [hlive'] using hrows') (by simpa [hlive'] using hfit')).mp hres
  simp only [hlive'] at hout ⊢
  have hexact := top21Exact_take hrows' hout
  refine ⟨_, rfl, ?_⟩
  by_contra hnot
  -- otherwise all 21 entries are of other addresses above the 21st place
  have habove : ((out.take 21).map (entryOf (rows ++ [s]) now)).map Entry.btcAddress ⊆
      (recentAddresses rows now).filter fun a => v < sessionBest rows now a := by
    intro a ha
    obtain ⟨e, he, rfl⟩ := List.mem_map.mp ha
    have hne : e.btcAddress ≠ s.btcAddress := fun heq => hnot (heq ▸ ha)
    have hmem := mem_recentAddresses.mpr (hold hne (hexact.eligible e he))
    have hbest := ((hother hne).mp (hexact.score e he)).unique (score_entryOf hrows hmem)
    have hde := hexact.leftOut s.btcAddress
      ⟨_, ⟨s, List.mem_append_right _ List.mem_cons_self, rfl, rfl⟩, hnew.recent⟩ hnot d hscore e he
    refine List.mem_filter.mpr ⟨hmem, decide_eq_true ?_⟩
    rw [sessionBest, ← hbest]
    exact hvd.trans_le hde
  have hfull : ((out.take 21).map (entryOf (rows ++ [s]) now)).length = 21 := by
    have hsub : recentAddresses rows now ⊆ recentAddresses (rows ++ [s]) now := fun a ha => by
      obtain ⟨t, ⟨r, hr, hra, hrt⟩, ht⟩ := mem_recentAddresses.mp ha
      exact mem_recentAddresses.mpr ⟨t, ⟨r, List.mem_append_left _ hr, hra, hrt⟩, ht⟩
    have hle := ((nodup_recentAddresses rows now).subperm hsub).length_le
    have hplaces := hplace.1.trans List.countP_le_length
    rw [List.length_map] at hplaces
    rw [hexact.length, ncard_eligible]
    omega
  have hfew := (hexact.nodup.subperm habove).length_le
  have hlt := hplace.2
  rw [List.countP_map, List.countP_eq_length_filter] at hlt
  rw [List.length_map, hfull] at hfew
  exact absurd (hfew.trans_lt hlt) (lt_irrefl _)

end Listed

theorem bigintFits_max? {shares : List ShareRow}
    (hshares : ∀ s ∈ shares, ∃ d, s.trueDifficulty = some d ∧ d < 2 ^ 63) :
    bigintFits (shares.filterMap ShareRow.trueDifficulty).max? = true ↔
      (shares ≠ [] → ∃ s ∈ shares, ∃ d ∈ s.trueDifficulty, -2 ^ 63 ≤ d) := by
  cases hmax : (shares.filterMap ShareRow.trueDifficulty).max? with
  | none =>
      have hnil : shares = [] := by
        refine List.eq_nil_iff_forall_not_mem.mpr fun s hs => ?_
        obtain ⟨d, hd, -⟩ := hshares s hs
        have hmem : d ∈ shares.filterMap ShareRow.trueDifficulty := List.mem_filterMap.mpr ⟨s, hs, hd⟩
        rw [List.max?_eq_none_iff.mp hmax] at hmem
        cases hmem
      simp [bigintFits, hnil]
  | some m =>
      obtain ⟨hm, hge⟩ := max?_eq_some_iff_isGreatest.mp hmax
      obtain ⟨s, hs, hd⟩ := List.mem_filterMap.mp hm
      obtain ⟨d, hd', hlt⟩ := hshares s hs
      obtain rfl : d = m := Option.some.inj (hd'.symm.trans hd)
      rw [bigintFits_some, and_iff_left hlt]
      constructor
      · exact fun hlow _ => ⟨s, hs, d, hd, hlow⟩
      · intro h
        obtain ⟨t, ht, e, he, hlow⟩ := h (List.ne_nil_of_mem hs)
        exact hlow.trans (hge (List.mem_filterMap.mpr ⟨t, ht, he⟩))

/-- A statement over at least 21 addresses publishes the 21st best of the week. -/
theorem exists_minTop21 {rows : List ShareRow} {now : Time}
    (hrows : ∀ r ∈ rows, r.trueDifficulty.isSome) (hmany : 21 ≤ (recentAddresses rows now).length) :
    ∃ v, minTop21 rows now = some v ∧
      NthBest 21 ((recentAddresses rows now).map (weekBest rows now)) v := by
  have hlen : 21 ≤ ((recentAddresses rows now).map (weekBest rows now)).length := by
    rwa [List.length_map]
  have hne : minTop21 rows now ≠ none := by
    rw [ne_eq, minTop21_eq_none_iff hrows]
    rintro hnil
    rw [hnil] at hmany
    cases hmany
  obtain ⟨v, hv⟩ := Option.ne_none_iff_exists'.mp hne
  refine ⟨v, hv, ((isLeast_leaders_iff hlen).mp ?_).2⟩
  exact List.min?_eq_some_iff.mp (minTop21_eq hrows ▸ hv)

/-- 22 miners with shares of the last days, one of them with a better share of
eight days ago. -/
def fullBoard : Db :=
  { tableOf [] with
    shares := ⟨1, ['v'], [], 1, -8 * 24 * 60 * 60 * 1000000, false, some 90, none⟩ ::
      ("abcdefghijklmnopqrstuv".toList.zipIdx 20).map fun p =>
        ⟨1, [p.1], [], 1, -3 * 24 * 60 * 60 * 1000000, false, some p.2, none⟩ }

theorem valued_fullBoard : ∀ s ∈ fullBoard.shares,
    s.isStale = false ∧ ∃ d, s.trueDifficulty = some d ∧ d < 2 ^ 63 := by
  have hall : ∀ s ∈ fullBoard.shares, s.isStale = false ∧ ∃ d ∈ s.trueDifficulty, d < 2 ^ 63 := by
    decide +kernel
  exact hall

/-- 21 miners, each with a share of 9 eight days ago and one of 7 three days ago. -/
def longSessions : Db :=
  { tableOf [] with
    shares := "abcdefghijklmnopqrstu".toList.flatMap fun c =>
      [⟨1, [c], [], 1, -8 * 24 * 60 * 60 * 1000000, false, some 9, none⟩,
        ⟨1, [c], [], 1, -3 * 24 * 60 * 60 * 1000000, false, some 7, none⟩] }

end Web
