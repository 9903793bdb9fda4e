import Unlucky21.Lib.CText
import Unlucky21.Reward.Top21

/-!
# The leaderboard page

`getLeaderboard` ranks with the statement of `GetTop21` written a second time:
it also counts stale shares and returns up to `limit` rows. The page shows the
entries of rank 21 at most as paid, where `GetTop21` keeps 21 rows.
-/

namespace Web

open Wire Query Reward

/-! ## db.ts -/

structure LeaderboardEntry where
  rank : ℕ
  btcAddress : Text
  bestShare : Option Text
  lastSeen : Option Time
  estimatedPayoutSats : ℤ
  isRental : Bool
deriving DecidableEq, Repr

structure Payouts where
  finderSats : ℤ
  perSlot : ℤ
  poolFeeSats : ℤ
deriving DecidableEq, Repr

def finderPercent : ℚ := SignificantDigits.binary64 (21 / 1000)

def poolFeePercent : ℚ := SignificantDigits.binary64 (21 / 1000)

def maxRankedSlots : ℤ := 21

def subsidySats : ℤ := 312500000

/-- The number of filled slots is passed and not used. -/
def calcPayouts (subsidy fees : ℤ) (_filledSlots : ℕ) : Payouts :=
  let total := subsidy + fees
  let finderSats := ⌊SignificantDigits.binary64 (total * finderPercent)⌋
  let poolFeeSats := ⌊SignificantDigits.binary64 (total * poolFeePercent)⌋
  let remaining := total - finderSats - poolFeeSats
  ⟨finderSats, ⌊SignificantDigits.binary64 (remaining / maxRankedSlots)⌋, poolFeeSats⟩

structure RecentColumns where
  recentBest : Option ℤ
  lastSeen : Option Time
  sumDiff : ℤ
  isRental : Option Bool
deriving DecidableEq, Repr

/-- `BOOL_OR` is NULL when every port is. -/
def recentColumns (g : List ShareRow) : RecentColumns :=
  let ports := g.filterMap ShareRow.sourcePort
  { recentBest := (g.filterMap ShareRow.trueDifficulty).max?
    lastSeen := (g.map ShareRow.submittedAt).max?
    sumDiff := (g.map ShareRow.shareDifficulty).sum
    isRental := if ports = [] then none else some (ports.any fun p => p = 4444) }

/-- The shares of the open round, stale ones included. -/
def roundShares (db : Db) : List ShareRow :=
  match activeRoundID db with
  | none => []
  | some id => db.shares.filter fun r => r.roundId = id

def toEntry (filledSlots : ℕ) (row : RankedRow RecentColumns) : LeaderboardEntry :=
  { rank := row.rank
    btcAddress := row.btcAddress
    bestShare := row.alltimeBest.map CText.printInt
    lastSeen := row.columns.lastSeen
    estimatedPayoutSats := (calcPayouts subsidySats 0 filledSlots).perSlot
    isRental := row.columns.isRental.getD false }

/-- `entries` is an answer `getLeaderboard` may give. -/
def GetLeaderboard (db : Db) (limit : ℕ) (now : Time) (entries : List LeaderboardEntry) : Prop :=
  ∃ out, OrderedDesc RankedRow.score (rankedRows recentColumns (roundShares db) now) out ∧
    entries = (out.take limit).map (toEntry (out.take limit).length)

/-! ## page.tsx -/

structure Page where
  top21 : List LeaderboardEntry
  below : List LeaderboardEntry

def leaderboardPage (leaderboard : List LeaderboardEntry) : Page :=
  ⟨leaderboard.filter fun e => e.rank ≤ 21, leaderboard.filter fun e => 21 < e.rank⟩

/-- The page shows those as paid who are paid, in whatever order ties come. -/
def ShowsPaid (db : Db) (roundID : ℕ) (now : Time) : Prop :=
  ∀ leaderboard res, GetLeaderboard db 100 now leaderboard → Top21 db roundID now res →
    ∃ entries, res = .ok entries ∧
      ∀ a, a ∈ (leaderboardPage leaderboard).top21.map LeaderboardEntry.btcAddress ↔
        a ∈ entries.map Entry.btcAddress

/-! ## When it does -/

/-- An eligible address with fewer than 21 eligible addresses above it. -/
def Leads (rows : List ShareRow) (now : Time) (a : Text) : Prop :=
  Eligible rows now a ∧
    {b | Eligible rows now b ∧ ∃ v w, Score rows b v ∧ Score rows a w ∧ w < v}.ncard < 21

/-- The recent addresses of rank 21 at most. -/
def leading (rows : List ShareRow) (now : Time) : List Text :=
  leaders (fun a => sortKey (alltimeBest rows a)) 21 (recentAddresses rows now)

theorem mem_leading {rows : List ShareRow} {now : Time}
    (hrows : ∀ r ∈ rows, r.trueDifficulty.isSome) {a : Text} :
    a ∈ leading rows now ↔ Leads rows now a := by
  rw [leading, leaders, List.mem_filter, mem_recentAddresses, Leads, decide_eq_true_iff]
  refine and_congr_right fun ha => ?_
  have ha' := mem_recentAddresses.mpr ha
  have habove : {b | Eligible rows now b ∧ ∃ v w, Score rows b v ∧ Score rows a w ∧ w < v} =
      {b | b ∈ (recentAddresses rows now).filter fun b =>
        sortKey (alltimeBest rows a) < sortKey (alltimeBest rows b)} := by
    ext b
    simp only [Set.mem_ofPred_eq, List.mem_filter, mem_recentAddresses, decide_eq_true_eq]
    refine and_congr_right fun hb => ?_
    have hb' := mem_recentAddresses.mpr hb
    rw [sortKey_alltimeBest hrows hb', sortKey_alltimeBest hrows ha', WithTop.coe_lt_coe]
    constructor
    · rintro ⟨v, w, hv, hw, hlt⟩
      rwa [(score_entryOf hrows hb').unique hv, (score_entryOf hrows ha').unique hw]
    · exact fun hlt => ⟨_, _, score_entryOf hrows hb', score_entryOf hrows ha', hlt⟩
  rw [habove, ncard_mem_list ((nodup_recentAddresses rows now).filter _), rank,
    List.countP_eq_length_filter]
  omega

theorem nodup_leading (rows : List ShareRow) (now : Time) : (leading rows now).Nodup :=
  (nodup_recentAddresses rows now).filter _

theorem ncard_leads {rows : List ShareRow} {now : Time}
    (hrows : ∀ r ∈ rows, r.trueDifficulty.isSome) :
    {a | Leads rows now a}.ncard = (leading rows now).length := by
  rw [← ncard_mem_list (nodup_leading rows now)]
  exact congrArg Set.ncard (Set.ext fun a => (mem_leading hrows).symm)

/-- The addresses the page shows as paid, for the order the rows came in. -/
theorem shown_addresses {rows : List ShareRow} {now : Time} (ks : List Text) (limit n : ℕ) :
    (leaderboardPage (((ks.map (rankedRow recentColumns rows now)).take limit).map
      (toEntry n))).top21.map LeaderboardEntry.btcAddress =
      (ks.take limit).filter fun a =>
        rank (fun b => sortKey (alltimeBest rows b)) (recentAddresses rows now) a ≤ 21 := by
  rw [leaderboardPage, ← List.map_take, List.map_map, List.filter_map, List.map_map]
  exact List.map_id _

theorem paid_addresses {rows : List ShareRow} {now : Time} (ks : List Text) :
    ((ks.take 21).map (entryOf rows now)).map Entry.btcAddress = ks.take 21 := by
  rw [List.map_map]
  exact List.map_id _

/-- The page is right exactly if the casts succeed, the cut separates the paid
addresses from the others, and stale shares change nothing about who leads. -/
theorem showsPaid_iff_leading {db : Db} {roundID : ℕ} {now : Time}
    (hvalue : ∀ s ∈ liveShares db.shares roundID, s.trueDifficulty.isSome) :
    ShowsPaid db roundID now ↔
      ScoresFit (liveShares db.shares roundID) ∧
        (leading (liveShares db.shares roundID) now).length ≤ 21 ∧
          ∀ a, a ∈ leading (roundShares db) now ↔ a ∈ leading (liveShares db.shares roundID) now := by
  have hcuts := cuts_agree_iff (fun a => sortKey (alltimeBest (liveShares db.shares roundID) a))
    (fun a => sortKey (alltimeBest (roundShares db) a))
    (nodup_recentAddresses (liveShares db.shares roundID) now)
    (nodup_recentAddresses (roundShares db) now) (by decide : 21 < 100)
  rw [leading, leading, ← hcuts]
  constructor
  · intro h
    have hboard : GetLeaderboard db 100 now _ := ⟨_, orderedDesc_insertionSort _ _, rfl⟩
    by_cases hfit : ScoresFit (liveShares db.shares roundID)
    · refine ⟨hfit, fun out out' hout hout' a => ?_⟩
      obtain ⟨entries, heq, hsame⟩ := h _ _
        ⟨_, orderedDesc_rankedRows_iff.mpr ⟨out', rfl, hout'⟩, rfl⟩
        ((top21_of_fit hvalue hfit).mpr ⟨out, hout, rfl⟩)
      obtain rfl := Except.ok.inj heq
      have := hsame a
      rwa [shown_addresses, paid_addresses] at this
    · obtain ⟨entries, heq, -⟩ := h _ _ hboard ((top21_of_not_fit hfit).mpr rfl)
      cases heq
  · rintro ⟨hfit, hall⟩ leaderboard res ⟨_, hrows, rfl⟩ hres
    obtain ⟨out', rfl, hout'⟩ := orderedDesc_rankedRows_iff.mp hrows
    obtain ⟨out, hout, rfl⟩ := (top21_of_fit hvalue hfit).mp hres
    refine ⟨_, rfl, fun a => ?_⟩
    rw [shown_addresses, paid_addresses]
    exact hall out out' hout hout' a

/-- **When the page is right.** For one open round and difficulties below 2^63:
no score is below the range of the cast, at most 21 addresses lead, and the same
ones lead when stale shares count. -/
theorem showsPaid_iff (db : Db) (r : RoundRow) (now : Time) (hopen : db.openRounds = [r])
    (hshares : ∀ s ∈ db.shares, ∃ d, s.trueDifficulty = some d ∧ d < 2 ^ 63) :
    ShowsPaid db r.id now ↔
      (∀ a v, Score (liveShares db.shares r.id) a v → -2 ^ 63 ≤ v) ∧
        {a | Leads (liveShares db.shares r.id) now a}.ncard ≤ 21 ∧
          ∀ a, Leads (db.shares.filter fun s => s.roundId = r.id) now a ↔
            Leads (liveShares db.shares r.id) now a := by
  have hround : roundShares db = db.shares.filter fun s => s.roundId = r.id := by
    rw [roundShares, activeRoundID_of_openRounds hopen]
  have hall : ∀ s ∈ db.shares, s.trueDifficulty.isSome := by
    intro s hs
    obtain ⟨d, hd, -⟩ := hshares s hs
    simp [hd]
  have hlive : ∀ s ∈ liveShares db.shares r.id, s.trueDifficulty.isSome := fun s hs =>
    hall s (mem_liveShares.mp hs).1
  have hcounted : ∀ s ∈ roundShares db, s.trueDifficulty.isSome := fun s hs =>
    hall s (List.mem_filter.mp (hround ▸ hs)).1
  rw [showsPaid_iff_leading hlive, ncard_leads hlive, ← hround]
  simp only [mem_leading hlive, mem_leading hcounted]
  refine and_congr_left fun _ => forall₂_congr fun a v => forall_congr' fun hv => ?_
  obtain ⟨s, hs, hd⟩ := hv.1
  obtain ⟨d, hd', hlt⟩ := hshares s (mem_liveShares.mp hs.1).1
  obtain rfl : d = v := Option.some.inj (hd'.symm.trans hd)
  exact and_iff_left hlt

theorem showsPaid_threeMiners : ShowsPaid (tableOf [('a', 7), ('b', 7), ('c', 9)]) 1 0 := by
  have hshares : ∀ s ∈ (tableOf [('a', 7), ('b', 7), ('c', 9)]).shares,
      ∃ d ∈ s.trueDifficulty, 0 ≤ d ∧ d < 2 ^ 63 := by decide
  have hsame : ((tableOf [('a', 7), ('b', 7), ('c', 9)]).shares.filter fun s => s.roundId = 1) =
      liveShares (tableOf [('a', 7), ('b', 7), ('c', 9)]).shares 1 := by decide
  refine (showsPaid_iff (tableOf [('a', 7), ('b', 7), ('c', 9)]) ⟨1, 0, none, none⟩ 0 rfl
    fun s hs => ?_).mpr ⟨?_, ?_, fun a => by rw [hsame]⟩
  · obtain ⟨d, hd, -, hlt⟩ := hshares s hs
    exact ⟨d, hd, hlt⟩
  · rintro a v ⟨⟨s, hs, hd⟩, -⟩
    obtain ⟨d, hd', h0, -⟩ := hshares s (mem_liveShares.mp hs.1).1
    obtain rfl : d = v := Option.some.inj (hd'.symm.trans hd)
    omega
  · rw [ncard_leads (by decide)]
    decide

/-- 22 miners with the same best share. -/
def tiedTable : Db := tableOf ("abcdefghijklmnopqrstuv".toList.map fun c => (c, 7))

/-- One miner, whose only share is stale. -/
def staleTable : Db :=
  { tableOf [] with shares := [⟨1, ['a'], [], 1, 0, true, some 7, none⟩] }

/-- The page shows 22 tied miners where 21 are paid, and one with stale shares only. -/
theorem page_shows_unpaid : ¬ ShowsPaid tiedTable 1 0 ∧ ¬ ShowsPaid staleTable 1 0 := by
  constructor
  · rw [showsPaid_iff_leading (by decide)]
    rintro ⟨-, hlen, -⟩
    exact absurd hlen (by decide)
  · rw [showsPaid_iff_leading (by decide)]
    rintro ⟨-, -, hsame⟩
    exact absurd ((hsame ['a']).mp (by decide)) (by decide)

end Web
