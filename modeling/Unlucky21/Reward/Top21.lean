import Unlucky21.Reward.Standings

/-!
# The statement of `GetTop21`

The common table expressions as PostgreSQL evaluates them, over the rows their
`WHERE` clauses leave. They keep one row for each address, so the statement
returns what `getTop21` computes address by address; the order of tied rows,
which `ORDER BY` leaves open, is the order `getTop21` is given.
-/

namespace Reward

open Wire Query

/-! ## The common table expressions -/

/-- `columns` are the aggregates a statement asks for. -/
structure RecentRow (δ : Type*) where
  btcAddress : Text
  columns : δ

structure GapRow where
  btcAddress : Text
  submittedAt : Time
  gapBefore : Option ℤ

structure SessionStartRow where
  btcAddress : Text
  sessionStart : Option Time

structure AlltimeRow where
  btcAddress : Text
  alltimeBest : Option ℤ

structure RankedRow (δ : Type*) where
  btcAddress : Text
  alltimeBest : Option ℤ
  columns : δ
  rank : ℕ

variable {δ : Type*}

def recent (agg : List ShareRow → δ) (rows : List ShareRow) (now : Time) : List (RecentRow δ) :=
  (groupBy ShareRow.btcAddress (recentShares rows now)).map fun (a, g) => ⟨a, agg g⟩

def gaps (rows : List ShareRow) : List GapRow :=
  (groupBy ShareRow.btcAddress rows).flatMap fun (a, g) =>
    (lag ((g.map ShareRow.submittedAt).insertionSort (· ≤ ·))).map fun (t, prev) =>
      ⟨a, t, prev.map fun p => t - p⟩

def sessionStarts (rows : List ShareRow) : List SessionStartRow :=
  let resumed := (gaps rows).filter fun r => r.gapBefore.any fun gap => sevenDays < gap
  (groupBy GapRow.btcAddress resumed).map fun (a, g) => ⟨a, (g.map GapRow.submittedAt).max?⟩

/-- A NULL session start is replaced by `-infinity`. -/
def sinceSession (r : ShareRow) (ss : Option SessionStartRow) : Bool :=
  (ss.bind SessionStartRow.sessionStart).all fun t => t ≤ r.submittedAt

def alltime (rows : List ShareRow) : List AlltimeRow :=
  let joined := leftJoin (fun s ss => s.btcAddress = ss.btcAddress) rows (sessionStarts rows)
  let kept := (joined.filter fun p => sinceSession p.1 p.2).map Prod.fst
  (groupBy ShareRow.btcAddress kept).map fun (a, g) =>
    ⟨a, (g.filterMap ShareRow.trueDifficulty).max?⟩

/-- In descending order NULL comes first. -/
def sortKey (best : Option ℤ) : WithTop ℤ := best

def RankedRow.score (r : RankedRow δ) : WithTop ℤ := sortKey r.alltimeBest

/-- The rows of the statement before `ORDER BY` and `LIMIT`. -/
def rankedRows (agg : List ShareRow → δ) (rows : List ShareRow) (now : Time) :
    List (RankedRow δ) :=
  let joined := innerJoin (fun r a => r.btcAddress = a.btcAddress) (recent agg rows now)
    (alltime rows)
  joined.map fun p =>
    ⟨p.1.btcAddress, p.2.alltimeBest, p.1.columns,
      rank (fun q => sortKey q.2.alltimeBest) joined p⟩

/-! ## One row for each address -/

theorem filter_btcAddress (rows : List ShareRow) (a : Text) :
    rows.filter (fun r => r.btcAddress = a) = ofAddress rows a := rfl

theorem ofAddress_eq_nil {rows : List ShareRow} {a : Text} (h : a ∉ rows.map ShareRow.btcAddress) :
    ofAddress rows a = [] := filter_key_eq_nil h

theorem filter_gaps (rows : List ShareRow) (a : Text) :
    (gaps rows).filter (fun r => r.btcAddress = a) =
      (lag (((ofAddress rows a).map ShareRow.submittedAt).insertionSort (· ≤ ·))).map fun p =>
        ⟨a, p.1, p.2.map fun q => p.1 - q⟩ := by
  have hkey : ∀ g : Text × List ShareRow, ∀ r ∈ (lag ((g.2.map ShareRow.submittedAt).insertionSort
      (· ≤ ·))).map fun p => (⟨g.1, p.1, p.2.map fun q => p.1 - q⟩ : GapRow),
      r.btcAddress = g.1 := by
    intro g r hr
    obtain ⟨p, -, rfl⟩ := List.mem_map.mp hr
    rfl
  rw [gaps, filter_flatMap_groupBy hkey]
  split
  next => rfl
  next h => simp [ofAddress_eq_nil h, lag, lagFrom]

/-- The rows `session_starts` aggregates for an address. -/
theorem map_submittedAt_resumed (rows : List ShareRow) (a : Text) :
    let times := ((ofAddress rows a).map ShareRow.submittedAt).insertionSort (· ≤ ·)
    (((gaps rows).filter fun r => r.gapBefore.any fun gap => sevenDays < gap).filter
      fun r => r.btcAddress = a).map GapRow.submittedAt =
      ((times.zip times.tail).filter fun p => sevenDays < p.2 - p.1).map Prod.snd := by
  intro times
  rw [List.filter_comm, filter_gaps, ← filterMap_lag]
  induction lag times with
  | nil => rfl
  | cons p l ih =>
      obtain ⟨t, prev⟩ := p
      cases prev with
      | none => simpa using ih
      | some q => by_cases hgap : sevenDays < t - q <;> simpa [hgap] using ih

theorem filter_sessionStarts (rows : List ShareRow) (a : Text) :
    (sessionStarts rows).filter (fun ss => a = ss.btcAddress) =
      ((sessionStart rows a).map fun t => (⟨a, some t⟩ : SessionStartRow)).toList := by
  have htimes := map_submittedAt_resumed rows a
  simp only [eq_comm (a := a)]
  rw [sessionStarts, filter_map_groupBy (by simp), sessionStart, ← htimes]
  split
  next hmem =>
    obtain ⟨r, hr, rfl⟩ := List.mem_map.mp hmem
    have hr' := List.mem_map_of_mem (f := GapRow.submittedAt)
      (List.mem_filter.mpr ⟨hr, by simp⟩ : r ∈ List.filter (fun s => s.btcAddress = r.btcAddress) _)
    cases hmax : (List.map GapRow.submittedAt _).max? with
    | none =>
        rw [List.max?_eq_none_iff] at hmax
        rw [hmax] at hr'
        cases hr'
    | some t => simp only [hmax, Option.map_some, Option.toList_some]
  next hmem => simp [filter_key_eq_nil hmem]

/-- What the outer rows of `alltime` are filtered by. -/
theorem alltime_kept (rows : List ShareRow) :
    ((leftJoin (fun s ss => s.btcAddress = ss.btcAddress) rows (sessionStarts rows)).filter
      fun p => sinceSession p.1 p.2).map Prod.fst =
    rows.filter fun r => (sessionStart rows r.btcAddress).all fun t => t ≤ r.submittedAt := by
  rw [leftJoin_eq_map fun s _ => filter_sessionStarts rows s.btcAddress, List.filter_map,
    List.map_map]
  simp [Function.comp_def, sinceSession, Option.bind_map]

theorem filter_alltime {rows : List ShareRow} {a : Text} (h : a ∈ rows.map ShareRow.btcAddress) :
    (alltime rows).filter (fun r => a = r.btcAddress) = [⟨a, alltimeBest rows a⟩] := by
  have hkept : (rows.filter fun r => (sessionStart rows r.btcAddress).all fun t =>
      t ≤ r.submittedAt).filter (fun r => r.btcAddress = a) = sessionShares rows a := by
    rw [List.filter_comm, filter_btcAddress, sessionShares]
    have hcongr : ∀ r ∈ ofAddress rows a,
        ((sessionStart rows r.btcAddress).all fun t => decide (t ≤ r.submittedAt)) =
          ((sessionStart rows a).all fun t => decide (t ≤ r.submittedAt)) := by
      intro r hr
      rw [(mem_ofAddress.mp hr).2]
    rw [List.filter_congr hcongr]
    cases sessionStart rows a <;> simp
  obtain ⟨r, hr, rfl⟩ := List.mem_map.mp h
  obtain ⟨s, hs⟩ := exists_mem_sessionShares hr
  simp only [eq_comm (a := r.btcAddress)]
  rw [alltime, alltime_kept, filter_map_groupBy (by simp), hkept, if_pos]
  · rfl
  · rw [← hkept] at hs
    obtain ⟨hs, ha⟩ := List.mem_filter.mp hs
    exact List.mem_map.mpr ⟨s, hs, by simpa using ha⟩

theorem mem_alltime {rows : List ShareRow} {r : AlltimeRow} (hr : r ∈ alltime rows) :
    r.btcAddress ∈ rows.map ShareRow.btcAddress ∧ r.alltimeBest = alltimeBest rows r.btcAddress := by
  have hmem : r.btcAddress ∈ rows.map ShareRow.btcAddress := by
    rw [alltime, alltime_kept] at hr
    obtain ⟨⟨a, g⟩, hg, rfl⟩ := List.mem_map.mp hr
    obtain ⟨⟨s, hs, ha⟩, -⟩ := mem_groupBy.mp hg
    exact List.mem_map.mpr ⟨s, (List.mem_filter.mp hs).1, ha⟩
  refine ⟨hmem, ?_⟩
  have hself : r ∈ (alltime rows).filter fun s => r.btcAddress = s.btcAddress :=
    List.mem_filter.mpr ⟨hr, by simp⟩
  rw [filter_alltime hmem, List.mem_singleton] at hself
  exact congrArg AlltimeRow.alltimeBest hself

theorem mem_addresses_of_recent {rows : List ShareRow} {now : Time} {a : Text}
    (h : a ∈ recentAddresses rows now) : a ∈ rows.map ShareRow.btcAddress := by
  obtain ⟨-, ⟨r, hr, ha, -⟩, -⟩ := mem_recentAddresses.mp h
  exact List.mem_map.mpr ⟨r, hr, ha⟩

/-- The row of an address. -/
def rankedRow (agg : List ShareRow → δ) (rows : List ShareRow) (now : Time) (a : Text) :
    RankedRow δ :=
  ⟨a, alltimeBest rows a, agg (ofAddress (recentShares rows now) a),
    rank (fun b => sortKey (alltimeBest rows b)) (recentAddresses rows now) a⟩

/-- The joins keep one row for each recent address. -/
theorem rankedRows_eq (agg : List ShareRow → δ) (rows : List ShareRow) (now : Time) :
    rankedRows agg rows now = (recentAddresses rows now).map (rankedRow agg rows now) := by
  have hrecent : recent agg rows now = (recentAddresses rows now).map fun a =>
      ⟨a, agg (ofAddress (recentShares rows now) a)⟩ := by
    simp [recent, groupBy, recentAddresses, ofAddress, Function.comp_def]
  have hjoin : innerJoin (fun r a => decide (r.btcAddress = a.btcAddress)) (recent agg rows now)
      (alltime rows) = (recentAddresses rows now).map fun a =>
        (⟨a, agg (ofAddress (recentShares rows now) a)⟩, ⟨a, alltimeBest rows a⟩) := by
    rw [innerJoin_eq_map (f := fun r => ⟨r.btcAddress, alltimeBest rows r.btcAddress⟩), hrecent,
      List.map_map]
    · rfl
    · intro r hr
      rw [hrecent] at hr
      obtain ⟨a, ha, rfl⟩ := List.mem_map.mp hr
      exact filter_alltime (mem_addresses_of_recent ha)
  rw [rankedRows, hjoin, List.map_map]
  refine List.map_congr_left fun a _ => ?_
  simp [rankedRow, rank, List.countP_map, Function.comp_def]

/-- Ordering the rows of the statement is ordering the recent addresses. -/
theorem orderedDesc_rankedRows_iff {agg : List ShareRow → δ} {rows : List ShareRow} {now : Time}
    {out : List (RankedRow δ)} : OrderedDesc RankedRow.score (rankedRows agg rows now) out ↔
      ∃ ks, out = ks.map (rankedRow agg rows now) ∧
        OrderedDesc (fun a => sortKey (alltimeBest rows a)) (recentAddresses rows now) ks := by
  have hkey : ∀ a, RankedRow.btcAddress (rankedRow agg rows now a) = a := fun _ => rfl
  rw [rankedRows_eq, orderedDesc_map_iff hkey]
  rfl

/-! ## What `GetTop21` returns -/

structure TopColumns where
  recentBest : Option ℤ
  lastActivity : Option Time

def topColumns (g : List ShareRow) : TopColumns :=
  ⟨(g.filterMap ShareRow.trueDifficulty).max?, (g.map ShareRow.submittedAt).max?⟩

/-- Scanning one row; a NULL does not scan into a string or a time. -/
def scanRow (r : RankedRow TopColumns) : Except QueryError Entry :=
  match r.alltimeBest, r.columns.lastActivity with
  | some best, some last => .ok ⟨r.btcAddress, best, last, r.rank⟩
  | _, _ => .error .scan

/-- `res` is an answer `GetTop21` may give. -/
def Top21 (db : Db) (roundID : ℕ) (now : Time) (res : Except QueryError (List Entry)) : Prop :=
  let rows := liveShares db.shares roundID
  if (alltime rows).all fun r => bigintFits r.alltimeBest then
    ∃ out, OrderedDesc RankedRow.score (rankedRows topColumns rows now) out ∧
      res = (out.take 21).mapM scanRow
  else res = .error .query

theorem scoreAbove_iff {x y : Option ℤ} : scoreAbove x y = true ↔ sortKey y < sortKey x := by
  cases x with
  | none => cases y <;> simp [scoreAbove, sortKey, WithTop.none_eq_top, WithTop.some_eq_coe]
  | some x => cases y <;> simp [scoreAbove, sortKey, WithTop.none_eq_top, WithTop.some_eq_coe]

theorem rankOf_eq (rows : List ShareRow) (now : Time) (a : Text) :
    rankOf rows now a =
      rank (fun b => sortKey (alltimeBest rows b)) (recentAddresses rows now) a := by
  simp only [rankOf, rank, List.countP_eq_length_filter]
  congr 2
  refine List.filter_congr fun b _ => ?_
  rw [Bool.eq_iff_iff, scoreAbove_iff, decide_eq_true_iff]

theorem scanRow_rankedRow (rows : List ShareRow) (now : Time) (a : Text) :
    scanRow (rankedRow topColumns rows now a) = scanEntry rows now a := by
  rw [scanEntry, rankOf_eq]
  rfl

theorem rankedBefore_iff {rows : List ShareRow} {scan : List Text} {a b : Text} :
    rankedBefore rows scan a b = true ↔
      sortKey (alltimeBest rows b) < sortKey (alltimeBest rows a) ∨
        alltimeBest rows a = alltimeBest rows b ∧ scan.idxOf a ≤ scan.idxOf b := by
  simp [rankedBefore, scoreAbove_iff]

theorem bigintFits_alltime (rows : List ShareRow) :
    ((alltime rows).all fun r => bigintFits r.alltimeBest) =
      (rows.map ShareRow.btcAddress).all fun a => bigintFits (alltimeBest rows a) := by
  rw [Bool.eq_iff_iff, List.all_eq_true, List.all_eq_true]
  constructor
  · intro h a ha
    have hmem : (⟨a, alltimeBest rows a⟩ : AlltimeRow) ∈ alltime rows :=
      (List.mem_filter.mp (filter_alltime ha ▸ List.mem_singleton_self _)).1
    exact h _ hmem
  · intro h r hr
    obtain ⟨ha, hbest⟩ := mem_alltime hr
    exact hbest ▸ h _ ha

theorem rankedBefore_total (rows : List ShareRow) (scan : List Text) :
    Std.Total fun a b => rankedBefore rows scan a b = true := by
  refine ⟨fun a b => ?_⟩
  rw [rankedBefore_iff, rankedBefore_iff]
  rcases lt_trichotomy (sortKey (alltimeBest rows a)) (sortKey (alltimeBest rows b)) with
    hlt | heq | hlt
  · exact .inr (.inl hlt)
  · have heq' : alltimeBest rows a = alltimeBest rows b := heq
    exact (le_total (scan.idxOf a) (scan.idxOf b)).imp (fun h => .inr ⟨heq', h⟩)
      fun h => .inr ⟨heq'.symm, h⟩
  · exact .inl (.inl hlt)

theorem rankedBefore_trans (rows : List ShareRow) (scan : List Text) :
    IsTrans Text fun a b => rankedBefore rows scan a b = true := by
  refine ⟨fun a b c hab hbc => ?_⟩
  rw [rankedBefore_iff] at *
  rcases hab with hab | ⟨hab, hi⟩ <;> rcases hbc with hbc | ⟨hbc, hj⟩
  · exact .inl (hbc.trans hab)
  · exact .inl (hbc ▸ hab)
  · exact .inl (hab ▸ hbc)
  · exact .inr ⟨hab.trans hbc, hi.trans hj⟩

theorem pairwise_rankedBefore (rows : List ShareRow) (scan : List Text) (addresses : List Text) :
    (addresses.insertionSort fun a b => rankedBefore rows scan a b).Pairwise
      fun a b => rankedBefore rows scan a b :=
  have := rankedBefore_total rows scan
  have := rankedBefore_trans rows scan
  List.pairwise_insertionSort _ _

/-- Sorting by score and then by position puts the addresses in a possible order. -/
theorem orderedDesc_rankedBefore (rows : List ShareRow) (scan : List Text)
    (addresses : List Text) :
    OrderedDesc (fun a => sortKey (alltimeBest rows a)) addresses
      (addresses.insertionSort fun a b => rankedBefore rows scan a b) := by
  refine ⟨List.perm_insertionSort _ _, (pairwise_rankedBefore rows scan addresses).imp fun h => ?_⟩
  rcases rankedBefore_iff.mp h with h | ⟨h, -⟩
  · exact h.le
  · exact (congrArg sortKey h).ge

/-- Every possible order is the one that its own positions give. -/
theorem insertionSort_rankedBefore {rows : List ShareRow} {addresses out : List Text}
    (hnodup : addresses.Nodup)
    (h : OrderedDesc (fun a => sortKey (alltimeBest rows a)) addresses out) :
    (addresses.insertionSort fun a b => rankedBefore rows out a b) = out := by
  have hout : out.Pairwise fun a b => rankedBefore rows out a b := by
    refine List.pairwise_iff_getElem.mpr fun i j hi hj hij => rankedBefore_iff.mpr ?_
    rcases (List.pairwise_iff_getElem.mp h.2 i j hi hj hij).lt_or_eq with hlt | heq
    · exact .inl hlt
    · refine .inr ⟨heq.symm, ?_⟩
      have hnodup' := h.1.nodup_iff.mpr hnodup
      rw [hnodup'.idxOf_getElem, hnodup'.idxOf_getElem]
      exact hij.le
  refine List.Perm.eq_of_pairwise ?_
    (pairwise_rankedBefore rows out addresses) hout
    ((List.perm_insertionSort _ _).trans h.1.symm)
  intro a b _ hb hab hba
  rcases rankedBefore_iff.mp hab with hab | ⟨heq, hab⟩
  · rcases rankedBefore_iff.mp hba with hba | ⟨heq, -⟩
    · exact absurd hab hba.asymm
    · exact absurd hab (heq ▸ lt_irrefl _)
  · rcases rankedBefore_iff.mp hba with hba | ⟨-, hba⟩
    · exact absurd hba (heq ▸ lt_irrefl _)
    · exact ((List.idxOf_inj hb).mp (le_antisymm hba hab)).symm

/-- **The joins and windows compute what `getTop21` does.** -/
theorem top21_iff {db : Db} {roundID : ℕ} {now : Time} {res : Except QueryError (List Entry)} :
    Top21 db roundID now res ↔ ∃ scan, res = getTop21 db roundID now scan := by
  have hscan : ∀ l : List Text, (l.map (rankedRow topColumns (liveShares db.shares roundID) now)).mapM
      scanRow = l.mapM (scanEntry (liveShares db.shares roundID) now) := by
    intro l
    rw [List.mapM_map]
    simp only [Function.comp_def, scanRow_rankedRow]
  simp only [Top21, getTop21, bigintFits_alltime, orderedDesc_rankedRows_iff]
  split
  next =>
    constructor
    · rintro ⟨_, ⟨out, rfl, hout⟩, rfl⟩
      refine ⟨out, ?_⟩
      rw [← List.map_take, hscan, insertionSort_rankedBefore (nodup_recentAddresses _ _) hout]
    · rintro ⟨scan, rfl⟩
      refine ⟨_, ⟨_, rfl, orderedDesc_rankedBefore _ scan _⟩, ?_⟩
      rw [← List.map_take, hscan]
  next => simp

theorem top21_getTop21 (db : Db) (roundID : ℕ) (now : Time) (scan : List Text) :
    Top21 db roundID now (getTop21 db roundID now scan) :=
  top21_iff.mpr ⟨scan, rfl⟩

/-! ## Exactness -/

/-- A difficulty the statement can cast and scan. -/
def ShareRow.Castable (r : ShareRow) : Prop :=
  ∃ d, r.trueDifficulty = some d ∧ -2 ^ 63 ≤ d ∧ d < 2 ^ 63

theorem mem_liveShares {shares : List ShareRow} {roundID : ℕ} {r : ShareRow} :
    r ∈ liveShares shares roundID ↔ r ∈ shares ∧ r.roundId = roundID ∧ r.isStale = false := by
  simp [liveShares]

theorem mapM_eq_ok {α β ε : Type*} {f : α → Except ε β} {g : α → β} {l : List α}
    (h : ∀ a ∈ l, f a = .ok (g a)) : l.mapM f = .ok (l.map g) := by
  induction l with
  | nil => rfl
  | cons a l ih =>
      obtain ⟨ha, hl⟩ := List.forall_mem_cons.mp h
      rw [List.mapM_cons, ha, ih hl]
      rfl

/-- Every score can be cast. -/
def ScoresFit (rows : List ShareRow) : Prop := ∀ a v, Score rows a v → -2 ^ 63 ≤ v ∧ v < 2 ^ 63

theorem ShareRow.Castable.isSome {r : ShareRow} (h : r.Castable) : r.trueDifficulty.isSome := by
  obtain ⟨d, hd, -⟩ := h
  simp [hd]

theorem castable_of_score {rows : List ShareRow} (hrows : ∀ r ∈ rows, r.Castable) {a : Text} {v : ℤ}
    (hv : Score rows a v) : -2 ^ 63 ≤ v ∧ v < 2 ^ 63 := by
  obtain ⟨⟨r, hr, hd⟩, -⟩ := hv
  obtain ⟨d, hd', hrange⟩ := hrows r hr.1
  obtain rfl : d = v := Option.some.inj (hd'.symm.trans hd)
  exact hrange

/-- The casts succeed exactly if every score is in the range of `BIGINT`. -/
theorem bigintFits_iff (rows : List ShareRow) :
    ((rows.map ShareRow.btcAddress).all fun a => bigintFits (alltimeBest rows a)) = true ↔
      ScoresFit rows := by
  rw [List.all_eq_true]
  constructor
  · intro h a v hv
    obtain ⟨r, hr, -⟩ := hv.1
    have ha := h a (List.mem_map.mpr ⟨r, hr.1, hr.2.1⟩)
    simpa [bigintFits, alltimeBest_eq_some_iff.mpr hv] using ha
  · intro h a _
    cases hbest : alltimeBest rows a with
    | none => rfl
    | some v => simpa [bigintFits] using h a v (alltimeBest_eq_some_iff.mp hbest)

/-- The entry of an address that has a score. -/
def entryOf (rows : List ShareRow) (now : Time) (a : Text) : Entry :=
  ⟨a, (alltimeBest rows a).getD 0, (lastActivity rows now a).getD 0, rankOf rows now a⟩

theorem lastActivity_entryOf {rows : List ShareRow} {now : Time} {a : Text}
    (ha : a ∈ recentAddresses rows now) :
    lastActivity rows now a = some (entryOf rows now a).lastActivity := by
  have hne : (ofAddress (recentShares rows now) a).map ShareRow.submittedAt ≠ [] := by
    obtain ⟨r, hr, rfl⟩ := List.mem_map.mp (List.mem_dedup.mp ha)
    exact List.ne_nil_of_mem (List.mem_map_of_mem (mem_ofAddress.mpr ⟨hr, rfl⟩))
  obtain ⟨t, ht⟩ := Option.ne_none_iff_exists'.mp (mt List.max?_eq_none_iff.mp hne)
  have ht' : lastActivity rows now a = some t := ht
  simp [entryOf, ht']

section Valued

variable {rows : List ShareRow} {now : Time} (hrows : ∀ r ∈ rows, r.trueDifficulty.isSome)
include hrows

theorem score_entryOf {a : Text} (ha : a ∈ recentAddresses rows now) :
    Score rows a (entryOf rows now a).bestShareDifficulty := by
  obtain ⟨r, hr, rfl⟩ := List.mem_map.mp (mem_addresses_of_recent ha)
  obtain ⟨v, hv⟩ := exists_score hrows hr
  simpa [entryOf, alltimeBest_eq_some_iff.mpr hv] using hv

theorem sortKey_alltimeBest {a : Text} (ha : a ∈ recentAddresses rows now) :
    sortKey (alltimeBest rows a) = ((entryOf rows now a).bestShareDifficulty : WithTop ℤ) := by
  rw [alltimeBest_eq_some_iff.mpr (score_entryOf hrows ha)]
  rfl

theorem scanEntry_eq {a : Text} (ha : a ∈ recentAddresses rows now) :
    scanEntry rows now a = .ok (entryOf rows now a) := by
  rw [scanEntry, alltimeBest_eq_some_iff.mpr (score_entryOf hrows ha), lastActivity_entryOf ha]
  rfl

/-- The eligible addresses with a better score are those the standings count before `a`. -/
theorem better_eq_filter {a : Text} (ha : a ∈ recentAddresses rows now) :
    {b | Eligible rows now b ∧
        ∃ v, Score rows b v ∧ (entryOf rows now a).bestShareDifficulty < v} =
      {b | b ∈ (recentAddresses rows now).filter fun b =>
        scoreAbove (alltimeBest rows b) (alltimeBest rows a)} := by
  ext b
  simp only [Set.mem_ofPred_eq, List.mem_filter, mem_recentAddresses]
  refine and_congr_right fun hb => ?_
  have hb' := mem_recentAddresses.mpr hb
  rw [scoreAbove_iff, sortKey_alltimeBest hrows hb', sortKey_alltimeBest hrows ha,
    WithTop.coe_lt_coe]
  constructor
  · rintro ⟨v, hv, hlt⟩
    rwa [(score_entryOf hrows hb').unique hv]
  · exact fun hlt => ⟨_, score_entryOf hrows hb', hlt⟩

/-- Sort keys compare as the scores of the entries do. -/
theorem sortKey_le_iff {a b : Text} (ha : a ∈ recentAddresses rows now)
    (hb : b ∈ recentAddresses rows now) :
    sortKey (alltimeBest rows a) ≤ sortKey (alltimeBest rows b) ↔
      (entryOf rows now a).bestShareDifficulty ≤ (entryOf rows now b).bestShareDifficulty := by
  rw [sortKey_alltimeBest hrows ha, sortKey_alltimeBest hrows hb, WithTop.coe_le_coe]

/-- The best 21 addresses in any possible order are what they have to be. -/
theorem top21Exact_take {out : List Text}
    (hout : OrderedDesc (fun a => sortKey (alltimeBest rows a)) (recentAddresses rows now) out) :
    Top21Exact rows now ((out.take 21).map (entryOf rows now)) := by
  have hmem : ∀ a ∈ out.take 21, a ∈ recentAddresses rows now := fun a ha =>
    hout.1.mem_iff.mp (List.mem_of_mem_take ha)
  have haddr : ((out.take 21).map (entryOf rows now)).map Entry.btcAddress = out.take 21 := by
    simp [Function.comp_def, entryOf]
  refine ⟨?_, ?_, ?_, ?_, ?_, ?_, ?_, ?_⟩
  · rw [List.length_map, List.length_take, hout.1.length_eq, ncard_eligible]
  · rw [haddr]
    exact (hout.1.nodup_iff.mpr (nodup_recentAddresses rows now)).sublist (List.take_sublist _ _)
  · intro e he
    obtain ⟨a, ha, rfl⟩ := List.mem_map.mp he
    exact mem_recentAddresses.mp (hmem a ha)
  · rw [List.pairwise_map]
    refine (hout.2.sublist (List.take_sublist 21 out)).imp_of_mem fun ha hb hab => ?_
    exact (sortKey_le_iff hrows (hmem _ hb) (hmem _ ha)).mp hab
  · intro e he
    obtain ⟨a, ha, rfl⟩ := List.mem_map.mp he
    exact score_entryOf hrows (hmem a ha)
  · intro e he
    obtain ⟨a, ha, rfl⟩ := List.mem_map.mp he
    exact lastActivity_eq_some_iff.mp (lastActivity_entryOf (hmem a ha))
  · intro e he
    obtain ⟨a, ha, rfl⟩ := List.mem_map.mp he
    rw [better_eq_filter hrows (hmem a ha),
      ncard_mem_list ((nodup_recentAddresses rows now).filter _)]
    rfl
  · -- who is left out stands behind the cut in the order
    intro a ha hnot v hv e he
    obtain ⟨b, hb, rfl⟩ := List.mem_map.mp he
    rw [haddr] at hnot
    have ha' := mem_recentAddresses.mpr ha
    have hdrop : a ∈ out.drop 21 := by
      have := hout.1.mem_iff.mpr ha'
      rw [← List.take_append_drop 21 out, List.mem_append] at this
      exact this.resolve_left hnot
    have hpair := hout.2
    rw [← List.take_append_drop 21 out, List.pairwise_append] at hpair
    rw [hv.unique (score_entryOf hrows ha')]
    exact (sortKey_le_iff hrows ha' (hmem b hb)).mp (hpair.2.2 b hb a hdrop)

end Valued

theorem top21_of_fit {db : Db} {roundID : ℕ} {now : Time} {res : Except QueryError (List Entry)}
    (hrows : ∀ r ∈ liveShares db.shares roundID, r.trueDifficulty.isSome)
    (hfit : ScoresFit (liveShares db.shares roundID)) :
    Top21 db roundID now res ↔
      ∃ out, OrderedDesc (fun a => sortKey (alltimeBest (liveShares db.shares roundID) a))
          (recentAddresses (liveShares db.shares roundID) now) out ∧
        res = .ok ((out.take 21).map (entryOf (liveShares db.shares roundID) now)) := by
  rw [Top21, bigintFits_alltime, if_pos ((bigintFits_iff _).mpr hfit)]
  have hscan : ∀ {out}, OrderedDesc
      (fun a => sortKey (alltimeBest (liveShares db.shares roundID) a))
      (recentAddresses (liveShares db.shares roundID) now) out →
      ((out.map (rankedRow topColumns (liveShares db.shares roundID) now)).take 21).mapM scanRow =
        .ok ((out.take 21).map (entryOf (liveShares db.shares roundID) now)) := by
    intro out hout
    rw [← List.map_take, List.mapM_map]
    refine mapM_eq_ok fun a ha => ?_
    rw [Function.comp_apply, scanRow_rankedRow]
    exact scanEntry_eq hrows (hout.1.mem_iff.mp (List.mem_of_mem_take ha))
  simp only [orderedDesc_rankedRows_iff]
  constructor
  · rintro ⟨_, ⟨ks, rfl, hks⟩, rfl⟩
    exact ⟨ks, hks, hscan hks⟩
  · rintro ⟨ks, hks, rfl⟩
    exact ⟨_, ⟨ks, rfl, hks⟩, (hscan hks).symm⟩

theorem top21_of_not_fit {db : Db} {roundID : ℕ} {now : Time} {res : Except QueryError (List Entry)}
    (hfit : ¬ ScoresFit (liveShares db.shares roundID)) :
    Top21 db roundID now res ↔ res = .error .query := by
  rw [Top21, bigintFits_alltime, if_neg (mt (bigintFits_iff _).mp hfit)]

/-- **The paid list is exact.** Whatever order tied rows come in, `GetTop21`
answers with the best 21 eligible addresses of the round. -/
theorem top21_exact (db : Db) (roundID : ℕ) (now : Time)
    (hshares : ∀ r ∈ db.shares, r.Castable) :
    (∃ res, Top21 db roundID now res) ∧
      ∀ res, Top21 db roundID now res → ∃ entries, res = .ok entries ∧
        Top21Exact (liveShares db.shares roundID) now entries := by
  have hlive : ∀ r ∈ liveShares db.shares roundID, r.Castable := fun r hr =>
    hshares r (mem_liveShares.mp hr).1
  have hrows := fun r hr => (hlive r hr).isSome
  refine ⟨⟨_, top21_getTop21 db roundID now []⟩, fun res hres => ?_⟩
  obtain ⟨out, hout, rfl⟩ := (top21_of_fit hrows fun a v => castable_of_score hlive).mp hres
  exact ⟨_, rfl, top21Exact_take hrows hout⟩

/-- One round with a share of each of the given difficulties, each of its own address. -/
def tableOf (difficulties : List (Char × ℤ)) : Db :=
  { Db.bootstrap ⟨[], [], [], [], 1, 1⟩ 0 with
    shares := difficulties.map fun p => ⟨1, [p.1], [], 1, 0, false, some p.2, none⟩ }

theorem top21_exact_tied :
    (∃ res, Top21 (tableOf [('a', 7), ('b', 7), ('c', 9)]) 1 0 res) ∧
      ∀ res, Top21 (tableOf [('a', 7), ('b', 7), ('c', 9)]) 1 0 res →
        ∃ entries, res = .ok entries ∧
          Top21Exact (liveShares (tableOf [('a', 7), ('b', 7), ('c', 9)]).shares 1) 0 entries :=
  top21_exact _ 1 0 fun r hr => by
    simp only [tableOf, List.map_cons, List.map_nil, List.mem_cons, List.not_mem_nil, or_false] at hr
    rcases hr with rfl | rfl | rfl
    · exact ⟨7, rfl, by decide, by decide⟩
    · exact ⟨7, rfl, by decide, by decide⟩
    · exact ⟨9, rfl, by decide, by decide⟩

/-- The cast also fails below the range of `BIGINT`, and nothing is returned. -/
theorem top21_underflow :
    (∀ r ∈ (tableOf [('a', -2 ^ 63 - 1)]).shares, ∃ d, r.trueDifficulty = some d ∧ d < 2 ^ 63) ∧
      ¬ ∀ res, Top21 (tableOf [('a', -2 ^ 63 - 1)]) 1 0 res → ∃ entries, res = .ok entries := by
  have hfail : getTop21 (tableOf [('a', -2 ^ 63 - 1)]) 1 0 [] = .error .query := rfl
  refine ⟨fun r hr => ?_, fun hall => ?_⟩
  · obtain rfl : r = ⟨1, ['a'], [], 1, 0, false, some (-2 ^ 63 - 1), none⟩ := by
      simpa [tableOf] using hr
    exact ⟨_, rfl, by norm_num⟩
  · obtain ⟨entries, hok⟩ := hall _ (top21_getTop21 _ 1 0 [])
    rw [hfail] at hok
    cases hok

end Reward
