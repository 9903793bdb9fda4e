import Unlucky21.Reward.Builder
import Unlucky21.Reward.Tables

/-!
# The leaderboard query

`GetTop21` is one SQL statement; each common table expression is a definition
here. An address is ranked by its best share since its session start, the end
of the last pause of more than seven days. PostgreSQL leaves the order of rows
with equal scores open: `scan` lists addresses in the order they come out, and
every order is some `scan`.
-/

namespace Reward

open Wire

structure Entry where
  btcAddress : Text
  bestShareDifficulty : ℤ
  lastActivity : Time
  rank : ℕ
deriving DecidableEq, Repr

inductive QueryError
  | query
  | scan
deriving DecidableEq, Repr

def sevenDays : ℤ := 7 * 24 * 60 * 60 * 1000000

/-! ## The common table expressions -/

def liveShares (shares : List ShareRow) (roundID : ℕ) : List ShareRow :=
  shares.filter fun r => r.roundId = roundID && !r.isStale

def ofAddress (rows : List ShareRow) (a : Text) : List ShareRow :=
  rows.filter fun r => r.btcAddress = a

/-- `recent`: the addresses with a share in the last seven days. -/
def recentShares (rows : List ShareRow) (now : Time) : List ShareRow :=
  rows.filter fun r => now - sevenDays < r.submittedAt

def recentAddresses (rows : List ShareRow) (now : Time) : List Text :=
  ((recentShares rows now).map ShareRow.btcAddress).dedup

/-- `gaps` and `session_starts`: the latest time that follows the one before it
by more than seven days. -/
def sessionStart (rows : List ShareRow) (a : Text) : Option Time :=
  let times := ((ofAddress rows a).map ShareRow.submittedAt).insertionSort (· ≤ ·)
  (((times.zip times.tail).filter fun p => sevenDays < p.2 - p.1).map Prod.snd).max?

/-- The rows `alltime` aggregates for an address. -/
def sessionShares (rows : List ShareRow) (a : Text) : List ShareRow :=
  match sessionStart rows a with
  | none => ofAddress rows a
  | some t => (ofAddress rows a).filter fun r => t ≤ r.submittedAt

/-- `MAX(true_difficulty)`, NULL when every value is NULL. -/
def alltimeBest (rows : List ShareRow) (a : Text) : Option ℤ :=
  ((sessionShares rows a).filterMap ShareRow.trueDifficulty).max?

/-- Whether the cast to `BIGINT` succeeds; NULL stays NULL. -/
def bigintFits (best : Option ℤ) : Bool := best.all fun d => -2 ^ 63 ≤ d && d < 2 ^ 63

/-! ## The result -/

/-- `ORDER BY alltime_best DESC`: NULL comes first. -/
def scoreAbove : Option ℤ → Option ℤ → Bool
  | none, none => false
  | none, some _ => true
  | some _, none => false
  | some x, some y => y < x

/-- Score first, then the order in which the database happens to return ties. -/
def rankedBefore (rows : List ShareRow) (scan : List Text) (a b : Text) : Bool :=
  scoreAbove (alltimeBest rows a) (alltimeBest rows b) ||
    (alltimeBest rows a = alltimeBest rows b && scan.idxOf a ≤ scan.idxOf b)

def rankOf (rows : List ShareRow) (now : Time) (a : Text) : ℕ :=
  1 + ((recentAddresses rows now).filter fun b =>
    scoreAbove (alltimeBest rows b) (alltimeBest rows a)).length

def lastActivity (rows : List ShareRow) (now : Time) (a : Text) : Option Time :=
  ((ofAddress (recentShares rows now) a).map ShareRow.submittedAt).max?

/-- Scanning one row; a NULL does not scan into a string. -/
def scanEntry (rows : List ShareRow) (now : Time) (a : Text) : Except QueryError Entry :=
  match alltimeBest rows a, lastActivity rows now a with
  | some best, some last => .ok ⟨a, best, last, rankOf rows now a⟩
  | _, _ => .error .scan

def getTop21 (db : Db) (roundID : ℕ) (now : Time) (scan : List Text) :
    Except QueryError (List Entry) :=
  let rows := liveShares db.shares roundID
  if (rows.map ShareRow.btcAddress).all fun a => bigintFits (alltimeBest rows a) then
    (((recentAddresses rows now).insertionSort fun a b => rankedBefore rows scan a b).take
      21).mapM (scanEntry rows now)
  else .error .query

end Reward
