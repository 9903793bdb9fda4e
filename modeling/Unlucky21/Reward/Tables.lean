import Unlucky21.Lib.Bytes

/-!
# The reward database

The tables of `schema.sql` that the shared pool's service reads or writes, with
the constraints PostgreSQL checks on every insert. A serial column takes its
value from a sequence that never goes back. Times are microseconds, the
resolution of `TIMESTAMPTZ`.
-/

namespace Reward

open Wire

abbrev Time := ℤ

structure RoundRow where
  id : ℕ
  startedAt : Time
  endedAt : Option Time
  blockId : Option ℕ
deriving DecidableEq, Repr

/-- One element of the JSON array in `blocks.top_21_snapshot`. -/
structure SnapshotEntry where
  rank : ℕ
  address : Text
  amountSats : ℤ
deriving DecidableEq, Repr

structure BlockRow where
  id : ℕ
  roundId : ℕ
  height : ℤ
  hash : Text
  foundAt : Time
  finderAddress : Text
  coinbaseTxid : Text
  top21Snapshot : List SnapshotEntry
  blockFeesSats : ℤ
  confirmed : Bool
  isOrphaned : Bool
deriving DecidableEq, Repr

/-- `true_difficulty` and `source_port` are NULL in rows older than the columns. -/
structure ShareRow where
  roundId : ℕ
  btcAddress : Text
  workerName : Text
  shareDifficulty : ℤ
  submittedAt : Time
  isStale : Bool
  trueDifficulty : Option ℤ
  sourcePort : Option ℤ
deriving DecidableEq, Repr

structure WorkerRow where
  btcAddress : Text
  workerName : Text
  lastSeen : Time
deriving DecidableEq, Repr

structure Db where
  rounds : List RoundRow
  blocks : List BlockRow
  shares : List ShareRow
  workers : List WorkerRow
  roundSeq : ℕ
  blockSeq : ℕ
deriving DecidableEq, Repr

def RoundRow.isOpen (r : RoundRow) : Bool := r.endedAt.isNone

def Db.openRounds (db : Db) : List RoundRow := db.rounds.filter RoundRow.isOpen

/-- What the schema keeps true of rounds and blocks, whatever is written: ids
come from the sequences and are primary keys, and a block names a round. -/
structure Db.Constraints (db : Db) : Prop where
  round_ids : (db.rounds.map RoundRow.id).Nodup
  round_fresh : ∀ r ∈ db.rounds, r.id < db.roundSeq
  block_ids : (db.blocks.map BlockRow.id).Nodup
  block_fresh : ∀ b ∈ db.blocks, b.id < db.blockSeq
  block_round : ∀ b ∈ db.blocks, ∃ r ∈ db.rounds, r.id = b.roundId

/-- The schema's bootstrap insert: open a round when none is open. -/
def Db.bootstrap (db : Db) (now : Time) : Db :=
  if db.openRounds = [] then
    { db with
      rounds := db.rounds ++ [⟨db.roundSeq, now, none, none⟩]
      roundSeq := db.roundSeq + 1 }
  else db

/-- `ActiveRoundID`: the open round that was started last. -/
def activeRoundID (db : Db) : Option ℕ :=
  ((db.openRounds.insertionSort fun a b => b.startedAt ≤ a.startedAt).head?).map RoundRow.id

theorem activeRoundID_of_openRounds {db : Db} {r : RoundRow} (h : db.openRounds = [r]) :
    activeRoundID db = some r.id := by
  simp [activeRoundID, h]

end Reward
