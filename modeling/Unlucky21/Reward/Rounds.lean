import Unlucky21.Reward.Buffer
import Unlucky21.Reward.Leaderboard

/-!
# Blocks and rounds

The operations of the leaderboard service on `blocks` and `rounds`. A block is
recorded against a round; confirming it closes its round and opens the next,
unless the round is closed already. Several blocks may name one round.
-/

namespace Reward

open Wire Int64Arith

/-! ## Recording a block -/

/-- The message of a found block, as it comes over the socket. -/
structure BlockFoundMsg where
  height : ℤ
  hash : Text
  finderAddress : Text
  coinbaseTxid : Text
  feesSats : ℤ
deriving DecidableEq, Repr

/-- The message with the round it is credited to. -/
structure BlockFound extends BlockFoundMsg where
  roundID : ℕ
deriving DecidableEq, Repr

def subsidySats : ℤ := 312500000

/-- The second copy of the reward arithmetic: only the per-slot amount is kept. -/
def buildSnapshot (snapshot : List Entry) (feesSats : ℤ) : List SnapshotEntry :=
  let total := int64 (subsidySats + feesSats)
  let slot := perSlot total (cut finderPercent total) (cut poolFeePercent total)
  snapshot.map fun e => ⟨e.rank, e.btcAddress, slot⟩

/-- The constraints on `blocks`; `height` is an `INTEGER`, `block_fees_sats` a `BIGINT`. -/
def Db.admitsBlock (db : Db) (bf : BlockFound) : Bool :=
  db.rounds.any (fun r => r.id = bf.roundID) && !db.blocks.any (fun b => b.hash = bf.hash) &&
    varchar 64 bf.hash && varchar 90 bf.finderAddress && varchar 64 bf.coinbaseTxid

/-- The `INSERT` of `RecordUnconfirmedBlock`, after its query and its marshalling. -/
def insertBlock (db : Db) (bf : BlockFound) (snapshot : List Entry) (now : Time) : Option Db :=
  if db.admitsBlock bf then
    some { db with
      blocks := db.blocks ++ [{
        id := db.blockSeq
        roundId := bf.roundID
        height := bf.height
        hash := bf.hash
        foundAt := now
        finderAddress := bf.finderAddress
        coinbaseTxid := bf.coinbaseTxid
        top21Snapshot := buildSnapshot snapshot bf.feesSats
        blockFeesSats := bf.feesSats
        confirmed := false
        isOrphaned := false }]
      blockSeq := db.blockSeq + 1 }
  else none

/-! ## Confirming a block -/

def Db.roundOf (db : Db) (blockID : ℕ) : Option ℕ :=
  (db.blocks.find? fun b => b.id = blockID).map BlockRow.roundId

def Db.alreadyClosed (db : Db) (roundID : ℕ) : Bool :=
  db.rounds.any fun r => r.id = roundID && r.endedAt.isSome

def Db.markConfirmed (db : Db) (blockID : ℕ) : Db :=
  { db with blocks := db.blocks.map fun b =>
      if b.id = blockID then { b with confirmed := true } else b }

def Db.closeRound (db : Db) (roundID blockID : ℕ) (now : Time) : Db :=
  { db with rounds := db.rounds.map fun r =>
      if r.id = roundID then { r with endedAt := some now, blockId := some blockID } else r }

def Db.openRound (db : Db) (now : Time) : Db :=
  { db with
    rounds := db.rounds ++ [⟨db.roundSeq, now, none, none⟩]
    roundSeq := db.roundSeq + 1 }

/-- `ConfirmBlock`, committed: the round id it returns and what it leaves. Of
its two exits, the one for a round that is closed already returns that round. -/
def confirmBlock (db : Db) (blockID : ℕ) (now : Time) : Option (ℕ × Db) :=
  (db.roundOf blockID).map fun roundID =>
    if db.alreadyClosed roundID then (roundID, db.markConfirmed blockID)
    else (db.roundSeq, ((db.markConfirmed blockID).closeRound roundID blockID now).openRound now)

/-! ## Polling -/

structure UnconfirmedBlock where
  id : ℕ
  hash : Text
  height : ℤ
  roundID : ℕ
deriving DecidableEq, Repr

/-- Oldest first; `scan` lists ids in the order in which ties come out. -/
def getUnconfirmedBlocks (db : Db) (scan : List ℕ) : List UnconfirmedBlock :=
  ((db.blocks.filter fun b => !b.confirmed && !b.isOrphaned).insertionSort fun a b =>
      a.foundAt < b.foundAt ∨ a.foundAt = b.foundAt ∧ scan.idxOf a.id ≤ scan.idxOf b.id).map
    fun b => ⟨b.id, b.hash, b.height, b.roundId⟩

def markOrphaned (db : Db) (blockID : ℕ) : Db :=
  { db with blocks := db.blocks.map fun b =>
      if b.id = blockID then { b with isOrphaned := true } else b }

/-! ## The constraints are kept -/

variable {db : Db}

theorem Db.Constraints.of_writeShares (h : db.Constraints) (pending : List BufferedShare)
    (now : Time) : (db.writeShares pending now).Constraints :=
  ⟨h.1, h.2, h.3, h.4, h.5⟩

/-- Changing columns of a block other than its id and its round. -/
theorem Db.Constraints.of_map_blocks (h : db.Constraints) {f : BlockRow → BlockRow}
    (hid : ∀ b, (f b).id = b.id) (hround : ∀ b, (f b).roundId = b.roundId) :
    Db.Constraints { db with blocks := db.blocks.map f } where
  round_ids := h.round_ids
  round_fresh := h.round_fresh
  block_ids := by
    have : (db.blocks.map f).map BlockRow.id = db.blocks.map BlockRow.id := by
      simp [Function.comp_def, hid]
    exact this ▸ h.block_ids
  block_fresh := by
    intro b hb
    obtain ⟨b', hb', rfl⟩ := List.mem_map.mp hb
    exact hid b' ▸ h.block_fresh b' hb'
  block_round := by
    intro b hb
    obtain ⟨b', hb', rfl⟩ := List.mem_map.mp hb
    exact hround b' ▸ h.block_round b' hb'

theorem Db.Constraints.of_markConfirmed (h : db.Constraints) (blockID : ℕ) :
    (db.markConfirmed blockID).Constraints :=
  h.of_map_blocks (fun b => by split_ifs <;> rfl) (fun b => by split_ifs <;> rfl)

theorem Db.Constraints.of_markOrphaned (h : db.Constraints) (blockID : ℕ) :
    (markOrphaned db blockID).Constraints :=
  h.of_map_blocks (fun b => by split_ifs <;> rfl) (fun b => by split_ifs <;> rfl)

theorem Db.Constraints.of_closeRound (h : db.Constraints) (roundID blockID : ℕ) (now : Time) :
    (db.closeRound roundID blockID now).Constraints := by
  have hid : (db.closeRound roundID blockID now).rounds.map RoundRow.id =
      db.rounds.map RoundRow.id := by
    simp only [Db.closeRound, List.map_map]
    refine List.map_congr_left fun r _ => ?_
    simp only [Function.comp_apply]
    split_ifs <;> rfl
  have hmem : ∀ i, (∃ r ∈ (db.closeRound roundID blockID now).rounds, r.id = i) ↔
      ∃ r ∈ db.rounds, r.id = i := by
    intro i
    rw [← List.mem_map, ← List.mem_map, hid]
  refine ⟨hid ▸ h.round_ids, ?_, h.block_ids, h.block_fresh, ?_⟩
  · intro r hr
    obtain ⟨r', hr', hrr'⟩ := (hmem r.id).mp ⟨r, hr, rfl⟩
    exact hrr' ▸ h.round_fresh r' hr'
  · intro b hb
    exact (hmem b.roundId).mpr (h.block_round b hb)

theorem Db.Constraints.of_openRound (h : db.Constraints) (now : Time) :
    (db.openRound now).Constraints where
  round_ids := by
    have hfresh : db.roundSeq ∉ db.rounds.map RoundRow.id := by
      intro hmem
      obtain ⟨r, hr, heq⟩ := List.mem_map.mp hmem
      exact (h.round_fresh r hr).ne heq
    simpa [Db.openRound, List.nodup_append, h.round_ids] using hfresh
  round_fresh := by
    intro r hr
    simp only [Db.openRound, List.mem_append, List.mem_singleton] at hr ⊢
    rcases hr with hr | rfl
    · exact Nat.lt_succ_of_lt (h.round_fresh r hr)
    · exact Nat.lt_succ_self _
  block_ids := h.block_ids
  block_fresh := h.block_fresh
  block_round := by
    intro b hb
    obtain ⟨r, hr, heq⟩ := h.block_round b hb
    exact ⟨r, List.mem_append_left _ hr, heq⟩

theorem Db.Constraints.of_insertBlock (h : db.Constraints) {bf : BlockFound}
    {snapshot : List Entry} {now : Time} {db' : Db}
    (hins : insertBlock db bf snapshot now = some db') : db'.Constraints := by
  unfold insertBlock at hins
  split_ifs at hins with hadm
  obtain rfl := Option.some.inj hins
  have hround : ∃ r ∈ db.rounds, r.id = bf.roundID := by
    simp only [Db.admitsBlock, Bool.and_eq_true, List.any_eq_true, decide_eq_true_eq] at hadm
    exact hadm.1.1.1.1
  refine ⟨h.round_ids, h.round_fresh, ?_, ?_, ?_⟩
  · have hfresh : ∀ b ∈ db.blocks, b.id ≠ db.blockSeq := fun b hb => (h.block_fresh b hb).ne
    simpa [List.nodup_append, h.block_ids] using hfresh
  · intro b hb
    rcases List.mem_append.mp hb with hb | hb
    · exact Nat.lt_succ_of_lt (h.block_fresh b hb)
    · rw [List.mem_singleton.mp hb]
      exact Nat.lt_succ_self _
  · intro b hb
    rcases List.mem_append.mp hb with hb | hb
    · exact h.block_round b hb
    · rw [List.mem_singleton.mp hb]
      exact hround

end Reward
