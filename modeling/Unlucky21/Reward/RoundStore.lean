import Unlucky21.Lib.Runs
import Unlucky21.Reward.Rounds

/-!
# The store of rounds

The schema has no constraint against two open rounds. That there is exactly one
rests on `ConfirmBlock`, which opens a round only when it closes the open one,
and on the bootstrap insert. The operations are taken one at a time; each of
them commits, or fails and leaves the database as it is.
-/

namespace Reward

open Runs

/-! ## Rounds of the database -/

theorem Db.alreadyClosed_eq_false {db : Db} {roundID : ℕ} :
    db.alreadyClosed roundID = false ↔ ∀ r ∈ db.rounds, r.id = roundID → r.isOpen := by
  simp [Db.alreadyClosed, RoundRow.isOpen]

theorem Db.mem_openRounds {db : Db} {r : RoundRow} :
    r ∈ db.openRounds ↔ r ∈ db.rounds ∧ r.isOpen := by
  simp [Db.openRounds]

/-- A closed round's id is not that of the open one. -/
theorem Db.not_open_of_alreadyClosed {db : Db} (hc : db.Constraints) {roundID : ℕ}
    (h : db.alreadyClosed roundID = true) : ∀ r ∈ db.openRounds, r.id ≠ roundID := by
  intro r hr heq
  obtain ⟨hmem, hopen⟩ := Db.mem_openRounds.mp hr
  obtain ⟨r', hr', hid, hclosed⟩ : ∃ r' ∈ db.rounds, r'.id = roundID ∧ r'.endedAt.isSome := by
    simpa [Db.alreadyClosed] using h
  obtain rfl : r = r' := List.inj_on_of_nodup_map hc.round_ids hmem hr' (heq.trans hid.symm)
  simp [RoundRow.isOpen, Option.isNone_iff_eq_none] at hopen
  simp [hopen] at hclosed

/-- Confirming a block of the open round leaves the new round as the open one. -/
theorem Db.openRounds_confirmed {db : Db} {r : RoundRow} (hopen : db.openRounds = [r])
    {blockID : ℕ} (now : Time) :
    (((db.markConfirmed blockID).closeRound r.id blockID now).openRound now).openRounds =
      [⟨db.roundSeq, now, none, none⟩] := by
  have hnone : ∀ r' ∈ db.rounds, r'.id ≠ r.id → r'.isOpen = false := by
    intro r' hr' hne
    by_contra h
    have hmem : r' ∈ db.openRounds := Db.mem_openRounds.mpr ⟨hr', by simpa using h⟩
    rw [hopen, List.mem_singleton] at hmem
    exact hne (hmem ▸ rfl)
  have hold : (((db.markConfirmed blockID).closeRound r.id blockID now).rounds.filter
      RoundRow.isOpen) = [] := by
    rw [List.filter_eq_nil_iff]
    intro r' hr'
    simp only [Db.closeRound, Db.markConfirmed, List.mem_map] at hr'
    obtain ⟨r'', hr'', rfl⟩ := hr'
    split_ifs with hid
    · simp [RoundRow.isOpen]
    · simp [hnone r'' hr'' hid]
  simp only [Db.openRounds, Db.openRound, List.filter_append, hold]
  simp [RoundRow.isOpen, Db.closeRound, Db.markConfirmed]

/-- The two exits of `ConfirmBlock`. -/
theorem confirmBlock_inv {db db' : Db} {blockID newRoundID : ℕ} {now : Time}
    (h : confirmBlock db blockID now = some (newRoundID, db')) :
    ∃ b ∈ db.blocks, b.id = blockID ∧ db.roundOf blockID = some b.roundId ∧
      ((db.alreadyClosed b.roundId = true ∧ newRoundID = b.roundId ∧
          db' = db.markConfirmed blockID) ∨
        (db.alreadyClosed b.roundId = false ∧ newRoundID = db.roundSeq ∧
          db' = ((db.markConfirmed blockID).closeRound b.roundId blockID now).openRound now)) := by
  obtain ⟨roundID, hround, heq⟩ := Option.map_eq_some_iff.mp h
  obtain ⟨b, hfind, rfl⟩ := Option.map_eq_some_iff.mp hround
  have hid : b.id = blockID := by simpa using List.find?_some hfind
  refine ⟨b, List.mem_of_find?_eq_some hfind, hid, hround, ?_⟩
  cases hcl : db.alreadyClosed b.roundId with
  | true =>
      simp only [hcl, if_true, Prod.mk.injEq] at heq
      exact .inl ⟨rfl, heq.1.symm, heq.2.symm⟩
  | false =>
      simp only [hcl, Bool.false_eq_true, if_false, Prod.mk.injEq] at heq
      exact .inr ⟨rfl, heq.1.symm, heq.2.symm⟩

/-- The two exits of `ConfirmBlock`, for a database with one open round. -/
theorem confirmBlock_cases {db db' : Db} {r : RoundRow} {blockID newRoundID : ℕ} {now : Time}
    (hc : db.Constraints) (hopen : db.openRounds = [r])
    (h : confirmBlock db blockID now = some (newRoundID, db')) :
    db'.Constraints ∧ ∃ roundID, db.roundOf blockID = some roundID ∧
      ((db.alreadyClosed roundID = true ∧ newRoundID = roundID ∧ newRoundID ≠ r.id ∧
          db'.openRounds = [r]) ∨
        (db.alreadyClosed roundID = false ∧ roundID = r.id ∧
          db'.openRounds = [⟨newRoundID, now, none, none⟩])) := by
  obtain ⟨b, hb, rfl, hround, ⟨hcl, rfl, rfl⟩ | ⟨hcl, rfl, rfl⟩⟩ := confirmBlock_inv h
  · refine ⟨hc.of_markConfirmed b.id, b.roundId, hround, .inl ⟨hcl, rfl, ?_, hopen⟩⟩
    exact (Db.not_open_of_alreadyClosed hc hcl r (by simp [hopen])).symm
  · obtain ⟨r', hr', hid⟩ := hc.block_round b hb
    have hmem : r' ∈ db.openRounds :=
      Db.mem_openRounds.mpr ⟨hr', Db.alreadyClosed_eq_false.mp hcl r' hr' hid⟩
    obtain rfl : r' = r := by simpa [hopen] using hmem
    rw [← hid] at hround hcl ⊢
    exact ⟨((hc.of_markConfirmed b.id).of_closeRound r'.id b.id now).of_openRound now, r'.id, hround,
      .inr ⟨hcl, rfl, Db.openRounds_confirmed hopen now⟩⟩

/-! ## Steps that leave the rounds alone -/

theorem insertBlock_rounds {db db' : Db} {bf : BlockFound} {snapshot : List Entry} {now : Time}
    (h : insertBlock db bf snapshot now = some db') : db'.rounds = db.rounds := by
  unfold insertBlock at h
  split_ifs at h
  obtain rfl := Option.some.inj h
  rfl

/-- What a step other than a confirmation may do to the database. -/
inductive QuietStep (db : Db) : Db → Prop
  | same : QuietStep db db
  | shares (pending now) : QuietStep db (db.writeShares pending now)
  | block {bf snapshot now db'} (h : insertBlock db bf snapshot now = some db') : QuietStep db db'
  | orphan (blockID) : QuietStep db (markOrphaned db blockID)

theorem QuietStep.rounds {db db' : Db} (h : QuietStep db db') : db'.rounds = db.rounds := by
  cases h with
  | same => rfl
  | shares pending now => rfl
  | block h => exact insertBlock_rounds h
  | orphan blockID => rfl

theorem QuietStep.constraints {db db' : Db} (h : QuietStep db db') (hc : db.Constraints) :
    db'.Constraints := by
  cases h with
  | same => exact hc
  | shares pending now => exact hc.of_writeShares pending now
  | block h => exact hc.of_insertBlock h
  | orphan blockID => exact hc.of_markOrphaned blockID

/-! ## Operations -/

/-- `RecordUnconfirmedBlock`: query, snapshot, insert. -/
def recordUnconfirmedBlock (db : Db) (bf : BlockFound) (now : Time) (scan : List Wire.Text) :
    Option Db :=
  match getTop21 db bf.roundID now scan with
  | .ok snapshot => insertBlock db bf snapshot now
  | .error _ => none

/-- The writes to the store; `connect` runs the schema again. -/
inductive StoreOp
  | connect (now : Time)
  | flushShares (pending : List BufferedShare) (now : Time)
  | recordUnconfirmedBlock (bf : BlockFound) (now : Time) (scan : List Wire.Text)
  | confirmBlock (blockID : ℕ) (now : Time)
  | markOrphaned (blockID : ℕ)
deriving DecidableEq, Repr

/-- What a committed operation leaves. -/
def StoreOp.effect (db : Db) : StoreOp → Option Db
  | .connect now => some (db.bootstrap now)
  | .flushShares pending now => some (db.writeShares pending now)
  | .recordUnconfirmedBlock bf now scan => Reward.recordUnconfirmedBlock db bf now scan
  | .confirmBlock blockID now => (Reward.confirmBlock db blockID now).map Prod.snd
  | .markOrphaned blockID => some (Reward.markOrphaned db blockID)

/-- An operation and whether it commits. -/
def storeStep (db : Db) (op : StoreOp × Bool) : Option Db :=
  if op.2 then op.1.effect db else some db

/-! ## The invariant -/

/-- One round is open; a round is closed by a confirmed block of its own. -/
structure RoundStore (db : Db) : Prop where
  constraints : db.Constraints
  one_open : ∃ r, db.openRounds = [r]
  closed_iff : ∀ r ∈ db.rounds, r.endedAt.isSome ↔ r.blockId.isSome
  closed_by : ∀ r ∈ db.rounds, ∀ blockID, r.blockId = some blockID →
    ∃ b ∈ db.blocks, b.id = blockID ∧ b.confirmed ∧ b.roundId = r.id

/-- Closed rounds stay as they are, blocks keep their round and stay confirmed. -/
structure Extends (db db' : Db) : Prop where
  closed : ∀ r ∈ db.rounds, r.endedAt.isSome → r ∈ db'.rounds
  blocks : ∀ b ∈ db.blocks, ∃ b' ∈ db'.blocks,
    b'.id = b.id ∧ b'.roundId = b.roundId ∧ (b.confirmed → b'.confirmed)

namespace Extends

variable {db db' db'' : Db}

theorem refl (db : Db) : Extends db db :=
  ⟨fun _ hr _ => hr, fun b hb => ⟨b, hb, rfl, rfl, id⟩⟩

theorem trans (h : Extends db db') (h' : Extends db' db'') : Extends db db'' where
  closed r hr hc := h'.closed r (h.closed r hr hc) hc
  blocks b hb := by
    obtain ⟨b', hb', hid, hround, hconf⟩ := h.blocks b hb
    obtain ⟨b'', hb'', hid', hround', hconf'⟩ := h'.blocks b' hb'
    exact ⟨b'', hb'', hid'.trans hid, hround'.trans hround, hconf' ∘ hconf⟩

/-- Changing columns of blocks other than these. -/
theorem of_map_blocks {f : BlockRow → BlockRow} (hid : ∀ b, (f b).id = b.id)
    (hround : ∀ b, (f b).roundId = b.roundId) (hconf : ∀ b, b.confirmed → (f b).confirmed) :
    Extends db { db with blocks := db.blocks.map f } where
  closed _ hr _ := hr
  blocks b hb := ⟨f b, List.mem_map_of_mem hb, hid b, hround b, hconf b⟩

theorem markConfirmed (db : Db) (blockID : ℕ) : Extends db (db.markConfirmed blockID) :=
  of_map_blocks (fun b => by split_ifs <;> rfl) (fun b => by split_ifs <;> rfl)
    (fun b hb => by split_ifs <;> simp [hb])

theorem openRound (db : Db) (now : Time) : Extends db (db.openRound now) where
  closed _ hr _ := List.mem_append_left _ hr
  blocks b hb := ⟨b, hb, rfl, rfl, id⟩

/-- Closing an open round. -/
theorem closeRound {roundID : ℕ} (h : db.alreadyClosed roundID = false) (blockID : ℕ)
    (now : Time) : Extends db (db.closeRound roundID blockID now) where
  closed r hr hc := by
    have hne : r.id ≠ roundID := by
      intro heq
      have hopen := Db.alreadyClosed_eq_false.mp h r hr heq
      simp only [RoundRow.isOpen, Option.isNone_iff_eq_none] at hopen
      simp [hopen] at hc
    exact List.mem_map.mpr ⟨r, hr, if_neg hne⟩
  blocks b hb := ⟨b, hb, rfl, rfl, id⟩

theorem quiet (h : QuietStep db db') : Extends db db' := by
  cases h with
  | same => exact refl db
  | shares pending now => exact ⟨fun _ hr _ => hr, fun b hb => ⟨b, hb, rfl, rfl, id⟩⟩
  | block h =>
      unfold insertBlock at h
      split_ifs at h
      obtain rfl := Option.some.inj h
      exact ⟨fun _ hr _ => hr, fun b hb => ⟨b, List.mem_append_left _ hb, rfl, rfl, id⟩⟩
  | orphan blockID =>
      exact of_map_blocks (fun b => by split_ifs <;> rfl) (fun b => by split_ifs <;> rfl)
        (fun b hb => by split_ifs <;> simp [hb])

theorem confirmBlock {blockID newRoundID : ℕ} {now : Time}
    (h : confirmBlock db blockID now = some (newRoundID, db')) : Extends db db' := by
  obtain ⟨b, hb, rfl, -, ⟨hcl, -, rfl⟩ | ⟨hcl, -, rfl⟩⟩ := confirmBlock_inv h
  · exact markConfirmed db b.id
  · have hcl' : (db.markConfirmed b.id).alreadyClosed b.roundId = false := hcl
    exact ((markConfirmed db b.id).trans (closeRound hcl' b.id now)).trans (openRound _ now)

end Extends

namespace RoundStore

variable {db db' : Db}

theorem of_rounds_eq (h : RoundStore db) (hext : Extends db db') (hc : db'.Constraints)
    (hrounds : db'.rounds = db.rounds) : RoundStore db' where
  constraints := hc
  one_open := by
    rw [Db.openRounds, hrounds]
    exact h.one_open
  closed_iff := by
    rw [hrounds]
    exact h.closed_iff
  closed_by := by
    rw [hrounds]
    intro r hr blockID hblock
    obtain ⟨b, hb, hid, hconf, hround⟩ := h.closed_by r hr blockID hblock
    obtain ⟨b', hb', hid', hround', hconf'⟩ := hext.blocks b hb
    exact ⟨b', hb', hid'.trans hid, hconf' hconf, hround'.trans hround⟩

theorem quiet (h : RoundStore db) (hq : QuietStep db db') : RoundStore db' :=
  h.of_rounds_eq (.quiet hq) (hq.constraints h.constraints) hq.rounds

/-- With a round open the bootstrap insert does nothing. -/
theorem bootstrap_eq (h : RoundStore db) (now : Time) : db.bootstrap now = db := by
  obtain ⟨r, hopen⟩ := h.one_open
  rw [Db.bootstrap, hopen, if_neg (List.cons_ne_nil r [])]

/-- A row of the rounds after a confirmation that opened one. -/
theorem mem_rounds_confirmed {r : RoundRow} {roundID blockID : ℕ} {now : Time}
    (hr : r ∈ (((db.markConfirmed blockID).closeRound roundID blockID now).openRound now).rounds) :
    (r ∈ db.rounds ∧ r.id ≠ roundID) ∨ (r.id = roundID ∧ r.endedAt = some now ∧
      r.blockId = some blockID) ∨ r = ⟨db.roundSeq, now, none, none⟩ := by
  rcases List.mem_append.mp hr with hr | hr
  · obtain ⟨r', hr', rfl⟩ := List.mem_map.mp hr
    split_ifs with hid
    · exact .inr (.inl ⟨hid, rfl, rfl⟩)
    · exact .inl ⟨hr', hid⟩
  · exact .inr (.inr (List.mem_singleton.mp hr))

theorem confirmBlock (h : RoundStore db) {blockID newRoundID : ℕ} {now : Time}
    (hconfirm : confirmBlock db blockID now = some (newRoundID, db')) : RoundStore db' := by
  have hext := Extends.confirmBlock hconfirm
  obtain ⟨r, hopen⟩ := h.one_open
  obtain ⟨hc', roundID, -, hcases⟩ := confirmBlock_cases h.constraints hopen hconfirm
  obtain ⟨b, hb, rfl, -, ⟨hcl, -, rfl⟩ | ⟨hcl, -, rfl⟩⟩ := confirmBlock_inv hconfirm
  · exact h.of_rounds_eq hext hc' rfl
  · refine ⟨hc', ?_, fun r hr => ?_, fun r hr blockID hblock => ?_⟩
    · rcases hcases with ⟨-, -, -, hopen'⟩ | ⟨-, -, hopen'⟩ <;> exact ⟨_, hopen'⟩
    · rcases mem_rounds_confirmed hr with ⟨hr, -⟩ | ⟨-, hended, hblock⟩ | rfl
      · exact h.closed_iff r hr
      · simp [hended, hblock]
      · simp
    · rcases mem_rounds_confirmed hr with ⟨hr, -⟩ | ⟨hid, -, hblock'⟩ | rfl
      · obtain ⟨b', hb', hid', hconf', hround'⟩ := h.closed_by r hr blockID hblock
        obtain ⟨b'', hb'', hid'', hround'', hconf''⟩ := hext.blocks b' hb'
        exact ⟨b'', hb'', hid''.trans hid', hconf'' hconf', hround''.trans hround'⟩
      · -- the round just closed, by the block just confirmed
        obtain rfl : b.id = blockID := Option.some.inj (hblock'.symm.trans hblock)
        exact ⟨{ b with confirmed := true }, List.mem_map.mpr ⟨b, hb, if_pos rfl⟩, rfl, rfl, hid.symm⟩
      · cases hblock

/-- One operation. -/
theorem step (h : RoundStore db) {op : StoreOp × Bool} (hs : storeStep db op = some db') :
    RoundStore db' ∧ Extends db db' := by
  obtain ⟨op, committed⟩ := op
  cases committed with
  | false =>
      obtain rfl : db = db' := by simpa [storeStep] using hs
      exact ⟨h, .refl db⟩
  | true =>
      replace hs : op.effect db = some db' := by simpa [storeStep] using hs
      cases op with
      | connect now =>
          obtain rfl : db.bootstrap now = db' := Option.some.inj hs
          rw [h.bootstrap_eq]
          exact ⟨h, .refl db⟩
      | flushShares pending now =>
          obtain rfl : db.writeShares pending now = db' := Option.some.inj hs
          exact ⟨h.quiet (.shares pending now), .quiet (.shares pending now)⟩
      | recordUnconfirmedBlock bf now scan =>
          simp only [StoreOp.effect, Reward.recordUnconfirmedBlock] at hs
          split at hs
          · exact ⟨h.quiet (.block hs), .quiet (.block hs)⟩
          · cases hs
      | confirmBlock blockID now =>
          obtain ⟨⟨newRoundID, db₁⟩, hconfirm, rfl⟩ := Option.map_eq_some_iff.mp hs
          exact ⟨h.confirmBlock hconfirm, .confirmBlock hconfirm⟩
      | markOrphaned blockID =>
          obtain rfl : Reward.markOrphaned db blockID = db' := Option.some.inj hs
          exact ⟨h.quiet (.orphan blockID), .quiet (.orphan blockID)⟩

/-- A run of operations. -/
theorem run (h : RoundStore db) {ops : List (StoreOp × Bool)}
    (hr : Runs.run storeStep db ops = some db') : RoundStore db' ∧ Extends db db' := by
  refine run_invariant (P := fun db' => RoundStore db' ∧ Extends db db') ?_ ⟨h, .refl db⟩ hr
  rintro db₁ op db₂ ⟨h₁, hext⟩ hs
  obtain ⟨h₂, hext'⟩ := h₁.step hs
  exact ⟨h₂, hext.trans hext'⟩

end RoundStore

/-- A call of `ConfirmBlock` opens a round when the block's round is the open one. -/
theorem confirmBlock_opens_iff {db db' : Db} (h : RoundStore db) {blockID newRoundID : ℕ}
    {now : Time} (hconfirm : confirmBlock db blockID now = some (newRoundID, db')) :
    (∃ r ∈ db'.rounds, r.id ∉ db.rounds.map RoundRow.id) ↔
      ∃ r ∈ db.openRounds, db.roundOf blockID = some r.id := by
  obtain ⟨b, hb, rfl, hround, ⟨hcl, -, rfl⟩ | ⟨hcl, -, rfl⟩⟩ := confirmBlock_inv hconfirm
  · constructor
    · rintro ⟨r, hr, hnew⟩
      exact absurd (List.mem_map_of_mem hr) hnew
    · rintro ⟨r, hr, heq⟩
      have hid : b.roundId = r.id := Option.some.inj (hround.symm.trans heq)
      exact absurd hid.symm (Db.not_open_of_alreadyClosed h.constraints hcl r hr)
  · constructor
    · rintro -
      obtain ⟨r, hr, hid⟩ := h.constraints.block_round b hb
      exact ⟨r, Db.mem_openRounds.mpr ⟨hr, Db.alreadyClosed_eq_false.mp hcl r hr hid⟩,
        hround.trans (congrArg some hid.symm)⟩
    · rintro -
      refine ⟨⟨db.roundSeq, now, none, none⟩, List.mem_append_right _ List.mem_cons_self, fun hmem => ?_⟩
      obtain ⟨r, hr, hid⟩ := List.mem_map.mp hmem
      exact (h.constraints.round_fresh r hr).ne hid

/-! ## From the empty database -/

theorem initial_constraints : Db.initial.Constraints := by
  constructor <;> decide

def Db.empty : Db := ⟨[], [], [], [], 1, 1⟩

theorem roundStore_bootstrap (started : Time) : RoundStore (Db.empty.bootstrap started) where
  constraints := by constructor <;> simp [Db.bootstrap, Db.empty, Db.openRounds]
  one_open := ⟨⟨1, started, none, none⟩, rfl⟩
  closed_iff := by simp [Db.bootstrap, Db.empty, Db.openRounds]
  closed_by := by simp [Db.bootstrap, Db.empty, Db.openRounds]

/-- **The store of rounds.** After every sequence of operations one round is
open, the closed ones are closed by a confirmed block of their own and stay so,
and the next confirmation opens a round exactly if it is for a block of the open
one. -/
theorem roundStore_of_run {started : Time} {ops : List (StoreOp × Bool)} {db : Db}
    (h : Runs.run storeStep (Db.empty.bootstrap started) ops = some db) :
    (∃ r, db.openRounds = [r]) ∧
    (∀ r ∈ db.rounds, r.endedAt.isSome ↔ r.blockId.isSome) ∧
    (∀ r ∈ db.rounds, ∀ blockID, r.blockId = some blockID →
      ∃ b ∈ db.blocks, b.id = blockID ∧ b.confirmed ∧ b.roundId = r.id) ∧
    (∀ ops' db', Runs.run storeStep db ops' = some db' →
      ∀ r ∈ db.rounds, r.endedAt.isSome →
        r ∈ db'.rounds ∧ ∀ r' ∈ db'.rounds, r'.id = r.id → r' = r) ∧
    (∀ blockID now newRoundID db', confirmBlock db blockID now = some (newRoundID, db') →
      ((∃ r ∈ db'.rounds, r.id ∉ db.rounds.map RoundRow.id) ↔
        ∃ r ∈ db.openRounds, db.roundOf blockID = some r.id)) := by
  have hstore := ((roundStore_bootstrap started).run h).1
  refine ⟨hstore.one_open, hstore.closed_iff, hstore.closed_by, fun ops' db' hrun r hr hended => ?_,
    fun blockID now newRoundID db' hc => confirmBlock_opens_iff hstore hc⟩
  obtain ⟨hstore', hext⟩ := hstore.run hrun
  have hmem := hext.closed r hr hended
  exact ⟨hmem, fun r' hr' hid => List.inj_on_of_nodup_map hstore'.constraints.round_ids hr' hmem hid⟩

/-- Two blocks in one round, one of them confirmed twice. -/
def twoOfOneRound : List (StoreOp × Bool) :=
  [(.recordUnconfirmedBlock ⟨⟨800000, ['a'], ['m'], ['t'], 0⟩, 1⟩ 10 [], true),
    (.recordUnconfirmedBlock ⟨⟨800001, ['b'], ['m'], ['u'], 0⟩, 1⟩ 20 [], true),
    (.confirmBlock 1 30, true), (.confirmBlock 1 40, true), (.confirmBlock 2 50, true),
    (.connect 60, true), (.markOrphaned 2, false)]

theorem roundStore_twoOfOneRound :
    ∃ db, Runs.run storeStep (Db.empty.bootstrap 0) twoOfOneRound = some db ∧
      db.rounds.map RoundRow.blockId = [some 1, none] ∧ ∃ r, db.openRounds = [r] := by
  obtain ⟨db, hrun, hblocks⟩ := Option.map_eq_some_iff.mp (by decide +kernel :
    (Runs.run storeStep (Db.empty.bootstrap 0) twoOfOneRound).map
      (fun db => db.rounds.map RoundRow.blockId) = some [some 1, none])
  exact ⟨db, hrun, hblocks, (roundStore_of_run hrun).1⟩

end Reward
