import Unlucky21.Reward.PoolHandler

/-!
# The solo confirmation pass

`checkConfirmations` of the solo pool reads the pending rows, asks for the
confirmations of each and marks the decided ones. The loop sleeps when it
returns 0. It can fail at the query, while the rows come in, at the scan of a
row, at the RPC call and at either `UPDATE`.
-/

namespace Reward.Solo

open Wire

/-! ## The pass -/

/-- The columns of `solo_blocks` the pass reads or writes. -/
structure SoloBlock where
  id : ℕ
  hash : Text
  height : ℤ
  confirmed : Bool
  isOrphaned : Bool
deriving DecidableEq, Repr

def SoloBlock.pending (b : SoloBlock) : Bool := !b.confirmed && !b.isOrphaned

structure PendingBlock where
  id : ℕ
  hash : Text
  height : ℤ
deriving DecidableEq, Repr

/-- How the calls of one pass go: the rows in the order the query returns them,
how many of them arrive before the iteration stops, which of them scan, and what
the node and the database answer for each. -/
structure Weather where
  query : Bool
  order : List SoloBlock
  delivered : ℕ
  scans : ℕ → Bool
  getBlockConfirmations : ℕ → Option ℤ
  update : ℕ → Reply

variable (w : Weather)

/-- `rows.Next` and `rows.Scan`: an error of either is logged at most. -/
def readBlocks : List PendingBlock :=
  ((w.order.take w.delivered).filter fun b => w.scans b.id).map fun b => ⟨b.id, b.hash, b.height⟩

/-- `UPDATE solo_blocks SET is_orphaned = true WHERE id = $1`. -/
def markOrphaned (rows : List SoloBlock) (id : ℕ) : List SoloBlock :=
  rows.map fun b => if b.id = id then { b with isOrphaned := true } else b

/-- `UPDATE solo_blocks SET confirmed = true WHERE id = $1`. -/
def markConfirmed (rows : List SoloBlock) (id : ℕ) : List SoloBlock :=
  rows.map fun b => if b.id = id then { b with confirmed := true } else b

/-- A failed `UPDATE` keeps the block pending, also when it took effect. -/
def write (reply : Reply) (pending : ℕ) (rows rows' : List SoloBlock) : ℕ × List SoloBlock :=
  match reply with
  | .ok => (pending, rows')
  | .failed => (pending + 1, rows)
  | .lost => (pending + 1, rows')

def checkBlock (s : ℕ × List SoloBlock) (b : PendingBlock) : ℕ × List SoloBlock :=
  match w.getBlockConfirmations b.id with
  | none => (s.1 + 1, s.2)
  | some confs =>
      if confs < 0 then write (w.update b.id) s.1 s.2 (markOrphaned s.2 b.id)
      else if 2 ≤ confs then write (w.update b.id) s.1 s.2 (markConfirmed s.2 b.id)
      else (s.1 + 1, s.2)

/-- The number of blocks still pending, and the table after the pass. -/
def checkConfirmations (rows : List SoloBlock) : ℕ × List SoloBlock :=
  if w.query then (readBlocks w).foldl (checkBlock w) (0, rows) else (1, rows)

/-! ## What a pass comes to -/

/-- The node has decided about the block and the `UPDATE` succeeds. -/
def settles (id : ℕ) : Bool :=
  (w.getBlockConfirmations id).any (fun confs => confs < 0 || 2 ≤ confs) && w.update id = .ok

/-- The row after its block was checked. -/
def checked (b : SoloBlock) : SoloBlock :=
  match w.getBlockConfirmations b.id with
  | none => b
  | some confs =>
      if w.update b.id = .failed then b
      else if confs < 0 then { b with isOrphaned := true }
      else if 2 ≤ confs then { b with confirmed := true }
      else b

@[simp] theorem checked_id (b : SoloBlock) : (checked w b).id = b.id := by
  unfold checked
  split
  · rfl
  · split_ifs <;> rfl

theorem checked_checked (b : SoloBlock) : checked w (checked w b) = checked w b := by
  cases hrpc : w.getBlockConfirmations b.id with
  | none => simp [checked, hrpc]
  | some confs =>
      by_cases hfailed : w.update b.id = .failed
      · simp [checked, hrpc, hfailed]
      · by_cases hneg : confs < 0
        · simp [checked, hrpc, hfailed, hneg]
        · by_cases htwo : 2 ≤ confs <;> simp [checked, hrpc, hfailed, hneg, htwo]

theorem pending_checked_of_settles {b : SoloBlock} (h : settles w b.id = true) :
    (checked w b).pending = false := by
  cases hrpc : w.getBlockConfirmations b.id with
  | none => simp [settles, hrpc] at h
  | some confs =>
      obtain ⟨hconfs, hok⟩ : (confs < 0 ∨ 2 ≤ confs) ∧ w.update b.id = .ok := by
        simpa [settles, hrpc] using h
      by_cases hneg : confs < 0
      · simp [checked, hrpc, hok, hneg, SoloBlock.pending]
      · have htwo : 2 ≤ confs := hconfs.resolve_left hneg
        simp [checked, hrpc, hok, hneg, htwo, SoloBlock.pending]

/-- The table after the blocks with these ids were checked. -/
def checkedRows (ids : List ℕ) (rows : List SoloBlock) : List SoloBlock :=
  rows.map fun b => if b.id ∈ ids then checked w b else b

theorem checkedRows_singleton (id : ℕ) {f : SoloBlock → SoloBlock}
    (hf : ∀ b : SoloBlock, b.id = id → checked w b = f b) (rows : List SoloBlock) :
    checkedRows w [id] rows = rows.map fun b => if b.id = id then f b else b := by
  refine List.map_congr_left fun b _ => ?_
  by_cases hid : b.id = id
  · simp [hid, hf b hid]
  · simp [hid]

theorem checkedRows_singleton_of_unchanged (id : ℕ)
    (hf : ∀ b : SoloBlock, b.id = id → checked w b = b) (rows : List SoloBlock) :
    checkedRows w [id] rows = rows := by
  simp [checkedRows_singleton w id hf]

/-- An `UPDATE` of the row, however it ends. -/
theorem write_eq (id : ℕ) {f : SoloBlock → SoloBlock}
    (hf : ∀ b : SoloBlock, b.id = id → checked w b = if w.update id = .failed then b else f b)
    (n : ℕ) (rows : List SoloBlock) :
    write (w.update id) n rows (rows.map fun b => if b.id = id then f b else b) =
      (n + (if w.update id = .ok then 0 else 1), checkedRows w [id] rows) := by
  cases hreply : w.update id with
  | ok => simp [write, checkedRows_singleton w id fun b hid => by simpa [hreply] using hf b hid]
  | failed =>
      simp [write, checkedRows_singleton_of_unchanged w id fun b hid => by
        simpa [hreply] using hf b hid]
  | lost => simp [write, checkedRows_singleton w id fun b hid => by simpa [hreply] using hf b hid]

theorem checkBlock_eq (s : ℕ × List SoloBlock) (b : PendingBlock) :
    checkBlock w s b =
      (s.1 + (if settles w b.id then 0 else 1), checkedRows w [b.id] s.2) := by
  cases hrpc : w.getBlockConfirmations b.id with
  | none =>
      have hsame := checkedRows_singleton_of_unchanged w b.id
        (fun r hid => by simp [checked, hid, hrpc]) s.2
      simp [checkBlock, settles, hrpc, hsame]
  | some confs =>
      by_cases hneg : confs < 0
      · have hwrite := write_eq w b.id (f := fun r => { r with isOrphaned := true })
          (fun r hid => by simp [checked, hid, hrpc, hneg]) s.1 s.2
        simpa [checkBlock, settles, hrpc, hneg, markOrphaned] using hwrite
      · by_cases htwo : 2 ≤ confs
        · have hwrite := write_eq w b.id (f := fun r => { r with confirmed := true })
            (fun r hid => by simp [checked, hid, hrpc, hneg, htwo]) s.1 s.2
          simpa [checkBlock, settles, hrpc, hneg, htwo, markConfirmed] using hwrite
        · have hsame := checkedRows_singleton_of_unchanged w b.id
            (fun r hid => by simp [checked, hid, hrpc, hneg, htwo]) s.2
          simp [checkBlock, settles, hrpc, hneg, htwo, hsame]

theorem checkedRows_checkedRows (ids : List ℕ) (id : ℕ) (rows : List SoloBlock) :
    checkedRows w ids (checkedRows w [id] rows) = checkedRows w (id :: ids) rows := by
  rw [checkedRows, checkedRows, List.map_map]
  refine List.map_congr_left fun b _ => ?_
  by_cases hid : b.id = id
  · by_cases hmem : id ∈ ids <;> simp [hid, hmem, checked_checked]
  · simp [hid]

/-- A pass counts the blocks it has read and not settled. -/
theorem foldl_checkBlock (bs : List PendingBlock) (s : ℕ × List SoloBlock) :
    bs.foldl (checkBlock w) s =
      (s.1 + bs.countP (fun b => !settles w b.id),
        checkedRows w (bs.map PendingBlock.id) s.2) := by
  induction bs generalizing s with
  | nil => simp [checkedRows]
  | cons b bs ih =>
      rw [List.foldl_cons, ih, checkBlock_eq, checkedRows_checkedRows, List.countP_cons]
      cases settles w b.id <;> simp [Nat.add_assoc, Nat.add_comm]

theorem checkConfirmations_of_query (hquery : w.query = true) (rows : List SoloBlock) :
    checkConfirmations w rows =
      ((readBlocks w).countP (fun b => !settles w b.id),
        checkedRows w ((readBlocks w).map PendingBlock.id) rows) := by
  rw [checkConfirmations, if_pos hquery, foldl_checkBlock, Nat.zero_add]

/-! ## The forgotten block -/

/-- If the pass returns 0, it has marked every row that was pending. -/
def NoneForgotten (rows : List SoloBlock) : Prop :=
  (checkConfirmations w rows).1 = 0 → ∀ b ∈ rows, b.pending = true →
    ∃ b' ∈ (checkConfirmations w rows).2, b'.id = b.id ∧ b'.pending = false

instance (rows : List SoloBlock) : Decidable (NoneForgotten w rows) :=
  inferInstanceAs (Decidable (_ → _))

/-- The row arrives and its columns scan. -/
def Read (b : SoloBlock) : Prop := b ∈ w.order.take w.delivered ∧ w.scans b.id = true

theorem mem_readBlocks_id {id : ℕ} :
    id ∈ (readBlocks w).map PendingBlock.id ↔ ∃ b, Read w b ∧ b.id = id := by
  simp only [readBlocks, List.map_map, List.mem_map, List.mem_filter, Read, Function.comp_apply]

theorem countP_readBlocks_eq_zero :
    (readBlocks w).countP (fun b => !settles w b.id) = 0 ↔
      ∀ b, Read w b → settles w b.id = true := by
  simp only [readBlocks, List.countP_eq_zero, List.mem_map, List.mem_filter, Read]
  constructor
  · intro h b hb
    simpa using h _ ⟨b, hb, rfl⟩
  · rintro h _ ⟨b, hb, rfl⟩
    simpa using h b hb

/-- **When no block is forgotten.** The query fails, or every pending row is
read, or a row that is read stays unsettled and keeps the loop awake. -/
theorem noneForgotten_iff (rows : List SoloBlock) (hids : (rows.map SoloBlock.id).Nodup)
    (horder : w.order.Perm (rows.filter SoloBlock.pending)) :
    NoneForgotten w rows ↔
      w.query = false ∨ (∀ b ∈ rows, b.pending = true → Read w b) ∨
        ∃ b, Read w b ∧ settles w b.id = false := by
  have hinj : ∀ b ∈ rows, ∀ c ∈ rows, b.id = c.id → b = c := fun b hb c hc =>
    List.inj_on_of_nodup_map hids hb hc
  have hread : ∀ b, Read w b → b ∈ rows := fun b hb =>
    (List.mem_filter.mp (horder.mem_iff.mp (List.mem_of_mem_take hb.1))).1
  cases hquery : w.query with
  | false => simp [NoneForgotten, checkConfirmations, hquery]
  | true =>
      rw [NoneForgotten, checkConfirmations_of_query w hquery]
      simp only [countP_readBlocks_eq_zero, Bool.true_eq_false, false_or]
      constructor
      · intro h
        by_contra hnot
        push Not at hnot
        obtain ⟨⟨b, hb, hpending, hunread⟩, hsettled⟩ := hnot
        obtain ⟨b', hb', hid, hdone⟩ :=
          h (fun c hc => by simpa using hsettled c hc) b hb hpending
        obtain ⟨c, hc, rfl⟩ := List.mem_map.mp hb'
        -- the unread row is the one the pass claims to have marked
        have hcb : c = b := hinj c hc b hb (by split_ifs at hid <;> simpa using hid)
        subst hcb
        have hnotin : c.id ∉ (readBlocks w).map PendingBlock.id := fun hmem => by
          obtain ⟨d, hd, hdid⟩ := (mem_readBlocks_id w).mp hmem
          exact hunread (hinj d (hread d hd) c hb hdid ▸ hd)
        rw [if_neg hnotin, hpending] at hdone
        cases hdone
      · rintro (hall | ⟨b, hb, hunsettled⟩) hsettled
        · intro b hb hpending
          have hb' := hall b hb hpending
          refine ⟨_, List.mem_map_of_mem hb, ?_⟩
          rw [if_pos ((mem_readBlocks_id w).mpr ⟨b, hb', rfl⟩)]
          exact ⟨checked_id w b, pending_checked_of_settles w (hsettled b hb')⟩
        · exact absurd (hsettled b hb) (by simp [hunsettled])

def foundBlock : SoloBlock := ⟨1, ['h'], 840000, false, false⟩

/-- The node has seen three confirmations, and every write succeeds. -/
def calm : Weather := ⟨true, [foundBlock], 1, fun _ => true, fun _ => some 3, fun _ => .ok⟩

theorem noneForgotten_calm : NoneForgotten calm [foundBlock] := by
  refine (noneForgotten_iff calm [foundBlock] (by decide) (by decide)).mpr (.inr (.inl ?_))
  intro b hb _
  obtain rfl := List.mem_singleton.mp hb
  exact ⟨List.mem_singleton_self _, rfl⟩

/-- The row does not scan, or the connection is lost before it arrives: the pass
returns 0, and the loop sleeps. -/
theorem unread_block_is_forgotten :
    ¬ NoneForgotten { calm with scans := fun _ => false } [foundBlock] ∧
      ¬ NoneForgotten { calm with delivered := 0 } [foundBlock] := by decide

end Reward.Solo
