import Unlucky21.Reward.Solo
import Unlucky21.Reward.SoloConfirmations
import Unlucky21.Lib.Runs

/-!
# The loop of the solo pool

`StartConfirmationLoop` with `BlockFound`, step by step: the pass of
`checkConfirmations` is cut at its calls, and blocks are found in between. The
process can be told to stop, and it can be started again at any time; only the
table stays.
-/

namespace Reward.Solo

open Wire Runs

/-! ## State -/

/-- Where the goroutine is: before its query, about to send its own token,
waiting for one, before a pass, in one, or gone. -/
inductive SoloPhase
  | starting
  | seeding
  | idle
  | active
  | checking (rest : List PendingBlock) (pending : ℕ)
  | stopped
deriving DecidableEq, Repr

/-- `sending` has the hashes of `BlockFound` calls that have inserted and not yet
sent. The last two fields record the past of the process: the hashes of calls that
returned without error, and the next id at the time of a start-up query that
succeeded. -/
structure SoloLoop where
  rows : List SoloBlock
  blockSeq : ℕ
  blockPending : Bool
  phase : SoloPhase
  sending : List Text
  returned : List Text
  startup : Option ℕ
deriving DecidableEq, Repr

/-- A process at its start. -/
def SoloLoop.boot (rows : List SoloBlock) (blockSeq : ℕ) : SoloLoop :=
  ⟨rows, blockSeq, false, .starting, [], [], none⟩

/-- `INSERT … ON CONFLICT (hash) DO NOTHING`; `none` is a constraint violation. -/
def insertFound (rows : List SoloBlock) (blockSeq : ℕ) (msg : BlockFoundMsg) :
    Option (List SoloBlock) :=
  if varchar 64 msg.hash && varchar 90 msg.finderAddress && varchar 64 msg.coinbaseTxid then
    some (if rows.any fun b => b.hash = msg.hash then rows
      else rows ++ [⟨blockSeq, msg.hash, msg.height, false, false⟩])
  else none

/-- The steps. A check carries the hash the node is asked for. -/
inductive SoloEvent
  | blockInsert (msg : BlockFoundMsg) (reply : Reply)
  | send (hash : Text)
  | startupQuery (ok : Bool)
  | startupSend
  | receive
  | poll (w : Weather)
  | check (hash : Text) (confs : Option ℤ) (reply : Reply)
  | passDone
  | stop
  | restart

/-- The answers of one check. -/
def answering (confs : Option ℤ) (reply : Reply) : Weather :=
  ⟨true, [], 0, fun _ => true, fun _ => confs, fun _ => reply⟩

def SoloLoop.step (s : SoloLoop) : SoloEvent → Option SoloLoop
  | .blockInsert msg reply =>
      match insertFound s.rows s.blockSeq msg with
      | none => some s
      | some rows =>
          if reply = .failed then some s
          else some { s with
            rows := rows
            blockSeq := s.blockSeq + 1
            sending := if reply = .ok then msg.hash :: s.sending else s.sending }
  | .send hash =>
      if hash ∈ s.sending then
        some { s with
          blockPending := true
          sending := s.sending.erase hash
          returned := hash :: s.returned }
      else none
  | .startupQuery ok =>
      if s.phase = .starting then
        some { s with
          phase := if ok && s.rows.any SoloBlock.pending then .seeding else .idle
          startup := if ok then some s.blockSeq else none }
      else none
  | .startupSend =>
      if s.phase = .seeding then some { s with phase := .idle, blockPending := true } else none
  | .receive =>
      if s.phase = .idle ∧ s.blockPending then
        some { s with phase := .active, blockPending := false }
      else none
  | .poll w =>
      if s.phase = .active ∧ (w.query = true → w.order.Perm (s.rows.filter SoloBlock.pending)) then
        some { s with phase := if w.query then .checking (readBlocks w) 0 else .active }
      else none
  | .check hash confs reply =>
      match s.phase with
      | .checking (b :: rest) pending =>
          if b.hash = hash then
            let result := checkBlock (answering confs reply) (pending, s.rows) b
            some { s with rows := result.2, phase := .checking rest result.1 }
          else none
      | _ => none
  | .passDone =>
      match s.phase with
      | .checking [] pending => some { s with phase := if pending = 0 then .idle else .active }
      | _ => none
  | .stop => if s.phase = .idle ∨ s.phase = .active then some { s with phase := .stopped } else none
  | .restart => some (.boot s.rows s.blockSeq)

/-! ## What a step does to the table -/

variable {s s' : SoloLoop} {e : SoloEvent}

/-- The table is the same, has a new row, or the row of the block in front was checked. -/
inductive RowsStep (s : SoloLoop) : SoloEvent → List SoloBlock → ℕ → Prop
  | same {e : SoloEvent} {blockSeq : ℕ} (hseq : s.blockSeq ≤ blockSeq) :
      RowsStep s e s.rows blockSeq
  | inserted {msg : BlockFoundMsg} {reply : Reply} (hnew : ∀ b ∈ s.rows, b.hash ≠ msg.hash) :
      RowsStep s (.blockInsert msg reply)
        (s.rows ++ [⟨s.blockSeq, msg.hash, msg.height, false, false⟩]) (s.blockSeq + 1)
  | checked {b : PendingBlock} {rest : List PendingBlock} {pending : ℕ} {confs : Option ℤ}
      {reply : Reply} (hphase : s.phase = .checking (b :: rest) pending) :
      RowsStep s (.check b.hash confs reply) (checkedRows (answering confs reply) [b.id] s.rows)
        s.blockSeq

theorem insertFound_cases {rows rows' : List SoloBlock} {blockSeq : ℕ} {msg : BlockFoundMsg}
    (h : insertFound rows blockSeq msg = some rows') :
    (rows' = rows ∧ ∃ b ∈ rows, b.hash = msg.hash) ∨
      ((∀ b ∈ rows, b.hash ≠ msg.hash) ∧
        rows' = rows ++ [⟨blockSeq, msg.hash, msg.height, false, false⟩]) := by
  unfold insertFound at h
  split_ifs at h with hfits hknown
  · exact .inl ⟨(Option.some.inj h).symm, by simpa using hknown⟩
  · exact .inr ⟨by simpa using hknown, (Option.some.inj h).symm⟩

theorem rowsStep_of_step (h : s.step e = some s') : RowsStep s e s'.rows s'.blockSeq := by
  cases e with
  | blockInsert msg reply =>
      simp only [SoloLoop.step] at h
      cases hins : insertFound s.rows s.blockSeq msg with
      | none =>
          rw [hins] at h
          obtain rfl := Option.some.inj h
          exact .same le_rfl
      | some rows =>
          simp only [hins] at h
          split at h
          · obtain rfl := Option.some.inj h
            exact .same le_rfl
          · obtain rfl := Option.some.inj h
            rcases insertFound_cases hins with ⟨rfl, -⟩ | ⟨hnew, rfl⟩
            · exact .same (Nat.le_succ _)
            · exact .inserted hnew
  | check hash confs reply =>
      simp only [SoloLoop.step] at h
      split at h
      next b rest pending hphase =>
        split_ifs at h with hhash
        obtain rfl := Option.some.inj h
        subst hhash
        simp only [checkBlock_eq]
        exact .checked hphase
      · cases h
  | passDone =>
      simp only [SoloLoop.step] at h
      split at h
      · obtain rfl := Option.some.inj h
        exact .same le_rfl
      · cases h
  | restart =>
      obtain rfl := Option.some.inj h
      exact .same le_rfl
  | _ =>
      simp only [SoloLoop.step, Option.ite_none_right_eq_some, Option.some.injEq] at h
      obtain ⟨-, rfl⟩ := h
      exact .same le_rfl

/-- A pass is the old one, starts with its query, or goes on behind the block in front. -/
theorem checking_of_step (h : s.step e = some s') {rest : List PendingBlock} {pending : ℕ}
    (hphase : s'.phase = .checking rest pending) :
    s.phase = .checking rest pending ∧ (∀ hash confs reply, e ≠ .check hash confs reply) ∨
      (∃ w, e = .poll w ∧ w.order.Perm (s.rows.filter SoloBlock.pending) ∧ rest = readBlocks w ∧
        s'.rows = s.rows) ∨
      ∃ b confs reply n, e = .check b.hash confs reply ∧ s.phase = .checking (b :: rest) n := by
  cases e with
  | blockInsert msg reply =>
      refine .inl ⟨?_, by simp⟩
      simp only [SoloLoop.step] at h
      split at h
      · obtain rfl := Option.some.inj h
        exact hphase
      · split at h <;> obtain rfl := Option.some.inj h <;> exact hphase
  | send hash =>
      refine .inl ⟨?_, by simp⟩
      simp only [SoloLoop.step, Option.ite_none_right_eq_some, Option.some.injEq] at h
      obtain ⟨-, rfl⟩ := h
      exact hphase
  | poll w =>
      simp only [SoloLoop.step, Option.ite_none_right_eq_some, Option.some.injEq] at h
      obtain ⟨⟨-, horder⟩, rfl⟩ := h
      simp only at hphase
      split_ifs at hphase with hquery
      obtain ⟨rfl, rfl⟩ := SoloPhase.checking.inj hphase
      exact .inr (.inl ⟨w, rfl, horder hquery, rfl, rfl⟩)
  | check hash confs reply =>
      simp only [SoloLoop.step] at h
      split at h
      next b rest' n hchecking =>
        split_ifs at h with hhash
        obtain rfl := Option.some.inj h
        obtain ⟨rfl, -⟩ := SoloPhase.checking.inj hphase
        exact .inr (.inr ⟨b, confs, reply, n, by rw [hhash], hchecking⟩)
      · cases h
  | startupQuery ok =>
      simp only [SoloLoop.step, Option.ite_none_right_eq_some, Option.some.injEq] at h
      obtain ⟨-, rfl⟩ := h
      simp only at hphase
      split_ifs at hphase
  | passDone =>
      simp only [SoloLoop.step] at h
      split at h
      · obtain rfl := Option.some.inj h
        simp only at hphase
        split_ifs at hphase
      · cases h
  | restart =>
      obtain rfl := Option.some.inj h
      cases hphase
  | _ =>
      simp only [SoloLoop.step, Option.ite_none_right_eq_some, Option.some.injEq] at h
      obtain ⟨-, rfl⟩ := h
      cases hphase

theorem mem_checkedRows_singleton {w : Weather} {id : ℕ} {rows : List SoloBlock} {b' : SoloBlock} :
    b' ∈ checkedRows w [id] rows ↔
      ∃ b ∈ rows, (b.id = id ∧ b' = checked w b) ∨ (b.id ≠ id ∧ b' = b) := by
  simp only [checkedRows, List.mem_map, List.mem_singleton]
  refine exists_congr fun b => and_congr_right fun _ => ?_
  by_cases hid : b.id = id
  · simp [hid, eq_comm]
  · simp [hid, eq_comm]

@[simp] theorem checked_hash (w : Weather) (b : SoloBlock) : (checked w b).hash = b.hash := by
  unfold checked
  split
  · rfl
  · split_ifs <;> rfl

/-- Rows keep their ids and hashes. -/
theorem map_checkedRows {α : Type*} {w : Weather} {f : SoloBlock → α}
    (hf : ∀ b, f (checked w b) = f b) (ids : List ℕ) (rows : List SoloBlock) :
    (checkedRows w ids rows).map f = rows.map f := by
  rw [checkedRows, List.map_map]
  refine List.map_congr_left fun b _ => ?_
  by_cases hid : b.id ∈ ids
  · simp [hid, hf]
  · simp [hid]

/-- A row that a step does not check is there afterwards. -/
theorem mem_of_step (h : s.step e = some s') {b : SoloBlock} (hb : b ∈ s.rows)
    (hother : ∀ p rest pending confs reply, s.phase = .checking (p :: rest) pending →
      e = .check p.hash confs reply → p.id ≠ b.id) : b ∈ s'.rows := by
  have hrows := rowsStep_of_step h
  generalize s'.rows = rows at hrows ⊢
  generalize s'.blockSeq = blockSeq at hrows
  cases hrows with
  | same hseq => exact hb
  | inserted hnew => exact List.mem_append_left _ hb
  | checked hphase =>
      exact mem_checkedRows_singleton.mpr
        ⟨b, hb, .inr ⟨(hother _ _ _ _ _ hphase rfl).symm, rfl⟩⟩

/-! ## Decisions -/

/-- Keys are unique, and a pass still has to check undecided rows only, each once. -/
structure TableInv (s : SoloLoop) : Prop where
  ids : (s.rows.map SoloBlock.id).Nodup
  ids_lt : ∀ b ∈ s.rows, b.id < s.blockSeq
  hashes : (s.rows.map SoloBlock.hash).Nodup
  rest_ids : ∀ rest pending, s.phase = .checking rest pending →
    (rest.map PendingBlock.id).Nodup
  rest : ∀ rest pending, s.phase = .checking rest pending → ∀ p ∈ rest,
    ∃ b ∈ s.rows, b.pending = true ∧ b.id = p.id ∧ b.hash = p.hash

namespace TableInv

theorem boot : TableInv (.boot [] 1) where
  ids := List.nodup_nil
  ids_lt _ h := nomatch h
  hashes := List.nodup_nil
  rest_ids _ _ h := nomatch h
  rest _ _ h := nomatch h

theorem eq_of_id (h : TableInv s) {b c : SoloBlock} (hb : b ∈ s.rows) (hc : c ∈ s.rows)
    (hid : b.id = c.id) : b = c :=
  List.inj_on_of_nodup_map h.ids hb hc hid

theorem step (hinv : TableInv s) (h : s.step e = some s') : TableInv s' := by
  have hkeys : (s'.rows.map SoloBlock.id).Nodup ∧ (∀ b ∈ s'.rows, b.id < s'.blockSeq) ∧
      (s'.rows.map SoloBlock.hash).Nodup := by
    have hrows := rowsStep_of_step h
    generalize s'.rows = rows at hrows ⊢
    generalize s'.blockSeq = blockSeq at hrows ⊢
    cases hrows with
    | same hseq => exact ⟨hinv.ids, fun b hb => (hinv.ids_lt b hb).trans_le hseq, hinv.hashes⟩
    | @inserted msg reply hnew =>
        refine ⟨?_, fun b hb => ?_, ?_⟩
        · rw [List.map_append, List.nodup_append]
          refine ⟨hinv.ids, List.nodup_singleton _, fun i hi j hj => ?_⟩
          obtain ⟨b, hb, rfl⟩ := List.mem_map.mp hi
          obtain rfl := List.mem_singleton.mp hj
          exact (hinv.ids_lt b hb).ne
        · rcases List.mem_append.mp hb with hold | hnew
          · exact (hinv.ids_lt b hold).trans (Nat.lt_succ_self _)
          · obtain rfl := List.mem_singleton.mp hnew
            exact Nat.lt_succ_self _
        · rw [List.map_append, List.nodup_append]
          refine ⟨hinv.hashes, List.nodup_singleton _, fun i hi j hj => ?_⟩
          obtain ⟨b, hb, rfl⟩ := List.mem_map.mp hi
          obtain rfl := List.mem_singleton.mp hj
          exact hnew b hb
    | checked hphase =>
        refine ⟨by rw [map_checkedRows (checked_id _)]; exact hinv.ids, fun b' hb' => ?_,
          by rw [map_checkedRows (checked_hash _)]; exact hinv.hashes⟩
        obtain ⟨b, hb, ⟨-, rfl⟩ | ⟨-, rfl⟩⟩ := mem_checkedRows_singleton.mp hb'
        · rw [checked_id]
          exact hinv.ids_lt b hb
        · exact hinv.ids_lt b' hb
  refine ⟨hkeys.1, hkeys.2.1, hkeys.2.2, fun rest pending hphase => ?_,
    fun rest pending hphase p hp => ?_⟩
  · rcases checking_of_step h hphase with ⟨hold, -⟩ | ⟨w, -, horder, rfl, -⟩ |
      ⟨b, confs, reply, n, -, hold⟩
    · exact hinv.rest_ids _ _ hold
    · have hnodup : (w.order.map SoloBlock.id).Nodup :=
        (horder.map _).nodup_iff.mpr (hinv.ids.sublist (List.filter_sublist.map _))
      rw [readBlocks, List.map_map]
      exact hnodup.sublist ((List.filter_sublist.trans (List.take_sublist _ _)).map _)
    · exact (List.nodup_cons.mp (hinv.rest_ids _ _ hold)).2
  · rcases checking_of_step h hphase with ⟨hold, hother⟩ | ⟨w, -, horder, rfl, hsame⟩ |
      ⟨b, confs, reply, n, rfl, hold⟩
    · obtain ⟨r, hr, hpending, hid, hhash⟩ := hinv.rest _ _ hold p hp
      exact ⟨r, mem_of_step h hr fun _ _ _ _ _ _ he => absurd he (hother _ _ _), hpending, hid, hhash⟩
    · obtain ⟨r, hr, rfl⟩ := List.mem_map.mp hp
      have hmem := horder.mem_iff.mp (List.mem_of_mem_take (List.mem_of_mem_filter hr))
      rw [List.mem_filter] at hmem
      exact ⟨r, hsame ▸ hmem.1, hmem.2, rfl, rfl⟩
    · obtain ⟨r, hr, hpending, hid, hhash⟩ := hinv.rest _ _ hold p (List.mem_cons_of_mem _ hp)
      refine ⟨r, mem_of_step h hr fun q rest' n' confs' reply' hq _ => ?_, hpending, hid, hhash⟩
      obtain ⟨hcons, -⟩ := SoloPhase.checking.inj (hold.symm.trans hq)
      obtain ⟨rfl, -⟩ := List.cons.inj hcons
      have hnotin := (List.nodup_cons.mp (hinv.rest_ids _ _ hold)).1
      exact fun heq => hnotin (heq ▸ hid ▸ List.mem_map_of_mem hp)

end TableInv

/-- A row that is decided stays as it is. -/
theorem TableInv.decided_of_step (hinv : TableInv s) (h : s.step e = some s') {b : SoloBlock}
    (hb : b ∈ s.rows) (hdecided : b.pending = false) : b ∈ s'.rows := by
  refine mem_of_step h hb fun p rest pending confs reply hphase _ hid => ?_
  obtain ⟨r, hr, hpending, hrid, -⟩ := hinv.rest _ _ hphase p List.mem_cons_self
  rw [hinv.eq_of_id hr hb (hrid.trans hid), hdecided] at hpending
  cases hpending

/-- What the flags of a row say has been reported. -/
structure Justified (es : List SoloEvent) (b : SoloBlock) : Prop where
  once : ¬ (b.confirmed = true ∧ b.isOrphaned = true)
  confirmed : b.confirmed = true → ∃ c reply, 2 ≤ c ∧ .check b.hash (some c) reply ∈ es
  orphaned : b.isOrphaned = true → ∃ c reply, c < 0 ∧ .check b.hash (some c) reply ∈ es

theorem Justified.mono {es es' : List SoloEvent} {b : SoloBlock} (h : Justified es b)
    (hsub : es ⊆ es') : Justified es' b where
  once := h.once
  confirmed hb := by
    obtain ⟨c, reply, hc, hmem⟩ := h.confirmed hb
    exact ⟨c, reply, hc, hsub hmem⟩
  orphaned hb := by
    obtain ⟨c, reply, hc, hmem⟩ := h.orphaned hb
    exact ⟨c, reply, hc, hsub hmem⟩

/-- Undecided rows need no reports. -/
theorem justified_of_pending {es : List SoloEvent} {b : SoloBlock} (h : b.pending = true) :
    Justified es b := by
  simp only [SoloBlock.pending, Bool.and_eq_true, Bool.not_eq_true'] at h
  exact ⟨by simp [h.1], by simp [h.1], by simp [h.2]⟩

/-- A check decides by what the node said. -/
theorem justified_checked {es : List SoloEvent} {b : SoloBlock} {confs : Option ℤ} {reply : Reply}
    (h : b.pending = true) :
    Justified (es ++ [.check b.hash confs reply]) (checked (answering confs reply) b) := by
  have hmem : SoloEvent.check b.hash confs reply ∈ es ++ [.check b.hash confs reply] := by simp
  have hpending := h
  simp only [SoloBlock.pending, Bool.and_eq_true, Bool.not_eq_true'] at h
  cases confs with
  | none => exact justified_of_pending hpending
  | some confs =>
      by_cases hfailed : reply = .failed
      · simpa [checked, answering, hfailed] using justified_of_pending hpending
      · by_cases hneg : confs < 0
        · have heq : checked (answering (some confs) reply) b = { b with isOrphaned := true } := by
            simp [checked, answering, hfailed, hneg]
          rw [heq]
          exact ⟨by simp [h.1], by simp [h.1], fun _ => ⟨confs, reply, hneg, hmem⟩⟩
        · by_cases htwo : 2 ≤ confs
          · have heq : checked (answering (some confs) reply) b = { b with confirmed := true } := by
              simp [checked, answering, hfailed, hneg, htwo]
            rw [heq]
            exact ⟨by simp [h.2], fun _ => ⟨confs, reply, htwo, hmem⟩, by simp [h.2]⟩
          · have heq : checked (answering (some confs) reply) b = b := by
              simp [checked, answering, hfailed, hneg, htwo]
            rw [heq]
            exact justified_of_pending hpending

theorem TableInv.justified_of_step (hinv : TableInv s) (h : s.step e = some s')
    {es : List SoloEvent} (hjust : ∀ b ∈ s.rows, Justified es b) :
    ∀ b ∈ s'.rows, Justified (es ++ [e]) b := by
  have hold : ∀ b ∈ s.rows, Justified (es ++ [e]) b := fun b hb =>
    (hjust b hb).mono (List.subset_append_left _ _)
  have hrows := rowsStep_of_step h
  generalize s'.rows = rows at hrows ⊢
  generalize s'.blockSeq = blockSeq at hrows
  cases hrows with
  | same hseq => exact hold
  | inserted hnew =>
      intro b hb
      rcases List.mem_append.mp hb with hb | hb
      · exact hold b hb
      · obtain rfl := List.mem_singleton.mp hb
        exact justified_of_pending rfl
  | checked hphase =>
      intro b' hb'
      obtain ⟨b, hb, ⟨hid, rfl⟩ | ⟨-, rfl⟩⟩ := mem_checkedRows_singleton.mp hb'
      · -- the row of the block in front is undecided, and its hash was asked for
        obtain ⟨r, hr, hpending, hrid, hhash⟩ := hinv.rest _ _ hphase _ List.mem_cons_self
        obtain rfl := hinv.eq_of_id hb hr (hid.trans hrid.symm)
        rw [← hhash]
        exact justified_checked hpending
      · exact hold _ hb

/-- **Decisions of the solo pool are justified and final**, across failures, lost
replies and restarts: no row is confirmed and orphaned, each flag was set after the
node had reported two confirmations, or a negative number, for the row's hash, and
a decided row never changes again. -/
theorem solo_decisions {es es' : List SoloEvent} {s t : SoloLoop}
    (h : run SoloLoop.step (.boot [] 1) es = some s) (h' : run SoloLoop.step s es' = some t) :
    ∀ b ∈ s.rows, Justified es b ∧ (b.pending = false → b ∈ t.rows) := by
  have hinv : TableInv s ∧ ∀ b ∈ s.rows, Justified es b := by
    refine run_history (P := fun es s => TableInv s ∧ ∀ b ∈ s.rows, Justified es b)
      ⟨.boot, fun _ hb => nomatch hb⟩ (fun es s e s' _ hP hs => ?_) h
    exact ⟨hP.1.step hs, hP.1.justified_of_step hs hP.2⟩
  refine fun b hb => ⟨hinv.2 b hb, fun hdecided => ?_⟩
  have hfinal : TableInv t ∧ b ∈ t.rows :=
    run_invariant (P := fun t => TableInv t ∧ b ∈ t.rows)
      (fun _ _ _ hP hs => ⟨hP.1.step hs, hP.1.decided_of_step hs hP.2 hdecided⟩) ⟨hinv.1, hb⟩ h'
  exact hfinal.2

/-- The block is confirmed by a write whose answer is lost, the process dies, and the
next one finds nothing to do. -/
def lostAndRestarted : List SoloEvent :=
  [.startupQuery true, .blockInsert ⟨840000, ['h'], ['m'], [], 0⟩ .ok, .send ['h'], .receive,
    .poll ⟨true, [foundBlock], 1, fun _ => true, fun _ => none, fun _ => .ok⟩,
    .check ['h'] (some 3) .lost, .restart]

theorem solo_decisions_lostAndRestarted :
    ∃ s t, run SoloLoop.step (.boot [] 1) lostAndRestarted = some s ∧
      run SoloLoop.step s [.startupQuery true] = some t ∧
      ∀ b ∈ s.rows, Justified lostAndRestarted b ∧ (b.pending = false → b ∈ t.rows) := by
  have hrun : (run SoloLoop.step (.boot [] 1) lostAndRestarted).isSome = true := by decide
  obtain ⟨s, hs⟩ := Option.isSome_iff_exists.mp hrun
  have hphase : ((run SoloLoop.step (.boot [] 1) lostAndRestarted).bind fun s =>
      run SoloLoop.step s [.startupQuery true]).isSome = true := by decide
  rw [hs, Option.bind_some] at hphase
  obtain ⟨t, ht⟩ := Option.isSome_iff_exists.mp hphase
  exact ⟨s, t, hs, ht, solo_decisions hs ht⟩

/-! ## No lost wake-up -/

/-- A block the loop has to see: it was there at the start-up query, or its call is over. -/
def SoloLoop.Owed (s : SoloLoop) (b : SoloBlock) : Prop :=
  b.hash ∈ s.returned ∨ ∃ n, s.startup = some n ∧ b.id < n

/-- What will make it see the block. -/
def SoloPhase.covers (id : ℕ) : SoloPhase → Prop
  | .starting => False
  | .seeding => True
  | .idle => False
  | .active => True
  | .checking rest pending => 0 < pending ∨ id ∈ rest.map PendingBlock.id
  | .stopped => True

def SoloLoop.Awake (s : SoloLoop) (b : SoloBlock) : Prop :=
  s.blockPending = true ∨ s.phase.covers b.id

/-- A pass reads every undecided row. -/
def ReadsAll (s : SoloLoop) : SoloEvent → Prop
  | .poll w => w.query = true → ∀ b ∈ s.rows, b.pending = true → Read w b
  | _ => True

instance (s : SoloLoop) : ∀ e, Decidable (ReadsAll s e)
  | .poll w => inferInstanceAs (Decidable (w.query = true → ∀ b ∈ s.rows, b.pending = true →
      b ∈ w.order.take w.delivered ∧ w.scans b.id = true))
  | .blockInsert _ _ | .send _ | .startupQuery _ | .startupSend | .receive | .check _ _ _
  | .passDone | .stop | .restart => inferInstanceAs (Decidable True)

structure SoloWakeInv (s : SoloLoop) : Prop where
  table : TableInv s
  sending : ∀ hash ∈ s.sending, hash ∈ s.rows.map SoloBlock.hash
  returned : ∀ hash ∈ s.returned, hash ∈ s.rows.map SoloBlock.hash
  startup : ∀ n, s.startup = some n → n ≤ s.blockSeq
  awake : ∀ b ∈ s.rows, b.pending = true → s.Owed b → s.Awake b

namespace SoloWakeInv

theorem boot : SoloWakeInv (.boot [] 1) where
  table := .boot
  sending _ h := nomatch h
  returned _ h := nomatch h
  startup _ h := nomatch h
  awake _ h := nomatch h

/-- A step that leaves the table. -/
theorem of_rows (hinv : SoloWakeInv s) (h : s.step e = some s') (hrows : s'.rows = s.rows)
    (hseq : s'.blockSeq = s.blockSeq) (hsending : ∀ hash ∈ s'.sending, hash ∈ s.sending)
    (hreturned : ∀ hash ∈ s'.returned, hash ∈ s.returned ∨ hash ∈ s.sending)
    (hstartup : ∀ n, s'.startup = some n → n ≤ s.blockSeq)
    (hawake : ∀ b ∈ s.rows, b.pending = true → s'.Owed b → s'.Awake b) : SoloWakeInv s' where
  table := hinv.table.step h
  sending hash hmem := hrows ▸ hinv.sending hash (hsending hash hmem)
  returned hash hmem := by
    rw [hrows]
    rcases hreturned hash hmem with hold | hsent
    · exact hinv.returned hash hold
    · exact hinv.sending hash hsent
  startup n hn := hseq ▸ hstartup n hn
  awake b hb := hawake b (hrows ▸ hb)

/-- A new row is not yet owed a wake-up. -/
theorem insert (hinv : SoloWakeInv s) {msg : BlockFoundMsg} {rows : List SoloBlock}
    {sending : List Text}
    (h : s.step e = some { s with rows := rows, blockSeq := s.blockSeq + 1, sending := sending })
    (hins : insertFound s.rows s.blockSeq msg = some rows)
    (hsending : ∀ hash ∈ sending, hash = msg.hash ∨ hash ∈ s.sending) :
    SoloWakeInv { s with rows := rows, blockSeq := s.blockSeq + 1, sending := sending } := by
  have hsub : ∀ hash ∈ s.rows.map SoloBlock.hash, hash ∈ rows.map SoloBlock.hash := by
    intro hash hmem
    rcases insertFound_cases hins with ⟨rfl, -⟩ | ⟨-, rfl⟩
    · exact hmem
    · rw [List.map_append]
      exact List.mem_append_left _ hmem
  have hnew : msg.hash ∈ rows.map SoloBlock.hash := by
    rcases insertFound_cases hins with ⟨rfl, b, hb, hhash⟩ | ⟨-, rfl⟩
    · exact hhash ▸ List.mem_map_of_mem hb
    · simp
  refine ⟨hinv.table.step h, fun hash hmem => ?_, fun hash hmem => hsub _ (hinv.returned hash hmem),
    fun n hn => (hinv.startup n hn).trans (Nat.le_succ _), fun b hb hpending howed => ?_⟩
  · rcases hsending hash hmem with rfl | hold
    · exact hnew
    · exact hsub _ (hinv.sending hash hold)
  · have hold : b ∈ s.rows := by
      rcases insertFound_cases hins with ⟨rfl, -⟩ | ⟨hfresh, rfl⟩
      · exact hb
      · refine (List.mem_append.mp hb).resolve_right fun hb => ?_
        obtain rfl := List.mem_singleton.mp hb
        rcases howed with hhash | ⟨n, hn, hlt⟩
        · obtain ⟨r, hr, heq⟩ := List.mem_map.mp (hinv.returned _ hhash)
          exact hfresh r hr heq
        · exact absurd (hinv.startup n hn) (not_le.mpr hlt)
    exact hinv.awake b hold hpending howed

/-- A check takes a block out of the pass only if it is decided, or counted. -/
theorem check (hinv : SoloWakeInv s) {p : PendingBlock} {rest : List PendingBlock} {pending : ℕ}
    {w : Weather} (h : s.step e = some { s with
      rows := checkedRows w [p.id] s.rows
      phase := .checking rest (pending + (if settles w p.id then 0 else 1)) })
    (hphase : s.phase = .checking (p :: rest) pending) :
    SoloWakeInv { s with
      rows := checkedRows w [p.id] s.rows
      phase := .checking rest (pending + (if settles w p.id then 0 else 1)) } := by
  have hhashes : (checkedRows w [p.id] s.rows).map SoloBlock.hash = s.rows.map SoloBlock.hash :=
    map_checkedRows (checked_hash _) _ _
  refine ⟨hinv.table.step h, fun hash hmem => hhashes ▸ hinv.sending hash hmem,
    fun hash hmem => hhashes ▸ hinv.returned hash hmem, hinv.startup, fun b' hb' hpending howed => ?_⟩
  obtain ⟨b, hb, ⟨hid, rfl⟩ | ⟨hid, rfl⟩⟩ := mem_checkedRows_singleton.mp hb'
  · refine .inr (.inl ?_)
    have hunsettled : settles w p.id = false := by
      by_contra hsettled
      rw [Bool.not_eq_false, ← hid] at hsettled
      rw [pending_checked_of_settles w hsettled] at hpending
      cases hpending
    simp [hunsettled]
  · rcases hinv.awake b' hb hpending howed with htoken | hcovers
    · exact .inl htoken
    · rw [hphase] at hcovers
      rcases hcovers with hpos | hmem
      · exact .inr (.inl (Nat.add_pos_left hpos _))
      · rcases List.mem_cons.mp hmem with heq | hmem
        · exact absurd heq hid
        · exact .inr (.inr hmem)

theorem step (hinv : SoloWakeInv s) (hreads : ReadsAll s e) (h : s.step e = some s') :
    SoloWakeInv s' := by
  cases e with
  | blockInsert msg reply =>
      have hs := h
      simp only [SoloLoop.step] at hs
      cases hins : insertFound s.rows s.blockSeq msg with
      | none =>
          rw [hins] at hs
          exact Option.some.inj hs ▸ hinv
      | some rows =>
          simp only [hins] at hs
          split at hs
          · exact Option.some.inj hs ▸ hinv
          · obtain rfl := Option.some.inj hs
            refine hinv.insert h hins fun hash hmem => ?_
            split_ifs at hmem
            · exact List.mem_cons.mp hmem
            · exact .inr hmem
  | send hash =>
      have hs := h
      simp only [SoloLoop.step, Option.ite_none_right_eq_some, Option.some.injEq] at hs
      obtain ⟨hmem, rfl⟩ := hs
      refine hinv.of_rows h rfl rfl (fun _ => List.mem_of_mem_erase) (fun hash' hhash => ?_)
        hinv.startup fun _ _ _ _ => .inl rfl
      rcases List.mem_cons.mp hhash with rfl | hold
      · exact .inr hmem
      · exact .inl hold
  | startupQuery ok =>
      have hs := h
      simp only [SoloLoop.step, Option.ite_none_right_eq_some, Option.some.injEq] at hs
      obtain ⟨hstart, rfl⟩ := hs
      refine hinv.of_rows h rfl rfl (fun _ hh => hh) (fun _ => .inl) (fun n hn => ?_)
        fun b hb hpending howed => ?_
      · have hseq : (if ok then some s.blockSeq else none) = some n := hn
        split_ifs at hseq
        exact (Option.some.inj hseq).symm.le
      · cases ok with
        | true =>
            -- the query counts every undecided row
            have hany : s.rows.any SoloBlock.pending = true := List.any_eq_true.mpr ⟨b, hb, hpending⟩
            exact .inr (by simp [hany, SoloPhase.covers])
        | false =>
            rcases howed with hhash | ⟨n, hn, -⟩
            · rcases hinv.awake b hb hpending (.inl hhash) with htoken | hcovers
              · exact .inl htoken
              · rw [hstart] at hcovers
                exact hcovers.elim
            · cases hn
  | startupSend =>
      have hs := h
      simp only [SoloLoop.step, Option.ite_none_right_eq_some, Option.some.injEq] at hs
      obtain ⟨-, rfl⟩ := hs
      exact hinv.of_rows h rfl rfl (fun _ hh => hh) (fun _ => .inl) hinv.startup
        fun _ _ _ _ => .inl rfl
  | receive =>
      have hs := h
      simp only [SoloLoop.step, Option.ite_none_right_eq_some, Option.some.injEq] at hs
      obtain ⟨-, rfl⟩ := hs
      exact hinv.of_rows h rfl rfl (fun _ hh => hh) (fun _ => .inl) hinv.startup
        fun _ _ _ _ => .inr trivial
  | poll w =>
      have hs := h
      simp only [SoloLoop.step, Option.ite_none_right_eq_some, Option.some.injEq] at hs
      obtain ⟨-, rfl⟩ := hs
      refine hinv.of_rows h rfl rfl (fun _ hh => hh) (fun _ => .inl) hinv.startup
        fun b hb hpending _ => .inr ?_
      show SoloPhase.covers b.id (if w.query then .checking (readBlocks w) 0 else .active)
      split_ifs with hquery
      · exact .inr ((mem_readBlocks_id w).mpr ⟨b, hreads hquery b hb hpending, rfl⟩)
      · trivial
  | check hash confs reply =>
      have hs := h
      simp only [SoloLoop.step] at hs
      split at hs
      next p rest pending hphase =>
        split_ifs at hs
        obtain rfl := Option.some.inj hs
        simp only [checkBlock_eq] at h ⊢
        exact hinv.check h hphase
      · cases hs
  | passDone =>
      have hs := h
      simp only [SoloLoop.step] at hs
      split at hs
      next pending hphase =>
        obtain rfl := Option.some.inj hs
        refine hinv.of_rows h rfl rfl (fun _ hh => hh) (fun _ => .inl) hinv.startup
          fun b hb hpending howed => ?_
        rcases hinv.awake b hb hpending howed with htoken | hcovers
        · exact .inl htoken
        · -- with nothing left the pass covers the block by its count
          rw [hphase] at hcovers
          have hpos : 0 < pending := hcovers.resolve_right (by simp)
          exact .inr (by simp [hpos.ne', SoloPhase.covers])
      · cases hs
  | stop =>
      have hs := h
      simp only [SoloLoop.step, Option.ite_none_right_eq_some, Option.some.injEq] at hs
      obtain ⟨-, rfl⟩ := hs
      exact hinv.of_rows h rfl rfl (fun _ hh => hh) (fun _ => .inl) hinv.startup
        fun _ _ _ _ => .inr trivial
  | restart =>
      have hs := h
      obtain rfl := Option.some.inj hs
      refine hinv.of_rows h rfl rfl (fun _ hh => nomatch hh) (fun _ hh => nomatch hh)
        (fun _ hn => nomatch hn) fun b hb _ howed => ?_
      rcases howed with hhash | ⟨n, hn, -⟩
      · cases hhash
      · cases hn

end SoloWakeInv

/-- A second block is found while the pass for the first is under way. -/
def foundDuringPass : List SoloEvent :=
  [.startupQuery true, .blockInsert ⟨840000, ['h'], ['m'], [], 0⟩ .ok, .send ['h'], .receive,
    .poll ⟨true, [foundBlock], 1, fun _ => true, fun _ => none, fun _ => .ok⟩,
    .blockInsert ⟨840001, ['i'], ['m'], [], 0⟩ .ok, .send ['i'], .check ['h'] (some 3) .ok,
    .passDone]

end Reward.Solo
