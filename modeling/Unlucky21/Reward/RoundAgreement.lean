import Unlucky21.Reward.PoolHandler
import Unlucky21.Reward.RoundStore

/-!
# Does the handler hold the open round?

The handler's `roundID` is set from what `ConfirmBlock` returns. That is the
round just opened, or, for a block whose round an earlier block of the same
round has closed, the closed round. The run lemma follows the round id the
handler is about to hold and relates it to the last confirmation made.
-/

namespace Reward

open Wire Runs

/-- The round id `checkConfirmations` leaves in the handler. -/
def PoolHandler.target (h : PoolHandler) : ℕ :=
  match h.pass with
  | .confirmed newRoundID _ _ => newRoundID
  | _ => h.roundID

/-- For a step that calls `ConfirmBlock`: was the block's round still open? -/
def confirmReport (h : PoolHandler) : Event → Option Bool
  | .pollBlock (some confs) .ok _ =>
      match h.pass with
      | .polling (b :: _) _ =>
          if 2 ≤ confs then (h.db.roundOf b.id).map fun roundID => !h.db.alreadyClosed roundID
          else none
      | _ => none
  | _ => none

/-! ## Steps of the handler -/

theorem QuietStep.of_write {db written : Db} (h : QuietStep db written) (reply : Reply) :
    QuietStep db (reply.write db (some written)).1 := by
  cases reply
  · exact h
  · exact .same
  · exact h

theorem QuietStep.of_insertBlock (reply : Reply) (db : Db) (bf : BlockFound)
    (snapshot : List Entry) (now : Time) :
    QuietStep db (reply.write db (insertBlock db bf snapshot now)).1 := by
  cases hins : insertBlock db bf snapshot now with
  | none => cases reply <;> exact .same
  | some db' => exact (QuietStep.block hins).of_write reply

/-- One round of the loop of `checkConfirmations`, answered by the database: it
confirms the block, or it leaves the rounds alone. -/
theorem checkBlock_rounds {h : PoolHandler} {b : UnconfirmedBlock} {rest : List UnconfirmedBlock}
    {pending : ℕ} (hp : h.pass = .polling (b :: rest) pending) (confs : Option ℤ) (now : Time) :
    let h' := h.checkBlock b rest pending confs .ok now
    (confirmReport h (.pollBlock confs .ok now) = none ∧ QuietStep h.db h'.db ∧
        h'.target = h.target) ∨
      (confirmReport h (.pollBlock confs .ok now) =
          (h.db.roundOf b.id).map (fun roundID => !h.db.alreadyClosed roundID) ∧
        confirmBlock h.db b.id now = some (h'.target, h'.db)) := by
  have htarget : h.target = h.roundID := by simp [PoolHandler.target, hp]
  cases confs with
  | none => exact .inl ⟨rfl, .same, by rw [htarget]; rfl⟩
  | some confs =>
      by_cases h0 : confs < 0
      · have h2 : ¬ (2 ≤ confs) := by omega
        left
        simp only [PoolHandler.checkBlock, h0, if_true, Reply.write]
        exact ⟨by simp [confirmReport, hp, h2], .orphan b.id, by rw [htarget]; rfl⟩
      · by_cases h2 : confs < 2
        · left
          simp only [PoolHandler.checkBlock, h0, h2, if_true, if_false]
          exact ⟨by simp [confirmReport, hp, h2], .same, by rw [htarget]; rfl⟩
        · have h2' : 2 ≤ confs := not_lt.mp h2
          simp only [PoolHandler.checkBlock, h0, h2, if_false]
          cases hcf : confirmBlock h.db b.id now with
          | none =>
              left
              have hround : h.db.roundOf b.id = none := by
                simpa [confirmBlock] using hcf
              exact ⟨by simp [confirmReport, hp, hround], .same, by rw [htarget]; rfl⟩
          | some result =>
              right
              exact ⟨by simp [confirmReport, hp, h2'], rfl⟩

/-- A step that the database answers confirms a block, or it leaves the rounds
and the id the handler will hold as they are. -/
theorem step_rounds {h h' : PoolHandler} {e : Event} (hs : h.step e = some h')
    (hans : e.answered = true) :
    (confirmReport h e = none ∧ QuietStep h.db h'.db ∧ h'.target = h.target) ∨
      (∃ blockID now, confirmReport h e =
          (h.db.roundOf blockID).map (fun roundID => !h.db.alreadyClosed roundID) ∧
        confirmBlock h.db blockID now = some (h'.target, h'.db)) := by
  cases step_effect hs with
  | pollBlock hp =>
      rename_i confs reply now b rest pending
      obtain rfl : reply = .ok := by simpa [Event.answered] using hans
      rcases checkBlock_rounds hp confs now with hq | hc
      · exact .inl hq
      · exact .inr ⟨b.id, now, hc⟩
  | flushCall hf =>
      refine .inl ⟨rfl, ?_, rfl⟩
      rcases flushCall_db hf with heq | ⟨pending, now, heq⟩
      · simpa only [PoolHandler.db, heq] using QuietStep.same
      · simpa only [PoolHandler.db, heq] using QuietStep.shares pending now
  | blockInsert ht => exact .inl ⟨rfl, .of_insertBlock _ _ _ _ _, rfl⟩
  | bufferShare ht =>
      refine .inl ⟨rfl, ?_, rfl⟩
      simpa [PoolHandler.db] using QuietStep.same
  | takeBuffer =>
      refine .inl ⟨rfl, ?_, rfl⟩
      simpa [PoolHandler.db] using QuietStep.same
  | poll hp => exact .inl ⟨rfl, .same, by simp [PoolHandler.target, hp]⟩
  | assign hp => exact .inl ⟨rfl, .same, by simp [PoolHandler.target, hp]⟩
  | passDone hp => exact .inl ⟨rfl, .same, by simp [PoolHandler.target, hp]⟩
  | notANumber ht hdiff => exact .inl ⟨rfl, .same, rfl⟩
  | recordShare ht hdiff => exact .inl ⟨rfl, .same, rfl⟩
  | blockFound ht => exact .inl ⟨rfl, .same, rfl⟩
  | blockQuery ht hq => exact .inl ⟨rfl, .same, rfl⟩
  | blockQueryFailed ht => exact .inl ⟨rfl, .same, rfl⟩
  | refresh ht => exact .inl ⟨rfl, .same, rfl⟩
  | refreshQuery ht hq => exact .inl ⟨rfl, .same, rfl⟩
  | refreshQueryFailed ht => exact .inl ⟨rfl, .same, rfl⟩
  | refreshStore ht => exact .inl ⟨rfl, .same, rfl⟩
  | pollFailed => exact .inl ⟨rfl, .same, rfl⟩

/-! ## Runs -/

/-- One round is open, and it is the one the handler will hold unless the last
confirmation found its round closed. -/
structure RoundInv (h₀ : PoolHandler) (es : List Event) (h : PoolHandler) : Prop where
  constraints : h.db.Constraints
  one_open : ∃ r, h.db.openRounds = [r] ∧
    (r.id = h.target ↔ (reports PoolHandler.step confirmReport h₀ es).getLast? ≠ some false)

theorem RoundInv.step {h₀ h h' : PoolHandler} {es : List Event} {e : Event}
    (hr : run PoolHandler.step h₀ es = some h) (hinv : RoundInv h₀ es h)
    (hans : e.answered = true) (hs : h.step e = some h') : RoundInv h₀ (es ++ [e]) h' := by
  obtain ⟨r, hopen, htarget⟩ := hinv.one_open
  rcases step_rounds hs hans with ⟨hreport, hquiet, htgt⟩ | ⟨blockID, now, hreport, hcf⟩
  · refine ⟨hquiet.constraints hinv.constraints, r, ?_, ?_⟩
    · rw [Db.openRounds, hquiet.rounds]
      exact hopen
    · simpa [reports_snoc hr, hreport, htgt] using htarget
  · obtain ⟨hc', roundID, hround, ⟨hcl, heq, hne, hopen'⟩ | ⟨hcl, -, hopen'⟩⟩ :=
      confirmBlock_cases hinv.constraints hopen hcf
    · refine ⟨hc', r, hopen', ?_⟩
      simp [reports_snoc hr, hreport, hround, hcl, hne.symm]
    · refine ⟨hc', _, hopen', ?_⟩
      simp [reports_snoc hr, hreport, hround, hcl]

/-- The round whose `ended_at` is NULL is the one the handler holds, the one a
share recorded now is credited to, and the one a refresh started now reads. -/
structure OpenRoundInUse (h : PoolHandler) : Prop where
  roundID : h.db.openRounds.map RoundRow.id = [h.roundID]
  recordShare : ∀ tid msg h' sh, h.step (.recordShare tid msg) = some h' →
    h'.tasks tid = .recordShare sh → h.db.openRounds.map RoundRow.id = [sh.roundID]
  refresh : ∀ tid h' roundID, h.step (.refresh tid) = some h' →
    h'.tasks tid = .refresh roundID → h.db.openRounds.map RoundRow.id = [roundID]

theorem OpenRoundInUse.of_roundID {h : PoolHandler}
    (hid : h.db.openRounds.map RoundRow.id = [h.roundID]) : OpenRoundInUse h where
  roundID := hid
  recordShare := by
    intro tid msg h' sh hs hsh
    cases step_effect hs with
    | notANumber ht hdiff => rw [ht] at hsh; cases hsh
    | recordShare ht hdiff =>
        rw [setTask_tasks] at hsh
        cases hsh
        exact hid
  refresh := by
    intro tid h' roundID hs hround
    cases step_effect hs with
    | refresh ht =>
        rw [setTask_tasks] at hround
        cases hround
        exact hid

theorem RoundInv.boot {db : Db} {h₀ : PoolHandler} (hc : db.Constraints)
    (hopen : ∃ r, db.openRounds = [r]) (hboot : PoolHandler.boot db = some h₀) :
    RoundInv h₀ [] h₀ := by
  obtain ⟨r, hopen⟩ := hopen
  obtain ⟨roundID, hactive, rfl⟩ := Option.map_eq_some_iff.mp hboot
  rw [activeRoundID_of_openRounds hopen] at hactive
  cases hactive
  exact ⟨hc, r, hopen, by simp [PoolHandler.target, reports]⟩

theorem run_roundInv {h₀ h : PoolHandler} {es : List Event} (h0 : RoundInv h₀ [] h₀)
    (hans : ∀ e ∈ es, e.answered = true) (hrun : run PoolHandler.step h₀ es = some h) :
    RoundInv h₀ es h := by
  refine run_history (P := fun es h => (∀ e ∈ es, e.answered = true) → RoundInv h₀ es h)
    (fun _ => h0) ?_ hrun hans
  intro es h e h' hr hP hs hans
  exact (hP fun e he => hans e (by simp [he])).step hr (hans e (by simp)) hs

/-- **Round agreement.** Between the calls of `checkConfirmations`, in every
run that the database answers, the open round is in use if and only if the last
`ConfirmBlock` was not for a block whose round was closed when it was called. -/
theorem openRound_inUse_iff {db : Db} {h₀ h : PoolHandler} {es : List Event}
    (hc : db.Constraints) (hopen : ∃ r, db.openRounds = [r])
    (hboot : PoolHandler.boot db = some h₀) (hans : ∀ e ∈ es, e.answered = true)
    (hrun : run PoolHandler.step h₀ es = some h) (hidle : h.pass = .idle) :
    OpenRoundInUse h ↔ (reports PoolHandler.step confirmReport h₀ es).getLast? ≠ some false := by
  obtain ⟨r, hopen', htarget⟩ := (run_roundInv (.boot hc hopen hboot) hans hrun).one_open
  have htgt : h.target = h.roundID := by simp [PoolHandler.target, hidle]
  rw [← htarget, htgt]
  constructor
  · intro huse
    simpa [hopen'] using huse.roundID
  · intro heq
    exact .of_roundID (by simp [hopen', heq])

/-! ## Two blocks of one round -/

def twoBlocks : List Event :=
  [.blockFound 0 ⟨800000, ['a'], ['m'], ['t'], 0⟩, .blockQuery 0 .ok 10 [], .blockInsert 0 .ok 10,
    .blockFound 0 ⟨800001, ['b'], ['m'], ['u'], 0⟩, .blockQuery 0 .ok 20 [], .blockInsert 0 .ok 20,
    .poll .ok []]

def firstConfirmed : List Event :=
  twoBlocks ++ [.pollBlock (some 2) .ok 30, .assign, .pollBlock (some 1) .ok 30, .passDone]

def bothConfirmed : List Event :=
  twoBlocks ++ [.pollBlock (some 3) .ok 40, .assign, .pollBlock (some 2) .ok 40, .assign, .passDone]

theorem openRound_inUse_firstConfirmed :
    ∃ h, (PoolHandler.boot .initial).bind (run PoolHandler.step · firstConfirmed) = some h ∧
      h.roundID = 2 ∧ OpenRoundInUse h := by
  obtain ⟨h, hrun, hproj⟩ := Option.map_eq_some_iff.mp (by decide +kernel :
    ((PoolHandler.boot .initial).bind (run PoolHandler.step · firstConfirmed)).map
      (fun h => (h.roundID, h.pass)) = some (2, .idle))
  obtain ⟨h₀, hboot, hrun'⟩ := Option.bind_eq_some_iff.mp hrun
  have hlast : (PoolHandler.boot .initial).map
      (reports PoolHandler.step confirmReport · firstConfirmed) = some [true] := by
    decide +kernel
  obtain ⟨hid, hpass⟩ : h.roundID = 2 ∧ h.pass = .idle := by simpa using hproj
  refine ⟨h, hrun, hid, (openRound_inUse_iff initial_constraints ⟨_, rfl⟩ hboot (by decide) hrun'
    hpass).mpr ?_⟩
  have hreports : reports PoolHandler.step confirmReport h₀ firstConfirmed = [true] := by
    simpa [hboot] using hlast
  simp [hreports]

/-- The second block's round was closed by the first: the handler goes back to
it although round 2 is open. -/
theorem closed_round_inUse :
    ∃ h, (PoolHandler.boot .initial).bind (run PoolHandler.step · bothConfirmed) = some h ∧
      (∀ e ∈ bothConfirmed, e.answered = true) ∧ h.pass = .idle ∧ h.roundID = 1 ∧
      h.db.openRounds.map RoundRow.id = [2] ∧ ¬ OpenRoundInUse h := by
  obtain ⟨h, hrun, hproj⟩ := Option.map_eq_some_iff.mp (by decide +kernel :
    ((PoolHandler.boot .initial).bind (run PoolHandler.step · bothConfirmed)).map
      (fun h => (h.pass, h.roundID, h.db.openRounds.map RoundRow.id)) = some (.idle, 1, [2]))
  obtain ⟨hpass, hid, hopen⟩ : h.pass = .idle ∧ h.roundID = 1 ∧
      h.db.openRounds.map RoundRow.id = [2] := by simpa using hproj
  refine ⟨h, hrun, by decide, hpass, hid, hopen, fun huse => ?_⟩
  have := huse.roundID
  rw [hopen, hid] at this
  cases this

end Reward
