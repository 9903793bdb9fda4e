import Unlucky21.Reward.Decisions

/-!
# The confirmation loop and its channel

`startConfirmationLoop` sleeps on a channel that holds one token. `BlockFound`
inserts its row and then sends without blocking, so a token can be dropped; the
loop goes back to sleep on a count from an earlier query. What saves the block
is the order: the row is inserted before the send, the token is received before
the query.
-/

namespace Reward

open Wire Runs

/-! ## State -/

/-- Where the goroutine is: before its query, about to send its own token,
waiting for one, or between two passes or in one. -/
inductive LoopPhase
  | starting
  | seeding
  | idle
  | polling
deriving DecidableEq, Repr

/-- The handler with its loop. `sending` has the blocks of `BlockFound` calls
that have inserted their row and not yet sent. The last two fields record the
past: the blocks of calls that have returned without error, and the next block
id at the time of the first query. -/
structure ConfirmationLoop where
  handler : PoolHandler
  blockPending : Bool
  phase : LoopPhase
  sending : List ℕ
  returned : List ℕ
  startup : Option ℕ

def ConfirmationLoop.boot (h : PoolHandler) : ConfirmationLoop :=
  ⟨h, false, .starting, [], [], none⟩

def ConfirmationLoop.db (s : ConfirmationLoop) : Db := s.handler.db

inductive LoopEvent
  | handler (e : Event)
  | startupQuery (scan : List ℕ)
  | startupSend
  | receive
  | send (blockID : ℕ)
deriving DecidableEq, Repr

/-- The steps of `checkConfirmations`. -/
def Event.ofPass : Event → Bool
  | .poll _ _ => true
  | .pollBlock _ _ _ => true
  | .assign => true
  | .passDone => true
  | _ => false

/-- The row a `BlockFound` call was told it has inserted. -/
def toldInserted (h : PoolHandler) : Event → List ℕ
  | .blockInsert tid reply now =>
      match h.tasks tid with
      | .blockSnapshot bf snapshot =>
          if (reply.write h.db (insertBlock h.db bf snapshot now)).2 then [h.db.blockSeq] else []
      | _ => []
  | _ => []

/-- `checkConfirmations` returns 0 and the loop goes back to waiting. -/
def LoopPhase.after (phase : LoopPhase) (h : PoolHandler) (e : Event) : LoopPhase :=
  if e = .passDone ∧ h.pass = .polling [] 0 then .idle else phase

def ConfirmationLoop.step (s : ConfirmationLoop) : LoopEvent → Option ConfirmationLoop
  | .handler e =>
      if e.ofPass → s.phase = .polling then
        (s.handler.step e).map fun h => { s with
          handler := h
          phase := s.phase.after s.handler e
          sending := s.sending ++ toldInserted s.handler e }
      else none
  | .startupQuery scan =>
      if s.phase = .starting then
        some { s with
          phase := if getUnconfirmedBlocks s.db scan = [] then .idle else .seeding
          startup := some s.db.blockSeq }
      else none
  | .startupSend =>
      if s.phase = .seeding then some { s with phase := .idle, blockPending := true } else none
  | .receive =>
      if s.phase = .idle ∧ s.blockPending then
        some { s with phase := .polling, blockPending := false }
      else none
  | .send blockID =>
      if blockID ∈ s.sending then
        some { s with
          blockPending := true
          sending := s.sending.erase blockID
          returned := blockID :: s.returned }
      else none

/-! ## What a pass still covers -/

/-- The pass has the block before it, or has counted one as pending. -/
def Pass.covers (blockID : ℕ) : Pass → Prop
  | .idle => True
  | .polling rest pending => 0 < pending ∨ blockID ∈ rest.map UnconfirmedBlock.id
  | .confirmed _ rest pending => 0 < pending ∨ blockID ∈ rest.map UnconfirmedBlock.id

variable {h h' : PoolHandler} {e : Event}

/-- A row undecided after a step was undecided before, or is new. -/
theorem BlockStep.undecided_mem {blocks : List BlockRow} (hstep : BlockStep h e blocks)
    {b : BlockRow} (hb : b ∈ blocks) (hund : b.undecided) :
    b ∈ h.db.blocks ∨ b.id = h.db.blockSeq := by
  cases hstep with
  | same => exact .inl hb
  | inserted hid hc ho =>
      rcases List.mem_append.mp hb with hb | hb
      · exact .inl hb
      · exact .inr (List.mem_singleton.mp hb ▸ hid)
  | orphaned hp hrpc hneg =>
      rcases mem_map_flag.mp hb with ⟨hb, -⟩ | ⟨b, -, -, rfl⟩
      · exact .inl hb
      · simp [BlockRow.undecided] at hund
  | confirmed hp hrpc htwo =>
      rcases mem_map_flag.mp hb with ⟨hb, -⟩ | ⟨b, -, -, rfl⟩
      · exact .inl hb
      · simp [BlockRow.undecided] at hund

theorem Decision.blockSeq_le {db' : Db} (hd : Decision h e db') : h.db.blockSeq ≤ db'.blockSeq := by
  cases hd with
  | same => exact le_rfl
  | shares pending now => exact le_rfl
  | inserted hins =>
      unfold insertBlock at hins
      split_ifs at hins
      obtain rfl := Option.some.inj hins
      exact Nat.le_succ _
  | orphaned hp hrpc hneg => exact le_rfl
  | confirmed hp hrpc htwo hconfirm =>
      obtain ⟨b, -, -, -, ⟨-, -, rfl⟩ | ⟨-, -, rfl⟩⟩ := confirmBlock_inv hconfirm <;> exact le_rfl

/-- Looking at a block covers it still, or has decided it. -/
theorem checkBlock_covers {u : UnconfirmedBlock} {rest : List UnconfirmedBlock} {pending : ℕ}
    (confs : Option ℤ) (reply : Reply) (now : Time) {b : BlockRow}
    (hb : b ∈ (h.checkBlock u rest pending confs reply now).db.blocks) (hund : b.undecided)
    (hcov : Pass.covers b.id (.polling (u :: rest) pending)) :
    Pass.covers b.id (h.checkBlock u rest pending confs reply now).pass := by
  have hpending : ∀ {n : ℕ}, Pass.covers b.id (.polling rest (n + 1)) := fun {n} => .inl n.succ_pos
  have hrest : b.id ≠ u.id → 0 < pending ∨ b.id ∈ rest.map UnconfirmedBlock.id := by
    intro hne
    rcases hcov with hpos | hmem
    · exact .inl hpos
    · exact .inr ((List.mem_cons.mp hmem).resolve_left hne)
  cases confs with
  | none =>
      -- a failed lookup counts the block as pending
      exact hpending
  | some confs =>
      by_cases h0 : confs < 0
      · simp only [PoolHandler.checkBlock, h0, if_true] at hb ⊢
        -- only a write that went through leaves the block out of the count
        rcases Reply.write_cases reply h.db (some (markOrphaned h.db u.id)) with
          heq | ⟨db', hdb', ⟨-, heq⟩ | ⟨-, heq⟩⟩
        · simp only [heq, Bool.false_eq_true, if_false]
          exact hpending
        · simp only [heq, if_true] at hb ⊢
          obtain rfl := Option.some.inj hdb'
          refine hrest fun hid => ?_
          rcases mem_map_flag.mp hb with ⟨-, hne⟩ | ⟨b', -, -, rfl⟩
          · exact hne hid
          · simp [BlockRow.undecided] at hund
        · simp only [heq, Bool.false_eq_true, if_false]
          exact hpending
      · by_cases h2 : confs < 2
        · simp only [PoolHandler.checkBlock, h0, h2, if_true, if_false]
          exact hpending
        · simp only [PoolHandler.checkBlock, h0, h2, if_false] at hb ⊢
          -- two confirmations: the block is confirmed and the round may change with it
          cases hconfirm : confirmBlock h.db u.id now with
          | none => exact hpending
          | some result =>
              obtain ⟨newRoundID, db₁⟩ := result
              simp only [hconfirm] at hb ⊢
              rcases Reply.write_cases reply h.db (some db₁) with
                heq | ⟨db', hdb', ⟨-, heq⟩ | ⟨-, heq⟩⟩
              · simp only [heq, Bool.false_eq_true, if_false]
                exact hpending
              · simp only [heq, if_true] at hb ⊢
                obtain rfl := Option.some.inj hdb'
                refine hrest fun hid => ?_
                have hmem : b ∈ (h.db.markConfirmed u.id).blocks := by
                  obtain ⟨b', -, -, -, ⟨-, -, rfl⟩ | ⟨-, -, rfl⟩⟩ := confirmBlock_inv hconfirm <;>
                    exact hb
                rcases mem_map_flag.mp hmem with ⟨-, hne⟩ | ⟨b', -, -, rfl⟩
                · exact hne hid
                · simp [BlockRow.undecided] at hund
              · simp only [heq, Bool.false_eq_true, if_false]
                exact hpending

/-- A step covers what is undecided after it; it does not end a pass that returns 0. -/
theorem step_covers (hs : h.step e = some h') {b : BlockRow} (hb : b ∈ h'.db.blocks)
    (hund : b.undecided) (hcov : h.pass.covers b.id) :
    h'.pass.covers b.id ∧ ¬ (e = .passDone ∧ h.pass = .polling [] 0) := by
  cases step_effect hs with
  | poll hp =>
      -- a new pass starts from all undecided blocks
      refine ⟨.inr ?_, by simp⟩
      exact List.mem_map.mpr ⟨_, mem_getUnconfirmedBlocks.mpr ⟨b, hb, hund, rfl⟩, rfl⟩
  | pollBlock hp =>
      rw [hp] at hcov
      exact ⟨checkBlock_covers _ _ _ hb hund hcov, by simp⟩
  | assign hp =>
      rw [hp] at hcov
      exact ⟨hcov, by simp⟩
  | @passDone pending hp =>
      rw [hp] at hcov
      -- a pass with nothing left covers a block by its count alone
      refine ⟨trivial, fun hzero => ?_⟩
      have hpending : pending = 0 := by
        have := hp.symm.trans hzero.2
        simpa using this
      rcases hcov with hpos | hmem
      · omega
      · cases hmem
  | notANumber ht hdiff => exact ⟨hcov, by simp⟩
  | recordShare ht hdiff => exact ⟨hcov, by simp⟩
  | bufferShare ht => exact ⟨hcov, by simp⟩
  | takeBuffer => exact ⟨hcov, by simp⟩
  | flushCall hf => exact ⟨hcov, by simp⟩
  | blockFound ht => exact ⟨hcov, by simp⟩
  | blockQuery ht hq => exact ⟨hcov, by simp⟩
  | blockQueryFailed ht => exact ⟨hcov, by simp⟩
  | blockInsert ht => exact ⟨hcov, by simp⟩
  | refresh ht => exact ⟨hcov, by simp⟩
  | refreshQuery ht hq => exact ⟨hcov, by simp⟩
  | refreshQueryFailed ht => exact ⟨hcov, by simp⟩
  | refreshStore ht => exact ⟨hcov, by simp⟩
  | pollFailed => exact ⟨hcov, by simp⟩

theorem step_pass_of_not_ofPass (hs : h.step e = some h') (he : e.ofPass = false) :
    h'.pass = h.pass := by
  cases step_effect hs with
  | poll hp => cases he
  | pollBlock hp => cases he
  | assign hp => cases he
  | passDone hp => cases he
  | _ => rfl

theorem toldInserted_lt (hs : h.step e = some h') {i : ℕ} (hi : i ∈ toldInserted h e) :
    i < h'.db.blockSeq := by
  cases step_effect hs with
  | @blockInsert tid reply now bf snapshot ht =>
      simp only [toldInserted, ht] at hi
      split_ifs at hi with htold
      · obtain rfl := List.mem_singleton.mp hi
        rcases Reply.write_cases reply h.db (insertBlock h.db bf snapshot now) with
          heq | ⟨db', hins, ⟨-, heq⟩ | ⟨-, heq⟩⟩
        · simp [heq] at htold
        · unfold insertBlock at hins
          split_ifs at hins
          obtain rfl := Option.some.inj hins
          rw [setTask_db, setDb_db, heq]
          exact Nat.lt_succ_self _
        · simp [heq] at htold
      · cases hi
  | _ => cases hi

/-! ## No lost wake-up -/

/-- A block the loop has to see: it was there at the start, or its call is over. -/
def ConfirmationLoop.Owed (s : ConfirmationLoop) (blockID : ℕ) : Prop :=
  blockID ∈ s.returned ∨ ∃ n, s.startup = some n ∧ blockID < n

/-- What will make it see the block. -/
def ConfirmationLoop.Awake (s : ConfirmationLoop) (blockID : ℕ) : Prop :=
  s.blockPending = true ∨ s.phase = .seeding ∨
    (s.phase = .polling ∧ s.handler.pass.covers blockID)

structure WakeInv (s : ConfirmationLoop) : Prop where
  constraints : s.db.Constraints
  sending_lt : ∀ i ∈ s.sending, i < s.db.blockSeq
  owed_lt : ∀ i, s.Owed i → i < s.db.blockSeq
  asleep : s.phase ≠ .polling → s.handler.pass = .idle
  awake : ∀ b ∈ s.db.blocks, b.undecided → s.Owed b.id → s.Awake b.id

namespace WakeInv

variable {s : ConfirmationLoop}

theorem boot (hc : h.db.Constraints) (hpass : h.pass = .idle) : WakeInv (.boot h) where
  constraints := hc
  sending_lt i hi := absurd hi List.not_mem_nil
  owed_lt i hi := by
    rcases hi with hi | ⟨n, hn, -⟩
    · exact absurd hi List.not_mem_nil
    · cases hn
  asleep _ := hpass
  awake b _ _ howed := by
    rcases howed with hi | ⟨n, hn, -⟩
    · exact absurd hi List.not_mem_nil
    · cases hn

theorem handler (hinv : WakeInv s) (hguard : e.ofPass → s.phase = .polling)
    (hs : s.handler.step e = some h') :
    WakeInv { s with
      handler := h'
      phase := s.phase.after s.handler e
      sending := s.sending ++ toldInserted s.handler e } := by
  have hd := step_decision hs
  have hafter : s.phase ≠ .polling → s.phase.after s.handler e = s.phase := by
    intro hne
    refine if_neg fun hdone => hne (hguard ?_)
    rw [hdone.1]
    rfl
  refine ⟨hd.constraints hinv.constraints, fun i hi => ?_,
    fun i hi => (hinv.owed_lt i hi).trans_le hd.blockSeq_le, fun hne => ?_, fun b hb hund howed => ?_⟩
  · rcases List.mem_append.mp hi with hi | hi
    · exact (hinv.sending_lt i hi).trans_le hd.blockSeq_le
    · exact toldInserted_lt hs hi
  · by_cases hdone : e = .passDone ∧ s.handler.pass = .polling [] 0
    · obtain ⟨rfl, -⟩ := hdone
      cases step_effect hs with
      | passDone hp => rfl
    · have hphase : s.phase ≠ .polling := by
        rw [LoopPhase.after, if_neg hdone] at hne
        exact hne
      have hpass : e.ofPass = false := by
        by_contra hpass
        exact hphase (hguard (by simpa using hpass))
      exact (step_pass_of_not_ofPass hs hpass).trans (hinv.asleep hphase)
  · -- a block inserted by this step is not yet owed a wake-up
    have hold : b ∈ s.handler.db.blocks :=
      (hd.blockStep.undecided_mem hb hund).resolve_right (hinv.owed_lt b.id howed).ne
    rcases hinv.awake b hold hund howed with htoken | hseed | ⟨hpoll, hcov⟩
    · exact .inl htoken
    · refine .inr (.inl ?_)
      show s.phase.after s.handler e = .seeding
      rw [hafter (by simp [hseed]), hseed]
    · obtain ⟨hcov', hgoes⟩ := step_covers hs hb hund hcov
      refine .inr (.inr ⟨?_, hcov'⟩)
      show s.phase.after s.handler e = .polling
      rw [LoopPhase.after, if_neg hgoes, hpoll]

theorem step (hinv : WakeInv s) {e : LoopEvent} {s' : ConfirmationLoop} (hs : s.step e = some s') :
    WakeInv s' := by
  cases e with
  | handler e =>
      simp only [ConfirmationLoop.step, Option.ite_none_right_eq_some] at hs
      obtain ⟨hguard, hs⟩ := hs
      obtain ⟨h', hs', rfl⟩ := Option.map_eq_some_iff.mp hs
      exact hinv.handler hguard hs'
  | startupQuery scan =>
      simp only [ConfirmationLoop.step, Option.ite_none_right_eq_some, Option.some.injEq] at hs
      obtain ⟨hstart, rfl⟩ := hs
      have hphase : s.phase ≠ .polling := by simp [hstart]
      -- the query at startup sees every block the process before left undecided
      refine ⟨hinv.constraints, hinv.sending_lt, fun i hi => ?_, fun _ => hinv.asleep hphase,
        fun b hb hund _ => .inr (.inl (if_neg fun hnil => ?_))⟩
      · rcases hi with hi | ⟨n, hn, hlt⟩
        · exact hinv.owed_lt i (.inl hi)
        · obtain rfl := Option.some.inj hn
          exact hlt
      · have hmem : ⟨b.id, b.hash, b.height, b.roundId⟩ ∈ getUnconfirmedBlocks s.db scan :=
          mem_getUnconfirmedBlocks.mpr ⟨b, hb, hund, rfl⟩
        rw [hnil] at hmem
        exact absurd hmem List.not_mem_nil
  | startupSend =>
      simp only [ConfirmationLoop.step, Option.ite_none_right_eq_some, Option.some.injEq] at hs
      obtain ⟨hseed, rfl⟩ := hs
      have hphase : s.phase ≠ .polling := by simp [hseed]
      exact ⟨hinv.constraints, hinv.sending_lt, hinv.owed_lt, fun _ => hinv.asleep hphase,
        fun b _ _ _ => .inl rfl⟩
  | receive =>
      simp only [ConfirmationLoop.step, Option.ite_none_right_eq_some, Option.some.injEq] at hs
      obtain ⟨⟨hidle, -⟩, rfl⟩ := hs
      have hpass : s.handler.pass = .idle := hinv.asleep (by simp [hidle])
      -- the pass that follows starts with a query
      refine ⟨hinv.constraints, hinv.sending_lt, hinv.owed_lt, fun hne => absurd rfl hne,
        fun b _ _ _ => .inr (.inr ⟨rfl, ?_⟩)⟩
      show s.handler.pass.covers b.id
      rw [hpass]
      trivial
  | send blockID =>
      simp only [ConfirmationLoop.step, Option.ite_none_right_eq_some, Option.some.injEq] at hs
      obtain ⟨hmem, rfl⟩ := hs
      refine ⟨hinv.constraints, fun i hi => hinv.sending_lt i (List.mem_of_mem_erase hi),
        fun i hi => ?_, hinv.asleep, fun b _ _ _ => .inl rfl⟩
      rcases hi with hi | hi
      · rcases List.mem_cons.mp hi with rfl | hi
        · exact hinv.sending_lt i hmem
        · exact hinv.owed_lt i (.inl hi)
      · exact hinv.owed_lt i (.inr hi)

end WakeInv

/-- **No lost wake-up.** In every reachable state: an undecided block that was
there at the start-up query, or whose `BlockFound` call has returned, keeps the
loop polling, or there is a token, or the start-up step is about to send one. -/
theorem no_lost_wakeup {db : Db} {h₀ : PoolHandler} {es : List LoopEvent} {s : ConfirmationLoop}
    (hc : db.Constraints) (hboot : PoolHandler.boot db = some h₀)
    (hr : run ConfirmationLoop.step (.boot h₀) es = some s) :
    ∀ b ∈ s.db.blocks, b.confirmed = false → b.isOrphaned = false → s.Owed b.id →
      s.phase = .polling ∨ s.blockPending = true ∨ s.phase = .seeding := by
  obtain ⟨roundID, -, rfl⟩ := Option.map_eq_some_iff.mp hboot
  have h0 : WakeInv (.boot ⟨.boot db, roundID, [], fun _ => .idle, .idle⟩) := .boot hc rfl
  have hinv : WakeInv s := run_invariant (fun _ _ _ hi hs => hi.step hs) h0 hr
  intro b hb hconf horph howed
  rcases hinv.awake b hb (by simp [BlockRow.undecided, hconf, horph]) howed with
    htoken | hseed | ⟨hpoll, -⟩
  · exact .inr (.inl htoken)
  · exact .inr (.inr hseed)
  · exact .inl hpoll

/-- A block is inserted and sent while a pass that does not see it is under way. -/
def foundDuringPass : List LoopEvent :=
  [.startupQuery [], .handler (.blockFound 0 ⟨800000, ['a'], ['m'], ['t'], 0⟩),
    .handler (.blockQuery 0 .ok 10 []), .handler (.blockInsert 0 .ok 10), .send 1, .receive,
    .handler (.poll .ok []), .handler (.blockFound 1 ⟨800001, ['b'], ['m'], ['u'], 0⟩),
    .handler (.blockQuery 1 .ok 20 []), .handler (.blockInsert 1 .ok 20), .send 2,
    .handler (.pollBlock (some (-1)) .ok 30), .handler .passDone]

theorem no_lost_wakeup_foundDuringPass :
    ∃ s, (PoolHandler.boot .initial).bind (fun h => run ConfirmationLoop.step (.boot h)
        foundDuringPass) = some s ∧
      s.phase = .idle ∧ s.returned = [2, 1] ∧
      (∃ b ∈ s.db.blocks, b.id = 2 ∧ b.confirmed = false ∧ b.isOrphaned = false) ∧
      s.blockPending = true := by
  obtain ⟨s, hrun, hproj⟩ := Option.map_eq_some_iff.mp (by decide +kernel :
    ((PoolHandler.boot .initial).bind (fun h => run ConfirmationLoop.step (.boot h)
        foundDuringPass)).map
      (fun s => (s.phase, s.returned, s.db.blocks.map fun b => (b.id, b.confirmed, b.isOrphaned))) =
      some (.idle, [2, 1], [(1, false, true), (2, false, false)]))
  obtain ⟨hphase, hreturned, hblocks⟩ : s.phase = .idle ∧ s.returned = [2, 1] ∧
      s.db.blocks.map (fun b => (b.id, b.confirmed, b.isOrphaned)) =
        [(1, false, true), (2, false, false)] := by
    simpa using hproj
  obtain ⟨h₀, hboot, hrun'⟩ := Option.bind_eq_some_iff.mp hrun
  obtain ⟨b, hb, hflags⟩ := List.mem_map.mp (by rw [hblocks]; simp :
    (2, false, false) ∈ s.db.blocks.map fun b => (b.id, b.confirmed, b.isOrphaned))
  obtain ⟨hid, hconf, horph⟩ : b.id = 2 ∧ b.confirmed = false ∧ b.isOrphaned = false := by
    simpa using hflags
  have howed : s.Owed b.id := .inl (by rw [hreturned, hid]; simp)
  refine ⟨s, hrun, hphase, hreturned, ⟨b, hb, hid, hconf, horph⟩, ?_⟩
  have hawake := no_lost_wakeup initial_constraints hboot hrun' b hb hconf horph howed
  simpa [hphase] using hawake

end Reward
