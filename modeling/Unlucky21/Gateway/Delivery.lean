import Unlucky21.Gateway.Pool
import Unlucky21.Reward.Decisions

/-!
# Delivery of shares

No submission enters the table twice, and one that nothing loses can always be
brought there: whatever is on its way, the service can finish it without another
call that fails a flush.
-/

namespace Gateway

open Wire CText Reward Runs

/-! ## Exactly once -/

/-- Nothing is on its way. -/
structure Pool.Quiet (s : Pool) : Prop where
  connections : ∀ c ∈ s.connections, c.calls = []
  shares : s.shares = []
  tasks : ∀ tid sh, s.handler.tasks tid ≠ .recordShare sh
  buffer : s.handler.svc.buffer = []
  flushes : s.handler.svc.flushes = []

theorem Pool.Quiet.unserved {s : Pool} (h : s.Quiet) : s.unserved = 0 := by
  have hnone : ∀ c ∈ s.connections, Connection.credits c = 0 := fun c hc => by
    rw [Connection.credits, h.connections c hc]
    rfl
  rw [Pool.unserved, h.shares, List.map_congr_left hnone]
  simp

theorem Pool.Quiet.handlerCredits {s : Pool} (h : s.Quiet) (tids : Finset ℕ) :
    handlerCredits s.handler tids = 0 := by
  have hnone : ∀ tid ∈ tids, taskCredits (s.handler.tasks tid) = 0 := fun tid _ => by
    cases htask : s.handler.tasks tid with
    | recordShare sh => exact absurd htask (h.tasks tid sh)
    | _ => rfl
  rw [Gateway.handlerCredits, Slots.total, Finset.sum_eq_zero hnone, h.buffer, h.flushes]
  rfl

theorem accounted_of_run {db : Db} {h₀ : PoolHandler} {es : List PoolEvent} {s : Pool}
    (hboot : PoolHandler.boot db = some h₀) (hes : ∀ e ∈ es, e.Harmless)
    (hrun : run Pool.step (.boot h₀) es = some s) : Accounted db.shares es s := by
  obtain ⟨hdb, hsvc, htasks, -⟩ := boot_fields hboot
  have h0 := Accounted.boot htasks (by rw [hsvc]; rfl) (by rw [hsvc]; rfl)
  rw [hdb] at h0
  exact h0.run hes hrun

/-- In a quiet state everything is in the table or lost. -/
theorem Accounted.quiet {rows : List ShareRow} {es : List PoolEvent} {s : Pool}
    (h : Accounted rows es s) (hquiet : s.Quiet) (hlossless : ∀ e ∈ es, e.loses = false) :
    ∃ added, s.handler.db.shares = rows ++ added ∧ rowCredits added = submitted es := by
  obtain ⟨tids, added, lost, -, hrows, hsum, hlost⟩ := h
  refine ⟨added, hrows, ?_⟩
  rw [hsum, hquiet.unserved, hquiet.handlerCredits, hlost hlossless, zero_add, zero_add, add_zero]

/-- **No submission is stored twice.** In every run, over connections, goroutines,
buffer and batches in any interleaving, the rows added to the table credit
submissions, none of them more often than it was made. -/
theorem stored_at_most_once {db : Db} {h₀ : PoolHandler} {es : List PoolEvent} {s : Pool}
    (hboot : PoolHandler.boot db = some h₀) (hes : ∀ e ∈ es, e.Harmless)
    (hrun : run Pool.step (.boot h₀) es = some s) :
    ∃ added, s.handler.db.shares = db.shares ++ added ∧ rowCredits added ≤ submitted es := by
  obtain ⟨tids, added, lost, -, hrows, hsum, -⟩ := accounted_of_run hboot hes hrun
  refine ⟨added, hrows, ?_⟩
  rw [hsum, add_comm _ (rowCredits added), add_assoc]
  exact Multiset.le_add_right _ _

/-- Of two shares and a block on one connection, and a share on another, the first
share of each is stored and ranked. -/
def twoConnections : List PoolEvent := [
  .connect 0 [
    .request (.shareSubmit "bc1qw508d6qejxtdg4y5r3zarvary0c5xw7kv8f3t4.rig_1".toList 65536
      (24691 / 2) 23334),
    .request (.blockFound 840000 "00ff".toList "bc1qabc.rig_1".toList),
    .request (.shareSubmit "bc1qabc.rig_1".toList 65536 5 23334)],
  .connect 1 [.request (.shareSubmit "bc1qdef".toList 1 2 23334)],
  .serve 0, .recordShare 0 2, .handler (.bufferShare 2),
  .serve 1, .recordShare 0 3, .handler (.bufferShare 3),
  .handler .takeBuffer, .handler (.flushCall 0 .ok 7), .handler (.flushCall 0 .ok 7),
  .handler (.flushCall 0 .ok 7), .handler (.flushCall 0 .ok 7),
  .handler (.refresh 4), .handler (.refreshQuery 4 .ok 7 []), .handler (.refreshStore 4)]

theorem harmless_twoConnections : ∀ e ∈ twoConnections, e.Harmless := by
  have hfound : Sent.Harmless
      (.request (.blockFound 840000 "00ff".toList "bc1qabc.rig_1".toList)) :=
    ⟨by norm_num, by norm_num, by decide, List.all_eq_true.mp (by decide)⟩
  simp only [twoConnections, List.forall_mem_cons, PoolEvent.Harmless, hfound, true_and]
  simp only [Sent.Harmless, Request.InRange]
  norm_num

/-- The miner with the better share is first. -/
def twoRanked : List Text :=
  ["bc1qw508d6qejxtdg4y5r3zarvary0c5xw7kv8f3t4".toList, "bc1qdef".toList]

theorem run_twoConnections : ∃ h₀ s, PoolHandler.boot .initial = some h₀ ∧
    run Pool.step (.boot h₀) twoConnections = some s ∧ s.handler.db.shares.length = 2 ∧
    s.handler.top21.map Entry.btcAddress = twoRanked := by
  have hrun : ((PoolHandler.boot .initial).bind fun h₀ =>
      (run Pool.step (.boot h₀) twoConnections).map fun s =>
        (s.handler.db.shares.length, s.handler.top21.map Entry.btcAddress)) =
      some (2, twoRanked) := by decide +kernel
  obtain ⟨h₀, hboot, hrun⟩ := Option.bind_eq_some_iff.mp hrun
  obtain ⟨s, hs, hstate⟩ := Option.map_eq_some_iff.mp hrun
  exact ⟨h₀, s, hboot, hs, (Prod.mk.inj hstate).1, (Prod.mk.inj hstate).2⟩

/-- The process ends: the two rows stay, the third share is lost. -/
theorem stored_at_most_once_twoConnections :
    ∃ h₀ s, run Pool.step (.boot h₀) (twoConnections ++ [.restart]) = some s ∧
      ∃ added, s.handler.db.shares = Db.initial.shares ++ added ∧ added.length = 2 ∧
        rowCredits added ≤ submitted (twoConnections ++ [.restart]) := by
  have hharmless : ∀ e ∈ twoConnections ++ [.restart], e.Harmless := fun e he => by
    rcases List.mem_append.mp he with he | he
    · exact harmless_twoConnections e he
    · exact List.mem_singleton.mp he ▸ trivial
  have hrun : ((PoolHandler.boot .initial).bind fun h₀ =>
      (run Pool.step (.boot h₀) (twoConnections ++ [.restart])).map fun s =>
        s.handler.db.shares.length) = some 2 := by decide +kernel
  obtain ⟨h₀, hboot, hrun⟩ := Option.bind_eq_some_iff.mp hrun
  obtain ⟨s, hs, hrows⟩ := Option.map_eq_some_iff.mp hrun
  obtain ⟨added, hadded, hle⟩ := stored_at_most_once hboot hharmless hs
  rw [hadded] at hrows
  exact ⟨h₀, s, hs, added, hadded, hrows, hle⟩

/-! ## Rounds -/

/-- Every round a share can be credited to is in the table. -/
structure RoundsKnown (h : PoolHandler) : Prop where
  current : h.roundID ∈ h.db.rounds.map RoundRow.id
  confirmed : ∀ n rest pending, h.pass = .confirmed n rest pending →
    n ∈ h.db.rounds.map RoundRow.id
  tasks : ∀ tid sh, h.tasks tid = .recordShare sh → sh.roundID ∈ h.db.rounds.map RoundRow.id
  buffer : ∀ sh ∈ h.svc.buffer, sh.roundID ∈ h.db.rounds.map RoundRow.id
  flushes : ∀ f ∈ h.svc.flushes, ∀ sh ∈ f.pending, sh.roundID ∈ h.db.rounds.map RoundRow.id

theorem confirmBlock_round_ids {db db' : Db} {blockID newRoundID : ℕ} {now : Time}
    (h : confirmBlock db blockID now = some (newRoundID, db')) :
    (∀ n ∈ db.rounds.map RoundRow.id, n ∈ db'.rounds.map RoundRow.id) ∧
      newRoundID ∈ db'.rounds.map RoundRow.id := by
  obtain ⟨b, -, -, -, ⟨hclosed, rfl, rfl⟩ | ⟨-, rfl, rfl⟩⟩ := confirmBlock_inv h
  · refine ⟨fun n hn => hn, ?_⟩
    obtain ⟨r, hr, hid⟩ := List.any_eq_true.mp hclosed
    rw [Bool.and_eq_true, decide_eq_true_eq] at hid
    exact List.mem_map.mpr ⟨r, hr, hid.1⟩
  · have hids : ∀ r : RoundRow, (if r.id = b.roundId then
        { r with endedAt := some now, blockId := some blockID } else r).id = r.id := fun r => by
      split_ifs <;> rfl
    simp only [Db.openRound, Db.closeRound, Db.markConfirmed, List.map_append, List.map_map,
      List.map_cons, List.map_nil, Function.comp_def, hids, List.mem_append, List.mem_singleton]
    exact ⟨fun n hn => .inl hn, .inr trivial⟩

variable {h h' : PoolHandler} {e : Event}

theorem step_round_ids (hs : h.step e = some h') {n : ℕ} (hn : n ∈ h.db.rounds.map RoundRow.id) :
    n ∈ h'.db.rounds.map RoundRow.id := by
  rcases (step_decision hs).rounds with heq | ⟨u, rest, pending, now, newRoundID, -, hconfirm⟩
  · rwa [heq]
  · exact (confirmBlock_round_ids hconfirm).1 n hn

/-- What `checkConfirmations` is about to store is a round. -/
theorem checkBlock_confirmed {b : UnconfirmedBlock} {rest : List UnconfirmedBlock} {pending : ℕ}
    {confs : Option ℤ} {reply : Reply} {now : Time} {n : ℕ} {rest' : List UnconfirmedBlock}
    {pending' : ℕ} (hp : (h.checkBlock b rest pending confs reply now).pass =
      .confirmed n rest' pending') :
    n ∈ (h.checkBlock b rest pending confs reply now).db.rounds.map RoundRow.id := by
  cases confs with
  | none => cases hp
  | some confs =>
      by_cases h0 : confs < 0
      · simp only [PoolHandler.checkBlock, h0, if_true, reduceCtorEq] at hp
      · by_cases h2 : confs < 2
        · simp only [PoolHandler.checkBlock, h0, h2, if_true, if_false, reduceCtorEq] at hp
        · simp only [PoolHandler.checkBlock, h0, h2, if_false] at hp ⊢
          cases hconfirm : confirmBlock h.db b.id now with
          | none => simp only [hconfirm, reduceCtorEq] at hp
          | some result =>
              obtain ⟨newRoundID, db'⟩ := result
              have hids := (confirmBlock_round_ids hconfirm).2
              simp only [hconfirm] at hp ⊢
              cases reply with
              | ok =>
                  simp only [Reply.write, if_true, Pass.confirmed.injEq] at hp
                  exact hp.1 ▸ hids
              | failed => simp [Reply.write] at hp
              | lost => simp [Reply.write] at hp

namespace RoundsKnown

/-- What a share may be credited to is what was, or the current round. -/
theorem of_step (hinv : RoundsKnown h) (hs : h.step e = some h')
    (hcurrent : h'.roundID = h.roundID)
    (hconfirmed : ∀ n rest pending, h'.pass = .confirmed n rest pending →
      n ∈ h'.db.rounds.map RoundRow.id)
    (htasks : ∀ tid sh, h'.tasks tid = .recordShare sh →
      h.tasks tid = .recordShare sh ∨ sh.roundID = h.roundID)
    (hbuffer : ∀ sh ∈ h'.svc.buffer, sh ∈ h.svc.buffer ∨
      ∃ tid t, h.tasks tid = .recordShare t ∧ t.roundID = sh.roundID)
    (hflushes : ∀ f ∈ h'.svc.flushes, ∀ sh ∈ f.pending, sh ∈ h.svc.buffer ∨
      ∃ g ∈ h.svc.flushes, sh ∈ g.pending) : RoundsKnown h' where
  current := hcurrent ▸ step_round_ids hs hinv.current
  confirmed := hconfirmed
  tasks tid sh ht := by
    refine step_round_ids hs ?_
    rcases htasks tid sh ht with hold | hnew
    · exact hinv.tasks tid sh hold
    · exact hnew ▸ hinv.current
  buffer sh hsh := by
    refine step_round_ids hs ?_
    rcases hbuffer sh hsh with hold | ⟨tid, t, ht, hid⟩
    · exact hinv.buffer sh hold
    · exact hid ▸ hinv.tasks tid t ht
  flushes f hf sh hsh := by
    refine step_round_ids hs ?_
    rcases hflushes f hf sh hsh with hold | ⟨g, hg, hmem⟩
    · exact hinv.buffer sh hold
    · exact hinv.flushes g hg sh hmem

/-- A step of another task, or of no task. -/
theorem of_quiet (hinv : RoundsKnown h) (hs : h.step e = some h') (hcurrent : h'.roundID = h.roundID)
    (hpass : h'.pass = h.pass)
    (htasks : h'.tasks = h.tasks ∨ ∃ tid task, h'.tasks = Function.update h.tasks tid task ∧
      ∀ sh, task = .recordShare sh → sh.roundID = h.roundID)
    (hbuffer : h'.svc.buffer = h.svc.buffer) (hflushes : h'.svc.flushes = h.svc.flushes) :
    RoundsKnown h' := by
  refine hinv.of_step hs hcurrent ?_ ?_ (fun sh hsh => .inl (hbuffer ▸ hsh))
    fun f hf sh hsh => .inr ⟨f, hflushes ▸ hf, hsh⟩
  · intro n rest pending hp
    exact step_round_ids hs (hinv.confirmed n rest pending (hpass ▸ hp))
  · intro tid sh ht
    rcases htasks with heq | ⟨tid', task, heq, htask⟩
    · exact .inl (heq ▸ ht)
    · rw [heq] at ht
      by_cases htid : tid = tid'
      · subst htid
        rw [Function.update_self] at ht
        exact .inr (htask sh ht)
      · rw [Function.update_of_ne htid] at ht
        exact .inl ht

theorem step (hinv : RoundsKnown h) (hs : h.step e = some h') : RoundsKnown h' := by
  cases step_effect hs with
  | notANumber ht hdiff => exact hinv
  | recordShare ht hdiff =>
      exact hinv.of_quiet hs rfl rfl
        (.inr ⟨_, _, rfl, fun sh heq => by obtain rfl := Task.recordShare.inj heq; rfl⟩) rfl rfl
  | @bufferShare tid sh ht =>
      refine hinv.of_step hs rfl (fun n rest pending hp => step_round_ids hs
        (hinv.confirmed n rest pending hp)) ?_ ?_ ?_
      · intro tid' sh' ht'
        by_cases htid : tid' = tid
        · subst htid
          exact absurd ht' (by simp [PoolHandler.setTask])
        · exact .inl (by simpa [PoolHandler.setTask, htid] using ht')
      · intro sh' hsh'
        cases hcheck : sh.check with
        | error msg =>
            simp only [bufferShare, hcheck, Except.map, Except.toOption, Option.getD_none] at hsh'
            exact .inl hsh'
        | ok b =>
            simp only [bufferShare, hcheck, Except.map, Except.toOption, Option.getD_some,
              List.mem_append, List.mem_singleton] at hsh'
            rcases hsh' with hold | rfl
            · exact .inl hold
            · refine .inr ⟨tid, sh, ht, ?_⟩
              unfold Share.check at hcheck
              split at hcheck
              · cases hcheck
              · obtain rfl := Except.ok.inj hcheck
                rfl
      · intro f hf sh' hsh'
        have hflushes : ((bufferShare h.svc sh).toOption.getD h.svc).flushes = h.svc.flushes := by
          cases hcheck : sh.check <;> simp [bufferShare, hcheck, Except.map, Except.toOption]
        exact .inr ⟨f, hflushes ▸ hf, hsh'⟩
  | takeBuffer =>
      refine hinv.of_step hs rfl (fun n rest pending hp => step_round_ids hs
        (hinv.confirmed n rest pending hp)) (fun tid sh ht => .inl ht) ?_ ?_
      · intro sh hsh
        unfold takeBuffer at hsh
        split_ifs at hsh
        · exact .inl hsh
        · cases hsh
      · intro f hf sh hsh
        unfold takeBuffer at hf
        split_ifs at hf
        · exact .inr ⟨f, hf, hsh⟩
        · rcases List.mem_append.mp hf with hold | hnew
          · exact .inr ⟨f, hold, hsh⟩
          · obtain rfl := List.mem_singleton.mp hnew
            exact .inl hsh
  | flushCall hf =>
      obtain ⟨f, hmem, hcases⟩ := flushCall_cases hf
      refine hinv.of_step hs rfl (fun n rest pending hp => step_round_ids hs
        (hinv.confirmed n rest pending hp)) (fun tid sh ht => .inl ht) ?_ ?_
      · intro sh hsh
        rcases hcases with ⟨-, rfl⟩ | ⟨-, rfl⟩ | ⟨-, g, -, rfl⟩ <;> exact .inl hsh
      · intro g hg sh hsh
        rcases hcases with ⟨-, rfl⟩ | ⟨-, rfl⟩ | ⟨-, g', hpending, rfl⟩
        · exact .inr ⟨g, List.mem_of_mem_eraseIdx hg, hsh⟩
        · exact .inr ⟨g, List.mem_of_mem_eraseIdx hg, hsh⟩
        · rcases List.mem_or_eq_of_mem_set hg with hold | rfl
          · exact .inr ⟨g, hold, hsh⟩
          · exact .inr ⟨f, List.mem_of_getElem? hmem, hpending ▸ hsh⟩
  | blockFound ht => exact hinv.of_quiet hs rfl rfl (.inr ⟨_, _, rfl, by simp⟩) rfl rfl
  | blockQuery ht hq => exact hinv.of_quiet hs rfl rfl (.inr ⟨_, _, rfl, by simp⟩) rfl rfl
  | blockQueryFailed ht => exact hinv.of_quiet hs rfl rfl (.inr ⟨_, _, rfl, by simp⟩) rfl rfl
  | blockInsert ht => exact hinv.of_quiet hs rfl rfl (.inr ⟨_, _, rfl, by simp⟩) rfl rfl
  | refresh ht => exact hinv.of_quiet hs rfl rfl (.inr ⟨_, _, rfl, by simp⟩) rfl rfl
  | refreshQuery ht hq => exact hinv.of_quiet hs rfl rfl (.inr ⟨_, _, rfl, by simp⟩) rfl rfl
  | refreshQueryFailed ht => exact hinv.of_quiet hs rfl rfl (.inr ⟨_, _, rfl, by simp⟩) rfl rfl
  | refreshStore ht => exact hinv.of_quiet hs rfl rfl (.inr ⟨_, _, rfl, by simp⟩) rfl rfl
  | poll hp =>
      exact hinv.of_step hs rfl (fun n rest pending hp' => by cases hp') (fun tid sh ht => .inl ht)
        (fun sh hsh => .inl hsh) fun f hf sh hsh => .inr ⟨f, hf, hsh⟩
  | pollFailed => exact hinv
  | pollBlock hp =>
      obtain ⟨hbuffer, hflushes, -⟩ := checkBlock_shares h _ _ _ _ _ _
      obtain ⟨hcurrent, -, htasks⟩ := checkBlock_frame h _ _ _ _ _ _
      exact hinv.of_step hs hcurrent (fun n rest pending hp' => checkBlock_confirmed hp')
        (fun tid sh ht => .inl (htasks ▸ ht)) (fun sh hsh => .inl (hbuffer ▸ hsh))
        fun f hf sh hsh => .inr ⟨f, hflushes ▸ hf, hsh⟩
  | assign hp =>
      exact {
        current := hinv.confirmed _ _ _ hp
        confirmed := fun n rest pending hp' => by cases hp'
        tasks := hinv.tasks
        buffer := hinv.buffer
        flushes := hinv.flushes }
  | passDone hp =>
      exact hinv.of_step hs rfl (fun n rest pending hp' => by cases hp') (fun tid sh ht => .inl ht)
        (fun sh hsh => .inl hsh) fun f hf sh hsh => .inr ⟨f, hf, hsh⟩

end RoundsKnown

/-! ## What the handler keeps -/

/-- The pool moves its handler by steps of the handler, or starts a new one. -/
theorem Pool.step_handler {s s' : Pool} {e : PoolEvent} (hs : s.step e = some s') :
    s'.handler = s.handler ∨ (∃ e', s.handler.step e' = some s'.handler) ∨
      PoolHandler.boot s.handler.db = some s'.handler := by
  cases e with
  | connect tid sent =>
      obtain rfl := Option.some.inj hs
      exact .inl rfl
  | serve i =>
      simp only [Pool.step, Option.bind_eq_bind, Option.bind_eq_some_iff] at hs
      obtain ⟨c, -, hs⟩ := hs
      split at hs
      · cases hs
      next call rest hcalls =>
        split_ifs at hs
        cases call with
        | getCoinbaseOutputs miner fees =>
            obtain rfl := Option.some.inj hs
            exact .inl rfl
        | recordShare msg =>
            obtain rfl := Option.some.inj hs
            exact .inl rfl
        | blockFound msg =>
            obtain ⟨handler, hstep, rfl⟩ := Option.map_eq_some_iff.mp hs
            exact .inr (.inl ⟨_, hstep⟩)
  | endOfFile i =>
      simp only [Pool.step, Option.bind_eq_bind, Option.bind_eq_some_iff] at hs
      obtain ⟨c, -, hs⟩ := hs
      split_ifs at hs
      obtain rfl := Option.some.inj hs
      exact .inl rfl
  | breakOff i =>
      obtain rfl := Option.some.inj hs
      exact .inl rfl
  | recordShare j tid =>
      simp only [Pool.step, Option.bind_eq_bind, Option.bind_eq_some_iff] at hs
      obtain ⟨msg, -, handler, hstep, hs⟩ := hs
      obtain rfl := Option.some.inj hs
      exact .inr (.inl ⟨_, hstep⟩)
  | handler e =>
      simp only [Pool.step] at hs
      split_ifs at hs
      obtain ⟨handler, hstep, rfl⟩ := Option.map_eq_some_iff.mp hs
      exact .inr (.inl ⟨e, hstep⟩)
  | restart =>
      obtain ⟨handler, hboot, rfl⟩ := Option.map_eq_some_iff.mp hs
      exact .inr (.inr hboot)

/-- **Handler rule.** What a new handler has and every step of it keeps, the pool keeps. -/
theorem Pool.run_handler {P : PoolHandler → Prop}
    (hstart : ∀ {db : Db} {h : PoolHandler}, PoolHandler.boot db = some h → P h)
    (hstep : ∀ {h : PoolHandler} {e : Event} {h' : PoolHandler}, P h → h.step e = some h' → P h')
    {db : Db} {h₀ : PoolHandler} (hboot : PoolHandler.boot db = some h₀) {es : List PoolEvent}
    {s : Pool} (hrun : run Pool.step (.boot h₀) es = some s) : P s.handler := by
  refine run_invariant (P := fun s : Pool => P s.handler) ?_ (hstart hboot) hrun
  intro s e s' hP hs
  rcases Pool.step_handler hs with heq | ⟨e', hs'⟩ | hboot'
  · exact heq ▸ hP
  · exact hstep hP hs'
  · exact hstart hboot'

theorem RoundsKnown.boot {db : Db} (hboot : PoolHandler.boot db = some h) : RoundsKnown h := by
  obtain ⟨hdb, hsvc, htasks, hpass, -, hround⟩ := boot_fields hboot
  refine ⟨hdb ▸ hround, ?_, ?_, ?_, ?_⟩
  · intro n rest pending hp
    rw [hpass] at hp
    cases hp
  · intro tid sh ht
    rw [htasks] at ht
    cases ht
  · intro sh hsh
    rw [hsvc] at hsh
    cases hsh
  · intro f hf
    rw [hsvc] at hf
    cases hf

theorem roundsKnown_of_run {db : Db} {h₀ : PoolHandler} {es : List PoolEvent} {s : Pool}
    (hboot : PoolHandler.boot db = some h₀) (hrun : run Pool.step (.boot h₀) es = some s) :
    RoundsKnown s.handler :=
  Pool.run_handler RoundsKnown.boot RoundsKnown.step hboot hrun

/-! ## Progress

Each step counts what it leaves to do: a call on a connection more than a
goroutine, a goroutine more than a task, a task more than a buffered share, and
that more than a whole batch. -/

def taskWork : Task → ℕ
  | .idle => 0
  | .recordShare _ => 6
  | .blockFound _ => 2
  | .blockSnapshot _ _ => 1
  | .refresh _ => 2
  | .refreshed _ _ => 1

def flushWork (f : Flush) : ℕ :=
  match f.phase with
  | .begin => 4
  | .insert => 3
  | .upsert => 2
  | .commit => 1

def handlerWork (h : PoolHandler) (tids : Finset ℕ) : ℕ :=
  Slots.total taskWork h.tasks tids + 5 * h.svc.buffer.length + (h.svc.flushes.map flushWork).sum

def Pool.work (s : Pool) (tids : Finset ℕ) : ℕ :=
  (s.connections.map fun c => 9 * c.calls.length).sum + 8 * s.shares.length +
    handlerWork s.handler tids

/-- No connection is opened and nothing is lost. -/
def PoolEvent.drains : PoolEvent → Bool
  | .connect _ _ => false
  | e => !e.loses

/-- A step of the handler that leaves less work and loses nothing. -/
def Advances (h : PoolHandler) (tids : Finset ℕ) : Prop :=
  ∃ e h' tids', startedByMessage e = false ∧ (PoolEvent.handler e).loses = false ∧
    h.step e = some h' ∧ Slots.Covers .idle h'.tasks tids' ∧
    handlerWork h' tids' < handlerWork h tids

variable {tids : Finset ℕ}

/-- A task that is set to something lighter. -/
theorem Advances.of_task (hcovers : Slots.Covers .idle h.tasks tids) {tid : ℕ} (task : Task)
    (hlight : taskWork task < taskWork (h.tasks tid)) (hstarted : startedByMessage e = false)
    (hloses : (PoolEvent.handler e).loses = false) (hs : h.step e = some h')
    (htasks : h'.tasks = Function.update h.tasks tid task) (hbuffer : h'.svc.buffer = h.svc.buffer)
    (hflushes : h'.svc.flushes = h.svc.flushes) : Advances h tids := by
  refine ⟨e, h', insert tid tids, hstarted, hloses, hs, htasks ▸ hcovers.update tid task, ?_⟩
  have htotal := Slots.total_update taskWork rfl hcovers tid task
  rw [← htasks] at htotal
  simp only [handlerWork, hbuffer, hflushes]
  omega

/-- A task under way can end. -/
theorem advances_task (hcovers : Slots.Covers .idle h.tasks tids) {tid : ℕ}
    (hbusy : h.tasks tid ≠ .idle) : Advances h tids := by
  cases ht : h.tasks tid with
  | idle => exact absurd ht hbusy
  | recordShare sh =>
      have hs : h.step (.bufferShare tid) = some { h.setTask tid .idle with
          svc := (bufferShare h.svc sh).toOption.getD h.svc } := by
        rw [PoolHandler.step, ht]
      refine ⟨_, _, insert tid tids, rfl, rfl, hs, hcovers.update tid .idle, ?_⟩
      have htotal : Slots.total taskWork (Function.update h.tasks tid .idle) (insert tid tids) + 6 =
          Slots.total taskWork h.tasks tids := by
        have htotal := Slots.total_update taskWork rfl hcovers tid .idle
        rwa [ht] at htotal
      have hbuffer : ((bufferShare h.svc sh).toOption.getD h.svc).buffer.length ≤
          h.svc.buffer.length + 1 ∧
          ((bufferShare h.svc sh).toOption.getD h.svc).flushes = h.svc.flushes := by
        cases hcheck : sh.check <;> simp [bufferShare, hcheck, Except.map, Except.toOption]
      simp only [handlerWork, PoolHandler.setTask, hbuffer.2]
      omega
  | blockFound bf =>
      -- the query may have to fail
      have hs : h.step (.blockQuery tid .failed 0 []) = some (h.setTask tid .idle) := by
        rw [PoolHandler.step, ht]
        rfl
      exact .of_task hcovers .idle (by rw [ht]; exact Nat.zero_lt_succ _) rfl rfl hs rfl rfl rfl
  | blockSnapshot bf snapshot =>
      have hs : h.step (.blockInsert tid .failed 0) =
          some ((h.setDb (Reply.failed.write h.db (insertBlock h.db bf snapshot 0)).1).setTask tid
            .idle) := by
        rw [PoolHandler.step, ht]
      exact .of_task hcovers .idle (by rw [ht]; exact Nat.zero_lt_succ _) rfl rfl hs rfl rfl rfl
  | refresh roundID =>
      have hs : h.step (.refreshQuery tid .failed 0 []) = some (h.setTask tid .idle) := by
        rw [PoolHandler.step, ht]
        rfl
      exact .of_task hcovers .idle (by rw [ht]; exact Nat.zero_lt_succ _) rfl rfl hs rfl rfl rfl
  | refreshed roundID entries =>
      have hs : h.step (.refreshStore tid) =
          some { h.setTask tid .idle with top21 := entries } := by
        rw [PoolHandler.step, ht]
      exact .of_task hcovers .idle (by rw [ht]; exact Nat.zero_lt_succ _) rfl rfl hs rfl rfl rfl

theorem advances_buffer (hcovers : Slots.Covers .idle h.tasks tids) (hbuffer : h.svc.buffer ≠ []) :
    Advances h tids := by
  refine ⟨.takeBuffer, _, tids, rfl, rfl, rfl, hcovers, ?_⟩
  have hpos := List.length_pos_iff.mpr hbuffer
  simp only [handlerWork, takeBuffer, if_neg hbuffer, List.length_nil, List.map_append,
    List.map_cons, List.map_nil, List.sum_append, List.sum_cons, List.sum_nil, flushWork]
  omega

/-- The rows of the batch are such as the table takes. -/
theorem advances_flush (hcovers : Slots.Covers .idle h.tasks tids) {f : Flush} {rest : List Flush}
    (hflushes : h.svc.flushes = f :: rest)
    (hadmits : ∀ sh ∈ f.pending, h.svc.db.admits sh.columns = true) : Advances h tids := by
  have hget : h.svc.flushes[0]? = some f := by rw [hflushes]; rfl
  have hwork : handlerWork h tids = Slots.total taskWork h.tasks tids + 5 * h.svc.buffer.length +
      (flushWork f + (rest.map flushWork).sum) := by
    rw [handlerWork, hflushes]
    rfl
  have hstep : ∀ {svc : ShareService}, flushCall h.svc 0 .ok 0 = some svc →
      svc.buffer = h.svc.buffer → (svc.flushes.map flushWork).sum <
        flushWork f + (rest.map flushWork).sum → Advances h tids := by
    intro svc hflush hbuffer hlt
    refine ⟨.flushCall 0 .ok 0, { h with svc := svc }, tids, rfl, rfl, ?_, hcovers, ?_⟩
    · rw [PoolHandler.step, hflush, Option.map_some]
    · rw [hwork]
      simp only [handlerWork, hbuffer]
      omega
  have hset : ∀ g : Flush, flushWork g < flushWork f →
      flushCall h.svc 0 .ok 0 = some { h.svc with flushes := h.svc.flushes.set 0 g } →
        Advances h tids := by
    intro g hlt hflush
    refine hstep hflush rfl ?_
    simp only [hflushes, List.set_cons_zero, List.map_cons, List.sum_cons]
    omega
  cases hphase : f.phase with
  | begin =>
      exact hset { f with phase := .insert, now := 0 } (by simp [flushWork, hphase])
        (by simp [flushCall, hget, hphase])
  | insert =>
      have hall : (f.pending.all fun sh => h.svc.db.admits sh.columns) = true :=
        List.all_eq_true.mpr hadmits
      exact hset { f with phase := .upsert } (by simp [flushWork, hphase])
        (by simp only [flushCall, hget, hphase, hall, Option.bind_eq_bind, Option.bind_some, if_true])
  | upsert =>
      exact hset { f with phase := .commit } (by simp [flushWork, hphase])
        (by simp [flushCall, hget, hphase])
  | commit =>
      have hflush : flushCall h.svc 0 .ok 0 = some { h.svc with
          db := h.svc.db.writeShares f.pending f.now
          flushes := h.svc.flushes.eraseIdx 0 } := by
        simp [flushCall, hget, hphase]
      refine hstep hflush rfl ?_
      simp [hflushes, flushWork, hphase]

/-! ## Submitted shares fit the table -/

/-- The types of the columns take it. -/
structure Credit.Admissible (c : Credit) : Prop where
  btcAddress : varchar 90 c.btcAddress = true
  workerName : varchar 64 c.workerName = true
  shareDifficulty : numeric78 c.shareDifficulty = true
  trueDifficulty : c.trueDifficulty.all numeric78 = true

theorem sentTrueDiff_bounds {x : ℚ} (h0 : 0 ≤ x) (h20 : x ≤ 10 ^ 20) :
    0 ≤ sentTrueDiff x ∧ sentTrueDiff x ≤ 2 * 10 ^ 20 := by
  obtain ⟨y, hy, hbounds⟩ := parseFloat_printFixed2 h0 h20
  rw [parseFloat_printFixed2_eq h0 h20] at hy
  obtain rfl := Option.some.inj hy
  exact hbounds

theorem Request.InRange.admissible {r : Request} (h : r.InRange) {c : Credit}
    (hc : r.credit = some c) : c.Admissible := by
  cases r with
  | coinbaseOutputs miner fees => cases hc
  | blockFound height hashHex finderAddr => cases hc
  | shareSubmit username difficulty trueDiff port =>
      obtain ⟨h0, h20, hport0, hport⟩ := h
      obtain ⟨n, rfl⟩ := Int.eq_ofNat_of_zero_le hport0
      simp only [Request.credit] at hc
      split_ifs at hc with hvalid
      obtain rfl := Option.some.inj hc
      obtain ⟨-, haddr, hworker⟩ := hvalid
      obtain ⟨hx0, hx20⟩ := sentTrueDiff_bounds h0 h20
      have hn : n ≤ 65535 := by omega
      have hfits := fitsColumns_of_valid difficulty haddr hworker hx0 hx20 hn 0
      exact ⟨hfits.btcAddress, hfits.workerName, hfits.shareDifficulty, hfits.trueDifficulty⟩

theorem mem_submitted {es : List PoolEvent} {c : Credit} (hc : c ∈ submitted es) :
    ∃ tid sent r, PoolEvent.connect tid sent ∈ es ∧ Sent.request r ∈ sent ∧ r.credit = some c := by
  obtain ⟨e, he, hmem⟩ := List.mem_flatMap.mp (Multiset.mem_coe.mp hc)
  cases e with
  | connect tid sent =>
      obtain ⟨m, hm, hcredit⟩ := List.mem_filterMap.mp hmem
      cases m with
      | request r => exact ⟨tid, sent, r, he, hm, hcredit⟩
      | other line => cases hcredit
  | _ => cases hmem

theorem admissible_of_mem_submitted {es : List PoolEvent} (hes : ∀ e ∈ es, e.Harmless) {c : Credit}
    (hc : c ∈ submitted es) : c.Admissible := by
  obtain ⟨tid, sent, r, he, hr, hcredit⟩ := mem_submitted hc
  have hrange : r.InRange := hes _ he _ hr
  exact hrange.admissible hcredit

/-- A batch on its way can be inserted. -/
theorem admits_of_run {db : Db} {h₀ : PoolHandler} {es : List PoolEvent} {s : Pool}
    (hboot : PoolHandler.boot db = some h₀) (hes : ∀ e ∈ es, e.Harmless)
    (hrun : run Pool.step (.boot h₀) es = some s) {f : Flush} (hf : f ∈ s.handler.svc.flushes)
    {sh : BufferedShare} (hsh : sh ∈ f.pending) :
    s.handler.svc.db.admits sh.columns = true := by
  obtain ⟨tids, added, lost, -, -, hsum, -⟩ := accounted_of_run hboot hes hrun
  have hbatch : columnsCredit sh.columns ∈ bufferCredits f.pending :=
    Multiset.mem_coe.mpr (List.mem_map_of_mem hsh)
  have hflushes : bufferCredits f.pending ≤
      (s.handler.svc.flushes.map fun f => bufferCredits f.pending).sum :=
    List.single_le_sum (fun _ _ => Multiset.zero_le _) _ (List.mem_map_of_mem hf)
  have hmem : columnsCredit sh.columns ∈ submitted es := by
    rw [hsum]
    simp only [handlerCredits, Multiset.mem_add]
    exact .inl (.inl (.inr (.inr (Multiset.mem_of_le hflushes hbatch))))
  obtain ⟨haddr, hworker, hdiff, htrue⟩ := admissible_of_mem_submitted hes hmem
  obtain ⟨r, hr, hid⟩ := List.mem_map.mp
    ((roundsKnown_of_run hboot hrun).flushes f hf sh hsh)
  have hround : s.handler.svc.db.rounds.any (fun r => r.id = sh.columns.roundId) = true :=
    List.any_eq_true.mpr ⟨r, hr, decide_eq_true hid⟩
  have htrue' : sh.columns.trueDifficulty.all numeric78 = true := htrue
  simp only [Db.admits, Bool.and_eq_true]
  exact ⟨⟨⟨⟨hround, haddr⟩, hworker⟩, hdiff⟩, htrue'⟩

/-! ## The service can always finish -/

/-- A step of the pool that leaves less work and loses nothing. -/
def Pool.Advances (s : Pool) (tids : Finset ℕ) : Prop :=
  ∃ e s' tids', e.drains = true ∧ s.step e = some s' ∧
    Slots.Covers .idle s'.handler.tasks tids' ∧ s'.work tids' < s.work tids

theorem Advances.pool {s : Pool} (h : Advances s.handler tids) : s.Advances tids := by
  obtain ⟨e, handler, tids', hstarted, hloses, hs, hcovers, hlt⟩ := h
  refine ⟨.handler e, { s with handler := handler }, tids', ?_, ?_, hcovers, ?_⟩
  · show (!(PoolEvent.handler e).loses) = true
    rw [hloses]
    rfl
  · rw [Pool.step, hstarted, hs]
    rfl
  · simp only [Pool.work]
    omega

/-- A connection with unread lines is served, once its own call has ended. -/
theorem advances_connection {s : Pool} (hcovers : Slots.Covers .idle s.handler.tasks tids)
    {i : ℕ} {c : Connection} (hc : s.connections[i]? = some c) (hcalls : c.calls ≠ []) :
    s.Advances tids := by
  by_cases hidle : s.handler.tasks c.tid = .idle
  · obtain ⟨call, rest, hcons⟩ := List.exists_cons_of_ne_nil hcalls
    have hserve : s.step (.serve i) = s.serve i c.tid rest call := by
      simp only [Pool.step, hc, Option.bind_eq_bind, Option.bind_some, hcons, if_pos hidle]
    have hwork := Slots.sum_map_set (fun c : Connection => 9 * c.calls.length) hc ⟨c.tid, rest⟩
    simp only [hcons, List.length_cons] at hwork
    cases call with
    | getCoinbaseOutputs miner fees =>
        refine ⟨.serve i, _, tids, rfl, hserve, hcovers, ?_⟩
        simp only [Pool.work]
        omega
    | recordShare msg =>
        refine ⟨.serve i, _, tids, rfl, hserve, hcovers, ?_⟩
        simp only [Pool.work, List.length_append, List.length_singleton]
        omega
    | blockFound msg =>
        have hs : s.handler.step (.blockFound c.tid msg) =
            some (s.handler.setTask c.tid (.blockFound ⟨msg, s.handler.roundID⟩)) := by
          rw [PoolHandler.step, if_pos hidle]
        have htotal := Slots.total_update taskWork rfl hcovers c.tid
          (.blockFound ⟨msg, s.handler.roundID⟩)
        rw [hidle] at htotal
        simp only [taskWork] at htotal
        have hserve' := hserve.trans (congrArg (Option.map _) hs)
        refine ⟨.serve i, _, insert c.tid tids, rfl, hserve', hcovers.update _ _, ?_⟩
        simp only [Pool.work, handlerWork, PoolHandler.setTask]
        omega
  · exact (advances_task hcovers hidle).pool

/-- A goroutine of a share runs on a free task. -/
theorem advances_share {s : Pool} (hcovers : Slots.Covers .idle s.handler.tasks tids)
    {msg : ShareMsg} {rest : List ShareMsg} (hshares : s.shares = msg :: rest) :
    s.Advances tids := by
  obtain ⟨tid, hidle⟩ := hcovers.exists_idle
  have hget : s.shares[0]? = some msg := by rw [hshares]; rfl
  have hstep : ∀ {handler : PoolHandler}, s.handler.step (.recordShare tid msg) = some handler →
      s.step (.recordShare 0 tid) =
        some { s with shares := s.shares.eraseIdx 0, handler := handler } := by
    intro handler hs
    simp only [Pool.step, hget, Option.bind_eq_bind, Option.bind_some, hs]
  have hlen : s.shares.length = (s.shares.eraseIdx 0).length + 1 := by
    rw [hshares]
    rfl
  cases hdiff : bigSetString msg.difficulty with
  | none =>
      have hs : s.handler.step (.recordShare tid msg) = some s.handler := by
        rw [PoolHandler.step, if_pos hidle, hdiff]
      refine ⟨.recordShare 0 tid, _, tids, rfl, hstep hs, hcovers, ?_⟩
      simp only [Pool.work]
      omega
  | some diff =>
      set sh : Share := ⟨s.handler.roundID, msg.btcAddress, msg.workerName, some diff, msg.trueDiff,
        msg.sourcePort⟩
      have hs : s.handler.step (.recordShare tid msg) =
          some (s.handler.setTask tid (.recordShare sh)) := by
        rw [PoolHandler.step, if_pos hidle, hdiff]
      have htotal := Slots.total_update taskWork rfl hcovers tid (.recordShare sh)
      rw [hidle] at htotal
      simp only [taskWork] at htotal
      refine ⟨.recordShare 0 tid, _, insert tid tids, rfl, hstep hs, hcovers.update _ _, ?_⟩
      simp only [Pool.work, handlerWork, PoolHandler.setTask]
      omega

theorem advances_of_not_quiet {db : Db} {h₀ : PoolHandler} {es : List PoolEvent} {s : Pool}
    (hboot : PoolHandler.boot db = some h₀) (hes : ∀ e ∈ es, e.Harmless)
    (hrun : run Pool.step (.boot h₀) es = some s)
    (hcovers : Slots.Covers .idle s.handler.tasks tids) (hbusy : ¬ s.Quiet) : s.Advances tids := by
  by_contra hstuck
  refine hbusy ⟨fun c hc => ?_, ?_, fun tid sh ht => ?_, ?_, ?_⟩
  · by_contra hcalls
    obtain ⟨i, hi⟩ := List.getElem?_of_mem hc
    exact hstuck (advances_connection hcovers hi hcalls)
  · by_contra hshares
    obtain ⟨msg, rest, hcons⟩ := List.exists_cons_of_ne_nil hshares
    exact hstuck (advances_share hcovers hcons)
  · exact hstuck (advances_task hcovers (by rw [ht]; simp)).pool
  · by_contra hbuffer
    exact hstuck (advances_buffer hcovers hbuffer).pool
  · by_contra hflushes
    obtain ⟨f, rest, hcons⟩ := List.exists_cons_of_ne_nil hflushes
    refine hstuck (advances_flush hcovers hcons fun sh hsh => ?_).pool
    exact admits_of_run hboot hes hrun (hcons ▸ List.mem_cons_self) hsh

theorem PoolEvent.drains_iff {e : PoolEvent} (h : e.drains = true) :
    e.credits = [] ∧ e.loses = false ∧ e.Harmless := by
  cases e with
  | connect tid sent => cases h
  | _ => exact ⟨rfl, by simpa [PoolEvent.drains] using h, trivial⟩

theorem submitted_drained {es es' : List PoolEvent} (h : ∀ e ∈ es', e.drains = true) :
    submitted (es ++ es') = submitted es := by
  have hnone : es'.flatMap PoolEvent.credits = [] :=
    List.flatMap_eq_nil_iff.mpr fun e he => (PoolEvent.drains_iff (h e he)).1
  rw [submitted, List.flatMap_append, hnone, List.append_nil, submitted]

end Gateway
