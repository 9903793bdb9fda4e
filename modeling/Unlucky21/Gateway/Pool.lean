import Unlucky21.Gateway.Messages
import Unlucky21.Lib.Slots
import Unlucky21.Reward.RoundStore

/-!
# Gateway, socket and service

The gateway opens connections and writes requests; the server reads each
connection line by line, in a goroutine of its own, and calls the handler.
`handleShare` starts a goroutine for each share, so shares of one connection
may overtake each other; a connection waits for its `BlockFound`. A connection
that breaks off, or whose deadline passes, takes its unread lines with it. The
process may end at any time, after the flush of its shutdown or without it, and
be started again: then only the tables are left.

Every share the gateway submitted is in one place: on a connection, with a
goroutine, in the buffer, in a batch that is being written, or in the table.
-/

namespace Gateway

open Wire CText Reward Runs

/-! ## The system -/

/-- A connection: the task its calls run as, and the calls of its unread lines. -/
structure Connection where
  tid : ℕ
  calls : List Call
deriving DecidableEq, Repr

structure Pool where
  connections : List Connection
  /-- Goroutines of `handleShare` that have not run yet. -/
  shares : List ShareMsg
  handler : PoolHandler

inductive PoolEvent
  | connect (tid : ℕ) (sent : List Sent)
  | serve (i : ℕ)
  | endOfFile (i : ℕ)
  | breakOff (i : ℕ)
  | recordShare (j tid : ℕ)
  | handler (e : Event)
  | restart
deriving DecidableEq, Repr

/-- Steps that only a message starts. -/
def startedByMessage : Event → Bool
  | .recordShare _ _ => true
  | .blockFound _ _ => true
  | _ => false

/-- The next call of a connection, with the calls behind it. -/
def Pool.serve (s : Pool) (i tid : ℕ) (rest : List Call) : Call → Option Pool
  | .getCoinbaseOutputs _ _ => some { s with connections := s.connections.set i ⟨tid, rest⟩ }
  | .recordShare msg =>
      some { s with
        connections := s.connections.set i ⟨tid, rest⟩
        shares := s.shares ++ [msg] }
  | .blockFound msg => (s.handler.step (.blockFound tid msg)).map fun handler =>
      { s with connections := s.connections.set i ⟨tid, rest⟩, handler := handler }

def Pool.boot (h : PoolHandler) : Pool := ⟨[], [], h⟩

def Pool.step (s : Pool) : PoolEvent → Option Pool
  | .connect tid sent =>
      some { s with
        connections := s.connections ++ [⟨tid, handleConn (sent.flatMap Sent.text)⟩] }
  | .serve i => do
      let c ← s.connections[i]?
      match c.calls with
      | [] => none
      | call :: rest =>
          if s.handler.tasks c.tid = .idle then s.serve i c.tid rest call else none
  | .endOfFile i => do
      let c ← s.connections[i]?
      if c.calls = [] then some { s with connections := s.connections.eraseIdx i } else none
  | .breakOff i => some { s with connections := s.connections.eraseIdx i }
  | .recordShare j tid => do
      let msg ← s.shares[j]?
      let handler ← s.handler.step (.recordShare tid msg)
      some { s with shares := s.shares.eraseIdx j, handler := handler }
  | .handler e =>
      if startedByMessage e then none
      else (s.handler.step e).map fun handler => { s with handler := handler }
  | .restart => (PoolHandler.boot s.handler.db).map .boot

/-! ## Credits -/

/-- A share as the table shows it, but for its round and its time. -/
structure Credit where
  btcAddress : Text
  workerName : Text
  shareDifficulty : ℤ
  trueDifficulty : Option ℤ
  sourcePort : Option ℤ
deriving DecidableEq, Repr

/-- What the submission of a share is to bring. -/
def Request.credit : Request → Option Credit
  | .shareSubmit username difficulty trueDiff port =>
      if difficulty ≠ 0 ∧ isValidBtcAddress (usernameAddress username) = true ∧
          (usernameWorker username).all isWorkerChar = true then
        some ⟨usernameAddress username, usernameWorker username, difficulty.toNat,
          some (numericOfDouble (sentTrueDiff trueDiff)), some port⟩
      else none
  | _ => none

def Sent.credit : Sent → Option Credit
  | .request r => r.credit
  | .other _ => none

def PoolEvent.credits : PoolEvent → List Credit
  | .connect _ sent => sent.filterMap Sent.credit
  | _ => []

/-- The submissions of a history. -/
def submitted (es : List PoolEvent) : Multiset Credit := (es.flatMap PoolEvent.credits : List Credit)

/-- Only these lose what was submitted: a connection that breaks off, a failed call
of a flush, and the end of the process. -/
def PoolEvent.loses : PoolEvent → Bool
  | .breakOff _ => true
  | .restart => true
  | .handler (.flushCall _ .failed _) => true
  | _ => false

/-! ## Where the credits are -/

def columnsCredit (c : ShareColumns) : Credit :=
  ⟨c.btcAddress, c.workerName, c.shareDifficulty, c.trueDifficulty, c.sourcePort⟩

/-- The round plays no role. -/
def messageCredit (msg : ShareMsg) : Option Credit :=
  (recordShare 0 msg).map fun sh => columnsCredit sh.columns

def messageCredits (msg : ShareMsg) : Multiset Credit := (messageCredit msg).toList

def callCredit : Call → Option Credit
  | .recordShare msg => messageCredit msg
  | _ => none

def taskCredits : Task → Multiset Credit
  | .recordShare sh => (sh.check.toOption.map fun b => columnsCredit b.columns).toList
  | _ => 0

def bufferCredits (shares : List BufferedShare) : Multiset Credit :=
  (shares.map fun sh => columnsCredit sh.columns : List Credit)

def rowCredits (rows : List ShareRow) : Multiset Credit :=
  (rows.map fun r => columnsCredit r.columns : List Credit)

/-- With the tasks, in the buffer and in the batches. -/
def handlerCredits (h : PoolHandler) (tids : Finset ℕ) : Multiset Credit :=
  Slots.total taskCredits h.tasks tids + bufferCredits h.svc.buffer +
    (h.svc.flushes.map fun f => bufferCredits f.pending).sum

def Connection.credits (c : Connection) : Multiset Credit :=
  (c.calls.filterMap callCredit : List Credit)

/-- On a connection and with the goroutines. -/
def Pool.unserved (s : Pool) : Multiset Credit :=
  (s.connections.map Connection.credits).sum + (s.shares.map messageCredits).sum

@[simp] theorem bufferCredits_append (xs ys : List BufferedShare) :
    bufferCredits (xs ++ ys) = bufferCredits xs + bufferCredits ys := by
  simp [bufferCredits]

@[simp] theorem rowCredits_append (xs ys : List ShareRow) :
    rowCredits (xs ++ ys) = rowCredits xs + rowCredits ys := by
  simp [rowCredits]

@[simp] theorem rowCredits_nil : rowCredits [] = 0 := rfl

/-- What `main` builds holds nothing yet. -/
theorem boot_fields {db : Db} {h : PoolHandler} (hboot : PoolHandler.boot db = some h) :
    h.db = db ∧ h.svc = .boot db ∧ (∀ tid, h.tasks tid = .idle) ∧ h.pass = .idle ∧ h.top21 = [] ∧
      h.roundID ∈ db.rounds.map RoundRow.id := by
  obtain ⟨roundID, hactive, rfl⟩ := Option.map_eq_some_iff.mp hboot
  refine ⟨rfl, rfl, fun _ => rfl, rfl, rfl, ?_⟩
  obtain ⟨r, hr, rfl⟩ := Option.map_eq_some_iff.mp hactive
  have hmem : r ∈ db.openRounds :=
    (List.perm_insertionSort _ db.openRounds).mem_iff.mp (List.mem_of_mem_head? hr)
  exact List.mem_map_of_mem (Db.mem_openRounds.mp hmem).1

/-- The rows of a batch. -/
theorem rowCredits_written (pending : List BufferedShare) (now : Time) :
    rowCredits (pending.map fun sh => sh.columns.row now) = bufferCredits pending := by
  simp [rowCredits, bufferCredits, Function.comp_def]

theorem submitted_snoc (es : List PoolEvent) (e : PoolEvent) :
    submitted (es ++ [e]) = submitted es + (e.credits : List Credit) := by
  simp [submitted]

/-! ## Steps of the handler -/

/-- What a message adds when its task starts. -/
def startedCredits : Event → Multiset Credit
  | .recordShare _ msg => messageCredits msg
  | _ => 0

/-- A step moves credits from place to place; what it writes to the table and
what it loses is gone from the way. -/
def Moves (h : PoolHandler) (tids : Finset ℕ) (started : Multiset Credit) (h' : PoolHandler)
    (loses : Bool) : Prop :=
  ∃ tids' added lost, Slots.Covers .idle h'.tasks tids' ∧ h'.db.shares = h.db.shares ++ added ∧
    handlerCredits h tids + started = handlerCredits h' tids' + rowCredits added + lost ∧
    (loses = false → lost = 0)

section

variable {h h' : PoolHandler} {tids : Finset ℕ} {loses : Bool}

/-- No task changes, and the service keeps its shares. -/
theorem Moves.same (hcovers : Slots.Covers .idle h.tasks tids) (htasks : h'.tasks = h.tasks)
    (hbuffer : h'.svc.buffer = h.svc.buffer) (hflushes : h'.svc.flushes = h.svc.flushes)
    (hrows : h'.db.shares = h.db.shares) : Moves h tids 0 h' loses := by
  refine ⟨tids, [], 0, htasks ▸ hcovers, by simpa using hrows, ?_, fun _ => rfl⟩
  simp [handlerCredits, htasks, hbuffer, hflushes]

/-- One task changes, with its credits. -/
theorem Moves.task (hcovers : Slots.Covers .idle h.tasks tids) {tid : ℕ} {task : Task}
    {started : Multiset Credit} (htasks : h'.tasks = Function.update h.tasks tid task)
    (hcredits : taskCredits task = taskCredits (h.tasks tid) + started)
    (hbuffer : h'.svc.buffer = h.svc.buffer) (hflushes : h'.svc.flushes = h.svc.flushes)
    (hrows : h'.db.shares = h.db.shares) : Moves h tids started h' loses := by
  refine ⟨insert tid tids, [], 0, htasks ▸ hcovers.update tid task, by simpa using hrows, ?_,
    fun _ => rfl⟩
  have htotal := Slots.total_update taskCredits rfl hcovers tid task
  rw [hcredits, ← add_assoc, add_right_comm, add_left_inj] at htotal
  simp only [handlerCredits, htasks, hbuffer, hflushes, rowCredits_nil, add_zero, htotal]
  abel

/-- `BufferShare` takes the credits over from its task. -/
theorem moves_bufferShare (hcovers : Slots.Covers .idle h.tasks tids) {tid : ℕ} {sh : Share}
    (ht : h.tasks tid = .recordShare sh) :
    Moves h tids 0 { h.setTask tid .idle with
      svc := (bufferShare h.svc sh).toOption.getD h.svc } loses := by
  have htotal := Slots.total_update taskCredits rfl hcovers tid .idle
  rw [ht] at htotal
  refine ⟨insert tid tids, [], 0, hcovers.update tid .idle, ?_, ?_, fun _ => rfl⟩
  · simp [PoolHandler.db]
  · have htask : taskCredits .idle = 0 := rfl
    rw [htask, add_zero] at htotal
    cases hcheck : sh.check with
    | error msg =>
        have hnone : taskCredits (.recordShare sh) = 0 := by simp [taskCredits, hcheck, Except.toOption]
        rw [hnone, add_zero] at htotal
        simp only [handlerCredits, bufferShare, hcheck, Except.map, Except.toOption,
          Option.getD_none, PoolHandler.setTask, htotal, rowCredits_nil, add_zero]
    | ok b =>
        have hsome : taskCredits (.recordShare sh) = bufferCredits [b] := by
          simp [taskCredits, bufferCredits, hcheck, Except.toOption]
        rw [hsome] at htotal
        simp only [handlerCredits, bufferShare, hcheck, Except.map, Except.toOption,
          Option.getD_some, PoolHandler.setTask, ← htotal, bufferCredits_append, rowCredits_nil,
          add_zero]
        abel

theorem moves_takeBuffer (hcovers : Slots.Covers .idle h.tasks tids) :
    Moves h tids 0 { h with svc := takeBuffer h.svc } loses := by
  refine ⟨tids, [], 0, hcovers, ?_, ?_, fun _ => rfl⟩
  · simp [PoolHandler.db]
  · unfold takeBuffer handlerCredits
    split_ifs with hbuffer
    · simp
    · simp only [bufferCredits, List.map_nil, List.map_append, List.map_cons, List.sum_append,
        List.sum_cons, List.sum_nil, rowCredits_nil, Multiset.coe_nil, add_zero]
      abel

/-- A flush goes on, has written its batch, or loses it. -/
theorem moves_flushCall (hcovers : Slots.Covers .idle h.tasks tids) {i : ℕ} {answer : Answer}
    {now : Time} {svc : ShareService} (hflush : flushCall h.svc i answer now = some svc) :
    Moves h tids 0 { h with svc := svc } (decide (answer = .failed)) := by
  obtain ⟨f, hf, hcases⟩ := flushCall_cases hflush
  have herase := Slots.sum_map_eraseIdx (fun f : Flush => bufferCredits f.pending) hf
  rcases hcases with ⟨rfl, rfl⟩ | ⟨rfl, rfl⟩ | ⟨rfl, g, hg, rfl⟩
  · refine ⟨tids, [], bufferCredits f.pending, hcovers, by simp [PoolHandler.db], ?_,
      by simp⟩
    simp only [handlerCredits, herase, rowCredits_nil, add_zero]
    abel
  · refine ⟨tids, _, 0, hcovers, rfl, ?_, fun _ => rfl⟩
    rw [rowCredits_written]
    simp only [handlerCredits, herase, add_zero]
    abel
  · refine ⟨tids, [], 0, hcovers, by simp [PoolHandler.db], ?_, fun _ => rfl⟩
    have hset := Slots.sum_map_set (fun f : Flush => bufferCredits f.pending) hf g
    rw [hg, add_left_inj] at hset
    simp only [handlerCredits, hset, rowCredits_nil, add_zero]

/-- A new process has nothing of what the old one had taken. -/
theorem moves_restart (hboot : PoolHandler.boot h.db = some h') : Moves h tids 0 h' true := by
  obtain ⟨hdb, hsvc, htasks, -⟩ := boot_fields hboot
  refine ⟨∅, [], handlerCredits h tids, fun tid _ => htasks tid, ?_, ?_, by simp⟩
  · rw [hdb, List.append_nil]
  · simp [handlerCredits, Slots.total, hsvc, ShareService.boot, bufferCredits]

theorem write_shares (reply : Reply) (db : Db) (written : Option Db)
    (h : ∀ db', written = some db' → db'.shares = db.shares) :
    (reply.write db written).1.shares = db.shares := by
  rcases Reply.write_cases reply db written with heq | ⟨db', hdb', ⟨-, heq⟩ | ⟨-, heq⟩⟩
  · rw [heq]
  · rw [heq]
    exact h db' hdb'
  · rw [heq]
    exact h db' hdb'

theorem insertBlock_shares {db db' : Db} {bf : BlockFound} {snapshot : List Entry} {now : Time}
    (h : insertBlock db bf snapshot now = some db') : db'.shares = db.shares := by
  unfold insertBlock at h
  split_ifs at h
  obtain rfl := Option.some.inj h
  rfl

theorem confirmBlock_shares {db db' : Db} {blockID newRoundID : ℕ} {now : Time}
    (h : confirmBlock db blockID now = some (newRoundID, db')) : db'.shares = db.shares := by
  obtain ⟨-, -, -, -, ⟨-, -, rfl⟩ | ⟨-, -, rfl⟩⟩ := confirmBlock_inv h <;> rfl

theorem checkBlock_shares (h : PoolHandler) (b : UnconfirmedBlock) (rest : List UnconfirmedBlock)
    (pending : ℕ) (confs : Option ℤ) (reply : Reply) (now : Time) :
    (h.checkBlock b rest pending confs reply now).svc.buffer = h.svc.buffer ∧
      (h.checkBlock b rest pending confs reply now).svc.flushes = h.svc.flushes ∧
      (h.checkBlock b rest pending confs reply now).db.shares = h.db.shares := by
  cases confs with
  | none => exact ⟨rfl, rfl, rfl⟩
  | some confs =>
      by_cases h0 : confs < 0
      · have horphan := write_shares reply h.db (some (markOrphaned h.db b.id))
          fun db' hdb' => by
            obtain rfl := Option.some.inj hdb'
            rfl
        simp only [PoolHandler.checkBlock, h0, if_true]
        exact ⟨rfl, rfl, horphan⟩
      · by_cases h2 : confs < 2
        · simp [PoolHandler.checkBlock, h0, h2, PoolHandler.db]
        · simp only [PoolHandler.checkBlock, h0, h2, if_false]
          cases hconfirm : confirmBlock h.db b.id now with
          | none => exact ⟨rfl, rfl, rfl⟩
          | some result =>
              refine ⟨rfl, rfl, write_shares reply h.db (some result.2) ?_⟩
              intro db' hdb'
              obtain rfl := Option.some.inj hdb'
              exact confirmBlock_shares hconfirm

/-- **Steps of the handler.** -/
theorem step_moves {e : Event} (hs : h.step e = some h')
    (hcovers : Slots.Covers .idle h.tasks tids) :
    Moves h tids (startedCredits e) h' (PoolEvent.handler e).loses := by
  cases step_effect hs with
  | @notANumber tid msg ht hdiff =>
      have hnone : startedCredits (.recordShare tid msg) = 0 := by
        simp only [startedCredits, messageCredits, messageCredit, Reward.recordShare, hdiff]
        rfl
      rw [hnone]
      exact .same hcovers rfl rfl rfl rfl
  | recordShare ht hdiff =>
      refine .task hcovers rfl ?_ rfl rfl rfl
      rw [ht]
      simp only [taskCredits, startedCredits, messageCredits, messageCredit, Reward.recordShare,
        hdiff]
      rw [zero_add]
      rfl
  | bufferShare ht => exact moves_bufferShare hcovers ht
  | takeBuffer => exact moves_takeBuffer hcovers
  | @flushCall i answer now svc hf =>
      have hmoves := moves_flushCall hcovers hf
      cases answer <;> exact hmoves
  | blockFound ht => exact .task hcovers rfl (by rw [ht]; rfl) rfl rfl rfl
  | blockQuery ht hq => exact .task hcovers rfl (by rw [ht]; rfl) rfl rfl rfl
  | blockQueryFailed ht => exact .task hcovers rfl (by rw [ht]; rfl) rfl rfl rfl
  | blockInsert ht =>
      exact .task hcovers rfl (by rw [ht]; rfl) rfl rfl
        (write_shares _ _ _ fun _ => insertBlock_shares)
  | refresh ht => exact .task hcovers rfl (by rw [ht]; rfl) rfl rfl rfl
  | refreshQuery ht hq => exact .task hcovers rfl (by rw [ht]; rfl) rfl rfl rfl
  | refreshQueryFailed ht => exact .task hcovers rfl (by rw [ht]; rfl) rfl rfl rfl
  | refreshStore ht => exact .task hcovers rfl (by rw [ht]; rfl) rfl rfl rfl
  | poll hp => exact .same hcovers rfl rfl rfl rfl
  | pollFailed => exact .same hcovers rfl rfl rfl rfl
  | pollBlock hp =>
      obtain ⟨hbuffer, hflushes, hrows⟩ := checkBlock_shares h _ _ _ _ _ _
      exact .same hcovers (checkBlock_frame h _ _ _ _ _ _).2.2 hbuffer hflushes hrows
  | assign hp => exact .same hcovers rfl rfl rfl rfl
  | passDone hp => exact .same hcovers rfl rfl rfl rfl

end

/-! ## Runs -/

/-- The server has the credits that were meant. -/
theorem callCredit_call {r : Request} (h : r.InRange) : r.call.bind callCredit = r.credit := by
  cases r with
  | coinbaseOutputs miner fees =>
      simp only [Request.call, Request.credit]
      split_ifs <;> rfl
  | blockFound height hashHex finderAddr =>
      simp only [Request.call, Request.credit]
      cases datumRewardBlockFound height hashHex finderAddr <;> rfl
  | shareSubmit username difficulty trueDiff port =>
      obtain ⟨-, -, hport0, hport⟩ := h
      have hport : int32 port = port := by
        rw [int32, Int.bmod_eq_of_le] <;> omega
      simp only [Request.call, Request.credit]
      split_ifs
      · simp only [Option.bind_some, callCredit, messageCredit, Reward.recordShare,
          bigSetString_printInt, Option.map_some, columnsCredit, BufferedShare.columns, hport]
      · rfl

theorem filterMap_callCredit {sent : List Sent} (h : ∀ m ∈ sent, m.Harmless) :
    (sent.filterMap Sent.call).filterMap callCredit = sent.filterMap Sent.credit := by
  rw [List.filterMap_filterMap]
  refine List.filterMap_congr fun m hm => ?_
  cases m with
  | request r => exact callCredit_call (h _ hm)
  | other line => rfl

/-- Only requests with arguments in range are made, and what others send is no
call. -/
def PoolEvent.Harmless : PoolEvent → Prop
  | .connect _ sent => ∀ m ∈ sent, m.Harmless
  | _ => True

/-- Every submission is on its way, in the table, or was lost by an event that
loses. -/
def Accounted (rows : List ShareRow) (es : List PoolEvent) (s : Pool) : Prop :=
  ∃ tids added lost, Slots.Covers .idle s.handler.tasks tids ∧
    s.handler.db.shares = rows ++ added ∧
    submitted es = s.unserved + handlerCredits s.handler tids + rowCredits added + lost ∧
    ((∀ e ∈ es, e.loses = false) → lost = 0)

theorem connection_credits {sent : List Sent} (h : ∀ m ∈ sent, m.Harmless) (tid : ℕ) :
    Connection.credits ⟨tid, handleConn (sent.flatMap Sent.text)⟩ =
      (sent.filterMap Sent.credit : List Credit) := by
  rw [Connection.credits, handleConn_flatMap h, filterMap_callCredit h]

theorem connection_credits_cons (tid : ℕ) (call : Call) (rest : List Call) :
    Connection.credits ⟨tid, call :: rest⟩ =
      (callCredit call).toList + Connection.credits ⟨tid, rest⟩ := by
  rw [Connection.credits, List.filterMap_cons]
  cases callCredit call <;> rfl

namespace Accounted

variable {rows : List ShareRow} {es : List PoolEvent} {s s' : Pool} {e : PoolEvent}

theorem boot {h : PoolHandler} (htasks : ∀ tid, h.tasks tid = .idle) (hbuffer : h.svc.buffer = [])
    (hflushes : h.svc.flushes = []) : Accounted h.db.shares [] (.boot h) := by
  refine ⟨∅, [], 0, fun tid _ => htasks tid, (List.append_nil _).symm, ?_, fun _ => rfl⟩
  simp [submitted, Pool.unserved, Pool.boot, handlerCredits, Slots.total, hbuffer, hflushes,
    bufferCredits]

/-- The credits in front of the handler change, and some go into it. -/
theorem snoc (h : Accounted rows es s) (started dropped : Multiset Credit)
    (hfront : s.unserved + (e.credits : List Credit) = s'.unserved + started + dropped)
    (hdropped : e.loses = false → dropped = 0)
    (hmoves : ∀ tids, Slots.Covers .idle s.handler.tasks tids →
      Moves s.handler tids started s'.handler e.loses) : Accounted rows (es ++ [e]) s' := by
  obtain ⟨tids, added, lost, hcovers, hrows, hsum, hlost⟩ := h
  obtain ⟨tids', added', lost', hcovers', hrows', hsum', hlost'⟩ := hmoves tids hcovers
  refine ⟨tids', added ++ added', lost + dropped + lost', hcovers', ?_, ?_, fun hes => ?_⟩
  · rw [hrows', hrows, List.append_assoc]
  · calc submitted (es ++ [e])
        = (s.unserved + (e.credits : List Credit)) + handlerCredits s.handler tids +
            rowCredits added + lost := by
          rw [submitted_snoc, hsum]
          abel
      _ = s'.unserved + (handlerCredits s.handler tids + started) + rowCredits added +
            (lost + dropped) := by
          rw [hfront]
          abel
      _ = s'.unserved + handlerCredits s'.handler tids' + rowCredits (added ++ added') +
            (lost + dropped + lost') := by
          rw [hsum', rowCredits_append]
          abel
  · have he := hes e (by simp)
    rw [hlost fun e' he' => hes e' (by simp [he']), hdropped he, hlost' he]
    rfl

theorem serve (h : Accounted rows es s) {i : ℕ} {c : Connection} {call : Call} {rest : List Call}
    (hc : s.connections[i]? = some c) (hcalls : c.calls = call :: rest)
    (hs : s.serve i c.tid rest call = some s') : Accounted rows (es ++ [.serve i]) s' := by
  have hset := Slots.sum_map_set Connection.credits hc ⟨c.tid, rest⟩
  have hcredits : Connection.credits c = (callCredit call).toList + Connection.credits ⟨c.tid, rest⟩ := by
    rw [← connection_credits_cons, ← hcalls]
  rw [hcredits, ← add_assoc, add_left_inj] at hset
  cases call with
  | getCoinbaseOutputs miner fees =>
      obtain rfl := Option.some.inj hs
      refine h.snoc 0 0 ?_ (fun _ => rfl) fun tids hcovers =>
        .same hcovers rfl rfl rfl rfl
      simp only [callCredit, Option.toList_none, Multiset.coe_nil, add_zero] at hset
      simp only [Pool.unserved, hset, PoolEvent.credits, Multiset.coe_nil, add_zero]
  | recordShare msg =>
      obtain rfl := Option.some.inj hs
      refine h.snoc 0 0 ?_ (fun _ => rfl) fun tids hcovers =>
        .same hcovers rfl rfl rfl rfl
      simp only [Pool.unserved, ← hset, PoolEvent.credits, Multiset.coe_nil, add_zero,
        List.map_append, List.map_cons, List.map_nil, List.sum_append, List.sum_cons, List.sum_nil,
        callCredit, messageCredits]
      abel
  | blockFound msg =>
      obtain ⟨handler, hstep, rfl⟩ := Option.map_eq_some_iff.mp hs
      refine h.snoc 0 0 ?_ (fun _ => rfl) fun tids hcovers =>
        step_moves hstep hcovers
      simp only [callCredit, Option.toList_none, Multiset.coe_nil, add_zero] at hset
      simp only [Pool.unserved, hset, PoolEvent.credits, Multiset.coe_nil, add_zero]

/-- **Steps of the pool.** -/
theorem step (h : Accounted rows es s) (he : e.Harmless) (hs : s.step e = some s') :
    Accounted rows (es ++ [e]) s' := by
  cases e with
  | connect tid sent =>
      obtain rfl := Option.some.inj hs
      refine h.snoc 0 0 ?_ (fun _ => rfl) fun tids hcovers =>
        .same hcovers rfl rfl rfl rfl
      simp only [Pool.unserved, PoolEvent.credits, List.map_append, List.map_cons, List.map_nil,
        List.sum_append, List.sum_cons, List.sum_nil, connection_credits he, add_zero]
      abel
  | serve i =>
      simp only [Pool.step, Option.bind_eq_bind, Option.bind_eq_some_iff] at hs
      obtain ⟨c, hc, hs⟩ := hs
      split at hs
      · cases hs
      · split_ifs at hs
        exact h.serve hc ‹_› hs
  | endOfFile i =>
      simp only [Pool.step, Option.bind_eq_bind, Option.bind_eq_some_iff] at hs
      obtain ⟨c, hc, hs⟩ := hs
      split_ifs at hs with hcalls
      obtain rfl := Option.some.inj hs
      have herase := Slots.sum_map_eraseIdx Connection.credits hc
      have hnone : Connection.credits c = 0 := by rw [Connection.credits, hcalls]; rfl
      refine h.snoc 0 0 ?_ (fun _ => rfl) fun tids hcovers =>
        .same hcovers rfl rfl rfl rfl
      simp only [Pool.unserved, herase, hnone, PoolEvent.credits, Multiset.coe_nil, add_zero,
        zero_add]
  | breakOff i =>
      obtain rfl := Option.some.inj hs
      cases hc : s.connections[i]? with
      | none =>
          refine h.snoc 0 0 ?_ (by simp [PoolEvent.loses])
            fun tids hcovers => .same hcovers rfl rfl rfl rfl
          have hsame : s.connections.eraseIdx i = s.connections :=
            List.eraseIdx_of_length_le (List.getElem?_eq_none_iff.mp hc)
          simp only [Pool.unserved, hsame, PoolEvent.credits, Multiset.coe_nil, add_zero]
      | some c =>
          have herase := Slots.sum_map_eraseIdx Connection.credits hc
          refine h.snoc 0 (Connection.credits c) ?_
            (by simp [PoolEvent.loses]) fun tids hcovers => .same hcovers rfl rfl rfl rfl
          simp only [Pool.unserved, herase, PoolEvent.credits, Multiset.coe_nil, add_zero]
          abel
  | recordShare j tid =>
      simp only [Pool.step, Option.bind_eq_bind, Option.bind_eq_some_iff] at hs
      obtain ⟨msg, hmsg, handler, hstep, hs⟩ := hs
      obtain rfl := Option.some.inj hs
      have herase := Slots.sum_map_eraseIdx messageCredits hmsg
      refine h.snoc (messageCredits msg) 0 ?_ (fun _ => rfl)
        fun tids hcovers => step_moves hstep hcovers
      simp only [Pool.unserved, herase, PoolEvent.credits, Multiset.coe_nil, add_zero]
      abel
  | handler e =>
      simp only [Pool.step] at hs
      split_ifs at hs with hstarted
      obtain ⟨handler, hstep, rfl⟩ := Option.map_eq_some_iff.mp hs
      have hnone : startedCredits e = 0 := by
        cases e with
        | recordShare tid msg => exact absurd rfl hstarted
        | _ => rfl
      refine h.snoc 0 0 ?_ (fun _ => rfl)
        fun tids hcovers => hnone ▸ step_moves hstep hcovers
      simp only [Pool.unserved, PoolEvent.credits, Multiset.coe_nil, add_zero]
  | restart =>
      obtain ⟨handler, hboot, rfl⟩ := Option.map_eq_some_iff.mp hs
      refine h.snoc 0 s.unserved ?_ (by simp [PoolEvent.loses]) fun tids _ => moves_restart hboot
      simp [Pool.unserved, Pool.boot, PoolEvent.credits]

theorem run {s₀ : Pool} (h0 : Accounted rows [] s₀) (hes : ∀ e ∈ es, e.Harmless)
    (hrun : Runs.run Pool.step s₀ es = some s) : Accounted rows es s := by
  refine run_history (P := fun es s => (∀ e ∈ es, e.Harmless) → Accounted rows es s)
    (fun _ => h0) ?_ hrun hes
  intro es s e s' _ ih hs hes
  exact (ih fun e' he' => hes e' (by simp [he'])).step (hes e (by simp)) hs

end Accounted

end Gateway
