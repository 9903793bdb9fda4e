import Unlucky21.Lib.Runs
import Unlucky21.Reward.Rounds

/-!
# The shared pool's handler

The goroutines of `poolHandler`, one database call or one locked section a
step. `RecordShare`, `BlockFound` and `refreshLeaderboard` run as tasks, any
number at a time: each reads `roundID` first and uses what it read later.
`checkConfirmations` runs in a single goroutine; it commits `ConfirmBlock` in
one step and takes the lock to store the new round id in another.
-/

namespace Reward

open Wire Runs

/-! ## State -/

inductive Task
  | idle
  | recordShare (sh : Share)
  | blockFound (bf : BlockFound)
  | blockSnapshot (bf : BlockFound) (snapshot : List Entry)
  | refresh (roundID : ℕ)
  | refreshed (roundID : ℕ) (entries : List Entry)
deriving DecidableEq, Repr

/-- Where `checkConfirmations` is: not called, about to look at the next block,
or back from `ConfirmBlock` with a round id it has not stored yet. -/
inductive Pass
  | idle
  | polling (rest : List UnconfirmedBlock) (pending : ℕ)
  | confirmed (newRoundID : ℕ) (rest : List UnconfirmedBlock) (pending : ℕ)
deriving DecidableEq, Repr

structure PoolHandler where
  svc : ShareService
  roundID : ℕ
  top21 : List Entry
  tasks : ℕ → Task
  pass : Pass

def PoolHandler.db (h : PoolHandler) : Db := h.svc.db

def PoolHandler.setDb (h : PoolHandler) (db : Db) : PoolHandler :=
  { h with svc := { h.svc with db := db } }

def PoolHandler.setTask (h : PoolHandler) (tid : ℕ) (task : Task) : PoolHandler :=
  { h with tasks := Function.update h.tasks tid task }

/-- What `main` builds. -/
def PoolHandler.boot (db : Db) : Option PoolHandler :=
  (activeRoundID db).map fun roundID => ⟨.boot db, roundID, [], fun _ => .idle, .idle⟩

/-- The arguments of `RecordShare`. -/
structure ShareMsg where
  btcAddress : Text
  workerName : Text
  difficulty : Text
  trueDiff : ℚ
  sourcePort : ℤ
deriving DecidableEq, Repr

/-- `new(big.Int).SetString(difficulty, 10)`. -/
def bigSetString (t : Text) : Option ℤ :=
  let digits (ds : Text) : Option ℤ :=
    if ds ≠ [] ∧ ds.all Char.isDigit then
      some (ds.foldl (fun n c => 10 * n + (c.toNat - '0'.toNat : ℤ)) 0)
    else none
  match t with
  | '-' :: ds => (digits ds).map (- ·)
  | '+' :: ds => digits ds
  | ds => digits ds

def getCoinbaseOutputs (h : PoolHandler) (minerAddress : Text) (feesSats : ℤ) :
    Except String (List CoinbaseOutput) :=
  buildOutputs minerAddress subsidySats feesSats (h.top21.map Entry.btcAddress)

/-! ## Steps -/

/-- What the database answers: `failed` before taking effect, `lost` after. -/
inductive Reply
  | ok
  | failed
  | lost
deriving DecidableEq, Repr

inductive Event
  | recordShare (tid : ℕ) (msg : ShareMsg)
  | bufferShare (tid : ℕ)
  | takeBuffer
  | flushCall (i : ℕ) (answer : Answer) (now : Time)
  | blockFound (tid : ℕ) (msg : BlockFoundMsg)
  | blockQuery (tid : ℕ) (reply : Reply) (now : Time) (scan : List Text)
  | blockInsert (tid : ℕ) (reply : Reply) (now : Time)
  | refresh (tid : ℕ)
  | refreshQuery (tid : ℕ) (reply : Reply) (now : Time) (scan : List Text)
  | refreshStore (tid : ℕ)
  | poll (reply : Reply) (scan : List ℕ)
  | pollBlock (confs : Option ℤ) (reply : Reply) (now : Time)
  | assign
  | passDone
deriving DecidableEq, Repr

/-- A read that did not fail. -/
def Reply.read {ε α : Type*} (reply : Reply) (x : Except ε α) : Option α :=
  if reply = .ok then x.toOption else none

/-- The database after a write, and whether the caller was told it worked. -/
def Reply.write (reply : Reply) (db : Db) (written : Option Db) : Db × Bool :=
  match reply, written with
  | .ok, some db' => (db', true)
  | .lost, some db' => (db', false)
  | _, _ => (db, false)

/-- The body of the loop of `checkConfirmations` for block `b`, up to the lock. -/
def PoolHandler.checkBlock (h : PoolHandler) (b : UnconfirmedBlock)
    (rest : List UnconfirmedBlock) (pending : ℕ) (confs : Option ℤ) (reply : Reply)
    (now : Time) : PoolHandler :=
  match confs with
  | none => { h with pass := .polling rest (pending + 1) }
  | some confs =>
      if confs < 0 then
        let (db, told) := reply.write h.db (some (markOrphaned h.db b.id))
        { h.setDb db with pass := .polling rest (if told then pending else pending + 1) }
      else if confs < 2 then { h with pass := .polling rest (pending + 1) }
      else
        match confirmBlock h.db b.id now with
        | none => { h with pass := .polling rest (pending + 1) }
        | some (newRoundID, db') =>
            let (db, told) := reply.write h.db (some db')
            { h.setDb db with
              pass := if told then .confirmed newRoundID rest pending
                else .polling rest (pending + 1) }

def PoolHandler.step (h : PoolHandler) : Event → Option PoolHandler
  | .recordShare tid msg =>
      if h.tasks tid = .idle then
        match bigSetString msg.difficulty with
        | none => some h
        | some diff => some (h.setTask tid (.recordShare
            ⟨h.roundID, msg.btcAddress, msg.workerName, some diff, msg.trueDiff, msg.sourcePort⟩))
      else none
  | .bufferShare tid =>
      match h.tasks tid with
      | .recordShare sh =>
          some { h.setTask tid .idle with svc := (bufferShare h.svc sh).toOption.getD h.svc }
      | _ => none
  | .takeBuffer => some { h with svc := takeBuffer h.svc }
  | .flushCall i answer now => (flushCall h.svc i answer now).map fun svc => { h with svc := svc }
  | .blockFound tid msg =>
      if h.tasks tid = .idle then some (h.setTask tid (.blockFound ⟨msg, h.roundID⟩)) else none
  | .blockQuery tid reply now scan =>
      match h.tasks tid with
      | .blockFound bf =>
          match reply.read (getTop21 h.db bf.roundID now scan) with
          | some entries => some (h.setTask tid (.blockSnapshot bf entries))
          | none => some (h.setTask tid .idle)
      | _ => none
  | .blockInsert tid reply now =>
      match h.tasks tid with
      | .blockSnapshot bf snapshot =>
          some ((h.setDb (reply.write h.db (insertBlock h.db bf snapshot now)).1).setTask tid .idle)
      | _ => none
  | .refresh tid =>
      if h.tasks tid = .idle then some (h.setTask tid (.refresh h.roundID)) else none
  | .refreshQuery tid reply now scan =>
      match h.tasks tid with
      | .refresh roundID =>
          match reply.read (getTop21 h.db roundID now scan) with
          | some entries => some (h.setTask tid (.refreshed roundID entries))
          | none => some (h.setTask tid .idle)
      | _ => none
  | .refreshStore tid =>
      match h.tasks tid with
      | .refreshed _ entries => some { h.setTask tid .idle with top21 := entries }
      | _ => none
  | .poll reply scan =>
      if h.pass = .idle then
        if reply = .ok then
          some { h with pass := .polling (getUnconfirmedBlocks h.db scan) 0 }
        else some h
      else none
  | .pollBlock confs reply now =>
      match h.pass with
      | .polling (b :: rest) pending => some (h.checkBlock b rest pending confs reply now)
      | _ => none
  | .assign =>
      match h.pass with
      | .confirmed newRoundID rest pending =>
          some { h with roundID := newRoundID, top21 := [], pass := .polling rest pending }
      | _ => none
  | .passDone =>
      match h.pass with
      | .polling [] _ => some { h with pass := .idle }
      | _ => none

/-- A history in which every call of the database answers without an error. -/
def Event.answered : Event → Bool
  | .flushCall _ answer _ => answer = .ok
  | .blockQuery _ reply _ _ => reply = .ok
  | .blockInsert _ reply _ => reply = .ok
  | .refreshQuery _ reply _ _ => reply = .ok
  | .poll reply _ => reply = .ok
  | .pollBlock _ reply _ => reply = .ok
  | _ => true

@[simp] theorem setDb_db (h : PoolHandler) (db : Db) : (h.setDb db).db = db := rfl

@[simp] theorem setTask_db (h : PoolHandler) (tid : ℕ) (task : Task) :
    (h.setTask tid task).db = h.db := rfl

@[simp] theorem setTask_tasks (h : PoolHandler) (tid : ℕ) (task : Task) :
    (h.setTask tid task).tasks tid = task := by
  simp [PoolHandler.setTask]

theorem setTask_tasks_of_ne (h : PoolHandler) {tid tid' : ℕ} (hne : tid' ≠ tid) (task : Task) :
    (h.setTask tid task).tasks tid' = h.tasks tid' := by
  simp [PoolHandler.setTask, hne]

/-! ## Inversion -/

theorem Reply.write_cases (reply : Reply) (db : Db) (written : Option Db) :
    reply.write db written = (db, false) ∨
      ∃ db', written = some db' ∧ ((reply = .ok ∧ reply.write db written = (db', true)) ∨
        (reply = .lost ∧ reply.write db written = (db', false))) := by
  cases written with
  | none => cases reply <;> simp [Reply.write]
  | some db' => cases reply <;> simp [Reply.write]

/-- A round of the loop leaves the round id, the cache and the tasks alone. -/
theorem checkBlock_frame (h : PoolHandler) (b : UnconfirmedBlock)
    (rest : List UnconfirmedBlock) (pending : ℕ) (confs : Option ℤ) (reply : Reply) (now : Time) :
    (h.checkBlock b rest pending confs reply now).roundID = h.roundID ∧
      (h.checkBlock b rest pending confs reply now).top21 = h.top21 ∧
      (h.checkBlock b rest pending confs reply now).tasks = h.tasks := by
  cases confs with
  | none => exact ⟨rfl, rfl, rfl⟩
  | some confs =>
      by_cases h0 : confs < 0
      · simp [PoolHandler.checkBlock, h0, PoolHandler.setDb]
      · by_cases h2 : confs < 2
        · simp [PoolHandler.checkBlock, h0, h2]
        · cases hcf : confirmBlock h.db b.id now <;>
            simp [PoolHandler.checkBlock, h0, h2, hcf, PoolHandler.setDb]

/-- The ways a step can go, each with what it requires and what it leaves. -/
inductive Effect (h : PoolHandler) : Event → PoolHandler → Prop
  | notANumber {tid msg} (ht : h.tasks tid = .idle) (hdiff : bigSetString msg.difficulty = none) :
      Effect h (.recordShare tid msg) h
  | recordShare {tid msg diff} (ht : h.tasks tid = .idle)
      (hdiff : bigSetString msg.difficulty = some diff) :
      Effect h (.recordShare tid msg) (h.setTask tid (.recordShare
        ⟨h.roundID, msg.btcAddress, msg.workerName, some diff, msg.trueDiff, msg.sourcePort⟩))
  | bufferShare {tid sh} (ht : h.tasks tid = .recordShare sh) :
      Effect h (.bufferShare tid)
        { h.setTask tid .idle with svc := (Reward.bufferShare h.svc sh).toOption.getD h.svc }
  | takeBuffer : Effect h .takeBuffer { h with svc := Reward.takeBuffer h.svc }
  | flushCall {i answer now svc} (hf : Reward.flushCall h.svc i answer now = some svc) :
      Effect h (.flushCall i answer now) { h with svc := svc }
  | blockFound {tid msg} (ht : h.tasks tid = .idle) :
      Effect h (.blockFound tid msg) (h.setTask tid (.blockFound ⟨msg, h.roundID⟩))
  | blockQuery {tid reply now scan bf entries} (ht : h.tasks tid = .blockFound bf)
      (hq : reply.read (getTop21 h.db bf.roundID now scan) = some entries) :
      Effect h (.blockQuery tid reply now scan) (h.setTask tid (.blockSnapshot bf entries))
  | blockQueryFailed {tid reply now scan bf} (ht : h.tasks tid = .blockFound bf) :
      Effect h (.blockQuery tid reply now scan) (h.setTask tid .idle)
  | blockInsert {tid reply now bf snapshot} (ht : h.tasks tid = .blockSnapshot bf snapshot) :
      Effect h (.blockInsert tid reply now)
        ((h.setDb (reply.write h.db (insertBlock h.db bf snapshot now)).1).setTask tid .idle)
  | refresh {tid} (ht : h.tasks tid = .idle) :
      Effect h (.refresh tid) (h.setTask tid (.refresh h.roundID))
  | refreshQuery {tid reply now scan roundID entries} (ht : h.tasks tid = .refresh roundID)
      (hq : reply.read (getTop21 h.db roundID now scan) = some entries) :
      Effect h (.refreshQuery tid reply now scan) (h.setTask tid (.refreshed roundID entries))
  | refreshQueryFailed {tid reply now scan roundID} (ht : h.tasks tid = .refresh roundID) :
      Effect h (.refreshQuery tid reply now scan) (h.setTask tid .idle)
  | refreshStore {tid roundID entries} (ht : h.tasks tid = .refreshed roundID entries) :
      Effect h (.refreshStore tid) { h.setTask tid .idle with top21 := entries }
  | poll {reply scan} (hp : h.pass = .idle) :
      Effect h (.poll reply scan) { h with pass := .polling (getUnconfirmedBlocks h.db scan) 0 }
  | pollFailed {reply scan} : Effect h (.poll reply scan) h
  | pollBlock {confs reply now b rest pending} (hp : h.pass = .polling (b :: rest) pending) :
      Effect h (.pollBlock confs reply now) (h.checkBlock b rest pending confs reply now)
  | assign {newRoundID rest pending} (hp : h.pass = .confirmed newRoundID rest pending) :
      Effect h .assign
        { h with roundID := newRoundID, top21 := [], pass := .polling rest pending }
  | passDone {pending} (hp : h.pass = .polling [] pending) :
      Effect h .passDone { h with pass := .idle }

theorem step_effect {h h' : PoolHandler} {e : Event} (hs : h.step e = some h') :
    Effect h e h' := by
  cases e with
  | recordShare tid msg =>
      simp only [PoolHandler.step] at hs
      split_ifs at hs with ht
      split at hs <;> obtain rfl := Option.some.inj hs
      · exact .notANumber ht ‹_›
      · exact .recordShare ht ‹_›
  | bufferShare tid =>
      simp only [PoolHandler.step] at hs
      split at hs
      · obtain rfl := Option.some.inj hs
        exact .bufferShare ‹_›
      · cases hs
  | takeBuffer =>
      obtain rfl := Option.some.inj hs
      exact .takeBuffer
  | flushCall i answer now =>
      obtain ⟨svc, hf, rfl⟩ := Option.map_eq_some_iff.mp hs
      exact .flushCall hf
  | blockFound tid msg =>
      simp only [PoolHandler.step] at hs
      split_ifs at hs with ht
      obtain rfl := Option.some.inj hs
      exact .blockFound ht
  | blockQuery tid reply now scan =>
      simp only [PoolHandler.step] at hs
      split at hs
      · split at hs <;> obtain rfl := Option.some.inj hs
        · exact .blockQuery ‹_› ‹_›
        · exact .blockQueryFailed ‹_›
      · cases hs
  | blockInsert tid reply now =>
      simp only [PoolHandler.step] at hs
      split at hs
      · obtain rfl := Option.some.inj hs
        exact .blockInsert ‹_›
      · cases hs
  | refresh tid =>
      simp only [PoolHandler.step] at hs
      split_ifs at hs with ht
      obtain rfl := Option.some.inj hs
      exact .refresh ht
  | refreshQuery tid reply now scan =>
      simp only [PoolHandler.step] at hs
      split at hs
      · split at hs <;> obtain rfl := Option.some.inj hs
        · exact .refreshQuery ‹_› ‹_›
        · exact .refreshQueryFailed ‹_›
      · cases hs
  | refreshStore tid =>
      simp only [PoolHandler.step] at hs
      split at hs
      · obtain rfl := Option.some.inj hs
        exact .refreshStore ‹_›
      · cases hs
  | poll reply scan =>
      simp only [PoolHandler.step] at hs
      split_ifs at hs with hp hr <;> obtain rfl := Option.some.inj hs
      · exact .poll hp
      · exact .pollFailed
  | pollBlock confs reply now =>
      simp only [PoolHandler.step] at hs
      split at hs
      · obtain rfl := Option.some.inj hs
        exact .pollBlock ‹_›
      · cases hs
  | assign =>
      simp only [PoolHandler.step] at hs
      split at hs
      · obtain rfl := Option.some.inj hs
        exact .assign ‹_›
      · cases hs
  | passDone =>
      simp only [PoolHandler.step] at hs
      split at hs
      · obtain rfl := Option.some.inj hs
        exact .passDone ‹_›
      · cases hs

end Reward
