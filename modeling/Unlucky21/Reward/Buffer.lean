import Unlucky21.Lib.Drain
import Unlucky21.Lib.Runs
import Unlucky21.Lib.SignificantDigits
import Unlucky21.Reward.Tables

/-!
# Buffered shares

`BufferShare` appends to a slice under the lock; `FlushShares` swaps the slice
out under the lock and then writes it in one transaction. The lock is not held
while the transaction runs, so shares keep arriving and a second flush may
start. Each database call of a flush is a step of its own, and its answer is
part of the event.
-/

namespace Reward

open Wire SignificantDigits Runs

/-! ## Shares -/

/-- A share as `RecordShare` hands it over. The difficulty is a pointer. -/
structure Share where
  roundID : ℕ
  btcAddress : Text
  workerName : Text
  difficulty : Option ℤ
  trueDiff : ℚ
  sourcePort : ℤ
deriving DecidableEq, Repr

/-- A share past the nil check: what the buffer holds. -/
structure BufferedShare where
  roundID : ℕ
  btcAddress : Text
  workerName : Text
  difficulty : ℤ
  trueDiff : ℚ
  sourcePort : ℤ
deriving DecidableEq, Repr

def Share.check (sh : Share) : Except String BufferedShare :=
  match sh.difficulty with
  | none => .error "leaderboard.BufferShare: Difficulty must not be nil"
  | some d => .ok ⟨sh.roundID, sh.btcAddress, sh.workerName, d, sh.trueDiff, sh.sourcePort⟩

/-- The columns a flush sets; the others take their defaults. -/
structure ShareColumns where
  roundId : ℕ
  btcAddress : Text
  workerName : Text
  shareDifficulty : ℤ
  trueDifficulty : Option ℤ
  sourcePort : Option ℤ
deriving DecidableEq, Repr

/-- The cast of a double to `NUMERIC(78,0)`: 15 digits, then the nearest
integer, halves away from zero. -/
def numericOfDouble (x : ℚ) : ℤ :=
  let y := toDigits 10 15 x
  if 0 ≤ y then ⌊y + 1 / 2⌋ else ⌈y - 1 / 2⌉

/-- Go's `int32(...)`. -/
def int32 (n : ℤ) : ℤ := n.bmod (2 ^ 32)

def BufferedShare.columns (sh : BufferedShare) : ShareColumns where
  roundId := sh.roundID
  btcAddress := sh.btcAddress
  workerName := sh.workerName
  shareDifficulty := sh.difficulty
  trueDifficulty := some (numericOfDouble sh.trueDiff)
  sourcePort := some (int32 sh.sourcePort)

def ShareColumns.row (c : ShareColumns) (now : Time) : ShareRow where
  roundId := c.roundId
  btcAddress := c.btcAddress
  workerName := c.workerName
  shareDifficulty := c.shareDifficulty
  submittedAt := now
  isStale := false
  trueDifficulty := c.trueDifficulty
  sourcePort := c.sourcePort

def ShareRow.columns (r : ShareRow) : ShareColumns where
  roundId := r.roundId
  btcAddress := r.btcAddress
  workerName := r.workerName
  shareDifficulty := r.shareDifficulty
  trueDifficulty := r.trueDifficulty
  sourcePort := r.sourcePort

@[simp] theorem ShareColumns.columns_row (c : ShareColumns) (now : Time) :
    (c.row now).columns = c := rfl

/-! ## The transaction of a flush -/

/-- `VARCHAR(n)`; a text value never holds a NUL character. Blanks behind the `n`-th
character, which PostgreSQL cuts, are not followed: a text with them is refused here. -/
def varchar (n : ℕ) (t : Text) : Bool := t.length ≤ n && '\x00' ∉ t

def numeric78 (d : ℤ) : Bool := d.natAbs < 10 ^ 78

/-- The columns' types and the reference to `rounds`. -/
def Db.admits (db : Db) (c : ShareColumns) : Bool :=
  db.rounds.any (fun r => r.id = c.roundId) && varchar 90 c.btcAddress &&
    varchar 64 c.workerName && numeric78 c.shareDifficulty && c.trueDifficulty.all numeric78

/-- The distinct (address, worker) pairs of a batch. -/
def workerKeys (pending : List BufferedShare) : List (Text × Text) :=
  (pending.map fun sh => (sh.btcAddress, sh.workerName)).dedup

/-- `ON CONFLICT (btc_address, worker_name) DO UPDATE SET last_seen`. -/
def upsertWorker (now : Time) (rows : List WorkerRow) (key : Text × Text) : List WorkerRow :=
  if rows.any fun w => (w.btcAddress, w.workerName) = key then
    rows.map fun w => if (w.btcAddress, w.workerName) = key then { w with lastSeen := now } else w
  else rows ++ [⟨key.1, key.2, now⟩]

def Db.writeShares (db : Db) (pending : List BufferedShare) (now : Time) : Db :=
  { db with
    shares := db.shares ++ pending.map fun sh => sh.columns.row now
    workers := (workerKeys pending).foldl (upsertWorker now) db.workers }

/-! ## The service -/

inductive FlushPhase
  | begin
  | insert
  | upsert
  | commit
deriving DecidableEq, Repr

/-- A `FlushShares` call that has taken the buffer; `now` is the time its
transaction started. -/
structure Flush where
  pending : List BufferedShare
  phase : FlushPhase
  now : Time
deriving DecidableEq, Repr

structure ShareService where
  db : Db
  buffer : List BufferedShare
  flushes : List Flush
deriving DecidableEq, Repr

/-- What the database answers to one call. -/
inductive Answer
  | ok
  | failed
deriving DecidableEq, Repr

inductive ShareEvent
  | bufferShare (sh : Share)
  | takeBuffer
  | flushCall (i : ℕ) (answer : Answer) (now : Time)
deriving DecidableEq, Repr

def bufferShare (s : ShareService) (sh : Share) : Except String ShareService :=
  sh.check.map fun b => { s with buffer := s.buffer ++ [b] }

/-- The swap at the head of `FlushShares`; with nothing buffered the call is
already over. -/
def takeBuffer (s : ShareService) : ShareService :=
  if s.buffer = [] then s
  else { s with buffer := [], flushes := s.flushes ++ [⟨s.buffer, .begin, 0⟩] }

/-- The next database call of flush `i`. A failed call rolls back and returns. -/
def flushCall (s : ShareService) (i : ℕ) (answer : Answer) (now : Time) : Option ShareService := do
  let f ← s.flushes[i]?
  match answer, f.phase with
  | .failed, _ => some { s with flushes := s.flushes.eraseIdx i }
  | .ok, .begin => some { s with flushes := s.flushes.set i { f with phase := .insert, now := now } }
  | .ok, .insert =>
      if f.pending.all fun sh => s.db.admits sh.columns then
        some { s with flushes := s.flushes.set i { f with phase := .upsert } }
      else none
  | .ok, .upsert => some { s with flushes := s.flushes.set i { f with phase := .commit } }
  | .ok, .commit =>
      some { s with
        db := s.db.writeShares f.pending f.now
        flushes := s.flushes.eraseIdx i }

def ShareService.step (s : ShareService) : ShareEvent → Option ShareService
  | .bufferShare sh => some ((bufferShare s sh).toOption.getD s)
  | .takeBuffer => some (takeBuffer s)
  | .flushCall i answer now => flushCall s i answer now

def ShareService.boot (db : Db) : ShareService := ⟨db, [], []⟩

/-! ## Conservation -/

/-- The shares a history of events got into the buffer. -/
def acceptedShares (es : List ShareEvent) : List BufferedShare :=
  es.filterMap fun
    | .bufferShare sh => sh.check.toOption
    | _ => none

def ShareEvent.fails : ShareEvent → Bool
  | .flushCall _ .failed _ => true
  | _ => false

def columnsOf (shares : List BufferedShare) : Multiset ShareColumns :=
  (shares.map BufferedShare.columns : List ShareColumns)

def Db.shareColumns (db : Db) : Multiset ShareColumns :=
  (db.shares.map ShareRow.columns : List ShareColumns)

/-- Each accepted share is a row inserted since the start or is still buffered,
as often as it was accepted. -/
def Conserved (db : Db) (es : List ShareEvent) (s : ShareService) : Prop :=
  db.shareColumns + columnsOf (acceptedShares es) = s.db.shareColumns + columnsOf s.buffer

instance (db : Db) (es : List ShareEvent) (s : ShareService) : Decidable (Conserved db es s) :=
  inferInstanceAs (Decidable (_ = _))

@[simp] theorem columnsOf_nil : columnsOf [] = 0 := rfl

@[simp] theorem columnsOf_singleton (sh : BufferedShare) : columnsOf [sh] = {sh.columns} := rfl

@[simp] theorem columnsOf_append (xs ys : List BufferedShare) :
    columnsOf (xs ++ ys) = columnsOf xs + columnsOf ys := by
  simp [columnsOf]

@[simp] theorem columnsOf_eq_zero {xs : List BufferedShare} : columnsOf xs = 0 ↔ xs = [] := by
  simp [columnsOf]

@[simp] theorem shareColumns_writeShares (db : Db) (pending : List BufferedShare) (now : Time) :
    (db.writeShares pending now).shareColumns = db.shareColumns + columnsOf pending := by
  simp [Db.writeShares, Db.shareColumns, columnsOf, Function.comp_def]

@[simp] theorem acceptedShares_append (es es' : List ShareEvent) :
    acceptedShares (es ++ es') = acceptedShares es ++ acceptedShares es' := by
  simp [acceptedShares]

def takenColumns (flushes : List Flush) : Multiset ShareColumns :=
  (flushes.map fun f => columnsOf f.pending).sum

theorem takenColumns_eraseIdx {flushes : List Flush} {i : ℕ} {f : Flush}
    (h : flushes[i]? = some f) :
    takenColumns flushes = columnsOf f.pending + takenColumns (flushes.eraseIdx i) := by
  obtain ⟨hi, rfl⟩ := List.getElem?_eq_some_iff.mp h
  have hperm := (List.getElem_cons_eraseIdx_perm hi).map fun f => columnsOf f.pending
  simpa [takenColumns] using hperm.sum_eq.symm

theorem takenColumns_set {flushes : List Flush} {i : ℕ} {f g : Flush}
    (h : flushes[i]? = some f) (hpending : g.pending = f.pending) :
    takenColumns (flushes.set i g) = takenColumns flushes := by
  obtain ⟨hi, rfl⟩ := List.getElem?_eq_some_iff.mp h
  have hmap : (flushes.set i g).map (fun f => columnsOf f.pending) =
      flushes.map fun f => columnsOf f.pending := by
    have hi' : i < (flushes.map fun f => columnsOf f.pending).length := by simpa using hi
    have hself := List.set_getElem_self hi'
    rw [List.map_set, hpending]
    simpa using hself
  rw [takenColumns, hmap, takenColumns]

/-- Where the shares of a run are; `dropped` are those of flushes that failed. -/
def account (db : Db) (es : List ShareEvent) (s : ShareService)
    (dropped : Multiset ShareColumns) : Drain.Account ShareColumns where
  accepted := db.shareColumns + columnsOf (acceptedShares es)
  pending := columnsOf s.buffer
  taken := takenColumns s.flushes
  stored := s.db.shareColumns
  dropped := dropped

/-- What a database call does to the service: the flush is given up, is written
and over, or moves to its next phase. -/
theorem flushCall_cases {s s' : ShareService} {i : ℕ} {answer : Answer} {now : Time}
    (h : flushCall s i answer now = some s') :
    ∃ f, s.flushes[i]? = some f ∧
      ((answer = .failed ∧ s' = { s with flushes := s.flushes.eraseIdx i }) ∨
       (answer = .ok ∧ s' = { s with
          db := s.db.writeShares f.pending f.now
          flushes := s.flushes.eraseIdx i }) ∨
       (answer = .ok ∧ ∃ g : Flush, g.pending = f.pending ∧
          s' = { s with flushes := s.flushes.set i g })) := by
  cases hf : s.flushes[i]? with
  | none => simp [flushCall, hf] at h
  | some f =>
      refine ⟨f, rfl, ?_⟩
      cases answer with
      | failed =>
          left
          obtain rfl : _ = s' := by simpa [flushCall, hf] using h
          exact ⟨rfl, rfl⟩
      | ok =>
          right
          cases hp : f.phase with
          | commit =>
              -- only the commit makes the rows visible
              left
              obtain rfl : _ = s' := by simpa [flushCall, hf, hp] using h
              exact ⟨rfl, rfl⟩
          | begin =>
              right
              obtain rfl : _ = s' := by simpa [flushCall, hf, hp] using h
              exact ⟨rfl, { f with phase := .insert, now := now }, rfl, rfl⟩
          | upsert =>
              right
              obtain rfl : _ = s' := by simpa [flushCall, hf, hp] using h
              exact ⟨rfl, { f with phase := .commit }, rfl, rfl⟩
          | insert =>
              right
              simp only [flushCall, hf, hp, Option.bind_eq_bind, Option.bind_some,
                Option.ite_none_right_eq_some] at h
              exact ⟨rfl, { f with phase := .upsert }, rfl, (Option.some.inj h.2).symm⟩

/-- A flush leaves rounds and blocks as they are. -/
theorem flushCall_db {s s' : ShareService} {i : ℕ} {answer : Answer} {now : Time}
    (h : flushCall s i answer now = some s') :
    s'.db = s.db ∨ ∃ pending txNow, s'.db = s.db.writeShares pending txNow := by
  obtain ⟨f, -, ⟨-, rfl⟩ | ⟨-, rfl⟩ | ⟨-, g, -, rfl⟩⟩ := flushCall_cases h
  · exact .inl rfl
  · exact .inr ⟨f.pending, f.now, rfl⟩
  · exact .inl rfl

@[simp] theorem takeBuffer_db (s : ShareService) : (takeBuffer s).db = s.db := by
  unfold takeBuffer
  split_ifs <;> rfl

@[simp] theorem bufferShare_db (s : ShareService) (sh : Share) :
    ((bufferShare s sh).toOption.getD s).db = s.db := by
  cases hc : sh.check <;> simp [bufferShare, hc, Except.map, Except.toOption]

/-- One event is one step of the account: only a failed call drops shares, and
then it drops all the flush had taken. -/
theorem step_account (db : Db) (es : List ShareEvent) {s s' : ShareService} {e : ShareEvent}
    (h : s.step e = some s') (dropped : Multiset ShareColumns) :
    ∃ batch, Drain.Step (account db es s dropped) (account db (es ++ [e]) s' (dropped + batch)) ∧
      (e.fails = false → batch = 0) ∧
      (e.fails = true → ∃ f ∈ s.flushes, batch = columnsOf f.pending) := by
  cases e with
  | bufferShare sh =>
      refine ⟨0, ?_, fun _ => rfl, by simp [ShareEvent.fails]⟩
      cases hc : sh.check with
      | error msg =>
          obtain rfl : s = s' := by
            simpa [ShareService.step, bufferShare, hc, Except.map, Except.toOption] using h
          convert Drain.Step.skip (account db es s dropped) using 1
          simp [account, acceptedShares, hc, Except.toOption]
      | ok b =>
          obtain rfl : { s with buffer := s.buffer ++ [b] } = s' := by
            simpa [ShareService.step, bufferShare, hc, Except.map, Except.toOption] using h
          convert Drain.Step.accept (account db es s dropped) b.columns using 1
          simp [account, acceptedShares, hc, Except.toOption, add_assoc]
  | takeBuffer =>
      refine ⟨0, ?_, fun _ => rfl, by simp [ShareEvent.fails]⟩
      obtain rfl : takeBuffer s = s' := by simpa [ShareService.step] using h
      by_cases hb : s.buffer = []
      · convert Drain.Step.skip (account db es s dropped) using 1
        simp [account, takeBuffer, hb, acceptedShares]
      · convert Drain.Step.take (account db es s dropped) using 1
        simp [account, takeBuffer, hb, acceptedShares, takenColumns]
  | flushCall i answer now =>
      -- given up, written or under way
      obtain ⟨f, hf, ⟨rfl, rfl⟩ | ⟨rfl, rfl⟩ | ⟨rfl, g, hg, rfl⟩⟩ :=
        flushCall_cases (by simpa [ShareService.step] using h)
      · refine ⟨columnsOf f.pending, ?_, by simp [ShareEvent.fails],
          fun _ => ⟨f, List.mem_of_getElem? hf, rfl⟩⟩
        convert Drain.Step.drop (a := account db es s dropped) (takenColumns_eraseIdx hf) using 1
        simp [account, acceptedShares]
      · refine ⟨0, ?_, fun _ => rfl, by simp [ShareEvent.fails]⟩
        convert Drain.Step.store (a := account db es s dropped) (takenColumns_eraseIdx hf) using 1
        simp [account, acceptedShares]
      · refine ⟨0, ?_, fun _ => rfl, by simp [ShareEvent.fails]⟩
        convert Drain.Step.skip (account db es s dropped) using 1
        simp [account, acceptedShares, takenColumns_set hf hg]

/-- A flush that is under way has taken at least one share. -/
theorem step_flushes_nonempty {s s' : ShareService} {e : ShareEvent}
    (h : s.step e = some s') (hs : ∀ f ∈ s.flushes, f.pending ≠ []) :
    ∀ f ∈ s'.flushes, f.pending ≠ [] := by
  cases e with
  | bufferShare sh =>
      cases hc : sh.check with
      | error msg =>
          obtain rfl : s = s' := by
            simpa [ShareService.step, bufferShare, hc, Except.map, Except.toOption] using h
          exact hs
      | ok b =>
          obtain rfl : { s with buffer := s.buffer ++ [b] } = s' := by
            simpa [ShareService.step, bufferShare, hc, Except.map, Except.toOption] using h
          exact hs
  | takeBuffer =>
      obtain rfl : takeBuffer s = s' := by simpa [ShareService.step] using h
      by_cases hb : s.buffer = []
      · simpa [takeBuffer, hb] using hs
      · intro f hf
        simp only [takeBuffer, hb, if_false, List.mem_append, List.mem_singleton] at hf
        rcases hf with hf | rfl
        · exact hs f hf
        · exact hb
  | flushCall i answer now =>
      obtain ⟨f, hf, ⟨-, rfl⟩ | ⟨-, rfl⟩ | ⟨-, g, hg, rfl⟩⟩ :=
        flushCall_cases (by simpa [ShareService.step] using h)
      · exact fun f' hf' => hs f' (List.mem_of_mem_eraseIdx hf')
      · exact fun f' hf' => hs f' (List.mem_of_mem_eraseIdx hf')
      · intro f' hf'
        rcases List.mem_or_eq_of_mem_set hf' with hmem | rfl
        · exact hs f' hmem
        · rw [hg]
          exact hs f (List.mem_of_getElem? hf)

/-- What a run leaves behind: a balanced account in which something was
dropped exactly when a call failed. -/
def Accounted (db : Db) (es : List ShareEvent) (s : ShareService) : Prop :=
  (∀ f ∈ s.flushes, f.pending ≠ []) ∧
    ∃ dropped, (account db es s dropped).Balanced ∧
      (dropped = 0 ↔ ∀ e ∈ es, e.fails = false)

theorem run_accounted {db : Db} {es : List ShareEvent} {s : ShareService}
    (h : run ShareService.step (.boot db) es = some s) : Accounted db es s := by
  refine run_history (P := Accounted db) ?_ ?_ h
  · refine ⟨by simp [ShareService.boot], 0, ?_, by simp⟩
    simp [account, ShareService.boot, Drain.Account.Balanced, acceptedShares, takenColumns]
  · rintro es s e s' - ⟨hne, dropped, hbal, hiff⟩ hstep
    refine ⟨step_flushes_nonempty hstep hne, ?_⟩
    obtain ⟨batch, hacc, hok, hfail⟩ := step_account db es hstep dropped
    refine ⟨dropped + batch, hacc.balanced hbal, ?_⟩
    cases he : e.fails with
    | false => simp [hok he, he, hiff, or_imp, forall_and]
    | true =>
        obtain ⟨f, hf, rfl⟩ := hfail he
        simp [he, hne f hf, or_imp, forall_and]

/-- **Conservation.** Whenever no flush is under way, the accepted shares are
the inserted rows and the buffered shares if and only if no database call of a
flush has failed. -/
theorem conserved_iff_no_flush_failed (db : Db) (es : List ShareEvent) (s : ShareService)
    (h : run ShareService.step (.boot db) es = some s) (hidle : s.flushes = []) :
    Conserved db es s ↔ ∀ e ∈ es, e.fails = false := by
  obtain ⟨-, dropped, hbal, hiff⟩ := run_accounted h
  have htaken : (account db es s dropped).taken = 0 := by simp [account, hidle, takenColumns]
  rw [← hiff]
  exact hbal.conserved_iff htaken

/-- The database of a new installation. -/
def Db.initial : Db := Db.bootstrap ⟨[], [], [], [], 1, 1⟩ 0

def exampleShare : Share := ⟨1, ['a'], ['w'], some 5, 7, 0⟩

def flushedOnce : List ShareEvent :=
  [.bufferShare exampleShare, .takeBuffer, .flushCall 0 .ok 1, .flushCall 0 .ok 1,
    .flushCall 0 .ok 1, .flushCall 0 .ok 1]

theorem conserved_flushedOnce :
    Conserved .initial flushedOnce
      ⟨Db.initial.writeShares [⟨1, ['a'], ['w'], 5, 7, 0⟩] 1, [], []⟩ :=
  (conserved_iff_no_flush_failed .initial flushedOnce _ (by decide +kernel) rfl).mpr (by decide)

def beginFailed : List ShareEvent :=
  [.bufferShare exampleShare, .takeBuffer, .flushCall 0 .failed 1]

/-- The transaction cannot begin: the share is neither a row nor buffered. -/
theorem begin_failure_loses_share :
    run ShareService.step (.boot .initial) beginFailed = some (.boot .initial) ∧
      ¬ Conserved .initial beginFailed (.boot .initial) := by
  decide +kernel

end Reward
