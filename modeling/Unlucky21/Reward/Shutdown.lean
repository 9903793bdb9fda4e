import Unlucky21.Reward.Buffer

/-!
# Shutting down

`main` waits for the signal, calls `FlushShares` once more with a context of its
own and returns. The flush loop calls it with the context the signal cancels. A
database call with a cancelled context fails; any other succeeds. A flush that
has the buffer when the signal comes, or takes it afterwards because its ticker
is ready, therefore keeps its shares from the last flush and loses them.
-/

namespace Reward

open Wire Runs

/-! ## State -/

/-- The goroutine of `startShareFlushLoop`: in its select, in `FlushShares` with
the buffer taken, or gone. -/
inductive FlushLoop
  | select
  | flushing (f : Flush)
  | stopped
deriving DecidableEq, Repr

inductive MainPhase
  | waiting
  | flushing (f : Flush)
  | returned
deriving DecidableEq, Repr

/-- `early` counts the shares at the head of the buffer that were accepted
before the signal. -/
structure Shutdown where
  db : Db
  buffer : List BufferedShare
  ticker : Bool
  cancelled : Bool
  loop : FlushLoop
  main : MainPhase
  early : ℕ
deriving DecidableEq, Repr

def Shutdown.boot (db : Db) : Shutdown := ⟨db, [], false, false, .select, .waiting, 0⟩

inductive ShutdownEvent
  | bufferShare (sh : Share)
  | tick
  | signal
  | loopDone
  | loopTake
  | loopCall (now : Time)
  | mainTake
  | mainCall (now : Time)
deriving DecidableEq, Repr

/-- The flush a call of `FlushShares` goes on with; none if nothing is buffered. -/
def takePending (db : Db) (buffer : List BufferedShare) : Option Flush :=
  (takeBuffer ⟨db, buffer, []⟩).flushes.head?

/-- The next database call of a flush, and the flush unless it is over. -/
def callFlush (db : Db) (f : Flush) (answer : Answer) (now : Time) : Option (Db × Option Flush) :=
  (flushCall ⟨db, [], [f]⟩ 0 answer now).map fun svc => (svc.db, svc.flushes.head?)

def FlushLoop.after : Option Flush → FlushLoop
  | none => .select
  | some f => .flushing f

def MainPhase.after : Option Flush → MainPhase
  | none => .returned
  | some f => .flushing f

def Shutdown.step (s : Shutdown) (e : ShutdownEvent) : Option Shutdown :=
  if s.main = .returned then none else
    match e with
    | .bufferShare sh =>
        match sh.check with
        | .ok b => some { s with buffer := s.buffer ++ [b] }
        | .error _ => some s
    | .tick => some { s with ticker := true }
    | .signal =>
        if s.cancelled then none
        else some { s with cancelled := true, early := s.buffer.length }
    | .loopDone =>
        if s.loop = .select ∧ s.cancelled then some { s with loop := .stopped } else none
    | .loopTake =>
        if s.loop = .select ∧ s.ticker then
          some { s with
            ticker := false
            buffer := []
            early := 0
            loop := .after (takePending s.db s.buffer) }
        else none
    | .loopCall now =>
        match s.loop with
        | .flushing f =>
            (callFlush s.db f (if s.cancelled then .failed else .ok) now).map fun (db, f') =>
              { s with db := db, loop := .after f' }
        | _ => none
    | .mainTake =>
        if s.main = .waiting ∧ s.cancelled then
          some { s with
            buffer := []
            early := 0
            main := .after (takePending s.db s.buffer) }
        else none
    | .mainCall now =>
        match s.main with
        | .flushing f =>
            (callFlush s.db f .ok now).map fun (db, f') => { s with db := db, main := .after f' }
        | _ => none

/-! ## Where the shares are -/

def ShutdownEvent.accepted : ShutdownEvent → List BufferedShare
  | .bufferShare sh => sh.check.toOption.toList
  | _ => []

/-- The shares a history got into the buffer before the signal. -/
def acceptedEarly : List ShutdownEvent → List BufferedShare
  | [] => []
  | .signal :: _ => []
  | e :: es => e.accepted ++ acceptedEarly es

def acceptedAll (es : List ShutdownEvent) : List BufferedShare := es.flatMap ShutdownEvent.accepted

/-- The columns of what a flush has taken. -/
def FlushLoop.taken : FlushLoop → Multiset ShareColumns
  | .flushing f => columnsOf f.pending
  | _ => 0

def MainPhase.taken : MainPhase → Multiset ShareColumns
  | .flushing f => columnsOf f.pending
  | _ => 0

@[simp] theorem taken_select : FlushLoop.select.taken = 0 := rfl

@[simp] theorem taken_stopped : FlushLoop.stopped.taken = 0 := rfl

@[simp] theorem taken_loop_flushing (f : Flush) :
    (FlushLoop.flushing f).taken = columnsOf f.pending := rfl

@[simp] theorem taken_waiting : MainPhase.waiting.taken = 0 := rfl

@[simp] theorem taken_returned : MainPhase.returned.taken = 0 := rfl

@[simp] theorem taken_main_flushing (f : Flush) :
    (MainPhase.flushing f).taken = columnsOf f.pending := rfl

theorem acceptedEarly_snoc_of_mem {es : List ShutdownEvent} (h : .signal ∈ es) (e : ShutdownEvent) :
    acceptedEarly (es ++ [e]) = acceptedEarly es := by
  induction es with
  | nil => cases h
  | cons e' es ih =>
      cases e' with
      | signal => rfl
      | _ =>
          have hmem : .signal ∈ es := by simpa using h
          simp [acceptedEarly, ih hmem]

theorem acceptedEarly_snoc_of_not_mem {es : List ShutdownEvent} (h : .signal ∉ es)
    (e : ShutdownEvent) : acceptedEarly (es ++ [e]) = acceptedEarly es ++ e.accepted := by
  induction es with
  | nil => cases e <;> simp [acceptedEarly, ShutdownEvent.accepted]
  | cons e' es ih =>
      have hmem : .signal ∉ es := fun hm => h (List.mem_cons_of_mem _ hm)
      cases e' with
      | signal => exact absurd List.mem_cons_self h
      | _ => simp [acceptedEarly, ih hmem]

theorem acceptedAll_snoc (es : List ShutdownEvent) (e : ShutdownEvent) :
    acceptedAll (es ++ [e]) = acceptedAll es ++ e.accepted := by
  simp [acceptedAll]

theorem takePending_eq (db : Db) (buffer : List BufferedShare) :
    takePending db buffer = if buffer = [] then none else some ⟨buffer, .begin, 0⟩ := by
  unfold takePending takeBuffer
  split <;> rfl

@[simp] theorem taken_loop_takePending (db : Db) (buffer : List BufferedShare) :
    (FlushLoop.after (takePending db buffer)).taken = columnsOf buffer := by
  rw [takePending_eq]
  split
  next h => rw [h]; rfl
  next => rfl

@[simp] theorem taken_main_takePending (db : Db) (buffer : List BufferedShare) :
    (MainPhase.after (takePending db buffer)).taken = columnsOf buffer := by
  rw [takePending_eq]
  split
  next h => rw [h]; rfl
  next => rfl

/-- A call is over without effect, is over and has stored the shares, or goes on with them. -/
theorem callFlush_cases {db db' : Db} {f : Flush} {answer : Answer} {now : Time} {f' : Option Flush}
    (h : callFlush db f answer now = some (db', f')) :
    (answer = .failed ∧ db' = db ∧ f' = none) ∨
      (answer = .ok ∧ db' = db.writeShares f.pending f.now ∧ f' = none) ∨
      (answer = .ok ∧ db' = db ∧ ∃ g : Flush, f' = some g ∧ g.pending = f.pending) := by
  obtain ⟨svc, hcall, heq⟩ := Option.map_eq_some_iff.mp h
  obtain ⟨rfl, rfl⟩ := Prod.mk.inj heq
  obtain ⟨f₀, hf₀, ⟨ha, rfl⟩ | ⟨ha, rfl⟩ | ⟨ha, g, hg, rfl⟩⟩ := flushCall_cases hcall
  all_goals obtain rfl : f = f₀ := by simpa using hf₀
  · exact .inl ⟨ha, rfl, rfl⟩
  · exact .inr (.inl ⟨ha, rfl, rfl⟩)
  · exact .inr (.inr ⟨ha, rfl, g, rfl, hg⟩)

/-! ## Inversion -/

/-- The ways a step can go, each with what it requires and what it leaves. -/
inductive ShutdownEffect (s : Shutdown) : ShutdownEvent → Shutdown → Prop
  | accept {sh b} (hb : sh.check = .ok b) :
      ShutdownEffect s (.bufferShare sh) { s with buffer := s.buffer ++ [b] }
  | reject {sh msg} (hb : sh.check = .error msg) : ShutdownEffect s (.bufferShare sh) s
  | tick : ShutdownEffect s .tick { s with ticker := true }
  | signal (hc : s.cancelled = false) :
      ShutdownEffect s .signal { s with cancelled := true, early := s.buffer.length }
  | loopDone (hl : s.loop = .select) : ShutdownEffect s .loopDone { s with loop := .stopped }
  | loopTake (hl : s.loop = .select) :
      ShutdownEffect s .loopTake { s with
        ticker := false
        buffer := []
        early := 0
        loop := .after (takePending s.db s.buffer) }
  | loopFail {now f} (hl : s.loop = .flushing f) (hc : s.cancelled = true) :
      ShutdownEffect s (.loopCall now) { s with loop := .select }
  | loopStore {now f} (hl : s.loop = .flushing f) (hc : s.cancelled = false) :
      ShutdownEffect s (.loopCall now)
        { s with db := s.db.writeShares f.pending f.now, loop := .select }
  | loopOn {now f} {g : Flush} (hl : s.loop = .flushing f) (hc : s.cancelled = false)
      (hg : g.pending = f.pending) : ShutdownEffect s (.loopCall now) { s with loop := .flushing g }
  | mainTake (hm : s.main = .waiting) (hc : s.cancelled = true) :
      ShutdownEffect s .mainTake { s with
        buffer := []
        early := 0
        main := .after (takePending s.db s.buffer) }
  | mainStore {now f} (hm : s.main = .flushing f) :
      ShutdownEffect s (.mainCall now)
        { s with db := s.db.writeShares f.pending f.now, main := .returned }
  | mainOn {now f} {g : Flush} (hm : s.main = .flushing f) (hg : g.pending = f.pending) :
      ShutdownEffect s (.mainCall now) { s with main := .flushing g }

theorem shutdown_effect {s s' : Shutdown} {e : ShutdownEvent} (hs : s.step e = some s') :
    ShutdownEffect s e s' := by
  have hret : ¬ s.main = .returned := by
    intro hret
    simp [Shutdown.step, hret] at hs
  simp only [Shutdown.step, if_neg hret] at hs
  cases e with
  | bufferShare sh =>
      simp only at hs
      split at hs <;> obtain rfl := Option.some.inj hs
      · exact .accept ‹_›
      · exact .reject ‹_›
  | tick =>
      obtain rfl := Option.some.inj hs
      exact .tick
  | signal =>
      -- the context is cancelled once
      cases hc : s.cancelled with
      | true => simp [hc] at hs
      | false =>
          simp only [hc, Bool.false_eq_true, if_false, Option.some.injEq] at hs
          obtain rfl := hs
          exact .signal hc
  | loopDone =>
      simp only [Option.ite_none_right_eq_some, Option.some.injEq] at hs
      obtain ⟨⟨hl, -⟩, rfl⟩ := hs
      exact .loopDone hl
  | loopTake =>
      simp only [Option.ite_none_right_eq_some, Option.some.injEq] at hs
      obtain ⟨⟨hl, -⟩, rfl⟩ := hs
      exact .loopTake hl
  | loopCall now =>
      simp only at hs
      split at hs
      next f hl =>
        obtain ⟨⟨db', f'⟩, hcall, rfl⟩ := Option.map_eq_some_iff.mp hs
        -- the loop's transaction uses the cancelled context: every call fails after the signal
        rcases Bool.eq_false_or_eq_true s.cancelled with hc | hc
        · simp only [hc, if_true] at hcall
          rcases callFlush_cases hcall with ⟨-, rfl, rfl⟩ | ⟨hno, -⟩ | ⟨hno, -⟩
          · exact .loopFail hl hc
          · cases hno
          · cases hno
        · simp only [hc, Bool.false_eq_true, if_false] at hcall
          rcases callFlush_cases hcall with ⟨hno, -⟩ | ⟨-, rfl, rfl⟩ | ⟨-, rfl, g, rfl, hg⟩
          · cases hno
          · exact .loopStore hl hc
          · exact .loopOn hl hc hg
      next => cases hs
  | mainTake =>
      simp only [Option.ite_none_right_eq_some, Option.some.injEq] at hs
      obtain ⟨⟨hm, hc⟩, rfl⟩ := hs
      exact .mainTake hm hc
  | mainCall now =>
      simp only at hs
      split at hs
      next f hm =>
        obtain ⟨⟨db', f'⟩, hcall, rfl⟩ := Option.map_eq_some_iff.mp hs
        -- the last flush has a context of its own, so its calls succeed
        rcases callFlush_cases hcall with ⟨hno, -⟩ | ⟨-, rfl, rfl⟩ | ⟨-, rfl, g, rfl, hg⟩
        · cases hno
        · exact .mainStore hm
        · exact .mainOn hm hg
      next => cases hs

/-! ## Nothing is stored twice -/

/-- All shares that are stored, buffered or taken. -/
def Shutdown.mass (s : Shutdown) : Multiset ShareColumns :=
  s.db.shareColumns + columnsOf s.buffer + s.loop.taken + s.main.taken

theorem accepted_ok {sh : Share} {b : BufferedShare} (hb : sh.check = .ok b) :
    (ShutdownEvent.bufferShare sh).accepted = [b] := by
  simp [ShutdownEvent.accepted, hb, Except.toOption]

theorem accepted_error {sh : Share} {msg : String} (hb : sh.check = .error msg) :
    (ShutdownEvent.bufferShare sh).accepted = [] := by
  simp [ShutdownEvent.accepted, hb, Except.toOption]

/-- A step adds the share it accepts at most. -/
theorem step_mass_le {s s' : Shutdown} {e : ShutdownEvent} (hs : s.step e = some s') :
    s'.mass ≤ s.mass + columnsOf e.accepted := by
  cases shutdown_effect hs with
  | accept hb =>
      refine le_of_eq ?_
      simp only [Shutdown.mass, accepted_ok hb, columnsOf_append]
      abel
  | reject hb => exact Multiset.le_add_right _ _
  | tick => exact Multiset.le_add_right _ _
  | signal hc => exact Multiset.le_add_right _ _
  | loopDone hl => simp [Shutdown.mass, hl]
  | loopTake hl => simp [Shutdown.mass, hl, ShutdownEvent.accepted]
  | loopFail hl hc =>
      simp only [Shutdown.mass, hl, taken_select, taken_loop_flushing, ShutdownEvent.accepted,
        columnsOf_nil, add_zero]
      exact add_le_add (Multiset.le_add_right _ _) le_rfl
  | loopStore hl hc =>
      refine le_of_eq ?_
      simp only [Shutdown.mass, hl, taken_select, taken_loop_flushing, shareColumns_writeShares,
        ShutdownEvent.accepted, columnsOf_nil]
      abel
  | loopOn hl hc hg => simp [Shutdown.mass, hl, hg]
  | mainTake hm hc =>
      refine le_of_eq ?_
      simp only [Shutdown.mass, hm, taken_main_takePending, taken_waiting, ShutdownEvent.accepted,
        columnsOf_nil]
      abel
  | mainStore hm =>
      refine le_of_eq ?_
      simp only [Shutdown.mass, hm, taken_returned, taken_main_flushing, shareColumns_writeShares,
        ShutdownEvent.accepted, columnsOf_nil]
      abel
  | mainOn hm hg => simp [Shutdown.mass, hm, hg]

theorem run_mass_le {db : Db} {s : Shutdown} {es : List ShutdownEvent}
    (hr : run Shutdown.step (.boot db) es = some s) :
    s.mass ≤ db.shareColumns + columnsOf (acceptedAll es) := by
  refine run_history (P := fun es s => s.mass ≤ db.shareColumns + columnsOf (acceptedAll es)) ?_ ?_ hr
  · simp [Shutdown.boot, Shutdown.mass, FlushLoop.taken, MainPhase.taken, acceptedAll]
  · intro es s e s' _ hle hs
    rw [acceptedAll_snoc, columnsOf_append, ← add_assoc]
    exact (step_mass_le hs).trans (add_le_add_left hle _)

/-! ## What keeps the early shares -/

/-- No flush is under way when the signal comes, and afterwards the loop takes
no share that was there before. -/
def Shutdown.Clean (s : Shutdown) : ShutdownEvent → Prop
  | .signal => s.loop.taken = 0
  | .loopTake => s.cancelled → s.early = 0
  | _ => True

/-- Where shares accepted before the signal can be without being lost. -/
def Shutdown.safe (s : Shutdown) : Multiset ShareColumns :=
  if s.cancelled then s.db.shareColumns + columnsOf (s.buffer.take s.early) + s.main.taken
  else s.db.shareColumns + columnsOf s.buffer + s.loop.taken

/-- What holds after a history whose steps were all clean. -/
structure EarlyKept (db : Db) (es : List ShutdownEvent) (s : Shutdown) : Prop where
  signal : s.cancelled = true ↔ .signal ∈ es
  waiting : s.cancelled = false → s.main = .waiting
  early_le : s.early ≤ s.buffer.length
  early_eq : s.main ≠ .waiting → s.early = 0
  kept : db.shareColumns + columnsOf (acceptedEarly es) ≤ s.safe

theorem EarlyKept.boot (db : Db) : EarlyKept db [] (.boot db) where
  signal := by simp [Shutdown.boot]
  waiting _ := rfl
  early_le := le_rfl
  early_eq _ := rfl
  kept := by simp [Shutdown.safe, Shutdown.boot, acceptedEarly]

/-- The early shares of a history one event longer. -/
theorem EarlyKept.early_snoc {db : Db} {es : List ShutdownEvent} {s : Shutdown}
    (h : EarlyKept db es s) (e : ShutdownEvent) :
    columnsOf (acceptedEarly (es ++ [e])) =
      columnsOf (acceptedEarly es) + if s.cancelled then 0 else columnsOf e.accepted := by
  by_cases hc : s.cancelled = true
  · rw [if_pos hc, add_zero, acceptedEarly_snoc_of_mem (h.signal.mp hc)]
  · rw [if_neg hc, acceptedEarly_snoc_of_not_mem (fun hm => hc (h.signal.mpr hm)), columnsOf_append]

theorem EarlyKept.signal_snoc {db : Db} {es : List ShutdownEvent} {s s' : Shutdown}
    (h : EarlyKept db es s) {e : ShutdownEvent} (he : e ≠ .signal)
    (hc : s'.cancelled = s.cancelled) : s'.cancelled = true ↔ .signal ∈ es ++ [e] := by
  rw [hc, h.signal]
  simp [he.symm]

/-- `main` moves on only after the signal. -/
theorem EarlyKept.cancelled_of_main {db : Db} {es : List ShutdownEvent} {s : Shutdown}
    (h : EarlyKept db es s) (hmain : s.main ≠ .waiting) : s.cancelled = true := by
  by_contra hc
  exact hmain (h.waiting (by simpa using hc))

/-- A step that accepts nothing, and leaves the buffer and `main` alone. -/
theorem EarlyKept.quiet {db : Db} {es : List ShutdownEvent} {s s' : Shutdown} {e : ShutdownEvent}
    (h : EarlyKept db es s) (he : e ≠ .signal) (haccepted : e.accepted = [])
    (hc : s'.cancelled = s.cancelled) (hmain : s'.main = s.main) (hearly : s'.early = s.early)
    (hbuffer : s'.buffer = s.buffer) (hsafe : s.safe ≤ s'.safe) :
    EarlyKept db (es ++ [e]) s' where
  signal := h.signal_snoc he hc
  waiting hno := hmain.trans (h.waiting (hc.symm.trans hno))
  early_le := by
    rw [hearly, hbuffer]
    exact h.early_le
  early_eq hne := hearly.trans (h.early_eq (hmain ▸ hne))
  kept := by
    rw [h.early_snoc e, haccepted]
    simpa using h.kept.trans hsafe

/-- A clean step keeps the early shares. -/
theorem EarlyKept.step {db : Db} {es : List ShutdownEvent} {s s' : Shutdown} {e : ShutdownEvent}
    (h : EarlyKept db es s) (hclean : s.Clean e) (hs : s.step e = some s') :
    EarlyKept db (es ++ [e]) s' := by
  have hkept := h.kept
  have hearly := h.early_snoc e
  cases shutdown_effect hs with
  | @accept sh b hb =>
      refine ⟨h.signal_snoc (by simp) rfl, h.waiting, ?_, h.early_eq, ?_⟩
      · simpa using h.early_le.trans (Nat.le_succ _)
      · rw [hearly, accepted_ok hb, ← add_assoc]
        -- a late share stands behind the early ones in the buffer; an early one is safe there
        rcases Bool.eq_false_or_eq_true s.cancelled with hc | hc
        · simpa [Shutdown.safe, hc, List.take_append_of_le_length h.early_le] using hkept
        · simp only [Shutdown.safe, hc, Bool.false_eq_true, if_false, columnsOf_append] at hkept ⊢
          calc db.shareColumns + columnsOf (acceptedEarly es) + columnsOf [b]
              ≤ s.db.shareColumns + columnsOf s.buffer + s.loop.taken + columnsOf [b] :=
                add_le_add hkept le_rfl
            _ = s.db.shareColumns + (columnsOf s.buffer + columnsOf [b]) + s.loop.taken := by abel
  | reject hb => exact h.quiet (by simp) (accepted_error hb) rfl rfl rfl rfl le_rfl
  | tick => exact h.quiet (by simp) rfl rfl rfl rfl rfl le_rfl
  | signal hc =>
      have hmain := h.waiting hc
      -- what the loop holds stops being safe; a clean signal finds it empty-handed
      have hloop : s.loop.taken = 0 := hclean
      refine ⟨by simp, fun hno => absurd hno (by simp), le_rfl, fun hne => absurd hmain hne, ?_⟩
      rw [hearly]
      simpa [Shutdown.safe, hc, hmain, hloop, ShutdownEvent.accepted] using hkept
  | loopDone hl =>
      refine h.quiet (by simp) rfl rfl rfl rfl rfl (le_of_eq ?_)
      simp [Shutdown.safe, hl]
  | loopTake hl =>
      refine ⟨h.signal_snoc (by simp) rfl, h.waiting, le_rfl, fun _ => rfl, ?_⟩
      rw [hearly]
      rcases Bool.eq_false_or_eq_true s.cancelled with hc | hc
      · -- the loop takes late shares only
        have hzero : s.early = 0 := hclean hc
        simpa [Shutdown.safe, hc, hzero, ShutdownEvent.accepted] using hkept
      · simpa [Shutdown.safe, hc, hl, ShutdownEvent.accepted] using hkept
  | loopFail hl hc =>
      -- nothing the loop holds after the signal counts as safe
      refine h.quiet (by simp) rfl rfl rfl rfl rfl (le_of_eq ?_)
      simp [Shutdown.safe, hc]
  | loopStore hl hc =>
      refine h.quiet (by simp) rfl rfl rfl rfl rfl (le_of_eq ?_)
      simp only [Shutdown.safe, hc, hl, Bool.false_eq_true, if_false, taken_loop_flushing,
        taken_select, shareColumns_writeShares, add_zero]
      exact add_right_comm _ _ _
  | loopOn hl hc hg =>
      refine h.quiet (by simp) rfl rfl rfl rfl rfl (le_of_eq ?_)
      simp [Shutdown.safe, hc, hl, hg]
  | mainTake hm hc =>
      refine ⟨h.signal_snoc (by simp) rfl, fun hno => absurd hc (by simpa using hno), le_rfl,
        fun _ => rfl, ?_⟩
      rw [hearly]
      simp only [Shutdown.safe, hc, hm, if_true, taken_waiting, add_zero, List.take_nil,
        columnsOf_nil, taken_main_takePending] at hkept ⊢
      refine hkept.trans (add_le_add le_rfl ?_)
      -- the early shares are among those `main` takes
      calc columnsOf (s.buffer.take s.early)
          ≤ columnsOf (s.buffer.take s.early) + columnsOf (s.buffer.drop s.early) :=
            Multiset.le_add_right _ _
        _ = columnsOf s.buffer := by rw [← columnsOf_append, List.take_append_drop]
  | @mainStore now f hm =>
      have hzero : s.early = 0 := h.early_eq (by simp [hm])
      have hc := h.cancelled_of_main (by simp [hm])
      refine ⟨h.signal_snoc (by simp) rfl, fun hno => absurd hc (by simpa using hno), h.early_le,
        fun _ => hzero, ?_⟩
      rw [hearly]
      simpa [Shutdown.safe, hc, hm, hzero, ShutdownEvent.accepted] using hkept
  | mainOn hm hg =>
      have hzero : s.early = 0 := h.early_eq (by simp [hm])
      have hc := h.cancelled_of_main (by simp [hm])
      refine ⟨h.signal_snoc (by simp) rfl, fun hno => absurd hc (by simpa using hno), h.early_le,
        fun _ => hzero, ?_⟩
      rw [hearly]
      simpa [Shutdown.safe, hc, hm, hzero, hg, ShutdownEvent.accepted] using hkept

theorem run_earlyKept {db : Db} {s : Shutdown} {es : List ShutdownEvent}
    (hclean : Every Shutdown.step Shutdown.Clean (.boot db) es)
    (hr : run Shutdown.step (.boot db) es = some s) : EarlyKept db es s :=
  run_history_of_every (EarlyKept.boot db) (fun _ _ _ _ _ h hok hs => h.step hok hs) hclean hr

/-- When `main` has returned, everything that is safe is stored. -/
theorem EarlyKept.safe_of_returned {db : Db} {es : List ShutdownEvent} {s : Shutdown}
    (h : EarlyKept db es s) (hret : s.main = .returned) : s.safe = s.db.shareColumns := by
  have hzero : s.early = 0 := h.early_eq (by simp [hret])
  have hc := h.cancelled_of_main (by simp [hret])
  simp [Shutdown.safe, hc, hret, hzero]

/-- **The last flush catches everything.** If the flush loop is in no flush when
the signal comes and takes no share from before it afterwards, then `main`
returns with every such share stored, and none stored twice. -/
theorem shutdown_keeps_early {db : Db} {s : Shutdown} {es : List ShutdownEvent}
    (hclean : Every Shutdown.step Shutdown.Clean (.boot db) es)
    (hr : run Shutdown.step (.boot db) es = some s) (hret : s.main = .returned) :
    db.shareColumns + columnsOf (acceptedEarly es) ≤ s.db.shareColumns ∧
      s.db.shareColumns ≤ db.shareColumns + columnsOf (acceptedAll es) := by
  have hkept := run_earlyKept hclean hr
  constructor
  · exact hkept.safe_of_returned hret ▸ hkept.kept
  · refine le_trans ?_ (run_mass_le hr)
    rw [Shutdown.mass, add_assoc, add_assoc]
    exact Multiset.le_add_right _ _

instance (s : Shutdown) (e : ShutdownEvent) : Decidable (s.Clean e) := by
  cases e <;> unfold Shutdown.Clean <;> infer_instance

/-- The share is buffered, the signal comes, `main` flushes. -/
def drained : List ShutdownEvent :=
  [.bufferShare exampleShare, .tick, .signal, .mainTake, .loopTake, .mainCall 1, .mainCall 1,
    .mainCall 1, .mainCall 1]

theorem shutdown_keeps_drained :
    Db.initial.shareColumns + columnsOf (acceptedEarly drained) ≤
        (Db.initial.writeShares [⟨1, ['a'], ['w'], 5, 7, 0⟩] 1).shareColumns ∧
      (Db.initial.writeShares [⟨1, ['a'], ['w'], 5, 7, 0⟩] 1).shareColumns ≤
        Db.initial.shareColumns + columnsOf (acceptedAll drained) :=
  @shutdown_keeps_early .initial
    ⟨Db.initial.writeShares [⟨1, ['a'], ['w'], 5, 7, 0⟩] 1, [], false, true, .select, .returned, 0⟩
    drained (by decide +kernel) (by decide +kernel) rfl

/-- The flush loop has the buffer when the signal comes. -/
def caught : List ShutdownEvent :=
  [.bufferShare exampleShare, .tick, .loopTake, .loopCall 1, .signal, .loopCall 1, .mainTake]

/-- Its context is cancelled and `main` finds nothing to flush: the share is lost. -/
theorem shutdown_loses_caught :
    run Shutdown.step (.boot .initial) caught =
        some ⟨.initial, [], false, true, .select, .returned, 0⟩ ∧
      ¬ Db.initial.shareColumns + columnsOf (acceptedEarly caught) ≤ Db.initial.shareColumns := by
  decide +kernel

end Reward
