import Unlucky21.Gateway.RewardSocket
import Unlucky21.Reward.PoolHandler
import Unlucky21.Reward.Leading
import Unlucky21.Reward.Solo

/-!
# What is recorded for a found block

The coinbase pays what `GetCoinbaseOutputs` answered for the template. The row
in `blocks` is computed again when the block is found: from the fees in the
gateway's message and from a `GetTop21` of its own.
-/

namespace Reward

open Wire Int64Arith Runs Gateway

/-! ## Tasks between their own steps -/

/-- The task an event belongs to. -/
def Event.task : Event → Option ℕ
  | .recordShare tid _ => some tid
  | .bufferShare tid => some tid
  | .blockFound tid _ => some tid
  | .blockQuery tid _ _ _ => some tid
  | .blockInsert tid _ _ => some tid
  | .refresh tid => some tid
  | .refreshQuery tid _ _ _ => some tid
  | .refreshStore tid => some tid
  | _ => none

theorem step_tasks_of_ne {h h' : PoolHandler} {e : Event} {tid : ℕ} (hs : h.step e = some h')
    (hne : e.task ≠ some tid) : h'.tasks tid = h.tasks tid := by
  have hne' : ∀ tid', e.task = some tid' → tid ≠ tid' := by
    rintro tid' ht rfl
    exact hne ht
  cases step_effect hs with
  | recordShare ht hdiff => exact setTask_tasks_of_ne h (hne' _ rfl) _
  | bufferShare ht => exact setTask_tasks_of_ne h (hne' _ rfl) _
  | blockFound ht => exact setTask_tasks_of_ne h (hne' _ rfl) _
  | blockQuery ht hq => exact setTask_tasks_of_ne h (hne' _ rfl) _
  | blockQueryFailed ht => exact setTask_tasks_of_ne h (hne' _ rfl) _
  | blockInsert ht => exact setTask_tasks_of_ne _ (hne' _ rfl) _
  | refresh ht => exact setTask_tasks_of_ne h (hne' _ rfl) _
  | refreshQuery ht hq => exact setTask_tasks_of_ne h (hne' _ rfl) _
  | refreshQueryFailed ht => exact setTask_tasks_of_ne h (hne' _ rfl) _
  | refreshStore ht => exact setTask_tasks_of_ne h (hne' _ rfl) _
  | pollBlock hp => rw [(checkBlock_frame h _ _ _ _ _ _).2.2]
  | notANumber ht hdiff => rfl
  | takeBuffer => rfl
  | flushCall hf => rfl
  | poll hp => rfl
  | pollFailed => rfl
  | assign hp => rfl
  | passDone hp => rfl

theorem run_tasks_of_ne {h h' : PoolHandler} {es : List Event} {tid : ℕ}
    (hne : ∀ e ∈ es, e.task ≠ some tid) (hr : run PoolHandler.step h es = some h') :
    h'.tasks tid = h.tasks tid := by
  induction es generalizing h with
  | nil =>
      obtain rfl : h = h' := by simpa using hr
      rfl
  | cons e es ih =>
      obtain ⟨h₁, hs, hr'⟩ := run_cons_iff.mp hr
      rw [ih (fun e he => hne e (by simp [he])) hr', step_tasks_of_ne hs (hne e (by simp))]

/-! ## Messages -/

/-- The found-block messages of a history come from the gateway. -/
def FromGateway (es : List Event) : Prop :=
  ∀ tid msg, Event.blockFound tid msg ∈ es →
    ∃ height hashHex finder, datumRewardBlockFound height hashHex finder = some msg

/-- The message a `BlockFound` call is working on. -/
def Task.message : Task → Option BlockFoundMsg
  | .blockFound bf => some bf.toBlockFoundMsg
  | .blockSnapshot bf _ => some bf.toBlockFoundMsg
  | _ => none

theorem message_setTask_ne {h : PoolHandler} {tid : ℕ} {task : Task} {msg : BlockFoundMsg}
    (ht : task.message = none) : ((h.setTask tid task).tasks tid).message ≠ some msg := by
  rw [setTask_tasks, ht]
  exact Option.some_ne_none msg ∘ Eq.symm

/-- A message in work was worked on before or has just come in. -/
theorem step_message {h h' : PoolHandler} {e : Event} {tid : ℕ} {msg : BlockFoundMsg}
    (hs : h.step e = some h') (hm : (h'.tasks tid).message = some msg) :
    (h.tasks tid).message = some msg ∨ e = .blockFound tid msg := by
  by_cases hne : e.task = some tid
  · cases step_effect hs with
    | blockFound ht =>
        cases hne
        rw [setTask_tasks] at hm
        cases hm
        exact .inr rfl
    | blockQuery ht hq =>
        cases hne
        rw [setTask_tasks] at hm
        cases hm
        exact .inl (by rw [ht]; rfl)
    | notANumber ht hdiff => exact .inl hm
    | recordShare ht hdiff =>
        cases hne
        exact absurd hm (message_setTask_ne rfl)
    | bufferShare ht =>
        cases hne
        exact absurd hm (message_setTask_ne (h := h) rfl)
    | blockQueryFailed ht =>
        cases hne
        exact absurd hm (message_setTask_ne rfl)
    | blockInsert ht =>
        cases hne
        exact absurd hm (message_setTask_ne rfl)
    | refresh ht =>
        cases hne
        exact absurd hm (message_setTask_ne rfl)
    | refreshQuery ht hq =>
        cases hne
        exact absurd hm (message_setTask_ne rfl)
    | refreshQueryFailed ht =>
        cases hne
        exact absurd hm (message_setTask_ne rfl)
    | refreshStore ht =>
        cases hne
        exact absurd hm (message_setTask_ne (h := h) rfl)
    | _ => cases hne
  · exact .inl (by rwa [← step_tasks_of_ne hs hne])

theorem run_message {db : Db} {h₀ h : PoolHandler} {es : List Event} {tid : ℕ}
    {msg : BlockFoundMsg} (hboot : PoolHandler.boot db = some h₀)
    (hr : run PoolHandler.step h₀ es = some h) (hm : (h.tasks tid).message = some msg) :
    Event.blockFound tid msg ∈ es := by
  refine run_history (P := fun es h => ∀ tid msg, (h.tasks tid).message = some msg →
    Event.blockFound tid msg ∈ es) ?_ ?_ hr tid msg hm
  · intro tid msg hm
    obtain ⟨roundID, -, rfl⟩ := Option.map_eq_some_iff.mp hboot
    cases hm
  · intro es s e s' _ hP hs tid msg hm
    rcases step_message hs hm with hold | rfl
    · exact List.mem_append_left _ (hP tid msg hold)
    · simp

/-! ## The pool's row -/

/-- A reply for fees `F` from a handler with the cache `cached`; later a
`BlockFound` call inserts `row`. At its query, at `queried`, the shares of the
block's round are `rows`, which the database has in the order `scan`. -/
inductive PoolRecord (F : ℤ) :
    List CoinbaseOutput → List Entry → List ShareRow → Time → List Text → BlockRow → Prop
  | intro {db : Db} {h₀ h t t₁ t₂ t₃ : PoolHandler} {es₀ es es' : List Event} {finder : Text}
      {outputs : List CoinbaseOutput} {tid : ℕ} {bf : BlockFound} {queried inserted : Time}
      {scan : List Text} {row : BlockRow}
      (boot : PoolHandler.boot db = some h₀)
      (before : run PoolHandler.step h₀ es₀ = some h)
      (reply : getCoinbaseOutputs h finder F = .ok outputs)
      (after : run PoolHandler.step h es = some t)
      (found : t.tasks tid = .blockFound bf)
      (query : t.step (.blockQuery tid .ok queried scan) = some t₁)
      (between : run PoolHandler.step t₁ es' = some t₂)
      (others : ∀ e ∈ es', e.task ≠ some tid)
      (insert : t₂.step (.blockInsert tid .ok inserted) = some t₃)
      (written : t₃.db.blocks = t₂.db.blocks ++ [row])
      (messages : FromGateway (es₀ ++ es)) :
      PoolRecord F outputs h.top21 (liveShares t.db.shares bf.roundID) queried scan row

/-- The row says what the coinbase of the reply paid. -/
def BlockRow.Matches (row : BlockRow) (F : ℤ) (outputs : List CoinbaseOutput) : Prop :=
  row.blockFeesSats = F ∧
    row.top21Snapshot.map (fun e => (e.address, e.amountSats)) =
      outputs.tail.dropLast.map fun o => (o.address, o.amountSats)

def addresses (entries : List Entry) : List Text := entries.map Entry.btcAddress

theorem insertBlock_row {db db' : Db} {bf : BlockFound} {snapshot : List Entry} {now : Time}
    {row : BlockRow} (h : insertBlock db bf snapshot now = some db')
    (hrow : db'.blocks = db.blocks ++ [row]) :
    row.blockFeesSats = bf.feesSats ∧ row.top21Snapshot = buildSnapshot snapshot bf.feesSats := by
  unfold insertBlock at h
  split_ifs at h
  obtain rfl := Option.some.inj h
  obtain rfl := List.singleton_inj.mp (List.append_cancel_left hrow)
  exact ⟨rfl, rfl⟩

variable {F : ℤ} {outputs : List CoinbaseOutput} {cached : List Entry} {rows : List ShareRow}
  {queried : Time} {scan : List Text} {row : BlockRow}

/-- The row written without an error has the addresses that led at the query and
the fees of the gateway's message, which are 0. -/
theorem PoolRecord.row_eq (h : PoolRecord F outputs cached rows queried scan row) :
    row.blockFeesSats = 0 ∧ ∃ entries, Leading rows queried scan (addresses entries) ∧
      row.top21Snapshot = buildSnapshot entries 0 := by
  obtain ⟨boot, before, -, after, found, query, between, others, insert, written, messages⟩ := h
  rename_i db h₀ h t t₁ t₂ t₃ es₀ es es' finder tid bf inserted
  have hfees : bf.feesSats = 0 := by
    have hrun : run PoolHandler.step h₀ (es₀ ++ es) = some t :=
      run_append_iff.mpr ⟨h, before, after⟩
    have hmessage : (t.tasks tid).message = some bf.toBlockFoundMsg := by
      rw [found]
      rfl
    have hmem := run_message boot hrun hmessage
    obtain ⟨height, hashHex, finder', hmsg⟩ := messages _ _ hmem
    exact feesSats_datumRewardBlockFound hmsg
  have hother := run_tasks_of_ne others between
  cases hres : getTop21 t.db bf.roundID queried scan with
  | error err =>
      -- the call has returned: there is nothing to insert
      have hidle : t₁ = t.setTask tid .idle := by
        simpa [PoolHandler.step, found, Reply.read, hres, Except.toOption, eq_comm] using query
      rw [hidle, setTask_tasks] at hother
      simp [PoolHandler.step, hother] at insert
  | ok entries =>
      have hsnap : t₁ = t.setTask tid (.blockSnapshot bf entries) := by
        simpa [PoolHandler.step, found, Reply.read, hres, Except.toOption, eq_comm] using query
      rw [hsnap, setTask_tasks] at hother
      have hleading : Leading (liveShares t.db.shares bf.roundID) queried scan
          (addresses entries) := map_getTop21_eq_ok_iff.mp (by rw [hres]; rfl)
      cases hins : insertBlock t₂.db bf entries inserted with
      | none =>
          have hsame : t₃.db.blocks = t₂.db.blocks := by
            obtain rfl : _ = t₃ := by simpa [PoolHandler.step, hother, Reply.write, hins] using insert
            rfl
          rw [hsame] at written
          simpa using congrArg List.length written
      | some db' =>
          have hdb : t₃.db = db' := by
            obtain rfl : _ = t₃ := by simpa [PoolHandler.step, hother, Reply.write, hins] using insert
            rfl
          obtain ⟨hf, hs⟩ := insertBlock_row hins (hdb ▸ written)
          exact ⟨hf.trans hfees, entries, hleading, hfees ▸ hs⟩

theorem PoolRecord.outputs_eq (h : PoolRecord F outputs cached rows queried scan row) :
    let total := int64 (subsidySats + F)
    outputs.tail.dropLast = ((addresses cached).take maxRankedSlots).map
      (⟨·, perSlot total (cut finderPercent total) (cut poolFeePercent total)⟩) := by
  obtain ⟨-, -, reply, -, -, -, -, -, -, -, -⟩ := h
  rw [getCoinbaseOutputs, buildOutputs_eq] at reply
  cases reply
  exact splitReward_ranked _ _ _ _ _

theorem PoolRecord.matches_iff (h : PoolRecord F outputs cached rows queried scan row) :
    row.Matches F outputs ↔
      F = 0 ∧ Leading rows queried scan ((addresses cached).take maxRankedSlots) := by
  obtain ⟨hfees, entries, hleading, hsnap⟩ := h.row_eq
  have hout := h.outputs_eq
  simp only [BlockRow.Matches, hfees, hsnap, hout]
  constructor
  · rintro ⟨rfl, hlist⟩
    refine ⟨rfl, ?_⟩
    have haddr := congrArg (List.map Prod.fst) hlist
    have hsame : addresses entries = (addresses cached).take maxRankedSlots := by
      simpa [buildSnapshot, addresses, Function.comp_def] using haddr
    exact hsame ▸ hleading
  · rintro ⟨rfl, hcached⟩
    refine ⟨rfl, ?_⟩
    rw [← hleading.unique hcached]
    simp [buildSnapshot, addresses, Function.comp_def]

/-! ## The solo pool's row -/

/-- A reply for fees `F`, and the row a gateway's message then adds. -/
inductive SoloRecord (F : ℤ) : List CoinbaseOutput → Solo.SoloBlockRow → Prop
  | intro {finder hashHex finderAddr : Text} {height : ℤ} {msg : BlockFoundMsg}
      {rows rows' : List Solo.SoloBlockRow} {row : Solo.SoloBlockRow}
      (message : datumRewardBlockFound height hashHex finderAddr = some msg)
      (insert : Solo.blockFound rows msg = some rows')
      (written : rows' = rows ++ [row]) :
      SoloRecord F (Solo.getCoinbaseOutputs finder F) row

theorem SoloRecord.payout_iff {F : ℤ} (h0 : 0 ≤ F) (hF : InRange F)
    {outputs : List CoinbaseOutput} {row : Solo.SoloBlockRow} (h : SoloRecord F outputs row) :
    outputs.head?.map CoinbaseOutput.amountSats = some row.payoutSats ↔ F = 0 := by
  obtain ⟨message, insert, written⟩ := h
  rename_i finder hashHex finderAddr height msg rows rows'
  have hrow : row = Solo.soloBlockRow msg := by
    unfold Solo.blockFound at insert
    split_ifs at insert with hadm hdup
    · obtain rfl := Option.some.inj insert
      simpa using congrArg List.length written
    · obtain rfl := Option.some.inj insert
      exact (List.singleton_inj.mp (List.append_cancel_left written)).symm
  have hpayout : row.payoutSats = Solo.finderPart (int64 (subsidySats + 0)) := by
    rw [hrow, ← feesSats_datumRewardBlockFound message]
    rfl
  rw [hpayout, ← Solo.finderPart_eq_iff h0 hF]
  simp [Solo.getCoinbaseOutputs, Solo.finderPart]

/-- **What is recorded.** For a block whose coinbase was built from the reply
for fees `F`: the pool's row matches the reply exactly when there were no fees
and the addresses paid still lead the block's round when it is found; the solo
row's payout is the finder's output exactly when there were no fees. -/
theorem record_matches_iff {F : ℤ} (h0 : 0 ≤ F) (hF : InRange F) :
    (∀ outputs cached rows queried scan row, PoolRecord F outputs cached rows queried scan row →
      (row.Matches F outputs ↔
        F = 0 ∧ Leading rows queried scan ((addresses cached).take maxRankedSlots))) ∧
    (∀ outputs row, SoloRecord F outputs row →
      (outputs.head?.map CoinbaseOutput.amountSats = some row.payoutSats ↔ F = 0)) :=
  ⟨fun _ _ _ _ _ _ h => h.matches_iff, fun _ _ h => h.payout_iff h0 hF⟩

/-! ## Blocks of a round with three addresses -/

def exampleMsg : BlockFoundMsg := ⟨800000, ['a'], ['m'], [], 0⟩

def exampleDb : Db := tableOf [('b', 7), ('a', 9), ('c', 7)]

def exampleEntries : List Entry := [⟨['a'], 9, 0, 1⟩, ⟨['b'], 7, 0, 2⟩, ⟨['c'], 7, 0, 2⟩]

def exampleRow : BlockRow :=
  ⟨1, 1, 800000, ['a'], 10, ['m'], [], buildSnapshot exampleEntries 0, 0, false, false⟩

theorem getTop21_exampleDb : getTop21 exampleDb 1 0 [] = .ok exampleEntries := by
  decide +kernel

/-- A handler of the round with the given cache. -/
def exampleHandler (cached : List Entry) : PoolHandler :=
  ⟨.boot exampleDb, 1, cached, fun _ => .idle, .idle⟩

def exampleOutputs (F : ℤ) (cached : List Entry) : List CoinbaseOutput :=
  let total := int64 (subsidySats + F)
  splitReward ['m'] total (cut finderPercent total) (cut poolFeePercent total) (addresses cached)

def exampleRefresh : List Event := [.refresh 0, .refreshQuery 0 .ok 0 [], .refreshStore 0]

theorem run_exampleRefresh :
    run PoolHandler.step (exampleHandler []) exampleRefresh = some (exampleHandler exampleEntries) := by
  have hrun : run PoolHandler.step (exampleHandler []) exampleRefresh =
      some { (((exampleHandler []).setTask 0 (.refresh 1)).setTask 0
        (.refreshed 1 exampleEntries)).setTask 0 .idle with top21 := exampleEntries } := rfl
  rw [hrun]
  simp [PoolHandler.setTask, exampleHandler]

theorem examplePoolRecord {es₀ : List Event} {cached : List Entry} (F : ℤ)
    (before : run PoolHandler.step (exampleHandler []) es₀ = some (exampleHandler cached))
    (quiet : ∀ tid msg, Event.blockFound tid msg ∉ es₀) :
    PoolRecord F (exampleOutputs F cached) cached (liveShares exampleDb.shares 1) 0 [] exampleRow := by
  let t := (exampleHandler cached).setTask 0 (.blockFound ⟨exampleMsg, 1⟩)
  let t₁ := t.setTask 0 (.blockSnapshot ⟨exampleMsg, 1⟩ exampleEntries)
  let t₃ := (t₁.setDb { exampleDb with blocks := [exampleRow], blockSeq := 2 }).setTask 0 .idle
  have boot : PoolHandler.boot exampleDb = some (exampleHandler []) := rfl
  have reply : getCoinbaseOutputs (exampleHandler cached) ['m'] F =
      .ok (exampleOutputs F cached) := buildOutputs_eq _ _ _ _
  have after : run PoolHandler.step (exampleHandler cached) [.blockFound 0 exampleMsg] = some t := rfl
  have found : t.tasks 0 = .blockFound ⟨exampleMsg, 1⟩ := rfl
  have query : t.step (.blockQuery 0 .ok 0 []) = some t₁ := by
    have hdb : t.db = exampleDb := rfl
    simp only [PoolHandler.step, found, hdb, getTop21_exampleDb]
    rfl
  have between : run PoolHandler.step t₁ [] = some t₁ := rfl
  have others : ∀ e ∈ ([] : List Event), e.task ≠ some 0 := by simp
  have insert : t₁.step (.blockInsert 0 .ok 10) = some t₃ := rfl
  have written : t₃.db.blocks = t₁.db.blocks ++ [exampleRow] := rfl
  have messages : FromGateway (es₀ ++ [.blockFound 0 exampleMsg]) := by
    intro tid msg hmem
    obtain ⟨rfl, rfl⟩ : tid = 0 ∧ msg = exampleMsg := by
      simpa [quiet] using hmem
    exact ⟨800000, ['a'], ['m'], rfl⟩
  exact .intro boot before reply after found query between others insert written messages

theorem exampleSoloRecord (F : ℤ) :
    SoloRecord F (Solo.getCoinbaseOutputs ['m'] F) (Solo.soloBlockRow exampleMsg) := by
  have message : datumRewardBlockFound 800000 ['a'] ['m'] = some exampleMsg := rfl
  have insert : Solo.blockFound [] exampleMsg = some [Solo.soloBlockRow exampleMsg] := by
    simp [Solo.blockFound, exampleMsg, varchar]
  exact .intro message insert rfl

/-- Without fees and with a cache as of the block, three ranked outputs are recorded. -/
theorem record_matches_without_fees :
    ((exampleOutputs 0 exampleEntries).tail.dropLast.map CoinbaseOutput.address =
        [['a'], ['b'], ['c']] ∧
      exampleRow.Matches 0 (exampleOutputs 0 exampleEntries)) ∧
    (Solo.getCoinbaseOutputs ['m'] 0).head?.map CoinbaseOutput.amountSats =
      some (Solo.soloBlockRow exampleMsg).payoutSats := by
  obtain ⟨hpool, hsolo⟩ := record_matches_iff le_rfl (⟨by norm_num, by norm_num⟩ : InRange 0)
  have hquery : (getTop21 exampleDb 1 0 []).map (List.map Entry.btcAddress) =
      .ok (addresses exampleEntries) := by
    rw [getTop21_exampleDb]
    rfl
  refine ⟨⟨by decide +kernel, ?_⟩, (hsolo _ _ (exampleSoloRecord 0)).mpr rfl⟩
  exact (hpool _ _ _ _ _ _ (examplePoolRecord 0 run_exampleRefresh (by simp [exampleRefresh]))).mpr
    ⟨rfl, map_getTop21_eq_ok_iff.mp hquery⟩

/-- One satoshi of fees, and the row says 0. Or no refresh since the start: the
coinbase pays no ranked address, and the row has three. -/
theorem record_mismatches :
    (PoolRecord 1 (exampleOutputs 1 exampleEntries) exampleEntries
        (liveShares exampleDb.shares 1) 0 [] exampleRow ∧
      ¬ exampleRow.Matches 1 (exampleOutputs 1 exampleEntries)) ∧
    (PoolRecord 0 (exampleOutputs 0 []) [] (liveShares exampleDb.shares 1) 0 [] exampleRow ∧
      ¬ exampleRow.Matches 0 (exampleOutputs 0 [])) ∧
    SoloRecord 1 (Solo.getCoinbaseOutputs ['m'] 1) (Solo.soloBlockRow exampleMsg) ∧
      (Solo.getCoinbaseOutputs ['m'] 1).head?.map CoinbaseOutput.amountSats ≠
        some (Solo.soloBlockRow exampleMsg).payoutSats := by
  have hboot : run PoolHandler.step (exampleHandler []) [] = some (exampleHandler []) := rfl
  refine ⟨⟨examplePoolRecord 1 run_exampleRefresh (by simp [exampleRefresh]), fun h => ?_⟩,
    ⟨examplePoolRecord 0 hboot (by simp), fun h => ?_⟩, exampleSoloRecord 1, by decide +kernel⟩
  · exact absurd h.1 (by decide)
  · exact absurd (congrArg List.length h.2) (by decide +kernel)

end Reward
