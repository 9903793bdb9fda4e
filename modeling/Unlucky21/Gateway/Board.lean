import Unlucky21.Gateway.Delivery
import Unlucky21.Gateway.Service
import Unlucky21.Reward.Top21

/-!
# The leaderboard behind the socket

Only what passed the gateway's filters reaches the table, and only addresses of
the table reach the cached leaderboard. So the outputs of every coinbase call,
whenever it is made, are such as the gateway can read back, and the query for
the leaderboard never fails on a share that came over the socket.
-/

namespace Gateway

open Wire CText Reward Runs SignificantDigits Int64Arith

/-! ## Where cached addresses come from -/

/-- At most 21 entries, of addresses that have a share. -/
def FromTable (db : Db) (entries : List Entry) : Prop :=
  entries.length ≤ 21 ∧ ∀ e ∈ entries, e.btcAddress ∈ db.shares.map ShareRow.btcAddress

theorem FromTable.mono {db db' : Db} {entries : List Entry} (h : FromTable db entries)
    (hrows : ∃ added, db'.shares = db.shares ++ added) : FromTable db' entries := by
  obtain ⟨added, hadded⟩ := hrows
  refine ⟨h.1, fun e he => ?_⟩
  rw [hadded, List.map_append]
  exact List.mem_append_left _ (h.2 e he)

theorem map_btcAddress_of_mapM {rows : List ShareRow} {now : Time} :
    ∀ {l : List Text} {entries : List Entry}, l.mapM (scanEntry rows now) = .ok entries →
      entries.map Entry.btcAddress = l
  | [], entries, h => by
      obtain rfl := Except.ok.inj h
      rfl
  | a :: l, entries, h => by
      rw [List.mapM_cons] at h
      cases hentry : scanEntry rows now a with
      | error err => rw [hentry] at h; cases h
      | ok e =>
          cases hrest : l.mapM (scanEntry rows now) with
          | error err => rw [hentry, hrest] at h; cases h
          | ok rest =>
              rw [hentry, hrest] at h
              obtain rfl := Except.ok.inj h
              have haddress : e.btcAddress = a := by
                unfold scanEntry at hentry
                split at hentry
                · obtain rfl := Except.ok.inj hentry
                  rfl
                · cases hentry
              rw [List.map_cons, haddress, map_btcAddress_of_mapM hrest]

theorem getTop21_fromTable {db : Db} {roundID : ℕ} {now : Time} {scan : List Text}
    {entries : List Entry} (h : getTop21 db roundID now scan = .ok entries) :
    FromTable db entries := by
  unfold getTop21 at h
  simp only at h
  split_ifs at h
  have hmap := map_btcAddress_of_mapM h
  refine ⟨?_, fun e he => ?_⟩
  · rw [← List.length_map (f := Entry.btcAddress), hmap]
    exact List.length_take_le _ _
  · have hmem : e.btcAddress ∈ entries.map Entry.btcAddress := List.mem_map_of_mem he
    rw [hmap] at hmem
    have hrecent := (List.perm_insertionSort _ _).mem_iff.mp (List.mem_of_mem_take hmem)
    obtain ⟨r, hr, haddress⟩ := List.mem_map.mp (mem_addresses_of_recent hrecent)
    exact List.mem_map.mpr ⟨r, (mem_liveShares.mp hr).1, haddress⟩

section

variable {h h' : PoolHandler} {e : Event}

/-- Where the cached list, and those of the refreshes under way, come from. -/
structure BoardStep (h h' : PoolHandler) : Prop where
  cached : h'.top21 = h.top21 ∨ h'.top21 = [] ∨ ∃ tid n, h.tasks tid = .refreshed n h'.top21
  refreshed : ∀ tid n entries, h'.tasks tid = .refreshed n entries →
    h.tasks tid = .refreshed n entries ∨ ∃ now scan, getTop21 h.db n now scan = .ok entries

/-- No task is set. -/
theorem BoardStep.of_tasks (hcached : h'.top21 = h.top21 ∨ h'.top21 = [])
    (htasks : h'.tasks = h.tasks) : BoardStep h h' :=
  ⟨hcached.imp_right .inl, fun _ _ _ ht => .inl (htasks ▸ ht)⟩

/-- One task is set. -/
theorem BoardStep.of_task
    (hcached : h'.top21 = h.top21 ∨ ∃ tid n, h.tasks tid = .refreshed n h'.top21)
    {tid : ℕ} {task : Task} (htasks : h'.tasks = Function.update h.tasks tid task)
    (htask : ∀ n entries, task = .refreshed n entries →
      ∃ now scan, getTop21 h.db n now scan = .ok entries) : BoardStep h h' := by
  refine ⟨hcached.imp_right .inr, fun tid' n entries ht => ?_⟩
  rw [htasks] at ht
  by_cases htid : tid' = tid
  · subst htid
    rw [Function.update_self] at ht
    exact .inr (htask n entries ht)
  · rw [Function.update_of_ne htid] at ht
    exact .inl ht

theorem boardStep_of_step (hs : h.step e = some h') : BoardStep h h' := by
  cases step_effect hs with
  | notANumber ht hdiff => exact .of_tasks (.inl rfl) rfl
  | recordShare ht hdiff => exact .of_task (.inl rfl) rfl (by simp)
  | bufferShare ht => exact .of_task (.inl rfl) rfl (by simp)
  | takeBuffer => exact .of_tasks (.inl rfl) rfl
  | flushCall hf => exact .of_tasks (.inl rfl) rfl
  | blockFound ht => exact .of_task (.inl rfl) rfl (by simp)
  | blockQuery ht hq => exact .of_task (.inl rfl) rfl (by simp)
  | blockQueryFailed ht => exact .of_task (.inl rfl) rfl (by simp)
  | blockInsert ht => exact .of_task (.inl rfl) rfl (by simp)
  | refresh ht => exact .of_task (.inl rfl) rfl (by simp)
  | @refreshQuery tid reply now scan roundID entries ht hq =>
      refine .of_task (.inl rfl) rfl fun n entries' heq => ?_
      obtain ⟨rfl, rfl⟩ := Task.refreshed.inj heq
      unfold Reply.read at hq
      split_ifs at hq
      cases htop : getTop21 h.db roundID now scan with
      | error err => rw [htop] at hq; cases hq
      | ok entries' =>
          rw [htop] at hq
          obtain rfl := Option.some.inj hq
          exact ⟨now, scan, htop⟩
  | refreshQueryFailed ht => exact .of_task (.inl rfl) rfl (by simp)
  | refreshStore ht => exact .of_task (.inr ⟨_, _, ht⟩) rfl (by simp)
  | poll hp => exact .of_tasks (.inl rfl) rfl
  | pollFailed => exact .of_tasks (.inl rfl) rfl
  | pollBlock hp =>
      obtain ⟨-, htop, htasks⟩ := checkBlock_frame h _ _ _ _ _ _
      exact .of_tasks (.inl htop) htasks
  | assign hp => exact .of_tasks (.inr rfl) rfl
  | passDone hp => exact .of_tasks (.inl rfl) rfl

theorem step_rows (hs : h.step e = some h') : ∃ added, h'.db.shares = h.db.shares ++ added := by
  have hdecision := step_decision hs
  generalize h'.db = db' at hdecision ⊢
  cases hdecision with
  | same => exact ⟨[], (List.append_nil _).symm⟩
  | shares pending now => exact ⟨_, rfl⟩
  | inserted hins => exact ⟨[], by rw [insertBlock_shares hins, List.append_nil]⟩
  | orphaned hp hrpc hneg => exact ⟨[], (List.append_nil _).symm⟩
  | confirmed hp hrpc htwo hconfirm =>
      exact ⟨[], by rw [confirmBlock_shares hconfirm, List.append_nil]⟩

/-- What is cached, or about to be, is from the table. -/
structure BoardFromTable (h : PoolHandler) : Prop where
  cached : FromTable h.db h.top21
  refreshed : ∀ tid n entries, h.tasks tid = .refreshed n entries → FromTable h.db entries

theorem BoardFromTable.boot {db : Db} (hboot : PoolHandler.boot db = some h) :
    BoardFromTable h := by
  obtain ⟨-, -, htasks, -, htop, -⟩ := boot_fields hboot
  refine ⟨htop ▸ ⟨by simp, by simp⟩, fun tid roundID entries ht => ?_⟩
  rw [htasks] at ht
  cases ht

theorem BoardFromTable.step (hinv : BoardFromTable h) (hs : h.step e = some h') :
    BoardFromTable h' where
  cached := by
    refine FromTable.mono ?_ (step_rows hs)
    rcases (boardStep_of_step hs).cached with hsame | hempty | ⟨tid, n, ht⟩
    · exact hsame ▸ hinv.cached
    · exact hempty ▸ ⟨by simp, by simp⟩
    · exact hinv.refreshed tid n _ ht
  refreshed tid n entries ht := by
    refine FromTable.mono ?_ (step_rows hs)
    rcases (boardStep_of_step hs).refreshed tid n entries ht with hold | ⟨now, scan, hquery⟩
    · exact hinv.refreshed tid n entries hold
    · exact getTop21_fromTable hquery

end

/-! ## Runs -/

section

variable {db : Db} {h₀ : PoolHandler} {es : List PoolEvent} {s : Pool}
  (hboot : PoolHandler.boot db = some h₀) (hes : ∀ e ∈ es, e.Harmless)
  (hrun : run Pool.step (.boot h₀) es = some s)

include hboot hrun

theorem boardFromTable_of_run : BoardFromTable s.handler :=
  Pool.run_handler BoardFromTable.boot BoardFromTable.step hboot hrun

include hes

/-- A row is an old one or credits a submission. -/
theorem row_cases {r : ShareRow} (hr : r ∈ s.handler.db.shares) :
    r ∈ db.shares ∨ columnsCredit r.columns ∈ submitted es := by
  obtain ⟨tids, added, lost, -, hrows, hsum, -⟩ := accounted_of_run hboot hes hrun
  rw [hrows] at hr
  rcases List.mem_append.mp hr with hold | hnew
  · exact .inl hold
  · right
    have hmem : columnsCredit r.columns ∈ rowCredits added :=
      Multiset.mem_coe.mpr (List.mem_map_of_mem hnew)
    rw [hsum]
    simp only [Multiset.mem_add]
    exact .inl (.inr hmem)

/-- Every address of the table is one the gateway lets in. -/
theorem valid_addresses (hrows : ∀ r ∈ db.shares, isValidBtcAddress r.btcAddress = true)
    {r : ShareRow} (hr : r ∈ s.handler.db.shares) : isValidBtcAddress r.btcAddress = true := by
  rcases row_cases hboot hes hrun hr with hold | hnew
  · exact hrows r hold
  · obtain ⟨tid, sent, request, -, -, hcredit⟩ := mem_submitted hnew
    cases request with
    | coinbaseOutputs miner fees => cases hcredit
    | blockFound height hashHex finderAddr => cases hcredit
    | shareSubmit username difficulty trueDiff port =>
        simp only [Request.credit] at hcredit
        split_ifs at hcredit with hvalid
        have haddress : usernameAddress username = r.btcAddress :=
          congrArg Credit.btcAddress (Option.some.inj hcredit)
        exact haddress ▸ hvalid.2.1

/-- **The cached leaderboard is one the gateway can read.** -/
theorem plainBoard_of_run (hrows : ∀ r ∈ db.shares, isValidBtcAddress r.btcAddress = true) :
    PlainBoard s.handler := by
  have hboard := (boardFromTable_of_run hboot hrun).cached
  refine ⟨hboard.1, fun e he => ?_⟩
  obtain ⟨r, hr, haddress⟩ := List.mem_map.mp (hboard.2 e he)
  exact haddress ▸ plainAddress_of_isValidBtcAddress (valid_addresses hboot hes hrun hrows hr)

/-- The gateway reads back what the service pays. -/
theorem request_of_run (hrows : ∀ r ∈ db.shares, isValidBtcAddress r.btcAddress = true)
    (blockFound : BlockFoundMsg → Bool) {coinbaseValue : UInt64}
    (hreward : BlockReward coinbaseValue.toNat) {miner : Text}
    (hminer : isValidBtcAddress miner = true) :
    datumRequestCoinbaseOutputs (socketService (getCoinbaseOutputs s.handler) blockFound) miner
      (feesSats coinbaseValue) =
        some ((payout s.handler coinbaseValue miner).map rewardOutput) := by
  have hservice : socketService (getCoinbaseOutputs s.handler) blockFound miner
      (feesSats coinbaseValue) = poolService s.handler miner (feesSats coinbaseValue) := by
    rw [socketService_eq _ _ hminer (inRange_feesSats _), poolService, getCoinbaseOutputs_eq hreward]
  have hrequest := request_poolService hreward (plainBoard_of_run hboot hes hrun hrows)
    (plainAddress_of_isValidBtcAddress hminer)
  unfold datumRequestCoinbaseOutputs at hrequest ⊢
  rwa [hservice]

/-- **Coinbase calls are answered at any time.** In every state of every run the
gateway reads back, for each of its miners and every coinbase value that is a
block's, a split of the value into positive amounts for the miner, everybody on
the cached leaderboard and the pool, and those on the leaderboard have a share in
the table. -/
theorem coinbase_answered (hrows : ∀ r ∈ db.shares, isValidBtcAddress r.btcAddress = true)
    (blockFound : BlockFoundMsg → Bool) {coinbaseValue : UInt64}
    (hreward : BlockReward coinbaseValue.toNat) {miner : Text}
    (hminer : isValidBtcAddress miner = true) :
    ∃ outputs : List CoinbaseOutput,
      datumRequestCoinbaseOutputs (socketService (getCoinbaseOutputs s.handler) blockFound) miner
        (feesSats coinbaseValue) = some (outputs.map rewardOutput) ∧
      (outputs.map CoinbaseOutput.amountSats).sum = coinbaseValue.toNat ∧
      (∀ o ∈ outputs, 0 < o.amountSats) ∧
      outputs.map CoinbaseOutput.address =
        miner :: s.handler.top21.map Entry.btcAddress ++ [poolFeeAddress] ∧
      ∀ e ∈ s.handler.top21, ∃ r ∈ s.handler.db.shares, r.btcAddress = e.btcAddress := by
  refine ⟨payout s.handler coinbaseValue miner,
    request_of_run hboot hes hrun hrows blockFound hreward hminer, sum_payout hreward,
    fun o ho => (payout_bounds hreward o ho).1,
    map_address_payout (plainBoard_of_run hboot hes hrun hrows) _ _, fun e he => ?_⟩
  exact List.mem_map.mp ((boardFromTable_of_run hboot hrun).cached.2 e he)

end

theorem coinbase_answered_twoConnections :
    ∃ h₀ s, run Pool.step (.boot h₀) twoConnections = some s ∧
      ∃ outputs : List CoinbaseOutput,
        datumRequestCoinbaseOutputs (socketService (getCoinbaseOutputs s.handler) fun _ => true)
          "bc1qabc".toList (feesSats 312500000) = some (outputs.map rewardOutput) ∧
        (outputs.map CoinbaseOutput.amountSats).sum = (312500000 : UInt64).toNat ∧
        (∀ o ∈ outputs, 0 < o.amountSats) ∧
        outputs.map CoinbaseOutput.address =
          "bc1qabc".toList :: twoRanked ++ [poolFeeAddress] := by
  obtain ⟨h₀, s, hboot, hs, -, hranked⟩ := run_twoConnections
  obtain ⟨outputs, hrequest, hsum, hpos, haddresses, -⟩ := coinbase_answered hboot
    harmless_twoConnections hs (fun r hr => by cases hr) (fun _ => true)
    (show BlockReward ((312500000 : UInt64).toNat : ℤ) from ⟨by decide, by decide⟩)
    (show isValidBtcAddress "bc1qabc".toList = true by decide)
  exact ⟨h₀, s, hs, outputs, hrequest, hsum, hpos, hranked ▸ haddresses⟩

/-! ## The query for the leaderboard -/

/-- The true difficulty is far from what `BIGINT` cannot hold. -/
def Request.Moderate : Request → Prop
  | .shareSubmit _ _ trueDiff _ => trueDiff ≤ 9 * 10 ^ 18
  | _ => True

def ModerateRun (es : List PoolEvent) : Prop :=
  ∀ tid sent r, PoolEvent.connect tid sent ∈ es → Sent.request r ∈ sent → r.Moderate

theorem sentTrueDiff_le {x : ℚ} (h : x ≤ 9 * 10 ^ 18) :
    0 ≤ sentTrueDiff x ∧ sentTrueDiff x ≤ 9.01 * 10 ^ 18 := by
  have hmono : halfEven (100 * x) ≤ halfEven ((9 * 10 ^ 20 : ℤ) : ℚ) :=
    halfEven_mono (by push_cast; linarith)
  rw [halfEven_intCast] at hmono
  have hhundred : (hundredths x : ℤ) ≤ 9 * 10 ^ 20 := by
    unfold hundredths
    omega
  have hq : (hundredths x : ℚ) ≤ 9 * 10 ^ 20 := by exact_mod_cast hhundred
  have hv0 : (0 : ℚ) ≤ hundredths x / 100 := by positivity
  have hround := abs_binary64_le (hundredths x / 100 : ℚ)
  have hnonneg := binary64_nonneg hv0
  rw [abs_of_nonneg hv0, abs_of_nonneg hnonneg] at hround
  refine ⟨hnonneg, hround.trans ?_⟩
  have hfactor : (1 : ℚ) + 1 / 2 ^ 53 ≤ 1.001 := by norm_num
  calc (hundredths x / 100 : ℚ) * (1 + 1 / 2 ^ 53)
      ≤ 9 * 10 ^ 18 * 1.001 := by gcongr; linarith
    _ ≤ 9.01 * 10 ^ 18 := by norm_num

theorem numericOfDouble_bounds {x : ℚ} (h0 : 0 ≤ x) (h : x ≤ 9.01 * 10 ^ 18) :
    0 ≤ numericOfDouble x ∧ numericOfDouble x < 2 ^ 63 := by
  have hround := abs_toDigits_sub_le (b := 10) (p := 15) (by norm_num) x
  have hnonneg := toDigits_nonneg (b := 10) (p := 15) (by norm_num) h0
  have hle : toDigits 10 15 x ≤ 9.02 * 10 ^ 18 := by
    have hfactor : ((10 : ℕ) : ℚ) ^ (1 - ((15 : ℕ) : ℤ)) / 2 ≤ 1 / 1000 := by norm_num [zpow_neg]
    have hbound : |toDigits 10 15 x - x| ≤ x * (1 / 1000) := by
      refine hround.trans ?_
      rw [abs_of_nonneg h0]
      exact mul_le_mul_of_nonneg_left hfactor h0
    linarith [(abs_le.mp hbound).2]
  have hfloor : ⌊toDigits 10 15 x + 1 / 2⌋ < 2 ^ 63 := by
    rw [Int.floor_lt]
    push_cast
    linarith
  have hfloor0 : 0 ≤ ⌊toDigits 10 15 x + 1 / 2⌋ := Int.floor_nonneg.mpr (by linarith)
  rw [numericOfDouble, if_pos hnonneg]
  exact ⟨hfloor0, hfloor⟩

/-- Every row of the table can be ranked and read back. -/
theorem castable_of_run {db : Db} {h₀ : PoolHandler} {es : List PoolEvent} {s : Pool}
    (hboot : PoolHandler.boot db = some h₀) (hes : ∀ e ∈ es, e.Harmless)
    (hrun : run Pool.step (.boot h₀) es = some s) (hrows : ∀ r ∈ db.shares, r.Castable)
    (hmoderate : ModerateRun es) : ∀ r ∈ s.handler.db.shares, r.Castable := by
  intro r hr
  rcases row_cases hboot hes hrun hr with hold | hnew
  · exact hrows r hold
  · obtain ⟨tid, sent, request, hconnect, hsent, hcredit⟩ := mem_submitted hnew
    have hrange : request.InRange := hes _ hconnect _ hsent
    have hmod := hmoderate tid sent request hconnect hsent
    cases request with
    | coinbaseOutputs miner fees => cases hcredit
    | blockFound height hashHex finderAddr => cases hcredit
    | shareSubmit username difficulty trueDiff port =>
        simp only [Request.credit] at hcredit
        split_ifs at hcredit
        have htrue : some (numericOfDouble (sentTrueDiff trueDiff)) = r.trueDifficulty :=
          congrArg Credit.trueDifficulty (Option.some.inj hcredit)
        obtain ⟨hx0, hx⟩ := sentTrueDiff_le hmod
        obtain ⟨hd0, hd⟩ := numericOfDouble_bounds hx0 hx
        exact ⟨_, htrue.symm, by omega, hd⟩

/-- On such a table the query answers with the exact list. -/
theorem top21Exact_of_castable {db : Db} (hcastable : ∀ r ∈ db.shares, r.Castable) {roundID : ℕ}
    {now : Time} {res : Except QueryError (List Entry)} (hres : Top21 db roundID now res) :
    ∃ entries, res = .ok entries ∧ Top21Exact (liveShares db.shares roundID) now entries := by
  have hlive : ∀ r ∈ liveShares db.shares roundID, r.Castable := fun r hr =>
    hcastable r (mem_liveShares.mp hr).1
  have hsome := fun r hr => (hlive r hr).isSome
  obtain ⟨out, hout, rfl⟩ := (top21_of_fit hsome fun a v => castable_of_score hlive).mp hres
  exact ⟨_, rfl, top21Exact_take hsome hout⟩

/-- **The leaderboard stays up.** As long as no true difficulty is above 9 · 10^18,
`GetTop21` answers in every state of every run, for every round, at every time
and however tied rows come in, with the exact list. -/
theorem leaderboard_stays_up {db : Db} {h₀ : PoolHandler} {es : List PoolEvent} {s : Pool}
    (hboot : PoolHandler.boot db = some h₀) (hes : ∀ e ∈ es, e.Harmless)
    (hrun : run Pool.step (.boot h₀) es = some s) (hrows : ∀ r ∈ db.shares, r.Castable)
    (hmoderate : ModerateRun es) (roundID : ℕ) (now : Time) (res : Except QueryError (List Entry))
    (hres : Top21 s.handler.db roundID now res) :
    ∃ entries, res = .ok entries ∧
      Top21Exact (liveShares s.handler.db.shares roundID) now entries :=
  top21Exact_of_castable (castable_of_run hboot hes hrun hrows hmoderate) hres

theorem moderateRun_twoConnections : ModerateRun twoConnections := by
  intro tid sent r hconnect hsent
  simp only [twoConnections, List.mem_cons, PoolEvent.connect.injEq, reduceCtorEq, List.not_mem_nil,
    or_false] at hconnect
  rcases hconnect with ⟨-, rfl⟩ | ⟨-, rfl⟩
  · simp only [List.mem_cons, Sent.request.injEq, List.not_mem_nil, or_false] at hsent
    rcases hsent with rfl | rfl | rfl
    · show (24691 / 2 : ℚ) ≤ 9 * 10 ^ 18
      norm_num
    · trivial
    · show (5 : ℚ) ≤ 9 * 10 ^ 18
      norm_num
  · obtain rfl := Sent.request.inj (List.mem_singleton.mp hsent)
    show (2 : ℚ) ≤ 9 * 10 ^ 18
    norm_num

theorem leaderboard_stays_up_twoConnections :
    ∃ h₀ s, run Pool.step (.boot h₀) twoConnections = some s ∧ s.handler.db.shares.length = 2 ∧
      ∃ entries, getTop21 s.handler.db 1 8 [] = .ok entries ∧
        Top21Exact (liveShares s.handler.db.shares 1) 8 entries := by
  obtain ⟨h₀, s, hboot, hs, hrows, -⟩ := run_twoConnections
  obtain ⟨entries, hok, hexact⟩ := leaderboard_stays_up hboot harmless_twoConnections hs
    (fun _ hr => by cases hr) moderateRun_twoConnections 1 8 _ (top21_getTop21 _ 1 8 [])
  exact ⟨h₀, s, hs, hrows, entries, hok, hexact⟩

end Gateway
