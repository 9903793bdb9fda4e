import Unlucky21.Reward.PoolHandler

/-!
# Whose leaderboard is cached?

A refresh reads the round id, queries without the lock, and stores what it got
without looking at the round id again. A confirmation in between empties the
cache for the new round, and the late store fills it with the old one.
-/

namespace Reward

open Wire Runs

/-- The round and the result of a `GetTop21` made by a refresh. -/
def queryReport (h : PoolHandler) : Event → Option (ℕ × List Entry)
  | .refreshQuery tid reply now scan =>
      match h.tasks tid with
      | .refresh roundID =>
          (reply.read (getTop21 h.db roundID now scan)).map fun entries => (roundID, entries)
      | _ => none
  | _ => none

abbrev queries (h₀ : PoolHandler) (es : List Event) : List (ℕ × List Entry) :=
  reports PoolHandler.step queryReport h₀ es

/-- The addresses between the finder's and the pool's output. -/
def rankedAddresses (outputs : List CoinbaseOutput) : List Text :=
  (outputs.tail.dropLast).map CoinbaseOutput.address

/-- The cache is empty or what `GetTop21` gave for the handler's round, and a
coinbase reply ranks only addresses of that result. -/
structure CacheOfRound (h₀ : PoolHandler) (es : List Event) (h : PoolHandler) : Prop where
  cache : h.top21 = [] ∨ (h.roundID, h.top21) ∈ queries h₀ es
  reply : ∀ miner fees outputs, getCoinbaseOutputs h miner fees = .ok outputs →
    ∀ a ∈ rankedAddresses outputs,
      ∃ entries, (h.roundID, entries) ∈ queries h₀ es ∧ a ∈ entries.map Entry.btcAddress

/-- A refresh stores something only while the handler still holds the round the
refresh has read. -/
def storesOwnRound (h : PoolHandler) : Event → Bool
  | .refreshStore tid =>
      match h.tasks tid with
      | .refreshed roundID entries => entries = [] || roundID = h.roundID
      | _ => true
  | _ => true

theorem rankedAddresses_getCoinbaseOutputs {h : PoolHandler} {miner : Text} {fees : ℤ}
    {outputs : List CoinbaseOutput} (hout : getCoinbaseOutputs h miner fees = .ok outputs) :
    rankedAddresses outputs = (h.top21.map Entry.btcAddress).take maxRankedSlots := by
  rw [getCoinbaseOutputs, buildOutputs_eq] at hout
  cases hout
  simp [rankedAddresses, splitReward_ranked, Function.comp_def]

/-- Results on their way to the cache come from the queries made. -/
structure CacheInv (h₀ : PoolHandler) (es : List Event) (h : PoolHandler) : Prop where
  cache : h.top21 = [] ∨ (h.roundID, h.top21) ∈ queries h₀ es
  task : ∀ tid roundID entries, h.tasks tid = .refreshed roundID entries →
    (roundID, entries) ∈ queries h₀ es

theorem CacheInv.cacheOfRound {h₀ h : PoolHandler} {es : List Event} (hinv : CacheInv h₀ es h) :
    CacheOfRound h₀ es h where
  cache := hinv.cache
  reply := by
    intro miner fees outputs hout a ha
    rw [rankedAddresses_getCoinbaseOutputs hout] at ha
    have hmem : a ∈ h.top21.map Entry.btcAddress := List.mem_of_mem_take ha
    rcases hinv.cache with hnil | hq
    · simp [hnil] at hmem
    · exact ⟨h.top21, hq, hmem⟩

/-- A step that touches neither the cache, the round id nor a refreshed task. -/
theorem CacheInv.frame {h₀ h h' : PoolHandler} {es es' : List Event} (hinv : CacheInv h₀ es h)
    (hq : queries h₀ es ⊆ queries h₀ es') (hround : h'.roundID = h.roundID)
    (htop : h'.top21 = h.top21)
    (htask : ∀ tid roundID entries, h'.tasks tid = .refreshed roundID entries →
      h.tasks tid = .refreshed roundID entries) : CacheInv h₀ es' h' where
  cache := by
    rw [hround, htop]
    exact hinv.cache.imp_right fun h => hq h
  task := fun tid roundID entries ht => hq (hinv.task tid roundID entries (htask _ _ _ ht))

theorem setTask_refreshed {h : PoolHandler} {tid tid' : ℕ} {task : Task} {roundID : ℕ}
    {entries : List Entry} (htask : ∀ r es, task ≠ .refreshed r es)
    (h' : (h.setTask tid task).tasks tid' = .refreshed roundID entries) :
    h.tasks tid' = .refreshed roundID entries := by
  rcases eq_or_ne tid' tid with rfl | hne
  · rw [setTask_tasks] at h'
    exact absurd h' (htask _ _)
  · rwa [setTask_tasks_of_ne h hne] at h'

theorem CacheInv.step {h₀ h h' : PoolHandler} {es : List Event} {e : Event}
    (hr : run PoolHandler.step h₀ es = some h) (hinv : CacheInv h₀ es h)
    (hok : storesOwnRound h e = true) (hs : h.step e = some h') : CacheInv h₀ (es ++ [e]) h' := by
  have hq : queries h₀ (es ++ [e]) = queries h₀ es ++ (queryReport h e).toList := reports_snoc hr
  have hsub : queries h₀ es ⊆ queries h₀ (es ++ [e]) := by
    rw [hq]
    exact List.subset_append_left _ _
  cases step_effect hs with
  | refreshQuery ht hread =>
      rename_i tid reply now scan roundID entries
      refine ⟨hinv.cache.imp_right fun h => hsub h, ?_⟩
      intro tid' roundID' entries' ht'
      -- only the task that asked holds the new answer
      rcases eq_or_ne tid' tid with rfl | hne
      · rw [setTask_tasks] at ht'
        cases ht'
        simp [hq, queryReport, ht, hread]
      · rw [setTask_tasks_of_ne h hne] at ht'
        exact hsub (hinv.task _ _ _ ht')
  | refreshStore ht =>
      rename_i tid roundID entries
      refine ⟨?_, fun tid' _ _ ht' => hsub (hinv.task _ _ _ (setTask_refreshed (by simp) ht'))⟩
      have hown : entries = [] ∨ roundID = h.roundID := by
        simpa [storesOwnRound, ht] using hok
      -- an empty list is right whatever its round
      rcases hown with hnil | hown
      · exact .inl hnil
      · exact .inr (hsub (hown ▸ hinv.task _ _ _ ht))
  | assign hp =>
      exact ⟨.inl rfl, fun tid roundID entries ht => hsub (hinv.task tid roundID entries ht)⟩
  | pollBlock hp =>
      obtain ⟨hround, htop, htasks⟩ := checkBlock_frame h _ _ _ _ _ _
      exact hinv.frame hsub hround htop (by rw [htasks]; exact fun _ _ _ => id)
  | takeBuffer => exact hinv.frame hsub rfl rfl fun _ _ _ => id
  | flushCall hf => exact hinv.frame hsub rfl rfl fun _ _ _ => id
  | poll hp => exact hinv.frame hsub rfl rfl fun _ _ _ => id
  | pollFailed => exact hinv.frame hsub rfl rfl fun _ _ _ => id
  | passDone hp => exact hinv.frame hsub rfl rfl fun _ _ _ => id
  | notANumber ht hdiff => exact hinv.frame hsub rfl rfl fun _ _ _ => id
  | recordShare ht hdiff =>
      exact hinv.frame hsub rfl rfl fun _ _ _ => setTask_refreshed (by simp)
  | bufferShare ht => exact hinv.frame hsub rfl rfl fun _ _ _ => setTask_refreshed (by simp)
  | blockFound ht => exact hinv.frame hsub rfl rfl fun _ _ _ => setTask_refreshed (by simp)
  | blockQuery ht hread => exact hinv.frame hsub rfl rfl fun _ _ _ => setTask_refreshed (by simp)
  | blockQueryFailed ht => exact hinv.frame hsub rfl rfl fun _ _ _ => setTask_refreshed (by simp)
  | blockInsert ht => exact hinv.frame hsub rfl rfl fun _ _ _ => setTask_refreshed (by simp)
  | refresh ht => exact hinv.frame hsub rfl rfl fun _ _ _ => setTask_refreshed (by simp)
  | refreshQueryFailed ht =>
      exact hinv.frame hsub rfl rfl fun _ _ _ => setTask_refreshed (by simp)

theorem CacheInv.boot {db : Db} {h₀ : PoolHandler} (hboot : PoolHandler.boot db = some h₀) :
    CacheInv h₀ [] h₀ := by
  obtain ⟨roundID, -, rfl⟩ := Option.map_eq_some_iff.mp hboot
  exact ⟨.inl rfl, fun _ _ _ ht => by cases ht⟩

/-- **The cached leaderboard.** In a run in which every refresh stores only for
the round the handler still holds, the cache is always of that round. -/
theorem cacheOfRound_of_storesOwnRound {db : Db} {h₀ h : PoolHandler} {es : List Event}
    (hboot : PoolHandler.boot db = some h₀)
    (hok : Every PoolHandler.step (storesOwnRound · · = true) h₀ es)
    (hrun : run PoolHandler.step h₀ es = some h) : CacheOfRound h₀ es h :=
  (run_history_of_every (P := CacheInv h₀) (CacheInv.boot hboot)
    (fun _ _ _ _ hr hinv hok hs => hinv.step hr hok hs) hok hrun).cacheOfRound

/-! ## A late store -/

/-- A share of miner `m` is written, a block is recorded, and a refresh reads
round 1 and queries. -/
def refreshStarted : List Event :=
  [.recordShare 0 ⟨['m'], ['w'], ['9'], 9, 0⟩, .bufferShare 0, .takeBuffer,
    .flushCall 0 .ok 5, .flushCall 0 .ok 5, .flushCall 0 .ok 5, .flushCall 0 .ok 5,
    .blockFound 0 ⟨800000, ['a'], ['m'], ['t'], 0⟩, .blockQuery 0 .ok 10 [], .blockInsert 0 .ok 10,
    .refresh 1, .refreshQuery 1 .ok 11 []]

def storedInTime : List Event :=
  refreshStarted ++ [.refreshStore 1]

def storedLate : List Event :=
  refreshStarted ++ [.poll .ok [], .pollBlock (some 2) .ok 12, .assign, .passDone, .refreshStore 1]

def exampleEntry : Entry := ⟨['m'], 9, 5, 1⟩

def poolStart : PoolHandler := ⟨.boot .initial, 1, [], fun _ => .idle, .idle⟩

theorem cacheOfRound_storedInTime :
    ∃ h, run PoolHandler.step poolStart storedInTime = some h ∧ h.top21 = [exampleEntry] ∧
      CacheOfRound poolStart storedInTime h := by
  obtain ⟨h, hrun, htop⟩ := Option.map_eq_some_iff.mp (by decide +kernel :
    (run PoolHandler.step poolStart storedInTime).map PoolHandler.top21 = some [exampleEntry])
  have hboot : PoolHandler.boot .initial = some poolStart := rfl
  exact ⟨h, hrun, htop, cacheOfRound_of_storesOwnRound hboot (by decide +kernel) hrun⟩

/-- The handler has moved to round 2 and pays the leaderboard of round 1. -/
theorem storedLate_pays_closed_round :
    PoolHandler.boot .initial = some poolStart ∧
      ∃ h, run PoolHandler.step poolStart storedLate = some h ∧ h.roundID = 2 ∧
        h.top21 = [exampleEntry] ∧ ¬ CacheOfRound poolStart storedLate h := by
  refine ⟨rfl, ?_⟩
  obtain ⟨h, hrun, hproj⟩ := Option.map_eq_some_iff.mp (by decide +kernel :
    (run PoolHandler.step poolStart storedLate).map (fun h => (h.roundID, h.top21)) =
      some (2, [exampleEntry]))
  obtain ⟨hround, htop⟩ : h.roundID = 2 ∧ h.top21 = [exampleEntry] := by simpa using hproj
  have hqueries : queries poolStart storedLate = [(1, [exampleEntry])] := by decide +kernel
  refine ⟨h, hrun, hround, htop, fun hcache => ?_⟩
  have := hcache.cache
  simp [hround, htop, hqueries] at this

end Reward
