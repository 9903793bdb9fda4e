import Unlucky21.Lib.CText
import Unlucky21.Reward.PoolHandler

/-!
# Batches of shares

`FlushShares` spreads a batch over six slices, which `UNNEST` puts together
again, and collects the workers in a map, which it walks in any order. However
a sequence of shares is cut into batches, the tables come out the same up to
the timestamps.
-/

namespace Reward

open Wire

/-! ## The statements -/

/-- The parameters of the first statement. -/
structure ShareArrays where
  roundIDs : List ℕ
  addrs : List Text
  workers : List Text
  diffs : List Text
  trueDiffs : List ℚ
  ports : List ℤ

def ShareArrays.make (n : ℕ) : ShareArrays where
  roundIDs := List.replicate n 0
  addrs := List.replicate n []
  workers := List.replicate n []
  diffs := List.replicate n []
  trueDiffs := List.replicate n 0
  ports := List.replicate n 0

/-- One round of the loop over `pending`. -/
def ShareArrays.fill (arrays : ShareArrays) (p : BufferedShare × ℕ) : ShareArrays where
  roundIDs := arrays.roundIDs.set p.2 p.1.roundID
  addrs := arrays.addrs.set p.2 p.1.btcAddress
  workers := arrays.workers.set p.2 p.1.workerName
  diffs := arrays.diffs.set p.2 (CText.printInt p.1.difficulty)
  trueDiffs := arrays.trueDiffs.set p.2 p.1.trueDiff
  ports := arrays.ports.set p.2 (int32 p.1.sourcePort)

def shareArrays (pending : List BufferedShare) : ShareArrays :=
  pending.zipIdx.foldl ShareArrays.fill (.make pending.length)

structure UnnestRow where
  roundID : Option ℕ
  addr : Option Text
  worker : Option Text
  diff : Option Text
  trueDiff : Option ℚ
  port : Option ℤ
deriving DecidableEq, Repr

/-- `UNNEST` of several arrays: the shorter ones are filled up with NULL. -/
def unnestShares (arrays : ShareArrays) : List UnnestRow :=
  let longest := max arrays.roundIDs.length <| max arrays.addrs.length <|
    max arrays.workers.length <| max arrays.diffs.length <|
    max arrays.trueDiffs.length arrays.ports.length
  (List.range longest).map fun i =>
    ⟨arrays.roundIDs[i]?, arrays.addrs[i]?, arrays.workers[i]?, arrays.diffs[i]?,
      arrays.trueDiffs[i]?, arrays.ports[i]?⟩

/-- `numeric_in`, on the texts `big.Int.String` prints. -/
def numericIn (t : Text) : Option ℤ := bigSetString t

/-- One row of the first statement; the columns that may not be NULL, the types
and the reference to `rounds` can reject it. -/
def insertShare (db : Db) (now : Time) (r : UnnestRow) : Option ShareRow := do
  let c : ShareColumns := {
    roundId := ← r.roundID
    btcAddress := ← r.addr
    workerName := ← r.worker
    shareDifficulty := ← numericIn (← r.diff)
    trueDifficulty := r.trueDiff.map numericOfDouble
    sourcePort := r.port }
  if db.admits c then some (c.row now) else none

def unnestWorkers (wAddrs wWorkers : List Text) : List (Option Text × Option Text) :=
  (List.range (max wAddrs.length wWorkers.length)).map fun i => (wAddrs[i]?, wWorkers[i]?)

/-- The second statement. PostgreSQL rejects it when two of its rows have the
same key: `DO UPDATE` would affect one row twice. -/
def upsertWorkers (rows : List WorkerRow) (now : Time) (wAddrs wWorkers : List Text) :
    Option (List WorkerRow) := do
  let keys ← (unnestWorkers wAddrs wWorkers).mapM fun p => do some (← p.1, ← p.2)
  if keys.Nodup ∧ keys.all (fun k => varchar 90 k.1 && varchar 64 k.2) then
    some (keys.foldl (upsertWorker now) rows)
  else none

/-- The keys of the map `seenWorkers`. -/
def seenWorkers (pending : List BufferedShare) : Finset (Text × Text) :=
  pending.foldl (fun seen sh => insert (sh.btcAddress, sh.workerName) seen) ∅

/-- `ks` is an order in which `range` may go through the map. -/
def Iterates (seen : Finset (Text × Text)) (ks : List (Text × Text)) : Prop :=
  ks.Nodup ∧ ks.toFinset = seen

/-- A `FlushShares` whose calls all succeed. `NOW()` is the start of its
transaction. -/
def flushShares (db : Db) (pending : List BufferedShare) (ks : List (Text × Text)) (now : Time) :
    Option Db :=
  if pending = [] then some db
  else do
    let rows ← (unnestShares (shareArrays pending)).mapM (insertShare db now)
    let workers ← upsertWorkers db.workers now (ks.map Prod.fst) (ks.map Prod.snd)
    some { db with shares := db.shares ++ rows, workers := workers }

abbrev Batch := List BufferedShare × Time

/-- One flush after the other. -/
inductive FlushRun : Db → List Batch → Db → Prop
  | nil (db : Db) : FlushRun db [] db
  | cons {db db₁ db₂ : Db} {pending : List BufferedShare} {now : Time}
      {ks : List (Text × Text)} {batches : List Batch}
      (hks : Iterates (seenWorkers pending) ks) (hflush : flushShares db pending ks now = some db₁)
      (hrest : FlushRun db₁ batches db₂) : FlushRun db ((pending, now) :: batches) db₂

/-! ## Arrays and back -/

/-- Filling by index what was made with the right length. -/
theorem foldl_set_zipIdx {α β : Type*} (f : α → β) (xs : List α) (k : ℕ) (ys : List β)
    (hlen : ys.length = k + xs.length) :
    (xs.zipIdx k).foldl (fun ys p => ys.set p.2 (f p.1)) ys = ys.take k ++ xs.map f := by
  induction xs generalizing k ys with
  | nil => simpa using hlen.le
  | cons x xs ih =>
      have hk : k < ys.length := by simp [hlen]
      rw [List.zipIdx_cons, List.foldl_cons, ih (k + 1) _ (by simp [hlen]; omega),
        List.take_succ_eq_append_getElem (by simpa using hk), List.getElem_set_self,
        List.take_set_of_le le_rfl, List.append_assoc]
      rfl

theorem foldl_set_replicate {α β : Type*} (f : α → β) (xs : List α) (z : β) :
    xs.zipIdx.foldl (fun ys p => ys.set p.2 (f p.1)) (List.replicate xs.length z) = xs.map f := by
  simpa using foldl_set_zipIdx f xs 0 (List.replicate xs.length z) (by simp)

theorem shareArrays_eq (pending : List BufferedShare) :
    shareArrays pending =
      { roundIDs := pending.map BufferedShare.roundID
        addrs := pending.map BufferedShare.btcAddress
        workers := pending.map BufferedShare.workerName
        diffs := pending.map fun sh => CText.printInt sh.difficulty
        trueDiffs := pending.map BufferedShare.trueDiff
        ports := pending.map fun sh => int32 sh.sourcePort } := by
  have hfold : ∀ (l : List (BufferedShare × ℕ)) (arrays : ShareArrays),
      l.foldl ShareArrays.fill arrays =
        { roundIDs := l.foldl (fun ys p => ys.set p.2 p.1.roundID) arrays.roundIDs
          addrs := l.foldl (fun ys p => ys.set p.2 p.1.btcAddress) arrays.addrs
          workers := l.foldl (fun ys p => ys.set p.2 p.1.workerName) arrays.workers
          diffs := l.foldl (fun ys p => ys.set p.2 (CText.printInt p.1.difficulty)) arrays.diffs
          trueDiffs := l.foldl (fun ys p => ys.set p.2 p.1.trueDiff) arrays.trueDiffs
          ports := l.foldl (fun ys p => ys.set p.2 (int32 p.1.sourcePort)) arrays.ports } := by
    intro l
    induction l with
    | nil => exact fun _ => rfl
    | cons p l ih => exact fun arrays => ih (arrays.fill p)
  rw [shareArrays, hfold, ShareArrays.make]
  congr 1
  · exact foldl_set_replicate BufferedShare.roundID pending 0
  · exact foldl_set_replicate BufferedShare.btcAddress pending []
  · exact foldl_set_replicate BufferedShare.workerName pending []
  · exact foldl_set_replicate (fun sh => CText.printInt sh.difficulty) pending []
  · exact foldl_set_replicate BufferedShare.trueDiff pending 0
  · exact foldl_set_replicate (fun sh => int32 sh.sourcePort) pending 0

theorem map_range_getElem? {α β : Type*} (g : Option α → β) (xs : List α) :
    (List.range xs.length).map (fun i => g xs[i]?) = xs.map fun x => g (some x) := by
  refine List.ext_getElem (by simp) fun i hi _ => ?_
  have hi' : i < xs.length := by simpa using hi
  simp [hi']

/-- Row by row, the fields of one share. -/
theorem unnestShares_shareArrays (pending : List BufferedShare) :
    unnestShares (shareArrays pending) = pending.map fun sh =>
      ⟨some sh.roundID, some sh.btcAddress, some sh.workerName,
        some (CText.printInt sh.difficulty), some sh.trueDiff, some (int32 sh.sourcePort)⟩ := by
  rw [shareArrays_eq]
  simp only [unnestShares, List.length_map, max_self, List.getElem?_map]
  exact map_range_getElem? (fun sh : Option BufferedShare =>
    (⟨sh.map (·.roundID), sh.map (·.btcAddress), sh.map (·.workerName),
      sh.map fun sh => CText.printInt sh.difficulty, sh.map (·.trueDiff),
      sh.map fun sh => int32 sh.sourcePort⟩ : UnnestRow)) pending

theorem unnestWorkers_map (ks : List (Text × Text)) :
    unnestWorkers (ks.map Prod.fst) (ks.map Prod.snd) = ks.map fun k => (some k.1, some k.2) := by
  simp only [unnestWorkers, List.length_map, max_self, List.getElem?_map]
  exact map_range_getElem? (fun k : Option (Text × Text) => (k.map Prod.fst, k.map Prod.snd)) ks

theorem foldl_digits {ds : Text} (h : ∀ c ∈ ds, c.isDigit = true) (acc : ℕ) :
    ds.foldl (fun n c => 10 * n + (c.toNat - '0'.toNat : ℤ)) (acc : ℤ) =
      Nat.ofDigitChars 10 ds acc := by
  induction ds generalizing acc with
  | nil => rfl
  | cons c ds ih =>
      obtain ⟨hc, hds⟩ := List.forall_mem_cons.mp h
      have hge : '0'.toNat ≤ c.toNat := by
        simp only [Char.isDigit, Bool.and_eq_true, decide_eq_true_eq, ge_iff_le] at hc
        exact UInt32.le_iff_toNat_le.mp hc.1
      rw [List.foldl_cons, Nat.ofDigitChars_cons, ← ih hds, Nat.cast_add, Nat.cast_mul,
        Nat.cast_sub hge]
      rfl

/-- Go reads back the integer that was printed. -/
theorem bigSetString_printInt (z : ℤ) : bigSetString (CText.printInt z) = some z := by
  have hdigits : ∀ n : ℕ, ∀ c ∈ Nat.toDigits 10 n, c.isDigit = true := fun n c hc =>
    CText.isDigit_of_mem_toDigits hc
  have hread : ∀ n : ℕ, (Nat.toDigits 10 n).foldl
      (fun n c => 10 * n + (c.toNat - '0'.toNat : ℤ)) (0 : ℤ) = n := fun n => by
    have hfold := foldl_digits (hdigits n) 0
    rw [Nat.ofDigitChars_ten_toDigits] at hfold
    exact hfold
  have hall : ∀ n : ℕ, Nat.toDigits 10 n ≠ [] ∧ (Nat.toDigits 10 n).all Char.isDigit = true :=
    fun n => ⟨List.ne_nil_of_length_pos Nat.length_toDigits_pos, List.all_eq_true.mpr (hdigits n)⟩
  cases z with
  | ofNat n =>
      obtain ⟨c, ds, hds, hc⟩ := CText.exists_toDigits_cons n
      have hminus : c ≠ '-' := by rintro rfl; exact absurd hc (by decide)
      have hplus : c ≠ '+' := by rintro rfl; exact absurd hc (by decide)
      unfold bigSetString
      rw [CText.printInt]
      split
      next h => exact absurd (List.cons.inj (hds.symm.trans h)).1 hminus
      next h => exact absurd (List.cons.inj (hds.symm.trans h)).1 hplus
      next => simp only [hall n, ne_eq, not_false_eq_true, and_self, if_true, hread, Int.ofNat_eq_natCast]
  | negSucc n =>
      simp only [CText.printInt, bigSetString, hall (n + 1), ne_eq, not_false_eq_true, and_self,
        if_true, hread, Option.map_some]
      rfl

/-! ## What a flush writes -/

/-- A row without its id and its time has the values of the share. -/
def ShareColumns.Holds (c : ShareColumns) (sh : BufferedShare) : Prop :=
  c.roundId = sh.roundID ∧ c.btcAddress = sh.btcAddress ∧ c.workerName = sh.workerName ∧
    c.shareDifficulty = sh.difficulty ∧ (∃ d : ℤ, c.trueDifficulty = some d ∧ (d : ℚ) = sh.trueDiff) ∧
    c.sourcePort = some sh.sourcePort

/-- What the columns keep of a share: of the true difficulty its cast to `NUMERIC(78,0)`. -/
def BufferedShare.kept (sh : BufferedShare) : ShareColumns where
  roundId := sh.roundID
  btcAddress := sh.btcAddress
  workerName := sh.workerName
  shareDifficulty := sh.difficulty
  trueDifficulty := some (numericOfDouble sh.trueDiff)
  sourcePort := some sh.sourcePort

/-- The tables take the share, and its port is a 32-bit integer. -/
structure BufferedShare.Storable (db : Db) (sh : BufferedShare) : Prop where
  admits : db.admits sh.columns = true
  port_ge : -2 ^ 31 ≤ sh.sourcePort
  port_lt : sh.sourcePort < 2 ^ 31

theorem BufferedShare.Storable.columns_eq {db : Db} {sh : BufferedShare} (h : sh.Storable db) :
    sh.columns = sh.kept := by
  have hport : int32 sh.sourcePort = sh.sourcePort := by
    rw [int32, Int.bmod_eq_of_le] <;> have := h.port_ge <;> have := h.port_lt <;> omega
  rw [columns, hport]
  rfl

/-- An integer of 15 digits at most is kept as it is. -/
theorem numericOfDouble_intCast {n : ℤ} (h : |n| < 10 ^ 15) : numericOfDouble n = n := by
  have hexact : SignificantDigits.toDigits 10 15 (n : ℚ) = n :=
    SignificantDigits.toDigits_intCast (by norm_num) (by exact_mod_cast h)
  have hhalf : ⌊(1 : ℚ) / 2⌋ = 0 := by norm_num
  have hhalf' : ⌈-((1 : ℚ) / 2)⌉ = 0 := by norm_num
  rw [numericOfDouble, hexact]
  split_ifs
  · rw [Int.floor_intCast_add, hhalf, add_zero]
  · rw [sub_eq_add_neg, Int.ceil_intCast_add, hhalf', add_zero]

/-- All is kept of a share whose true difficulty is such an integer. -/
theorem BufferedShare.holds_kept {sh : BufferedShare} {n : ℤ} (hn : sh.trueDiff = n)
    (h : |n| < 10 ^ 15) : sh.kept.Holds sh := by
  refine ⟨rfl, rfl, rfl, rfl, ⟨n, ?_, hn.symm⟩, rfl⟩
  rw [kept, hn, numericOfDouble_intCast h]

theorem mapM_eq_some_iff {α β : Type*} {f : α → Option β} {p : α → Prop} {g : α → β}
    (h : ∀ x y, f x = some y ↔ p x ∧ y = g x) (xs : List α) (ys : List β) :
    xs.mapM f = some ys ↔ (∀ x ∈ xs, p x) ∧ ys = xs.map g := by
  induction xs generalizing ys with
  | nil => simp [eq_comm]
  | cons x xs ih =>
      simp only [List.mapM_cons, Option.bind_eq_bind, Option.bind_eq_some_iff, Option.pure_def,
        Option.some.injEq, h, ih, List.forall_mem_cons, List.map_cons]
      constructor
      · rintro ⟨_, ⟨hx, rfl⟩, _, ⟨hxs, rfl⟩, rfl⟩
        exact ⟨⟨hx, hxs⟩, rfl⟩
      · rintro ⟨⟨hx, hxs⟩, rfl⟩
        exact ⟨_, ⟨hx, rfl⟩, _, ⟨hxs, rfl⟩, rfl⟩

/-- The first statement inserts one row for each share, or nothing. -/
theorem mapM_insertShare_eq_some_iff {db : Db} {now : Time} {pending : List BufferedShare}
    {rows : List ShareRow} :
    (unnestShares (shareArrays pending)).mapM (insertShare db now) = some rows ↔
      (∀ sh ∈ pending, db.admits sh.columns = true) ∧
        rows = pending.map fun sh => sh.columns.row now := by
  rw [unnestShares_shareArrays, List.mapM_map]
  refine mapM_eq_some_iff (fun sh r => ?_) pending rows
  have heq : insertShare db now ⟨some sh.roundID, some sh.btcAddress, some sh.workerName,
      some (CText.printInt sh.difficulty), some sh.trueDiff, some (int32 sh.sourcePort)⟩ =
      if db.admits sh.columns then some (sh.columns.row now) else none := by
    simp only [insertShare, numericIn, bigSetString_printInt, Option.bind_eq_bind,
      Option.bind_some, Option.map_some]
    rfl
  rw [Function.comp_apply, heq, Option.ite_none_right_eq_some, Option.some.injEq, eq_comm (b := r)]

theorem upsertWorkers_eq_some_iff {rows rows' : List WorkerRow} {now : Time}
    {ks : List (Text × Text)} :
    upsertWorkers rows now (ks.map Prod.fst) (ks.map Prod.snd) = some rows' ↔
      (ks.Nodup ∧ ∀ k ∈ ks, varchar 90 k.1 = true ∧ varchar 64 k.2 = true) ∧
        ks.foldl (upsertWorker now) rows = rows' := by
  have hkeys : (unnestWorkers (ks.map Prod.fst) (ks.map Prod.snd)).mapM
      (fun p => do some (← p.1, ← p.2)) = some ks := by
    rw [unnestWorkers_map, List.mapM_map]
    exact ((mapM_eq_some_iff (p := fun _ => True) (g := id) (by simp [eq_comm]) ks ks).mpr
      ⟨fun _ _ => trivial, (List.map_id ks).symm⟩)
  rw [upsertWorkers, hkeys]
  simp [List.all_eq_true]

def BufferedShare.workerKey (sh : BufferedShare) : Text × Text := (sh.btcAddress, sh.workerName)

def WorkerRow.key (w : WorkerRow) : Text × Text := (w.btcAddress, w.workerName)

theorem mem_seenWorkers {pending : List BufferedShare} {k : Text × Text} :
    k ∈ seenWorkers pending ↔ k ∈ pending.map BufferedShare.workerKey := by
  have hfold : ∀ (seen : Finset (Text × Text)), k ∈ pending.foldl
      (fun seen sh => insert (sh.btcAddress, sh.workerName) seen) seen ↔
        k ∈ seen ∨ k ∈ pending.map BufferedShare.workerKey := by
    induction pending with
    | nil => simp
    | cons sh pending ih =>
        intro seen
        rw [List.foldl_cons, ih, Finset.mem_insert, List.map_cons, List.mem_cons, or_assoc]
        exact or_left_comm
  simp [seenWorkers, hfold]

theorem Iterates.mem_iff {pending : List BufferedShare} {ks : List (Text × Text)}
    (h : Iterates (seenWorkers pending) ks) {k : Text × Text} :
    k ∈ ks ↔ k ∈ pending.map BufferedShare.workerKey := by
  rw [← mem_seenWorkers, ← h.2, List.mem_toFinset]

/-- A flush goes through exactly if the tables take every share. -/
theorem flushShares_eq_some_iff {db db' : Db} {pending : List BufferedShare}
    {ks : List (Text × Text)} {now : Time} (hks : Iterates (seenWorkers pending) ks) :
    flushShares db pending ks now = some db' ↔
      (∀ sh ∈ pending, db.admits sh.columns = true) ∧
        db' = { db with
          shares := db.shares ++ pending.map fun sh => sh.columns.row now
          workers := ks.foldl (upsertWorker now) db.workers } := by
  by_cases hnil : pending = []
  · have hks' : ks = [] := List.eq_nil_iff_forall_not_mem.mpr fun k hk => by
      simpa [hnil] using hks.mem_iff.mp hk
    subst hnil hks'
    simpa [flushShares] using (eq_comm : db = db' ↔ db' = db)
  · rw [flushShares, if_neg hnil, Option.bind_eq_bind, Option.bind_eq_some_iff]
    constructor
    · rintro ⟨rows, hrows, hrest⟩
      obtain ⟨hadmits, rfl⟩ := mapM_insertShare_eq_some_iff.mp hrows
      obtain ⟨workers, hworkers, hdb⟩ := Option.bind_eq_some_iff.mp hrest
      obtain ⟨-, rfl⟩ := upsertWorkers_eq_some_iff.mp hworkers
      exact ⟨hadmits, (Option.some.inj hdb).symm⟩
    · rintro ⟨hadmits, rfl⟩
      refine ⟨_, mapM_insertShare_eq_some_iff.mpr ⟨hadmits, rfl⟩, Option.bind_eq_some_iff.mpr
        ⟨_, upsertWorkers_eq_some_iff.mpr ⟨⟨hks.1, fun k hk => ?_⟩, rfl⟩, rfl⟩⟩
      -- the worker columns have the types of the share columns
      obtain ⟨sh, hsh, rfl⟩ := List.mem_map.mp (hks.mem_iff.mp hk)
      have hcolumns := hadmits sh hsh
      simp only [Db.admits, Bool.and_eq_true] at hcolumns
      exact ⟨hcolumns.1.1.1.2, hcolumns.1.1.2⟩

theorem iterates_workerKeys (pending : List BufferedShare) :
    Iterates (seenWorkers pending) (workerKeys pending) := by
  refine ⟨List.nodup_dedup _, Finset.ext fun k => ?_⟩
  rw [List.mem_toFinset, workerKeys, List.mem_dedup, mem_seenWorkers]
  rfl

/-- The service's model of a flush is the statements with one order of the map. -/
theorem flushShares_workerKeys {db : Db} {pending : List BufferedShare} (now : Time)
    (h : ∀ sh ∈ pending, db.admits sh.columns = true) :
    flushShares db pending (workerKeys pending) now = some (db.writeShares pending now) :=
  (flushShares_eq_some_iff (iterates_workerKeys pending)).mpr ⟨h, rfl⟩

/-! ## The workers table -/

theorem mem_upsertWorker {now : Time} {rows : List WorkerRow} {k : Text × Text} {w : WorkerRow} :
    w ∈ upsertWorker now rows k ↔ (w.key = k ∧ w.lastSeen = now) ∨ (w.key ≠ k ∧ w ∈ rows) := by
  have hnew : w = ⟨k.1, k.2, now⟩ ↔ w.key = k ∧ w.lastSeen = now := by
    constructor
    · rintro rfl
      exact ⟨rfl, rfl⟩
    · rintro ⟨rfl, rfl⟩
      rfl
  unfold upsertWorker
  split_ifs with hany
  · obtain ⟨v, hv, hvk⟩ : ∃ v ∈ rows, v.key = k := by simpa [WorkerRow.key] using hany
    simp only [List.mem_map]
    constructor
    · rintro ⟨u, hu, rfl⟩
      by_cases huk : (u.btcAddress, u.workerName) = k
      · exact .inl (by rw [if_pos huk]; exact ⟨huk, rfl⟩)
      · exact .inr (by rw [if_neg huk]; exact ⟨huk, hu⟩)
    · rintro (hw | ⟨hwk, hw⟩)
      · refine ⟨v, hv, ?_⟩
        have hvk' : (v.btcAddress, v.workerName) = k := hvk
        rw [if_pos hvk', hnew.mpr hw, ← hvk']
      · exact ⟨w, hw, if_neg hwk⟩
  · have hfresh : ∀ v ∈ rows, v.key ≠ k := by simpa [WorkerRow.key] using hany
    rw [List.mem_append, List.mem_singleton, hnew, or_comm]
    exact or_congr_right ⟨fun hw => ⟨hfresh w hw, hw⟩, And.right⟩

theorem nodup_upsertWorker {now : Time} {rows : List WorkerRow} {k : Text × Text}
    (h : (rows.map WorkerRow.key).Nodup) :
    ((upsertWorker now rows k).map WorkerRow.key).Nodup := by
  unfold upsertWorker
  split_ifs with hany
  · rw [List.map_map]
    refine Eq.mpr (congrArg List.Nodup (List.map_congr_left fun w _ => ?_)) h
    rw [Function.comp_apply]
    split_ifs <;> rfl
  · have hfresh : ∀ v ∈ rows, v.key ≠ k := by simpa [WorkerRow.key] using hany
    rw [List.map_append, List.nodup_append]
    refine ⟨h, List.nodup_singleton _, fun a ha b hb => ?_⟩
    obtain ⟨v, hv, rfl⟩ := List.mem_map.mp ha
    obtain rfl : b = k := by simpa [WorkerRow.key] using hb
    exact hfresh v hv

/-- The upsert of a batch: its workers are seen now, the others are as before. -/
theorem mem_foldl_upsertWorker {now : Time} {ks : List (Text × Text)} {rows : List WorkerRow}
    {w : WorkerRow} : w ∈ ks.foldl (upsertWorker now) rows ↔
      (w.key ∈ ks ∧ w.lastSeen = now) ∨ (w.key ∉ ks ∧ w ∈ rows) := by
  induction ks generalizing rows with
  | nil => simp
  | cons k ks ih =>
      rw [List.foldl_cons, ih, mem_upsertWorker, List.mem_cons]
      tauto

theorem nodup_foldl_upsertWorker {now : Time} {ks : List (Text × Text)} {rows : List WorkerRow}
    (h : (rows.map WorkerRow.key).Nodup) :
    ((ks.foldl (upsertWorker now) rows).map WorkerRow.key).Nodup := by
  induction ks generalizing rows with
  | nil => exact h
  | cons k ks ih => exact ih (nodup_upsertWorker h)

/-! ## A run of flushes -/

/-- The time of the last batch with a share of the worker. -/
def lastBatch (batches : List Batch) (k : Text × Text) : Option Time :=
  ((batches.filter fun b => k ∈ b.1.map BufferedShare.workerKey).getLast?).map Prod.snd

/-- The shares of all batches, in order. -/
def sequence (batches : List Batch) : List BufferedShare := batches.flatMap Prod.fst

/-- A row without its id and its time. -/
def ShareRow.untimed (r : ShareRow) : ShareRow := { r with submittedAt := 0 }

/-- What the tables hold after the batches, in terms of the sequence alone and
of the times of the last batches. -/
structure Flushed (db : Db) (batches : List Batch) (db' : Db) : Prop where
  shares : ∃ added, db'.shares = db.shares ++ added ∧
    added.map ShareRow.untimed = (sequence batches).map fun sh => sh.kept.row 0
  oneRow : (db'.workers.map WorkerRow.key).Nodup
  keys : ∀ k, k ∈ db'.workers.map WorkerRow.key ↔
    k ∈ db.workers.map WorkerRow.key ∨ k ∈ (sequence batches).map BufferedShare.workerKey
  lastSeen : ∀ w ∈ db'.workers, ∀ t, lastBatch batches w.key = some t → w.lastSeen = t
  others : ∀ w, w.key ∉ (sequence batches).map BufferedShare.workerKey →
    (w ∈ db'.workers ↔ w ∈ db.workers)
  rounds : db'.rounds = db.rounds
  blocks : db'.blocks = db.blocks

/-- The same contents but for the times. -/
structure SameUpToTimes (db db' : Db) : Prop where
  shares : db.shares.map ShareRow.untimed = db'.shares.map ShareRow.untimed
  workers : (db.workers.map WorkerRow.key).Perm (db'.workers.map WorkerRow.key)
  rounds : db.rounds = db'.rounds
  blocks : db.blocks = db'.blocks

theorem lastBatch_cons (pending : List BufferedShare) (now : Time) (batches : List Batch)
    (k : Text × Text) : lastBatch ((pending, now) :: batches) k =
      (lastBatch batches k).or
        (if k ∈ pending.map BufferedShare.workerKey then some now else none) := by
  simp only [lastBatch, List.filter_cons]
  by_cases hk : k ∈ pending.map BufferedShare.workerKey
  · simp only [hk, decide_true, if_true, List.getLast?_cons]
    cases (batches.filter fun b => k ∈ b.1.map BufferedShare.workerKey).getLast? <;> rfl
  · simp only [hk, decide_false, Bool.false_eq_true, if_false, Option.or_none]

theorem lastBatch_eq_none_iff {batches : List Batch} {k : Text × Text} :
    lastBatch batches k = none ↔ k ∉ (sequence batches).map BufferedShare.workerKey := by
  simp only [lastBatch, Option.map_eq_none_iff, List.getLast?_eq_none_iff, List.filter_eq_nil_iff,
    decide_eq_true_eq, sequence, List.map_flatMap, List.mem_flatMap, not_exists, not_and]

theorem BufferedShare.Storable.of_rounds {db db' : Db} (h : db'.rounds = db.rounds) {sh : BufferedShare}
    (hsh : sh.Storable db) : sh.Storable db' := by
  obtain ⟨hadmits, hge, hlt⟩ := hsh
  refine ⟨?_, hge, hlt⟩
  rw [Db.admits, h]
  exact hadmits

/-- A worker's row after a run is the one its last batch wrote, if it has one. -/
theorem FlushRun.mem_workers {db db' : Db} {batches : List Batch} (h : FlushRun db batches db')
    (w : WorkerRow) : w ∈ db'.workers ↔
      lastBatch batches w.key = some w.lastSeen ∨
        (lastBatch batches w.key = none ∧ w ∈ db.workers) := by
  induction h with
  | nil db => simp [lastBatch]
  | cons hks hflush hrest ih =>
      obtain ⟨-, rfl⟩ := (flushShares_eq_some_iff hks).mp hflush
      rw [ih, mem_foldl_upsertWorker, lastBatch_cons, hks.mem_iff]
      split_ifs with hk
      · cases lastBatch _ w.key <;> simp [hk, eq_comm]
      · cases lastBatch _ w.key <;> simp [hk]

theorem FlushRun.nodup_workers {db db' : Db} {batches : List Batch} (h : FlushRun db batches db')
    (hkeys : (db.workers.map WorkerRow.key).Nodup) : (db'.workers.map WorkerRow.key).Nodup := by
  induction h with
  | nil db => exact hkeys
  | cons hks hflush hrest ih =>
      obtain ⟨-, rfl⟩ := (flushShares_eq_some_iff hks).mp hflush
      exact ih (nodup_foldl_upsertWorker hkeys)

theorem FlushRun.rounds_blocks {db db' : Db} {batches : List Batch} (h : FlushRun db batches db') :
    db'.rounds = db.rounds ∧ db'.blocks = db.blocks := by
  induction h with
  | nil db => exact ⟨rfl, rfl⟩
  | cons hks hflush hrest ih =>
      obtain ⟨-, rfl⟩ := (flushShares_eq_some_iff hks).mp hflush
      exact ih

theorem FlushRun.shares {db db' : Db} {batches : List Batch} (h : FlushRun db batches db')
    (hports : ∀ sh ∈ sequence batches, sh.columns = sh.kept) :
    ∃ added, db'.shares = db.shares ++ added ∧
      added.map ShareRow.untimed = (sequence batches).map fun sh => sh.kept.row 0 := by
  induction h with
  | nil db => exact ⟨[], by simp, rfl⟩
  | @cons db db₁ db₂ pending now ks batches hks hflush hrest ih =>
      obtain ⟨-, rfl⟩ := (flushShares_eq_some_iff hks).mp hflush
      simp only [sequence, List.flatMap_cons, List.mem_append] at hports ih ⊢
      obtain ⟨added, hadded, hrows⟩ := ih fun sh hsh => hports sh (.inr hsh)
      refine ⟨pending.map (fun sh => sh.columns.row now) ++ added, ?_, ?_⟩
      · rw [hadded, List.append_assoc]
      · rw [List.map_append, List.map_append, hrows, List.map_map]
        refine congrArg (· ++ _) (List.map_congr_left fun sh hsh => ?_)
        rw [Function.comp_apply, hports sh (.inl hsh)]
        rfl

theorem FlushRun.flushed {db db' : Db} {batches : List Batch} (h : FlushRun db batches db')
    (hkeys : (db.workers.map WorkerRow.key).Nodup)
    (hports : ∀ sh ∈ sequence batches, sh.columns = sh.kept) : Flushed db batches db' where
  shares := h.shares hports
  oneRow := h.nodup_workers hkeys
  keys k := by
    constructor
    · intro hk
      obtain ⟨w, hw, rfl⟩ := List.mem_map.mp hk
      rcases (h.mem_workers w).mp hw with hlast | ⟨-, hold⟩
      · right
        by_contra hnot
        rw [lastBatch_eq_none_iff.mpr hnot] at hlast
        cases hlast
      · exact .inl (List.mem_map_of_mem hold)
    · intro hk
      cases hlast : lastBatch batches k with
      | none =>
          have hold := hk.resolve_right (lastBatch_eq_none_iff.mp hlast)
          obtain ⟨w, hw, rfl⟩ := List.mem_map.mp hold
          exact List.mem_map_of_mem ((h.mem_workers w).mpr (.inr ⟨hlast, hw⟩))
      | some t =>
          exact List.mem_map.mpr ⟨⟨k.1, k.2, t⟩, (h.mem_workers _).mpr (.inl hlast), rfl⟩
  lastSeen w hw t ht := by
    rcases (h.mem_workers w).mp hw with hlast | ⟨hnone, -⟩
    · exact Option.some.inj (hlast.symm.trans ht)
    · rw [hnone] at ht
      cases ht
  others w hw := by
    have hnone := lastBatch_eq_none_iff.mpr hw
    rw [h.mem_workers, hnone]
    simp
  rounds := h.rounds_blocks.1
  blocks := h.rounds_blocks.2

/-- Storable shares can be flushed, whatever the batches and their times. -/
theorem exists_flushRun {db : Db} {batches : List Batch}
    (h : ∀ sh ∈ sequence batches, sh.Storable db) : ∃ db', FlushRun db batches db' := by
  induction batches generalizing db with
  | nil => exact ⟨db, .nil db⟩
  | cons b batches ih =>
      have hks := iterates_workerKeys b.1
      simp only [sequence, List.flatMap_cons, List.mem_append] at h ih
      have hflush := flushShares_workerKeys b.2 fun sh hsh => (h sh (.inl hsh)).admits
      have hrounds : (db.writeShares b.1 b.2).rounds = db.rounds := rfl
      obtain ⟨db', hrest⟩ := ih fun sh hsh => (h sh (.inr hsh)).of_rounds hrounds
      exact ⟨db', .cons hks hflush hrest⟩

/-- Two runs over one sequence of shares leave the same behind but for the times. -/
theorem Flushed.sameUpToTimes {db db₁ db₂ : Db} {batches₁ batches₂ : List Batch}
    (h₁ : Flushed db batches₁ db₁) (h₂ : Flushed db batches₂ db₂)
    (hsame : sequence batches₁ = sequence batches₂) : SameUpToTimes db₁ db₂ where
  shares := by
    obtain ⟨added₁, hadded₁, hrows₁⟩ := h₁.shares
    obtain ⟨added₂, hadded₂, hrows₂⟩ := h₂.shares
    rw [hadded₁, hadded₂, List.map_append, List.map_append, hrows₁, hrows₂, hsame]
  workers := (List.perm_ext_iff_of_nodup h₁.oneRow h₂.oneRow).mpr fun k => by
    rw [h₁.keys, h₂.keys, hsame]
  rounds := h₁.rounds.trans h₂.rounds.symm
  blocks := h₁.blocks.trans h₂.blocks.symm

/-- **Batches.** However storable shares are cut into batches: every flush can
succeed, no upsert names a worker twice, and the tables hold what the columns
keep of the sequence, as after flushing each share alone. That is all of a share
whose true difficulty is an integer of 15 digits at most. -/
theorem flushed_batches (db : Db) (batches : List Batch)
    (hkeys : (db.workers.map WorkerRow.key).Nodup)
    (hstorable : ∀ sh ∈ sequence batches, sh.Storable db) :
    (∃ db', FlushRun db batches db') ∧
      (∀ b ∈ batches, ∀ ks, Iterates (seenWorkers b.1) ks →
        (unnestWorkers (ks.map Prod.fst) (ks.map Prod.snd)).Nodup) ∧
      (∀ db', FlushRun db batches db' → Flushed db batches db' ∧
        ∀ singles db'', singles.map Prod.fst = (sequence batches).map (fun sh => [sh]) →
          FlushRun db singles db'' → SameUpToTimes db' db'') ∧
      ∀ sh ∈ sequence batches, ∀ n : ℤ, sh.trueDiff = n → |n| < 10 ^ 15 → sh.kept.Holds sh := by
  have hports : ∀ sh ∈ sequence batches, sh.columns = sh.kept := fun sh hsh =>
    (hstorable sh hsh).columns_eq
  refine ⟨exists_flushRun hstorable, fun b _ ks hks => ?_, fun db' hrun => ?_,
    fun sh _ n hn h => BufferedShare.holds_kept hn h⟩
  · rw [unnestWorkers_map]
    exact hks.1.map fun k l heq => by simpa [Prod.ext_iff] using heq
  · have hflushed := hrun.flushed hkeys hports
    refine ⟨hflushed, fun singles db'' hsingles hrun' => ?_⟩
    have hsame : sequence singles = sequence batches := by
      rw [sequence, List.flatMap_def, hsingles, ← List.flatMap_def]
      simp
    exact hflushed.sameUpToTimes (hrun'.flushed hkeys (hsame ▸ hports)) hsame.symm

/-- Two shares of one worker and one of another, in two batches. -/
def threeShares : List Batch :=
  [([⟨1, ['a'], ['w'], 5, 7, 3333⟩, ⟨1, ['b'], [], 6, 8, 4444⟩], 1),
    ([⟨1, ['a'], ['w'], 6, 9, 3333⟩], 2)]

theorem flushed_batches_threeShares :
    (∃ db', FlushRun .initial threeShares db') ∧
      (∀ b ∈ threeShares, ∀ ks, Iterates (seenWorkers b.1) ks →
        (unnestWorkers (ks.map Prod.fst) (ks.map Prod.snd)).Nodup) ∧
      (∀ db', FlushRun .initial threeShares db' → Flushed .initial threeShares db' ∧
        ∀ singles db'', singles.map Prod.fst = (sequence threeShares).map (fun sh => [sh]) →
          FlushRun .initial singles db'' → SameUpToTimes db' db'') ∧
      ∀ sh ∈ sequence threeShares, ∀ n : ℤ, sh.trueDiff = n → |n| < 10 ^ 15 → sh.kept.Holds sh :=
  flushed_batches .initial threeShares (by decide) fun sh hsh => by
    simp only [sequence, threeShares, List.flatMap_cons, List.flatMap_nil, List.append_nil,
      List.cons_append, List.nil_append, List.mem_cons, List.not_mem_nil, or_false] at hsh
    rcases hsh with rfl | rfl | rfl <;> exact ⟨by decide +kernel, by decide, by decide⟩

/-- A share of true difficulty 2^53, which is stored as 9007199254740990. -/
def bigShare : BufferedShare := ⟨1, ['a'], ['w'], 5, 2 ^ 53, 3333⟩

theorem flushed_batches_not_exact :
    bigShare.Storable .initial ∧ ∃ db', FlushRun .initial [([bigShare], 1)] db' ∧
      ¬ ∃ r ∈ db'.shares, r.columns.Holds bigShare := by
  have hadmits : Db.initial.admits bigShare.columns = true := by decide +kernel
  have hcast : numericOfDouble (2 ^ 53) = 9007199254740990 := by decide +kernel
  refine ⟨⟨hadmits, by decide, by decide⟩, _,
    .cons (iterates_workerKeys _) (flushShares_workerKeys 1 (by simpa using hadmits)) (.nil _), ?_⟩
  rintro ⟨r, hr, -, -, -, -, ⟨d, hd, hbig⟩, -⟩
  obtain rfl : r = bigShare.columns.row 1 := List.mem_singleton.mp hr
  have hkept : numericOfDouble (2 ^ 53) = d := Option.some.inj hd
  rw [← hkept, hcast] at hbig
  norm_num [bigShare] at hbig

end Reward
