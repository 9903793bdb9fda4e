import Unlucky21.Reward.PoolHandler
import Unlucky21.Reward.RoundStore

/-!
# Decisions on blocks

A block is confirmed or orphaned by `checkConfirmations` only, on what the RPC
answered for its hash. `MarkOrphaned` and `ConfirmBlock` do not look at the
flags: that a decision is final rests on the query, which returns undecided
blocks, and on each block coming up once in a pass. The database may fail a call
before or after its effect.
-/

namespace Reward

open Wire Runs

/-! ## What a step does to the database -/

/-- For a step of the loop over the blocks: the hash asked for and the answer. -/
def rpcReport (h : PoolHandler) : Event → Option (Text × ℤ)
  | .pollBlock (some confs) _ _ =>
      match h.pass with
      | .polling (b :: _) _ => some (b.hash, confs)
      | _ => none
  | _ => none

/-- The writes to the database, each with the answer it rests on. -/
inductive Decision (h : PoolHandler) (e : Event) : Db → Prop
  | same : Decision h e h.db
  | shares (pending now) : Decision h e (h.db.writeShares pending now)
  | inserted {bf snapshot now db'} (hins : insertBlock h.db bf snapshot now = some db') :
      Decision h e db'
  | orphaned {u rest pending confs} (hp : h.pass = .polling (u :: rest) pending)
      (hrpc : rpcReport h e = some (u.hash, confs)) (hneg : confs < 0) :
      Decision h e (markOrphaned h.db u.id)
  | confirmed {u rest pending confs now newRoundID db'} (hp : h.pass = .polling (u :: rest) pending)
      (hrpc : rpcReport h e = some (u.hash, confs)) (htwo : 2 ≤ confs)
      (hconfirm : confirmBlock h.db u.id now = some (newRoundID, db')) : Decision h e db'

variable {h h' : PoolHandler} {e : Event}

/-- A write that is lost or did not happen. -/
theorem Decision.of_write {reply : Reply} {written : Option Db}
    (hw : ∀ db', written = some db' → Decision h e db') :
    Decision h e (reply.write h.db written).1 := by
  rcases Reply.write_cases reply h.db written with heq | ⟨db', hdb', ⟨-, heq⟩ | ⟨-, heq⟩⟩
  · rw [heq]
    exact .same
  · rw [heq]
    exact hw db' hdb'
  · rw [heq]
    exact hw db' hdb'

theorem checkBlock_decision {u : UnconfirmedBlock} {rest : List UnconfirmedBlock} {pending : ℕ}
    (hp : h.pass = .polling (u :: rest) pending) (confs : Option ℤ) (reply : Reply) (now : Time) :
    Decision h (.pollBlock confs reply now) (h.checkBlock u rest pending confs reply now).db := by
  cases confs with
  | none => exact .same
  | some confs =>
      have hrpc : rpcReport h (.pollBlock (some confs) reply now) = some (u.hash, confs) := by
        simp [rpcReport, hp]
      by_cases h0 : confs < 0
      · simp only [PoolHandler.checkBlock, h0, if_true]
        refine Decision.of_write fun db' hdb' => ?_
        obtain rfl := Option.some.inj hdb'
        exact .orphaned hp hrpc h0
      · by_cases h2 : confs < 2
        · simp only [PoolHandler.checkBlock, h0, h2, if_true, if_false]
          exact .same
        · simp only [PoolHandler.checkBlock, h0, h2, if_false]
          cases hconfirm : confirmBlock h.db u.id now with
          | none => exact .same
          | some result =>
              refine Decision.of_write fun db' hdb' => ?_
              obtain rfl := Option.some.inj hdb'
              exact .confirmed hp hrpc (not_lt.mp h2) hconfirm

/-- **The writes of a step.** -/
theorem step_decision (hs : h.step e = some h') : Decision h e h'.db := by
  cases step_effect hs with
  | pollBlock hp => exact checkBlock_decision hp _ _ _
  | blockInsert ht => exact Decision.of_write fun db' hins => .inserted hins
  | flushCall hf =>
      rcases flushCall_db hf with heq | ⟨pending, now, heq⟩
      · simpa only [PoolHandler.db, heq] using Decision.same
      · simpa only [PoolHandler.db, heq] using Decision.shares pending now
  | bufferShare ht => simpa [PoolHandler.db] using Decision.same
  | takeBuffer => simpa [PoolHandler.db] using Decision.same
  | poll hp => exact .same
  | assign hp => exact .same
  | passDone hp => exact .same
  | notANumber ht hdiff => exact .same
  | recordShare ht hdiff => exact .same
  | blockFound ht => exact .same
  | blockQuery ht hq => exact .same
  | blockQueryFailed ht => exact .same
  | refresh ht => exact .same
  | refreshQuery ht hq => exact .same
  | refreshQueryFailed ht => exact .same
  | refreshStore ht => exact .same
  | pollFailed => exact .same

namespace Decision

variable {db' : Db}

theorem constraints (hd : Decision h e db') (hc : h.db.Constraints) : db'.Constraints := by
  cases hd with
  | same => exact hc
  | shares pending now => exact hc.of_writeShares pending now
  | inserted hins => exact hc.of_insertBlock hins
  | orphaned hp hrpc hneg => exact hc.of_markOrphaned _
  | confirmed hp hrpc htwo hconfirm =>
      obtain ⟨b, -, -, -, ⟨-, -, rfl⟩ | ⟨-, -, rfl⟩⟩ := confirmBlock_inv hconfirm
      · exact hc.of_markConfirmed _
      · exact ((hc.of_markConfirmed _).of_closeRound _ _ _).of_openRound _

end Decision

/-- The rows of `blocks` after a step. -/
inductive BlockStep (h : PoolHandler) (e : Event) : List BlockRow → Prop
  | same : BlockStep h e h.db.blocks
  | inserted {row : BlockRow} (hid : row.id = h.db.blockSeq) (hc : row.confirmed = false)
      (ho : row.isOrphaned = false) : BlockStep h e (h.db.blocks ++ [row])
  | orphaned {u rest pending confs} (hp : h.pass = .polling (u :: rest) pending)
      (hrpc : rpcReport h e = some (u.hash, confs)) (hneg : confs < 0) :
      BlockStep h e (h.db.blocks.map fun b => if b.id = u.id then { b with isOrphaned := true } else b)
  | confirmed {u rest pending confs} (hp : h.pass = .polling (u :: rest) pending)
      (hrpc : rpcReport h e = some (u.hash, confs)) (htwo : 2 ≤ confs) :
      BlockStep h e (h.db.blocks.map fun b => if b.id = u.id then { b with confirmed := true } else b)

theorem Decision.blockStep {db' : Db} (hd : Decision h e db') : BlockStep h e db'.blocks := by
  cases hd with
  | same => exact .same
  | shares pending now => exact .same
  | inserted hins =>
      unfold insertBlock at hins
      split_ifs at hins
      obtain rfl := Option.some.inj hins
      exact .inserted rfl rfl rfl
  | orphaned hp hrpc hneg => exact .orphaned hp hrpc hneg
  | confirmed hp hrpc htwo hconfirm =>
      obtain ⟨b, -, -, -, ⟨-, -, rfl⟩ | ⟨-, -, rfl⟩⟩ := confirmBlock_inv hconfirm
      · exact .confirmed hp hrpc htwo
      · exact .confirmed hp hrpc htwo

theorem mem_map_flag {blocks : List BlockRow} {i : ℕ} {g : BlockRow → BlockRow} {b' : BlockRow} :
    b' ∈ (blocks.map fun b => if b.id = i then g b else b) ↔
      (b' ∈ blocks ∧ b'.id ≠ i) ∨ ∃ b ∈ blocks, b.id = i ∧ b' = g b := by
  rw [List.mem_map]
  constructor
  · rintro ⟨b, hb, rfl⟩
    split_ifs with hid
    · exact .inr ⟨b, hb, hid, rfl⟩
    · exact .inl ⟨hb, hid⟩
  · rintro (⟨hb, hid⟩ | ⟨b, hb, hid, rfl⟩)
    · exact ⟨b', hb, if_neg hid⟩
    · exact ⟨b, hb, if_pos hid⟩

/-! ## The blocks a pass still has before it -/

def Pass.rest : Pass → List UnconfirmedBlock
  | .idle => []
  | .polling rest _ => rest
  | .confirmed _ rest _ => rest

def BlockRow.undecided (b : BlockRow) : Bool := !b.confirmed && !b.isOrphaned

theorem mem_getUnconfirmedBlocks {db : Db} {scan : List ℕ} {u : UnconfirmedBlock} :
    u ∈ getUnconfirmedBlocks db scan ↔
      ∃ b ∈ db.blocks, b.undecided ∧ u = ⟨b.id, b.hash, b.height, b.roundId⟩ := by
  simp only [getUnconfirmedBlocks, List.mem_map, List.mem_insertionSort, List.mem_filter,
    BlockRow.undecided, and_assoc, eq_comm]

theorem nodup_getUnconfirmedBlocks {db : Db} (hc : db.Constraints) (scan : List ℕ) :
    ((getUnconfirmedBlocks db scan).map UnconfirmedBlock.id).Nodup := by
  rw [getUnconfirmedBlocks, List.map_map]
  refine ((List.perm_insertionSort _ _).map _).nodup_iff.mpr ?_
  exact hc.block_ids.sublist (List.filter_sublist.map _)

theorem checkBlock_rest (h : PoolHandler) (u : UnconfirmedBlock) (rest : List UnconfirmedBlock)
    (pending : ℕ) (confs : Option ℤ) (reply : Reply) (now : Time) :
    (h.checkBlock u rest pending confs reply now).pass.rest = rest := by
  cases confs with
  | none => rfl
  | some confs =>
      by_cases h0 : confs < 0
      · simp only [PoolHandler.checkBlock, h0, if_true]
        rfl
      · by_cases h2 : confs < 2
        · simp only [PoolHandler.checkBlock, h0, h2, if_true, if_false]
          rfl
        · simp only [PoolHandler.checkBlock, h0, h2, if_false]
          cases confirmBlock h.db u.id now with
          | none => rfl
          | some result =>
              simp only
              split <;> rfl

/-- A pass starts with the answer of the query and looks at one block a step. -/
theorem step_rest (hs : h.step e = some h') :
    (h'.pass.rest = h.pass.rest ∧ rpcReport h e = none) ∨
      (h'.db = h.db ∧ ∃ scan, h'.pass.rest = getUnconfirmedBlocks h.db scan) ∨
      ∃ u, h.pass.rest = u :: h'.pass.rest := by
  cases step_effect hs with
  | poll hp =>
      rename_i reply scan
      exact .inr (.inl ⟨rfl, scan, rfl⟩)
  | pollBlock hp =>
      rename_i confs reply now u rest pending
      exact .inr (.inr ⟨u, by rw [hp, checkBlock_rest]; rfl⟩)
  | assign hp => exact .inl ⟨by rw [hp]; rfl, rfl⟩
  | passDone hp => exact .inl ⟨by rw [hp]; rfl, rfl⟩
  | notANumber ht hdiff => exact .inl ⟨rfl, rfl⟩
  | recordShare ht hdiff => exact .inl ⟨rfl, rfl⟩
  | bufferShare ht => exact .inl ⟨rfl, rfl⟩
  | takeBuffer => exact .inl ⟨rfl, rfl⟩
  | flushCall hf => exact .inl ⟨rfl, rfl⟩
  | blockFound ht => exact .inl ⟨rfl, rfl⟩
  | blockQuery ht hq => exact .inl ⟨rfl, rfl⟩
  | blockQueryFailed ht => exact .inl ⟨rfl, rfl⟩
  | blockInsert ht => exact .inl ⟨rfl, rfl⟩
  | refresh ht => exact .inl ⟨rfl, rfl⟩
  | refreshQuery ht hq => exact .inl ⟨rfl, rfl⟩
  | refreshQueryFailed ht => exact .inl ⟨rfl, rfl⟩
  | refreshStore ht => exact .inl ⟨rfl, rfl⟩
  | pollFailed => exact .inl ⟨rfl, rfl⟩

/-- No block is decided both ways, and what a pass has before it is undecided. -/
structure DecisionInv (h : PoolHandler) : Prop where
  constraints : h.db.Constraints
  exclusive : ∀ b ∈ h.db.blocks, ¬ (b.confirmed ∧ b.isOrphaned)
  rest_nodup : (h.pass.rest.map UnconfirmedBlock.id).Nodup
  rest_row : ∀ u ∈ h.pass.rest, ∃ b ∈ h.db.blocks, b.id = u.id ∧ b.hash = u.hash ∧ b.undecided

/-- The block a pass looks at. -/
theorem DecisionInv.head_row (hinv : DecisionInv h) {u : UnconfirmedBlock}
    {rest : List UnconfirmedBlock} {pending : ℕ} (hp : h.pass = .polling (u :: rest) pending)
    {b : BlockRow} (hb : b ∈ h.db.blocks) (hid : b.id = u.id) : b.hash = u.hash ∧ b.undecided := by
  obtain ⟨b', hb', hid', hhash, hund⟩ := hinv.rest_row u (by rw [hp]; exact List.mem_cons_self)
  obtain rfl : b = b' :=
    List.inj_on_of_nodup_map hinv.constraints.block_ids hb hb' (hid.trans hid'.symm)
  exact ⟨hhash, hund⟩

/-- What a step makes of a row. -/
inductive RowStep (h : PoolHandler) (e : Event) : BlockRow → Prop
  | kept {b} (hb : b ∈ h.db.blocks) : RowStep h e b
  | inserted {b : BlockRow} (hund : b.undecided) : RowStep h e b
  | orphaned {b : BlockRow} {confs} (hb : b ∈ h.db.blocks) (hund : b.undecided)
      (hrpc : rpcReport h e = some (b.hash, confs)) (hneg : confs < 0) :
      RowStep h e { b with isOrphaned := true }
  | confirmed {b : BlockRow} {confs} (hb : b ∈ h.db.blocks) (hund : b.undecided)
      (hrpc : rpcReport h e = some (b.hash, confs)) (htwo : 2 ≤ confs) :
      RowStep h e { b with confirmed := true }

theorem DecisionInv.rowStep (hinv : DecisionInv h) {blocks : List BlockRow}
    (hstep : BlockStep h e blocks) {b' : BlockRow} (hb' : b' ∈ blocks) : RowStep h e b' := by
  cases hstep with
  | same => exact .kept hb'
  | inserted hid hc ho =>
      rcases List.mem_append.mp hb' with hb' | hb'
      · exact .kept hb'
      · obtain rfl := List.mem_singleton.mp hb'
        exact .inserted (by simp [BlockRow.undecided, hc, ho])
  | orphaned hp hrpc hneg =>
      rcases mem_map_flag.mp hb' with ⟨hb', -⟩ | ⟨b, hb, hid, rfl⟩
      · exact .kept hb'
      · obtain ⟨hhash, hund⟩ := hinv.head_row hp hb hid
        exact .orphaned hb hund (hhash ▸ hrpc) hneg
  | confirmed hp hrpc htwo =>
      rcases mem_map_flag.mp hb' with ⟨hb', -⟩ | ⟨b, hb, hid, rfl⟩
      · exact .kept hb'
      · obtain ⟨hhash, hund⟩ := hinv.head_row hp hb hid
        exact .confirmed hb hund (hhash ▸ hrpc) htwo

/-- A row stays, unless the step has an answer for it. -/
theorem BlockStep.keeps {blocks : List BlockRow} (hstep : BlockStep h e blocks) {b : BlockRow}
    (hb : b ∈ h.db.blocks)
    (hne : ∀ u rest pending, h.pass = .polling (u :: rest) pending → rpcReport h e ≠ none →
      b.id ≠ u.id) : b ∈ blocks := by
  cases hstep with
  | same => exact hb
  | inserted hid hc ho => exact List.mem_append_left _ hb
  | orphaned hp hrpc hneg =>
      exact mem_map_flag.mpr (.inl ⟨hb, hne _ _ _ hp (by rw [hrpc]; exact Option.some_ne_none _)⟩)
  | confirmed hp hrpc htwo =>
      exact mem_map_flag.mpr (.inl ⟨hb, hne _ _ _ hp (by rw [hrpc]; exact Option.some_ne_none _)⟩)

namespace DecisionInv

/-- A decided row stays. -/
theorem keeps (hinv : DecisionInv h) {blocks : List BlockRow} (hstep : BlockStep h e blocks)
    {b : BlockRow} (hb : b ∈ h.db.blocks) (hdec : b.undecided = false) : b ∈ blocks := by
  refine hstep.keeps hb fun u rest pending hp _ hid => ?_
  rw [(hinv.head_row hp hb hid).2] at hdec
  cases hdec

/-- So does a row that the pass still has before it. -/
theorem keeps_rest (hinv : DecisionInv h) (hs : h.step e = some h') {u : UnconfirmedBlock}
    (hrest : h'.pass.rest = h.pass.rest ∧ rpcReport h e = none ∨ ∃ v, h.pass.rest = v :: h'.pass.rest)
    (hu : u ∈ h'.pass.rest) :
    ∃ b ∈ h'.db.blocks, b.id = u.id ∧ b.hash = u.hash ∧ b.undecided := by
  have hmem : u ∈ h.pass.rest := by
    rcases hrest with ⟨heq, -⟩ | ⟨v, heq⟩
    · rwa [heq] at hu
    · rw [heq]
      exact List.mem_cons_of_mem v hu
  obtain ⟨b, hb, hid, hhash, hund⟩ := hinv.rest_row u hmem
  refine ⟨b, (step_decision hs).blockStep.keeps hb fun v rest pending hp hrpc => ?_, hid, hhash, hund⟩
  rcases hrest with ⟨-, hnone⟩ | ⟨v', heq⟩
  · exact absurd hnone hrpc
  · have hnodup := hinv.rest_nodup
    rw [heq, List.map_cons, List.nodup_cons] at hnodup
    have hv : v = v' := by
      rw [hp] at heq
      exact (List.cons.inj heq).1
    rw [hid, hv]
    intro heq'
    exact hnodup.1 (heq' ▸ List.mem_map_of_mem hu)

theorem step (hinv : DecisionInv h) (hs : h.step e = some h') : DecisionInv h' where
  constraints := (step_decision hs).constraints hinv.constraints
  exclusive := by
    intro b hb
    cases hinv.rowStep (step_decision hs).blockStep hb with
    | kept hb => exact hinv.exclusive b hb
    | inserted hund =>
        simp only [BlockRow.undecided, Bool.and_eq_true, Bool.not_eq_true'] at hund
        simp [hund]
    | orphaned hb hund hrpc hneg =>
        simp only [BlockRow.undecided, Bool.and_eq_true, Bool.not_eq_true'] at hund
        simp [hund]
    | confirmed hb hund hrpc htwo =>
        simp only [BlockRow.undecided, Bool.and_eq_true, Bool.not_eq_true'] at hund
        simp [hund]
  rest_nodup := by
    rcases step_rest hs with ⟨heq, -⟩ | ⟨-, scan, heq⟩ | ⟨u, heq⟩
    · rw [heq]
      exact hinv.rest_nodup
    · rw [heq]
      exact nodup_getUnconfirmedBlocks hinv.constraints scan
    · have := hinv.rest_nodup
      rw [heq, List.map_cons, List.nodup_cons] at this
      exact this.2
  rest_row := by
    intro u hu
    rcases step_rest hs with hsame | ⟨hdb, scan, heq⟩ | htail
    · exact hinv.keeps_rest hs (.inl hsame) hu
    · rw [heq] at hu
      obtain ⟨b, hb, hund, rfl⟩ := mem_getUnconfirmedBlocks.mp hu
      exact ⟨b, hdb ▸ hb, rfl, rfl, hund⟩
    · exact hinv.keeps_rest hs (.inr htail) hu

theorem run (hinv : DecisionInv h) {es : List Event} (hr : run PoolHandler.step h es = some h') :
    DecisionInv h' :=
  run_invariant (fun _ _ _ hi hs => hi.step hs) hinv hr

/-- A decided row stays for good. -/
theorem run_keeps (hinv : DecisionInv h) {es : List Event}
    (hr : Runs.run PoolHandler.step h es = some h') {b : BlockRow} (hb : b ∈ h.db.blocks)
    (hdec : b.undecided = false) : b ∈ h'.db.blocks :=
  (run_invariant (P := fun h' => DecisionInv h' ∧ b ∈ h'.db.blocks)
    (fun _ _ _ hi hs => ⟨hi.1.step hs, hi.1.keeps (step_decision hs).blockStep hi.2 hdec⟩)
    ⟨hinv, hb⟩ hr).2

end DecisionInv

/-! ## Reasons -/

/-- The flags of a row are those it had at the start, or rest on an answer for its hash. -/
structure Justified (db : Db) (answers : List (Text × ℤ)) (b : BlockRow) : Prop where
  confirmed : b.confirmed → (∃ b₀ ∈ db.blocks, b₀.id = b.id ∧ b₀.confirmed) ∨
    ∃ confs, (b.hash, confs) ∈ answers ∧ 2 ≤ confs
  orphaned : b.isOrphaned → (∃ b₀ ∈ db.blocks, b₀.id = b.id ∧ b₀.isOrphaned) ∨
    ∃ confs, (b.hash, confs) ∈ answers ∧ confs < 0

theorem Justified.mono {db : Db} {answers answers' : List (Text × ℤ)} {b : BlockRow}
    (hj : Justified db answers b) (hsub : ∀ a ∈ answers, a ∈ answers') : Justified db answers' b where
  confirmed hc := (hj.confirmed hc).imp_right fun ⟨confs, hmem, htwo⟩ => ⟨confs, hsub _ hmem, htwo⟩
  orphaned ho := (hj.orphaned ho).imp_right fun ⟨confs, hmem, hneg⟩ => ⟨confs, hsub _ hmem, hneg⟩

theorem Justified.of_undecided {db : Db} {answers : List (Text × ℤ)} {b : BlockRow}
    (hund : b.undecided) : Justified db answers b := by
  simp only [BlockRow.undecided, Bool.and_eq_true, Bool.not_eq_true'] at hund
  exact ⟨fun hc => absurd hc (by simp [hund]), fun ho => absurd ho (by simp [hund])⟩

theorem run_justified {h₀ : PoolHandler} {es : List Event} (h0 : DecisionInv h₀)
    (hr : run PoolHandler.step h₀ es = some h) :
    ∀ b ∈ h.db.blocks, Justified h₀.db (reports PoolHandler.step rpcReport h₀ es) b := by
  refine run_history (P := fun es h => ∀ b ∈ h.db.blocks,
    Justified h₀.db (reports PoolHandler.step rpcReport h₀ es) b) ?_ ?_ hr
  · exact fun b hb => ⟨fun hc => .inl ⟨b, hb, rfl, hc⟩, fun ho => .inl ⟨b, hb, rfl, ho⟩⟩
  · intro es h e h' hr hall hs b hb
    have hmono : ∀ a ∈ reports PoolHandler.step rpcReport h₀ es,
        a ∈ reports PoolHandler.step rpcReport h₀ (es ++ [e]) := by
      intro a ha
      rw [reports_snoc hr]
      exact List.mem_append_left _ ha
    have hnew : ∀ a, rpcReport h e = some a →
        a ∈ reports PoolHandler.step rpcReport h₀ (es ++ [e]) := by
      intro a ha
      rw [reports_snoc hr, ha]
      exact List.mem_append_right _ List.mem_cons_self
    cases (h0.run hr).rowStep (step_decision hs).blockStep hb with
    | kept hb => exact (hall b hb).mono hmono
    | inserted hund => exact .of_undecided hund
    | @orphaned b confs hold hund hrpc hneg =>
        have hj := (hall b hold).mono hmono
        exact ⟨hj.confirmed, fun _ => .inr ⟨confs, hnew _ hrpc, hneg⟩⟩
    | @confirmed b confs hold hund hrpc htwo =>
        have hj := (hall b hold).mono hmono
        exact ⟨fun _ => .inr ⟨confs, hnew _ hrpc, htwo⟩, hj.orphaned⟩

/-! ## Closed rounds -/

theorem Decision.rounds {db' : Db} (hd : Decision h e db') :
    db'.rounds = h.db.rounds ∨ ∃ u rest pending now newRoundID,
      h.pass = .polling (u :: rest) pending ∧
      confirmBlock h.db u.id now = some (newRoundID, db') := by
  cases hd with
  | same => exact .inl rfl
  | shares pending now => exact .inl rfl
  | inserted hins => exact .inl (insertBlock_rounds hins)
  | orphaned hp hrpc hneg => exact .inl rfl
  | confirmed hp hrpc htwo hconfirm => exact .inr ⟨_, _, _, _, _, hp, hconfirm⟩

/-- A step that ends a round confirms a block of the round. -/
theorem DecisionInv.step_ends (hinv : DecisionInv h) (hs : h.step e = some h') {r r' : RoundRow}
    (hr : r ∈ h.db.rounds) (hr' : r' ∈ h'.db.rounds) (hid : r'.id = r.id) (hopen : r.endedAt = none)
    (hended : r'.endedAt.isSome) :
    ∃ b ∈ h.db.blocks, b.undecided ∧ b.roundId = r.id ∧ r'.blockId = some b.id ∧
      { b with confirmed := true } ∈ h'.db.blocks := by
  have hkept : r' ∉ h.db.rounds := by
    intro hmem
    obtain rfl := List.inj_on_of_nodup_map hinv.constraints.round_ids hmem hr hid
    simp [hopen] at hended
  rcases (step_decision hs).rounds with heq | ⟨u, rest, pending, now, newRoundID, hp, hconfirm⟩
  · exact absurd (heq ▸ hr') hkept
  · obtain ⟨b, hb, hbid, -, ⟨-, -, hdb⟩ | ⟨-, -, hdb⟩⟩ := confirmBlock_inv hconfirm
    · rw [hdb] at hr'
      exact absurd hr' hkept
    · rw [hdb] at hr' ⊢
      rcases RoundStore.mem_rounds_confirmed hr' with ⟨hmem, -⟩ | ⟨hround, -, hblock⟩ | rfl
      · exact absurd hmem hkept
      · exact ⟨b, hb, (hinv.head_row hp hb hbid).2, hround.symm.trans hid, hbid ▸ hblock,
          mem_map_flag.mpr (.inr ⟨b, hb, hbid, rfl⟩)⟩
      · cases hended

/-! ## Runs -/

theorem DecisionInv.boot {db : Db} {h₀ : PoolHandler} (hc : db.Constraints)
    (hexcl : ∀ b ∈ db.blocks, ¬ (b.confirmed ∧ b.isOrphaned))
    (hboot : PoolHandler.boot db = some h₀) : h₀.db = db ∧ DecisionInv h₀ := by
  obtain ⟨roundID, -, rfl⟩ := Option.map_eq_some_iff.mp hboot
  exact ⟨rfl, hc, hexcl, List.nodup_nil, fun u hu => absurd hu List.not_mem_nil⟩

/-- **Decisions are justified and final.** In every run, whatever the RPC
answers and whichever calls of the database fail, before or after their effect:
no block is decided both ways, each decision rests on an answer for the block's
hash, a decided row stays as it is, and a round ends in the step that confirms
one of its blocks. -/
theorem decisions_justified_final {db : Db} {h₀ h : PoolHandler} {es : List Event}
    (hc : db.Constraints) (hexcl : ∀ b ∈ db.blocks, ¬ (b.confirmed ∧ b.isOrphaned))
    (hboot : PoolHandler.boot db = some h₀) (hr : run PoolHandler.step h₀ es = some h) :
    (∀ b ∈ h.db.blocks, ¬ (b.confirmed ∧ b.isOrphaned)) ∧
    (∀ b ∈ h.db.blocks, Justified db (reports PoolHandler.step rpcReport h₀ es) b) ∧
    (∀ es' h', run PoolHandler.step h es' = some h' → ∀ b ∈ h.db.blocks,
      b.confirmed ∨ b.isOrphaned → b ∈ h'.db.blocks ∧ ∀ b' ∈ h'.db.blocks, b'.id = b.id → b' = b) ∧
    (∀ e h', h.step e = some h' → ∀ r ∈ h.db.rounds, ∀ r' ∈ h'.db.rounds, r'.id = r.id →
      r.endedAt = none → r'.endedAt.isSome →
        ∃ b ∈ h.db.blocks, b.undecided ∧ b.roundId = r.id ∧ r'.blockId = some b.id ∧
          { b with confirmed := true } ∈ h'.db.blocks) := by
  obtain ⟨rfl, h0⟩ := DecisionInv.boot hc hexcl hboot
  have hinv := h0.run hr
  refine ⟨hinv.exclusive, run_justified h0 hr, fun es' h' hr' b hb hdec => ?_,
    fun e h' hs r hr r' hr' => hinv.step_ends hs hr hr'⟩
  have hdecided : b.undecided = false := by
    rcases hdec with hdec | hdec <;> simp [BlockRow.undecided, hdec]
  have hmem := hinv.run_keeps hr' hb hdecided
  exact ⟨hmem, fun b' hb' hid =>
    List.inj_on_of_nodup_map (hinv.run hr').constraints.block_ids hb' hmem hid⟩

/-- A confirmation whose answer is lost and that is not taken again. -/
def confirmLost : List Event :=
  [.blockFound 0 ⟨800000, ['a'], ['m'], ['t'], 0⟩, .blockQuery 0 .ok 10 [], .blockInsert 0 .ok 10,
    .poll .ok [], .pollBlock (some 3) .lost 30, .passDone, .poll .ok [], .passDone]

theorem decisions_confirmLost :
    ∃ h, (PoolHandler.boot .initial).bind (run PoolHandler.step · confirmLost) = some h ∧
      h.db.blocks.map BlockRow.confirmed = [true] ∧
      ∀ b ∈ h.db.blocks, Justified .initial [(['a'], 3)] b := by
  obtain ⟨h, hrun, hflags⟩ := Option.map_eq_some_iff.mp (by decide +kernel :
    ((PoolHandler.boot .initial).bind (run PoolHandler.step · confirmLost)).map
      (fun h => h.db.blocks.map BlockRow.confirmed) = some [true])
  obtain ⟨h₀, hboot, hrun'⟩ := Option.bind_eq_some_iff.mp hrun
  have hreports : (PoolHandler.boot .initial).map
      (reports PoolHandler.step rpcReport · confirmLost) = some [(['a'], 3)] := by
    decide +kernel
  obtain ⟨-, hjust, -⟩ := decisions_justified_final initial_constraints (by decide) hboot hrun'
  have hanswers : reports PoolHandler.step rpcReport h₀ confirmLost = [(['a'], 3)] := by
    simpa [hboot] using hreports
  rw [hanswers] at hjust
  exact ⟨h, hrun, hflags, hjust⟩

end Reward
