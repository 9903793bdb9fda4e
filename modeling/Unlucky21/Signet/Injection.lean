import Unlucky21.Signet.Signer

/-!
# What the signer writes

The block is read by offsets in three places. Each lemma here says where one of
the loops stops when the bytes at its offset are a serialized value, whatever is
in front and behind; together they give the block that is written.
-/

namespace Signet

open Wire CText Script

/-! ## Bytes at an offset -/

section

variable {buf : Bytes} {off : ℕ}

theorem drop_add_of_drop {a rest : Bytes} (h : buf.drop off = a ++ rest) :
    buf.drop (off + a.length) = rest := by
  rw [← List.drop_drop, h, List.drop_left]

theorem getElem?_of_drop {b : UInt8} {rest : Bytes} (h : buf.drop off = b :: rest) :
    buf[off]? = some b := by
  have hget := congrArg (fun l => l[0]?) h
  simpa using hget

theorem slice_of_drop {as rest : Bytes} (h : buf.drop off = as ++ rest) :
    slice buf off (off + as.length) = as := by
  rw [slice, List.drop_take, Nat.add_sub_cancel_left, h, List.take_left]

theorem unpackFrom_of_drop {k n : ℕ} {rest : Bytes} (hk : 0 < k) (hn : n < 256 ^ k)
    (h : buf.drop off = leBytes k n ++ rest) : unpackFrom k buf off = some n := by
  have hlen := congrArg List.length h
  simp only [List.length_drop, List.length_append, leBytes_length] at hlen
  rw [unpackFrom, if_pos (by omega), h, List.take_left' (leBytes_length k n), leNat_leBytes hn]

theorem pack_eq {k n : ℕ} (h : n < 256 ^ k) : pack k n = some (leBytes k n) := if_pos h

theorem encodeVarint_eq {n : ℕ} (h : n < 2 ^ 64) : encodeVarint n = some (compactSize n) := by
  have h16 : n ≤ 0xffff ↔ n < 2 ^ 16 := by omega
  have h32 : n ≤ 0xffffffff ↔ n < 2 ^ 32 := by omega
  unfold encodeVarint compactSize
  simp only [h16, h32]
  split_ifs
  · rfl
  · rw [pack_eq (by norm_num; omega), Option.map_some]
  · rw [pack_eq (by norm_num; omega), Option.map_some]
  · rw [pack_eq (by norm_num; omega), Option.map_some]

theorem encodePush_eq {data : Bytes} (h : data.length < 2 ^ 32) :
    encodePush data = some (pushData data) := by
  unfold encodePush pushData
  by_cases h0 : data.length = 0
  · obtain rfl := List.length_eq_zero_iff.mp h0
    rfl
  · simp only [h0, if_false]
    split_ifs
    · rfl
    · rfl
    · rw [pack_eq (by norm_num; omega), Option.map_some]
    · rw [pack_eq (by norm_num; omega), Option.map_some]

/-- Reading a count inverts writing it. -/
theorem readVarint_of_drop {n : ℕ} {rest : Bytes} (hn : n < 2 ^ 64)
    (h : buf.drop off = compactSize n ++ rest) :
    readVarint buf off = some (n, off + (compactSize n).length) := by
  unfold compactSize at h ⊢
  split_ifs at h ⊢ with h1 h2 h3
  · have hb : (UInt8.ofNat n).toNat = n := by
      simp only [UInt8.toNat_ofNat']
      omega
    simp [readVarint, getElem?_of_drop h, hb, h1]
  · have hnum := unpackFrom_of_drop (k := 2) (n := n) (by norm_num) (by norm_num; omega)
      (drop_add_of_drop (a := [0xfd]) h)
    simp only [List.length_singleton] at hnum
    simp [readVarint, getElem?_of_drop h, hnum]
  · have hnum := unpackFrom_of_drop (k := 4) (n := n) (by norm_num) (by norm_num; omega)
      (drop_add_of_drop (a := [0xfe]) h)
    simp only [List.length_singleton] at hnum
    simp [readVarint, getElem?_of_drop h, hnum]
  · have hnum := unpackFrom_of_drop (k := 8) (n := n) (by norm_num) (by norm_num; omega)
      (drop_add_of_drop (a := [0xff]) h)
    simp only [List.length_singleton] at hnum
    simp [readVarint, getElem?_of_drop h, hnum]

/-! ## The loops -/

/-- A loop over serialized values stops behind them. -/
theorem skipMany_of_drop {α : Type*} {ser : α → Bytes} {skip : ℕ → Option ℕ} :
    ∀ {xs : List α} {off : ℕ}, (∀ x ∈ xs, ∀ off rest, buf.drop off = ser x ++ rest →
      skip off = some (off + (ser x).length)) →
      ∀ rest, buf.drop off = xs.flatMap ser ++ rest →
        skipMany skip xs.length off = some (off + (xs.flatMap ser).length)
  | [], _, _, _, _ => rfl
  | x :: xs, off, hskip, rest, h => by
      rw [List.flatMap_cons, List.append_assoc] at h
      have hx := hskip x List.mem_cons_self off _ h
      have htail := skipMany_of_drop (fun y hy => hskip y (List.mem_cons_of_mem _ hy)) rest
        (drop_add_of_drop h)
      rw [List.length_cons, skipMany, hx, List.flatMap_cons, List.length_append, ← Nat.add_assoc]
      exact htail

theorem skipItem_of_drop {item rest : Bytes} (hi : item.length < 2 ^ 64)
    (h : buf.drop off = varBytes item ++ rest) :
    skipItem buf off = some (off + (varBytes item).length) := by
  rw [varBytes, List.append_assoc] at h
  rw [skipItem, readVarint_of_drop hi h, varBytes, List.length_append, ← Nat.add_assoc]
  rfl

theorem skipInput_of_drop {i : TxIn} {rest : Bytes} (hi : i.Fits)
    (h : buf.drop off = i.ser ++ rest) : skipInput buf off = some (off + i.ser.length) := by
  simp only [TxIn.ser, varBytes, List.append_assoc] at h
  have hscript := drop_add_of_drop h
  rw [hi.prevout] at hscript
  rw [skipInput, readVarint_of_drop hi.scriptSig hscript]
  simp only [Option.map_some, TxIn.ser, varBytes, List.length_append, hi.prevout, hi.sequence,
    Option.some.injEq]
  omega

theorem skipOutput_of_drop {o : TxOut} {rest : Bytes} (ho : o.Fits)
    (h : buf.drop off = o.ser ++ rest) : skipOutput buf off = some (off + o.ser.length) := by
  simp only [TxOut.ser, varBytes, List.append_assoc] at h
  have hscript := drop_add_of_drop h
  rw [leBytes_length] at hscript
  rw [skipOutput, readVarint_of_drop ho.script hscript]
  simp only [Option.map_some, TxOut.ser, varBytes, List.length_append, leBytes_length,
    Option.some.injEq]
  omega

theorem skipStack_of_drop {items : List Bytes} {rest : Bytes} (hs : StackFits items)
    (h : buf.drop off = serStack items ++ rest) :
    skipStack buf off = some (off + (serStack items).length) := by
  rw [serStack, List.append_assoc] at h
  have hitems := skipMany_of_drop
    (fun item hi off rest hd => skipItem_of_drop (hs.items item hi) hd) rest (drop_add_of_drop h)
  simp only [skipStack, readVarint_of_drop hs.count h, Option.bind_eq_bind, Option.bind_some,
    hitems, serStack, List.length_append, Nat.add_assoc]

/-! ## A transaction -/

variable {t : WitnessTx}

theorem isSegwit_of_drop (h0 : t.tx.ins ≠ []) {rest : Bytes}
    (h : buf.drop off = t.marker ++ (compactSize t.tx.ins.length ++ rest)) :
    isSegwit buf off = some t.witness.isSome := by
  cases hw : t.witness with
  | some w =>
      simp only [WitnessTx.marker, hw, Option.isSome_some, if_true] at h
      have hflag := getElem?_of_drop (drop_add_of_drop (a := [0x00]) h)
      simp only [List.length_singleton] at hflag
      simp [isSegwit, getElem?_of_drop h, hflag]
  | none =>
      obtain ⟨b, bs, hsize, hb⟩ := exists_compactSize_cons (List.length_pos_iff.mpr h0)
      simp only [WitnessTx.marker, hw, Option.isSome_none, Bool.false_eq_true, if_false,
        List.nil_append, hsize, List.cons_append] at h
      simp [isSegwit, getElem?_of_drop h, hb]

theorem skipHead_of_drop (ht : t.Fits) {rest : Bytes} (h : buf.drop off = t.head ++ rest) :
    skipHead buf off = some (t.witness.isSome, t.tx.ins.length, off + t.head.length) := by
  simp only [WitnessTx.head, List.append_assoc] at h
  have hmarker := drop_add_of_drop h
  rw [leBytes_length] at hmarker
  have hcount := drop_add_of_drop hmarker
  have hoff : off + 4 + t.marker.length =
      if t.witness.isSome then off + 6 else off + 4 := by
    unfold WitnessTx.marker
    split_ifs <;> rfl
  have hins := skipMany_of_drop
    (fun i hi off rest hd => skipInput_of_drop (ht.tx.ins i hi) hd) rest (drop_add_of_drop hcount)
  have hlen : off + t.head.length = off + 4 + t.marker.length +
      (compactSize t.tx.ins.length).length + (t.tx.ins.flatMap TxIn.ser).length := by
    simp only [WitnessTx.head, List.length_append, leBytes_length]
    omega
  simp only [skipHead, isSegwit_of_drop ht.inputs hmarker, Option.bind_eq_bind, Option.bind_some,
    ← hoff, readVarint_of_drop ht.tx.insCount hcount, hins, hlen]

theorem skipOutputs_of_drop (ht : t.Fits) {rest : Bytes}
    (h : buf.drop off = serOuts t.tx.outs ++ rest) :
    skipMany (skipOutput buf) t.tx.outs.length off = some (off + (serOuts t.tx.outs).length) :=
  skipMany_of_drop (fun o ho _ _ hd => skipOutput_of_drop (ht.tx.outs o ho) hd) rest h

theorem skipWitnesses_of_drop (ht : t.Fits) {rest : Bytes}
    (h : buf.drop off = t.serWitness ++ rest) :
    skipWitnesses buf t.witness.isSome t.tx.ins.length off =
      some (off + t.serWitness.length) := by
  have hcount := ht.count
  have hitems := ht.witness
  cases hw : t.witness with
  | none => simp [skipWitnesses, WitnessTx.serWitness, hw]
  | some w =>
      rw [hw] at hcount hitems
      simp only [WitnessTx.serWitness, hw, Option.getD_some] at h ⊢
      rw [skipWitnesses, Option.isSome_some, if_pos rfl, ← hcount w rfl]
      exact skipMany_of_drop
        (fun items hi _ _ hd => skipStack_of_drop (hitems w rfl items hi) hd) rest h

/-- **A transaction is walked over** from its first byte to its last. -/
theorem parseTx_of_drop (ht : t.Fits) {rest : Bytes} (h : buf.drop off = t.ser ++ rest) :
    parseTx buf off = some (t.ser, off + t.ser.length) := by
  have hslice := slice_of_drop h
  simp only [WitnessTx.ser, WitnessTx.tail, List.append_assoc] at h
  have hv : t.tx.version < 256 ^ 4 := by have := ht.tx.version; norm_num; omega
  have hversion : buf.drop off = leBytes 4 t.tx.version ++ (t.marker ++
      (compactSize t.tx.ins.length ++ (t.tx.ins.flatMap TxIn.ser ++
        (compactSize t.tx.outs.length ++ (serOuts t.tx.outs ++
          (t.serWitness ++ (leBytes 4 t.tx.lockTime ++ rest))))))) := by
    rw [h]
    simp only [WitnessTx.head, List.append_assoc]
  have hcount := drop_add_of_drop h
  have houts := drop_add_of_drop hcount
  have hwitness := drop_add_of_drop houts
  have hlen : off + t.ser.length = off + t.head.length + (compactSize t.tx.outs.length).length +
      (serOuts t.tx.outs).length + t.serWitness.length + 4 := by
    simp only [WitnessTx.ser, WitnessTx.tail, List.length_append, leBytes_length]
    omega
  rw [hlen] at hslice ⊢
  simp only [parseTx, unpackFrom_of_drop (by norm_num) hv hversion, skipHead_of_drop ht h,
    Option.bind_eq_bind, Option.bind_some, readVarint_of_drop ht.tx.outsCount hcount,
    skipOutputs_of_drop ht houts, skipWitnesses_of_drop ht hwitness, hslice]

end

/-! ## The coinbase -/

/-- Nothing paid to `OP_RETURN` and a push of the signature. -/
def commitmentOut (scriptSig : Bytes) : TxOut :=
  ⟨0, 0x6a :: pushData (SIGNET_HEADER ++ scriptSig)⟩

theorem length_commitment_le (scriptSig : Bytes) :
    (commitmentOut scriptSig).script.length ≤ scriptSig.length + 10 := by
  have hpush := length_pushData_le' (SIGNET_HEADER ++ scriptSig)
  have hheader : SIGNET_HEADER.length = 4 := rfl
  rw [List.length_append, hheader] at hpush
  simp only [commitmentOut, List.length_cons]
  omega

theorem fits_commitmentOut {scriptSig : Bytes} (h : scriptSig.length + 4 < 2 ^ 32) :
    (commitmentOut scriptSig).Fits where
  value := by norm_num [commitmentOut]
  script := by
    have := length_commitment_le scriptSig
    omega

theorem injectOutput_ser {t : WitnessTx} (ht : t.Fits) (hcount : t.tx.outs.length + 1 < 2 ^ 64)
    {scriptSig : Bytes} (hsig : scriptSig.length + 4 < 2 ^ 32) :
    injectOutput t.ser scriptSig = some (t.addOutput (commitmentOut scriptSig)).ser := by
  have hser : t.ser.drop 0 =
      t.head ++ (compactSize t.tx.outs.length ++ (serOuts t.tx.outs ++ t.tail)) := by
    simp only [List.drop_zero, WitnessTx.ser, List.append_assoc]
  have hoff := drop_add_of_drop hser
  have houts := drop_add_of_drop hoff
  have htail := drop_add_of_drop houts
  have hhead : t.ser.take (0 + t.head.length) = t.head := by
    rw [Nat.zero_add, ← List.drop_zero (l := t.ser), hser, List.take_left]
  have hpush : encodePush (SIGNET_HEADER ++ scriptSig) =
      some (pushData (SIGNET_HEADER ++ scriptSig)) := by
    have hheader : SIGNET_HEADER.length = 4 := rfl
    apply encodePush_eq
    rw [List.length_append, hheader]
    omega
  have hscript : encodeVarint (0x6a :: pushData (SIGNET_HEADER ++ scriptSig)).length =
      some (compactSize (commitmentOut scriptSig).script.length) := by
    apply encodeVarint_eq
    have := length_commitment_le scriptSig
    simp only [commitmentOut] at this
    omega
  simp only [injectOutput, skipHead_of_drop ht hser, readVarint_of_drop ht.tx.outsCount hoff,
    skipOutputs_of_drop ht houts, hpush, hscript, encodeVarint_eq hcount, Option.bind_eq_bind,
    Option.bind_some, hhead, slice_of_drop houts, htail, WitnessTx.ser_addOutput]
  simp only [commitmentOut, TxOut.ser, varBytes, List.append_assoc]

/-! ## The block -/

variable (H : Hash)

theorem restTxids_of_drop {rest : Bytes} :
    ∀ {txs : List WitnessTx} {off : ℕ}, (∀ t ∈ txs, t.Fits) →
      ∀ r, rest.drop off = Block.serTxs txs ++ r →
        restTxids H rest txs.length off = some (txs.map fun t => (H.dsha256 t.ser).reverse)
  | [], _, _, _, _ => rfl
  | t :: txs, off, ht, r, h => by
      simp only [Block.serTxs, List.flatMap_cons, List.append_assoc] at h
      have htx := parseTx_of_drop (ht t List.mem_cons_self) h
      have hrest := restTxids_of_drop (fun x hx => ht x (List.mem_cons_of_mem _ hx)) r
        (drop_add_of_drop h)
      simp only [List.length_cons, restTxids, htx, Option.bind_eq_bind, Option.bind_some, hrest,
        List.map_cons]

/-- The merkle root that is written into the header. -/
def writtenRoot (txs : List WitnessTx) : Bytes :=
  (merkleRoot H (txs.map fun t => (H.dsha256 t.ser).reverse)).reverse

/-- The block with the commitment to a signature in the coinbase `cb`. -/
def signedTxs (cb : WitnessTx) (rest : List WitnessTx) (scriptSig : Bytes) : List WitnessTx :=
  cb.addOutput (commitmentOut scriptSig) :: rest

def signedBlock (header : Bytes) (cb : WitnessTx) (rest : List WitnessTx) (scriptSig : Bytes) :
    Block where
  header := header.take 36 ++ writtenRoot H (signedTxs cb rest scriptSig) ++ header.drop 68
  txs := signedTxs cb rest scriptSig

theorem inject_ser {header : Bytes} {cb : WitnessTx} {rest : List WitnessTx}
    (hb : (Block.mk header (cb :: rest)).Fits) (hcount : cb.tx.outs.length + 1 < 2 ^ 64)
    {scriptSig : Bytes} (hsig : scriptSig.length + 4 < 2 ^ 32) :
    inject H (Block.mk header (cb :: rest)).ser scriptSig =
      some (signedBlock H header cb rest scriptSig).ser := by
  have hcb : cb.Fits := hb.txs cb List.mem_cons_self
  have hrest : ∀ t ∈ rest, t.Fits := fun t ht => hb.txs t (List.mem_cons_of_mem _ ht)
  have hcountTxs : (cb :: rest).length < 2 ^ 64 := hb.count
  have hser : (Block.mk header (cb :: rest)).ser = header ++ (compactSize (cb :: rest).length ++
      (cb.ser ++ Block.serTxs rest)) := rfl
  have htake : (Block.mk header (cb :: rest)).ser.take 80 = header := by
    rw [hser, List.take_left' hb.header]
  have hdrop : (Block.mk header (cb :: rest)).ser.drop 80 = compactSize (cb :: rest).length ++
      (cb.ser ++ Block.serTxs rest) := by
    rw [hser, List.drop_left' hb.header]
  have hstart := drop_add_of_drop hdrop
  have hbehind := drop_add_of_drop hstart
  have htxids : restTxids H (Block.serTxs rest) ((cb :: rest).length - 1) 0 =
      some (rest.map fun t => (H.dsha256 t.ser).reverse) :=
    restTxids_of_drop H hrest [] (by simp)
  simp only [inject, readVarint_of_drop hcountTxs hdrop, parseTx_of_drop hcb hstart, hbehind,
    htake, injectOutput_ser hcb hcount hsig, htxids, encodeVarint_eq hcountTxs,
    Option.bind_eq_bind, Option.bind_some]
  simp only [signedBlock, signedTxs, writtenRoot, Block.ser, Block.serTxs, List.map_cons,
    List.flatMap_cons, List.length_cons, List.append_assoc]

/-! ## The root that is written -/

theorem pairs_eq_level : ∀ level : List Bytes, level.length % 2 = 0 →
    pairs H level = Merkle.level (fun l r => H.dsha256 (l ++ r)) level
  | [], _ => rfl
  | [_], h => by simp at h
  | l :: r :: t, h => by
      have ht : t.length % 2 = 0 := by
        simp only [List.length_cons] at h
        omega
      rw [pairs, Merkle.level, pairs_eq_level t ht]

theorem level_append_last {α : Type*} (node : α → α → α) :
    ∀ (level : List α) (a : α), level.length % 2 = 0 →
      Merkle.level node (level ++ [a]) = Merkle.level node (level ++ [a, a])
  | [], _, _ => rfl
  | [_], _, h => by simp at h
  | l :: r :: t, a, h => by
      have ht : t.length % 2 = 0 := by
        simp only [List.length_cons] at h
        omega
      simp only [List.cons_append, Merkle.level, level_append_last node t a ht]

/-- A round of the source is a level. -/
theorem merkleRound_eq (level : List Bytes) :
    merkleRound H level = Merkle.level (fun l r => H.dsha256 (l ++ r)) level := by
  unfold merkleRound
  split_ifs with hodd
  · cases level using List.reverseRecOn with
    | nil => simp at hodd
    | append_singleton front a =>
        have hfront : front.length % 2 = 0 := by
          simp only [List.length_append, List.length_singleton] at hodd
          omega
        have hlast : (front ++ [a]).getLastD [] = a := by simp
        rw [hlast, List.append_assoc, List.singleton_append, level_append_last _ front a hfront]
        apply pairs_eq_level
        simp only [List.length_append, List.length_cons, List.length_nil]
        omega
  · exact pairs_eq_level H level (by omega)

theorem merkleLoop_eq (fuel : ℕ) (level : List Bytes) :
    merkleLoop H fuel level = Merkle.climb (fun l r => H.dsha256 (l ++ r)) fuel level := by
  induction fuel generalizing level with
  | zero => rfl
  | succ fuel ih => rw [merkleLoop, Merkle.climb, merkleRound_eq, ih]

theorem merkleRoot_eq {txids : List Bytes} (h : txids ≠ []) :
    merkleRoot H txids = Merkle.root (fun l r => H.dsha256 (l ++ r)) [] txids := by
  rw [merkleRoot, if_neg h, merkleLoop_eq, Merkle.root]

theorem length_merkleRoot {txids : List Bytes} (h : txids ≠ [])
    (h32 : ∀ txid ∈ txids, txid.length = 32) : (merkleRoot H txids).length = 32 := by
  rw [merkleRoot_eq H h]
  match txids, h with
  | [txid], _ =>
      rw [Merkle.root_singleton]
      exact h32 txid List.mem_cons_self
  | a :: b :: t, _ =>
      obtain ⟨l, r, hroot⟩ := Merkle.exists_root_eq_node (fun l r => H.dsha256 (l ++ r)) []
        (show 2 ≤ (a :: b :: t).length by simp)
      rw [hroot]
      exact H.length_eq _

theorem length_writtenRoot {txs : List WitnessTx} (h : txs ≠ []) :
    (writtenRoot H txs).length = 32 := by
  rw [writtenRoot, List.length_reverse]
  apply length_merkleRoot
  · simpa using h
  · intro txid htxid
    obtain ⟨t, -, rfl⟩ := List.mem_map.mp htxid
    rw [List.length_reverse, H.length_eq]

/-! ## Hexadecimal -/

theorem fromHex_hexOf (bs : Bytes) : fromHex (hexOf bs) = some bs := by
  induction bs with
  | nil => rfl
  | cons b bs ih =>
      have hb : b.toNat < 256 := b.toNat_lt
      have hspace : ∀ n < 16, isSpace (Nat.digitChar n) = false := by decide
      have hval : UInt8.ofNat (16 * (b.toNat / 16) + b.toNat % 16) = b := by
        rw [Nat.div_add_mod, UInt8.ofNat_toNat]
      have hcons : hexOf (b :: bs) =
          Nat.digitChar (b.toNat / 16) :: Nat.digitChar (b.toNat % 16) :: hexOf bs := rfl
      rw [hcons, fromHex]
      simp only [hspace _ (show b.toNat / 16 < 16 by omega),
        hexDigit?_digitChar (show b.toNat / 16 < 16 by omega),
        hexDigit?_digitChar (show b.toNat % 16 < 16 by omega), ih, Option.bind_eq_bind,
        Option.bind_some, hval, Bool.false_eq_true, if_false]

/-! ## A pure insertion -/

section

variable {header : Bytes} {cb : WitnessTx} {rest : List WitnessTx} {scriptSig : Bytes}

theorem fits_signedBlock (hb : (Block.mk header (cb :: rest)).Fits)
    (hcount : cb.tx.outs.length + 1 < 2 ^ 64) (hsig : scriptSig.length + 4 < 2 ^ 32) :
    (signedBlock H header cb rest scriptSig).Fits where
  header := by
    have hheader : header.length = 80 := hb.header
    have hroot := length_writtenRoot H (show signedTxs cb rest scriptSig ≠ [] by simp [signedTxs])
    simp only [signedBlock, List.length_append, List.length_take, List.length_drop, hroot]
    omega
  count := hb.count
  txs := by
    intro t ht
    rcases List.mem_cons.mp ht with rfl | ht
    · exact (hb.txs cb List.mem_cons_self).addOutput (fits_commitmentOut hsig) hcount
    · exact hb.txs t (List.mem_cons_of_mem _ ht)

theorem injectSignetCommitment_eq (hb : (Block.mk header (cb :: rest)).Fits)
    (hcount : cb.tx.outs.length + 1 < 2 ^ 64) (hsig : scriptSig.length + 4 < 2 ^ 32)
    {blockHex scriptSigHex : Text}
    (hblock : fromHex blockHex = some (Block.mk header (cb :: rest)).ser)
    (hscript : fromHex scriptSigHex = some scriptSig) :
    injectSignetCommitment H blockHex scriptSigHex =
      some (hexOf (signedBlock H header cb rest scriptSig).ser) := by
  simp only [injectSignetCommitment, hblock, hscript, Option.bind_eq_bind, Option.bind_some,
    inject_ser H hb hcount hsig]

/-- An output takes a byte, so a block that fits in memory has room for one more. -/
theorem outs_count_lt {header : Bytes} {cb : WitnessTx} {rest : List WitnessTx}
    (hsize : (Block.mk header (cb :: rest)).ser.length < 2 ^ 63) :
    cb.tx.outs.length + 1 < 2 ^ 64 := by
  have houts : cb.tx.outs.length ≤ (serOuts cb.tx.outs).length := by
    induction cb.tx.outs with
    | nil => simp
    | cons o outs ih =>
        have := o.ser_length_ge
        simp only [serOuts_cons, List.length_cons, List.length_append]
        omega
  simp only [Block.ser, Block.serTxs, List.flatMap_cons, WitnessTx.ser, List.length_append] at hsize
  omega

end

/-- **Injection is a pure insertion.** From the hex of a block and of a signature it
writes a block that parses; the header differs in the merkle root alone, the
coinbase in one more output, and nothing else at all. -/
theorem injection_pure {b : Block} (hb : b.Fits) (hne : b.txs ≠ []) (hsize : b.ser.length < 2 ^ 63)
    {scriptSig : Bytes} (hsig : scriptSig.length < 2 ^ 16 - 4) {blockHex scriptSigHex : Text}
    (hblock : fromHex blockHex = some b.ser) (hscript : fromHex scriptSigHex = some scriptSig) :
    ∃ cb rest b' out, b.txs = cb :: rest ∧
      injectSignetCommitment H blockHex scriptSigHex = some out ∧
      fromHex out = some b'.ser ∧ parseBlock b'.ser = some b' ∧
      b'.header.length = 80 ∧ b'.header.take 36 = b.header.take 36 ∧
      b'.header.drop 68 = b.header.drop 68 ∧
      b'.txs = ⟨⟨cb.tx.version, cb.tx.ins,
        cb.tx.outs ++ [⟨0, 0x6a :: pushData (SIGNET_HEADER ++ scriptSig)⟩], cb.tx.lockTime⟩,
          cb.witness⟩ :: rest := by
  obtain ⟨header, txs⟩ := b
  obtain ⟨cb, rest, rfl⟩ := List.exists_cons_of_ne_nil hne
  have hcount := outs_count_lt hsize
  have hsig' : scriptSig.length + 4 < 2 ^ 32 := by omega
  have hfits := fits_signedBlock H hb hcount hsig'
  have hheader : header.length = 80 := hb.header
  have hroot := length_writtenRoot H (show signedTxs cb rest scriptSig ≠ [] by simp [signedTxs])
  have htake : (header.take 36).length = 36 := by simp [hheader]
  refine ⟨cb, rest, signedBlock H header cb rest scriptSig, _, rfl,
    injectSignetCommitment_eq H hb hcount hsig' hblock hscript, fromHex_hexOf _,
    parseBlock_ser hfits, hfits.header, ?_, ?_, rfl⟩
  · simp only [signedBlock, List.append_assoc]
    rw [List.take_left' htake]
  · have hlen : (header.take 36 ++ writtenRoot H (signedTxs cb rest scriptSig)).length = 68 := by
      rw [List.length_append, htake, hroot]
    simp only [signedBlock]
    rw [List.drop_left' hlen]

/-! ## A block of two transactions -/

/-- A hash of 32 bytes that tells lengths apart. -/
def lengthHash : Hash where
  dsha256 data := List.replicate 32 (UInt8.ofNat data.length)
  length_eq _ := List.length_replicate

/-- The coinbase of a block with a witness commitment. -/
def sampleCoinbase : WitnessTx where
  tx := {
    version := 1
    ins := [⟨List.replicate 32 0 ++ List.replicate 4 0xff, [0x51, 0x01, 0x00],
      List.replicate 4 0xff⟩]
    outs := [⟨5000000000, [0x51]⟩]
    lockTime := 0 }
  witness := some [[List.replicate 32 0]]

def sampleSpend : WitnessTx where
  tx := {
    version := 2
    ins := [⟨List.replicate 36 1, [], List.replicate 4 0xfd⟩]
    outs := [⟨1000, [0x52]⟩, ⟨2000, [0x53]⟩]
    lockTime := 100 }
  witness := none

theorem fits_sampleCoinbase : sampleCoinbase.Fits where
  tx := {
    version := by decide
    ins := by
      intro i hi
      obtain rfl := List.mem_singleton.mp hi
      exact ⟨by decide, by decide, by decide⟩
    insCount := by decide
    outs := by
      intro o ho
      obtain rfl := List.mem_singleton.mp ho
      exact ⟨by decide, by decide⟩
    outsCount := by decide
    lockTime := by decide }
  inputs := by decide
  count := by
    intro w hw
    obtain rfl := Option.mem_some_iff.mp hw
    rfl
  witness := by
    intro w hw items hitems
    obtain rfl := Option.mem_some_iff.mp hw
    obtain rfl := List.mem_singleton.mp hitems
    refine ⟨by decide, fun item hitem => ?_⟩
    obtain rfl := List.mem_singleton.mp hitem
    decide

theorem fits_sampleSpend : sampleSpend.Fits where
  tx := {
    version := by decide
    ins := by
      intro i hi
      obtain rfl := List.mem_singleton.mp hi
      exact ⟨by decide, by decide, by decide⟩
    insCount := by decide
    outs := by
      intro o ho
      rcases List.mem_pair.mp ho with rfl | rfl <;> exact ⟨by decide, by decide⟩
    outsCount := by decide
    lockTime := by decide }
  inputs := by decide
  count := by simp [sampleSpend]
  witness := by simp [sampleSpend]

def sampleHeader : Bytes := List.replicate 80 0x2a

def sampleBlock : Block := ⟨sampleHeader, [sampleCoinbase, sampleSpend]⟩

theorem fits_sampleBlock : sampleBlock.Fits where
  header := by decide
  count := by decide
  txs := by
    intro t ht
    rcases List.mem_pair.mp ht with rfl | rfl
    · exact fits_sampleCoinbase
    · exact fits_sampleSpend

theorem injection_pure_sample :
    ∃ b' out, injectSignetCommitment lengthHash (hexOf sampleBlock.ser) (hexOf [1, 2, 3]) =
        some out ∧ fromHex out = some b'.ser ∧ parseBlock b'.ser = some b' ∧
      b'.txs.map (fun t => t.tx.outs.map TxOut.script) =
        [[[0x51], [0x6a, 7, 0xec, 0xc7, 0xda, 0xa2, 1, 2, 3]], [[0x52], [0x53]]] := by
  obtain ⟨cb, rest, b', out, htxs, hout, hhex, hparse, -, -, -, htxs'⟩ :=
    injection_pure lengthHash fits_sampleBlock (by decide) (by decide +kernel)
      (show [1, 2, 3].length < 2 ^ 16 - 4 by decide) (fromHex_hexOf _) (fromHex_hexOf _)
  obtain ⟨rfl, rfl⟩ := List.cons.inj htxs
  refine ⟨b', out, hout, hhex, hparse, ?_⟩
  rw [htxs']
  decide

end Signet
