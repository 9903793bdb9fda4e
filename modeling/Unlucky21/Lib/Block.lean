import Unlucky21.Lib.Transaction

/-!
# Bitcoin blocks on the wire

A transaction with witness data has a marker and a flag behind its version and,
in front of its lock time, one stack of items for each input. A block is a
header of 80 bytes and a counted list of transactions, with or without witness
data.
-/

namespace Wire

/-! ## Witness data -/

def serStack (items : List Bytes) : Bytes := compactSize items.length ++ items.flatMap varBytes

def parseStack : Parser (List Bytes) := fun bs => do
  let (n, bs) ← parseCompactSize bs
  parseMany parseVarBytes n bs

structure StackFits (items : List Bytes) : Prop where
  count : items.length < 2 ^ 64
  items : ∀ item ∈ items, item.length < 2 ^ 64

theorem parseStack_append {items : List Bytes} (h : StackFits items) (rest : Bytes) :
    parseStack (serStack items ++ rest) = some (items, rest) := by
  have hmany := parseMany_append (fun item hi rest => parseVarBytes_append (h.items item hi) rest)
    rest
  simp [parseStack, serStack, List.append_assoc, parseCompactSize_append h.count, hmany]

/-! ## Transactions -/

/-- A transaction with its witness stacks, if it is serialized with them. -/
structure WitnessTx where
  tx : Tx
  witness : Option (List (List Bytes))
deriving DecidableEq, Repr

namespace WitnessTx

def marker (t : WitnessTx) : Bytes := if t.witness.isSome then [0x00, 0x01] else []

def serWitness (t : WitnessTx) : Bytes := (t.witness.getD []).flatMap serStack

/-- Everything in front of the output count. -/
def head (t : WitnessTx) : Bytes :=
  leBytes 4 t.tx.version ++ t.marker ++ (compactSize t.tx.ins.length ++ t.tx.ins.flatMap TxIn.ser)

/-- Everything behind the outputs. -/
def tail (t : WitnessTx) : Bytes := t.serWitness ++ leBytes 4 t.tx.lockTime

def ser (t : WitnessTx) : Bytes :=
  t.head ++ (compactSize t.tx.outs.length ++ serOuts t.tx.outs) ++ t.tail

/-- At least one input, and a stack for each. -/
structure Fits (t : WitnessTx) : Prop where
  tx : t.tx.Fits
  inputs : t.tx.ins ≠ []
  count : ∀ w ∈ t.witness, w.length = t.tx.ins.length
  witness : ∀ w ∈ t.witness, ∀ items ∈ w, StackFits items

/-- The same transaction with one more output. -/
def addOutput (t : WitnessTx) (o : TxOut) : WitnessTx :=
  { t with tx := { t.tx with outs := t.tx.outs ++ [o] } }

theorem ser_addOutput (t : WitnessTx) (o : TxOut) :
    (t.addOutput o).ser = t.head ++ (compactSize (t.tx.outs.length + 1) ++
      (serOuts t.tx.outs ++ o.ser)) ++ t.tail := by
  have houts : serOuts (t.tx.outs ++ [o]) = serOuts t.tx.outs ++ o.ser := by
    rw [serOuts_append, serOuts_cons, serOuts_nil, List.append_nil]
  have hlen : (t.tx.outs ++ [o]).length = t.tx.outs.length + 1 := by simp
  show t.head ++ (compactSize (t.tx.outs ++ [o]).length ++ serOuts (t.tx.outs ++ [o])) ++ t.tail = _
  rw [houts, hlen]

theorem Fits.addOutput {t : WitnessTx} (h : t.Fits) {o : TxOut} (ho : o.Fits)
    (hcount : t.tx.outs.length + 1 < 2 ^ 64) : (t.addOutput o).Fits where
  tx := {
    version := h.tx.version
    ins := h.tx.ins
    insCount := h.tx.insCount
    outs := by
      intro x hx
      rcases List.mem_append.mp hx with hx | hx
      · exact h.tx.outs x hx
      · rw [List.mem_singleton.mp hx]
        exact ho
    outsCount := by simpa [WitnessTx.addOutput] using hcount
    lockTime := h.tx.lockTime }
  inputs := h.inputs
  count := h.count
  witness := h.witness

/-- Without witness data the serialization is that of the transaction. -/
theorem ser_of_none {t : WitnessTx} (h : t.witness = none) : t.ser = t.tx.ser := by
  simp [ser, head, tail, marker, serWitness, h, Tx.ser, List.append_assoc]

theorem length_ser (t : WitnessTx) :
    t.ser.length = t.tx.ser.length + t.marker.length + t.serWitness.length := by
  simp only [ser, head, tail, Tx.ser, List.length_append]
  omega

end WitnessTx

def parseWitness (n : ℕ) : Bool → Parser (Option (List (List Bytes)))
  | true => fun bs => (parseMany parseStack n bs).map fun p => (some p.1, p.2)
  | false => fun bs => some (none, bs)

/-- Past the marker and the flag, if they are there: no transaction without
witness data has no inputs. -/
def parseMarker : Parser Bool
  | 0x00 :: 0x01 :: bs => some (true, bs)
  | bs => some (false, bs)

def parseWitnessTx : Parser WitnessTx := fun bs => do
  let (version, bs) ← parseLe 4 bs
  let (segwit, bs) ← parseMarker bs
  let (nIn, bs) ← parseCompactSize bs
  let (ins, bs) ← parseMany parseTxIn nIn bs
  let (nOut, bs) ← parseCompactSize bs
  let (outs, bs) ← parseMany parseTxOut nOut bs
  let (witness, bs) ← parseWitness nIn segwit bs
  let (lockTime, bs) ← parseLe 4 bs
  some (⟨⟨version, ins, outs, lockTime⟩, witness⟩, bs)

/-- The count of one input or more does not begin with a zero. -/
theorem exists_compactSize_cons {n : ℕ} (h : 0 < n) :
    ∃ b bs, compactSize n = b :: bs ∧ b ≠ 0 := by
  unfold compactSize
  split_ifs with h1
  · refine ⟨_, [], rfl, fun h0 => ?_⟩
    have := congrArg UInt8.toNat h0
    simp only [UInt8.toNat_ofNat', UInt8.toNat_zero] at this
    omega
  all_goals exact ⟨_, _, rfl, by decide⟩

theorem parseMarker_append {t : WitnessTx} (h : t.tx.ins ≠ []) (rest : Bytes) :
    parseMarker (t.marker ++ (compactSize t.tx.ins.length ++ rest)) =
      some (t.witness.isSome, compactSize t.tx.ins.length ++ rest) := by
  cases hw : t.witness with
  | some w => simp [WitnessTx.marker, hw, parseMarker]
  | none =>
      obtain ⟨b, bs, hsize, hb⟩ := exists_compactSize_cons (List.length_pos_iff.mpr h)
      simp only [WitnessTx.marker, hw, hsize, Option.isSome_none, Bool.false_eq_true, if_false,
        List.nil_append, List.cons_append]
      unfold parseMarker
      split
      next heq => exact absurd (List.cons.inj heq).1 hb
      next => rfl

theorem parseWitness_append {t : WitnessTx} (h : t.Fits) (rest : Bytes) :
    parseWitness t.tx.ins.length t.witness.isSome (t.serWitness ++ rest) =
      some (t.witness, rest) := by
  have hcount := h.count
  have hitems := h.witness
  cases hw : t.witness with
  | none => simp [WitnessTx.serWitness, hw, parseWitness]
  | some w =>
      rw [hw] at hcount hitems
      have hmany := parseMany_append
        (fun items hi rest => parseStack_append (hitems w rfl items hi) rest) rest
      rw [hcount w rfl] at hmany
      simp [WitnessTx.serWitness, hw, parseWitness, hmany]

theorem parseWitnessTx_append {t : WitnessTx} (h : t.Fits) (rest : Bytes) :
    parseWitnessTx (t.ser ++ rest) = some (t, rest) := by
  have hv : t.tx.version < 256 ^ 4 := by have := h.tx.version; norm_num; omega
  have hl : t.tx.lockTime < 256 ^ 4 := by have := h.tx.lockTime; norm_num; omega
  have hin : ∀ i ∈ t.tx.ins, ∀ rest, parseTxIn (TxIn.ser i ++ rest) = some (i, rest) :=
    fun i hi rest => parseTxIn_append (h.tx.ins i hi) rest
  have hins := fun rest => parseMany_append hin rest
  have houts := fun rest => parseMany_outs h.tx.outs rest
  simp only [parseWitnessTx, WitnessTx.ser, WitnessTx.head, WitnessTx.tail, List.append_assoc,
    parseLe_append hv, parseMarker_append h.inputs, parseCompactSize_append h.tx.insCount, hins,
    parseCompactSize_append h.tx.outsCount, houts, parseWitness_append h, parseLe_append hl,
    Option.bind_eq_bind, Option.bind_some]

/-! ## Blocks -/

structure Block where
  header : Bytes
  txs : List WitnessTx
deriving DecidableEq, Repr

namespace Block

def serTxs (txs : List WitnessTx) : Bytes := txs.flatMap WitnessTx.ser

def ser (b : Block) : Bytes := b.header ++ (compactSize b.txs.length ++ serTxs b.txs)

structure Fits (b : Block) : Prop where
  header : b.header.length = 80
  count : b.txs.length < 2 ^ 64
  txs : ∀ t ∈ b.txs, t.Fits

end Block

/-- The block a byte string is, all of it consumed. -/
def parseBlock (bs : Bytes) : Option Block := do
  let (header, bs) ← takeBytes 80 bs
  let (n, bs) ← parseCompactSize bs
  let (txs, bs) ← parseMany parseWitnessTx n bs
  if bs = [] then some ⟨header, txs⟩ else none

/-- **Round trip.** -/
theorem parseBlock_ser {b : Block} (h : b.Fits) : parseBlock b.ser = some b := by
  have htxs := parseMany_append (fun t ht rest => parseWitnessTx_append (h.txs t ht) rest) []
  rw [List.append_nil] at htxs
  simp only [parseBlock, Block.ser, Block.serTxs, takeBytes_append h.header,
    parseCompactSize_append h.count, htxs, Option.bind_eq_bind, Option.bind_some, if_true]

end Wire
