import Unlucky21.Gateway.CoinbaseInput
import Unlucky21.Lib.Greedy

/-!
# The coinbases of a job

`datum_coinbaser.c`: every stratum job gets six coinbase types with different
size limits, and sometimes a seventh that pays the bare subsidy. The extranonce
sits at the end of the scriptSig when the scriptSig is short enough, else (and
always for type 2) in an OP_RETURN output at the end of coinb1; in that case the
output count is already in coinb1.

The values a half logs are those in front of its cursor: where the code moves an
index back over outputs, the log forgets them.
-/

namespace Gateway

open Wire CText

structure Output where
  valueSats : UInt64
  outputScript : Bytes
deriving DecidableEq, Repr

structure Template where
  txnTotalSize : UInt32
  txnTotalWeight : UInt32
  sizelimit : UInt32
  weightlimit : UInt32
  defaultWitnessCommitment : Text
deriving DecidableEq, Repr

/-- There are six coinbase types. -/
instance neZeroTypes : NeZero 6 := ⟨by norm_num⟩

structure Coinbase where
  coinb1 : Text
  coinb2 : Text
  coinb1Bin : Bytes
  coinb2Bin : Bytes
deriving DecidableEq, Repr

structure StratumJob where
  height : ℕ
  enPrefix : UInt16
  coinbaseValue : UInt64
  availableCoinbaseOutputs : List Output
  poolAddrScript : Bytes
  isDatumJob : Bool
  targetPotIndex : ℕ
  blockTemplate : Template
  coinbase : Fin 6 → Coinbase
  subsidyOnlyCoinbase : Coinbase
deriving DecidableEq

def cbstartHex : Text :=
  "01000000010000000000000000000000000000000000000000000000000000000000000000ffffffff".toList

/-- The eight digits of the sequence number. -/
def sequenceHex (u : DatumUtils) : Text := u.pkU64le 0x6666666666666666

/-! ## Space -/

def u32 (n : ℤ) : ℤ := n % 2 ^ 32

def i32 (n : ℤ) : ℤ := n.bmod (2 ^ 32)

/-- The bytes a limit leaves, when the coinbase would exceed it. -/
def sizeRoom (t : Template) (i fixedBytes : ℤ) : Option ℤ :=
  let total : ℤ := t.txnTotalSize.toNat
  let limit : ℤ := t.sizelimit.toNat
  if limit < u32 (i + total + 85 + 36) then some (i32 (limit - (total + 85 + 36) - fixedBytes))
  else none

def weightRoom (t : Template) (i fixedBytes : ℤ) : Option ℤ :=
  let total : ℤ := t.txnTotalWeight.toNat
  let limit : ℤ := t.weightlimit.toNat
  if limit < u32 (i * 4 + total + 340 + 36) then
    some (i32 (u32 (limit - (total + 340 + 36)) / 4 - fixedBytes))
  else none

/-- `datum_stratum_coinbase_fit_to_template` -/
def fitToTemplate (maxSz fixedBytes : ℤ) (t : Template) : ℤ :=
  let i := fixedBytes + maxSz
  let afterSize := (sizeRoom t i fixedBytes).getD (maxSz + fixedBytes)
  if (sizeRoom t i fixedBytes).isSome ∧ afterSize < 0 then 0
  else
    -- the weight limit's answer replaces the size limit's
    let msz1 := (weightRoom t i fixedBytes).getD afterSize
    if (weightRoom t i fixedBytes).isSome ∧ msz1 < 0 then 0
    else min (max msz1 0) (maxSz - fixedBytes)

/-- Byte budgets of the coinbase types. -/
def maxSize : Fin 6 → ℤ := ![500, 500, 755, 6500, 16000, 2250]

def cbReqSize (poolAddrScriptLen cbInputSize : ℕ) (space : Bool) (t : Fin 6) : ℤ :=
  119 + poolAddrScriptLen + cbInputSize + if !space || t = 2 then 10 else 0

/-! ## Selecting and writing the outputs -/

def Output.cost (o : Output) : ℤ := o.outputScript.length + 9

structure Count where
  i : ℤ
  i2 : ℤ
  m : ℕ
  c1cnt : ℕ
  mval : UInt64
  c1full : Bool
deriving DecidableEq, Repr

/-- The first pass: how many outputs fit, and how many of them go to coinb1. -/
def countOutputs (coinbaseValue : UInt64) (special : Bool) : List Output → Count → Count
  | [], c => c
  | o :: rest, c =>
      if o.cost ≤ c.i ∧ c.mval + o.valueSats ≤ coinbaseValue then
        let inCoinb1 := special && !c.c1full && decide (o.cost ≤ c.i2)
        let c' : Count := {
          i := c.i - o.cost
          i2 := if inCoinb1 then c.i2 - o.cost else c.i2
          m := c.m + 1
          c1cnt := if inCoinb1 then c.c1cnt + 1 else c.c1cnt
          mval := c.mval + o.valueSats
          c1full := !inCoinb1 }
        if c'.i < 30 then c'
        else if coinbaseValue ≤ c'.mval then c'
        else countOutputs coinbaseValue special rest c'
      else countOutputs coinbaseValue special rest c

/-- Both halves of a coinbase under construction. -/
structure Draft where
  c1 : Half
  c2 : Half
deriving DecidableEq, Repr

structure Writing where
  draft : Draft
  j : ℤ
  m : ℤ
  mval : UInt64
  enDone : Bool
deriving DecidableEq, Repr

/-- Where the second pass puts the output at position `k`. -/
def Writing.place (u : DatumUtils) (enPrefix : UInt16) (c1cnt : ℕ) (special : Bool) (k : ℕ)
    (o : Output) (w : Writing) : Writing :=
  if special && decide (k < c1cnt) then
    { w with draft.c1 := w.draft.c1.output u o.valueSats.toNat o.outputScript }
  else
    let w := if special && decide (k = c1cnt) then
        { w with draft.c1 := w.draft.c1.extranonce enPrefix.toNat, enDone := true }
      else w
    { w with draft.c2 := w.draft.c2.output u o.valueSats.toNat o.outputScript }

/-- The second pass, from position `k` on. -/
def writeOutputs (u : DatumUtils) (enPrefix : UInt16) (coinbaseValue : UInt64) (c1cnt : ℕ)
    (special : Bool) : ℕ → List Output → Writing → Writing
  | _, [], w => w
  | k, o :: rest, w =>
      if o.cost ≤ w.j ∧ w.mval + o.valueSats ≤ coinbaseValue then
        let w' := { w with j := w.j - o.cost, m := w.m - 1, mval := w.mval + o.valueSats }.place
          u enPrefix c1cnt special k o
        if w'.m = 0 then w'
        else if w'.j < 30 then w'
        else if coinbaseValue ≤ w'.mval then w'
        else writeOutputs u enPrefix coinbaseValue c1cnt special (k + 1) rest w'
      else writeOutputs u enPrefix coinbaseValue c1cnt special (k + 1) rest w

variable (u : DatumUtils)

/-- Write the sequence digits at the cursor and go back to index 8. -/
def Half.restart (h : Half) : Half := ⟨⟨poke h.cursor.buf h.cursor.idx (sequenceHex u), 8⟩, []⟩

/-- `generate_coinbase_txns_for_stratum_job_subtypebysize` -/
def subtypeBySize (s : StratumJob) (remainingSize : ℤ) (space special : Bool) (d : Draft) : Draft :=
  let i2 : ℤ := if special then max ((300 - d.c1.cursor.idx) / 2) 0 else 0
  let space := space && !special
  let c := countOutputs s.coinbaseValue special s.availableCoinbaseOutputs
    ⟨remainingSize, i2, 0, 0, 0, false⟩
  let start : Writing :=
    if space then
      -- pool address, signet and witness commitments
      ⟨{ d with c2 := (d.c2.restart u).varint u (c.m + 3) }, remainingSize, c.m + 3, 0, false⟩
    else
      let c1 := d.c1.varint u (c.m + 4)
      ⟨{ d with c1 := if special then c1 else c1.extranonce s.enPrefix.toNat },
        remainingSize, c.m + 4, 0, !special⟩
  let w := writeOutputs u s.enPrefix s.coinbaseValue c.c1cnt special 0
    s.availableCoinbaseOutputs start
  let c1 := if !space && !w.enDone then w.draft.c1.extranonce s.enPrefix.toNat else w.draft.c1
  let c2 :=
    if w.mval < s.coinbaseValue then
      w.draft.c2.output u (s.coinbaseValue - w.mval).toNat s.poolAddrScript
    else w.draft.c2.deadOutput
  ⟨c1, c2.commitments s.blockTemplate.defaultWitnessCommitment⟩

/-! ## A job -/

/-- coinb1 up to the extranonce in the scriptSig, or to the sequence number. -/
def writeInput (input : CoinbaseInput) (inScript : Bool) (enPrefix : UInt16) (h : Half) : Half :=
  let h := (h.put cbstartHex).varint u (if inScript then input.size + 15 else input.size)
  let h := h.put (input.cb.takeD (input.size * 2) NUL)
  (if inScript then (h.bytes u [0x0e]).print (printHex 4 enPrefix.toNat)
   else h.put (sequenceHex u)).terminate

/-- The coinbase that pays the pool alone. -/
def writeEmpty (s : StratumJob) (space : Bool) (d : Draft) : Draft :=
  let d : Draft :=
    if space then { d with c2 := (d.c2.put (sequenceHex u)).varint u 3 }
    else { d with c1 := (d.c1.varint u 4).extranonce s.enPrefix.toNat }
  let paid := d.c2.output u s.coinbaseValue.toNat s.poolAddrScript
  { d with c2 := paid.commitments s.blockTemplate.defaultWitnessCommitment }

/-- The first half of the subsidy-only coinbase: the first half written so far,
with the output count replaced if it is in there. -/
def subsidyCoinb1 (space : Bool) (before after : Half) (buf : Text) : Text :=
  if space then poke buf 0 before.cursor.written
  else
    let counted := (Half.varint u ⟨⟨poke buf 0 after.cursor.written, before.cursor.idx⟩, []⟩ 2).cursor
    let j := before.cursor.idx + (u.appendBitcoinVarintHex 2).length
    poke counted.buf j [after.cursor.buf.getD j NUL]

/-- The second half: the script is copied from the empty coinbase, of which the
pool output starts at `j` and ends at `k`. -/
def subsidyCoinb2 (s : StratumJob) (space : Bool) (j k : ℕ) (empty buf : Text) : Text :=
  let buf := if space then (((Half.start buf).put (sequenceHex u)).varint u 1).cursor.buf else buf
  let reward : Cursor := ⟨buf, j⟩
  let script : Cursor :=
    ⟨(reward.print (printHex 16 (bswap64 (u.blockReward s.height)))).buf, j + 16⟩
  let lockTime : Cursor :=
    ⟨(script.put ((empty.drop (j + 16)).takeD (k - j - 16) NUL)).buf, k⟩
  (lockTime.print "00000000".toList).buf

/-- The binary versions are read from the C strings. -/
def readCoinbase (coinb1 coinb2 : Text) : Coinbase := {
  coinb1 := coinb1
  coinb2 := coinb2
  coinb1Bin := unhex u.hex2binUchar (cstr coinb1)
  coinb2Bin := unhex u.hex2binUchar (cstr coinb2) }

def Draft.coinbase (d : Draft) : Coinbase := readCoinbase u d.c1.cursor.buf d.c2.cursor.buf

def subsidyOnly (s : StratumJob) (space : Bool) (head : Draft) : Coinbase :=
  let empty := writeEmpty u s space head
  let c2 := if space then (head.c2.put (sequenceHex u)).varint u 3 else head.c2
  let paid := c2.output u s.coinbaseValue.toNat s.poolAddrScript
  readCoinbase u
    (subsidyCoinb1 u space head.c1 empty.c1 s.subsidyOnlyCoinbase.coinb1)
    (subsidyCoinb2 u s space c2.cursor.idx paid.cursor.idx empty.c2.cursor.buf
      s.subsidyOnlyCoinbase.coinb2)

/-- `strcpy` -/
def Half.copy (src dst : Half) : Half :=
  ⟨((Half.start dst.cursor.buf).print (cstr src.cursor.buf)).cursor, src.values⟩

def Draft.copy (src dst : Draft) : Draft := ⟨src.c1.copy dst.c1, src.c2.copy dst.c2⟩

/-- coinb1 of type `t` up to where the layouts part. -/
def headDraft (s : StratumJob) (input : CoinbaseInput) (space : Bool) (t : Fin 6) : Draft :=
  ⟨writeInput u input (space && decide (t ≠ 2)) s.enPrefix (Half.start (s.coinbase t).coinb1),
   Half.start (s.coinbase t).coinb2⟩

/-- The remaining size of a type. -/
def remainingSize (s : StratumJob) (input : CoinbaseInput) (space : Bool) (t : Fin 6) : ℤ :=
  fitToTemplate (maxSize t) (cbReqSize s.poolAddrScript.length input.size space t) s.blockTemplate

/-- Type 0 is written as the empty coinbase before it is written like type 1. -/
def typeDraft (s : StratumJob) (input : CoinbaseInput) (space emptyOnly : Bool) (t : Fin 6) :
    Draft :=
  let head := headDraft u s input space t
  let empty := writeEmpty u s space (headDraft u s input space 0)
  if emptyOnly then (if t = 0 then empty else empty.copy head)
  else subtypeBySize u s (remainingSize s input space t) (space && decide (t ≠ 2)) (t = 2)
    (if t = 0 then empty else head)

variable (cfg : Config)

/-- The pool's script; without one the program stops. -/
def poolAddrScript : Option Bytes :=
  if cfg.protocolActive then
    if cfg.overrideMiningPoolScriptsig = [] then none else some cfg.overrideMiningPoolScriptsig
  else u.addr2OutputScript cfg.miningPoolAddress

/-- The scriptSig leaves room for the extranonce. -/
def CoinbaseInput.space (input : CoinbaseInput) : Bool := input.size ≤ 85

/-- Position of the target byte in the transaction. -/
def CoinbaseInput.potIndex (input : CoinbaseInput) : ℕ :=
  let n := if input.space then input.size + 15 else input.size
  input.targetPotIndex + (cbstartHex.length + (u.appendBitcoinVarintHex n).length) / 2

/-- The job with its pool script; a job with outputs counts as a datum job. -/
def StratumJob.withPool (s : StratumJob) (pool : Bytes) : StratumJob :=
  { s with
    poolAddrScript := pool
    isDatumJob := cfg.protocolActive || !s.availableCoinbaseOutputs.isEmpty }

def StratumJob.withCoinbases (s : StratumJob) (input : CoinbaseInput) (emptyOnly : Bool) :
    StratumJob :=
  { s with
    targetPotIndex := input.potIndex u
    coinbase := fun t => (typeDraft u s input input.space emptyOnly t).coinbase u
    subsidyOnlyCoinbase :=
      if emptyOnly then subsidyOnly u s input.space (headDraft u s input input.space 0)
      else s.subsidyOnlyCoinbase }

/-- `generate_coinbase_txns_for_stratum_job` -/
def generateCoinbaseTxns (s : StratumJob) (emptyOnly : Bool) : Option StratumJob := do
  let pool ← poolAddrScript u cfg
  let input ← generateCoinbaseInput u cfg s.height
  some ((s.withPool cfg pool).withCoinbases u input
    (emptyOnly || s.availableCoinbaseOutputs.isEmpty))

def StratumJob.withBaseCoinbase (s : StratumJob) (input : CoinbaseInput) (newBlock : Bool) :
    StratumJob :=
  let head := headDraft u s input input.space 0
  { s with
    targetPotIndex := input.potIndex u
    coinbase := Function.update s.coinbase 0 ((writeEmpty u s input.space head).coinbase u)
    subsidyOnlyCoinbase :=
      if newBlock then subsidyOnly u s input.space head else s.subsidyOnlyCoinbase }

/-- `generate_base_coinbase_txns_for_stratum_job` -/
def generateBaseCoinbaseTxns (s : StratumJob) (newBlock : Bool) : Option StratumJob := do
  let pool ← poolAddrScript u cfg
  let input ← generateCoinbaseInput u cfg s.height
  some (({ s with poolAddrScript := pool, isDatumJob := cfg.protocolActive } :
    StratumJob).withBaseCoinbase u input newBlock)

end Gateway
