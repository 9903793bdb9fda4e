import Unlucky21.Lib.CText
import Unlucky21.Lib.Transaction

/-!
# Writing a coinbase in hexadecimal

The gateway builds a coinbase transaction as text, in two halves with the
miner's twelve extranonce bytes between them, and reads the text back into
bytes. The helpers it calls for this belong to the gateway this repository
patches; `DatumUtils` stands for them, and `DatumUtils.Documented` is what the
code relies on.

A `Half` is one text under construction. It also keeps the values of the
outputs serialized into it, in order, which the code does not.
-/

namespace Gateway

open Wire CText

structure DatumUtils where
  ucharToHex : UInt8 → Text
  hex2binUchar : Char → Char → UInt8
  pkU64le : ℕ → Text
  appendBitcoinVarintHex : ℕ → Text
  /-- `append_bitcoin_varint_hex` stores a NUL behind its digits. -/
  varintTerminates : Bool
  appendUNumHex : ℕ → Text
  blockReward : ℕ → ℕ
  addr2OutputScript : Text → Option Bytes

structure DatumUtils.Documented (u : DatumUtils) : Prop where
  hex2binUchar : ReadsDigits u.hex2binUchar
  ucharToHex : ∀ b, Encodes u.hex2binUchar (u.ucharToHex b) [b]
  pkU64le : u.pkU64le 0x6666666666666666 = "ffffffff".toList
  appendBitcoinVarintHex : ∀ n < 2 ^ 64,
    Encodes u.hex2binUchar (u.appendBitcoinVarintHex n) (compactSize n)
  appendUNumHex : ∀ n, ∃ bs : Bytes, bs.length ≤ 9 ∧
    Encodes u.hex2binUchar (u.appendUNumHex n) bs
  blockReward : ∀ n, u.blockReward n < 2 ^ 64
  addr2OutputScript : ∀ a script, u.addr2OutputScript a = some script →
    0 < script.length ∧ script.length ≤ 64

/-! ## Helpers that behave as documented -/

/-- The bytes of a positive script number, its length in front. -/
def scriptNumber (n : ℕ) : Bytes :=
  let k := if n < 2 ^ 7 then 1 else if n < 2 ^ 15 then 2 else if n < 2 ^ 23 then 3
    else if n < 2 ^ 31 then 4 else 5
  UInt8.ofNat k :: leBytes k n

/-- Every helper as documented; `addresses` is what the decoder knows. -/
def referenceUtils (addresses : Text → Option Bytes) : DatumUtils where
  ucharToHex b := hexOf [b]
  hex2binUchar hi lo := UInt8.ofNat (16 * digitValue hi + digitValue lo)
  pkU64le v := (leBytes 8 v).map fun b => Char.ofNat b.toNat
  appendBitcoinVarintHex n := hexOf (compactSize n)
  varintTerminates := true
  appendUNumHex n := hexOf (scriptNumber n)
  blockReward height := 5000000000 >>> (height / 210000)
  addr2OutputScript a := (addresses a).filter fun s => 0 < s.length && s.length ≤ 64

theorem documented_referenceUtils (addresses : Text → Option Bytes) :
    (referenceUtils addresses).Documented := by
  have hreads : ReadsDigits (referenceUtils addresses).hex2binUchar := by
    have hdigit : ∀ n < 16, digitValue (Nat.digitChar n) = n := by decide
    intro hi lo hhi hlo
    simp only [referenceUtils, hdigit hi hhi, hdigit lo hlo]
  have hvarint : ∀ n < 2 ^ 64, Encodes (referenceUtils addresses).hex2binUchar
      ((referenceUtils addresses).appendBitcoinVarintHex n) (compactSize n) :=
    fun n _ => encodes_hexOf hreads _
  refine ⟨hreads, fun b => encodes_hexOf hreads [b], rfl, hvarint,
    fun n => ⟨scriptNumber n, ?_, encodes_hexOf hreads _⟩, ?_, ?_⟩
  · simp only [scriptNumber, List.length_cons, leBytes_length]
    split_ifs <;> omega
  · intro height
    have hle : 5000000000 >>> (height / 210000) ≤ 5000000000 := by
      rw [Nat.shiftRight_eq_div_pow]
      exact Nat.div_le_self _ _
    exact hle.trans_lt (by norm_num)
  · intro a script h
    simp only [referenceUtils, Option.filter_eq_some_iff] at h
    simpa using h.2

/-! ## Halves -/

structure Half where
  cursor : Cursor
  values : List ℕ
deriving DecidableEq, Repr

namespace Half

/-- At the start of a buffer. -/
def start (buf : Text) : Half := ⟨⟨buf, 0⟩, []⟩

def put (h : Half) (t : Text) : Half := { h with cursor := h.cursor.put t }

def print (h : Half) (t : Text) : Half := { h with cursor := h.cursor.print t }

/-- `buf[idx] = 0`. -/
def terminate (h : Half) : Half :=
  { h with cursor := { h.cursor with buf := poke h.cursor.buf h.cursor.idx [NUL] } }

def log (h : Half) (value : ℕ) : Half := { h with values := h.values ++ [value] }

variable (u : DatumUtils)

def varint (h : Half) (n : ℕ) : Half :=
  if u.varintTerminates then h.print (u.appendBitcoinVarintHex n)
  else h.put (u.appendBitcoinVarintHex n)

def bytes (h : Half) (bs : Bytes) : Half := bs.foldl (fun h b => h.put (u.ucharToHex b)) h

/-- Value, script length and script of one output. -/
def output (h : Half) (value : ℕ) (script : Bytes) : Half :=
  (((h.print (printHex 16 (bswap64 value))).log value).varint u script.length).bytes u script

/-- The extranonce output up to the extranonce: an OP_RETURN pushing 14 bytes,
the job's prefix and what the miner fills in. -/
def extranonce (h : Half) (enPrefix : ℕ) : Half :=
  (h.print ("0000000000000000106a0e".toList ++ printHex 4 enPrefix)).log 0

/-- The output in place of the pool's when nothing is left over. -/
def deadOutput (h : Half) : Half := (h.print "0000000000000000036a0100".toList).log 0

def witnessCommitment (h : Half) (commitment : Text) : Half :=
  (h.print ("0000000000000000".toList ++ printHex 2 (commitment.length / 2) ++ commitment)).log 0

def signetCommitment (h : Half) : Half :=
  (h.print "0000000000000000066a04ecc7daa2".toList).log 0

def lockTime (h : Half) : Half := h.print "00000000".toList

/-- The end of every coinbase. -/
def commitments (h : Half) (commitment : Text) : Half :=
  ((h.witnessCommitment commitment).signetCommitment).lockTime

/-! ## What is paid -/

/-- The values logged, added up without wrapping. -/
def paid (h : Half) : ℕ := h.values.sum

@[simp] theorem paid_start (buf : Text) : (start buf).paid = 0 := rfl

@[simp] theorem paid_put (h : Half) (t : Text) : (h.put t).paid = h.paid := rfl

@[simp] theorem paid_print (h : Half) (t : Text) : (h.print t).paid = h.paid := rfl

@[simp] theorem paid_terminate (h : Half) : h.terminate.paid = h.paid := rfl

@[simp] theorem paid_log (h : Half) (value : ℕ) : (h.log value).paid = h.paid + value := by
  simp [paid, log]

@[simp] theorem paid_varint (h : Half) (n : ℕ) : (h.varint u n).paid = h.paid := by
  unfold varint
  split <;> rfl

@[simp] theorem paid_bytes (h : Half) (bs : Bytes) : (h.bytes u bs).paid = h.paid := by
  induction bs generalizing h with
  | nil => rfl
  | cons b bs ih => exact (ih _).trans (paid_put h _)

@[simp] theorem paid_output (h : Half) (value : ℕ) (script : Bytes) :
    (h.output u value script).paid = h.paid + value := by
  simp [output]

@[simp] theorem paid_extranonce (h : Half) (enPrefix : ℕ) :
    (h.extranonce enPrefix).paid = h.paid := by
  simp [extranonce]

@[simp] theorem paid_deadOutput (h : Half) : h.deadOutput.paid = h.paid := by
  simp [deadOutput]

@[simp] theorem paid_commitments (h : Half) (commitment : Text) :
    (h.commitments commitment).paid = h.paid := by
  simp [commitments, witnessCommitment, signetCommitment, lockTime]

/-! ## What a half reads back as -/

/-- The text written so far stands for these bytes. -/
def Reads (h : Half) (bs : Bytes) : Prop := Encodes u.hex2binUchar h.cursor.written bs

variable {u}

theorem reads_start (buf : Text) : (start buf).Reads u [] := Encodes.nil

theorem Reads.put {h : Half} {bs : Bytes} (hr : h.Reads u bs) {t : Text} {as : Bytes}
    (ht : Encodes u.hex2binUchar t as) : (h.put t).Reads u (bs ++ as) := by
  rw [Reads, Half.put, Cursor.written_put]
  exact Encodes.append hr ht

theorem Reads.print {h : Half} {bs : Bytes} (hr : h.Reads u bs) {t : Text} {as : Bytes}
    (ht : Encodes u.hex2binUchar t as) : (h.print t).Reads u (bs ++ as) := by
  rw [Reads, Half.print, Cursor.written_print]
  exact Encodes.append hr ht

theorem Reads.terminate {h : Half} {bs : Bytes} (hr : h.Reads u bs) :
    h.terminate.Reads u bs := by
  have hcur : h.terminate.cursor = h.cursor.print [] := rfl
  rw [Reads, hcur, Cursor.written_print, List.append_nil]
  exact hr

theorem Reads.log {h : Half} {bs : Bytes} (hr : h.Reads u bs) (v : ℕ) : (h.log v).Reads u bs := hr

theorem Reads.idx_eq {h : Half} {bs : Bytes} (hr : h.Reads u bs) :
    h.cursor.idx = 2 * bs.length := by
  rw [← Cursor.length_written, hr.length_eq]

theorem Reads.varint (hu : u.Documented) {h : Half} {bs : Bytes} (hr : h.Reads u bs) {n : ℕ}
    (hn : n < 2 ^ 64) : (h.varint u n).Reads u (bs ++ compactSize n) := by
  rw [Half.varint]
  split
  · exact hr.print (hu.appendBitcoinVarintHex n hn)
  · exact hr.put (hu.appendBitcoinVarintHex n hn)

theorem Reads.bytes (hu : u.Documented) {h : Half} {bs : Bytes} (hr : h.Reads u bs)
    (as : Bytes) : (h.bytes u as).Reads u (bs ++ as) := by
  induction as generalizing h bs with
  | nil => simpa [Half.bytes] using hr
  | cons a as ih =>
      have hstep := hr.put (hu.ucharToHex a)
      have := ih hstep
      rwa [List.append_assoc] at this

theorem Reads.output (hu : u.Documented) {h : Half} {bs : Bytes} (hr : h.Reads u bs)
    (v : ℕ) {script : Bytes} (hs : script.length < 2 ^ 64) :
    (h.output u v script).Reads u (bs ++ TxOut.ser ⟨v, script⟩) := by
  have hvalue := (hr.print (encodes_bswap64 hu.hex2binUchar v)).log v
  have hall := (hvalue.varint hu hs).bytes hu script
  rw [List.append_assoc, List.append_assoc] at hall
  exact hall

/-- A literal is checked against the bytes it stands for by computation. -/
theorem Reads.print_literal (hu : u.Documented) {h : Half} {bs : Bytes} (hr : h.Reads u bs)
    {t : Text} {as : Bytes} (ht : hexOf as = t) : (h.print t).Reads u (bs ++ as) :=
  ht ▸ hr.print (encodes_hexOf hu.hex2binUchar as)

/-! ## The fixed outputs -/

def deadOut : TxOut := ⟨0, [0x6a, 0x01, 0x00]⟩

def signetOut : TxOut := ⟨0, [0x6a, 0x04, 0xec, 0xc7, 0xda, 0xa2]⟩

def extranonceOut (enPrefix : ℕ) (en : Bytes) : TxOut :=
  ⟨0, [0x6a, 0x0e] ++ (leBytes 2 enPrefix).reverse ++ en⟩

/-- The extranonce output without the extranonce. -/
def extranonceHead (enPrefix : ℕ) : Bytes :=
  leBytes 8 0 ++ [0x10, 0x6a, 0x0e] ++ (leBytes 2 enPrefix).reverse

/-- The witness commitment of a template: hex, and short enough for the one
byte its length is printed as. -/
structure Commits (u : DatumUtils) (commitment : Text) (script : Bytes) : Prop where
  encodes : Encodes u.hex2binUchar commitment script
  short : script.length < 0xfd

theorem Reads.deadOutput (hu : u.Documented) {h : Half} {bs : Bytes} (hr : h.Reads u bs) :
    h.deadOutput.Reads u (bs ++ deadOut.ser) :=
  hr.print_literal hu (by decide)

theorem Reads.signetCommitment (hu : u.Documented) {h : Half} {bs : Bytes} (hr : h.Reads u bs) :
    h.signetCommitment.Reads u (bs ++ signetOut.ser) :=
  hr.print_literal hu (by decide)

theorem Reads.lockTime (hu : u.Documented) {h : Half} {bs : Bytes} (hr : h.Reads u bs) :
    h.lockTime.Reads u (bs ++ leBytes 4 0) :=
  hr.print_literal hu (by decide)

theorem Reads.extranonce (hu : u.Documented) {h : Half} {bs : Bytes} (hr : h.Reads u bs)
    {enPrefix : ℕ} (hen : enPrefix < 2 ^ 16) :
    (h.extranonce enPrefix).Reads u (bs ++ extranonceHead enPrefix) := by
  have hhead : Encodes u.hex2binUchar "0000000000000000106a0e".toList
      (leBytes 8 0 ++ [0x10, 0x6a, 0x0e]) := by
    have : hexOf (leBytes 8 0 ++ [0x10, 0x6a, 0x0e]) = "0000000000000000106a0e".toList := by decide
    exact this ▸ encodes_hexOf hu.hex2binUchar _
  have hprefix := encodes_printHex hu.hex2binUchar (k := 2) (by norm_num)
    (show enPrefix < 256 ^ 2 by norm_num; exact hen)
  exact hr.print (hhead.append hprefix)

theorem Reads.witnessCommitment (hu : u.Documented) {h : Half} {bs : Bytes} (hr : h.Reads u bs)
    {commitment : Text} {script : Bytes} (hc : Commits u commitment script) :
    (h.witnessCommitment commitment).Reads u (bs ++ TxOut.ser ⟨0, script⟩) := by
  have hvalue : Encodes u.hex2binUchar "0000000000000000".toList (leBytes 8 0) := by
    have : hexOf (leBytes 8 0) = "0000000000000000".toList := by decide
    exact this ▸ encodes_hexOf hu.hex2binUchar _
  have hhalf : commitment.length / 2 = script.length := by
    rw [hc.encodes.length_eq]
    omega
  have hshort := hc.short
  have hlen := encodes_printHex hu.hex2binUchar (k := 1) (by norm_num)
    (show script.length < 256 ^ 1 by norm_num; omega)
  have hone : (leBytes 1 script.length).reverse = compactSize script.length := by
    rw [compactSize_of_lt hshort]
    rfl
  rw [hone] at hlen
  have hall := hr.print ((hvalue.append hlen).append hc.encodes)
  rw [Half.witnessCommitment, hhalf, TxOut.ser, varBytes, ← List.append_assoc (leBytes 8 0)]
  exact hall

theorem Reads.commitments (hu : u.Documented) {h : Half} {bs : Bytes} (hr : h.Reads u bs)
    {commitment : Text} {script : Bytes} (hc : Commits u commitment script) :
    (h.commitments commitment).Reads u
      (bs ++ (serOuts [⟨0, script⟩, signetOut] ++ leBytes 4 0)) := by
  have hall := ((hr.witnessCommitment hu hc).signetCommitment hu).lockTime hu
  rw [Half.commitments]
  simpa [List.append_assoc] using hall

/-- The extranonce completes its output. -/
theorem extranonceHead_append {enPrefix : ℕ} {en : Bytes} (hen : en.length = 12) :
    extranonceHead enPrefix ++ en = (extranonceOut enPrefix en).ser := by
  have hlen : (extranonceOut enPrefix en).script.length = 16 := by simp [extranonceOut, hen]
  rw [TxOut.ser, varBytes, hlen]
  simp [extranonceHead, extranonceOut, compactSize]

end Half

end Gateway
