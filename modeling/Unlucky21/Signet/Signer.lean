import Unlucky21.Lib.Block
import Unlucky21.Lib.Merkle
import Unlucky21.Lib.Script
import Unlucky21.Lib.CText

/-!
# The signet signer

`inject_signet_commitment` walks over a block by offsets, splices one output
into the coinbase and writes a new merkle root into the header. Whatever raises
in the source is `none` here: an index or `unpack_from` past the end, an integer
too large for its field. A slice past the end is cut instead.
-/

namespace Signet

open Wire CText

/-- A hash function in place of double SHA-256. -/
structure Hash where
  dsha256 : Bytes → Bytes
  length_eq : ∀ data, (dsha256 data).length = 32

/-! ## Reading and writing integers -/

/-- `struct.unpack_from` of a little-endian field of `k` bytes. -/
def unpackFrom (k : ℕ) (buf : Bytes) (off : ℕ) : Option ℕ :=
  if off + k ≤ buf.length then some (leNat ((buf.drop off).take k)) else none

/-- `struct.pack` of a little-endian field of `k` bytes. -/
def pack (k n : ℕ) : Option Bytes := if n < 256 ^ k then some (leBytes k n) else none

def readVarint (buf : Bytes) (off : ℕ) : Option (ℕ × ℕ) := do
  let b ← buf[off]?
  if b.toNat < 0xfd then some (b.toNat, off + 1)
  else if b.toNat = 0xfd then (unpackFrom 2 buf (off + 1)).map fun n => (n, off + 3)
  else if b.toNat = 0xfe then (unpackFrom 4 buf (off + 1)).map fun n => (n, off + 5)
  else (unpackFrom 8 buf (off + 1)).map fun n => (n, off + 9)

def encodeVarint (n : ℕ) : Option Bytes :=
  if n < 0xfd then some [UInt8.ofNat n]
  else if n ≤ 0xffff then (pack 2 n).map fun bs => 0xfd :: bs
  else if n ≤ 0xffffffff then (pack 4 n).map fun bs => 0xfe :: bs
  else (pack 8 n).map fun bs => 0xff :: bs

def encodePush (data : Bytes) : Option Bytes :=
  let n := data.length
  if n = 0 then some [0x00]
  else if n ≤ 75 then some (UInt8.ofNat n :: data)
  else if n ≤ 255 then some (0x4c :: UInt8.ofNat n :: data)
  else if n ≤ 65535 then (pack 2 n).map fun bs => 0x4d :: (bs ++ data)
  else (pack 4 n).map fun bs => 0x4e :: (bs ++ data)

/-! ## Walking over a transaction -/

/-- A loop that moves the offset on. -/
def skipMany (skip : ℕ → Option ℕ) : ℕ → ℕ → Option ℕ
  | 0, off => some off
  | n + 1, off => do
      let off ← skip off
      skipMany skip n off

/-- Previous output, script, sequence. -/
def skipInput (buf : Bytes) (off : ℕ) : Option ℕ :=
  (readVarint buf (off + 36)).map fun p => p.2 + (p.1 + 4)

/-- Value, script. -/
def skipOutput (buf : Bytes) (off : ℕ) : Option ℕ :=
  (readVarint buf (off + 8)).map fun p => p.2 + p.1

def skipItem (buf : Bytes) (off : ℕ) : Option ℕ :=
  (readVarint buf off).map fun p => p.2 + p.1

def skipStack (buf : Bytes) (off : ℕ) : Option ℕ := do
  let (nWit, off) ← readVarint buf off
  skipMany (skipItem buf) nWit off

/-- `buf[off] == 0x00 and buf[off + 1] == 0x01` -/
def isSegwit (buf : Bytes) (off : ℕ) : Option Bool := do
  let b ← buf[off]?
  if b = 0x00 then (buf[off + 1]?).map fun flag => decide (flag = 0x01) else some false

/-- `buf[start:stop]` -/
def slice (buf : Bytes) (start stop : ℕ) : Bytes := (buf.take stop).drop start

/-- From the version to the output count. -/
def skipHead (buf : Bytes) (off : ℕ) : Option (Bool × ℕ × ℕ) := do
  let segwit ← isSegwit buf (off + 4)
  let (nIn, off) ← readVarint buf (if segwit then off + 6 else off + 4)
  let off ← skipMany (skipInput buf) nIn off
  some (segwit, nIn, off)

def skipWitnesses (buf : Bytes) (segwit : Bool) (nIn off : ℕ) : Option ℕ :=
  if segwit then skipMany (skipStack buf) nIn off else some off

def parseTx (buf : Bytes) (start : ℕ) : Option (Bytes × ℕ) := do
  let _version ← unpackFrom 4 buf start
  let (segwit, nIn, off) ← skipHead buf start
  let (nOut, off) ← readVarint buf off
  let off ← skipMany (skipOutput buf) nOut off
  let off ← skipWitnesses buf segwit nIn off
  some (slice buf start (off + 4), off + 4)

/-! ## Injecting the commitment -/

def SIGNET_HEADER : Bytes := [0xec, 0xc7, 0xda, 0xa2]

/-- The coinbase with one more output. What the source does about a serialization
without witness data is never used, and left out. -/
def injectOutput (cb scriptSig : Bytes) : Option Bytes := do
  let (_, _, outCountOff) ← skipHead cb 0
  let (nOut, outStart) ← readVarint cb outCountOff
  let outEnd ← skipMany (skipOutput cb) nOut outStart
  let push ← encodePush (SIGNET_HEADER ++ scriptSig)
  let signetScript := 0x6a :: push
  let scriptLen ← encodeVarint signetScript.length
  let outCount ← encodeVarint (nOut + 1)
  some (cb.take outCountOff ++ outCount ++ slice cb outStart outEnd ++
    (leBytes 8 0 ++ scriptLen ++ signetScript) ++ cb.drop outEnd)

variable (H : Hash)

/-- The ids of the transactions behind the coinbase. -/
def restTxids (rest : Bytes) : ℕ → ℕ → Option (List Bytes)
  | 0, _ => some []
  | n + 1, off => do
      let (txB, off) ← parseTx rest off
      let txids ← restTxids rest n off
      some ((H.dsha256 txB).reverse :: txids)

def pairs : List Bytes → List Bytes
  | l :: r :: t => H.dsha256 (l ++ r) :: pairs t
  | _ => []

/-- One round of the loop: an odd level gets its last element once more. -/
def merkleRound (level : List Bytes) : List Bytes :=
  pairs H (if level.length % 2 = 1 then level ++ [level.getLastD []] else level)

def merkleLoop : ℕ → List Bytes → List Bytes
  | 0, level => level
  | fuel + 1, level => if 1 < level.length then merkleLoop fuel (merkleRound H level) else level

def merkleRoot (txids : List Bytes) : Bytes :=
  if txids = [] then List.replicate 32 0 else (merkleLoop H txids.length txids).headD []

def inject (block scriptSig : Bytes) : Option Bytes := do
  let header := block.take 80
  let (nTx, cbStart) ← readVarint block 80
  let (cb, off) ← parseTx block cbStart
  let rest := block.drop off
  let newCb ← injectOutput cb scriptSig
  let txids ← restTxids H rest (nTx - 1) 0
  let merkle := merkleRoot H ((H.dsha256 newCb).reverse :: txids)
  let newHeader := header.take 36 ++ merkle.reverse ++ header.drop 68
  let txCount ← encodeVarint nTx
  some (newHeader ++ txCount ++ newCb ++ rest)

/-- `bytes.fromhex`: blanks between the bytes are skipped. -/
def fromHex : Text → Option Bytes
  | [] => some []
  | c :: t =>
      if isSpace c then fromHex t
      else match t with
        | [] => none
        | d :: t => do
            let hi ← hexDigit? c
            let lo ← hexDigit? d
            let bs ← fromHex t
            some (UInt8.ofNat (16 * hi + lo) :: bs)

def injectSignetCommitment (blockHex scriptSigHex : Text) : Option Text := do
  let block ← fromHex blockHex
  let scriptSig ← fromHex scriptSigHex
  let newBlock ← inject H block scriptSig
  some (hexOf newBlock)

end Signet
