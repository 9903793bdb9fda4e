import Unlucky21.Lib.Bytes
import Unlucky21.Lib.Memory

/-!
# Reading a block template

`datum_gbt_parser` copies what `getblocktemplate` answered into a template slot.
A slot has one block of memory: the table of transactions at its start, and
behind it, transaction by transaction, the binary data and the hex data.

The sizes and the types of the fields are in a header, and the hex conversion
in a file, that are not in the repository.
-/

namespace BlockTemplates

open Wire Memory

/-! ## jansson -/

inductive JsonT
  | null
  | boolean (b : Bool)
  | integer (n : ℤ)
  | real
  | string (s : Text)
  | array (elements : List JsonT)
  | object (members : List (Text × JsonT))

/-- `json_object_get`; of two members with one name the last one counts. -/
def objectGet (json : JsonT) (key : String) : Option JsonT :=
  match json with
  | .object members => (members.reverse.find? fun m => m.1 = key.toList).map Prod.snd
  | _ => none

/-- `json_integer_value` -/
def integerValue : Option JsonT → ℤ
  | some (.integer n) => n
  | _ => 0

/-- `json_string_value` -/
def stringValue : Option JsonT → Option Text
  | some (.string s) => some s
  | _ => none

/-! ## Slots -/

inductive NumberField
  | height | coinbasevalue | mintime | sigoplimit | curtime | sizelimit | weightlimit | version
deriving DecidableEq, Repr

def NumberField.name : NumberField → String
  | height => "height"
  | coinbasevalue => "coinbasevalue"
  | mintime => "mintime"
  | sigoplimit => "sigoplimit"
  | curtime => "curtime"
  | sizelimit => "sizelimit"
  | weightlimit => "weightlimit"
  | version => "version"

/-- In the order they are read. -/
def numberFields : List NumberField :=
  [.height, .coinbasevalue, .mintime, .sigoplimit, .curtime, .sizelimit, .weightlimit, .version]

/-- The two hashes of a transaction, each with a field for its digits and one for its bytes. -/
inductive HashField
  | txid | hash
deriving DecidableEq, Repr

def HashField.name : HashField → String
  | txid => "txid"
  | hash => "hash"

/-- The conversions to a field's type, the sizes, and the hex conversion. -/
structure Header where
  convert : NumberField → ℤ → ℤ
  convertFee : ℤ → ℕ
  convertSigops : ℤ → ℕ
  convertWeight : ℤ → ℕ
  /-- An `int` is above `curtime`; whether by its sign depends on the field's type. -/
  exceedsCurtime : ℤ → ℤ → Bool
  sizeofTxn : ℕ
  /-- The room for the digits and for the bytes of a hash, and where in an entry it ends. -/
  hexField : ℕ
  binField : ℕ
  hexStop : HashField → ℕ
  binStop : HashField → ℕ
  maxBlockSizeBytes : ℕ
  maxTemplatesInMemory : ℕ
  hexToBin : Text → Bytes

def Header.localDataSize (hdr : Header) : ℕ :=
  hdr.sizeofTxn * 16384 + hdr.maxBlockSizeBytes * 3 + 2000000

structure TemplateTxn where
  indexRaw : ℕ := 0
  txidHex : Text := []
  hashHex : Text := []
  feeSats : ℕ := 0
  sigops : ℕ := 0
  weight : ℕ := 0
  size : ℕ := 0
  /-- Addresses in the slot's memory. -/
  txnDataBinary : ℕ := 0
  txnDataHex : ℕ := 0
deriving DecidableEq, Repr

/-- `T_DATUM_TEMPLATE_DATA`, with the table at the start of the memory apart. -/
structure TemplateData where
  number : NumberField → ℤ := fun _ => 0
  bits : Text := []
  previousblockhash : Text := []
  blockTargetHex : Text := []
  defaultWitnessCommitment : Text := []
  txnCount : ℕ := 0
  txnDataOffset : ℕ := 0
  txnTotalWeight : ℕ := 0
  txnTotalSize : ℕ := 0
  txnTotalSigops : ℕ := 0
  txns : ℕ → TemplateTxn := fun _ => {}
  localData : ℕ → UInt8 := fun _ => 0

/-- `datum_template_clear` -/
def TemplateData.clear (t : TemplateData) : TemplateData := { t with
  number := Function.update t.number .coinbasevalue 0
  txnCount := 0
  txnTotalSize := 0
  txnDataOffset := 0
  txnTotalWeight := 0
  txnTotalSigops := 0 }

/-- Why there is no template. -/
inductive Fault
  | missing (field : String)
  | bitsLength
  | txnNotObject (i : ℕ)
  | txnMissing (i : ℕ) (field : String)
  | tooLarge
deriving DecidableEq, Repr

def Fault.message : Fault → String
  | missing field => "Missing data from GBT JSON (" ++ field ++ ")"
  | bitsLength => "Wrong bits length from GBT JSON"
  | txnNotObject i => "transaction " ++ toString i ++ " is not an object!"
  | txnMissing i field =>
      "Missing data from GBT JSON transactions[" ++ toString i ++ "] (" ++ field ++ ")"
  | tooLarge => "Exceeded template local size with txn data!"

/-! ## The fields -/

variable (hdr : Header)

/-- Each number in turn, up to the first that is zero. -/
def readNumbers (gbt : JsonT) : List NumberField → TemplateData → TemplateData × Option Fault
  | [], t => (t, none)
  | f :: fs, t =>
      let n := hdr.convert f (integerValue (objectGet gbt f.name))
      let t := { t with number := Function.update t.number f n }
      if n = 0 then (t, some (.missing f.name)) else readNumbers gbt fs t

/-- The fields in front of the transactions. `strncpy` cuts three of them. -/
def readFields (gbt : JsonT) (t : TemplateData) : TemplateData × Option Fault :=
  match readNumbers hdr gbt numberFields t with
  | (t, some fault) => (t, some fault)
  | (t, none) =>
      match stringValue (objectGet gbt "bits") with
      | none => (t, some (.missing "bits"))
      | some bits =>
          if bits.length ≠ 8 then (t, some .bitsLength)
          else
            let t := { t with bits := bits }
            match stringValue (objectGet gbt "previousblockhash") with
            | none => (t, some (.missing "previousblockhash"))
            | some s =>
                let t := { t with previousblockhash := s.take 71 }
                match stringValue (objectGet gbt "target") with
                | none => (t, some (.missing "target"))
                | some s =>
                    let t := { t with blockTargetHex := s.take 71 }
                    match stringValue (objectGet gbt "default_witness_commitment") with
                    | none => (t, some (.missing "default_witness_commitment"))
                    | some s => ({ t with defaultWitnessCommitment := s.take 95 }, none)

/-! ## The transactions -/

/-- A slot while it is filled, and what was written of its memory. -/
structure Parse where
  t : TemplateData
  writes : List Stretch := []

def Parse.setTxn (p : Parse) (i : ℕ) (f : TemplateTxn → TemplateTxn) : Parse :=
  { p with t := { p.t with txns := Function.update p.t.txns i (f (p.t.txns i)) } }

/-- The `i`-th entry of the table. -/
def Header.entry (hdr : Header) (i : ℕ) : Stretch := ⟨i * hdr.sizeofTxn, (i + 1) * hdr.sizeofTxn⟩

/-- The first write to an entry. -/
def Parse.openTxn (p : Parse) (i : ℕ) : Parse :=
  { p.setTxn i fun e => { e with indexRaw := i + 1 } with writes := hdr.entry i :: p.writes }

def charByte (c : Char) : UInt8 := UInt8.ofNat c.toNat

/-- What `strcpy` writes. -/
def cBytes (s : Text) : Bytes := s.map charByte ++ [0]

/-- Where the data of a transaction goes. -/
def Parse.place (p : Parse) (i : ℕ) (data : Text) : Parse :=
  let size := data.length / 2
  let binary := p.t.txnDataOffset
  let hex := binary + (size + 1)
  let p := p.setTxn i fun e => { e with size := size, txnDataBinary := binary, txnDataHex := hex }
  { p with t := { p.t with txnDataOffset := hex + (size * 2 + 2) } }

def u32 (n : ℕ) : ℕ := n % 2 ^ 32

def Parse.fill (p : Parse) (i : ℕ) (data : Text) : Parse :=
  let e := p.t.txns i
  let localData := store p.t.localData e.txnDataHex (cBytes data)
  let binary := hdr.hexToBin data
  { t := { p.t with
      localData := store localData e.txnDataBinary binary
      txnTotalWeight := u32 (p.t.txnTotalWeight + e.weight)
      txnTotalSize := u32 (p.t.txnTotalSize + e.size)
      txnTotalSigops := u32 (p.t.txnTotalSigops + e.sigops) }
    writes := ⟨e.txnDataBinary, e.txnDataBinary + binary.length⟩ ::
      ⟨e.txnDataHex, e.txnDataHex + (cBytes data).length⟩ :: p.writes }

/-- Of `n` bytes for a field of `size` bytes that ends at `stop` in entry `i`, those
that do not fit are written behind it. -/
def Parse.spill (p : Parse) (i stop size n : ℕ) : Parse :=
  if size < n then
    let start := i * hdr.sizeofTxn + stop
    { p with writes := ⟨start, start + (n - size)⟩ :: p.writes }
  else p

/-- `strcpy` of the digits and `hex_to_bin_le`; neither looks at the room there is. What
the excess does to the bytes it lands on is not followed. -/
def Parse.copyHash (p : Parse) (i : ℕ) (f : HashField) (digits : Text) : Parse :=
  (p.spill hdr i (hdr.hexStop f) hdr.hexField (digits.length + 1)).spill hdr i (hdr.binStop f)
    hdr.binField (digits.length / 2)

def readTxn (i : ℕ) (tx : JsonT) (p : Parse) : Parse × Option Fault :=
  match tx with
  | .object _ =>
      let p := p.openTxn hdr i
      match stringValue (objectGet tx "txid") with
      | none => (p, some (.txnMissing i "txid"))
      | some txid =>
          let p := (p.setTxn i fun e => { e with txidHex := txid }).copyHash hdr i .txid txid
          match stringValue (objectGet tx "hash") with
          | none => (p, some (.txnMissing i "hash"))
          | some hash =>
              let p := (p.setTxn i fun e => { e with hashHex := hash }).copyHash hdr i .hash hash
              let p := p.setTxn i fun e => { e with
                feeSats := hdr.convertFee (integerValue (objectGet tx "fee"))
                sigops := hdr.convertSigops (integerValue (objectGet tx "sigops"))
                weight := hdr.convertWeight (integerValue (objectGet tx "weight")) }
              match stringValue (objectGet tx "data") with
              | none => (p, some (.txnMissing i "data"))
              | some data =>
                  let p := p.place i data
                  if hdr.localDataSize ≤ p.t.txnDataOffset then (p, some .tooLarge)
                  else (p.fill hdr i data, none)
  | _ => (p, some (.txnNotObject i))

def readTxns : ℕ → List JsonT → Parse → Parse × Option Fault
  | _, [], p => (p, none)
  | i, tx :: txs, p =>
      match readTxn hdr i tx p with
      | (p, some fault) => (p, some fault)
      | (p, none) => readTxns (i + 1) txs p

/-- `datum_gbt_parser` on a cleared slot. The offset is taken from the number of
transactions before it is cut. -/
def datumGbtParser (gbt : JsonT) (t : TemplateData) : Parse × Option Fault :=
  match readFields hdr gbt t with
  | (t, some fault) => (⟨t, []⟩, some fault)
  | (t, none) =>
      match objectGet gbt "transactions" with
      | some (.array txs) =>
          readTxns hdr 0 (txs.take 16383) ⟨{ t with
            txnCount := min txs.length 16383
            txnDataOffset := hdr.sizeofTxn * txs.length }, []⟩
      | _ => (⟨t, []⟩, some (.missing "transactions"))

/-! ## Hashes that fit -/

/-- The hashes of a transaction fit their fields. -/
def hashesFit (tx : JsonT) : Bool :=
  [HashField.txid, .hash].all fun f => (stringValue (objectGet tx f.name)).all fun digits =>
    digits.length < hdr.hexField && digits.length / 2 ≤ hdr.binField

def answerFits (gbt : JsonT) : Bool :=
  match objectGet gbt "transactions" with
  | some (.array txs) => (txs.take 16383).all (hashesFit hdr)
  | _ => true

end BlockTemplates
