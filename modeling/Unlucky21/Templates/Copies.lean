import Unlucky21.Lib.CText
import Unlucky21.Templates.Parser

/-!
# What a template slot holds

Whatever the node answers, and wherever the parser stops, it writes a slot's
memory in stretches that do not overlap and do not leave the slot. So a
template that is handed out holds each transaction as it came, the first as
well as the last.
-/

namespace BlockTemplates

open Wire Memory

variable {hdr : Header}

/-! ## One transaction -/

theorem spill_of_le (p : Parse) {i stop size n : ℕ} (h : n ≤ size) :
    p.spill hdr i stop size n = p := by
  rw [Parse.spill, if_neg (not_lt.mpr h)]

/-- A hash that fits is written nowhere else. -/
theorem copyHash_of_fit {tx : JsonT} (hfit : hashesFit hdr tx = true) {f : HashField} {digits : Text}
    (hdigits : stringValue (objectGet tx f.name) = some digits) (p : Parse) (i : ℕ) :
    p.copyHash hdr i f digits = p := by
  have hmem : f ∈ [HashField.txid, .hash] := by cases f <;> simp
  have hroom := List.all_eq_true.mp hfit f hmem
  rw [hdigits] at hroom
  obtain ⟨hhex, hbin⟩ : digits.length < hdr.hexField ∧ digits.length / 2 ≤ hdr.binField := by
    simpa using hroom
  rw [Parse.copyHash, spill_of_le p hhex, spill_of_le p hbin]

@[simp] theorem setTxn_self (p : Parse) (i : ℕ) (f : TemplateTxn → TemplateTxn) :
    (p.setTxn i f).t.txns i = f (p.t.txns i) := by
  simp [Parse.setTxn]

theorem setTxn_of_ne (p : Parse) {i j : ℕ} (h : j ≠ i) (f : TemplateTxn → TemplateTxn) :
    (p.setTxn i f).t.txns j = p.t.txns j := by
  simp [Parse.setTxn, h]

/-- The slot when all of a transaction is known, and its data not yet copied. -/
def Parse.placed (hdr : Header) (p : Parse) (i : ℕ) (tx : JsonT) (txid hash data : Text) : Parse :=
  ((((p.openTxn hdr i).setTxn i fun e => { e with txidHex := txid }).setTxn i fun e => { e with
    hashHex := hash }).setTxn i fun e => { e with
      feeSats := hdr.convertFee (integerValue (objectGet tx "fee"))
      sigops := hdr.convertSigops (integerValue (objectGet tx "sigops"))
      weight := hdr.convertWeight (integerValue (objectGet tx "weight")) }).place i data

/-- The entry of a transaction whose data goes to `offset`. -/
def entryOf (hdr : Header) (i : ℕ) (tx : JsonT) (txid hash data : Text) (offset : ℕ) :
    TemplateTxn where
  indexRaw := i + 1
  txidHex := txid
  hashHex := hash
  feeSats := hdr.convertFee (integerValue (objectGet tx "fee"))
  sigops := hdr.convertSigops (integerValue (objectGet tx "sigops"))
  weight := hdr.convertWeight (integerValue (objectGet tx "weight"))
  size := data.length / 2
  txnDataBinary := offset
  txnDataHex := offset + (data.length / 2 + 1)

/-- The bytes that are set aside for a transaction's data. -/
def room (data : Text) : ℕ := (data.length / 2 + 1) + (data.length / 2 * 2 + 2)

section

variable (hdr) (p : Parse) (i : ℕ) (tx : JsonT) (txid hash data : Text)

theorem place_txns : (p.place i data).t.txns = (p.setTxn i fun e => { e with
    size := data.length / 2
    txnDataBinary := p.t.txnDataOffset
    txnDataHex := p.t.txnDataOffset + (data.length / 2 + 1) }).t.txns := rfl

theorem openTxn_txns :
    (p.openTxn hdr i).t.txns = (p.setTxn i fun e => { e with indexRaw := i + 1 }).t.txns := rfl

@[simp] theorem setTxn_txnDataOffset (f : TemplateTxn → TemplateTxn) :
    (p.setTxn i f).t.txnDataOffset = p.t.txnDataOffset := rfl

@[simp] theorem openTxn_txnDataOffset :
    (p.openTxn hdr i).t.txnDataOffset = p.t.txnDataOffset := rfl

theorem placed_txns_self : (p.placed hdr i tx txid hash data).t.txns i =
    entryOf hdr i tx txid hash data p.t.txnDataOffset := by
  rw [Parse.placed, place_txns]
  simp [openTxn_txns, entryOf]

theorem placed_txns_of_ne {j : ℕ} (h : j ≠ i) :
    (p.placed hdr i tx txid hash data).t.txns j = p.t.txns j := by
  rw [Parse.placed, place_txns]
  simp [openTxn_txns, setTxn_of_ne, h]

theorem placed_txnDataOffset : (p.placed hdr i tx txid hash data).t.txnDataOffset =
    p.t.txnDataOffset + room data := by
  show p.t.txnDataOffset + (data.length / 2 + 1) + (data.length / 2 * 2 + 2) = _
  rw [room, Nat.add_assoc]

end

/-! ### What reading a transaction can do -/

/-- The fields in front of the transactions, and how many there are. -/
structure SameHead (t t' : TemplateData) : Prop where
  number : t'.number = t.number
  bits : t'.bits = t.bits
  previousblockhash : t'.previousblockhash = t.previousblockhash
  blockTargetHex : t'.blockTargetHex = t.blockTargetHex
  defaultWitnessCommitment : t'.defaultWitnessCommitment = t.defaultWitnessCommitment
  txnCount : t'.txnCount = t.txnCount

theorem SameHead.trans {t t' t'' : TemplateData} (h : SameHead t t') (h' : SameHead t' t'') :
    SameHead t t'' where
  number := h'.number.trans h.number
  bits := h'.bits.trans h.bits
  previousblockhash := h'.previousblockhash.trans h.previousblockhash
  blockTargetHex := h'.blockTargetHex.trans h.blockTargetHex
  defaultWitnessCommitment := h'.defaultWitnessCommitment.trans h.defaultWitnessCommitment
  txnCount := h'.txnCount.trans h.txnCount

theorem sameHead_setTxn (p : Parse) (i : ℕ) (f : TemplateTxn → TemplateTxn) :
    SameHead p.t (p.setTxn i f).t := ⟨rfl, rfl, rfl, rfl, rfl, rfl⟩

theorem sameHead_openTxn (p : Parse) (i : ℕ) : SameHead p.t (p.openTxn hdr i).t :=
  ⟨rfl, rfl, rfl, rfl, rfl, rfl⟩

theorem sameHead_place (p : Parse) (i : ℕ) (data : Text) : SameHead p.t (p.place i data).t :=
  ⟨rfl, rfl, rfl, rfl, rfl, rfl⟩

theorem sameHead_fill (p : Parse) (i : ℕ) (data : Text) : SameHead p.t (p.fill hdr i data).t :=
  ⟨rfl, rfl, rfl, rfl, rfl, rfl⟩

theorem sameHead_placed (p : Parse) (i : ℕ) (tx : JsonT) (txid hash data : Text) :
    SameHead p.t (p.placed hdr i tx txid hash data).t :=
  ((((sameHead_openTxn p i).trans (sameHead_setTxn _ i _)).trans (sameHead_setTxn _ i _)).trans
    (sameHead_setTxn _ i _)).trans (sameHead_place _ i data)

inductive ReadTxn (hdr : Header) (i : ℕ) (tx : JsonT) (p : Parse) : Parse × Option Fault → Prop
  | notObject : ReadTxn hdr i tx p (p, some (.txnNotObject i))
  | stopped (p' : Parse) (fault : Fault) (writes : p'.writes = hdr.entry i :: p.writes)
      (offset : p.t.txnDataOffset ≤ p'.t.txnDataOffset) : ReadTxn hdr i tx p (p', some fault)
  | read (txid hash data : Text)
      (htxid : stringValue (objectGet tx "txid") = some txid)
      (hhash : stringValue (objectGet tx "hash") = some hash)
      (hdata : stringValue (objectGet tx "data") = some data)
      (fits : p.t.txnDataOffset + room data < hdr.localDataSize) :
      ReadTxn hdr i tx p ((p.placed hdr i tx txid hash data).fill hdr i data, none)

theorem readTxn_cases {tx : JsonT} (hfit : hashesFit hdr tx = true) (i : ℕ) (p : Parse) :
    ReadTxn hdr i tx p (readTxn hdr i tx p) := by
  cases tx with
  | object members =>
      cases htxid : stringValue (objectGet (.object members) "txid") with
      | none =>
          simp only [readTxn, htxid]
          exact .stopped (p.openTxn hdr i) _ rfl le_rfl
      | some txid =>
      cases hhash : stringValue (objectGet (.object members) "hash") with
      | none =>
          simp only [readTxn, htxid, hhash, copyHash_of_fit (f := .txid) hfit htxid]
          exact .stopped ((p.openTxn hdr i).setTxn i _) _ rfl le_rfl
      | some hash =>
      cases hdata : stringValue (objectGet (.object members) "data") with
      | none =>
          simp only [readTxn, htxid, hhash, hdata, copyHash_of_fit (f := .txid) hfit htxid,
            copyHash_of_fit (f := .hash) hfit hhash]
          exact .stopped ((((p.openTxn hdr i).setTxn i _).setTxn i _).setTxn i _) _ rfl le_rfl
      | some data =>
          simp only [readTxn, htxid, hhash, hdata, copyHash_of_fit (f := .txid) hfit htxid,
            copyHash_of_fit (f := .hash) hfit hhash]
          change ReadTxn hdr i _ p (if hdr.localDataSize ≤
            (p.placed hdr i (.object members) txid hash data).t.txnDataOffset then _ else _)
          rw [placed_txnDataOffset]
          split_ifs with hsize
          · refine .stopped (p.placed hdr i _ txid hash data) _ rfl ?_
            rw [placed_txnDataOffset]
            exact Nat.le_add_right _ _
          · exact .read txid hash data htxid hhash hdata (not_le.mp hsize)
  | _ => exact .notObject

/-! ## The stretches that are written -/

/-- The stretches do not overlap: entries of the table up to `i`, and data
between the end of the table and the offset. -/
structure Laid (hdr : Header) (base i : ℕ) (p : Parse) : Prop where
  apart : p.writes.Pairwise Stretch.Apart
  within : ∀ w ∈ p.writes, (∃ j < i, w = hdr.entry j) ∨
    base ≤ w.start ∧ w.stop ≤ p.t.txnDataOffset ∧ w.stop ≤ hdr.localDataSize
  offset : base ≤ p.t.txnDataOffset

theorem Laid.mono {base i i' : ℕ} {p : Parse} (h : Laid hdr base i p) (hi : i ≤ i') :
    Laid hdr base i' p where
  apart := h.apart
  within w hw := (h.within w hw).imp (fun ⟨j, hj, he⟩ => ⟨j, hj.trans_le hi, he⟩) id
  offset := h.offset

theorem entry_apart {i j : ℕ} (h : j < i) : (hdr.entry i).Apart (hdr.entry j) :=
  Or.inr (Nat.mul_le_mul_right _ h)

/-- The next entry of the table is free. -/
theorem Laid.open {base i : ℕ} {p p' : Parse} (h : Laid hdr base i p)
    (hbase : (i + 1) * hdr.sizeofTxn ≤ base) (hwrites : p'.writes = hdr.entry i :: p.writes)
    (hoffset : p.t.txnDataOffset ≤ p'.t.txnDataOffset) : Laid hdr base (i + 1) p' where
  apart := by
    rw [hwrites, List.pairwise_cons]
    refine ⟨fun w hw => ?_, h.apart⟩
    rcases h.within w hw with ⟨j, hj, rfl⟩ | ⟨hstart, -, -⟩
    · exact entry_apart hj
    · exact Or.inl (hbase.trans hstart)
  within w hw := by
    rw [hwrites, List.mem_cons] at hw
    rcases hw with rfl | hw
    · exact Or.inl ⟨i, Nat.lt_succ_self i, rfl⟩
    · rcases h.within w hw with ⟨j, hj, he⟩ | ⟨hstart, hstop, hsize⟩
      · exact Or.inl ⟨j, hj.trans (Nat.lt_succ_self i), he⟩
      · exact Or.inr ⟨hstart, hstop.trans hoffset, hsize⟩
  offset := h.offset.trans hoffset

/-- So is what is behind the offset. -/
theorem Laid.push {base i : ℕ} {p p' : Parse} (h : Laid hdr base i p) (hi : i * hdr.sizeofTxn ≤ base)
    {ws : List Stretch} (hwrites : p'.writes = ws ++ p.writes) (hapart : ws.Pairwise Stretch.Apart)
    (hws : ∀ w ∈ ws, p.t.txnDataOffset ≤ w.start ∧ w.stop ≤ p'.t.txnDataOffset)
    (hoffset : p.t.txnDataOffset ≤ p'.t.txnDataOffset)
    (hsize : p'.t.txnDataOffset ≤ hdr.localDataSize) : Laid hdr base i p' where
  apart := by
    rw [hwrites, List.pairwise_append]
    refine ⟨hapart, h.apart, fun w hw v hv => ?_⟩
    rcases h.within v hv with ⟨j, hj, rfl⟩ | ⟨-, hv', -⟩
    · exact Or.inr ((Nat.mul_le_mul_right _ hj).trans (hi.trans (h.offset.trans (hws w hw).1)))
    · exact Or.inr (hv'.trans (hws w hw).1)
  within v hv := by
    rw [hwrites, List.mem_append] at hv
    rcases hv with hv | hv
    · obtain ⟨hstart, hstop⟩ := hws v hv
      exact Or.inr ⟨h.offset.trans hstart, hstop, hstop.trans hsize⟩
    · rcases h.within v hv with he | ⟨hv₁, hv₂, hv₃⟩
      · exact Or.inl he
      · exact Or.inr ⟨hv₁, hv₂.trans hoffset, hv₃⟩
  offset := h.offset.trans hoffset

theorem length_cBytes (s : Text) : (cBytes s).length = s.length + 1 := by
  simp [cBytes]

/-- Where `fill` writes. -/
theorem fill_writes (p : Parse) (i : ℕ) (tx : JsonT) (txid hash data : Text) :
    ((p.placed hdr i tx txid hash data).fill hdr i data).writes =
      [⟨p.t.txnDataOffset, p.t.txnDataOffset + (hdr.hexToBin data).length⟩,
        ⟨p.t.txnDataOffset + (data.length / 2 + 1),
          p.t.txnDataOffset + (data.length / 2 + 1) + (cBytes data).length⟩] ++
      (p.placed hdr i tx txid hash data).writes := by
  rw [Parse.fill, placed_txns_self]
  rfl

/-- `hex_to_bin` writes a byte for every two digits. -/
def Header.Halves (hdr : Header) : Prop := ∀ s, (hdr.hexToBin s).length = s.length / 2

theorem ReadTxn.laid {i : ℕ} {tx : JsonT} {p : Parse} {r : Parse × Option Fault}
    (h : ReadTxn hdr i tx p r) (hhalves : hdr.Halves) {base : ℕ} (hp : Laid hdr base i p)
    (hbase : (i + 1) * hdr.sizeofTxn ≤ base) : Laid hdr base (i + 1) r.1 := by
  cases h with
  | notObject => exact hp.mono (Nat.le_succ i)
  | stopped p' fault writes offset => exact hp.open hbase writes offset
  | read txid hash data htxid hhash hdata fits =>
      have hoffset := placed_txnDataOffset hdr p i tx txid hash data
      -- the entry first, with the offset as it was, and then the data behind it
      have hopen : Laid hdr base (i + 1) (p.openTxn hdr i) :=
        hp.open hbase rfl le_rfl
      have hbin := hhalves data
      have hhex := length_cBytes data
      refine hopen.push hbase (fill_writes p i tx txid hash data) ?_ ?_ ?_ ?_
      · simp only [List.pairwise_cons, List.mem_singleton, forall_eq, List.not_mem_nil,
          false_implies, implies_true, List.Pairwise.nil, and_true]
        exact Or.inl (by simp only; omega)
      · show ∀ w : Stretch, w ∈ [_, _] → _ ∧
          w.stop ≤ (p.placed hdr i tx txid hash data).t.txnDataOffset
        rw [hoffset]
        simp only [List.forall_mem_cons, openTxn_txnDataOffset, List.not_mem_nil, false_implies,
          implies_true, and_true, room]
        omega
      · show p.t.txnDataOffset ≤ (p.placed hdr i tx txid hash data).t.txnDataOffset
        omega
      · show (p.placed hdr i tx txid hash data).t.txnDataOffset ≤ _
        omega

theorem readTxns_laid (hhalves : hdr.Halves) {base : ℕ} : ∀ {txs : List JsonT} {i : ℕ} {p : Parse},
    txs.all (hashesFit hdr) = true → Laid hdr base i p → (i + txs.length) * hdr.sizeofTxn ≤ base →
      Laid hdr base (i + txs.length) (readTxns hdr i txs p).1
  | [], _, _, _, hp, _ => hp
  | tx :: txs, i, p, hfit, hp, hbase => by
      rw [List.all_cons, Bool.and_eq_true] at hfit
      rw [List.length_cons] at hbase ⊢
      have hnext : (i + 1) * hdr.sizeofTxn ≤ base :=
        (Nat.mul_le_mul_right _ (by omega)).trans hbase
      have hstep := (readTxn_cases hfit.1 i p).laid hhalves hp hnext
      rw [readTxns]
      split
      · rename_i p' fault hread
        rw [hread] at hstep
        exact hstep.mono (by omega)
      · rename_i p' hread
        rw [hread] at hstep
        have htable : (i + 1 + txs.length) * hdr.sizeofTxn ≤ base := by
          rwa [Nat.add_right_comm, Nat.add_assoc]
        have hrest := readTxns_laid hhalves hfit.2 hstep htable
        rwa [Nat.add_right_comm, Nat.add_assoc] at hrest

/-- The slot in front of the transactions. -/
def withCount (hdr : Header) (t : TemplateData) (txs : List JsonT) : Parse :=
  ⟨{ t with
    txnCount := min txs.length 16383
    txnDataOffset := hdr.sizeofTxn * txs.length }, []⟩

/-- The parser gives up in front of the transactions, or reads them. -/
theorem datumGbtParser_cases (hdr : Header) (gbt : JsonT) (t : TemplateData) :
    (∃ t' fault, datumGbtParser hdr gbt t = (⟨t', []⟩, some fault)) ∨
      ∃ t' txs, readFields hdr gbt t = (t', none) ∧
        objectGet gbt "transactions" = some (.array txs) ∧
        datumGbtParser hdr gbt t = readTxns hdr 0 (txs.take 16383) (withCount hdr t' txs) := by
  rw [datumGbtParser]
  cases hfields : readFields hdr gbt t with
  | mk t' fault =>
      cases fault with
      | some fault => exact Or.inl ⟨t', fault, rfl⟩
      | none =>
          simp only
          split
          · rename_i txs htxs
            exact Or.inr ⟨t', txs, rfl, htxs, rfl⟩
          · exact Or.inl ⟨_, _, rfl⟩

theorem all_hashesFit {gbt : JsonT} (hfit : answerFits hdr gbt = true) {txs : List JsonT}
    (htxs : objectGet gbt "transactions" = some (.array txs)) :
    (txs.take 16383).all (hashesFit hdr) = true := by
  rwa [answerFits, htxs] at hfit

/-- **The parser stays inside its slot.** Whatever the node answers, as long as
the hashes in it fit their fields, and wherever the parser stops: what it writes of
a slot's memory does not overlap and ends inside it. -/
theorem datumGbtParser_writes (hhalves : hdr.Halves) (gbt : JsonT) (t : TemplateData)
    (hfit : answerFits hdr gbt = true) :
    (datumGbtParser hdr gbt t).1.writes.Pairwise Stretch.Apart ∧
      ∀ w ∈ (datumGbtParser hdr gbt t).1.writes, w.stop ≤ hdr.localDataSize := by
  obtain ⟨t', fault, hparse⟩ | ⟨t', txs, -, htxs, hparse⟩ := datumGbtParser_cases hdr gbt t
  · rw [hparse]
    exact ⟨List.Pairwise.nil, by simp⟩
  · rw [hparse]
    have hlen : (txs.take 16383).length ≤ 16383 := List.length_take_le _ _
    have htable : (0 + (txs.take 16383).length) * hdr.sizeofTxn ≤ hdr.sizeofTxn * txs.length := by
      rw [Nat.zero_add, Nat.mul_comm, List.length_take]
      exact Nat.mul_le_mul_left _ (Nat.min_le_right _ _)
    have hstart : Laid hdr (hdr.sizeofTxn * txs.length) 0 (withCount hdr t' txs) :=
      ⟨List.Pairwise.nil, by simp [withCount], le_rfl⟩
    have hlaid := readTxns_laid hhalves (all_hashesFit hfit htxs) hstart htable
    refine ⟨hlaid.apart, fun w hw => ?_⟩
    rcases hlaid.within w hw with ⟨j, hj, rfl⟩ | ⟨-, -, hsize⟩
    · -- the table has room for one entry more
      have hentry : (j + 1) * hdr.sizeofTxn ≤ 16384 * hdr.sizeofTxn :=
        Nat.mul_le_mul_right _ (by omega)
      show (j + 1) * hdr.sizeofTxn ≤ hdr.sizeofTxn * 16384 + _ + _
      omega
    · exact hsize

/-- A header with plain conversions and two slots. -/
def sampleHeader : Header where
  convert _ n := n
  convertFee := Int.toNat
  convertSigops := Int.toNat
  convertWeight := Int.toNat
  exceedsCurtime height curtime := curtime < height
  sizeofTxn := 264
  hexField := 72
  binField := 36
  hexStop f := match f with
    | .txid => 76
    | .hash => 148
  binStop f := match f with
    | .txid => 184
    | .hash => 220
  maxBlockSizeBytes := 4000000
  maxTemplatesInMemory := 2
  hexToBin s := unhex (fun hi lo => UInt8.ofNat (16 * CText.digitValue hi + CText.digitValue lo))
    (s.take (2 * (s.length / 2)))

theorem halves_sampleHeader : sampleHeader.Halves := fun s => by
  have hlen : (s.take (2 * (s.length / 2))).length = 2 * (s.length / 2) := by
    rw [List.length_take]
    omega
  have heven : 2 ∣ (s.take (2 * (s.length / 2))).length := ⟨s.length / 2, hlen⟩
  have hbytes := @unhex_length
    (fun hi lo => UInt8.ofNat (16 * CText.digitValue hi + CText.digitValue lo)) _ heven
  show (unhex _ _).length = _
  omega

/-- A template with a transaction of two bytes. -/
def sampleAnswer : JsonT := .object [
  ("height".toList, .integer 101), ("coinbasevalue".toList, .integer 5000000000),
  ("mintime".toList, .integer 1), ("sigoplimit".toList, .integer 80000),
  ("curtime".toList, .integer 2), ("sizelimit".toList, .integer 4000000),
  ("weightlimit".toList, .integer 4000000), ("version".toList, .integer 536870912),
  ("bits".toList, .string "1d00ffff".toList), ("previousblockhash".toList, .string "00ff".toList),
  ("target".toList, .string "00ff".toList),
  ("default_witness_commitment".toList, .string "6a24".toList),
  ("transactions".toList, .array [.object [("txid".toList, .string "ab".toList),
    ("hash".toList, .string "cd".toList), ("fee".toList, .integer 7),
    ("sigops".toList, .integer 1), ("weight".toList, .integer 8),
    ("data".toList, .string "0102".toList)]])]

theorem datumGbtParser_writes_sample :
    (datumGbtParser sampleHeader sampleAnswer {}).1.writes.length = 3 ∧
      (datumGbtParser sampleHeader sampleAnswer {}).1.writes.Pairwise Stretch.Apart :=
  ⟨by decide +kernel,
    (datumGbtParser_writes halves_sampleHeader sampleAnswer {} (by decide +kernel)).1⟩

/-! ## What is copied -/

/-- Entry `i` and the memory behind the table hold the transaction `tx`. -/
structure CopiedAs (hdr : Header) (t : TemplateData) (i : ℕ) (tx : JsonT) (txid hash data : Text) :
    Prop where
  txidOf : stringValue (objectGet tx "txid") = some txid
  hashOf : stringValue (objectGet tx "hash") = some hash
  dataOf : stringValue (objectGet tx "data") = some data
  entry : t.txns i = entryOf hdr i tx txid hash data (t.txns i).txnDataBinary
  hex : Holds t.localData (t.txns i).txnDataHex (cBytes data)
  binary : Holds t.localData (t.txns i).txnDataBinary (hdr.hexToBin data)
  below : (t.txns i).txnDataBinary + room data ≤ t.txnDataOffset

def Copied (hdr : Header) (t : TemplateData) (i : ℕ) (tx : JsonT) : Prop :=
  ∃ txid hash data, CopiedAs hdr t i tx txid hash data

section

variable (p : Parse) (i : ℕ) (tx : JsonT) (txid hash data : Text)

@[simp] theorem fill_txns : (p.fill hdr i data).t.txns = p.t.txns := rfl

@[simp] theorem fill_txnDataOffset : (p.fill hdr i data).t.txnDataOffset = p.t.txnDataOffset := rfl

theorem fill_localData : (p.fill hdr i data).t.localData =
    store (store p.t.localData (p.t.txns i).txnDataHex (cBytes data)) (p.t.txns i).txnDataBinary
      (hdr.hexToBin data) := rfl

theorem place_localData : (p.place i data).t.localData = p.t.localData := rfl

theorem setTxn_localData (f : TemplateTxn → TemplateTxn) :
    (p.setTxn i f).t.localData = p.t.localData := rfl

theorem openTxn_localData : (p.openTxn hdr i).t.localData = p.t.localData := rfl

theorem placed_localData : (p.placed hdr i tx txid hash data).t.localData = p.t.localData := by
  rw [Parse.placed, place_localData, setTxn_localData, setTxn_localData, setTxn_localData,
    openTxn_localData]

theorem copy_localData : ((p.placed hdr i tx txid hash data).fill hdr i data).t.localData =
    store (store p.t.localData (p.t.txnDataOffset + (data.length / 2 + 1)) (cBytes data))
      p.t.txnDataOffset (hdr.hexToBin data) := by
  rw [fill_localData, placed_txns_self, placed_localData]
  rfl

end

theorem copiedAs_copy (hhalves : hdr.Halves) (p : Parse) {i : ℕ} {tx : JsonT} {txid hash data : Text}
    (htxid : stringValue (objectGet tx "txid") = some txid)
    (hhash : stringValue (objectGet tx "hash") = some hash)
    (hdata : stringValue (objectGet tx "data") = some data) :
    CopiedAs hdr ((p.placed hdr i tx txid hash data).fill hdr i data).t i tx txid hash data := by
  have hbin := hhalves data
  refine ⟨htxid, hhash, hdata, ?_, ?_, ?_, ?_⟩
  · rw [fill_txns, placed_txns_self]
    rfl
  · rw [fill_txns, placed_txns_self, copy_localData]
    refine (holds_store _ _ _).store_of_apart (Or.inr ?_)
    show p.t.txnDataOffset + (hdr.hexToBin data).length ≤ p.t.txnDataOffset + (data.length / 2 + 1)
    omega
  · rw [fill_txns, placed_txns_self, copy_localData]
    exact holds_store _ _ _
  · rw [fill_txns, placed_txns_self, fill_txnDataOffset, placed_txnDataOffset]
    exact le_refl (p.t.txnDataOffset + room data)

/-- A transaction that was copied before stays. -/
theorem CopiedAs.copy (hhalves : hdr.Halves) {p : Parse} {j : ℕ} {tx' : JsonT}
    {txid' hash' data' : Text} (h : CopiedAs hdr p.t j tx' txid' hash' data') {i : ℕ} (hj : j ≠ i)
    (tx : JsonT) (txid hash data : Text) :
    CopiedAs hdr ((p.placed hdr i tx txid hash data).fill hdr i data).t j tx' txid' hash' data' := by
  have hentry : ((p.placed hdr i tx txid hash data).fill hdr i data).t.txns j = p.t.txns j := by
    rw [fill_txns, placed_txns_of_ne _ _ _ _ _ _ _ hj]
  have hhex : (p.t.txns j).txnDataHex = (p.t.txns j).txnDataBinary + (data'.length / 2 + 1) := by
    rw [h.entry]
    rfl
  have hbelow := h.below
  have hlen := length_cBytes data'
  have hbin := hhalves data'
  unfold room at hbelow
  refine ⟨h.txidOf, h.hashOf, h.dataOf, ?_, ?_, ?_, ?_⟩
  · rw [hentry]
    exact h.entry
  · rw [hentry, copy_localData]
    exact (h.hex.store_of_apart (Or.inl (by omega))).store_of_apart (Or.inl (by omega))
  · rw [hentry, copy_localData]
    exact (h.binary.store_of_apart (Or.inl (by omega))).store_of_apart (Or.inl (by omega))
  · rw [hentry, fill_txnDataOffset, placed_txnDataOffset]
    exact h.below.trans (Nat.le_add_right _ _)

/-! ### Tallies -/

/-- Total weight, size and number of sigops. -/
abbrev Tally := ℕ × ℕ × ℕ

def TemplateData.tally (t : TemplateData) : Tally :=
  (t.txnTotalWeight, t.txnTotalSize, t.txnTotalSigops)

/-- What a transaction adds. -/
def txnTally (hdr : Header) (tx : JsonT) : Tally :=
  (hdr.convertWeight (integerValue (objectGet tx "weight")),
    ((stringValue (objectGet tx "data")).getD []).length / 2,
    hdr.convertSigops (integerValue (objectGet tx "sigops")))

def u32Tally (x : Tally) : Tally := (u32 x.1, u32 x.2.1, u32 x.2.2)

theorem u32_add (a b c : ℕ) : u32 (u32 (a + b) + c) = u32 (a + (b + c)) := by
  unfold u32
  omega

theorem u32Tally_add (a b c : Tally) : u32Tally (u32Tally (a + b) + c) = u32Tally (a + (b + c)) := by
  obtain ⟨a₁, a₂, a₃⟩ := a
  obtain ⟨b₁, b₂, b₃⟩ := b
  obtain ⟨c₁, c₂, c₃⟩ := c
  simp only [u32Tally, Prod.mk_add_mk, u32_add]

theorem u32Tally_u32Tally (a : Tally) : u32Tally (u32Tally a) = u32Tally a := by
  simp only [u32Tally, u32, Nat.mod_mod]

theorem tally_setTxn (p : Parse) (i : ℕ) (f : TemplateTxn → TemplateTxn) :
    (p.setTxn i f).t.tally = p.t.tally := rfl

theorem tally_openTxn (p : Parse) (i : ℕ) : (p.openTxn hdr i).t.tally = p.t.tally := rfl

theorem tally_place (p : Parse) (i : ℕ) (data : Text) : (p.place i data).t.tally = p.t.tally := rfl

theorem tally_fill (p : Parse) (i : ℕ) (data : Text) : (p.fill hdr i data).t.tally =
    u32Tally (p.t.tally + ((p.t.txns i).weight, (p.t.txns i).size, (p.t.txns i).sigops)) := rfl

theorem tally_copy (hdr : Header) (p : Parse) (i : ℕ) {tx : JsonT} (txid hash : Text) {data : Text}
    (hdata : stringValue (objectGet tx "data") = some data) :
    ((p.placed hdr i tx txid hash data).fill hdr i data).t.tally =
      u32Tally (p.t.tally + txnTally hdr tx) := by
  rw [tally_fill, placed_txns_self, Parse.placed, tally_place, tally_setTxn, tally_setTxn,
    tally_setTxn, tally_openTxn, txnTally, hdata]
  rfl

/-! ### All of it -/

/-- Transactions that were read to the end were all copied, and none of those
that were there before was lost. -/
theorem copied_of_readTxns (hhalves : hdr.Halves) : ∀ {txs : List JsonT} {i : ℕ} {p p' : Parse},
    txs.all (hashesFit hdr) = true → readTxns hdr i txs p = (p', none) →
      SameHead p.t p'.t ∧
        (u32Tally p.t.tally = p.t.tally →
          p'.t.tally = u32Tally (p.t.tally + (txs.map (txnTally hdr)).sum)) ∧
        (∀ j < i, ∀ tx, Copied hdr p.t j tx → Copied hdr p'.t j tx) ∧
        ∀ k (h : k < txs.length), Copied hdr p'.t (i + k) txs[k]
  | [], i, p, p', _, h => by
      obtain ⟨rfl, -⟩ := Prod.mk.inj h
      refine ⟨⟨rfl, rfl, rfl, rfl, rfl, rfl⟩, fun hsmall => ?_, fun _ _ _ hc => hc, by simp⟩
      rw [List.map_nil, List.sum_nil, add_zero, hsmall]
  | tx :: txs, i, p, p', hfit, h => by
      rw [List.all_cons, Bool.and_eq_true] at hfit
      have hcases := readTxn_cases hfit.1 i p
      rw [readTxns] at h
      cases hread : readTxn hdr i tx p with
      | mk p₁ fault =>
          rw [hread] at hcases h
          cases fault with
          | some fault => cases h
          | none =>
              cases hcases with
              | read txid hash data htxid hhash hdata fits =>
                  obtain ⟨hhead, htally, hkept, hcopied⟩ := copied_of_readTxns hhalves hfit.2 h
                  refine ⟨?_, ?_, ?_, ?_⟩
                  · exact ((sameHead_placed p i tx txid hash data).trans
                      (sameHead_fill _ i data)).trans hhead
                  · intro _
                    have hcopy := tally_copy hdr p i txid hash hdata
                    rw [htally (by rw [hcopy, u32Tally_u32Tally]), hcopy, u32Tally_add,
                      List.map_cons, List.sum_cons]
                  · rintro j hj tx' ⟨txid', hash', data', hc⟩
                    exact hkept j (hj.trans (Nat.lt_succ_self i)) tx'
                      ⟨_, _, _, hc.copy hhalves hj.ne tx txid hash data⟩
                  · intro k hk
                    cases k with
                    | zero =>
                        exact hkept i (Nat.lt_succ_self i) tx
                          ⟨_, _, _, copiedAs_copy hhalves p htxid hhash hdata⟩
                    | succ k =>
                        have hk' : k < txs.length := by simpa using hk
                        have hnext := hcopied k hk'
                        rw [Nat.add_right_comm] at hnext
                        exact hnext

/-! ### The fields in front -/

/-- The fields are those of the answer, none of the numbers is zero. -/
structure HeadOf (hdr : Header) (gbt : JsonT) (t : TemplateData) : Prop where
  number : ∀ f, t.number f = hdr.convert f (integerValue (objectGet gbt f.name)) ∧ t.number f ≠ 0
  bits : stringValue (objectGet gbt "bits") = some t.bits ∧ t.bits.length = 8
  previousblockhash : ∃ s, stringValue (objectGet gbt "previousblockhash") = some s ∧
    t.previousblockhash = s.take 71
  target : ∃ s, stringValue (objectGet gbt "target") = some s ∧ t.blockTargetHex = s.take 71
  commitment : ∃ s, stringValue (objectGet gbt "default_witness_commitment") = some s ∧
    t.defaultWitnessCommitment = s.take 95

theorem readNumbers_eq {gbt : JsonT} : ∀ {fs : List NumberField} {t t' : TemplateData},
    readNumbers hdr gbt fs t = (t', none) → t'.tally = t.tally ∧
      (∀ f ∈ fs, t'.number f = hdr.convert f (integerValue (objectGet gbt f.name)) ∧
        t'.number f ≠ 0) ∧
      ∀ f ∉ fs, t'.number f = t.number f
  | [], t, t', h => by
      obtain ⟨rfl, -⟩ := Prod.mk.inj h
      exact ⟨rfl, by simp, fun _ _ => rfl⟩
  | f :: fs, t, t', h => by
      simp only [readNumbers] at h
      split_ifs at h with hzero
      · cases h
      obtain ⟨htally, hread, hother⟩ := readNumbers_eq h
      refine ⟨htally, fun g hg => ?_, fun g hg => ?_⟩
      · by_cases hmem : g ∈ fs
        · exact hread g hmem
        · obtain rfl : g = f := (List.mem_cons.mp hg).resolve_right hmem
          rw [hother g hmem]
          simpa using hzero
      · rw [List.mem_cons, not_or] at hg
        rw [hother g hg.2]
        simp [hg.1]

theorem headOf_readFields {gbt : JsonT} {t t' : TemplateData}
    (h : readFields hdr gbt t = (t', none)) : HeadOf hdr gbt t' ∧ t'.tally = t.tally := by
  rw [readFields] at h
  cases hnumbers : readNumbers hdr gbt numberFields t with
  | mk t₁ fault =>
      rw [hnumbers] at h
      cases fault with
      | some fault => cases h
      | none =>
          obtain ⟨htally, hread, -⟩ := readNumbers_eq hnumbers
          have hall : ∀ f, f ∈ numberFields := fun f => by cases f <;> decide
          simp only at h
          split at h
          · cases h
          rename_i bits hbits
          split_ifs at h with hlen
          · cases h
          split at h
          · cases h
          rename_i prev hprev
          split at h
          · cases h
          rename_i target htarget
          split at h
          · cases h
          rename_i commitment hcommitment
          obtain ⟨rfl, -⟩ := Prod.mk.inj h
          exact ⟨⟨fun f => hread f (hall f), ⟨hbits, not_not.mp hlen⟩, ⟨prev, hprev, rfl⟩,
            ⟨target, htarget, rfl⟩, ⟨commitment, hcommitment, rfl⟩⟩, htally⟩

/-- A slot holds a block template: the fields, at most 16383 transactions, and
their totals. -/
structure Faithful (hdr : Header) (gbt : JsonT) (t : TemplateData) : Prop where
  head : HeadOf hdr gbt t
  txns : ∃ txs, objectGet gbt "transactions" = some (.array txs) ∧
    t.txnCount = min txs.length 16383 ∧
    (∀ i (h : i < txs.length), i < 16383 → Copied hdr t i txs[i]) ∧
    t.tally = u32Tally (((txs.take 16383).map (txnTally hdr)).sum)

/-- **A template is what the node sent.** -/
theorem faithful_of_datumGbtParser (hhalves : hdr.Halves) {gbt : JsonT}
    (hfit : answerFits hdr gbt = true) {t : TemplateData} {p : Parse} (hclear : t.tally = 0)
    (h : datumGbtParser hdr gbt t = (p, none)) : Faithful hdr gbt p.t := by
  obtain ⟨t', fault, hparse⟩ | ⟨t', txs, hfields, htxs, hparse⟩ :=
    datumGbtParser_cases hdr gbt t
  · rw [hparse] at h
    cases h
  · rw [hparse] at h
    obtain ⟨hhead, htally⟩ := headOf_readFields hfields
    obtain ⟨hsame, hsum, -, hcopied⟩ := copied_of_readTxns hhalves (all_hashesFit hfit htxs) h
    have hzero : (withCount hdr t' txs).t.tally = 0 := htally.trans hclear
    rw [hzero, zero_add] at hsum
    refine ⟨⟨?_, ?_, ?_, ?_, ?_⟩, txs, htxs, hsame.txnCount, fun i hi hmax => ?_, hsum rfl⟩
    · rw [hsame.number]
      exact hhead.number
    · rw [hsame.bits]
      exact hhead.bits
    · rw [hsame.previousblockhash]
      exact hhead.previousblockhash
    · rw [hsame.blockTargetHex]
      exact hhead.target
    · rw [hsame.defaultWitnessCommitment]
      exact hhead.commitment
    · have hi' : i < (txs.take 16383).length := by
        rw [List.length_take]
        omega
      have hentry := hcopied i hi'
      rwa [Nat.zero_add, List.getElem_take] at hentry

end BlockTemplates
