import Unlucky21.Signet.Injection

/-!
# The merkle root in the signed header

The ids the signer collects are hashes of whole serializations, witness data
included, and turned around before they are joined. Turned around once more at
the end, the root is the right one for a coinbase alone that has no witness
data, and for nothing else.
-/

namespace Signet

open Wire CText

/-- The id of a transaction: the hash without marker, flag and witness data, in
internal byte order. -/
def txid (H : Hash) (t : WitnessTx) : Bytes := H.dsha256 t.tx.ser

/-- Bytes 36 to 67 of the header are the merkle root of the transactions. -/
def HasMerkleRoot (H : Hash) (b : Block) : Prop :=
  (b.header.drop 36).take 32 =
    Merkle.root (fun l r => H.dsha256 (l ++ r)) [] (b.txs.map (txid H))

instance (H : Hash) (b : Block) : Decidable (HasMerkleRoot H b) :=
  inferInstanceAs (Decidable (_ = _))

section

variable {header : Bytes} {cb : WitnessTx} {rest : List WitnessTx} {scriptSig : Bytes}

theorem hasMerkleRoot_signedBlock (H : Hash) (hheader : header.length = 80) :
    HasMerkleRoot H (signedBlock H header cb rest scriptSig) ↔
      writtenRoot H (signedTxs cb rest scriptSig) =
        Merkle.root (fun l r => H.dsha256 (l ++ r)) []
          ((signedTxs cb rest scriptSig).map (txid H)) := by
  have htake : (header.take 36).length = 36 := by simp [hheader]
  have hroot : (writtenRoot H (signedTxs cb rest scriptSig)).length = 32 :=
    length_writtenRoot H (by simp [signedTxs])
  have hread : ((signedBlock H header cb rest scriptSig).header.drop 36).take 32 =
      writtenRoot H (signedTxs cb rest scriptSig) := by
    simp only [signedBlock, List.append_assoc]
    rw [List.drop_left' htake, List.take_left' hroot]
  rw [HasMerkleRoot, hread]
  rfl

/-- A transaction alone: the written root is the hash of its serialization. -/
theorem writtenRoot_singleton (H : Hash) (t : WitnessTx) :
    writtenRoot H [t] = H.dsha256 t.ser := by
  have hne : [(H.dsha256 t.ser).reverse] ≠ [] := by simp
  rw [writtenRoot, List.map_singleton, merkleRoot_eq H hne, Merkle.root_singleton,
    List.reverse_reverse]

/-! ## Hash functions that tell -/

/-- One digest, which is not the same backwards. -/
def constantHash : Hash where
  dsha256 _ := 0x01 :: List.replicate 31 0x00
  length_eq _ := rfl

/-- One digest for data of length `n`, and one for all other data. -/
def separatingHash (n : ℕ) : Hash where
  dsha256 data := List.replicate 32 (if data.length = n then 0x01 else 0x00)
  length_eq _ := List.length_replicate

/-- With two transactions the last node is hashed from right to left and back. -/
theorem writtenRoot_constantHash {txs : List WitnessTx} (h : 2 ≤ txs.length) :
    writtenRoot constantHash txs ≠ Merkle.root (fun l r => constantHash.dsha256 (l ++ r)) []
      (txs.map (txid constantHash)) := by
  have hne : txs.map (fun t => (constantHash.dsha256 t.ser).reverse) ≠ [] := by
    rw [ne_eq, List.map_eq_nil_iff]
    rintro rfl
    simp at h
  obtain ⟨l, r, hwritten⟩ := Merkle.exists_root_eq_node
    (fun l r => constantHash.dsha256 (l ++ r)) []
    (show 2 ≤ (txs.map fun t => (constantHash.dsha256 t.ser).reverse).length by simpa using h)
  obtain ⟨l', r', hright⟩ := Merkle.exists_root_eq_node
    (fun l r => constantHash.dsha256 (l ++ r)) []
    (show 2 ≤ (txs.map (txid constantHash)).length by simpa using h)
  have hdigest : (0x01 :: List.replicate 31 (0x00 : UInt8)).reverse ≠
      0x01 :: List.replicate 31 0x00 := by decide
  rw [writtenRoot, merkleRoot_eq constantHash hne, hwritten, hright]
  exact hdigest

/-- Witness data is hashed with the rest. -/
theorem writtenRoot_separatingHash {t : WitnessTx} (h : t.witness ≠ none) :
    writtenRoot (separatingHash t.ser.length) [t] ≠ txid (separatingHash t.ser.length) t := by
  have hmarker : t.marker.length = 2 := by
    rw [WitnessTx.marker, if_pos (Option.isSome_iff_ne_none.mpr h)]
    rfl
  have hlen : t.tx.ser.length ≠ t.ser.length := by
    rw [t.length_ser, hmarker]
    omega
  rw [writtenRoot_singleton, txid]
  simp only [separatingHash, if_true, if_neg hlen]
  decide

/-- **When the root is right**: whatever the hash function, exactly for a coinbase
alone that is serialized without witness data. -/
theorem hasMerkleRoot_iff (hheader : header.length = 80) :
    (∀ H : Hash, HasMerkleRoot H (signedBlock H header cb rest scriptSig)) ↔
      rest = [] ∧ cb.witness = none := by
  constructor
  · intro h
    have hrest : rest = [] := by
      by_contra hne
      have htwo : 2 ≤ (signedTxs cb rest scriptSig).length := by
        have := List.length_pos_iff.mpr hne
        simp only [signedTxs, List.length_cons]
        omega
      exact writtenRoot_constantHash htwo
        ((hasMerkleRoot_signedBlock constantHash hheader).mp (h constantHash))
    subst hrest
    refine ⟨rfl, ?_⟩
    by_contra hw
    exact writtenRoot_separatingHash (t := cb.addOutput (commitmentOut scriptSig)) hw
      ((hasMerkleRoot_signedBlock _ hheader).mp (h _))
  · rintro ⟨rfl, hw⟩ H
    have hnone : (cb.addOutput (commitmentOut scriptSig)).witness = none := hw
    rw [hasMerkleRoot_signedBlock H hheader, signedTxs, writtenRoot_singleton,
      WitnessTx.ser_of_none hnone]
    rfl

end

/-- The signer puts the right merkle root into the header of what it writes. -/
def WritesMerkleRoot (H : Hash) (blockHex scriptSigHex : Text) : Prop :=
  ∃ out b', injectSignetCommitment H blockHex scriptSigHex = some out ∧
    (fromHex out).bind parseBlock = some b' ∧ HasMerkleRoot H b'

/-- **The root is right for a coinbase alone without witness data**, and for no other
block that is accepted. -/
theorem signed_merkle_root_iff {b : Block} (hb : b.Fits) (hne : b.txs ≠ [])
    (hsize : b.ser.length < 2 ^ 63) {scriptSig : Bytes} (hsig : scriptSig.length + 4 < 2 ^ 32)
    {blockHex scriptSigHex : Text} (hblock : fromHex blockHex = some b.ser)
    (hscript : fromHex scriptSigHex = some scriptSig) :
    (∀ H : Hash, WritesMerkleRoot H blockHex scriptSigHex) ↔
      b.txs.length = 1 ∧ ∀ t ∈ b.txs, t.witness = none := by
  obtain ⟨header, txs⟩ := b
  obtain ⟨cb, rest, rfl⟩ := List.exists_cons_of_ne_nil hne
  have hcount := outs_count_lt hsize
  have hwrites : ∀ H : Hash, WritesMerkleRoot H blockHex scriptSigHex ↔
      HasMerkleRoot H (signedBlock H header cb rest scriptSig) := by
    intro H
    have hout := injectSignetCommitment_eq H hb hcount hsig hblock hscript
    have hparse : (fromHex (hexOf (signedBlock H header cb rest scriptSig).ser)).bind parseBlock =
        some (signedBlock H header cb rest scriptSig) := by
      rw [fromHex_hexOf, Option.bind_some, parseBlock_ser (fits_signedBlock H hb hcount hsig)]
    constructor
    · rintro ⟨out, b', hout', hb', hroot⟩
      obtain rfl := Option.some.inj (hout.symm.trans hout')
      obtain rfl := Option.some.inj (hparse.symm.trans hb')
      exact hroot
    · exact fun hroot => ⟨_, _, hout, hparse, hroot⟩
  have hone : (cb :: rest).length = 1 ↔ rest = [] := by simp
  simp only [hwrites, hasMerkleRoot_iff hb.header, hone]
  constructor
  · rintro ⟨rfl, hw⟩
    exact ⟨rfl, by simpa using hw⟩
  · rintro ⟨rfl, hw⟩
    exact ⟨rfl, by simpa using hw⟩

theorem fits_singleton {t : WitnessTx} (ht : t.Fits) : (Block.mk sampleHeader [t]).Fits where
  header := List.length_replicate
  count := show 1 < 2 ^ 64 by norm_num
  txs := fun x hx => List.mem_singleton.mp hx ▸ ht

/-- A transaction alone that has no witness data. -/
theorem signed_merkle_root_iff_sample :
    WritesMerkleRoot lengthHash (hexOf (Block.mk sampleHeader [sampleSpend]).ser)
      (hexOf [1, 2, 3]) :=
  (signed_merkle_root_iff (fits_singleton fits_sampleSpend) (by simp) (by decide +kernel)
    (show [1, 2, 3].length + 4 < 2 ^ 32 by decide) (fromHex_hexOf _) (fromHex_hexOf _)).mpr
      ⟨rfl, by decide⟩ lengthHash

/-- A coinbase with witness data: the root is the hash of all of it. -/
theorem signed_merkle_root_wrong :
    ∃ out b', injectSignetCommitment lengthHash
        (hexOf (Block.mk sampleHeader [sampleCoinbase]).ser) (hexOf [1, 2, 3]) = some out ∧
      (fromHex out).bind parseBlock = some b' ∧ ¬ HasMerkleRoot lengthHash b' := by
  refine ⟨hexOf (signedBlock lengthHash sampleHeader sampleCoinbase [] [1, 2, 3]).ser,
    signedBlock lengthHash sampleHeader sampleCoinbase [] [1, 2, 3], ?_, ?_, ?_⟩
  · decide +kernel
  · decide +kernel
  · decide +kernel

end Signet
