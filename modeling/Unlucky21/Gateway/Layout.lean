import Unlucky21.Gateway.Personal

/-!
# The layout read off the text

A miner's coinbase gets a sequence number when the shared second half of type 0
starts with the text of one. That text is the sequence number where the
extranonce is in the scriptSig; elsewhere it is the value of an output, and the
low 32 bits of the coinbase value may happen to be all ones.
-/

namespace Gateway

open Wire CText Half

variable {u : DatumUtils} {s : StratumJob} {input : CoinbaseInput} {script wit : Bytes}

/-! ## What stays in front -/

theorem prefix_put (h : Half) (t : Text) : h.cursor.written <+: (h.put t).cursor.written := by
  rw [Half.put, Cursor.written_put]
  exact List.prefix_append _ _

theorem prefix_bytes (h : Half) (bs : Bytes) :
    h.cursor.written <+: (h.bytes u bs).cursor.written := by
  induction bs generalizing h with
  | nil => exact List.prefix_rfl
  | cons b bs ih => exact (prefix_put h _).trans (ih _)

/-- An output starts with the text of its value. -/
theorem prefix_output (h : Half) (value : ℕ) (script : Bytes) :
    h.cursor.written ++ printHex 16 (bswap64 value) <+:
      (h.output u value script).cursor.written := by
  rw [Half.output]
  refine List.IsPrefix.trans ?_ (prefix_bytes _ _)
  rw [written_varint]
  refine List.IsPrefix.trans ?_ (List.prefix_append _ _)
  show _ <+: (h.cursor.print _).written
  rw [Cursor.written_print]

theorem prefix_outputs (h : Half) (outs : List TxOut) :
    h.cursor.written <+: (h.outputs u outs).cursor.written := by
  induction outs generalizing h with
  | nil => exact List.prefix_rfl
  | cons o outs ih =>
      exact ((List.prefix_append _ _).trans (prefix_output h o.value o.script)).trans (ih _)

theorem prefix_payRest (h : Half) (total : ℕ) :
    h.cursor.written <+: (h.payRest u s total).cursor.written := by
  unfold Half.payRest
  split
  · exact (List.prefix_append _ _).trans (prefix_output h _ _)
  · show _ <+: (h.cursor.print _).written
    rw [Cursor.written_print]
    exact List.prefix_append _ _

theorem prefix_commitments (h : Half) (commitment : Text) :
    h.cursor.written <+: (h.commitments commitment).cursor.written := by
  obtain ⟨t, ht⟩ := written_commitments h commitment
  rw [ht]
  exact List.prefix_append _ _

/-! ## The first digits of type 0 -/

/-- What coinb2 of type 0 starts with. -/
def firstDigits (u : DatumUtils) (s : StratumJob) (space : Bool) : Text :=
  if space then sequenceHex u else printHex 16 (bswap64 s.coinbaseValue.toNat)

theorem firstDigits_writeEmpty (space : Bool) (c1 : Half) (buf : Text) :
    firstDigits u s space <+:
      (writeEmpty u s space ⟨c1, Half.start buf⟩).c2.cursor.written := by
  rw [writeEmpty_c2]
  refine List.IsPrefix.trans ?_ (prefix_commitments _ _)
  refine List.IsPrefix.trans ?_ (prefix_output _ _ _)
  have hstart : (Half.start buf).cursor.written = [] := rfl
  unfold firstDigits countHead
  cases space with
  | true =>
      simp only [if_true, written_varint, Half.put, Cursor.written_put, hstart, List.nil_append]
      exact (List.prefix_append _ _).trans (List.prefix_append _ _)
  | false => simp [hstart]

/-- Going back to index 8 keeps eight characters. -/
theorem firstDigits_restart (hu : u.Documented) {h : Half}
    (hfirst : sequenceHex u <+: h.cursor.written) :
    sequenceHex u <+: (h.restart u).cursor.written := by
  have h8 : (sequenceHex u).length = 8 := by rw [sequenceHex, hu.pkU64le]; rfl
  have hidx : 8 ≤ h.cursor.idx := by
    rw [← h8, ← Cursor.length_written]
    exact hfirst.length_le
  have hwritten : (h.restart u).cursor.written = h.cursor.written.take 8 := by
    show (poke h.cursor.buf h.cursor.idx (sequenceHex u)).takeD 8 NUL = _
    rw [takeD_poke_of_le _ _ hidx, ← takeD_takeD h.cursor.buf hidx,
      List.takeD_eq_take NUL (by rw [List.takeD_length]; exact hidx)]
    rfl
  rw [hwritten, ← h8, ← List.prefix_iff_eq_take.mp hfirst]

theorem firstDigits_typeDraft (hu : u.Documented) (emptyOnly : Bool) :
    firstDigits u s input.space <+:
      (typeDraft u s input input.space emptyOnly 0).c2.cursor.written := by
  have hempty : firstDigits u s input.space <+:
      (writeEmpty u s input.space (headDraft u s input input.space 0)).c2.cursor.written :=
    firstDigits_writeEmpty _ _ _
  unfold typeDraft
  cases emptyOnly with
  | true => simpa using hempty
  | false =>
      simp only [Bool.false_eq_true, if_false, if_true]
      rw [subtypeBySize_eq]
      refine List.IsPrefix.trans ?_ (prefix_commitments _ _)
      refine List.IsPrefix.trans ?_ (prefix_payRest _ _)
      refine List.IsPrefix.trans ?_ (prefix_outputs _ _)
      cases hspace : input.space with
      | true =>
          rw [hspace] at hempty
          have hrestart := firstDigits_restart hu (by simpa [firstDigits] using hempty)
          simp only [firstDigits, if_true]
          simpa using hrestart.trans (List.prefix_append _ _)
      | false => simpa [hspace] using hempty

/-! ## The inference -/

theorem prefix_hexOf_iff {as bs : Bytes} : hexOf as <+: hexOf bs ↔ as <+: bs := by
  have hlen : ∀ cs : Bytes, (hexOf cs).length = 2 * cs.length := fun cs =>
    (encodes_hexOf (documented_referenceUtils fun _ => none).hex2binUchar cs).length_eq
  constructor
  · intro h
    have hle : as.length ≤ bs.length := by
      have := h.length_le
      rw [hlen, hlen] at this
      omega
    have hsplit : hexOf (bs.take as.length) <+: hexOf bs := by
      conv_rhs => rw [← List.take_append_drop as.length bs, hexOf_append]
      exact List.prefix_append _ _
    have heq : hexOf as = hexOf (bs.take as.length) := by
      refine (List.prefix_of_prefix_length_le h hsplit ?_).eq_of_length ?_
      · rw [hlen, hlen, List.length_take_of_le hle]
      · rw [hlen, hlen, List.length_take_of_le hle]
    rw [hexOf_injective heq]
    exact List.take_prefix _ _
  · rintro ⟨cs, rfl⟩
    rw [hexOf_append]
    exact List.prefix_append _ _

/-- Four bytes of ones at the front of a value. -/
theorem prefix_leBytes_iff (v : ℕ) : finalSequence <+: leBytes 8 v ↔ v % 2 ^ 32 = 2 ^ 32 - 1 := by
  have htake : (leBytes 8 v).take finalSequence.length = leBytes 4 v := rfl
  have hones : leNat finalSequence = 2 ^ 32 - 1 := by decide
  have hmod : leNat (leBytes 4 v) = v % 2 ^ 32 := leNat_leBytes_mod 4 v
  rw [List.prefix_iff_eq_take, htake]
  constructor
  · intro h
    rw [← hmod, ← h, hones]
  · intro h
    have hseq : leBytes 4 (leNat finalSequence) = finalSequence := leBytes_leNat finalSequence
    have hval : leBytes 4 (leNat (leBytes 4 v)) = leBytes 4 v := by
      have := leBytes_leNat (leBytes 4 v)
      rwa [leBytes_length] at this
    rw [← hseq, ← hval, hones, hmod, h]

/-- **The layout a miner's coinbase assumes.** -/
theorem enInCb_withCoinbases (hw : Writable u s input script wit) (emptyOnly : Bool) :
    (s.withCoinbases u input emptyOnly).enInCb = true ↔
      input.space = true ∨ s.coinbaseValue.toNat % 2 ^ 32 = 2 ^ 32 - 1 := by
  have hu := hw.documented
  have hreads := readsAs_typeDraft hw emptyOnly 0
  set c2 := (typeDraft u s input input.space emptyOnly 0).c2 with hc2
  have hcstr : cstr c2.cursor.buf = c2.cursor.written :=
    Cursor.cstr_buf hreads.c2Ends (Encodes.nul_not_mem hreads.c2)
  have hdigits : firstDigits u s input.space <+: c2.cursor.written := firstDigits_typeDraft hu emptyOnly
  have hvalue : printHex 16 (bswap64 s.coinbaseValue.toNat) =
      hexOf (leBytes 8 s.coinbaseValue.toNat) := printHex_bswap64 _
  have h8 : "ffffffff".toList.length ≤ (firstDigits u s input.space).length := by
    unfold firstDigits
    split
    · rw [sequenceHex, hu.pkU64le]
    · rw [hvalue]
      simp [hexOf]
  have hseq : hexOf finalSequence = "ffffffff".toList := by decide
  have hfirst : "ffffffff".toList <+: c2.cursor.written ↔
      "ffffffff".toList <+: firstDigits u s input.space :=
    ⟨fun h => List.prefix_of_prefix_length_le h hdigits h8, fun h => h.trans hdigits⟩
  show "ffffffff".toList.isPrefixOf (cstr c2.cursor.buf) = true ↔ _
  rw [List.isPrefixOf_iff_prefix, hcstr, hfirst, firstDigits]
  cases input.space with
  | true => simp [sequenceHex, hu.pkU64le]
  | false =>
      simp only [Bool.false_eq_true, if_false, false_or]
      rw [hvalue, ← hseq, prefix_hexOf_iff, prefix_leBytes_iff]

end Gateway
