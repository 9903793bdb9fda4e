import Unlucky21.Gateway.Shapes

/-!
# The subsidy-only coinbase

It is pieced together from the buffers of the empty coinbase: the first half is
copied and its output count replaced in place, the pool's script is copied out
of the second half. Its first half is never terminated, so that it is a C string
only in a buffer that held NULs.
-/

namespace Gateway

open Wire CText Half

def Zeroed (buf : Text) : Prop := ∀ c ∈ buf, c = NUL

theorem cstr_poke_zeroed {buf t : Text} (hz : Zeroed buf) (ht : NUL ∉ t) :
    cstr (poke buf 0 t) = t := by
  have htake := takeD_poke buf 0 t
  have hdrop := drop_poke buf 0 t
  simp only [Nat.zero_add, List.takeD_zero, List.nil_append] at htake hdrop
  refine cstr_eq htake ht ?_
  rw [hdrop]
  cases hd : buf.drop t.length with
  | nil => rfl
  | cons c rest =>
      have hmem : c ∈ buf.drop t.length := by simp [hd]
      exact hz c (List.mem_of_mem_drop hmem)

variable {u : DatumUtils} {s : StratumJob} {input : CoinbaseInput} {script wit : Bytes}

@[simp] theorem written_varint (h : Half) (n : ℕ) :
    (h.varint u n).cursor.written = h.cursor.written ++ u.appendBitcoinVarintHex n := by
  unfold Half.varint
  split
  · exact Cursor.written_print _ _
  · exact Cursor.written_put _ _

/-- Replacing the count in a copied first half. -/
theorem subsidyCoinb1_eq (before : Half) {n : ℕ} (enPrefix : ℕ) (buf : Text)
    (h2 : (u.appendBitcoinVarintHex 2).length = (u.appendBitcoinVarintHex n).length) :
    ∃ rest, subsidyCoinb1 u false before ((before.varint u n).extranonce enPrefix) buf =
      poke buf 0 (before.cursor.written ++ (u.appendBitcoinVarintHex 2 ++ rest)) ∧
      ((before.varint u n).extranonce enPrefix).cursor.written =
        before.cursor.written ++ (u.appendBitcoinVarintHex n ++ rest) := by
  set after := (before.varint u n).extranonce enPrefix with hafter
  set a := before.cursor.written with ha
  set v := u.appendBitcoinVarintHex n
  set v2 := u.appendBitcoinVarintHex 2
  obtain ⟨c, x, hx⟩ : ∃ c x, "0000000000000000106a0e".toList ++ printHex 4 enPrefix = c :: x :=
    ⟨_, _, rfl⟩
  have hwritten : after.cursor.written = a ++ (v ++ c :: x) := by
    show (((before.varint u n).print _).log 0).cursor.written = _
    simp only [Half.log, Half.print, Cursor.written_print, written_varint]
    rw [hx, List.append_assoc]
  refine ⟨c :: x, ?_, hwritten⟩
  have hj : before.cursor.idx = a.length := (Cursor.length_written _).symm
  -- the character restored is the one behind the old count
  have hrestored : after.cursor.buf.getD (before.cursor.idx + v2.length) NUL = c := by
    have hidx : a.length + v2.length < after.cursor.idx := by
      rw [← Cursor.length_written, hwritten]
      simp only [List.length_append, List.length_cons]
      omega
    have hslice := after.cursor.slice_buf (i := a.length + v2.length) (n := 1) (by omega)
    rw [hwritten, h2, ← List.append_assoc, ← List.length_append, List.drop_left] at hslice
    rw [hj, h2, ← List.length_append]
    cases hd : after.cursor.buf.drop (a ++ v).length with
    | nil =>
        rw [hd] at hslice
        have hnul : NUL = c := by simpa using hslice
        rw [List.getD_eq_getElem?_getD, List.getElem?_eq_none (List.drop_eq_nil_iff.mp hd)]
        exact hnul
    | cons d r =>
        rw [hd] at hslice
        have hc : d = c := by simpa using hslice
        rw [List.getD_eq_getElem?_getD, ← Nat.add_zero (a ++ v).length, ← List.getElem?_drop, hd]
        simp [hc]
  have hcopied : poke buf 0 after.cursor.written = a ++ (v ++ c :: (x ++ buf.drop
      (a ++ (v ++ c :: x)).length)) := by
    rw [hwritten]
    simp [poke]
  have htarget : poke buf 0 (a ++ (v2 ++ c :: x)) = a ++ (v2 ++ c :: (x ++ buf.drop
      (a ++ (v ++ c :: x)).length)) := by
    simp [poke, h2]
  unfold subsidyCoinb1 Half.varint
  simp only [Bool.false_eq_true, if_false]
  rw [hrestored, hj, htarget, hcopied]
  split
  · exact poke_poke_append h2
  · have hv2 : poke (a ++ (v ++ c :: (x ++ buf.drop (a ++ (v ++ c :: x)).length))) a.length v2 =
        (a ++ v2) ++ c :: (x ++ buf.drop (a ++ (v ++ c :: x)).length) := by
      rw [poke_append, h2, List.drop_left]
    show poke (poke (a ++ (v ++ c :: (x ++ buf.drop (a ++ (v ++ c :: x)).length))) a.length v2)
      (a.length + v2.length) [c] = _
    rw [hv2, ← List.length_append, poke_append]
    simp

theorem written_commitments (h : Half) (commitment : Text) :
    ∃ t, (h.commitments commitment).cursor.written = h.cursor.written ++ t := by
  simp [Half.commitments, Half.witnessCommitment, Half.signetCommitment, Half.lockTime, Half.log,
    Half.print]

/-- The sequence number and a count, if they go in front of the outputs. -/
def countHead (u : DatumUtils) (space : Bool) (n : ℕ) (h : Half) : Half :=
  if space then (h.put (sequenceHex u)).varint u n else h

def countBytes (space : Bool) (n : ℕ) : Bytes :=
  if space then finalSequence ++ compactSize n else []

theorem reads_countHead (hu : u.Documented) (space : Bool) {n : ℕ} (hn : n < 0xfd) (buf : Text) :
    (countHead u space n (Half.start buf)).Reads u (countBytes space n) := by
  unfold countHead countBytes
  cases space with
  | true =>
      have hall := ((reads_start (u := u) buf).put (encodes_sequenceHex hu)).varint hu
        (show n < 2 ^ 64 by omega)
      simpa using hall
  | false => exact reads_start buf

theorem length_countBytes (space : Bool) {m n : ℕ} (hm : m < 0xfd) (hn : n < 0xfd) :
    (countBytes space m).length = (countBytes space n).length := by
  unfold countBytes
  split
  · simp [compactSize_of_lt hm, compactSize_of_lt hn]
  · rfl

/-- The script of the pool is copied whole. -/
theorem encodes_script_copied (hw : Writable u s input script wit) {h : Half} {bs : Bytes}
    (hr : h.Reads u bs) (v : ℕ) (commitment : Text) :
    Encodes u.hex2binUchar
      ((((h.output u v s.poolAddrScript).commitments commitment).cursor.buf.drop
        (h.cursor.idx + 16)).takeD ((h.output u v s.poolAddrScript).cursor.idx -
          h.cursor.idx - 16) NUL) (varBytes s.poolAddrScript) := by
  have hpool : s.poolAddrScript.length < 2 ^ 64 := by have := hw.pool; omega
  have hpaid := hr.output hw.documented v hpool
  have hidx := hpaid.idx_eq
  obtain ⟨t, ht⟩ := written_commitments (h.output u v s.poolAddrScript) commitment
  have hstart : h.cursor.idx + 16 = 2 * (bs ++ leBytes 8 v).length := by
    rw [hr.idx_eq]
    simp
    omega
  have hle : h.cursor.idx + 16 ≤ (h.output u v s.poolAddrScript).cursor.idx := by
    rw [hidx, hr.idx_eq]
    simp [TxOut.ser]
    omega
  have hend : (h.output u v s.poolAddrScript).cursor.idx ≤
      ((h.output u v s.poolAddrScript).commitments commitment).cursor.idx := by
    rw [← Cursor.length_written, ← Cursor.length_written, ht]
    simp
  have hall : Encodes u.hex2binUchar (h.output u v s.poolAddrScript).cursor.written
      ((bs ++ leBytes 8 v) ++ varBytes s.poolAddrScript) := by
    have := hpaid
    rw [TxOut.ser, ← List.append_assoc] at this
    exact this
  rw [Cursor.slice_buf _ (by omega), ht, List.drop_append_of_le_length
    (by rw [Cursor.length_written]; exact hle), List.take_append_of_le_length
    (by rw [List.length_drop, Cursor.length_written]; omega), List.take_of_length_le
    (by rw [List.length_drop, Cursor.length_written]; omega), hstart]
  exact hall.drop

/-- The second half of the subsidy-only coinbase. -/
theorem cstr_subsidyCoinb2 (hw : Writable u s input script wit) (space : Bool)
    (emptyBuf buf commitment : Text) :
    ∃ h : Half, subsidyCoinb2 u s space (countHead u space 3 (Half.start emptyBuf)).cursor.idx
        ((countHead u space 3 (Half.start emptyBuf)).output u s.coinbaseValue.toNat
          s.poolAddrScript).cursor.idx
        (((countHead u space 3 (Half.start emptyBuf)).output u s.coinbaseValue.toNat
          s.poolAddrScript).commitments commitment).cursor.buf buf = h.cursor.buf ∧
      h.cursor.Terminated ∧
      h.Reads u (countBytes space 1 ++
        outTail [⟨u.blockReward s.height, s.poolAddrScript⟩]) := by
  have hu := hw.documented
  set c2 := countHead u space 3 (Half.start emptyBuf) with hc2
  have hr2 : c2.Reads u (countBytes space 3) := reads_countHead hu space (by norm_num) emptyBuf
  have hcopied := encodes_script_copied hw hr2 s.coinbaseValue.toNat commitment
  set paid := c2.output u s.coinbaseValue.toNat s.poolAddrScript with hpaid
  set slice := (((paid.commitments commitment).cursor.buf.drop (c2.cursor.idx + 16)).takeD
    (paid.cursor.idx - c2.cursor.idx - 16) NUL) with hslice
  set head := countHead u space 1 (Half.start buf) with hhead
  have hr1 : head.Reads u (countBytes space 1) := reads_countHead hu space (by norm_num) buf
  set reward := printHex 16 (bswap64 (u.blockReward s.height)) with hreward
  have hencreward : Encodes u.hex2binUchar reward (leBytes 8 (u.blockReward s.height)) :=
    encodes_bswap64 hu.hex2binUchar _
  have hlock : Encodes u.hex2binUchar "00000000".toList (leBytes 4 0) := by
    have hhex : hexOf (leBytes 4 0) = "00000000".toList := by decide
    exact hhex ▸ encodes_hexOf hu.hex2binUchar _
  -- the new amount, the script copied from the empty coinbase, the lock time
  have hall := ((hr1.print hencreward).put hcopied).print hlock
  refine ⟨((head.print reward).put slice).print "00000000".toList, ?_,
    Cursor.terminated_print _ _, ?_⟩
  · -- the indices the code takes from the empty coinbase are the cursor's own
    have hj : c2.cursor.idx = head.cursor.idx := by
      have hlen : (countBytes space 3).length = (countBytes space 1).length :=
        length_countBytes space (by norm_num) (by norm_num)
      rw [hr2.idx_eq, hr1.idx_eq, hlen]
    have h16 : reward.length = 16 := by rw [hencreward.length_eq]; simp
    have hk : paid.cursor.idx = head.cursor.idx + 16 + slice.length := by
      rw [hslice, List.takeD_length, ← hj]
      have hle : c2.cursor.idx + 16 ≤ paid.cursor.idx := by
        have hpool : s.poolAddrScript.length < 2 ^ 64 := by have := hw.pool; omega
        rw [(hr2.output hu s.coinbaseValue.toNat hpool).idx_eq, hr2.idx_eq]
        simp [TxOut.ser]
        omega
      omega
    have hbuf : (if space then (((Half.start buf).put (sequenceHex u)).varint u 1).cursor.buf
        else buf) = head.cursor.buf := by
      rw [hhead, countHead]
      split <;> rfl
    unfold subsidyCoinb2
    simp only [hbuf, ← hreward, ← hslice]
    rw [hk, hj]
    simp only [Half.print, Half.put, Cursor.print, Cursor.put, h16]
  · simpa [outTail, TxOut.ser] using hall

/-! ## The whole -/

/-- A transaction with one input that pays `value` to `script` and nothing else. -/
def PaysOnly (bs : Bytes) (value : ℕ) (script : Bytes) : Prop :=
  ∃ (tx : Tx) (unpaid : List TxOut), parseTx bs = some tx ∧ tx.ins.length = 1 ∧ tx.lockTime = 0 ∧
    tx.outs = unpaid ++ [⟨value, script⟩] ∧ ∀ o ∈ unpaid, o.value = 0

/-- The halves of an empty coinbase share their end. -/
theorem writeEmpty_c2 (space : Bool) (c1 : Half) (buf : Text) :
    (writeEmpty u s space ⟨c1, Half.start buf⟩).c2 =
      ((countHead u space 3 (Half.start buf)).output u s.coinbaseValue.toNat
        s.poolAddrScript).commitments s.blockTemplate.defaultWitnessCommitment := by
  unfold writeEmpty countHead
  cases space <;> rfl

/-- What the second half of a subsidy-only coinbase unhexes to: the count of one output, or of two
when the extranonce has an output of its own, and the paying output. -/
theorem coinb2Bin_subsidyOnly (hw : Writable u s input script wit) :
    (subsidyOnly u s input.space (headDraft u s input input.space 0)).coinb2Bin =
      countBytes input.space 1 ++ outTail [⟨u.blockReward s.height, s.poolAddrScript⟩] := by
  set buf2 := (s.coinbase 0).coinb2 with hbuf2
  set c1 := (headDraft u s input input.space 0).c1 with hc1
  obtain ⟨h2, hbuf, hends, hreads⟩ := cstr_subsidyCoinb2 hw input.space buf2
    s.subsidyOnlyCoinbase.coinb2 s.blockTemplate.defaultWitnessCommitment
  have hcstr : cstr h2.cursor.buf = h2.cursor.written :=
    Cursor.cstr_buf hends (Encodes.nul_not_mem hreads)
  have hempty := writeEmpty_c2 (u := u) (s := s) input.space c1 buf2
  show unhex u.hex2binUchar (cstr (subsidyCoinb2 u s input.space
    (countHead u input.space 3 (Half.start buf2)).cursor.idx
    ((countHead u input.space 3 (Half.start buf2)).output u s.coinbaseValue.toNat
      s.poolAddrScript).cursor.idx
    (writeEmpty u s input.space ⟨c1, Half.start buf2⟩).c2.cursor.buf
    s.subsidyOnlyCoinbase.coinb2)) = _
  rw [hempty, hbuf, hcstr]
  exact Encodes.unhex_eq hreads

/-- With room in the script the first half is copied whole. -/
theorem coinb1Bin_subsidyOnly_script (hw : Writable u s input script wit)
    (hz : Zeroed s.subsidyOnlyCoinbase.coinb1) (hspace : input.space = true) :
    (subsidyOnly u s true (headDraft u s input true 0)).coinb1Bin =
      scriptHead script s.enPrefix.toNat := by
  have hhead : (headDraft u s input true 0).c1.Reads u
      (headBytes script true s.enPrefix.toNat) := by
    have hread := readsAs_head hw 0 input.space (by simp)
    rwa [hspace] at hread
  show unhex u.hex2binUchar (cstr (poke s.subsidyOnlyCoinbase.coinb1 0 _)) = _
  rw [cstr_poke_zeroed hz (Encodes.nul_not_mem hhead)]
  exact Encodes.unhex_eq hhead

/-- With no room in the script the count of four outputs is rewritten to two, and what was written
after it is copied behind. -/
theorem coinb1Bin_subsidyOnly_output (hw : Writable u s input script wit)
    (hz : Zeroed s.subsidyOnlyCoinbase.coinb1) (hspace : input.space = false) :
    (subsidyOnly u s false (headDraft u s input false 0)).coinb1Bin =
      outputHead script 2 [] s.enPrefix.toNat := by
  have hu := hw.documented
  set c1 := (headDraft u s input false 0).c1 with hc1
  have hhead : c1.Reads u (headBytes script false s.enPrefix.toNat) := by
    have hread := readsAs_head hw 0 input.space (by simp)
    rwa [hspace] at hread
  have henc2 := hu.appendBitcoinVarintHex 2 (by norm_num)
  have henc4 := hu.appendBitcoinVarintHex 4 (by norm_num)
  obtain ⟨rest, hbuf1, hwritten⟩ := subsidyCoinb1_eq (n := 4) c1 s.enPrefix.toNat
    s.subsidyOnlyCoinbase.coinb1 (by rw [henc2.length_eq, henc4.length_eq]; rfl)
  have hafter := (hhead.varint hu (show 4 < 2 ^ 64 by norm_num)).extranonce hu
    s.enPrefix.toNat_lt
  have hrest : Encodes u.hex2binUchar rest (extranonceHead s.enPrefix.toNat) := by
    have hall := Encodes.drop hafter
    have hlen : 2 * (headBytes script false s.enPrefix.toNat ++ compactSize 4).length =
        (c1.cursor.written ++ u.appendBitcoinVarintHex 4).length := by
      rw [(Encodes.append hhead henc4).length_eq]
    rwa [hwritten, ← List.append_assoc, hlen, List.drop_left] at hall
  have hnew := Encodes.append hhead (henc2.append hrest)
  show unhex u.hex2binUchar (cstr (subsidyCoinb1 u false c1
    ((c1.varint u 4).extranonce s.enPrefix.toNat) s.subsidyOnlyCoinbase.coinb1)) = _
  rw [hbuf1, cstr_poke_zeroed hz hnew.nul_not_mem, hnew.unhex_eq]
  simp [outputHead, headBytes]

theorem subsidyOnly_paysOnly (hw : Writable u s input script wit)
    (hz : Zeroed s.subsidyOnlyCoinbase.coinb1) {en : Bytes} (hen : en.length = 12) :
    PaysOnly ((subsidyOnly u s input.space (headDraft u s input input.space 0)).coinb1Bin ++ en ++
      (subsidyOnly u s input.space (headDraft u s input input.space 0)).coinb2Bin)
      (u.blockReward s.height) s.poolAddrScript := by
  have hpays : ∀ o ∈ [(⟨u.blockReward s.height, s.poolAddrScript⟩ : TxOut)], o.Fits := by
    intro o ho
    obtain rfl := List.mem_singleton.mp ho
    refine ⟨hw.documented.blockReward _, ?_⟩
    have := hw.pool
    show s.poolAddrScript.length < 2 ^ 64
    omega
  rw [coinb2Bin_subsidyOnly hw]
  cases hspace : input.space with
  | true =>
      have hjoin := parseTx_script_join s.enPrefix.toNat hw.short hen
        (show 1 < 2 ^ 64 by norm_num) hpays
      refine ⟨⟨1, [coinbaseIn (extranonceScript script s.enPrefix.toNat en)],
        [⟨u.blockReward s.height, s.poolAddrScript⟩], 0⟩, [], ?_, rfl, rfl, rfl, by simp⟩
      rw [coinb1Bin_subsidyOnly_script hw hz hspace]
      simpa [seqTail, countBytes] using hjoin
  | false =>
      have hnone : ∀ o ∈ ([] : List TxOut), o.Fits := by simp
      have hjoin := parseTx_output_join s.enPrefix.toNat hw.short hen
        (show 2 < 2 ^ 64 by norm_num) hnone hpays
      refine ⟨⟨1, [coinbaseIn script], [extranonceOut s.enPrefix.toNat en,
        ⟨u.blockReward s.height, s.poolAddrScript⟩], 0⟩, [extranonceOut s.enPrefix.toNat en], ?_,
        rfl, rfl, rfl, by simp [extranonceOut]⟩
      rw [coinb1Bin_subsidyOnly_output hw hz hspace]
      simpa [countBytes] using hjoin

end Gateway
