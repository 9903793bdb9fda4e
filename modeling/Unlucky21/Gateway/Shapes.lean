import Unlucky21.Gateway.Halves
import Unlucky21.Gateway.Passes

/-!
# What the coinbases of a job read as

Each half the coinbaser writes is hex of one of the byte strings of
`Gateway.Halves`: `typeCoinb1` and `typeCoinb2` say which, for every type, both
extranonce layouts and the empty coinbase. Type 0 without room in the scriptSig
is the odd one: its indices are not moved back before the second writing, so
both halves hold the empty coinbase and the other one behind it.
-/

namespace Gateway

open Wire CText Greedy Half

variable {u : DatumUtils}

/-! ## Runs of outputs -/

theorem Half.Reads.outputs (hu : u.Documented) {h : Half} {bs : Bytes} (hr : h.Reads u bs)
    {outs : List TxOut} (hs : ∀ o ∈ outs, o.script.length < 2 ^ 64) :
    (h.outputs u outs).Reads u (bs ++ serOuts outs) := by
  induction outs generalizing h bs with
  | nil => simpa using hr
  | cons o outs ih =>
      have hone := hr.output hu o.value (hs o List.mem_cons_self)
      have hrest := ih hone fun o' ho' => hs o' (List.mem_cons_of_mem _ ho')
      rwa [List.append_assoc] at hrest

/-- What is left over of `total`, or a dead output. -/
def lastOut (s : StratumJob) (total : ℕ) : TxOut :=
  if total < s.coinbaseValue.toNat then ⟨s.coinbaseValue.toNat - total, s.poolAddrScript⟩
  else deadOut

def Half.payRest (u : DatumUtils) (s : StratumJob) (total : ℕ) (h : Half) : Half :=
  if total < s.coinbaseValue.toNat then
    h.output u (s.coinbaseValue.toNat - total) s.poolAddrScript
  else h.deadOutput

/-- The amount left over is compared and subtracted without wrapping. -/
theorem payRest_toNat (s : StratumJob) (total : UInt64) (h : Half) :
    (if total < s.coinbaseValue then
      h.output u (s.coinbaseValue - total).toNat s.poolAddrScript else h.deadOutput) =
      h.payRest u s total.toNat := by
  unfold Half.payRest
  by_cases hlt : total < s.coinbaseValue
  · have hlt' := UInt64.lt_iff_toNat_lt.mp hlt
    rw [if_pos hlt, if_pos hlt', UInt64.toNat_sub_of_le _ _ (UInt64.le_iff_toNat_le.mpr hlt'.le)]
  · rw [if_neg hlt, if_neg (mt UInt64.lt_iff_toNat_lt.mpr hlt)]

theorem Half.Reads.payRest (hu : u.Documented) {s : StratumJob} (hp : s.poolAddrScript.length ≤ 64)
    {h : Half} {bs : Bytes} (hr : h.Reads u bs) (total : ℕ) :
    (h.payRest u s total).Reads u (bs ++ (lastOut s total).ser) := by
  unfold Half.payRest lastOut
  split
  · exact hr.output hu _ (by omega)
  · exact hr.deadOutput hu

/-! ## One type -/

/-- How many outputs the first pass counts for coinb1. -/
def c1Count (s : StratumJob) (remaining : ℤ) (special : Bool) (idx : ℕ) : ℕ :=
  (countOutputs s.coinbaseValue special s.availableCoinbaseOutputs
    ⟨remaining, if special then max ((300 - idx) / 2) 0 else 0, 0, 0, 0, false⟩).c1cnt

def selection (s : StratumJob) (remaining : ℤ) : List (ℕ × Output) :=
  selectFrom s.coinbaseValue 0 remaining 0 s.availableCoinbaseOutputs

/-- The total the code keeps of a selection. -/
def wrapped (sel : List (ℕ × Output)) : ℕ := taken Output.value sel % 2 ^ 64

theorem c1Count_of_not_special (s : StratumJob) (remaining : ℤ) (idx : ℕ) :
    c1Count s remaining false idx = 0 :=
  c1cnt_countOutputs _ _

theorem firstHalf_of_not_special (n : ℕ) (sel : List (ℕ × Output)) :
    firstHalf n false sel = [] := by
  simp [firstHalf]

/-- **One type, written out**: the counters gone, both passes replaced by the
selection. -/
theorem subtypeBySize_eq (s : StratumJob) (remaining : ℤ) (space special : Bool) (d : Draft) :
    subtypeBySize u s remaining space special d =
      ⟨if space && !special then d.c1
       else ((d.c1.varint u ((selection s remaining).length + 4)).outputs u
         (firstHalf (c1Count s remaining special d.c1.cursor.idx) special
           (selection s remaining))).extranonce s.enPrefix.toNat,
       ((((if space && !special then
            (d.c2.restart u).varint u ((selection s remaining).length + 3)
          else d.c2).outputs u
        (secondHalf (c1Count s remaining special d.c1.cursor.idx) special
          (selection s remaining))).payRest u s (wrapped (selection s remaining))).commitments
            s.blockTemplate.defaultWitnessCommitment)⟩ := by
  set sel := selection s remaining with hsel
  set n := c1Count s remaining special d.c1.cursor.idx with hn
  -- the first pass counts what the selection holds
  have hm : (countOutputs s.coinbaseValue special s.availableCoinbaseOutputs
      ⟨remaining, if special then max ((300 - d.c1.cursor.idx) / 2) 0 else 0, 0, 0, 0, false⟩).m =
      sel.length := by
    rw [m_countOutputs _ _ 0, zero_add]
    rfl
  -- the second pass writes the selection, as long as its own counter does not stop it
  have hfold : ∀ (draft : Draft) (m : ℤ) (enDone : Bool), (sel.length : ℤ) < m →
      writeOutputs u s.enPrefix s.coinbaseValue n special 0 s.availableCoinbaseOutputs
        ⟨draft, remaining, m, 0, enDone⟩ =
      sel.foldl (Writing.write u s.enPrefix n special) ⟨draft, remaining, m, 0, enDone⟩ :=
    fun draft m enDone hlt => writeOutputs_eq_foldl u _ _ _ _ 0 _ hlt
  -- the pool is paid what the wrapped sum leaves
  have hrest : ∀ (w : Writing) (h : Half), w.mval.toNat = wrapped sel →
      (if w.mval < s.coinbaseValue then
        h.output u (s.coinbaseValue - w.mval).toNat s.poolAddrScript else h.deadOutput) =
      h.payRest u s (wrapped sel) := by
    intro w h hw
    rw [payRest_toNat, hw]
  have hmval : ∀ (draft : Draft) (m : ℤ) (enDone : Bool),
      (sel.foldl (Writing.write u s.enPrefix n special)
        ⟨draft, remaining, m, 0, enDone⟩).mval.toNat = wrapped sel := by
    intro draft m enDone
    rw [mval_foldl_write]
    simp [wrapped]
  have hpair : sel.Pairwise fun p q => p.1 < q.1 := pairwise_take _ _ _ _
  have hcount : (countOutputs s.coinbaseValue special s.availableCoinbaseOutputs
      ⟨remaining, if special then max ((300 - d.c1.cursor.idx) / 2) 0 else 0, 0, 0, 0, false⟩).c1cnt =
      n := rfl
  unfold subtypeBySize
  simp only [hm, hcount]
  cases special with
  | true =>
      simp only [Bool.not_true, Bool.and_false, Bool.false_eq_true, if_false, if_true,
        Bool.not_false, Bool.true_and]
      rw [hfold _ _ _ (by omega), hrest _ _ (hmval _ _ _), c2_foldl_write]
      congr 1
      exact closed_foldl_write hpair _ rfl
  | false =>
      cases space with
      | true =>
          simp only [Bool.not_false, Bool.and_self, if_true, Bool.not_true, Bool.false_and,
            Bool.false_eq_true, if_false]
          rw [hfold _ _ _ (by omega), hrest _ _ (hmval _ _ _), c2_foldl_write,
            (c1_foldl_write_of_lt u s.enPrefix _ (by simp)).1]
      | false =>
          simp only [Bool.not_false, Bool.false_and, Bool.false_eq_true, if_false, Bool.true_and]
          rw [hfold _ _ _ (by omega), hrest _ _ (hmval _ _ _), c2_foldl_write,
            (c1_foldl_write_of_lt u s.enPrefix _ (by simp)).1,
            (c1_foldl_write_of_lt u s.enPrefix _ (by simp)).2, firstHalf_of_not_special]
          rfl

/-! ## Budgets -/

theorem fitToTemplate_le (maxSz fixedBytes : ℤ) (t : Template) :
    fitToTemplate maxSz fixedBytes t ≤ max (maxSz - fixedBytes) 0 := by
  unfold fitToTemplate
  simp only
  split_ifs
  · exact le_max_right _ _
  · exact le_max_right _ _
  · exact (min_le_right _ _).trans (le_max_left _ _)

theorem remainingSize_le (s : StratumJob) (input : CoinbaseInput) (space : Bool) (t : Fin 6) :
    remainingSize s input space t ≤ maxSize t := by
  have hmax : 0 ≤ maxSize t := by
    fin_cases t <;> decide
  have hreq : 0 ≤ cbReqSize s.poolAddrScript.length input.size space t := by
    unfold cbReqSize
    split <;> omega
  have hle := fitToTemplate_le (maxSize t) (cbReqSize s.poolAddrScript.length input.size space t)
    s.blockTemplate
  rw [remainingSize]
  omega

theorem length_selection_le (s : StratumJob) (remaining : ℤ) :
    9 * ((selection s remaining).length : ℤ) ≤ max remaining 0 :=
  length_take_mul_le (by norm_num) (fun o _ => cost_nonneg o) _ _ _

theorem script_le_of_mem_selection {s : StratumJob} {remaining : ℤ} {p : ℕ × Output}
    (hp : p ∈ selection s remaining) : (p.2.outputScript.length : ℤ) + 9 ≤ remaining :=
  cost_le_of_mem_take (fun o => (by norm_num : (0 : ℤ) ≤ 9).trans (cost_nonneg o)) hp

/-! ## Heads -/

/-- What is needed to write the coinbases of a job: `script` is the scriptSig
the input stands for, `wit` the witness commitment. -/
structure Writable (u : DatumUtils) (s : StratumJob) (input : CoinbaseInput)
    (script wit : Bytes) : Prop where
  documented : u.Documented
  pool : s.poolAddrScript.length ≤ 64
  commits : Commits u s.blockTemplate.defaultWitnessCommitment wit
  cb : Encodes u.hex2binUchar input.cb script
  size : script.length = input.size
  short : script.length ≤ 200

theorem encodes_cbstartHex (hu : u.Documented) :
    Encodes u.hex2binUchar cbstartHex (leBytes 4 1 ++ compactSize 1 ++ nullPrevout) := by
  have hhex : hexOf (leBytes 4 1 ++ compactSize 1 ++ nullPrevout) = cbstartHex := by decide
  exact hhex ▸ encodes_hexOf hu.hex2binUchar _

theorem encodes_sequenceHex (hu : u.Documented) :
    Encodes u.hex2binUchar (sequenceHex u) finalSequence := by
  have hhex : hexOf finalSequence = "ffffffff".toList := by decide
  rw [sequenceHex, hu.pkU64le, ← hhex]
  exact encodes_hexOf hu.hex2binUchar _

theorem encodes_enPrefixHex (hu : u.Documented) (enPrefix : UInt16) :
    Encodes u.hex2binUchar (printHex 4 enPrefix.toNat) (leBytes 2 enPrefix.toNat).reverse :=
  encodes_printHex hu.hex2binUchar (k := 2) (by norm_num) (by have := enPrefix.toNat_lt; omega)

def headBytes (script : Bytes) (inScript : Bool) (enPrefix : ℕ) : Bytes :=
  if inScript then scriptHead script enPrefix else inputHead script

section

variable {s : StratumJob} {input : CoinbaseInput} {script wit : Bytes}

theorem reads_writeInput (hu : u.Documented) (hcbEnc : Encodes u.hex2binUchar input.cb script)
    (hsize : script.length = input.size) (hshort : script.length ≤ 200) (inScript : Bool)
    (enPrefix : UInt16) (buf : Text) :
    (writeInput u input inScript enPrefix (Half.start buf)).Reads u
      (headBytes script inScript enPrefix.toNat) := by
  have hcb : input.cb.takeD (input.size * 2) NUL = input.cb := by
    have hlen : input.cb.length = input.size * 2 := by
      rw [hcbEnc.length_eq, hsize]
      ring
    rw [List.takeD_eq_take NUL hlen.ge, ← hlen, List.take_length]
  have hstart := (reads_start (u := u) buf).put (encodes_cbstartHex hu)
  unfold writeInput headBytes
  simp only [hcb]
  cases inScript with
  | true =>
      have hn : input.size + 15 < 2 ^ 64 := by rw [← hsize]; omega
      have hall := (((hstart.varint hu hn).put hcbEnc).bytes hu [0x0e]).print
        (encodes_enPrefixHex hu enPrefix)
      simpa [scriptHead, ← hsize] using hall.terminate
  | false =>
      have hn : input.size < 2 ^ 64 := by rw [← hsize]; omega
      have hall := ((hstart.varint hu hn).put hcbEnc).put (encodes_sequenceHex hu)
      simpa [inputHead, coinbaseIn, TxIn.ser, varBytes, ← hsize] using hall.terminate

/-! ## The sequence number in coinb2 -/

theorem reads_restart_start (hu : u.Documented) (buf : Text) :
    ((Half.start buf).restart u).Reads u finalSequence := by
  have h8 : (sequenceHex u).length = 8 := by rw [sequenceHex, hu.pkU64le]; rfl
  have hput := (reads_start (u := u) buf).put (encodes_sequenceHex hu)
  have hcur : ((Half.start buf).restart u).cursor = ((Half.start buf).put (sequenceHex u)).cursor := by
    simp [Half.restart, Half.put, Half.start, Cursor.put, h8]
  rw [List.nil_append] at hput
  rw [Reads, hcur]
  exact hput

/-- Going back to index 8 keeps the sequence number of the first writing. -/
theorem reads_restart_of_reads {h : Half} {bs : Bytes} (hr : h.Reads u (finalSequence ++ bs)) :
    (h.restart u).Reads u finalSequence := by
  have hidx : 8 ≤ h.cursor.idx := by
    rw [hr.idx_eq]
    simp [finalSequence]
    omega
  have hwritten : (h.restart u).cursor.written = h.cursor.written.take (2 * finalSequence.length) := by
    show (poke h.cursor.buf h.cursor.idx (sequenceHex u)).takeD 8 NUL = _
    rw [takeD_poke_of_le _ _ hidx, ← takeD_takeD h.cursor.buf hidx,
      List.takeD_eq_take NUL (by rw [List.takeD_length]; exact hidx)]
    rfl
  rw [Reads, hwritten]
  exact Encodes.take hr

/-! ## The types -/

/-- Witness and signet commitments behind the last paid output. -/
def commitmentOuts (wit : Bytes) : List TxOut := [⟨0, wit⟩, signetOut]

def emptyOuts (s : StratumJob) (wit : Bytes) : List TxOut :=
  ⟨s.coinbaseValue.toNat, s.poolAddrScript⟩ :: commitmentOuts wit

def restOuts (s : StratumJob) (sel : List (ℕ × Output)) (wit : Bytes) : List TxOut :=
  lastOut s (wrapped sel) :: commitmentOuts wit

/-- What type `t` selects. -/
abbrev typeSelection (s : StratumJob) (input : CoinbaseInput) (t : Fin 6) : List (ℕ × Output) :=
  selection s (remainingSize s input input.space t)

def typeCount (s : StratumJob) (input : CoinbaseInput) (script : Bytes) (t : Fin 6) : ℕ :=
  c1Count s (remainingSize s input input.space t) (t = 2) (2 * (inputHead script).length)

def typeFirst (s : StratumJob) (input : CoinbaseInput) (script : Bytes) (t : Fin 6) : List TxOut :=
  firstHalf (typeCount s input script t) (t = 2) (typeSelection s input t)

def typeSecond (s : StratumJob) (input : CoinbaseInput) (script : Bytes) (t : Fin 6) : List TxOut :=
  secondHalf (typeCount s input script t) (t = 2) (typeSelection s input t)

def typeCoinb1 (s : StratumJob) (input : CoinbaseInput) (script : Bytes) (emptyOnly : Bool)
    (t : Fin 6) : Bytes :=
  if input.space ∧ (emptyOnly ∨ t ≠ 2) then scriptHead script s.enPrefix.toNat
  else if emptyOnly then outputHead script 4 [] s.enPrefix.toNat
  else if t = 0 then doubledHead script ((typeSelection s input t).length + 4) s.enPrefix.toNat
  else outputHead script ((typeSelection s input t).length + 4) (typeFirst s input script t)
    s.enPrefix.toNat

def typeCoinb2 (s : StratumJob) (input : CoinbaseInput) (script wit : Bytes) (emptyOnly : Bool)
    (t : Fin 6) : Bytes :=
  let outs := typeSecond s input script t ++ restOuts s (typeSelection s input t) wit
  if emptyOnly then
    if input.space then seqTail 3 (emptyOuts s wit) else outTail (emptyOuts s wit)
  else if input.space ∧ t ≠ 2 then seqTail ((typeSelection s input t).length + 3) outs
  else if t = 0 then outTail (emptyOuts s wit) ++ outTail outs
  else outTail outs

/-- The extranonce in an output, written once. -/
theorem typeCoinb1_output {t : Fin 6} (h : ¬ (input.space ∧ t ≠ 2)) (ht : t ≠ 0) (script : Bytes) :
    typeCoinb1 s input script false t = outputHead script ((typeSelection s input t).length + 4)
      (typeFirst s input script t) s.enPrefix.toNat := by
  simp only [typeCoinb1, Bool.false_eq_true, false_or, if_neg h, if_false, if_neg ht]

theorem typeCoinb2_output {t : Fin 6} (h : ¬ (input.space ∧ t ≠ 2)) (ht : t ≠ 0)
    (script wit : Bytes) :
    typeCoinb2 s input script wit false t =
      outTail (typeSecond s input script t ++ restOuts s (typeSelection s input t) wit) := by
  simp only [typeCoinb2, Bool.false_eq_true, if_neg h, if_false, if_neg ht]

/-- Type 0 written twice. -/
theorem typeCoinb1_doubled (h : input.space = false) (script : Bytes) :
    typeCoinb1 s input script false 0 =
      doubledHead script ((typeSelection s input 0).length + 4) s.enPrefix.toNat := by
  simp [typeCoinb1, h]

theorem typeCoinb2_doubled (h : input.space = false) (script wit : Bytes) :
    typeCoinb2 s input script wit false 0 = outTail (emptyOuts s wit) ++
      outTail (typeSecond s input script 0 ++ restOuts s (typeSelection s input 0) wit) := by
  simp [typeCoinb2, h]

/-- A draft reads as these bytes, each half a C string. -/
structure Draft.ReadsAs (u : DatumUtils) (d : Draft) (first second : Bytes) : Prop where
  c1 : d.c1.Reads u first
  c1Ends : d.c1.cursor.Terminated
  c2 : d.c2.Reads u second
  c2Ends : d.c2.cursor.Terminated

theorem reads_commit (hw : Writable u s input script wit) {h : Half} {bs : Bytes}
    (hr : h.Reads u bs) :
    (h.commitments s.blockTemplate.defaultWitnessCommitment).Reads u
      (bs ++ outTail (commitmentOuts wit)) :=
  hr.commitments hw.documented hw.commits

theorem terminated_writeInput (inScript : Bool) (enPrefix : UInt16) (h : Half) :
    (writeInput u input inScript enPrefix h).cursor.Terminated :=
  Cursor.terminated_print _ []

/-- The empty coinbase, written over a head. -/
theorem readsAs_writeEmpty (hw : Writable u s input script wit) {buf : Text} {h : Half}
    (hh : h.Reads u (headBytes script input.space s.enPrefix.toNat)) (hends : h.cursor.Terminated) :
    (writeEmpty u s input.space ⟨h, Half.start buf⟩).ReadsAs u
      (typeCoinb1 s input script true 0) (typeCoinb2 s input script wit true 0) := by
  have hu := hw.documented
  have hpool : s.poolAddrScript.length < 2 ^ 64 := by have := hw.pool; omega
  unfold writeEmpty typeCoinb1 typeCoinb2
  cases hspace : input.space with
  | true =>
      rw [hspace] at hh
      have hseq := ((reads_start (u := u) buf).put (encodes_sequenceHex hu)).varint hu
        (show 3 < 2 ^ 64 by norm_num)
      have hall := reads_commit hw (hseq.output hu s.coinbaseValue.toNat hpool)
      refine ⟨by simpa [headBytes] using hh, hends, ?_, Cursor.terminated_print _ _⟩
      simpa [seqTail, outTail, emptyOuts] using hall
  | false =>
      rw [hspace] at hh
      have hen : s.enPrefix.toNat < 2 ^ 16 := s.enPrefix.toNat_lt
      have hfirst := (hh.varint hu (show 4 < 2 ^ 64 by norm_num)).extranonce hu hen
      have hall := reads_commit hw ((reads_start (u := u) buf).output hu s.coinbaseValue.toNat hpool)
      refine ⟨?_, Cursor.terminated_print _ _, ?_, Cursor.terminated_print _ _⟩
      · simpa [outputHead, headBytes] using hfirst
      · simpa [outTail, emptyOuts] using hall

theorem readsAs_copy {src dst : Draft} {first second : Bytes} (h : src.ReadsAs u first second) :
    (src.copy dst).ReadsAs u first second := by
  have hcopy : ∀ {a b : Half} {bs : Bytes}, a.Reads u bs → a.cursor.Terminated →
      (a.copy b).Reads u bs := by
    intro a b bs hr hends
    have htext : cstr a.cursor.buf = a.cursor.written :=
      Cursor.cstr_buf hends (Encodes.nul_not_mem hr)
    have henc : Encodes u.hex2binUchar (cstr a.cursor.buf) bs := by
      rw [htext]
      exact hr
    exact (reads_start b.cursor.buf).print henc
  exact ⟨hcopy h.c1 h.c1Ends, Cursor.terminated_print _ _, hcopy h.c2 h.c2Ends,
    Cursor.terminated_print _ _⟩

theorem script_lt_of_mem_selection {remaining : ℤ} (hlt : remaining < 2 ^ 31) {p : ℕ × Output}
    (hp : p ∈ selection s remaining) : p.2.txOut.script.length < 2 ^ 64 := by
  have hlen := script_le_of_mem_selection hp
  show p.2.outputScript.length < 2 ^ 64
  omega

theorem script_lt_firstHalf (s : StratumJob) {remaining : ℤ} (hlt : remaining < 2 ^ 31) (n : ℕ)
    (special : Bool) :
    ∀ o ∈ firstHalf n special (selection s remaining), o.script.length < 2 ^ 64 := by
  intro o ho
  obtain ⟨p, hp, rfl⟩ := List.mem_map.mp ho
  exact script_lt_of_mem_selection hlt (List.mem_of_mem_filter hp)

theorem script_lt_secondHalf (s : StratumJob) {remaining : ℤ} (hlt : remaining < 2 ^ 31) (n : ℕ)
    (special : Bool) :
    ∀ o ∈ secondHalf n special (selection s remaining), o.script.length < 2 ^ 64 := by
  intro o ho
  obtain ⟨p, hp, rfl⟩ := List.mem_map.mp ho
  exact script_lt_of_mem_selection hlt (List.mem_of_mem_filter hp)

theorem maxSize_le (t : Fin 6) : maxSize t ≤ 16000 := by
  fin_cases t <;> decide

theorem remainingSize_lt (s : StratumJob) (input : CoinbaseInput) (space : Bool) (t : Fin 6) :
    remainingSize s input space t < 2 ^ 31 := by
  have hmax := remainingSize_le s input space t
  have h16 := maxSize_le t
  omega

theorem length_typeSelection_le (s : StratumJob) (input : CoinbaseInput) (t : Fin 6) :
    9 * ((typeSelection s input t).length : ℤ) ≤ maxSize t := by
  have hlen := length_selection_le s (remainingSize s input input.space t)
  have hmax := remainingSize_le s input input.space t
  have h0 : 0 ≤ maxSize t := by fin_cases t <;> decide
  unfold typeSelection
  omega

section subtype

variable {d : Draft} {first second : Bytes} {remaining : ℤ}

theorem reads_outs_rest (hu : u.Documented) (hpool : s.poolAddrScript.length ≤ 64)
    (hwit : Commits u s.blockTemplate.defaultWitnessCommitment wit) (hlt : remaining < 2 ^ 31)
    {h : Half} {bs : Bytes} (hr : h.Reads u bs) (n : ℕ) (special : Bool) :
    ((((h.outputs u (secondHalf n special (selection s remaining))).payRest u s
      (wrapped (selection s remaining))).commitments
        s.blockTemplate.defaultWitnessCommitment)).Reads u
      (bs ++ outTail (secondHalf n special (selection s remaining) ++
        restOuts s (selection s remaining) wit)) := by
  have houts := hr.outputs hu (script_lt_secondHalf s hlt n special)
  have hall := (houts.payRest hu hpool (wrapped (selection s remaining))).commitments hu hwit
  simpa [outTail, restOuts, commitmentOuts] using hall

/-- With the extranonce in the scriptSig, coinb1 stays as it is. -/
theorem reads_subtype_script (hu : u.Documented) (hpool : s.poolAddrScript.length ≤ 64)
    (hwit : Commits u s.blockTemplate.defaultWitnessCommitment wit) (hlt : remaining < 2 ^ 31)
    (hc2 : (d.c2.restart u).Reads u finalSequence) :
    (subtypeBySize u s remaining true false d).c2.Reads u
      (seqTail ((selection s remaining).length + 3)
        (secondHalf 0 false (selection s remaining) ++ restOuts s (selection s remaining) wit)) := by
  have hlen := length_selection_le s remaining
  have hseq := hc2.varint hu (show (selection s remaining).length + 3 < 2 ^ 64 by omega)
  have hall := reads_outs_rest hu hpool hwit hlt hseq 0 false
  rw [subtypeBySize_eq, c1Count_of_not_special]
  simpa [seqTail] using hall

/-- With the extranonce in an output. -/
theorem readsAs_subtype_output (hu : u.Documented) (hpool : s.poolAddrScript.length ≤ 64)
    (hwit : Commits u s.blockTemplate.defaultWitnessCommitment wit) (hlt : remaining < 2 ^ 31)
    (space special : Bool) (hlayout : (space && !special) = false) (hc1 : d.c1.Reads u first)
    (hc2 : d.c2.Reads u second) :
    (subtypeBySize u s remaining space special d).ReadsAs u
      (first ++ (compactSize ((selection s remaining).length + 4) ++
        serOuts (firstHalf (c1Count s remaining special d.c1.cursor.idx) special
          (selection s remaining)) ++
        extranonceHead s.enPrefix.toNat))
      (second ++ outTail (secondHalf (c1Count s remaining special d.c1.cursor.idx) special
          (selection s remaining) ++
        restOuts s (selection s remaining) wit)) := by
  have hlen := length_selection_le s remaining
  rw [subtypeBySize_eq, hlayout]
  refine ⟨?_, Cursor.terminated_print _ _, reads_outs_rest hu hpool hwit hlt hc2 _ _,
    Cursor.terminated_print _ _⟩
  have hcount := hc1.varint hu (show (selection s remaining).length + 4 < 2 ^ 64 by omega)
  have hen : s.enPrefix.toNat < 2 ^ 16 := s.enPrefix.toNat_lt
  have houts := hcount.outputs hu (script_lt_firstHalf s hlt (c1Count s remaining special
    d.c1.cursor.idx) special)
  have hall := houts.extranonce hu hen
  simpa using hall

end subtype

section type

variable {t : Fin 6} {d : Draft} {first second : Bytes}

theorem readsAs_type_script (hw : Writable u s input script wit) (hc1 : d.c1.Reads u first)
    (hends : d.c1.cursor.Terminated) (hc2 : (d.c2.restart u).Reads u finalSequence) :
    (subtypeBySize u s (remainingSize s input input.space t) true false d).ReadsAs u first
      (seqTail ((typeSelection s input t).length + 3)
        (secondHalf 0 false (typeSelection s input t) ++
          restOuts s (typeSelection s input t) wit)) := by
  refine ⟨?_, ?_, reads_subtype_script hw.documented hw.pool hw.commits
    (remainingSize_lt s input input.space t) hc2, Cursor.terminated_print _ _⟩
  · rw [subtypeBySize_eq]
    exact hc1
  · rw [subtypeBySize_eq]
    exact hends

theorem readsAs_type_output (hw : Writable u s input script wit) (space special : Bool)
    (hlayout : (space && !special) = false) (hc1 : d.c1.Reads u first)
    (hc2 : d.c2.Reads u second) :
    (subtypeBySize u s (remainingSize s input input.space t) space special d).ReadsAs u
      (first ++ (compactSize ((typeSelection s input t).length + 4) ++
        serOuts (firstHalf (c1Count s (remainingSize s input input.space t) special
          d.c1.cursor.idx) special (typeSelection s input t)) ++
        extranonceHead s.enPrefix.toNat))
      (second ++ outTail (secondHalf (c1Count s (remainingSize s input input.space t) special
          d.c1.cursor.idx) special (typeSelection s input t) ++
        restOuts s (typeSelection s input t) wit)) :=
  readsAs_subtype_output hw.documented hw.pool hw.commits (remainingSize_lt s input input.space t)
    space special hlayout hc1 hc2

end type

theorem readsAs_head (hw : Writable u s input script wit) (t : Fin 6) (inScript : Bool)
    (h : (input.space && decide (t ≠ 2)) = inScript) :
    (headDraft u s input input.space t).c1.Reads u
      (headBytes script inScript s.enPrefix.toNat) := by
  subst h
  exact reads_writeInput hw.documented hw.cb hw.size hw.short _ _ _

/-- The empty coinbase, which the halves of type 0 start from. -/
theorem readsAs_emptyDraft (hw : Writable u s input script wit) :
    (writeEmpty u s input.space (headDraft u s input input.space 0)).ReadsAs u
      (typeCoinb1 s input script true 0) (typeCoinb2 s input script wit true 0) :=
  readsAs_writeEmpty hw (readsAs_head hw 0 input.space (by simp)) (terminated_writeInput _ _ _)

/-- A job for an empty block: the other types are copies of type 0. -/
theorem readsAs_typeDraft_empty (hw : Writable u s input script wit) (t : Fin 6) :
    (typeDraft u s input input.space true t).ReadsAs u (typeCoinb1 s input script true t)
      (typeCoinb2 s input script wit true t) := by
  have h1 : typeCoinb1 s input script true t = typeCoinb1 s input script true 0 := by
    simp [typeCoinb1]
  have h2 : typeCoinb2 s input script wit true t = typeCoinb2 s input script wit true 0 := by
    simp [typeCoinb2]
  unfold typeDraft
  rw [h1, h2]
  simp only [if_true]
  split
  · exact readsAs_emptyDraft hw
  · exact readsAs_copy (readsAs_emptyDraft hw)

/-- Only type 2 puts outputs before the extranonce. -/
theorem typeSecond_of_ne {t : Fin 6} (ht2 : t ≠ 2) :
    typeSecond s input script t = secondHalf 0 false (typeSelection s input t) := by
  simp [typeSecond, typeCount, ht2, c1Count_of_not_special]

theorem typeFirst_of_ne {t : Fin 6} (ht2 : t ≠ 2) : typeFirst s input script t = [] := by
  simp [typeFirst, ht2, firstHalf_of_not_special]

/-- Type 2 keeps the extranonce in an output even with room in the script. -/
theorem readsAs_typeDraft_two (hw : Writable u s input script wit) :
    (typeDraft u s input input.space false 2).ReadsAs u (typeCoinb1 s input script false 2)
      (typeCoinb2 s input script wit false 2) := by
  have hhead := readsAs_head hw 2 false (by simp)
  have hall := readsAs_type_output (t := 2) (d := headDraft u s input input.space 2) hw
    (input.space && decide ((2 : Fin 6) ≠ 2)) true (by simp) hhead (reads_start _)
  rw [hhead.idx_eq] at hall
  simpa [typeDraft, typeCoinb1, typeCoinb2, outputHead, headBytes, typeFirst, typeSecond,
    typeCount] using hall

/-- Type 0 writes its outputs over the end of the empty coinbase. -/
theorem readsAs_typeDraft_zero (hw : Writable u s input script wit) :
    (typeDraft u s input input.space false 0).ReadsAs u (typeCoinb1 s input script false 0)
      (typeCoinb2 s input script wit false 0) := by
  have hempty := readsAs_emptyDraft hw
  have hsecond : typeSecond s input script 0 = secondHalf 0 false (typeSelection s input 0) :=
    typeSecond_of_ne (by decide)
  cases hspace : input.space with
  | true =>
      have hc1 := hempty.c1
      have hc2 := hempty.c2
      simp only [typeCoinb1, typeCoinb2, hspace, if_true] at hc1 hc2
      rw [seqTail, List.append_assoc] at hc2
      have hall := readsAs_type_script (t := 0) hw (by simpa using hc1)
        (by simpa [hspace] using hempty.c1Ends) (reads_restart_of_reads hc2)
      simpa [typeDraft, typeCoinb1, typeCoinb2, hspace, hsecond] using hall
  | false =>
      have hall := readsAs_type_output (t := 0) hw false false rfl hempty.c1 hempty.c2
      rw [c1Count_of_not_special, firstHalf_of_not_special] at hall
      simpa [typeDraft, typeCoinb1, typeCoinb2, hspace, hsecond, doubledHead] using hall

/-- The remaining types start from the input alone. -/
theorem readsAs_typeDraft_other (hw : Writable u s input script wit) {t : Fin 6} (ht0 : t ≠ 0)
    (ht2 : t ≠ 2) :
    (typeDraft u s input input.space false t).ReadsAs u (typeCoinb1 s input script false t)
      (typeCoinb2 s input script wit false t) := by
  have hsecond : typeSecond s input script t = secondHalf 0 false (typeSelection s input t) :=
    typeSecond_of_ne ht2
  have hfirst : typeFirst s input script t = [] := typeFirst_of_ne ht2
  cases hspace : input.space with
  | true =>
      have hhead := readsAs_head hw t true (by simp [hspace, ht2])
      have hall := readsAs_type_script (t := t) hw hhead (terminated_writeInput _ _ _)
        (reads_restart_start hw.documented _)
      simpa [typeDraft, typeCoinb1, typeCoinb2, hspace, ht2, ht0, hsecond, headBytes] using hall
  | false =>
      have hhead := readsAs_head hw t false (by simp [hspace])
      have hall := readsAs_type_output (t := t) hw false false rfl hhead (reads_start _)
      rw [c1Count_of_not_special, firstHalf_of_not_special] at hall
      simpa [typeDraft, typeCoinb1, typeCoinb2, hspace, ht2, ht0, hsecond, hfirst, headBytes,
        outputHead] using hall

/-- **Every type reads as it should.** -/
theorem readsAs_typeDraft (hw : Writable u s input script wit) (emptyOnly : Bool) (t : Fin 6) :
    (typeDraft u s input input.space emptyOnly t).ReadsAs u (typeCoinb1 s input script emptyOnly t)
      (typeCoinb2 s input script wit emptyOnly t) := by
  cases emptyOnly with
  | true => exact readsAs_typeDraft_empty hw t
  | false =>
      by_cases ht2 : t = 2
      · subst ht2
        exact readsAs_typeDraft_two hw
      · by_cases ht0 : t = 0
        · subst ht0
          exact readsAs_typeDraft_zero hw
        · exact readsAs_typeDraft_other hw ht0 ht2

end

end Gateway
