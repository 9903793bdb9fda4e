import Unlucky21.Gateway.HexWriter

/-!
# Halves of a coinbase, as bytes

A coinbase is sent as two halves with the miner's extranonce between them. The
first half breaks off inside the scriptSig (`scriptHead`) or inside the
extranonce output (`outputHead`); the second goes on with the sequence number
and the output count (`seqTail`) or with outputs (`outTail`). Which pairs join to
a transaction does not depend on how the halves were written.
-/

namespace Gateway

open Wire Half

def nullPrevout : Bytes := List.replicate 32 0 ++ List.replicate 4 0xff

def finalSequence : Bytes := List.replicate 4 0xff

def coinbaseIn (script : Bytes) : TxIn := ⟨nullPrevout, script, finalSequence⟩

/-- The scriptSig with the extranonce pushed at its end. -/
def extranonceScript (script : Bytes) (enPrefix : ℕ) (en : Bytes) : Bytes :=
  script ++ [0x0e] ++ (leBytes 2 enPrefix).reverse ++ en

def scriptHead (script : Bytes) (enPrefix : ℕ) : Bytes :=
  leBytes 4 1 ++ compactSize 1 ++ nullPrevout ++ compactSize (script.length + 15) ++ script ++
    [0x0e] ++ (leBytes 2 enPrefix).reverse

def inputHead (script : Bytes) : Bytes := leBytes 4 1 ++ compactSize 1 ++ (coinbaseIn script).ser

def outputHead (script : Bytes) (n : ℕ) (outs : List TxOut) (enPrefix : ℕ) : Bytes :=
  inputHead script ++ compactSize n ++ serOuts outs ++ extranonceHead enPrefix

def outTail (outs : List TxOut) : Bytes := serOuts outs ++ leBytes 4 0

def seqTail (n : ℕ) (outs : List TxOut) : Bytes := finalSequence ++ compactSize n ++ outTail outs

/-! ## Lengths -/

section

variable {script : Bytes}

theorem length_scriptHead (hs : script.length ≤ 200) (enPrefix : ℕ) :
    (scriptHead script enPrefix).length = script.length + 45 := by
  simp only [scriptHead, nullPrevout, List.length_append, leBytes_length, List.length_replicate,
    List.length_reverse, List.length_singleton, compactSize_length_of_lt (show 1 < 0xfd by norm_num),
    compactSize_length_of_lt (show script.length + 15 < 0xfd by omega)]
  omega

theorem length_inputHead (hs : script.length ≤ 200) : (inputHead script).length = script.length + 46 := by
  simp only [inputHead, coinbaseIn, TxIn.ser, varBytes, nullPrevout, finalSequence,
    List.length_append, leBytes_length, List.length_replicate,
    compactSize_length_of_lt (show 1 < 0xfd by norm_num),
    compactSize_length_of_lt (show script.length < 0xfd by omega)]
  omega

theorem length_extranonceHead (enPrefix : ℕ) : (extranonceHead enPrefix).length = 13 := by
  simp [extranonceHead]

theorem length_outputHead (hs : script.length ≤ 200) (n : ℕ) (outs : List TxOut) (enPrefix : ℕ) :
    (outputHead script n outs enPrefix).length =
      script.length + 59 + (compactSize n).length + (serOuts outs).length := by
  simp only [outputHead, List.length_append, length_inputHead hs, length_extranonceHead]
  omega

theorem length_seqTail (n : ℕ) (outs : List TxOut) :
    (seqTail n outs).length = 8 + (compactSize n).length + (serOuts outs).length := by
  simp only [seqTail, outTail, finalSequence, List.length_append, List.length_replicate,
    leBytes_length]
  omega

theorem length_outTail (outs : List TxOut) : (outTail outs).length = (serOuts outs).length + 4 := by
  simp [outTail]

end

/-! ## Joins -/

theorem fits_coinbaseIn {script : Bytes} (h : script.length ≤ 300) : (coinbaseIn script).Fits where
  prevout := rfl
  scriptSig := by show script.length < 2 ^ 64; omega
  sequence := rfl

theorem parseTx_inputHead {script : Bytes} (h : script.length ≤ 300) (rest : Bytes) :
    parseTx (inputHead script ++ rest) =
      (parseBody rest).map fun p => ⟨1, [coinbaseIn script], p.1, p.2⟩ :=
  parseTx_head (by norm_num) (fits_coinbaseIn h) rest

theorem length_extranonceScript {script en : Bytes} {enPrefix : ℕ} (hen : en.length = 12) :
    (extranonceScript script enPrefix en).length = script.length + 15 := by
  simp [extranonceScript, hen]

theorem scriptHead_append {script en : Bytes} {enPrefix : ℕ} (hen : en.length = 12)
    (rest : Bytes) :
    scriptHead script enPrefix ++ en ++ (finalSequence ++ rest) =
      inputHead (extranonceScript script enPrefix en) ++ rest := by
  simp only [inputHead, coinbaseIn, TxIn.ser, varBytes, length_extranonceScript hen]
  simp [scriptHead, extranonceScript, List.append_assoc]

variable {script en : Bytes} {enPrefix n : ℕ} {outs : List TxOut}

/-- The extranonce in the scriptSig: the count in the second half decides. -/
theorem parseTx_script_join (enPrefix : ℕ) (hs : script.length ≤ 200) (hen : en.length = 12) (hn : n < 2 ^ 64)
    (h : ∀ o ∈ outs, o.Fits) :
    parseTx (scriptHead script enPrefix ++ en ++ seqTail n outs) =
      if n = outs.length then
        some ⟨1, [coinbaseIn (extranonceScript script enPrefix en)], outs, 0⟩
      else none := by
  have hlen : (extranonceScript script enPrefix en).length = script.length + 15 :=
    length_extranonceScript hen
  rw [seqTail, List.append_assoc finalSequence, scriptHead_append hen,
    parseTx_inputHead (by omega), outTail, parseBody_ser hn (by norm_num) h]
  split <;> rfl

theorem fits_extranonceOut (hen : en.length = 12) : (extranonceOut enPrefix en).Fits where
  value := by simp [extranonceOut]
  script := by simp [extranonceOut, hen]

/-- The extranonce in an output: the count in the first half decides. -/
theorem parseTx_output_join (enPrefix : ℕ) {first : List TxOut} (hs : script.length ≤ 200)
    (hen : en.length = 12) (hn : n < 2 ^ 64) (hfirst : ∀ o ∈ first, o.Fits) (h : ∀ o ∈ outs, o.Fits) :
    parseTx (outputHead script n first enPrefix ++ en ++ outTail outs) =
      if n = first.length + 1 + outs.length then
        some ⟨1, [coinbaseIn script], first ++ extranonceOut enPrefix en :: outs, 0⟩
      else none := by
  have hall : ∀ o ∈ first ++ extranonceOut enPrefix en :: outs, o.Fits := by
    intro o ho
    rcases List.mem_append.mp ho with hf | ho
    · exact hfirst o hf
    · rcases List.mem_cons.mp ho with rfl | ho
      · exact fits_extranonceOut hen
      · exact h o ho
  have hbytes : outputHead script n first enPrefix ++ en ++ outTail outs =
      inputHead script ++ (compactSize n ++
        (serOuts (first ++ extranonceOut enPrefix en :: outs) ++ leBytes 4 0)) := by
    rw [serOuts_append, serOuts_cons, ← extranonceHead_append hen]
    simp [outputHead, outTail, List.append_assoc]
  have hlen : (first ++ extranonceOut enPrefix en :: outs).length =
      first.length + 1 + outs.length := by
    simp
    omega
  rw [hbytes, parseTx_inputHead (by omega), parseBody_ser hn (by norm_num) hall, hlen]
  split <;> rfl

/-! ## Pairs that do not join -/

/-- A sequence number read as an output is worth more than 2^32 times the count
behind it. -/
theorem leNat_sequence_le {k : ℕ} (hk : k < 0xfd) {o : TxOut} {rest bs : Bytes}
    (h : parseTxOut (finalSequence ++ compactSize k ++ bs) = some (o, rest)) :
    2 ^ 32 - 1 + 2 ^ 32 * k ≤ o.value := by
  simp only [parseTxOut, Option.bind_eq_bind, Option.bind_eq_some_iff] at h
  obtain ⟨⟨v, bs₁⟩, hv, ⟨s, bs₂⟩, -, heq⟩ := h
  simp only [Option.some.injEq, Prod.mk.injEq] at heq
  obtain ⟨rfl, -⟩ := heq
  simp only [parseLe, takeBytes, Option.map_eq_some_iff] at hv
  obtain ⟨p, hp, hpv⟩ := hv
  split at hp
  · obtain rfl := Option.some.inj hp
    simp only [Prod.mk.injEq] at hpv
    obtain ⟨rfl, -⟩ := hpv
    have hcount : (UInt8.ofNat k).toNat = k := by
      simp only [UInt8.toNat_ofNat']
      omega
    have hseq : leNat finalSequence = 2 ^ 32 - 1 := by decide
    have hfive : (finalSequence ++ compactSize k ++ bs).take 8 =
        finalSequence ++ (UInt8.ofNat k :: bs.take 3) := by
      simp [finalSequence, compactSize_of_lt hk, List.replicate]
    rw [hfive, leNat_append, hseq, leNat, hcount]
    simp only [finalSequence, List.length_replicate]
    omega
  · cases hp

/-- A first half that waits for outputs, joined with a second half that starts
with a sequence number: whatever it parses as pays an absurd amount. -/
theorem exists_value_ge_of_mixed_join {first : List TxOut} {k m : ℕ} (hs : script.length ≤ 200)
    (hen : en.length = 12) (hk : k < 0xfd) (hm : first.length + 1 + (m + 1) < 2 ^ 64)
    (hfirst : ∀ o ∈ first, o.Fits) {tx : Tx}
    (h : parseTx (outputHead script (first.length + 1 + (m + 1)) first enPrefix ++ en ++
      seqTail k outs) = some tx) :
    ∃ o ∈ tx.outs, 2 ^ 32 - 1 + 2 ^ 32 * k ≤ o.value := by
  have hlead : ∀ o ∈ first ++ [extranonceOut enPrefix en], o.Fits := by
    intro o ho
    rcases List.mem_append.mp ho with hf | ho
    · exact hfirst o hf
    · obtain rfl := List.mem_singleton.mp ho
      exact fits_extranonceOut hen
  have hbytes : outputHead script (first.length + 1 + (m + 1)) first enPrefix ++ en ++
      seqTail k outs =
      inputHead script ++ (compactSize (first.length + 1 + (m + 1)) ++
        (serOuts (first ++ [extranonceOut enPrefix en]) ++ seqTail k outs)) := by
    rw [serOuts_append, serOuts_cons, serOuts_nil, List.append_nil, ← extranonceHead_append hen]
    simp [outputHead, List.append_assoc]
  have hcount : first.length + 1 = (first ++ [extranonceOut enPrefix en]).length := by simp
  rw [hbytes, parseTx_inputHead (by omega), Option.map_eq_some_iff] at h
  obtain ⟨⟨all, lockTime⟩, hbody, rfl⟩ := h
  rw [parseBody, parseCompactSize_append hm] at hbody
  simp only [Option.bind_eq_bind, Option.bind_some] at hbody
  rw [hcount, parseMany_outs_add hlead, Option.bind_eq_some_iff] at hbody
  obtain ⟨⟨read, bs⟩, hread, hrest⟩ := hbody
  obtain ⟨⟨more, bs'⟩, hmore, heq⟩ := Option.map_eq_some_iff.mp hread
  simp only [Prod.mk.injEq] at heq
  obtain ⟨rfl, rfl⟩ := heq
  -- the first output behind the extranonce starts with the sequence number
  simp only [parseMany, Option.bind_eq_bind, Option.bind_eq_some_iff] at hmore
  obtain ⟨⟨o, bs₁⟩, ho, ⟨os, bs₂⟩, -, heq⟩ := hmore
  simp only [Option.some.injEq, Prod.mk.injEq] at heq
  obtain ⟨rfl, rfl⟩ := heq
  have hvalue := leNat_sequence_le hk ho
  obtain ⟨⟨lock, left⟩, -, hlast⟩ := Option.bind_eq_some_iff.mp hrest
  split at hlast
  · simp only [Option.some.injEq, Prod.mk.injEq] at hlast
    obtain ⟨rfl, -⟩ := hlast
    exact ⟨o, by simp, hvalue⟩
  · cases hlast

/-- Where the first half of an empty coinbase was not taken back before the
second was written: two counts and two extranonce outputs. -/
def doubledHead (script : Bytes) (n enPrefix : ℕ) : Bytes :=
  outputHead script 4 [] enPrefix ++ (compactSize n ++ extranonceHead enPrefix)

/-- The extranonce that makes the length of the second script enormous. -/
def wideExtranonce : Bytes := List.replicate 12 0xff

/-- A length of 2^39 or more reads past any end. -/
theorem parseVarBytes_wide {wide tail : Bytes} (hwide : wide.length = 8)
    (hbig : 2 ^ 39 ≤ leNat wide) (htail : tail.length < 2 ^ 39) :
    parseVarBytes (0xff :: (wide ++ tail)) = none := by
  have hle : 2 ^ 32 ≤ leNat wide := le_trans (by norm_num) hbig
  have hsize : parseCompactSize (0xff :: (wide ++ tail)) = some (leNat wide, tail) := by
    have h255 : (0xff : UInt8).toNat = 255 := rfl
    rw [parseCompactSize, h255, if_neg (by norm_num), if_neg (by norm_num), if_neg (by norm_num),
      parseWide, parseLe_append_bytes hwide]
    simpa using hle
  rw [parseVarBytes, hsize]
  exact takeBytes_eq_none (by omega)

theorem parseTxOut_wide {pp rest : Bytes} (hpp : pp.length = 2) (h3 : 3 ≤ rest.length)
    (hrest : rest.length < 2 ^ 39) : parseTxOut (pp ++ (wideExtranonce ++ rest)) = none := by
  have hvalue : (pp ++ List.replicate 6 0xff).length = 8 := by simp [hpp]
  have hsplit : pp ++ (wideExtranonce ++ rest) =
      (pp ++ List.replicate 6 0xff) ++
        (0xff :: ((List.replicate 5 0xff ++ rest.take 3) ++ rest.drop 3)) := by
    simp [wideExtranonce, List.replicate]
  have hwide : (List.replicate 5 (0xff : UInt8) ++ rest.take 3).length = 8 := by
    simp
    omega
  have hbig : 2 ^ 39 ≤ leNat (List.replicate 5 (0xff : UInt8) ++ rest.take 3) := by
    have hfive : leNat (List.replicate 5 (0xff : UInt8)) = 2 ^ 40 - 1 := by decide
    rw [leNat_append, hfive]
    omega
  have htail : (rest.drop 3).length < 2 ^ 39 := by
    rw [List.length_drop]
    omega
  have hnone := parseVarBytes_wide hwide hbig htail
  rw [hsplit, parseTxOut, parseLe_append_bytes hvalue]
  simp only [Option.bind_eq_bind, Option.bind_some, hnone, Option.bind_none]

/-- Such a coinbase is no transaction under every extranonce. -/
theorem parseTx_doubledHead {rest : Bytes} (hs : script.length ≤ 200) (hn : n < 0xfd)
    (h3 : 3 ≤ rest.length) (hrest : rest.length < 2 ^ 39) :
    parseTx (doubledHead script n enPrefix ++ wideExtranonce ++ rest) = none := by
  -- the first extranonce output swallows the second count and what follows it
  let swallowed : Bytes := compactSize n ++ leBytes 8 0 ++ [0x10, 0x6a, 0x0e]
  have hswallowed : swallowed.length = 12 := by simp [swallowed, compactSize_of_lt hn]
  have hbytes : doubledHead script n enPrefix ++ wideExtranonce ++ rest =
      inputHead script ++ (compactSize 4 ++ (serOuts [extranonceOut enPrefix swallowed] ++
        ((leBytes 2 enPrefix).reverse ++ (wideExtranonce ++ rest)))) := by
    rw [serOuts_cons, serOuts_nil, List.append_nil, ← extranonceHead_append hswallowed]
    simp [doubledHead, outputHead, swallowed, extranonceHead, List.append_assoc]
  have hfits : ∀ o ∈ [extranonceOut enPrefix swallowed], o.Fits := by
    intro o ho
    obtain rfl := List.mem_singleton.mp ho
    exact fits_extranonceOut hswallowed
  have hmany := parseMany_outs_add hfits 3
    ((leBytes 2 enPrefix).reverse ++ (wideExtranonce ++ rest))
  have hnone : parseMany parseTxOut 3
      ((leBytes 2 enPrefix).reverse ++ (wideExtranonce ++ rest)) = none := by
    have hout : parseTxOut ((leBytes 2 enPrefix).reverse ++ (wideExtranonce ++ rest)) = none :=
      parseTxOut_wide (by simp) h3 hrest
    simp only [parseMany, hout, Option.bind_eq_bind, Option.bind_none]
  rw [hnone] at hmany
  rw [hbytes, parseTx_inputHead (by omega), parseBody,
    parseCompactSize_append (show 4 < 2 ^ 64 by norm_num)]
  simp only [Option.bind_eq_bind, Option.bind_some]
  rw [show (4 : ℕ) = [extranonceOut enPrefix swallowed].length + 3 from rfl, hmany]
  rfl

end Gateway
