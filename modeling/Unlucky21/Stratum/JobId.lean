import Unlucky21.Lib.CText

/-!
# Job ids tagged with a session

A job id is a time stamp of eight hex digits with six characters behind. Under
a session the stamp is sent XORed with the session's value, and XORed again
when a share comes back. A share of another session then carries a stamp that
is not the stored one, and is stale; six characters that differ are a job that
is not known.
-/

namespace Stratum

open Wire CText

/-! ## Sending and checking -/

/-- An id the job table holds: a C string of 14 characters, the first eight a
32-bit number in lower-case hex. -/
structure JobId where
  text : Text
  length_eq : text.length = 14
  stamp : (text.take 8).all isLowerHex = true
  nul_not_mem : NUL ∉ text

/-- `(uint32_t)strtoul(ts, NULL, 16)` of the first eight characters. -/
def rawTs (jobId : Text) : UInt32 := UInt32.ofNat (strtoul16 (jobId.take 8))

/-- What `snprintf` is asked to write: `"%8.8x%s"`. -/
def pjidFormat (sidInv : UInt32) (jobId : Text) : Text :=
  printHex 8 (rawTs jobId ^^^ sidInv).toNat ++ cstr (jobId.drop 8)

/-- `_pjid`, a buffer of 15 characters, one of them the NUL. -/
def pjid (sidInv : UInt32) (jobId : Text) : Text := (pjidFormat sidInv jobId).take 14

inductive Verdict where
  | current
  | staleWork
  | unknownWork
deriving DecidableEq, Repr

/-- The check on submit: `jobId` is the table's, `jobIdS` the miner's. -/
def epochCheck (sidInv : UInt32) (jobId jobIdS : Text) : Verdict :=
  let recvRawTs := rawTs jobIdS ^^^ sidInv
  let storedRawTs := rawTs jobId
  if recvRawTs ≠ storedRawTs then .staleWork
  else if (jobId.drop 8).take 6 ≠ (jobIdS.drop 8).take 6 then .unknownWork
  else .current

/-! ## One stamp, two sessions -/

theorem printHex_stamp (n : UInt32) : printHex 8 n.toNat = hexFixed 8 n.toNat :=
  printHex_eq_hexFixed (by norm_num) n.toNat_lt

theorem rawTs_hexFixed (n : UInt32) (t : Text) : rawTs (hexFixed 8 n.toNat ++ t) = n := by
  have htake : (hexFixed 8 n.toNat ++ t).take 8 = hexFixed 8 n.toNat := by
    simp
  have hlt : n.toNat < 16 ^ 8 := n.toNat_lt
  rw [rawTs, htake, strtoul16_of_isLowerHex (isLowerHex_hexFixed 8 _) (by simp),
    strtoulDigits_hexFixed hlt, UInt32.ofNat_toNat]

variable (j : JobId) (sid sid' : UInt32)

theorem JobId.cstr_drop : cstr (j.text.drop 8) = j.text.drop 8 :=
  cstr_eq_self fun h => j.nul_not_mem (List.mem_of_mem_drop h)

theorem JobId.length_drop : (j.text.drop 8).length = 6 := by
  rw [List.length_drop, j.length_eq]

theorem pjidFormat_eq :
    pjidFormat sid j.text = hexFixed 8 (rawTs j.text ^^^ sid).toNat ++ j.text.drop 8 := by
  rw [pjidFormat, printHex_stamp, j.cstr_drop]

/-- The buffer holds all of it. -/
theorem pjid_eq : pjid sid j.text = hexFixed 8 (rawTs j.text ^^^ sid).toNat ++ j.text.drop 8 := by
  rw [pjid, pjidFormat_eq, List.take_of_length_le]
  rw [List.length_append, hexFixed_length, j.length_drop]

theorem pjid_length : (pjid sid j.text).length = 14 := by
  rw [pjid_eq, List.length_append, hexFixed_length, j.length_drop]

theorem nul_not_mem_of_isLowerHex {t : Text} (h : ∀ c ∈ t, isLowerHex c = true) : NUL ∉ t :=
  fun hc => absurd (h _ hc) (by decide)

/-- **An id stays an id** under every session. -/
def JobId.personalize : JobId where
  text := pjid sid j.text
  length_eq := pjid_length j sid
  stamp := by
    have htake : (pjid sid j.text).take 8 = hexFixed 8 (rawTs j.text ^^^ sid).toNat := by
      rw [pjid_eq]
      simp
    rw [htake, List.all_eq_true]
    exact isLowerHex_hexFixed 8 _
  nul_not_mem := by
    rw [pjid_eq, List.mem_append, not_or]
    exact ⟨nul_not_mem_of_isLowerHex (isLowerHex_hexFixed 8 _),
      fun h => j.nul_not_mem (List.mem_of_mem_drop h)⟩

theorem xor_xor_self (a b : UInt32) : a ^^^ b ^^^ b = a := by
  rw [UInt32.xor_assoc, UInt32.xor_self, UInt32.xor_zero]

theorem rawTs_pjid : rawTs (pjid sid j.text) = rawTs j.text ^^^ sid := by
  rw [pjid_eq, rawTs_hexFixed]

theorem xor_left_cancel {a b c : UInt32} (h : a ^^^ b = a ^^^ c) : b = c := by
  have hb : a ^^^ b ^^^ a = b := by rw [UInt32.xor_comm a b, xor_xor_self]
  have hc : a ^^^ c ^^^ a = c := by rw [UInt32.xor_comm a c, xor_xor_self]
  rw [← hb, h, hc]

/-- Taking session `sid'` off a stamp of session `sid` gives the stored one only if
the two are the same. -/
theorem recvRawTs_eq_iff : rawTs (pjid sid j.text) ^^^ sid' = rawTs j.text ↔ sid' = sid := by
  rw [rawTs_pjid]
  constructor
  · intro h
    have hx : rawTs j.text ^^^ sid = rawTs j.text ^^^ sid' :=
      calc rawTs j.text ^^^ sid = rawTs j.text ^^^ sid ^^^ sid' ^^^ sid' := (xor_xor_self _ _).symm
        _ = rawTs j.text ^^^ sid' := by rw [h]
    exact (xor_left_cancel hx).symm
  · rintro rfl
    exact xor_xor_self _ _

theorem epochCheck_pjid :
    epochCheck sid' j.text (pjid sid j.text) = if sid' = sid then .current else .staleWork := by
  have hdrop : (pjid sid j.text).drop 8 = j.text.drop 8 := by
    rw [pjid_eq]
    simp
  unfold epochCheck
  simp only [ne_eq, recvRawTs_eq_iff, hdrop, not_true_eq_false, if_false]
  split_ifs <;> rfl

/-- Only the last six characters are another job's. -/
theorem epochCheck_of_tail_ne {tail : Text} (hlen : tail.length = 6)
    (hne : tail ≠ (pjid sid j.text).drop 8) :
    epochCheck sid j.text ((pjid sid j.text).take 8 ++ tail) = .unknownWork := by
  have htake : (pjid sid j.text).take 8 = hexFixed 8 (rawTs j.text ^^^ sid).toNat := by
    rw [pjid_eq]
    simp
  have hdrop : (pjid sid j.text).drop 8 = j.text.drop 8 := by
    rw [pjid_eq]
    simp
  have hstored : (j.text.drop 8).take 6 = j.text.drop 8 :=
    List.take_of_length_le j.length_drop.le
  have hrecv : ((hexFixed 8 (rawTs j.text ^^^ sid).toNat ++ tail).drop 8).take 6 = tail := by
    simp [hlen]
  rw [hdrop] at hne
  rw [htake, epochCheck]
  simp only [rawTs_hexFixed, xor_xor_self, hstored, hrecv, ne_eq, not_true_eq_false, if_false]
  rw [if_pos fun h => hne h.symm]

/-- **Sessions are told apart.** What is issued under `sid` fits its buffer, and is
current under `sid` and stale under every other value; with another job's last
six characters it is unknown work. -/
theorem session_tag_separates :
    (pjidFormat sid j.text).length = 14 ∧ (pjid sid j.text).length = 14 ∧
      epochCheck sid' j.text (pjid sid j.text) = (if sid' = sid then .current else .staleWork) ∧
      ∀ tail : Text, tail.length = 6 → tail ≠ (pjid sid j.text).drop 8 →
        epochCheck sid j.text ((pjid sid j.text).take 8 ++ tail) = .unknownWork := by
  have hformat : pjidFormat sid j.text = pjid sid j.text := by rw [pjidFormat_eq, pjid_eq]
  exact ⟨hformat ▸ pjid_length j sid, pjid_length j sid, epochCheck_pjid j sid sid',
    fun _ hlen hne => epochCheck_of_tail_ne j sid hlen hne⟩

/-- The id `65a1b2c3000001` under two sessions. -/
def sampleJob : JobId where
  text := "65a1b2c3000001".toList
  length_eq := rfl
  stamp := by decide
  nul_not_mem := by decide

theorem session_tag_separates_sample :
    pjid 0x01020304 sampleJob.text = "64a3b1c7000001".toList ∧
      epochCheck 0x01020305 sampleJob.text (pjid 0x01020304 sampleJob.text) = .staleWork ∧
      epochCheck 0x01020304 sampleJob.text "64a3b1c7000002".toList = .unknownWork := by
  have hissued : pjid 0x01020304 sampleJob.text = "64a3b1c7000001".toList := by decide +kernel
  obtain ⟨-, -, hstale, hunknown⟩ := session_tag_separates sampleJob 0x01020304 0x01020305
  have hother := hunknown "000002".toList (by decide) (by rw [hissued]; decide)
  rw [hissued] at hother
  exact ⟨hissued, by simpa using hstale, hother⟩

end Stratum
