import Unlucky21.Lib.Script
import Unlucky21.Gateway.WellFormed

/-!
# The script of a coinbase input

`generate_coinbase_input` adds up lengths next to the code that writes the
bytes. What it writes are three script elements (the height, the tags, the
unique id), as many bytes as it returns; and the scriptSig that ends up in the
transaction, with or without the extranonce, keeps to the limit of 100 bytes.
-/

namespace Gateway

open Wire CText Script Half

/-- Heights from 17 on are written as a push of the shortest script number. -/
def PushesHeights (u : DatumUtils) : Prop :=
  ∀ n, 17 ≤ n → n < 2 ^ 31 → ∃ bs : Bytes, IsScriptNum bs n ∧
    Encodes u.hex2binUchar (u.appendUNumHex n) (UInt8.ofNat bs.length :: bs)

/-- `OP_1` to `OP_16`, or a push of the number. -/
def IsHeight (e : Element) (height : ℕ) : Prop :=
  if height ≤ 16 then e = .op (UInt8.ofNat (0x50 + height))
  else ∃ bs, e = .push bs ∧ IsScriptNum bs height

/-- The tags with what separates and ends them. -/
def tagContent (tag0 tag1 : Bytes) : Bytes :=
  tag0 ++ (if tag1 = [] then [0x00] else 0x0f :: tag1 ++ [0x00])

variable {u : DatumUtils} {cfg : Config}

/-- The secondary tag, cut to what the primary one leaves. -/
def Config.secondaryTag (cfg : Config) : Bytes :=
  cfg.miningCoinbaseTagSecondary.take (84 - cfg.primaryTag.length)

def uniqueId (cfg : Config) : Bytes :=
  if cfg.primeId = 0 ∧ !cfg.protocolActive then
    [0xff, byteAt cfg.coinbaseUniqueId 0, byteAt cfg.coinbaseUniqueId 1]
  else
    [0xff, byteAt cfg.coinbaseUniqueId 0, byteAt cfg.coinbaseUniqueId 1,
      byteAt cfg.primeId 0, byteAt cfg.primeId 1, byteAt cfg.primeId 2, byteAt cfg.primeId 3]

/-! ## The height -/

theorem heightElement_spec (hu : u.Documented) (hh : PushesHeights u) {height : ℕ}
    (h1 : 1 ≤ height) (h2 : height < 2 ^ 23) :
    ∃ e : Element, IsHeight e height ∧ e.Fits ∧
      Encodes u.hex2binUchar (heightPush u height) e.ser ∧ e.ser.length = heightSize u height ∧
      e.ser.length ≤ 4 := by
  by_cases h16 : height ≤ 16
  · refine ⟨.op (UInt8.ofNat (0x50 + height)), by simp [IsHeight, h16], ?_, ?_, ?_, ?_⟩
    · simp only [Element.Fits, UInt8.toNat_ofNat']
      omega
    · simpa [heightPush, h1, h16, Element.ser] using hu.ucharToHex (UInt8.ofNat (0x50 + height))
    · simp [heightSize, h1, h16, Element.ser]
    · simp [Element.ser]
  · obtain ⟨bs, hnum, henc⟩ := hh height (by omega) (by omega)
    have hlen : bs.length ≤ 3 := hnum.length_le (by simpa using h2)
    have hser : (Element.push bs).ser = UInt8.ofNat bs.length :: bs := by
      simp only [Element.ser, pushData]
      rw [if_pos (by omega)]
    refine ⟨.push bs, ?_, ?_, ?_, ?_, ?_⟩
    · simp only [IsHeight, h16, if_false]
      exact ⟨bs, rfl, hnum⟩
    · show bs.length < 2 ^ 32
      omega
    · simpa [heightPush, h16, hser] using henc
    · rw [heightSize, if_neg (by omega), henc.length_eq, hser]
      omega
    · rw [hser, List.length_cons]
      omega

/-! ## The tags -/

theorem truncateTags_eq {len0 : ℕ} (h0 : len0 ≤ 64) (len1 : ℕ) :
    truncateTags len0 len1 = (tagSpace len0 (min len1 (84 - len0)), min len1 (84 - len0)) := by
  rcases Nat.eq_zero_or_pos len1 with rfl | h1
  · have hk : ¬ MAX_COINBASE_TAG_SPACE < tagSpace len0 0 := by
      unfold MAX_COINBASE_TAG_SPACE tagSpace
      split_ifs <;> omega
    rw [truncateTags, if_neg hk, Nat.zero_min]
  · have hspace : ∀ n, 0 < n → tagSpace len0 n = len0 + n + 2 := by
      intro n hn
      rw [tagSpace, if_neg hn.ne']
    by_cases hlong : 86 < len0 + len1 + 2
    · have hcut : len0 + len1 + 2 - 86 < len1 := by omega
      have hleft : len1 - (len0 + len1 + 2 - 86) = 84 - len0 := by omega
      have hk : len0 + (84 - len0) + 2 = 86 := by omega
      rw [min_eq_right (by omega), hspace _ (by omega), hk]
      simp only [truncateTags, MAX_COINBASE_TAG_SPACE, hspace len1 h1, hlong, hcut, hleft, if_true]
    · rw [min_eq_left (by omega)]
      simp only [truncateTags, MAX_COINBASE_TAG_SPACE, hspace len1 h1, hlong, if_false]

theorem length_tagContent (tag0 tag1 : Bytes) :
    (tagContent tag0 tag1).length =
      if tag1 = [] then tag0.length + 1 else tag0.length + tag1.length + 2 := by
  unfold tagContent
  split_ifs <;> simp
  omega

/-- The length added up beforehand is the length of what is pushed; with no tag at
all a NUL is. -/
theorem tagSpace_eq {tag0 tag1 : Bytes} (h : ¬ (tag0 = [] ∧ tag1 = [])) :
    tagSpace tag0.length tag1.length = (tagContent tag0 tag1).length := by
  rw [length_tagContent, tagSpace]
  simp only [List.length_eq_zero_iff]
  split_ifs with h1 h0
  · exact absurd ⟨h0, h1⟩ h
  · rfl
  · rfl

theorem tagPush_eq {tag0 tag1 : Bytes} (hlen : (tagContent tag0 tag1).length ≤ 0xff) :
    tagPush (tagSpace tag0.length tag1.length) tag0 tag1 = pushData (tagContent tag0 tag1) := by
  by_cases hnil : tag0 = [] ∧ tag1 = []
  · obtain ⟨rfl, rfl⟩ := hnil
    rfl
  · have hpos : 0 < (tagContent tag0 tag1).length := by
      rw [length_tagContent]
      split_ifs <;> omega
    have hbody : (if tag0 ≠ [] then tag0 ++ [if tag1 = [] then 0x00 else 0x0f]
        else if tag1 ≠ [] then [0x0f] else []) ++ (if tag1 ≠ [] then tag1 ++ [0x00] else []) =
          tagContent tag0 tag1 := by
      unfold tagContent
      by_cases h0 : tag0 = [] <;> by_cases h1 : tag1 = [] <;> simp_all
    rw [tagPush, if_pos (by rwa [tagSpace_eq hnil]), tagSpace_eq hnil, List.append_assoc, hbody,
      pushData]
    split_ifs
    · rfl
    · rfl

theorem uniqueIdPush_eq : uniqueIdPush cfg = pushData (uniqueId cfg) := by
  unfold uniqueIdPush uniqueId
  split_ifs <;> rfl

theorem length_uniqueId (cfg : Config) : (uniqueId cfg).length = 3 ∨ (uniqueId cfg).length = 7 := by
  unfold uniqueId
  split_ifs
  · exact Or.inl rfl
  · exact Or.inr rfl

theorem length_tagContent_le {tag0 tag1 : Bytes} (h0 : tag0.length ≤ 64)
    (h1 : tag1.length ≤ 84 - tag0.length) : (tagContent tag0 tag1).length ≤ 86 := by
  rw [length_tagContent]
  split_ifs <;> omega

/-! ## The whole input -/

theorem length_secondaryTag_le : cfg.secondaryTag.length ≤ 84 - cfg.primaryTag.length :=
  List.length_take_le _ _

/-- What is written, part by part. -/
theorem generateCoinbaseInput_eq (h0 : cfg.primaryTag.length ≤ 64) (height : ℕ) :
    generateCoinbaseInput u cfg height = some {
      cb := heightPush u height ++
        (pushData (tagContent cfg.primaryTag cfg.secondaryTag) ++
          pushData (uniqueId cfg)).flatMap u.ucharToHex
      size := heightSize u height +
        (pushData (tagContent cfg.primaryTag cfg.secondaryTag) ++ pushData (uniqueId cfg)).length
      targetPotIndex := heightSize u height +
        (pushData (tagContent cfg.primaryTag cfg.secondaryTag)).length + 1 } := by
  have hspace := truncateTags_le h0 cfg.miningCoinbaseTagSecondary.length
  have htags := truncateTags_eq h0 cfg.miningCoinbaseTagSecondary.length
  have hlen : min cfg.miningCoinbaseTagSecondary.length (84 - cfg.primaryTag.length) =
      cfg.secondaryTag.length := by
    rw [Config.secondaryTag, List.length_take, min_comm]
  have htake : cfg.miningCoinbaseTagSecondary.take cfg.secondaryTag.length = cfg.secondaryTag := by
    rw [← hlen, min_comm, ← List.take_eq_take_min, Config.secondaryTag]
  have hpush : tagPush (tagSpace cfg.primaryTag.length cfg.secondaryTag.length) cfg.primaryTag
      cfg.secondaryTag = pushData (tagContent cfg.primaryTag cfg.secondaryTag) :=
    tagPush_eq ((length_tagContent_le h0 length_secondaryTag_le).trans (by norm_num))
  rw [generateCoinbaseInput, if_neg (not_lt.mpr hspace)]
  simp only [htags, hlen, htake, hpush, uniqueIdPush_eq]

/-- The scriptSig of a transaction of type `t` under extranonce `en`. -/
def callerScriptSig (input : CoinbaseInput) (script : Bytes) (enPrefix : UInt16) (t : Fin 6)
    (en : Bytes) : Bytes :=
  if input.space ∧ t ≠ 2 then extranonceScript script enPrefix.toNat en else script

/-- What the callers write is the transaction's input up to the sequence number, or
up to the extranonce. -/
theorem headDraft_reads (hu : u.Documented) {input : CoinbaseInput} {script : Bytes}
    (hcb : Encodes u.hex2binUchar input.cb script) (hsize : script.length = input.size)
    (hshort : script.length ≤ 200) (s : StratumJob) (t : Fin 6) {en : Bytes}
    (hen : en.length = 12) : ∃ head,
      (headDraft u s input input.space t).c1.Reads u head ∧
      head ++ (if input.space ∧ t ≠ 2 then en ++ finalSequence else []) =
        inputHead (callerScriptSig input script s.enPrefix t en) := by
  have hreads := reads_writeInput hu hcb hsize hshort (input.space && decide (t ≠ 2)) s.enPrefix
    (s.coinbase t).coinb1
  refine ⟨_, hreads, ?_⟩
  by_cases h : input.space ∧ t ≠ 2
  · have hin : (input.space && decide (t ≠ 2)) = true := by simpa using h
    have hjoin := @scriptHead_append script en s.enPrefix.toNat hen []
    rw [callerScriptSig, if_pos h, if_pos h, hin, headBytes, if_pos rfl]
    simpa [List.append_assoc] using hjoin
  · have hin : (input.space && decide (t ≠ 2)) = false := by
      rw [Bool.eq_false_iff]
      intro hc
      exact h (by simpa using hc)
    rw [callerScriptSig, if_neg h, if_neg h, hin, headBytes, if_neg Bool.false_ne_true,
      List.append_nil]

theorem length_callerScriptSig {input : CoinbaseInput} {script : Bytes}
    (hsize : script.length = input.size) (h100 : input.size ≤ 100) (enPrefix : UInt16)
    (t : Fin 6) {en : Bytes} (hen : en.length = 12) :
    (callerScriptSig input script enPrefix t en).length ≤ 100 := by
  unfold callerScriptSig
  split_ifs with h
  · have hspace : input.size ≤ 85 := by simpa [CoinbaseInput.space] using h.1
    rw [length_extranonceScript hen]
    omega
  · omega

theorem pushData_uniqueId (cfg : Config) :
    pushData (uniqueId cfg) = [UInt8.ofNat (uniqueId cfg).length] ++ uniqueId cfg := by
  have hid : (uniqueId cfg).length ≤ 75 := by
    rcases length_uniqueId cfg with h | h <;> omega
  rw [pushData, if_pos hid, List.singleton_append]

theorem parseScript_elements (h0 : cfg.primaryTag.length ≤ 64) {e : Element} (he : e.Fits) :
    parseScript (e.ser ++ (pushData (tagContent cfg.primaryTag cfg.secondaryTag) ++
        pushData (uniqueId cfg))) =
      some [e, .push (tagContent cfg.primaryTag cfg.secondaryTag), .push (uniqueId cfg)] := by
  have hcontent : (tagContent cfg.primaryTag cfg.secondaryTag).length ≤ 86 :=
    length_tagContent_le h0 length_secondaryTag_le
  have hall : ∀ x ∈ [e, .push (tagContent cfg.primaryTag cfg.secondaryTag),
      .push (uniqueId cfg)], Element.Fits x := by
    intro x hx
    simp only [List.mem_cons, List.not_mem_nil, or_false] at hx
    rcases hx with rfl | rfl | rfl
    · exact he
    · show (tagContent cfg.primaryTag cfg.secondaryTag).length < 2 ^ 32
      omega
    · show (uniqueId cfg).length < 2 ^ 32
      rcases length_uniqueId cfg with h | h <;> omega
  have hparse := parseScript_flatMap hall
  simpa only [List.flatMap_cons, List.flatMap_nil, List.append_nil, Element.ser] using hparse

/-- The target byte is the first one of the unique id. -/
theorem drop_target (front content : Bytes) (cfg : Config) :
    (front ++ (pushData content ++ pushData (uniqueId cfg))).drop
      (front.length + (pushData content).length + 1) = uniqueId cfg := by
  have hlen : front.length + (pushData content).length + 1 =
      (front ++ (pushData content ++ [UInt8.ofNat (uniqueId cfg).length])).length := by
    simp only [List.length_append, List.length_singleton]
    omega
  have hsplit : front ++ (pushData content ++ pushData (uniqueId cfg)) =
      front ++ (pushData content ++ [UInt8.ofNat (uniqueId cfg).length]) ++ uniqueId cfg := by
    rw [pushData_uniqueId]
    simp only [List.append_assoc]
  rw [hlen, hsplit, List.drop_left]

/-- **The input script is well formed**: as many bytes as the size says, the height,
one push of the tags and one of the unique id with the target byte in front; and
the scriptSig that is built from it has at most 100 bytes. -/
theorem input_script_sound (cfg : Config) (hu : u.Documented) (hh : PushesHeights u)
    {height : ℕ} (h1 : 1 ≤ height) (h2 : height < 2 ^ 23) (h0 : cfg.primaryTag.length ≤ 64) :
    ∃ input script e, generateCoinbaseInput u cfg height = some input ∧
      Encodes u.hex2binUchar input.cb script ∧ script.length = input.size ∧
      parseScript script =
        some [e, .push (tagContent cfg.primaryTag cfg.secondaryTag), .push (uniqueId cfg)] ∧
      IsHeight e height ∧
      ((uniqueId cfg).length = 3 ∨ (uniqueId cfg).length = 7) ∧
      script.drop input.targetPotIndex = uniqueId cfg ∧
      ∀ (s : StratumJob) (t : Fin 6) (en : Bytes), en.length = 12 →
        (callerScriptSig input script s.enPrefix t en).length ≤ 100 ∧
        ∃ head, (headDraft u s input input.space t).c1.Reads u head ∧
          head ++ (if input.space ∧ t ≠ 2 then en ++ finalSequence else []) =
            inputHead (callerScriptSig input script s.enPrefix t en) := by
  obtain ⟨e, he, hfits, henc, hlen, hle⟩ := heightElement_spec hu hh h1 h2
  have hparse := parseScript_elements h0 hfits
  have hdrop := drop_target e.ser (tagContent cfg.primaryTag cfg.secondaryTag) cfg
  have hcontent : (tagContent cfg.primaryTag cfg.secondaryTag).length ≤ 86 :=
    length_tagContent_le h0 length_secondaryTag_le
  set content := tagContent cfg.primaryTag cfg.secondaryTag with hcontentDef
  have htagLen := length_pushData_le (show content.length ≤ 0xff by omega)
  have hidLen : (pushData (uniqueId cfg)).length ≤ 8 := by
    rw [pushData_uniqueId, List.length_append, List.length_singleton]
    rcases length_uniqueId cfg with h | h <;> omega
  have hcb := henc.append
    (encodes_flatMap_ucharToHex hu (pushData content ++ pushData (uniqueId cfg)))
  have hsize : (e.ser ++ (pushData content ++ pushData (uniqueId cfg))).length =
      heightSize u height + (pushData content ++ pushData (uniqueId cfg)).length := by
    rw [List.length_append, hlen]
  have h100 : heightSize u height +
      (pushData content ++ pushData (uniqueId cfg)).length ≤ 100 := by
    rw [List.length_append]
    omega
  rw [hlen] at hdrop
  exact ⟨_, _, e, generateCoinbaseInput_eq h0 height, hcb, hsize, hparse, he,
    length_uniqueId cfg, hdrop, fun s t en hen =>
      ⟨length_callerScriptSig hsize h100 s.enPrefix t hen,
        headDraft_reads hu hcb hsize (by omega) s t hen⟩⟩

/-! ## The longest script -/

theorem isScriptNum_leBytes {k n : ℕ} (hlt : n < 2 ^ (8 * k - 1))
    (hge : ∀ j < k, 2 ^ (8 * j - 1) ≤ n) : IsScriptNum (leBytes k n) n where
  value := by
    apply leNat_leBytes
    calc n < 2 ^ (8 * k - 1) := hlt
      _ ≤ 2 ^ (8 * k) := Nat.pow_le_pow_right (by norm_num) (by omega)
      _ = 256 ^ k := by rw [pow_mul]; norm_num
  sign := by rwa [leBytes_length]
  shortest := by rwa [leBytes_length]

theorem pushesHeights_referenceUtils (addresses : Text → Option Bytes) :
    PushesHeights (referenceUtils addresses) := by
  intro n h17 h31
  have hreads := (documented_referenceUtils addresses).hex2binUchar
  obtain ⟨k, hk, hlt, hge⟩ : ∃ k, scriptNumber n = UInt8.ofNat k :: leBytes k n ∧
      n < 2 ^ (8 * k - 1) ∧ ∀ j < k, 2 ^ (8 * j - 1) ≤ n := by
    refine ⟨_, rfl, ?_⟩
    split_ifs with h7 h15 h23
    all_goals
      refine ⟨by norm_num; omega, fun j hj => ?_⟩
      interval_cases j <;> norm_num <;> omega
  refine ⟨leBytes k n, isScriptNum_leBytes hlt hge, ?_⟩
  rw [leBytes_length, ← hk]
  exact encodes_hexOf hreads _

/-- Both tags as long as they may be: the secondary one is cut to 20 bytes, and the
scriptSig has no room for the extranonce. -/
theorem input_script_sound_longTags :
    ∃ input script e, generateCoinbaseInput poolUtils (taggedConfig 64 64) 900000 = some input ∧
      parseScript script =
        some [e, .push (List.replicate 64 0x55 ++ 0x0f :: List.replicate 20 0x32 ++ [0x00]),
          .push [0xff, 21, 0]] ∧
      script.length = input.size ∧ input.size = 96 := by
  obtain ⟨input, script, e, hinput, -, hlen, hparse, -⟩ :=
    input_script_sound (taggedConfig 64 64) documented_poolUtils
      (pushesHeights_referenceUtils knownAddresses) (show 1 ≤ 900000 by norm_num) (by norm_num)
      (by decide)
  have hsize : (generateCoinbaseInput poolUtils (taggedConfig 64 64) 900000).map
      CoinbaseInput.size = some 96 := by decide +kernel
  rw [hinput] at hsize
  exact ⟨input, script, e, hinput, hparse, hlen, Option.some.inj hsize⟩

end Gateway
