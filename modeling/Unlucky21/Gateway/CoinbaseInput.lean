import Unlucky21.Gateway.HexWriter

/-!
# The input of a coinbase

`generate_coinbase_input` writes the scriptSig of the coinbase input up to the
extranonce: the block height, the coinbase tags and a unique id. The function
stops the program when the primary tag alone is too long.
-/

namespace Gateway

open Wire CText

structure Config where
  miningPoolAddress : Text
  miningCoinbaseTagPrimary : Bytes
  miningCoinbaseTagSecondary : Bytes
  overrideMiningCoinbaseTagPrimary : Bytes
  overrideMiningPoolScriptsig : Bytes
  primeId : ℕ
  coinbaseUniqueId : ℕ
  /-- `datum_protocol_is_active()` -/
  protocolActive : Bool
deriving DecidableEq, Repr

/-- The hex digits, the number of bytes they stand for, and the position of the
byte that is filled in with the miner's target. -/
structure CoinbaseInput where
  cb : Text
  size : ℕ
  targetPotIndex : ℕ
deriving DecidableEq, Repr

def MAX_COINBASE_TAG_SPACE : ℕ := 86

variable (u : DatumUtils) (cfg : Config)

/-- BIP34: heights 1 to 16 are one opcode, the others a push. -/
def heightPush (height : ℕ) : Text :=
  if 1 ≤ height ∧ height ≤ 16 then u.ucharToHex (UInt8.ofNat (0x50 + height))
  else u.appendUNumHex height

def heightSize (height : ℕ) : ℕ :=
  if 1 ≤ height ∧ height ≤ 16 then 1 else (u.appendUNumHex height).length / 2

def Config.primaryTag : Bytes :=
  if cfg.protocolActive then cfg.overrideMiningCoinbaseTagPrimary
  else cfg.miningCoinbaseTagPrimary

/-- Bytes both tags take with their separators. -/
def tagSpace (len0 len1 : ℕ) : ℕ :=
  if len1 = 0 then (if len0 = 0 then 0 else len0 + 1) else len0 + len1 + 2

/-- The space and the length left of the secondary tag, which gives way. -/
def truncateTags (len0 len1 : ℕ) : ℕ × ℕ :=
  let k := tagSpace len0 len1
  if MAX_COINBASE_TAG_SPACE < k then
    let excess := k - MAX_COINBASE_TAG_SPACE
    if excess < len1 then (MAX_COINBASE_TAG_SPACE, len1 - excess)
    -- the length is cleared first, so only the separator is taken off
    else if len1 ≠ 0 then (k - 1, 0)
    else (k, len1)
  else (k, len1)

def tagPush (k : ℕ) (tag0 tag1 : Bytes) : Bytes :=
  if 0 < k then
    (if k ≤ 75 then [UInt8.ofNat k] else [0x4c, UInt8.ofNat k]) ++
      (if tag0 ≠ [] then tag0 ++ [if tag1 = [] then 0x00 else 0x0f]
       else if tag1 ≠ [] then [0x0f] else []) ++
      (if tag1 ≠ [] then tag1 ++ [0x00] else [])
  else [0x01, 0x00]

/-- Byte `i` of a little-endian number. -/
def byteAt (n i : ℕ) : UInt8 := UInt8.ofNat (n >>> (8 * i))

def uniqueIdPush : Bytes :=
  if cfg.primeId = 0 ∧ !cfg.protocolActive then
    [0x03, 0xff, byteAt cfg.coinbaseUniqueId 0, byteAt cfg.coinbaseUniqueId 1]
  else
    [0x07, 0xff, byteAt cfg.coinbaseUniqueId 0, byteAt cfg.coinbaseUniqueId 1,
      byteAt cfg.primeId 0, byteAt cfg.primeId 1, byteAt cfg.primeId 2, byteAt cfg.primeId 3]

def generateCoinbaseInput (height : ℕ) : Option CoinbaseInput :=
  let tag0 := cfg.primaryTag
  let tags := truncateTags tag0.length cfg.miningCoinbaseTagSecondary.length
  if MAX_COINBASE_TAG_SPACE < tags.1 then none
  else
    let push := tagPush tags.1 tag0 (cfg.miningCoinbaseTagSecondary.take tags.2)
    some {
      cb := heightPush u height ++ (push ++ uniqueIdPush cfg).flatMap u.ucharToHex
      size := heightSize u height + (push ++ uniqueIdPush cfg).length
      targetPotIndex := heightSize u height + push.length + 1 }

/-! ## The input is hex of its size -/

/-- Tags and a pool script a configuration may hold. -/
structure Config.Fits (cfg : Config) : Prop where
  primary : cfg.miningCoinbaseTagPrimary.length ≤ 64
  override : cfg.overrideMiningCoinbaseTagPrimary.length ≤ 64
  secondary : cfg.miningCoinbaseTagSecondary.length ≤ 64
  poolScript : cfg.overrideMiningPoolScriptsig.length ≤ 64

variable {u cfg}

theorem length_primaryTag_le (h : cfg.Fits) : cfg.primaryTag.length ≤ 64 := by
  unfold Config.primaryTag
  split
  · exact h.override
  · exact h.primary

theorem truncateTags_le {len0 : ℕ} (h0 : len0 ≤ 64) (len1 : ℕ) :
    (truncateTags len0 len1).1 ≤ MAX_COINBASE_TAG_SPACE := by
  unfold truncateTags
  simp only [tagSpace, MAX_COINBASE_TAG_SPACE]
  split_ifs <;> simp <;> omega

theorem tagPush_length_le (k : ℕ) (tag0 tag1 : Bytes) :
    (tagPush k tag0 tag1).length ≤ tag0.length + tag1.length + 4 := by
  unfold tagPush
  split_ifs <;> simp <;> omega

theorem uniqueIdPush_length_le : (uniqueIdPush cfg).length ≤ 8 := by
  unfold uniqueIdPush
  split <;> simp

theorem encodes_flatMap_ucharToHex (hu : u.Documented) (bs : Bytes) :
    Encodes u.hex2binUchar (bs.flatMap u.ucharToHex) bs := by
  induction bs with
  | nil => exact Encodes.nil
  | cons b bs ih => exact (hu.ucharToHex b).append ih

theorem encodes_heightPush (hu : u.Documented) (height : ℕ) : ∃ bs : Bytes,
    Encodes u.hex2binUchar (heightPush u height) bs ∧ bs.length = heightSize u height ∧
      bs.length ≤ 9 := by
  unfold heightPush heightSize
  split
  · exact ⟨_, hu.ucharToHex _, rfl, by simp⟩
  · obtain ⟨bs, hlen, henc⟩ := hu.appendUNumHex height
    refine ⟨bs, henc, ?_, hlen⟩
    rw [henc.length_eq]
    omega

/-- What the callers rely on: as many digits as the size says. -/
theorem generateCoinbaseInput_spec (hu : u.Documented) (ht : cfg.Fits) (height : ℕ) :
    ∃ (input : CoinbaseInput) (script : Bytes), generateCoinbaseInput u cfg height = some input ∧
      Encodes u.hex2binUchar input.cb script ∧ script.length = input.size ∧
      script.length ≤ 200 := by
  obtain ⟨hbs, henc, hlen, hle⟩ := encodes_heightPush hu height
  have hspace := truncateTags_le (length_primaryTag_le ht) cfg.miningCoinbaseTagSecondary.length
  have h0 := length_primaryTag_le ht
  have h1 := ht.secondary
  set tags := truncateTags cfg.primaryTag.length cfg.miningCoinbaseTagSecondary.length with htags
  set push := tagPush tags.1 cfg.primaryTag (cfg.miningCoinbaseTagSecondary.take tags.2) with hpush
  have hid : (uniqueIdPush cfg).length ≤ 8 := uniqueIdPush_length_le
  have hpushlen : push.length ≤ 132 := by
    have htake : (cfg.miningCoinbaseTagSecondary.take tags.2).length ≤ 64 :=
      (List.length_take_le' _ _).trans h1
    have := tagPush_length_le tags.1 cfg.primaryTag (cfg.miningCoinbaseTagSecondary.take tags.2)
    rw [← hpush] at this
    omega
  refine ⟨_, hbs ++ (push ++ uniqueIdPush cfg), if_neg (not_lt.mpr hspace), ?_, ?_, ?_⟩
  · exact henc.append (encodes_flatMap_ucharToHex hu _)
  · simp [hlen, ← htags, ← hpush]
  · simp only [List.length_append]
    omega

end Gateway
