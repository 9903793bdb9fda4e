import Unlucky21.Gateway.Personal

/-!
# Raw outputs

`datum_coinbaser_v2_parse`: an id, then outputs as a value, the length of the
script and the script. The parser stops where the values exceed the coinbase
value, at a script length it does not accept and after 512 outputs. It compares
positions with the end of the message only in front of an output, so it can read
behind the message.
-/

namespace Gateway

open Wire

/-! ## The parser -/

/-- What the job keeps; without a message its id stays as it was. -/
structure RawCoinbaser where
  datumCoinbaserId : Option UInt8
  outputs : List Output
  freed : Bool
deriving DecidableEq, Repr

variable (upkU64le : Bytes → UInt64) (coinbaseValue : UInt64)

/-- The loop, from an index on, with so many entries of the table left; `none` is
a read behind the buffer. -/
def readOutputs (coinbaser : Bytes) (cblen : ℤ) : ℕ → ℕ → UInt64 → Option (List Output)
  | 0, _, _ => some []
  | free + 1, cidx, tally =>
      if (cidx : ℤ) < cblen then do
        let (value, _) ← takeBytes 8 (coinbaser.drop cidx)
        if coinbaseValue < upkU64le value + tally then some []
        else
          let slen ← coinbaser[cidx + 8]?
          if slen < 2 ∨ 64 < slen then some []
          else
            let (script, _) ← takeBytes slen.toNat (coinbaser.drop (cidx + 9))
            let outputs ← readOutputs coinbaser cblen free (cidx + 9 + slen.toNat)
              (tally + upkU64le value)
            some (⟨upkU64le value, script⟩ :: outputs)
      else some []

/-- `datum_coinbaser_v2_parse`; a message that is missing or too short is not freed. -/
def datumCoinbaserV2Parse (coinbaser : Option Bytes) (cblen : ℤ) (mustFree : Bool) :
    Option RawCoinbaser :=
  match coinbaser with
  | none => some ⟨none, [], false⟩
  | some coinbaser =>
      if cblen < 9 then some ⟨none, [], false⟩
      else do
        let datumId ← coinbaser[0]?
        let outputs ← readOutputs upkU64le coinbaseValue coinbaser cblen 512 1 0
        some ⟨some datumId, outputs, mustFree⟩

/-! ## The format -/

def Output.encode (o : Output) : Bytes :=
  leBytes 8 o.value ++ UInt8.ofNat o.outputScript.length :: o.outputScript

/-- A script of a length the parser accepts. -/
def Output.Sized (o : Output) : Prop := 2 ≤ o.outputScript.length ∧ o.outputScript.length ≤ 64

@[simp] theorem Output.length_encode (o : Output) :
    o.encode.length = 9 + o.outputScript.length := by
  simp only [Output.encode, List.length_append, leBytes_length, List.length_cons]
  omega

/-- The helper reads eight bytes, least significant first. -/
def UnpacksU64 (upkU64le : Bytes → UInt64) : Prop :=
  ∀ bs : Bytes, bs.length = 8 → (upkU64le bs).toNat = leNat bs

/-- What is left of a list of outputs when the budget or the table runs out. -/
def affordable : ℕ → UInt64 → List Output → List Output
  | 0, _, _ => []
  | _ + 1, _, [] => []
  | free + 1, tally, o :: outs =>
      if coinbaseValue < o.valueSats + tally then []
      else o :: affordable free (tally + o.valueSats) outs

variable {upkU64le coinbaseValue} {coinbaser : Bytes} {cblen : ℤ} {free cidx : ℕ} {tally : UInt64}
  {outs : List Output}

theorem upkU64le_encode (hupk : UnpacksU64 upkU64le) (o : Output) :
    upkU64le (leBytes 8 o.value) = o.valueSats := by
  apply UInt64.toNat_inj.mp
  rw [hupk _ (leBytes_length _ _)]
  exact leNat_leBytes o.valueSats.toNat_lt

/-- One output in front of the index. -/
theorem readOutputs_encode_cons (hupk : UnpacksU64 upkU64le) {o : Output} (ho : o.Sized)
    {rest : Bytes} (hdrop : coinbaser.drop cidx = o.encode ++ rest) (hcidx : (cidx : ℤ) < cblen) :
    readOutputs upkU64le coinbaseValue coinbaser cblen (free + 1) cidx tally =
      if coinbaseValue < o.valueSats + tally then some []
      else (readOutputs upkU64le coinbaseValue coinbaser cblen free (cidx + o.encode.length)
        (tally + o.valueSats)).map (o :: ·) := by
  obtain ⟨hlo, hhi⟩ := ho
  have hvalue : takeBytes 8 (coinbaser.drop cidx) = some (leBytes 8 o.value,
      (UInt8.ofNat o.outputScript.length :: o.outputScript) ++ rest) := by
    rw [hdrop, Output.encode, List.append_assoc]
    exact takeBytes_append (leBytes_length 8 _)
  have hslen : coinbaser[cidx + 8]? = some (UInt8.ofNat o.outputScript.length) := by
    rw [← List.getElem?_drop, hdrop, Output.encode, List.append_assoc,
      List.getElem?_append_right (by simp)]
    simp
  have htoNat : (UInt8.ofNat o.outputScript.length).toNat = o.outputScript.length := by
    rw [UInt8.toNat_ofNat']
    omega
  have hscript : takeBytes o.outputScript.length (coinbaser.drop (cidx + 9)) =
      some (o.outputScript, rest) := by
    rw [← List.drop_drop, hdrop, Output.encode, List.append_assoc, List.drop_append]
    simp only [leBytes_length, Nat.reduceSub, List.cons_append, List.drop_succ_cons, List.drop_zero,
      List.drop_of_length_le (le_of_eq_of_le (leBytes_length 8 _) (by norm_num : 8 ≤ 9)),
      List.nil_append]
    exact takeBytes_append rfl
  have hsized : ¬ (UInt8.ofNat o.outputScript.length < 2 ∨ 64 < UInt8.ofNat o.outputScript.length) := by
    simp only [UInt8.lt_iff_toNat_lt, htoNat]
    simp
    omega
  rw [readOutputs, if_pos hcidx, hvalue]
  simp only [Option.bind_eq_bind, Option.bind_some, upkU64le_encode hupk, hslen, if_neg hsized,
    htoNat, hscript, Output.length_encode, add_assoc]
  split_ifs
  · rfl
  · cases readOutputs upkU64le coinbaseValue coinbaser cblen free
      (cidx + (9 + o.outputScript.length)) (tally + o.valueSats) <;> rfl

theorem readOutputs_of_end (h : cblen ≤ cidx) :
    readOutputs upkU64le coinbaseValue coinbaser cblen free cidx tally = some [] := by
  cases free with
  | zero => rfl
  | succ free => rw [readOutputs, if_neg (not_lt.mpr h)]

/-- A message that consists of outputs is read up to where they stop being affordable. -/
theorem readOutputs_encode (hupk : UnpacksU64 upkU64le) {behind : Bytes}
    (hsized : ∀ o ∈ outs, o.Sized) (hdrop : coinbaser.drop cidx = outs.flatMap Output.encode ++ behind)
    (hcblen : cblen = cidx + (outs.flatMap Output.encode).length) :
    readOutputs upkU64le coinbaseValue coinbaser cblen free cidx tally =
      some (affordable coinbaseValue free tally outs) := by
  induction free generalizing cidx tally outs with
  | zero => rfl
  | succ free ih =>
      cases outs with
      | nil =>
          rw [readOutputs_of_end (by simp [hcblen])]
          rfl
      | cons o outs =>
          obtain ⟨ho, hrest⟩ := List.forall_mem_cons.mp hsized
          rw [List.flatMap_cons, List.append_assoc] at hdrop
          rw [List.flatMap_cons, List.length_append, Nat.cast_add] at hcblen
          have hlength := o.length_encode
          rw [readOutputs_encode_cons hupk ho hdrop (by omega), affordable]
          split_ifs
          · rfl
          · have hnext : coinbaser.drop (cidx + o.encode.length) =
                outs.flatMap Output.encode ++ behind := by
              rw [← List.drop_drop, hdrop, List.drop_left]
            rw [ih hrest hnext (by rw [hcblen, Nat.cast_add, add_assoc]), Option.map_some]

/-! ## What is affordable -/

theorem affordable_prefix : affordable coinbaseValue free tally outs <+: outs := by
  induction free generalizing tally outs with
  | zero => exact List.nil_prefix
  | succ free ih =>
      cases outs with
      | nil => exact List.nil_prefix
      | cons o outs =>
          rw [affordable]
          split_ifs
          · exact List.nil_prefix
          · exact List.cons_prefix_cons.mpr ⟨rfl, ih⟩

theorem length_affordable_le : (affordable coinbaseValue free tally outs).length ≤ free := by
  induction free generalizing tally outs with
  | zero => exact le_rfl
  | succ free ih =>
      cases outs with
      | nil => exact Nat.zero_le _
      | cons o outs =>
          rw [affordable]
          split_ifs
          · exact Nat.zero_le _
          · exact Nat.succ_le_succ ih

/-- The tally does not wrap as long as the outputs stay below 2^64. -/
theorem toNat_tally {o : Output} (h : tally.toNat + exactTotal (o :: outs) < 2 ^ 64) :
    (o.valueSats + tally).toNat = tally.toNat + o.value ∧
      (tally + o.valueSats).toNat = tally.toNat + o.value := by
  rw [exactTotal_cons] at h
  have hvalue : (tally + o.valueSats).toNat = tally.toNat + o.value := by
    rw [toNat_add_value]
    exact Nat.mod_eq_of_lt (by omega)
  exact ⟨by rw [UInt64.add_comm, hvalue], hvalue⟩

theorem exactTotal_affordable_le (htally : tally.toNat ≤ coinbaseValue.toNat)
    (htotal : tally.toNat + exactTotal outs < 2 ^ 64) :
    tally.toNat + exactTotal (affordable coinbaseValue free tally outs) ≤ coinbaseValue.toNat := by
  induction free generalizing tally outs with
  | zero => exact htally
  | succ free ih =>
      cases outs with
      | nil => exact htally
      | cons o outs =>
          obtain ⟨hsum, hnext⟩ := toNat_tally htotal
          rw [exactTotal_cons] at htotal
          rw [affordable]
          split_ifs with hover
          · exact htally
          · rw [UInt64.not_lt, UInt64.le_iff_toNat_le, hsum] at hover
            have hrest : (tally + o.valueSats).toNat + exactTotal
                (affordable coinbaseValue free (tally + o.valueSats) outs) ≤
                  coinbaseValue.toNat := ih (by omega) (by omega)
            rw [exactTotal_cons]
            omega

/-- It stops at the end, when the table is full or at an output over the budget. -/
theorem affordable_stops (htotal : tally.toNat + exactTotal outs < 2 ^ 64) :
    affordable coinbaseValue free tally outs = outs ∨
      (affordable coinbaseValue free tally outs).length = free ∨
      coinbaseValue.toNat < tally.toNat + exactTotal
        (outs.take ((affordable coinbaseValue free tally outs).length + 1)) := by
  induction free generalizing tally outs with
  | zero => exact .inr (.inl rfl)
  | succ free ih =>
      cases outs with
      | nil => exact .inl rfl
      | cons o outs =>
          obtain ⟨hsum, hnext⟩ := toNat_tally htotal
          rw [exactTotal_cons] at htotal
          rw [affordable]
          split_ifs with hover
          · right; right
            rw [UInt64.lt_iff_toNat_lt, hsum] at hover
            simpa [exactTotal] using hover
          · have hstop : (tally + o.valueSats).toNat + exactTotal outs < 2 ^ 64 := by omega
            rcases ih hstop with hall | hfull | hrest
            · exact .inl (by rw [hall])
            · exact .inr (.inl (by rw [List.length_cons, hfull]))
            · right; right
              rw [List.length_cons, List.take_succ_cons, exactTotal_cons]
              omega

/-- **The parser reads what was written.** Of a message that consists of outputs
with accepted script lengths it keeps a prefix: the longest that does not exceed
the coinbase value, or 512 outputs. -/
theorem datumCoinbaserV2Parse_encode (hupk : UnpacksU64 upkU64le) (coinbaseValue : UInt64)
    (datumId : UInt8) (hne : outs ≠ []) (hsized : ∀ o ∈ outs, o.Sized)
    (htotal : exactTotal outs < 2 ^ 64) (behind : Bytes) (mustFree : Bool) :
    ∃ outputs, datumCoinbaserV2Parse upkU64le coinbaseValue
        (some (datumId :: outs.flatMap Output.encode ++ behind))
        (1 + (outs.flatMap Output.encode).length) mustFree =
          some ⟨some datumId, outputs, mustFree⟩ ∧
      outputs <+: outs ∧ outputs.length ≤ 512 ∧ exactTotal outputs ≤ coinbaseValue.toNat ∧
      (outputs = outs ∨ outputs.length = 512 ∨
        coinbaseValue.toNat < exactTotal (outs.take (outputs.length + 1))) := by
  have hzero : (0 : UInt64).toNat = 0 := rfl
  have hstart : (0 : UInt64).toNat + exactTotal outs < 2 ^ 64 := by rwa [hzero, zero_add]
  have hread : readOutputs upkU64le coinbaseValue (datumId :: outs.flatMap Output.encode ++ behind)
      (1 + (outs.flatMap Output.encode).length) 512 1 0 =
        some (affordable coinbaseValue 512 0 outs) :=
    readOutputs_encode hupk hsized rfl (by norm_num)
  refine ⟨affordable coinbaseValue 512 0 outs, ?_, affordable_prefix, length_affordable_le, ?_, ?_⟩
  · have hlong : ¬ (1 + (outs.flatMap Output.encode).length : ℤ) < 9 := by
      obtain ⟨o, rest, rfl⟩ := List.exists_cons_of_ne_nil hne
      rw [List.flatMap_cons, List.length_append, o.length_encode]
      push_cast
      omega
    rw [datumCoinbaserV2Parse]
    simp only [if_neg hlong, hread]
    rfl
  · have hle := @exactTotal_affordable_le coinbaseValue 512 0 outs (Nat.zero_le _) hstart
    rwa [hzero, zero_add] at hle
  · have hstops := @affordable_stops coinbaseValue 512 0 outs hstart
    rwa [hzero, zero_add] at hstops

/-- The helper as documented. -/
def leU64 (bs : Bytes) : UInt64 := UInt64.ofNat (leNat bs)

theorem unpacksU64_leU64 : UnpacksU64 leU64 := by
  intro bs hlength
  have hlt := leNat_lt bs
  rw [hlength] at hlt
  rw [leU64, UInt64.toNat_ofNat']
  exact Nat.mod_eq_of_lt hlt

/-- More than a coinbase value of 10000 can pay. -/
def rawOutputs : List Output := [⟨6000, [0x51, 0x51]⟩, ⟨5000, [0x00, 0x14]⟩]

theorem datumCoinbaserV2Parse_encode_rawOutputs :
    ∃ outputs, datumCoinbaserV2Parse leU64 10000
        (some (7 :: rawOutputs.flatMap Output.encode ++ [])) 23 true =
          some ⟨some 7, outputs, true⟩ ∧
      outputs <+: rawOutputs ∧ outputs.length ≤ 512 ∧ exactTotal outputs ≤ 10000 ∧
      (outputs = rawOutputs ∨ outputs.length = 512 ∨
        10000 < exactTotal (rawOutputs.take (outputs.length + 1))) := by
  have hsized : ∀ o ∈ rawOutputs, o.Sized :=
    List.forall_mem_cons.mpr ⟨⟨by decide, by decide⟩,
      List.forall_mem_singleton.mpr ⟨by decide, by decide⟩⟩
  exact datumCoinbaserV2Parse_encode unpacksU64_leU64 10000 7 (by decide) hsized (by decide) [] true

/-! ## Any message -/

theorem takeBytes_inv {k : ℕ} {bs as rest : Bytes} (h : takeBytes k bs = some (as, rest)) :
    bs = as ++ rest ∧ as.length = k := by
  unfold takeBytes at h
  split_ifs at h with hk
  obtain ⟨rfl, rfl⟩ := Prod.mk.inj (Option.some.inj h)
  exact ⟨(List.take_append_drop k bs).symm, List.length_take_of_le hk⟩

/-- One turn of the loop that keeps an output: where it was read from. -/
theorem drop_eq_encode (hupk : UnpacksU64 upkU64le) {value rest script behind : Bytes} {slen : UInt8}
    (hvalue : takeBytes 8 (coinbaser.drop cidx) = some (value, rest))
    (hslen : coinbaser[cidx + 8]? = some slen)
    (hscript : takeBytes slen.toNat (coinbaser.drop (cidx + 9)) = some (script, behind)) :
    coinbaser.drop cidx = (⟨upkU64le value, script⟩ : Output).encode ++ behind ∧
      behind = coinbaser.drop (cidx + 9 + slen.toNat) := by
  obtain ⟨hdrop, hlength⟩ := takeBytes_inv hvalue
  obtain ⟨hdrop', hslen'⟩ := takeBytes_inv hscript
  have hrest : rest = slen :: coinbaser.drop (cidx + 9) := by
    have hhead : rest[0]? = some slen := by
      rw [← hslen, ← List.getElem?_drop, hdrop, List.getElem?_append_right hlength.le, hlength]
    have htail : rest.drop 1 = coinbaser.drop (cidx + 9) := by
      have h9 : cidx + 9 = cidx + 8 + 1 := rfl
      rw [h9, ← List.drop_drop, ← List.drop_drop, hdrop, List.drop_left' hlength]
    rw [← htail]
    cases rest with
    | nil => cases hhead
    | cons b rest =>
        obtain rfl := Option.some.inj hhead
        rfl
  have hencode : leBytes 8 (upkU64le value).toNat = value := by
    rw [hupk value hlength, ← hlength, leBytes_leNat]
  have hbyte : UInt8.ofNat script.length = slen := by rw [hslen', UInt8.ofNat_toNat]
  constructor
  · rw [hdrop, hrest, hdrop', Output.encode, Output.value, hencode, hbyte, List.append_assoc,
      List.cons_append]
  · rw [← List.drop_drop, hdrop', List.drop_left' hslen']

/-- **One turn of the loop.** It stops, or keeps an output that is at the index
and fits the budget. -/
theorem readOutputs_cases (hupk : UnpacksU64 upkU64le)
    (h : readOutputs upkU64le coinbaseValue coinbaser cblen (free + 1) cidx tally = some outs) :
    outs = [] ∨ ∃ o outputs, outs = o :: outputs ∧ o.Sized ∧ o.valueSats + tally ≤ coinbaseValue ∧
      coinbaser.drop cidx = o.encode ++ coinbaser.drop (cidx + o.encode.length) ∧
      readOutputs upkU64le coinbaseValue coinbaser cblen free (cidx + o.encode.length)
        (tally + o.valueSats) = some outputs := by
  rw [readOutputs] at h
  split_ifs at h with hend
  · simp only [Option.bind_eq_bind, Option.bind_eq_some_iff, Prod.exists] at h
    obtain ⟨value, rest, hvalue, h⟩ := h
    split_ifs at h with hover
    · exact .inl (Option.some.inj h).symm
    · obtain ⟨slen, hslen, h⟩ := Option.bind_eq_some_iff.mp h
      split_ifs at h with hlen
      · exact .inl (Option.some.inj h).symm
      · simp only [Option.bind_eq_some_iff, Prod.exists] at h
        obtain ⟨script, behind, hscript, outputs, hrest, h⟩ := h
        obtain ⟨hencode, hbehind⟩ := drop_eq_encode hupk hvalue hslen hscript
        have hslen' := (takeBytes_inv hscript).2
        have hlength : cidx + 9 + slen.toNat =
            cidx + (⟨upkU64le value, script⟩ : Output).encode.length := by
          rw [Output.length_encode, hslen', add_assoc]
        simp only [UInt8.lt_iff_toNat_lt, not_or, not_lt] at hlen
        rw [hlength] at hbehind hrest
        exact .inr ⟨_, outputs, (Option.some.inj h).symm, ⟨hslen'.symm ▸ hlen.1, hslen'.symm ▸ hlen.2⟩,
          UInt64.not_lt.mp hover, hbehind ▸ hencode, hrest⟩
  · exact .inl (Option.some.inj h).symm

/-- Whatever is kept stands in the message. -/
theorem readOutputs_sound (hupk : UnpacksU64 upkU64le)
    (h : readOutputs upkU64le coinbaseValue coinbaser cblen free cidx tally = some outs) :
    (∃ rest, coinbaser.drop cidx = outs.flatMap Output.encode ++ rest) ∧ (∀ o ∈ outs, o.Sized) ∧
      outs.length ≤ free := by
  induction free generalizing cidx tally outs with
  | zero =>
      obtain rfl := Option.some.inj h
      exact ⟨⟨_, rfl⟩, by simp, le_rfl⟩
  | succ free ih =>
      rcases readOutputs_cases hupk h with rfl | ⟨o, outputs, rfl, ho, -, hdrop, hrest⟩
      · exact ⟨⟨_, rfl⟩, by simp, Nat.zero_le _⟩
      · obtain ⟨⟨rest, hnext⟩, hsized, hle⟩ := ih hrest
        refine ⟨⟨rest, ?_⟩, List.forall_mem_cons.mpr ⟨ho, hsized⟩, Nat.succ_le_succ hle⟩
        rw [hdrop, hnext, List.flatMap_cons, List.append_assoc]

/-- Outputs that are within the budget one by one cannot make the tally wrap. -/
theorem exactTotal_le_of_readOutputs (hupk : UnpacksU64 upkU64le)
    (hbudget : coinbaseValue.toNat < 2 ^ 63) (htally : tally.toNat ≤ coinbaseValue.toNat)
    (h : readOutputs upkU64le coinbaseValue coinbaser cblen free cidx tally = some outs)
    (hvalues : ∀ o ∈ outs, o.value ≤ coinbaseValue.toNat) :
    tally.toNat + exactTotal outs ≤ coinbaseValue.toNat := by
  induction free generalizing cidx tally outs with
  | zero =>
      obtain rfl := Option.some.inj h
      exact htally
  | succ free ih =>
      rcases readOutputs_cases hupk h with rfl | ⟨o, outputs, rfl, -, hover, -, hrest⟩
      · exact htally
      · obtain ⟨hle, hvalues'⟩ := List.forall_mem_cons.mp hvalues
        have hsum : (tally + o.valueSats).toNat = tally.toNat + o.value := by
          rw [toNat_add_value]
          exact Nat.mod_eq_of_lt (by omega)
        rw [UInt64.add_comm, UInt64.le_iff_toNat_le, hsum] at hover
        have htail := ih (by omega) hrest hvalues'
        rw [exactTotal_cons]
        omega

/-- No byte is read 72 or more behind the end of the message. -/
theorem readOutputs_isSome (h : cblen + 72 ≤ coinbaser.length) :
    (readOutputs upkU64le coinbaseValue coinbaser cblen free cidx tally).isSome := by
  induction free generalizing cidx tally with
  | zero => rfl
  | succ free ih =>
      rw [readOutputs]
      split_ifs with hend
      · have hvalue : 8 ≤ (coinbaser.drop cidx).length := by
          rw [List.length_drop]
          omega
        have hslen : cidx + 8 < coinbaser.length := by omega
        rw [takeBytes, if_pos hvalue]
        simp only [Option.bind_eq_bind, Option.bind_some, List.getElem?_eq_getElem hslen]
        split_ifs with hover hlen
        · rfl
        · rfl
        · have hscript : (coinbaser[cidx + 8]).toNat ≤ (coinbaser.drop (cidx + 9)).length := by
            simp only [UInt8.lt_iff_toNat_lt, not_or, not_lt] at hlen
            have hle : (coinbaser[cidx + 8]).toNat ≤ 64 := hlen.2
            rw [List.length_drop]
            omega
          obtain ⟨outputs, hrest⟩ := Option.isSome_iff_exists.mp ih
          rw [takeBytes, if_pos hscript, Option.bind_some, hrest]
          rfl
      · rfl

/-- **What the parser makes of any message.** It does not read 72 bytes behind the
message. What it keeps are at most 512 outputs that stand behind the id, one after
the other; they exceed the coinbase value exactly if one of them does, which the
check misses when the sum wraps. -/
theorem datumCoinbaserV2Parse_sound (hupk : UnpacksU64 upkU64le)
    (hbudget : coinbaseValue.toNat < 2 ^ 63) (coinbaser : Bytes) (cblen : ℤ) (mustFree : Bool) :
    (cblen + 72 ≤ coinbaser.length →
      (datumCoinbaserV2Parse upkU64le coinbaseValue (some coinbaser) cblen mustFree).isSome) ∧
    ∀ p, datumCoinbaserV2Parse upkU64le coinbaseValue (some coinbaser) cblen mustFree = some p →
      9 ≤ cblen → ∃ datumId rest, p.datumCoinbaserId = some datumId ∧
        coinbaser = datumId :: p.outputs.flatMap Output.encode ++ rest ∧
        (∀ o ∈ p.outputs, o.Sized) ∧ p.outputs.length ≤ 512 ∧
        (exactTotal p.outputs ≤ coinbaseValue.toNat ↔
          ∀ o ∈ p.outputs, o.value ≤ coinbaseValue.toNat) := by
  constructor
  · intro hslack
    rw [datumCoinbaserV2Parse]
    split_ifs with hshort
    · rfl
    · have hpos : 0 < coinbaser.length := by omega
      obtain ⟨outputs, houtputs⟩ := Option.isSome_iff_exists.mp
        (@readOutputs_isSome upkU64le coinbaseValue coinbaser cblen 512 1 0 hslack)
      simp only [List.getElem?_eq_getElem hpos, houtputs]
      rfl
  · intro p hp hlong
    rw [datumCoinbaserV2Parse, if_neg (not_lt.mpr hlong)] at hp
    simp only [Option.bind_eq_bind, Option.bind_eq_some_iff] at hp
    obtain ⟨datumId, hid, outputs, houtputs, hp⟩ := hp
    obtain rfl := Option.some.inj hp
    obtain ⟨⟨rest, hdrop⟩, hsized, hle⟩ := readOutputs_sound hupk houtputs
    refine ⟨datumId, rest, rfl, ?_, hsized, hle, fun htotal o ho => ?_, fun hvalues => ?_⟩
    · cases coinbaser with
      | nil => cases hid
      | cons b coinbaser =>
          obtain rfl := Option.some.inj hid
          rw [List.cons_append, ← hdrop]
          rfl
    · exact (List.single_le_sum (fun _ _ => Nat.zero_le _) _ (List.mem_map_of_mem ho)).trans htotal
    · have hsum := exactTotal_le_of_readOutputs hupk hbudget (Nat.zero_le _) houtputs hvalues
      simpa using hsum

theorem datumCoinbaserV2Parse_sound_shortMessage :
    ((24 : ℤ) + 72 ≤ ((7 :: List.replicate 99 0 : Bytes).length : ℤ) →
      (datumCoinbaserV2Parse leU64 10000 (some (7 :: List.replicate 99 0)) 24 true).isSome) ∧
    ∀ p, datumCoinbaserV2Parse leU64 10000 (some (7 :: List.replicate 99 0)) 24 true = some p →
      9 ≤ (24 : ℤ) → ∃ datumId rest, p.datumCoinbaserId = some datumId ∧
        (7 :: List.replicate 99 0 : Bytes) =
          datumId :: p.outputs.flatMap Output.encode ++ rest ∧
        (∀ o ∈ p.outputs, o.Sized) ∧ p.outputs.length ≤ 512 ∧
        (exactTotal p.outputs ≤ 10000 ↔ ∀ o ∈ p.outputs, o.value ≤ 10000) :=
  datumCoinbaserV2Parse_sound unpacksU64_leU64 (by decide) _ 24 true

-- The second value makes the sum wrap, and both outputs are kept.
example : (datumCoinbaserV2Parse leU64 10000 (some (7 :: ([⟨6000, [0x51, 0x51]⟩,
    ⟨0xFFFFFFFFFFFFFFFF, [0x00, 0x14]⟩] : List Output).flatMap Output.encode)) 23 true).map
      (fun p => p.outputs.map Output.value) = some [6000, 2 ^ 64 - 1] := by
  decide +kernel

end Gateway
