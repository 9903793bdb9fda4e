import Unlucky21.Gateway.ReplyParser

/-!
# The reply in the caller's struct

`parse_coinbase_response` does not return a list: it writes into an array of
30 structs, whose address fields may hold anything before, and writes also when
it fails later. A slot is written character by character; what counts is that
the text up to its NUL is the address and nothing else.
-/

namespace Gateway

open Wire CText Reward Int64Arith

/-! ## The loop with its array -/

/-- `reward_output_t`. -/
structure RewardSlot where
  address : Text
  amountSats : ℤ
  size : address.length = REWARD_ADDR_LEN

/-- `reward_output_list_t`. -/
structure RewardOutputList where
  outputs : List RewardSlot
  count : ℤ
  size : outputs.length = REWARD_MAX_OUTPUTS

theorem length_poke {buf t : Text} {i : ℕ} (h : i + t.length ≤ buf.length) :
    (poke buf i t).length = buf.length := by
  simp only [poke, List.length_append, List.takeD_length, List.length_drop]
  omega

/-- `strncpy` of a text without NUL, and the terminator behind it. -/
def RewardSlot.storeAddress (slot : RewardSlot) (addr : Text) (h : addr.length < REWARD_ADDR_LEN) :
    RewardSlot where
  address := poke (poke slot.address 0 addr) addr.length [NUL]
  amountSats := slot.amountSats
  size := by
    have hsize := slot.size
    have hcopy : (poke slot.address 0 addr).length = slot.address.length :=
      length_poke (by omega)
    rw [length_poke (by rw [hcopy, List.length_singleton]; omega), hcopy, hsize]

def RewardSlot.store (slot : RewardSlot) (addr : Text) (h : addr.length < REWARD_ADDR_LEN)
    (amount : ℤ) : RewardSlot :=
  { slot.storeAddress addr h with amountSats := amount }

/-- The searches for the address, up to the check of its length. -/
def addressField (object : Text) : Option {addr : Text // addr.length < REWARD_ADDR_LEN} := do
  let addrKey ← strstr "\"address\"".toList object
  let addrVal ← strchr '"' (addrKey.drop 9)
  let addrValEnd ← strchr '"' addrVal.tail
  let addrLen := addrVal.tail.length - addrValEnd.length
  if h : addrLen = 0 ∨ REWARD_ADDR_LEN ≤ addrLen then none
  else some ⟨addrVal.tail.take addrLen, by
    have := List.length_take_le addrLen addrVal.tail
    omega⟩

/-- The searches for the amount. -/
def amountField (object : Text) : Option ℤ := do
  let satsKey ← strstr "\"amount_sats\"".toList object
  let colon ← strchr ':' (satsKey.drop 13)
  let satsVal := colon.tail.dropWhile fun c => c == ' ' || c == '\t'
  if satsVal = [] then none else some (atoll satsVal)

/-- The loop from the object of index `count` on: the return value, without a
value for -1, and the array as it is left. -/
def fillObjects : ℕ → Text → ℕ → List RewardSlot → Option ℕ × List RewardSlot
  | 0, _, count, slots => (some count, slots)
  | room + 1, p, count, slots =>
      match p.dropWhile isSeparator with
      | [] => (some count, slots)
      | ']' :: _ => (some count, slots)
      | '\x7b' :: object =>
          match addressField object with
          | none => (none, slots)
          | some addr =>
              match amountField object with
              | none => (none, slots.modify count fun slot => slot.storeAddress addr.1 addr.2)
              | some amount =>
                  match strchr '\x7d' ('\x7b' :: object) with
                  | none => (none, slots.modify count fun slot => slot.store addr.1 addr.2 amount)
                  | some objectEnd =>
                      fillObjects room objectEnd.tail (count + 1)
                        (slots.modify count fun slot => slot.store addr.1 addr.2 amount)
      | _ => (none, slots)

theorem length_fillObjects (room : ℕ) (p : Text) (count : ℕ) (slots : List RewardSlot) :
    (fillObjects room p count slots).2.length = slots.length := by
  fun_induction fillObjects room p count slots <;> simp_all

/-- `parse_coinbase_response`: the return value, and `result`. -/
def parseCoinbaseResponseInto (json : Text) (result : RewardOutputList) : ℤ × RewardOutputList :=
  match (strstr "\"outputs\"".toList json).bind fun key => strchr '[' (key.drop 9) with
  | none => (-1, result)
  | some bracket =>
      let filled := fillObjects REWARD_MAX_OUTPUTS bracket.tail 0 result.outputs
      let result := { result with
        outputs := filled.2
        size := by rw [length_fillObjects, result.size] }
      match filled.1 with
      | none => (-1, result)
      | some count => (count, { result with count := count })

/-! ## What the array holds -/

/-- The slot has the output: its text is the address, and what stood behind the
terminator stands there still. -/
structure RewardSlot.Holds (old new : RewardSlot) (o : RewardOutput) : Prop where
  address : new.address = o.address ++ NUL :: old.address.drop (o.address.length + 1)
  amountSats : new.amountSats = o.amountSats

theorem holds_store (slot : RewardSlot) {addr : Text} (h : addr.length < REWARD_ADDR_LEN)
    (amount : ℤ) : slot.Holds (slot.store addr h amount) ⟨addr, amount⟩ := by
  refine ⟨?_, rfl⟩
  have hcopy : poke slot.address 0 addr = addr ++ slot.address.drop addr.length := by
    simp [poke]
  show poke (poke slot.address 0 addr) addr.length [NUL] = _
  rw [hcopy, poke_append, List.drop_drop, List.append_assoc]
  rfl

/-- The outputs are in the slots from `count` on, and the other slots are as before. -/
structure Stores (outs : List RewardOutput) (count : ℕ) (slots slots' : List RewardSlot) : Prop where
  stored : ∀ i o, outs[i]? = some o → ∃ old new, slots[count + i]? = some old ∧
    slots'[count + i]? = some new ∧ old.Holds new o
  others : ∀ j, j < count ∨ count + outs.length ≤ j → slots'[j]? = slots[j]?

/-- One object, read by the scanner of lists. -/
theorem parseObjects_eq_bind {room : ℕ} {p object : Text}
    (h : p.dropWhile isSeparator = '\x7b' :: object) :
    parseObjects (room + 1) p = (addressField object).bind fun addr =>
      (amountField object).bind fun amount => (strchr '\x7d' ('\x7b' :: object)).bind fun objectEnd =>
        (parseObjects room objectEnd.tail).map (⟨addr.1, amount⟩ :: ·) := by
  rw [parseObjects, h]
  simp only [addressField, amountField, Option.bind_eq_bind, Option.bind_assoc]
  refine Option.bind_congr fun addrKey _ => Option.bind_congr fun addrVal _ =>
    Option.bind_congr fun addrValEnd _ => ?_
  split_ifs with hlen
  · rfl
  · simp only [Option.bind_some]
    refine Option.bind_congr fun satsKey _ => Option.bind_congr fun colon _ => ?_
    split_ifs with hsats
    · rfl
    · simp only [Option.bind_some]
      refine Option.bind_congr fun objectEnd _ => ?_
      cases parseObjects room objectEnd.tail <;> rfl

/-- What one round of the loop does when it does not fail: it stops, or reads an
object. -/
theorem parseObjects_cases {room : ℕ} {p : Text} {outs : List RewardOutput}
    (h : parseObjects (room + 1) p = some outs) :
    (outs = [] ∧ p.dropWhile isSeparator = []) ∨
    (outs = [] ∧ ∃ tail, p.dropWhile isSeparator = ']' :: tail) ∨
    ∃ object addr amount objectEnd others, p.dropWhile isSeparator = '\x7b' :: object ∧
      addressField object = some addr ∧ amountField object = some amount ∧
      strchr '\x7d' ('\x7b' :: object) = some objectEnd ∧
      parseObjects room objectEnd.tail = some others ∧ outs = ⟨addr.1, amount⟩ :: others := by
  cases hskip : p.dropWhile isSeparator with
  | nil =>
      rw [parseObjects, hskip] at h
      exact .inl ⟨(Option.some.inj h).symm, rfl⟩
  | cons c object =>
      by_cases hclose : c = ']'
      · subst hclose
        rw [parseObjects, hskip] at h
        exact .inr (.inl ⟨(Option.some.inj h).symm, object, rfl⟩)
      · by_cases hopen : c = '\x7b'
        · subst hopen
          rw [parseObjects_eq_bind hskip] at h
          obtain ⟨addr, haddr, h⟩ := Option.bind_eq_some_iff.mp h
          obtain ⟨amount, hamount, h⟩ := Option.bind_eq_some_iff.mp h
          obtain ⟨objectEnd, hend, h⟩ := Option.bind_eq_some_iff.mp h
          obtain ⟨others, hothers, rfl⟩ := Option.map_eq_some_iff.mp h
          exact .inr (.inr ⟨object, addr, amount, objectEnd, others, rfl, haddr, hamount, hend,
            hothers, rfl⟩)
        · rw [parseObjects, hskip] at h
          split at h <;> simp_all

/-- The loop counts the objects that the scanner lists, and fails where it fails. -/
theorem fillObjects_ret (room : ℕ) (p : Text) (count : ℕ) (slots : List RewardSlot) :
    (fillObjects room p count slots).1 = (parseObjects room p).map (count + ·.length) := by
  induction room generalizing p count slots with
  | zero => rfl
  | succ room ih =>
      cases hskip : p.dropWhile isSeparator with
      | nil =>
          rw [fillObjects, parseObjects, hskip]
          rfl
      | cons c object =>
          by_cases hclose : c = ']'
          · subst hclose
            rw [fillObjects, parseObjects, hskip]
            rfl
          · by_cases hopen : c = '\x7b'
            · subst hopen
              rw [parseObjects_eq_bind hskip, fillObjects, hskip]
              cases haddr : addressField object with
              | none => simp only [haddr]; rfl
              | some addr =>
                  cases hamount : amountField object with
                  | none => simp only [haddr, hamount]; rfl
                  | some amount =>
                      cases hend : strchr '\x7d' ('\x7b' :: object) with
                      | none => simp only [haddr, hamount, hend]; rfl
                      | some objectEnd =>
                          simp only [haddr, hamount, hend, ih, Option.bind_some, Option.map_map]
                          refine congrArg (Option.map · _) (funext fun others => ?_)
                          simp only [Function.comp_apply, List.length_cons]
                          omega
            · -- any other character is an error for both
              have hfill : fillObjects (room + 1) p count slots = (none, slots) := by
                rw [fillObjects, hskip]
                split <;> simp_all
              have hparse : parseObjects (room + 1) p = none := by
                rw [parseObjects, hskip]
                split <;> simp_all
              rw [hfill, hparse]
              rfl

/-- Each output of the list is in a slot of its own. -/
theorem fillObjects_stores {room : ℕ} {p : Text} {outs : List RewardOutput} {count : ℕ}
    {slots : List RewardSlot} (h : parseObjects room p = some outs)
    (hroom : count + room ≤ slots.length) :
    Stores outs count slots (fillObjects room p count slots).2 := by
  induction room generalizing p outs count slots with
  | zero =>
      obtain rfl := Option.some.inj h
      exact ⟨by simp, fun _ _ => rfl⟩
  | succ room ih =>
      rcases parseObjects_cases h with ⟨rfl, hskip⟩ | ⟨rfl, tail, hskip⟩ |
        ⟨object, addr, amount, objectEnd, others, hskip, haddr, hamount, hend, hothers, rfl⟩
      · rw [fillObjects, hskip]
        exact ⟨by simp, fun _ _ => rfl⟩
      · rw [fillObjects, hskip]
        exact ⟨by simp, fun _ _ => rfl⟩
      · have hcount : count < slots.length := by omega
        set slots' := slots.modify count fun slot => slot.store addr.1 addr.2 amount with hs
        have hroom' : count + 1 + room ≤ slots'.length := by
          rw [hs, List.length_modify]
          omega
        have hstores := ih hothers hroom'
        have hfill : fillObjects (room + 1) p count slots =
            fillObjects room objectEnd.tail (count + 1) slots' := by
          simp only [fillObjects, hskip, haddr, hamount, hend, hs]
        have hsame : ∀ j, j ≠ count → slots'[j]? = slots[j]? := fun j hj =>
          List.getElem?_modify_ne _ slots hj.symm
        rw [hfill]
        refine ⟨fun i o ho => ?_, fun j hj => ?_⟩
        · cases i with
          | zero =>
              obtain rfl : ⟨addr.1, amount⟩ = o := by simpa using ho
              have hnew : slots'[count]? = some (slots[count].store addr.1 addr.2 amount) := by
                rw [hs, List.getElem?_modify_eq, List.getElem?_eq_getElem hcount]
                rfl
              exact ⟨slots[count], _, List.getElem?_eq_getElem hcount,
                (hstores.others count (.inl count.lt_succ_self)).trans hnew,
                holds_store _ addr.2 amount⟩
          | succ i =>
              obtain ⟨old, new, hold, hnew, hholds⟩ := hstores.stored i o (by simpa using ho)
              have hidx : count + (i + 1) = count + 1 + i := by omega
              rw [hsame _ (by omega)] at hold
              exact ⟨old, new, hidx ▸ hold, hidx ▸ hnew, hholds⟩
        · rw [List.length_cons] at hj
          rw [hstores.others j (by omega), hsame j (by omega)]

/-- The return value is the number of outputs the scanner lists, or -1. -/
theorem parseCoinbaseResponseInto_ret (json : Text) (result : RewardOutputList) :
    (parseCoinbaseResponseInto json result).1 =
      ((parseCoinbaseResponse json).map fun outs => (outs.length : ℤ)).getD (-1) := by
  simp only [parseCoinbaseResponseInto, parseCoinbaseResponse, Option.bind_eq_bind]
  rw [← Option.bind_assoc]
  cases (strstr "\"outputs\"".toList json).bind fun key => strchr '[' (key.drop 9) with
  | none => rfl
  | some bracket =>
      simp only [Option.bind_some, fillObjects_ret]
      cases parseObjects REWARD_MAX_OUTPUTS bracket.tail with
      | none => rfl
      | some outs => simp

theorem parseCoinbaseResponseInto_of_some {json : Text} {outs : List RewardOutput}
    (h : parseCoinbaseResponse json = some outs) (result : RewardOutputList) :
    (parseCoinbaseResponseInto json result).1 = outs.length ∧
      (parseCoinbaseResponseInto json result).2.count = outs.length ∧
      Stores outs 0 result.outputs (parseCoinbaseResponseInto json result).2.outputs := by
  have hanswer := parseCoinbaseResponseInto_ret json result
  rw [h] at hanswer
  refine ⟨hanswer, ?_⟩
  simp only [parseCoinbaseResponse, Option.bind_eq_bind] at h
  rw [← Option.bind_assoc] at h
  obtain ⟨bracket, hbracket, hobjects⟩ := Option.bind_eq_some_iff.mp h
  have hroom : 0 + REWARD_MAX_OUTPUTS ≤ result.outputs.length := by rw [result.size, Nat.zero_add]
  have hret := fillObjects_ret REWARD_MAX_OUTPUTS bracket.tail 0 result.outputs
  rw [hobjects, Option.map_some, Nat.zero_add] at hret
  simp only [parseCoinbaseResponseInto, hbracket, hret]
  exact ⟨trivial, fillObjects_stores hobjects hroom⟩

/-! ## The round trip -/

/-- The struct after the call, given what it was before: one slot for each
output, with its address, the NUL and the amount; what a slot held behind, and
every other slot, is untouched. -/
structure ReadBack (outputs : List CoinbaseOutput) (result : RewardOutputList)
    (answer : ℤ × RewardOutputList) : Prop where
  ret : answer.1 = outputs.length
  count : answer.2.count = outputs.length
  slots : ∀ (i : ℕ) (o : CoinbaseOutput), outputs[i]? = some o → ∃ old new : RewardSlot,
    result.outputs[i]? = some old ∧ answer.2.outputs[i]? = some new ∧
      cstr new.address = o.address ∧ new.amountSats = o.amountSats ∧
      new.address = o.address ++ NUL :: old.address.drop (o.address.length + 1)
  others : ∀ i : ℕ, outputs.length ≤ i → answer.2.outputs[i]? = result.outputs[i]?

/-- **The reply round-trips.** The line fits the buffer, and the struct holds
what the service sent. -/
theorem reply_roundTrip (minerAddress : Text) (outputs : List CoinbaseOutput)
    (result : RewardOutputList) (hlen : outputs.length ≤ 30)
    (haddress : ∀ o ∈ outputs, 1 ≤ o.address.length ∧ o.address.length ≤ 90 ∧
      ∀ c ∈ o.address, isAlphanumeric c = true)
    (hamount : ∀ o ∈ outputs, -2 ^ 63 ≤ o.amountSats ∧ o.amountSats < 2 ^ 63) :
    (handleCoinbase minerAddress (.ok outputs)).length < RESPONSE_BUF_SIZE ∧
      ReadBack outputs result
        (parseCoinbaseResponseInto (handleCoinbase minerAddress (.ok outputs)) result) := by
  have hplain : ∀ o ∈ outputs, PlainAddress o.address ∧ InRange o.amountSats := by
    intro o ho
    obtain ⟨hpos, hshort, halnum⟩ := haddress o ho
    refine ⟨⟨List.ne_nil_of_length_pos hpos, ?_, halnum⟩, hamount o ho⟩
    unfold REWARD_ADDR_LEN
    omega
  have hreply : handleCoinbase minerAddress (.ok outputs) = coinbaseResponse outputs := rfl
  rw [hreply]
  obtain ⟨hret, hcount, hstores⟩ := parseCoinbaseResponseInto_of_some
    (parseCoinbaseResponse_coinbaseResponse hlen hplain) result
  rw [List.length_map] at hret hcount
  refine ⟨length_coinbaseResponse_lt hlen hplain, hret, hcount, fun i o ho => ?_, fun i hi => ?_⟩
  · obtain ⟨old, new, hold, hnew, hholds⟩ := hstores.stored i (rewardOutput o) (by simp [ho])
    rw [Nat.zero_add] at hold hnew
    refine ⟨old, new, hold, hnew, ?_, hholds.amountSats, hholds.address⟩
    have hnul : NUL ∉ o.address :=
      (hplain o (List.mem_of_getElem? ho)).1.not_mem (by decide)
    rw [hholds.address, cstr, List.takeWhile_append_of_pos]
    · simp [rewardOutput]
    · intro c hc
      simpa using fun h0 : c = NUL => hnul (h0 ▸ hc)
  · exact hstores.others i (.inr (by simpa using hi))

/-- Slots that are full of other characters. -/
def dirtyResult : RewardOutputList where
  outputs := List.replicate 30 ⟨List.replicate 91 'x', 7, rfl⟩
  count := 0
  size := rfl

def signedOutputs : List CoinbaseOutput := [⟨['a', '1'], -1⟩, ⟨['B'], 5⟩]

theorem reply_roundTrip_dirty :
    (handleCoinbase ['m'] (.ok signedOutputs)).length < RESPONSE_BUF_SIZE ∧
      ReadBack signedOutputs dirtyResult
        (parseCoinbaseResponseInto (handleCoinbase ['m'] (.ok signedOutputs)) dirtyResult) :=
  reply_roundTrip ['m'] signedOutputs dirtyResult (by decide)
    (by simpa [signedOutputs] using by decide) (by norm_num [signedOutputs])

end Gateway
