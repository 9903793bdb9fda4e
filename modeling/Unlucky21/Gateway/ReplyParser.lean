import Unlucky21.Gateway.RewardSocket

/-!
# The coinbase reply

The service answers a coinbase request with one line of JSON, written by Go's
`encoding/json`; the gateway reads it back with `strstr` and `strchr`. The two
do not share a grammar: the round trip holds for what the service really sends,
addresses without quotes, braces or underscores.
-/

namespace Gateway

open Wire CText Reward Int64Arith

/-! ## What the service writes -/

/-- One character inside a JSON string, as Go writes it. -/
def goJsonChar (c : Char) : Text :=
  if c = '"' then "\\\"".toList
  else if c = '\\' then "\\\\".toList
  else if c = '\x08' then "\\b".toList
  else if c = '\x0c' then "\\f".toList
  else if c = '\n' then "\\n".toList
  else if c = '\r' then "\\r".toList
  else if c = '\t' then "\\t".toList
  else if c.toNat < 0x20 ∨ c = '<' ∨ c = '>' ∨ c = '&' ∨ c.toNat = 0x2028 ∨ c.toNat = 0x2029 then
    "\\u".toList ++ printHex 4 c.toNat
  else [c]

def goJsonString (t : Text) : Text := '"' :: (t.flatMap goJsonChar ++ ['"'])

def marshalOutput (o : CoinbaseOutput) : Text :=
  "\x7b\"address\":".toList ++ goJsonString o.address ++ ",\"amount_sats\":".toList ++
    printInt o.amountSats ++ ['\x7d']

def marshalOutputs : List CoinbaseOutput → Text
  | [] => []
  | [o] => marshalOutput o
  | o :: outs => marshalOutput o ++ ',' :: marshalOutputs outs

/-- The line `handleCoinbase` sends. -/
def coinbaseResponse (outputs : List CoinbaseOutput) : Text :=
  "\x7b\"outputs\":[".toList ++ marshalOutputs outputs ++ "]\x7d\n".toList

/-- `handleCoinbase`: an error is answered with one output of -1. -/
def handleCoinbase (minerAddress : Text) (outputs : Except String (List CoinbaseOutput)) : Text :=
  match outputs with
  | .ok outputs => coinbaseResponse outputs
  | .error _ => coinbaseResponse [⟨minerAddress, -1⟩]

/-! ## What the gateway reads -/

structure RewardOutput where
  address : Text
  amountSats : ℤ
deriving DecidableEq, Repr

def isSeparator (c : Char) : Bool :=
  c == ' ' || c == '\t' || c == '\n' || c == '\r' || c == ','

/-- The objects of the array, at most `room` of them. -/
def parseObjects : ℕ → Text → Option (List RewardOutput)
  | 0, _ => some []
  | room + 1, p =>
      match p.dropWhile isSeparator with
      | [] => some []
      | ']' :: _ => some []
      | '\x7b' :: object => do
          let addrKey ← strstr "\"address\"".toList object
          let addrVal ← strchr '"' (addrKey.drop 9)
          let addrValEnd ← strchr '"' addrVal.tail
          let addrLen := addrVal.tail.length - addrValEnd.length
          if addrLen = 0 ∨ REWARD_ADDR_LEN ≤ addrLen then none
          else
            let satsKey ← strstr "\"amount_sats\"".toList object
            let colon ← strchr ':' (satsKey.drop 13)
            let satsVal := colon.tail.dropWhile fun c => c == ' ' || c == '\t'
            if satsVal = [] then none
            else
              let objectEnd ← strchr '\x7d' ('\x7b' :: object)
              let others ← parseObjects room objectEnd.tail
              some (⟨addrVal.tail.take addrLen, atoll satsVal⟩ :: others)
      | _ => none

def parseCoinbaseResponse (json : Text) : Option (List RewardOutput) := do
  let key ← strstr "\"outputs\"".toList json
  let bracket ← strchr '[' (key.drop 9)
  parseObjects REWARD_MAX_OUTPUTS bracket.tail

/-- At most as many outputs as there is room, each amount a 64-bit integer. -/
theorem parseObjects_bounds : ∀ {room : ℕ} {p : Text} {outs : List RewardOutput},
    parseObjects room p = some outs →
      outs.length ≤ room ∧ ∀ o ∈ outs, InRange o.amountSats := by
  intro room
  induction room with
  | zero =>
      intro p outs h
      obtain rfl := Option.some.inj h
      simp
  | succ room ih =>
      intro p outs h
      rw [parseObjects] at h
      split at h
      · obtain rfl := Option.some.inj h
        simp
      · obtain rfl := Option.some.inj h
        simp
      · simp only [Option.bind_eq_bind, Option.bind_eq_some_iff] at h
        obtain ⟨addrKey, -, addrVal, -, addrValEnd, -, h⟩ := h
        split at h
        · cases h
        · simp only [Option.bind_eq_some_iff] at h
          obtain ⟨satsKey, -, colon, -, h⟩ := h
          split at h
          · cases h
          · simp only [Option.bind_eq_some_iff] at h
            obtain ⟨objectEnd, -, others, hothers, h⟩ := h
            obtain rfl := Option.some.inj h
            obtain ⟨hlen, hrange⟩ := ih hothers
            refine ⟨by simpa using hlen, ?_⟩
            intro o ho
            rcases List.mem_cons.mp ho with rfl | ho
            · exact atoll_range _
            · exact hrange o ho
      · cases h

theorem parseCoinbaseResponse_bounds {json : Text} {outs : List RewardOutput}
    (h : parseCoinbaseResponse json = some outs) :
    outs.length ≤ REWARD_MAX_OUTPUTS ∧ ∀ o ∈ outs, InRange o.amountSats := by
  simp only [parseCoinbaseResponse, Option.bind_eq_bind, Option.bind_eq_some_iff] at h
  obtain ⟨key, -, bracket, -, h⟩ := h
  exact parseObjects_bounds h

/-! ## The round trip -/

/-- What an address may be, for the service and the gateway to agree on it. -/
structure PlainAddress (a : Text) : Prop where
  nonempty : a ≠ []
  short : a.length < REWARD_ADDR_LEN
  alphanumeric : ∀ c ∈ a, isAlphanumeric c = true

theorem plainAddress_of_isValidBtcAddress {a : Text} (h : isValidBtcAddress a = true) :
    PlainAddress a := by
  simp only [isValidBtcAddress, Bool.and_eq_true, decide_eq_true_eq, List.all_eq_true, ne_eq,
    List.length_eq_zero_iff] at h
  exact ⟨h.1.1, h.1.2, h.2⟩

/-- The characters with a meaning in JSON are not alphanumeric. -/
theorem ne_of_isAlphanumeric {c d : Char} (h : isAlphanumeric c = true)
    (hd : isAlphanumeric d = false) : c ≠ d := by
  rintro rfl
  rw [h] at hd
  cases hd

theorem PlainAddress.not_mem {a : Text} (h : PlainAddress a) {d : Char}
    (hd : isAlphanumeric d = false) : d ∉ a :=
  fun hmem => ne_of_isAlphanumeric (h.alphanumeric d hmem) hd rfl

theorem toNat_of_isAlphanumeric {c : Char} (h : isAlphanumeric c = true) :
    0x30 ≤ c.toNat ∧ c.toNat ≤ 0x7a := by
  simp only [isAlphanumeric, Bool.or_eq_true, Bool.and_eq_true, decide_eq_true_eq] at h
  have hle : ∀ {x y : Char}, x ≤ y → x.toNat ≤ y.toNat := fun h => UInt32.le_iff_toNat_le.mp h
  rcases h with (⟨h1, h2⟩ | ⟨h1, h2⟩) | ⟨h1, h2⟩
  · exact ⟨le_trans (by decide) (hle h1), (hle h2).trans (by decide)⟩
  · exact ⟨le_trans (by decide) (hle h1), (hle h2).trans (by decide)⟩
  · exact ⟨le_trans (by decide) (hle h1), (hle h2).trans (by decide)⟩

/-- Nothing in an address is escaped. -/
theorem goJsonString_plain {a : Text} (h : PlainAddress a) :
    goJsonString a = '"' :: (a ++ ['"']) := by
  have hchar : ∀ c ∈ a, goJsonChar c = [c] := by
    intro c hc
    have hal := h.alphanumeric c hc
    obtain ⟨hlo, hhi⟩ := toNat_of_isAlphanumeric hal
    have hne : ∀ d, isAlphanumeric d = false → c ≠ d := fun d hd => ne_of_isAlphanumeric hal hd
    have hlast : ¬ (c.toNat < 0x20 ∨ c = '<' ∨ c = '>' ∨ c = '&' ∨ c.toNat = 0x2028 ∨
        c.toNat = 0x2029) := by
      rintro (h | h | h | h | h | h)
      · omega
      · exact hne '<' (by decide) h
      · exact hne '>' (by decide) h
      · exact hne '&' (by decide) h
      · omega
      · omega
    rw [goJsonChar, if_neg (hne _ (by decide)), if_neg (hne _ (by decide)),
      if_neg (hne _ (by decide)), if_neg (hne _ (by decide)), if_neg (hne _ (by decide)),
      if_neg (hne _ (by decide)), if_neg (hne _ (by decide)), if_neg hlast]
  have hflat : a.flatMap goJsonChar = a := by
    rw [List.flatMap_congr hchar]
    simp
  rw [goJsonString, hflat]

/-- An address does not look like the name of the amount field. -/
theorem not_prefix_amountSats {a r : Text} (h : PlainAddress a) :
    ¬ "amount_sats\"".toList <+: a ++ '"' :: r := by
  rintro ⟨t, ht⟩
  have hquote : ∀ {l r : Text}, '"' ∉ l → (l ++ '"' :: r).takeWhile (· ≠ '"') = l := by
    intro l r hl
    rw [List.takeWhile_append_of_pos (by rintro c hc; simp; rintro rfl; exact hl hc)]
    simp
  have hname : ("amount_sats\"".toList ++ t).takeWhile (· ≠ '"') = "amount_sats".toList := by
    have hsplit : "amount_sats\"".toList ++ t = "amount_sats".toList ++ '"' :: t := rfl
    rw [hsplit]
    exact hquote (by decide)
  rw [ht, hquote (h.not_mem (by decide))] at hname
  exact h.not_mem (show isAlphanumeric '_' = false by decide) (hname ▸ by decide)

/-! The texts between the values, in the pieces the scanner sees. -/

theorem addressKey_eq : "\"address\":\"".toList = "\"address\"".toList ++ [':', '"'] := rfl

theorem addressName_eq : "\"address\"".toList = '"' :: ("address".toList ++ ['"']) := rfl

theorem openAddress_eq : "\x7b\"address\":".toList ++ ['"'] = '\x7b' :: "\"address\":\"".toList := rfl

theorem closeAddress_eq : "\",\"amount_sats\":".toList = '"' :: ",\"amount_sats\":".toList := rfl

theorem amountName_eq : "\"amount_sats\"".toList = '"' :: "amount_sats\"".toList := rfl

theorem amountKey_eq :
    "\",\"amount_sats\":".toList = '"' :: ',' :: ("\"amount_sats\"".toList ++ [':']) := rfl

/-- The name of the amount field is found past the address, not inside it. -/
theorem strstr_amountSats {a r : Text} (h : PlainAddress a) :
    strstr "\"amount_sats\"".toList
      ("\"address\":\"".toList ++ (a ++ ("\",\"amount_sats\":".toList ++ r))) =
    some ("\"amount_sats\"".toList ++ (':' :: r)) := by
  have hname : "amount_sats\"".toList = 'a' :: 'm' :: "ount_sats\"".toList := rfl
  have haddress : "address".toList = 'a' :: "ddress".toList := rfl
  have hfirst : ∀ t : Text, ¬ "amount_sats\"".toList <+: "address".toList ++ t := by
    intro t hp
    rw [hname, haddress, List.cons_append, List.cons_prefix_cons] at hp
    have hd : "ddress".toList = 'd' :: "dress".toList := rfl
    rw [hd, List.cons_append, List.cons_prefix_cons] at hp
    exact absurd hp.2.1 (by decide)
  have hcolon : ∀ t : Text, ¬ "amount_sats\"".toList <+: [':'] ++ t := by
    intro t hp
    rw [hname, List.singleton_append, List.cons_prefix_cons] at hp
    exact absurd hp.1 (by decide)
  have hcomma : ∀ t : Text, ¬ "amount_sats\"".toList <+: [','] ++ t := by
    intro t hp
    rw [hname, List.singleton_append, List.cons_prefix_cons] at hp
    exact absurd hp.1 (by decide)
  calc strstr "\"amount_sats\"".toList
        ("\"address\":\"".toList ++ (a ++ ("\",\"amount_sats\":".toList ++ r)))
      = strstr ('"' :: "amount_sats\"".toList) ('"' :: ("address".toList ++ ('"' :: ([':'] ++
          ('"' :: (a ++ ('"' :: ([','] ++ ("\"amount_sats\"".toList ++ (':' :: r)))))))))) := by
        rw [addressKey_eq, addressName_eq, amountKey_eq]
        simp only [amountName_eq, List.cons_append, List.append_assoc, List.nil_append]
    _ = strstr ('"' :: "amount_sats\"".toList) ("\"amount_sats\"".toList ++ (':' :: r)) := by
        rw [strstr_mismatch (hfirst _), strstr_skips (by decide),
          strstr_mismatch (hcolon _), strstr_skips (by decide),
          strstr_mismatch (not_prefix_amountSats h), strstr_skips (h.not_mem (by decide)),
          strstr_mismatch (hcomma _), strstr_skips (by decide)]
    _ = some ("\"amount_sats\"".toList ++ (':' :: r)) := by
        rw [← amountName_eq, strstr_append_self]

theorem marshalOutput_plain {o : CoinbaseOutput} (h : PlainAddress o.address) :
    marshalOutput o = '\x7b' :: ("\"address\":\"".toList ++ (o.address ++
      ("\",\"amount_sats\":".toList ++ (printInt o.amountSats ++ ['\x7d'])))) := by
  calc marshalOutput o
      = ("\x7b\"address\":".toList ++ ['"']) ++ (o.address ++ ('"' :: ",\"amount_sats\":".toList ++
          (printInt o.amountSats ++ ['\x7d']))) := by
        unfold marshalOutput
        rw [goJsonString_plain h]
        simp only [List.append_assoc, List.cons_append, List.nil_append]
    _ = '\x7b' :: ("\"address\":\"".toList ++ (o.address ++
          ("\",\"amount_sats\":".toList ++ (printInt o.amountSats ++ ['\x7d'])))) := by
        rw [openAddress_eq, ← closeAddress_eq, List.cons_append]

theorem not_mem_printInt {c : Char} (hminus : c ≠ '-') (hdigit : c.isDigit = false) (z : ℤ) :
    c ∉ printInt z := by
  have hmem : ∀ n, c ∉ Nat.toDigits 10 n := by
    intro n h
    rw [isDigit_of_mem_toDigits h] at hdigit
    cases hdigit
  cases z with
  | ofNat n => exact hmem n
  | negSucc n =>
      intro h
      rcases List.mem_cons.mp h with h | h
      · exact hminus h
      · exact hmem _ h

theorem dropWhile_printInt (z : ℤ) (r : Text) :
    (printInt z ++ r).dropWhile (fun c => c == ' ' || c == '\t') = printInt z ++ r := by
  have hne : ∀ d : Char, d ≠ '-' → d.isDigit = false → d ∉ printInt z :=
    fun d hd hdigit => not_mem_printInt hd hdigit z
  have hspace := hne ' ' (by decide) (by decide)
  have htab := hne '\t' (by decide) (by decide)
  cases hz : printInt z with
  | nil =>
      cases z with
      | ofNat n => exact absurd hz (List.length_pos_iff.mp Nat.length_toDigits_pos)
      | negSucc n => cases hz
  | cons c t =>
      rw [hz, List.mem_cons, not_or] at hspace htab
      simp [Ne.symm hspace.1, Ne.symm htab.1]

theorem printInt_ne_nil (z : ℤ) : printInt z ≠ [] := by
  cases z with
  | ofNat n => exact List.length_pos_iff.mp Nat.length_toDigits_pos
  | negSucc n => exact List.cons_ne_nil _ _

/-- The object at the front, from where its fields are found. -/
theorem parseObjects_object {p object addrKey addrVal addrEnd satsKey colon objectEnd : Text}
    (room : ℕ) (hskip : p.dropWhile isSeparator = '\x7b' :: object)
    (haddrKey : strstr "\"address\"".toList object = some addrKey)
    (haddrVal : strchr '"' (addrKey.drop 9) = some addrVal)
    (haddrEnd : strchr '"' addrVal.tail = some addrEnd)
    (hlen_pos : addrVal.tail.length - addrEnd.length ≠ 0)
    (hlen_lt : addrVal.tail.length - addrEnd.length < REWARD_ADDR_LEN)
    (hsatsKey : strstr "\"amount_sats\"".toList object = some satsKey)
    (hcolon : strchr ':' (satsKey.drop 13) = some colon)
    (hsats : colon.tail.dropWhile (fun c => c == ' ' || c == '\t') ≠ [])
    (hend : strchr '\x7d' ('\x7b' :: object) = some objectEnd) :
    parseObjects (room + 1) p = (parseObjects room objectEnd.tail).map
      (⟨addrVal.tail.take (addrVal.tail.length - addrEnd.length),
        atoll (colon.tail.dropWhile fun c => c == ' ' || c == '\t')⟩ :: ·) := by
  have hlen : ¬ (addrVal.tail.length - addrEnd.length = 0 ∨
      REWARD_ADDR_LEN ≤ addrVal.tail.length - addrEnd.length) := by
    rintro (h | h)
    · exact hlen_pos h
    · exact absurd hlen_lt (not_lt.mpr h)
  conv_lhs => unfold parseObjects
  simp only [hskip, Option.bind_eq_bind, haddrKey, Option.bind_some, haddrVal, haddrEnd,
    if_neg hlen, hsatsKey, hcolon, if_neg hsats, hend]
  cases parseObjects room objectEnd.tail <;> rfl

/-- One object is read back; what is left is the text behind its brace. -/
theorem parseObjects_marshalOutput {o : CoinbaseOutput} (h : PlainAddress o.address)
    (hrange : InRange o.amountSats) (room : ℕ) (tail : Text) :
    parseObjects (room + 1) (marshalOutput o ++ tail) =
      (parseObjects room tail).map (⟨o.address, o.amountSats⟩ :: ·) := by
  set a := o.address with ha
  set v := printInt o.amountSats ++ '\x7d' :: tail with hv
  have hquote : '"' ∉ a := h.not_mem (by decide)
  have hbrace : '\x7d' ∉ a := h.not_mem (by decide)
  have hobject : marshalOutput o ++ tail =
      '\x7b' :: ("\"address\":\"".toList ++ (a ++ ("\",\"amount_sats\":".toList ++ v))) := by
    rw [marshalOutput_plain h]
    simp only [← ha, hv, List.append_assoc, List.cons_append, List.nil_append]
  -- from here the parser is followed search by search
  have hskip : (marshalOutput o ++ tail).dropWhile isSeparator =
      '\x7b' :: ("\"address\":\"".toList ++ (a ++ ("\",\"amount_sats\":".toList ++ v))) := by
    rw [hobject, List.dropWhile_cons_of_neg (by decide)]
  have haddrKey : strstr "\"address\"".toList
      ("\"address\":\"".toList ++ (a ++ ("\",\"amount_sats\":".toList ++ v))) =
      some ("\"address\"".toList ++ (':' :: '"' :: (a ++ ("\",\"amount_sats\":".toList ++ v)))) := by
    rw [addressKey_eq, List.append_assoc]
    exact strstr_append_self "\"address\"".toList _
  have haddrDrop : ("\"address\"".toList ++ (':' :: '"' :: (a ++
      ("\",\"amount_sats\":".toList ++ v)))).drop 9 =
      ':' :: '"' :: (a ++ ("\",\"amount_sats\":".toList ++ v)) := List.drop_left' rfl
  have haddrVal : strchr '"' (("\"address\"".toList ++ (':' :: '"' :: (a ++
      ("\",\"amount_sats\":".toList ++ v)))).drop 9) =
      some ('"' :: (a ++ ("\",\"amount_sats\":".toList ++ v))) := by
    rw [haddrDrop]
    exact strchr_append (t := [':']) (by decide)
  have haddrEnd : strchr '"' (a ++ ("\",\"amount_sats\":".toList ++ v)) =
      some ("\",\"amount_sats\":".toList ++ v) := by
    rw [amountKey_eq]
    exact strchr_append hquote
  have hsatsDrop : ("\"amount_sats\"".toList ++ ':' :: v).drop 13 = ':' :: v :=
    List.drop_left' rfl
  have hcolon : strchr ':' (("\"amount_sats\"".toList ++ ':' :: v).drop 13) = some (':' :: v) := by
    rw [hsatsDrop]
    exact strchr_append List.not_mem_nil
  have hsats : v.dropWhile (fun c => c == ' ' || c == '\t') = v := dropWhile_printInt _ _
  have hsats_ne : v.dropWhile (fun c => c == ' ' || c == '\t') ≠ [] := by
    rw [hsats]
    exact List.append_ne_nil_of_left_ne_nil (printInt_ne_nil _) _
  have hatoll : atoll v = o.amountSats := by
    refine atoll_printInt_append hrange.1 hrange.2 ?_
    intro c hc
    obtain rfl : '\x7d' = c := by simpa using hc
    decide
  -- the closing brace is searched from the opening one, over the address and the number
  have hend : strchr '\x7d' ('\x7b' :: ("\"address\":\"".toList ++ (a ++
      ("\",\"amount_sats\":".toList ++ v)))) = some ('\x7d' :: tail) := by
    have hsplit : '\x7b' :: ("\"address\":\"".toList ++ (a ++ ("\",\"amount_sats\":".toList ++ v))) =
        ('\x7b' :: ("\"address\":\"".toList ++ (a ++ ("\",\"amount_sats\":".toList ++
          printInt o.amountSats)))) ++ '\x7d' :: tail := by
      simp only [hv, List.append_assoc, List.cons_append]
    rw [hsplit]
    refine strchr_append ?_
    simp only [List.mem_cons, List.mem_append, not_or]
    exact ⟨by decide, by decide, hbrace, by decide, not_mem_printInt (by decide) (by decide) _⟩
  -- the code takes the length of the address as the difference of two pointers
  have hlength : (a ++ ("\",\"amount_sats\":".toList ++ v)).length -
      ("\",\"amount_sats\":".toList ++ v).length = a.length := by
    simp
  have hlen_pos : (a ++ ("\",\"amount_sats\":".toList ++ v)).length -
      ("\",\"amount_sats\":".toList ++ v).length ≠ 0 := by
    rw [hlength]
    exact fun h0 => h.nonempty (List.length_eq_zero_iff.mp h0)
  have hlen_lt : (a ++ ("\",\"amount_sats\":".toList ++ v)).length -
      ("\",\"amount_sats\":".toList ++ v).length < REWARD_ADDR_LEN := by
    rw [hlength]
    exact h.short
  have hobject := parseObjects_object room hskip haddrKey haddrVal haddrEnd hlen_pos hlen_lt
    (strstr_amountSats h) hcolon hsats_ne hend
  rw [hobject, List.tail_cons, List.tail_cons, List.tail_cons, hsats, hatoll, hlength,
    List.take_left]

theorem parseObjects_separator (room : ℕ) (tail : Text) :
    parseObjects (room + 1) (',' :: tail) = parseObjects (room + 1) tail := by
  rw [parseObjects, parseObjects]
  rfl

/-- The address and the amount of an output, as the gateway keeps them. -/
def rewardOutput (o : CoinbaseOutput) : RewardOutput := ⟨o.address, o.amountSats⟩

theorem parseObjects_marshalOutputs {tail : Text} : ∀ {outputs : List CoinbaseOutput} {room : ℕ},
    outputs.length ≤ room → (∀ o ∈ outputs, PlainAddress o.address ∧ InRange o.amountSats) →
      parseObjects room (marshalOutputs outputs ++ ']' :: tail) =
        some (outputs.map rewardOutput) := by
  intro outputs
  induction outputs with
  | nil =>
      intro room _ _
      cases room <;> rfl
  | cons o outputs ih =>
      intro room hlen hplain
      obtain ⟨ho, houtputs⟩ := List.forall_mem_cons.mp hplain
      cases room with
      | zero => cases hlen
      | succ room =>
          rw [List.length_cons, Nat.add_le_add_iff_right] at hlen
          cases outputs with
          | nil =>
              have hclose : parseObjects room (']' :: tail) = some [] := by
                cases room <;> rfl
              rw [marshalOutputs, parseObjects_marshalOutput ho.1 ho.2, hclose]
              rfl
          | cons o' outputs =>
              obtain ⟨room, rfl⟩ : ∃ room', room = room' + 1 :=
                Nat.exists_eq_add_one_of_ne_zero (by rintro rfl; cases hlen)
              rw [marshalOutputs, List.append_assoc, List.cons_append,
                parseObjects_marshalOutput ho.1 ho.2, parseObjects_separator, ih hlen houtputs]
              · rfl
              · exact List.cons_ne_nil _ _

/-- How every reply starts. -/
def replyOpening : Text := "\x7b\"outputs\":[".toList

theorem parseCoinbaseResponse_opening (text : Text) :
    parseCoinbaseResponse (replyOpening ++ text) = parseObjects REWARD_MAX_OUTPUTS text := by
  have hopen : replyOpening ++ text = '\x7b' :: ("\"outputs\"".toList ++ (':' :: '[' :: text)) := rfl
  have hname : "\"outputs\"".toList = '"' :: "outputs\"".toList := rfl
  have hkey : strstr "\"outputs\"".toList (replyOpening ++ text) =
      some ("\"outputs\"".toList ++ (':' :: '[' :: text)) := by
    rw [hopen, hname, strstr_skip (by decide), strstr_append_self]
  have hdrop : ("\"outputs\"".toList ++ (':' :: '[' :: text)).drop 9 = ':' :: '[' :: text :=
    List.drop_left' rfl
  have hbracket : strchr '[' (':' :: '[' :: text) = some ('[' :: text) :=
    strchr_append (t := [':']) (by decide)
  unfold parseCoinbaseResponse
  rw [hkey, Option.bind_eq_bind, Option.bind_some, hdrop, hbracket, Option.bind_some, List.tail_cons]

/-- **Round trip.** What the service writes, the gateway reads back. -/
theorem parseCoinbaseResponse_coinbaseResponse {outputs : List CoinbaseOutput}
    (hlen : outputs.length ≤ REWARD_MAX_OUTPUTS)
    (hplain : ∀ o ∈ outputs, PlainAddress o.address ∧ InRange o.amountSats) :
    parseCoinbaseResponse (coinbaseResponse outputs) = some (outputs.map rewardOutput) := by
  have hclose : "]\x7d\n".toList = ']' :: '\x7d' :: "\n".toList := rfl
  have hresponse : coinbaseResponse outputs =
      replyOpening ++ (marshalOutputs outputs ++ ']' :: '\x7d' :: "\n".toList) := by
    unfold coinbaseResponse
    rw [hclose, List.append_assoc]
    rfl
  rw [hresponse, parseCoinbaseResponse_opening]
  exact parseObjects_marshalOutputs hlen hplain

/-! ## The exchange -/

def RESPONSE_BUF_SIZE : ℕ := 16384

def coinbaseRequest (minerAddress : Text) (feesSats : ℤ) : Text :=
  "\x7b\"type\":\"coinbase\",\"miner_address\":\"".toList ++ minerAddress ++
    "\",\"fees_sats\":".toList ++ printInt feesSats ++ "\x7d\n".toList

/-- `datum_request_coinbase_outputs`. The service answers the two fields of
the request with a line, or the socket fails. -/
def datumRequestCoinbaseOutputs (service : Text → ℤ → Option Text) (minerAddress : Text)
    (feesSats : ℤ) : Option (List RewardOutput) :=
  if isValidBtcAddress minerAddress = true ∧ (coinbaseRequest minerAddress feesSats).length < 256
  then do
    let response ← service minerAddress feesSats
    if response = [] then none
    else parseCoinbaseResponse (cstr (response.take (RESPONSE_BUF_SIZE - 1)))
  else none

theorem datumRequestCoinbaseOutputs_bounds {service : Text → ℤ → Option Text} {miner : Text}
    {fees : ℤ} {outs : List RewardOutput}
    (h : datumRequestCoinbaseOutputs service miner fees = some outs) :
    outs.length ≤ REWARD_MAX_OUTPUTS ∧ ∀ o ∈ outs, InRange o.amountSats := by
  unfold datumRequestCoinbaseOutputs at h
  split at h
  · obtain ⟨response, -, h⟩ := Option.bind_eq_some_iff.mp h
    split at h
    · cases h
    · exact parseCoinbaseResponse_bounds h
  · cases h

/-! A 64-bit integer takes at most 20 characters, so that neither the request
nor a reply of plain outputs outgrows its buffer. -/

theorem length_printInt_le {z : ℤ} (h : InRange z) : (printInt z).length ≤ 20 := by
  have hdigits : ∀ n : ℕ, n < 10 ^ 19 → (Nat.toDigits 10 n).length ≤ 19 := fun n hn =>
    (Nat.length_toDigits_le_iff (by norm_num) (by norm_num)).mpr hn
  unfold InRange at h
  cases z with
  | ofNat n =>
      have hn : (n : ℤ) < 2 ^ 63 := h.2
      have := hdigits n (by omega)
      simp only [printInt]
      omega
  | negSucc n =>
      have hn : -2 ^ 63 ≤ Int.negSucc n := h.1
      have := hdigits (n + 1) (by omega)
      simp only [printInt, List.length_cons]
      omega

theorem length_marshalOutput_le {o : CoinbaseOutput} (h : PlainAddress o.address)
    (hrange : InRange o.amountSats) : (marshalOutput o).length ≤ 139 := by
  have haddress := h.short
  have hamount := length_printInt_le hrange
  have hopen : "\"address\":\"".toList.length = 11 := rfl
  have hclose : "\",\"amount_sats\":".toList.length = 16 := rfl
  unfold REWARD_ADDR_LEN at haddress
  rw [marshalOutput_plain h]
  simp only [List.length_cons, List.length_append, List.length_nil, hopen, hclose]
  omega

theorem length_marshalOutputs_le : ∀ {outputs : List CoinbaseOutput},
    (∀ o ∈ outputs, PlainAddress o.address ∧ InRange o.amountSats) →
      (marshalOutputs outputs).length ≤ 140 * outputs.length
  | [], _ => by simp [marshalOutputs]
  | [o], h => by
      have ho := h o List.mem_cons_self
      have := length_marshalOutput_le ho.1 ho.2
      rw [marshalOutputs, List.length_singleton]
      omega
  | o :: o' :: outputs, h => by
      obtain ⟨ho, h'⟩ := List.forall_mem_cons.mp h
      have hhead := length_marshalOutput_le ho.1 ho.2
      have htail := length_marshalOutputs_le h'
      rw [marshalOutputs, List.length_append, List.length_cons, List.length_cons]
      · omega
      · exact List.cons_ne_nil _ _

theorem nul_not_mem_marshalOutput {o : CoinbaseOutput} (h : PlainAddress o.address) :
    NUL ∉ marshalOutput o := by
  rw [marshalOutput_plain h]
  simp only [List.mem_cons, List.mem_append, not_or]
  exact ⟨by decide, by decide, h.not_mem (by decide), by decide,
    not_mem_printInt (by decide) (by decide) _, by decide, List.not_mem_nil⟩

theorem nul_not_mem_marshalOutputs : ∀ {outputs : List CoinbaseOutput},
    (∀ o ∈ outputs, PlainAddress o.address) → NUL ∉ marshalOutputs outputs
  | [], _ => List.not_mem_nil
  | [o], h => nul_not_mem_marshalOutput (h o List.mem_cons_self)
  | o :: o' :: outputs, h => by
      obtain ⟨ho, h'⟩ := List.forall_mem_cons.mp h
      rw [marshalOutputs, List.mem_append, List.mem_cons]
      · rintro (h1 | h1 | h1)
        · exact nul_not_mem_marshalOutput ho h1
        · exact absurd h1 (by decide)
        · exact nul_not_mem_marshalOutputs h' h1
      · exact List.cons_ne_nil _ _

theorem length_coinbaseRequest_lt {miner : Text} {fees : ℤ} (hminer : PlainAddress miner)
    (hfees : InRange fees) : (coinbaseRequest miner fees).length < 256 := by
  have haddress := hminer.short
  have hamount := length_printInt_le hfees
  have hopen : "\x7b\"type\":\"coinbase\",\"miner_address\":\"".toList.length = 36 := rfl
  have hmid : "\",\"fees_sats\":".toList.length = 14 := rfl
  have hend : "\x7d\n".toList.length = 2 := rfl
  unfold REWARD_ADDR_LEN at haddress
  unfold coinbaseRequest
  simp only [List.length_append, hopen, hmid, hend]
  omega

/-- The reply fits the buffer it is read into. -/
theorem length_coinbaseResponse_lt {outputs : List CoinbaseOutput}
    (hlen : outputs.length ≤ REWARD_MAX_OUTPUTS)
    (hplain : ∀ o ∈ outputs, PlainAddress o.address ∧ InRange o.amountSats) :
    (coinbaseResponse outputs).length < RESPONSE_BUF_SIZE := by
  have houtputs := length_marshalOutputs_le hplain
  have hopen : "\x7b\"outputs\":[".toList.length = 12 := rfl
  have hend : "]\x7d\n".toList.length = 3 := rfl
  unfold REWARD_MAX_OUTPUTS at hlen
  unfold coinbaseResponse RESPONSE_BUF_SIZE
  simp only [List.length_append, hopen, hend]
  omega

/-- The reply of a service that answers with plain outputs. -/
theorem datumRequestCoinbaseOutputs_eq {service : Text → ℤ → Option Text} {miner : Text} {fees : ℤ}
    {outputs : List CoinbaseOutput} (hminer : PlainAddress miner) (hfees : InRange fees)
    (hservice : service miner fees = some (coinbaseResponse outputs))
    (hlen : outputs.length ≤ REWARD_MAX_OUTPUTS)
    (hplain : ∀ o ∈ outputs, PlainAddress o.address ∧ InRange o.amountSats) :
    datumRequestCoinbaseOutputs service miner fees = some (outputs.map rewardOutput) := by
  have hvalid : isValidBtcAddress miner = true := by
    simp only [isValidBtcAddress, Bool.and_eq_true, decide_eq_true_eq, List.all_eq_true, ne_eq,
      List.length_eq_zero_iff]
    exact ⟨⟨hminer.nonempty, hminer.short⟩, hminer.alphanumeric⟩
  have hrequest := length_coinbaseRequest_lt hminer hfees
  have hbuf : (coinbaseResponse outputs).length ≤ RESPONSE_BUF_SIZE - 1 :=
    Nat.le_sub_one_of_lt (length_coinbaseResponse_lt hlen hplain)
  have hnul : NUL ∉ coinbaseResponse outputs := by
    unfold coinbaseResponse
    simp only [List.mem_append, not_or]
    exact ⟨⟨by decide, nul_not_mem_marshalOutputs fun o ho => (hplain o ho).1⟩, by decide⟩
  have hne : coinbaseResponse outputs ≠ [] := by
    unfold coinbaseResponse
    exact List.append_ne_nil_of_right_ne_nil _ (by decide)
  rw [datumRequestCoinbaseOutputs, if_pos ⟨hvalid, hrequest⟩, hservice, Option.bind_eq_bind,
    Option.bind_some, if_neg hne, List.take_of_length_le hbuf, cstr_eq_self hnul]
  exact parseCoinbaseResponse_coinbaseResponse hlen hplain

end Gateway
