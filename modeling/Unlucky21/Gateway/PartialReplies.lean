import Unlucky21.Lib.Json
import Unlucky21.Gateway.ReplyBuffer

/-!
# Partial replies

A reply may be cut, or an object of it may lack a field. The scanner takes the
end of the text for the end of the array, and looks for a field until the text
ends; so it accepts some replies that are not complete. It accepts no other
where each search of it ends in what a parser of JSON finds there.
-/

namespace Gateway

open Wire CText Reward Int64Arith

/-! ## Complete replies -/

/-- The address and the amount are among the members of an object. -/
def completeObject (members : List (Text × Json.Value)) (o : RewardOutput) : Bool :=
  members.any (fun m => m.1 = "address".toList && m.2.isString o.address) &&
    members.any fun m => m.1 = "amount_sats".toList && m.2.isInteger o.amountSats

/-- The text behind complete objects for these outputs, with a comma between each
two of them and `commas` in front of the first. -/
def behindObjects : ℕ → Text → List RewardOutput → Option Text
  | _, text, [] => some text
  | commas, text, o :: outs =>
      if (text.takeWhile isSeparator).count ',' = commas then
        match Json.value (text.dropWhile isSeparator) with
        | some (.object members, tail) =>
            if completeObject members o then behindObjects 1 tail outs else none
        | _ => none
      else none

/-- The array ends here. -/
def closes (text : Text) : Bool :=
  (text.takeWhile isSeparator).count ',' = 0 && (text.dropWhile isSeparator).head? = some ']'

/-- From behind its bracket the array starts with complete objects for these
outputs. If there is room for more, it has no more. -/
def completeArray (text : Text) (outs : List RewardOutput) : Bool :=
  match behindObjects 0 text outs with
  | some rest => REWARD_MAX_OUTPUTS ≤ outs.length || closes rest
  | none => false

/-- Such an array is the value of a member `"outputs"`. -/
def completeReply (json : Text) (outs : List RewardOutput) : Bool :=
  (Json.names json.length json).any fun m => m.1 = "outputs".toList &&
    match Json.skipBlanks m.2 with
    | '[' :: text => completeArray text outs
    | _ => false

/-! ## Regular replies

The scanner searches for a name in quotes, and from there for the start of the
value. What it finds has to be where the member of that name has its value. -/

/-- The text from the first character `c` behind the quoted name on. -/
def searched (name : Text) (c : Char) (text : Text) : Option Text :=
  (strstr ('"' :: (name ++ ['"'])) text).bind fun key => strchr c (key.drop (name.length + 2))

/-- The members of an object, from behind its brace. -/
def ownMembers (object : Text) : List (Text × Text) := Json.memberTexts (object.length + 1) object

/-- The quote that is found opens the object's own address, which has no escapes. -/
def ownAddress (object : Text) : Bool :=
  match searched "address".toList '"' object with
  | some quote =>
      (ownMembers object).any (fun m => m.1 = "address".toList && Json.skipBlanks m.2 = quote) &&
        !(quote.tail.takeWhile (· ≠ '"')).contains '\\'
  | none => false

/-- The text starts with a number that C reads as what it is. -/
def plainInteger (text : Text) : Bool :=
  match Json.scanNumber (Json.skipBlanks text) with
  | some (literal, _) => Json.literalValue literal = atoll literal
  | none => false

/-- The colon that is found is the one of the object's own amount. -/
def ownAmount (object : Text) : Bool :=
  match searched "amount_sats".toList ':' object with
  | some colon => (ownMembers object).any fun m =>
      m.1 = "amount_sats".toList && m.2 = colon.tail && plainInteger m.2
  | none => false

/-- Object after object as the scanner goes, it finds each one's own fields and
its own closing brace, and then the bracket. Behind the last object that there is
room for it looks no further. -/
def unbroken : ℕ → ℕ → Text → Bool
  | 0, _, _ => true
  | room + 1, commas, p =>
      match p.dropWhile isSeparator with
      | ']' :: _ => (p.takeWhile isSeparator).count ',' = 0
      | '\x7b' :: object =>
          match Json.value ('\x7b' :: object) with
          | some (.object _, tail) =>
              (p.takeWhile isSeparator).count ',' = commas && ownAddress object &&
                ownAmount object && (room = 0 || strchr '\x7d' object = some ('\x7d' :: tail)) &&
                unbroken room 1 tail
          | _ => false
      -- also where the text ends
      | _ => false

/-- The bracket that is found opens the array of the member `"outputs"`. -/
def regularReply (json : Text) : Bool :=
  match searched "outputs".toList '[' json with
  | some bracket =>
      (Json.names json.length json).any (fun m =>
        m.1 = "outputs".toList && Json.skipBlanks m.2 = bracket) &&
        unbroken REWARD_MAX_OUTPUTS 0 bracket.tail
  | none => false

/-! ## One object -/

theorem addressField_eq_some {object : Text} {addr : {addr : Text // addr.length < REWARD_ADDR_LEN}}
    (h : addressField object = some addr) : ∃ addrVal addrEnd,
      searched "address".toList '"' object = some addrVal ∧ strchr '"' addrVal.tail = some addrEnd ∧
        addr.1 = addrVal.tail.take (addrVal.tail.length - addrEnd.length) := by
  simp only [addressField, Option.bind_eq_bind, Option.bind_eq_some_iff] at h
  obtain ⟨addrKey, hkey, addrVal, hval, addrEnd, hend, h⟩ := h
  by_cases hlen : addrVal.tail.length - addrEnd.length = 0 ∨
      REWARD_ADDR_LEN ≤ addrVal.tail.length - addrEnd.length
  · rw [dif_pos hlen] at h
    cases h
  · rw [dif_neg hlen] at h
    have haddr := congrArg Subtype.val (Option.some.inj h)
    exact ⟨addrVal, addrEnd, Option.bind_eq_some_iff.mpr ⟨addrKey, hkey, hval⟩, hend, haddr.symm⟩

theorem amountField_eq_some {object : Text} {amount : ℤ} (h : amountField object = some amount) :
    ∃ colon, searched "amount_sats".toList ':' object = some colon ∧ amount = atoll colon.tail := by
  simp only [amountField, Option.bind_eq_bind, Option.bind_eq_some_iff] at h
  obtain ⟨satsKey, hkey, colon, hcolon, h⟩ := h
  refine ⟨colon, Option.bind_eq_some_iff.mpr ⟨satsKey, hkey, hcolon⟩, ?_⟩
  split_ifs at h
  obtain rfl := Option.some.inj h
  refine (atoll_dropWhile (fun c hc => ?_) colon.tail)
  simp only [Bool.or_eq_true, beq_iff_eq] at hc
  rcases hc with rfl | rfl <;> decide

theorem isSpace_of_isBlank {c : Char} (h : Json.isBlank c = true) : isSpace c = true := by
  simp only [Json.isBlank, Bool.or_eq_true, beq_iff_eq] at h
  rcases h with ((rfl | rfl) | rfl) | rfl <;> decide

section Object

variable {object tail : Text} {members : List (Text × Json.Value)}

/-- The address that is found is the object's own. -/
theorem address_of_own (h : Json.value ('\x7b' :: object) = some (.object members, tail))
    (hown : ownAddress object = true)
    {addr : {addr : Text // addr.length < REWARD_ADDR_LEN}} (haddr : addressField object = some addr) :
    ("address".toList, .string addr.1) ∈ members := by
  obtain ⟨quote, addrEnd, hquote, hend, haddr⟩ := addressField_eq_some haddr
  simp only [ownAddress, hquote, Bool.and_eq_true, List.any_eq_true, decide_eq_true_eq,
    Bool.not_eq_true', List.contains_eq_mem, decide_eq_false_iff_not] at hown
  obtain ⟨⟨m, hm, hname, hskip⟩, hplain⟩ := hown
  obtain ⟨fuel, v, rest, hv, -, hmem⟩ := Json.parseValue_memberTexts h hm
  obtain ⟨text, rfl⟩ : ∃ text, quote = '"' :: text := by
    obtain ⟨key, -, hkey⟩ := Option.bind_eq_some_iff.mp hquote
    obtain ⟨-, text, -, -, hcons⟩ := exists_of_strchr hkey
    exact ⟨text, hcons⟩
  cases fuel with
  | zero =>
      rw [Json.parseValue] at hv
      cases hv
  | succ fuel =>
      rw [Json.parseValue, hskip] at hv
      obtain ⟨q, hq, hstring⟩ := Option.map_eq_some_iff.mp hv
      obtain rfl : Json.Value.string q.1 = v := (Prod.ext_iff.mp hstring).1
      obtain ⟨rfl, hnot⟩ : text = q.1 ++ '"' :: q.2 ∧ '"' ∉ q.1 :=
        Json.scanString_unescaped hplain hq
      rw [List.tail_cons, strchr_append hnot] at hend
      have hfound : addr.1 = q.1 := by
        rw [haddr, List.tail_cons, ← Option.some.inj hend, List.length_append,
          Nat.add_sub_cancel, List.take_left]
      rw [hfound, ← hname]
      exact hmem

/-- The amount that is found is the object's own. -/
theorem amount_of_own (h : Json.value ('\x7b' :: object) = some (.object members, tail))
    (hown : ownAmount object = true) {amount : ℤ} (hamount : amountField object = some amount) :
    ∃ literal, ("amount_sats".toList, .number literal) ∈ members ∧
      Json.literalValue literal = amount := by
  obtain ⟨colon, hcolon, rfl⟩ := amountField_eq_some hamount
  simp only [ownAmount, hcolon, List.any_eq_true, Bool.and_eq_true, decide_eq_true_eq] at hown
  obtain ⟨m, hm, ⟨hname, htext⟩, hplain⟩ := hown
  obtain ⟨fuel, v, rest, hv, hends, hmem⟩ := Json.parseValue_memberTexts h hm
  rw [plainInteger] at hplain
  split at hplain
  next literal rest' hscan =>
    cases fuel with
    | zero =>
        rw [Json.parseValue] at hv
        cases hv
    | succ fuel =>
        rw [Json.parseValue_of_scanNumber hscan] at hv
        obtain ⟨rfl, rfl⟩ := Prod.ext_iff.mp (Option.some.inj hv)
        refine ⟨literal, hname ▸ hmem, ?_⟩
        rw [of_decide_eq_true hplain, ← Json.atoll_of_scanNumber hscan hends.head, ← htext,
          Json.skipBlanks, atoll_dropWhile fun c hc => isSpace_of_isBlank hc]
  next => cases hplain

theorem completeObject_of_own (h : Json.value ('\x7b' :: object) = some (.object members, tail))
    (haddress : ownAddress object = true) (hown : ownAmount object = true)
    {addr : {addr : Text // addr.length < REWARD_ADDR_LEN}} (haddr : addressField object = some addr)
    {amount : ℤ} (hamount : amountField object = some amount) :
    completeObject members ⟨addr.1, amount⟩ = true := by
  obtain ⟨literal, hmem, hvalue⟩ := amount_of_own h hown hamount
  rw [completeObject, Bool.and_eq_true, List.any_eq_true, List.any_eq_true]
  exact ⟨⟨_, address_of_own h haddress haddr, by simp [Json.Value.isString]⟩,
    ⟨_, hmem, by simp [Json.Value.isInteger, hvalue]⟩⟩

end Object

/-! ## The walk over the array -/

/-- **Step.** One object, and the text behind it. -/
theorem behindObjects_cons {commas : ℕ} {p object tail : Text} {o : RewardOutput}
    {outs : List RewardOutput} {members : List (Text × Json.Value)}
    (hskip : p.dropWhile isSeparator = '\x7b' :: object)
    (hcount : (p.takeWhile isSeparator).count ',' = commas)
    (hvalue : Json.value ('\x7b' :: object) = some (.object members, tail))
    (hobject : completeObject members o = true) :
    behindObjects commas p (o :: outs) = behindObjects 1 tail outs := by
  rw [behindObjects, if_pos hcount, hskip, hvalue]
  simp only [hobject, if_true]

/-- **Run.** Of what the scanner accepts, the unbroken is complete. -/
theorem completeArray_of_unbroken {room commas : ℕ} {p : Text} {outs : List RewardOutput}
    (h : parseObjects room p = some outs) (hunbroken : unbroken room commas p = true) :
    ∃ rest, behindObjects commas p outs = some rest ∧
      (outs.length < room → closes rest = true) := by
  induction room generalizing commas p outs with
  | zero =>
      obtain rfl := Option.some.inj h
      exact ⟨p, rfl, fun hlt => absurd hlt (Nat.not_lt_zero _)⟩
  | succ room ih =>
      rcases parseObjects_cases h with ⟨rfl, hskip⟩ | ⟨rfl, tail, hskip⟩ |
        ⟨object, addr, amount, objectEnd, others, hskip, haddr, hamount, hend, hothers, rfl⟩
      · -- the text ends; the scanner takes this for the end of the array
        rw [unbroken, hskip] at hunbroken
        cases hunbroken
      · rw [unbroken, hskip] at hunbroken
        have hcount : decide ((p.takeWhile isSeparator).count ',' = 0) = true := hunbroken
        refine ⟨p, rfl, fun _ => ?_⟩
        rw [closes, hskip, hcount]
        rfl
      · rw [unbroken, hskip] at hunbroken
        split at hunbroken
        next heq => cases heq
        next object' heq =>
          obtain rfl := (List.cons.inj heq).2
          split at hunbroken
          next members tail hvalue =>
            simp only [Bool.and_eq_true, decide_eq_true_eq, Bool.or_eq_true] at hunbroken
            obtain ⟨⟨⟨⟨hcount, haddress⟩, hown⟩, hbrace⟩, hrest⟩ := hunbroken
            have hobject := completeObject_of_own hvalue haddress hown haddr hamount
            rw [behindObjects_cons hskip hcount hvalue hobject, List.length_cons]
            rcases hbrace with rfl | hbrace
            · -- the last object there is room for
              obtain rfl := Option.some.inj hothers
              exact ⟨tail, rfl, fun hlt => absurd hlt (lt_irrefl _)⟩
            · rw [strchr, if_neg (by decide), hbrace] at hend
              obtain rfl := Option.some.inj hend
              obtain ⟨rest, hbehind, hcloses⟩ := ih hothers hrest
              exact ⟨rest, hbehind, fun hlt => hcloses (Nat.lt_of_succ_lt_succ hlt)⟩
          next => cases hunbroken
        next => cases hunbroken

theorem completeReply_of_regular {json : Text} {outs : List RewardOutput}
    (h : parseCoinbaseResponse json = some outs) (hregular : regularReply json = true) :
    completeReply json outs = true := by
  simp only [parseCoinbaseResponse, Option.bind_eq_bind, Option.bind_eq_some_iff] at h
  obtain ⟨key, hkey, bracket, hbracket, hobjects⟩ := h
  have hsearched : searched "outputs".toList '[' json = some bracket :=
    Option.bind_eq_some_iff.mpr ⟨key, hkey, hbracket⟩
  obtain ⟨text, rfl⟩ : ∃ text, bracket = '[' :: text := by
    obtain ⟨-, text, -, -, hcons⟩ := exists_of_strchr hbracket
    exact ⟨text, hcons⟩
  simp only [regularReply, hsearched, List.tail_cons, Bool.and_eq_true, List.any_eq_true,
    decide_eq_true_eq] at hregular
  obtain ⟨⟨m, hm, hname, hskip⟩, hunbroken⟩ := hregular
  rw [List.tail_cons] at hobjects
  obtain ⟨rest, hbehind, hcloses⟩ := completeArray_of_unbroken hobjects hunbroken
  rw [completeReply, List.any_eq_true]
  refine ⟨m, hm, ?_⟩
  rw [hskip, Bool.and_eq_true, decide_eq_true_eq]
  refine ⟨hname, ?_⟩
  show completeArray text outs = true
  rw [completeArray, hbehind]
  simp only [Bool.or_eq_true, decide_eq_true_eq]
  exact (lt_or_ge outs.length REWARD_MAX_OUTPUTS).symm.imp id hcloses

/-- A reply that is not regular may be complete by chance: here the member of the
other name has the same value. -/
example : ∃ object : Text, parseCoinbaseResponse (replyOpening ++ object) = some [⟨['a'], 1⟩] ∧
    completeReply (replyOpening ++ object) [⟨['a'], 1⟩] = true ∧
    regularReply (replyOpening ++ object) = false :=
  ⟨"\x7b\"x\\\"address\":\"a\",\"address\":\"a\",\"amount_sats\":1\x7d]".toList, by
    decide +kernel⟩

/-! ## Cut replies -/

/-- The text ends inside an object, with less than `room` objects in front of it. -/
def EndsInside (room : ℕ) (outputs : List CoinbaseOutput) (cut : Text) : Prop :=
  ∃ front o back part, outputs = front ++ o :: back ∧ front.length < room ∧
    part ≠ [] ∧ part <+: marshalOutput o ∧ part ≠ marshalOutput o ∧
    cut = front.flatMap (fun o => marshalOutput o ++ [',']) ++ part

theorem endsInside_cons {room : ℕ} {o : CoinbaseOutput} {outputs : List CoinbaseOutput}
    {cut : Text} : EndsInside (room + 1) (o :: outputs) cut ↔
      (cut ≠ [] ∧ cut <+: marshalOutput o ∧ cut ≠ marshalOutput o) ∨
        ∃ rest, cut = marshalOutput o ++ ',' :: rest ∧ EndsInside room outputs rest := by
  constructor
  · rintro ⟨front, o', back, part, hsplit, hroom, hne, hpart, hproper, rfl⟩
    cases front with
    | nil =>
        obtain ⟨rfl, rfl⟩ := List.cons.inj hsplit
        exact .inl ⟨hne, hpart, hproper⟩
    | cons o'' front =>
        obtain ⟨rfl, rfl⟩ := List.cons.inj hsplit
        refine .inr ⟨_, ?_, front, o', back, part, rfl, Nat.lt_of_succ_lt_succ hroom, hne, hpart,
          hproper, rfl⟩
        simp only [List.flatMap_cons, List.append_assoc, List.cons_append, List.nil_append]
  · rintro (⟨hne, hpart, hproper⟩ | ⟨rest, rfl, hrest⟩)
    · exact ⟨[], o, outputs, cut, rfl, Nat.succ_pos room, hne, hpart, hproper, rfl⟩
    · obtain ⟨front, o', back, part, rfl, hroom, hne, hpart, hproper, rfl⟩ := hrest
      refine ⟨o :: front, o', back, part, rfl, Nat.succ_lt_succ hroom, hne, hpart, hproper, ?_⟩
      simp only [List.flatMap_cons, List.append_assoc, List.cons_append, List.nil_append]

theorem not_endsInside_nil {room : ℕ} {cut : Text} : ¬ EndsInside room [] cut := by
  rintro ⟨front, o, back, part, hsplit, -⟩
  cases front <;> cases hsplit

theorem not_endsInside_zero {outputs : List CoinbaseOutput} {cut : Text} :
    ¬ EndsInside 0 outputs cut := by
  rintro ⟨front, o, back, part, -, hroom, -⟩
  exact Nat.not_lt_zero _ hroom

/-- A part of an object has no closing brace, and the scanner misses it. -/
theorem parseObjects_part {o : CoinbaseOutput} (ho : PlainAddress o.address) {part : Text}
    (hne : part ≠ []) (hpart : part <+: marshalOutput o) (hproper : part ≠ marshalOutput o)
    (room : ℕ) : parseObjects (room + 1) part = none := by
  obtain ⟨front, hbrace, hobject⟩ : ∃ front : Text, '\x7d' ∉ front ∧
      marshalOutput o = '\x7b' :: (front ++ ['\x7d']) := by
    refine ⟨"\"address\":\"".toList ++ (o.address ++ ("\",\"amount_sats\":".toList ++
      printInt o.amountSats)), ?_, ?_⟩
    · simp only [List.mem_append, not_or]
      exact ⟨by decide, ho.not_mem (by decide), by decide,
        not_mem_printInt (by decide) (by decide) _⟩
    · rw [marshalOutput_plain ho]
      simp only [List.append_assoc]
  obtain ⟨c, object, rfl⟩ := List.exists_cons_of_ne_nil hne
  rw [hobject, List.cons_prefix_cons] at hpart
  obtain ⟨rfl, hfront⟩ := hpart
  have hmem : '\x7d' ∉ object := by
    rcases List.prefix_concat_iff.mp hfront with hwhole | hinside
    · exact absurd (by rw [hobject, hwhole]) hproper
    · exact fun hc => hbrace (hinside.subset hc)
  have hskip : ('\x7b' :: object).dropWhile isSeparator = '\x7b' :: object :=
    List.dropWhile_cons_of_neg (by decide)
  have hend : strchr '\x7d' ('\x7b' :: object) = none := strchr_eq_none (by simpa using hmem)
  rw [parseObjects_eq_bind hskip, hend]
  cases addressField object with
  | none => rfl
  | some addr => cases amountField object <;> rfl

theorem marshalOutputs_cons (o : CoinbaseOutput) (outputs : List CoinbaseOutput) :
    ∃ tail, marshalOutputs (o :: outputs) = marshalOutput o ++ tail ∧
      ∀ c t, c :: t <+: tail → c = ',' ∧ t <+: marshalOutputs outputs := by
  cases outputs with
  | nil => exact ⟨[], (List.append_nil _).symm, fun c t h => absurd h (by simp)⟩
  | cons o' outputs =>
      refine ⟨',' :: marshalOutputs (o' :: outputs), ?_, fun c t h => List.cons_prefix_cons.mp h⟩
      rw [marshalOutputs]
      exact List.cons_ne_nil _ _

/-- What is left of an array of plain outputs is refused just if it ends inside an
object. -/
theorem parseObjects_cut : ∀ {outputs : List CoinbaseOutput} {room : ℕ} {cut : Text},
    (∀ o ∈ outputs, PlainAddress o.address ∧ InRange o.amountSats) → cut <+: marshalOutputs outputs →
      (parseObjects room cut = none ↔ EndsInside room outputs cut)
  | _, 0, cut, _, _ => iff_of_false (Option.some_ne_none _) not_endsInside_zero
  | [], room + 1, cut, _, hcut => by
      obtain rfl := List.prefix_nil.mp hcut
      exact iff_of_false (Option.some_ne_none _) not_endsInside_nil
  | o :: outputs, room + 1, cut, hplain, hcut => by
      obtain ⟨ho, houtputs⟩ := List.forall_mem_cons.mp hplain
      obtain ⟨tail, htail, hnext⟩ := marshalOutputs_cons o outputs
      rw [htail] at hcut
      rw [endsInside_cons]
      by_cases hpart : cut <+: marshalOutput o ∧ cut ≠ marshalOutput o
      · by_cases hne : cut = []
        · subst hne
          refine iff_of_false (Option.some_ne_none _) ?_
          rintro (⟨hne, -⟩ | ⟨rest, hrest, -⟩)
          · exact hne rfl
          · simp at hrest
        · exact iff_of_true (parseObjects_part ho.1 hne hpart.1 hpart.2 room) (.inl ⟨hne, hpart⟩)
      · -- the whole object, and what follows
        obtain ⟨rest, rfl⟩ : marshalOutput o <+: cut := by
          rcases List.prefix_or_prefix_of_prefix hcut (List.prefix_append _ tail) with h | h
          · by_contra hlonger
            exact hpart ⟨h, fun heq => hlonger (heq ▸ List.prefix_refl _)⟩
          · exact h
        rw [List.prefix_append_right_inj] at hcut
        have hleft : ¬ (marshalOutput o ++ rest ≠ [] ∧ marshalOutput o ++ rest <+: marshalOutput o ∧
            marshalOutput o ++ rest ≠ marshalOutput o) := fun h => hpart h.2
        rw [parseObjects_marshalOutput ho.1 ho.2, Option.map_eq_none_iff, or_iff_right hleft]
        cases rest with
        | nil =>
            have hsome : parseObjects room [] = some [] := by cases room <;> rfl
            rw [hsome]
            refine iff_of_false (Option.some_ne_none _) ?_
            rintro ⟨rest, hrest, -⟩
            rw [List.append_cancel_left_eq] at hrest
            cases hrest
        | cons c rest =>
            obtain ⟨rfl, hrest⟩ := hnext c rest hcut
            have hcomma : parseObjects room (',' :: rest) = parseObjects room rest := by
              cases room with
              | zero => rfl
              | succ room => exact parseObjects_separator room rest
            rw [hcomma, parseObjects_cut houtputs hrest]
            constructor
            · exact fun h => ⟨rest, rfl, h⟩
            · rintro ⟨rest', heq, h⟩
              obtain rfl := (List.cons.inj (List.append_cancel_left heq)).2
              exact h

/-- The text ends in front of the array, or inside one of its first 30 objects. -/
def CutInside (outputs : List CoinbaseOutput) (cut : Text) : Prop :=
  cut.length < replyOpening.length ∨
    EndsInside REWARD_MAX_OUTPUTS outputs (cut.drop replyOpening.length)

theorem parseCoinbaseResponse_short {cut : Text} (hcut : cut <+: replyOpening)
    (hlen : cut.length < replyOpening.length) : parseCoinbaseResponse cut = none := by
  have hmem : '[' ∉ cut := by
    have hfront : cut <+: "\x7b\"outputs\":".toList := by
      have hopening : replyOpening = "\x7b\"outputs\":".toList ++ ['['] := rfl
      rcases List.prefix_concat_iff.mp (hopening ▸ hcut) with hwhole | hfront
      · rw [hwhole, hopening] at hlen
        exact absurd hlen (lt_irrefl _)
      · exact hfront
    exact fun hc => absurd (hfront.subset hc) (by decide)
  rw [parseCoinbaseResponse]
  cases hkey : strstr "\"outputs\"".toList cut with
  | none => rfl
  | some key =>
      have hdrop : '[' ∉ key.drop 9 := fun hc =>
        hmem ((strstr_eq_some hkey).2.subset (List.mem_of_mem_drop hc))
      rw [Option.bind_eq_bind, Option.bind_some, strchr_eq_none hdrop]
      rfl

theorem parseCoinbaseResponse_cut {outputs : List CoinbaseOutput}
    (hplain : ∀ o ∈ outputs, PlainAddress o.address ∧ InRange o.amountSats) {cut : Text}
    (hcut : cut <+: replyOpening ++ marshalOutputs outputs) :
    parseCoinbaseResponse cut = none ↔ CutInside outputs cut := by
  rcases List.prefix_or_prefix_of_prefix hcut (List.prefix_append _ _) with hshort | ⟨rest, rfl⟩
  · by_cases hlen : cut.length < replyOpening.length
    · exact iff_of_true (parseCoinbaseResponse_short hshort hlen) (.inl hlen)
    · -- cut right behind the bracket: the empty array
      obtain rfl := hshort.eq_of_length_le (not_lt.mp hlen)
      have hempty : parseObjects REWARD_MAX_OUTPUTS [] = none ↔
          EndsInside REWARD_MAX_OUTPUTS outputs [] := parseObjects_cut hplain List.nil_prefix
      have hnot : ¬ replyOpening.length < replyOpening.length := lt_irrefl _
      rw [CutInside, or_iff_right hnot, List.drop_length, ← hempty,
        ← parseCoinbaseResponse_opening, List.append_nil]
  · rw [List.prefix_append_right_inj] at hcut
    have hnot : ¬ (replyOpening ++ rest).length < replyOpening.length := by
      rw [List.length_append]
      omega
    rw [CutInside, or_iff_right hnot, List.drop_left, parseCoinbaseResponse_opening,
      parseObjects_cut hplain hcut]

/-- The request goes out, and the caller gets what is read of the reply. -/
theorem datumRequestCoinbaseOutputs_cut {outputs : List CoinbaseOutput}
    (hplain : ∀ o ∈ outputs, PlainAddress o.address ∧ InRange o.amountSats) {cut : Text}
    (hcut : cut <+: replyOpening ++ marshalOutputs outputs) {service : Text → ℤ → Option Text}
    {miner : Text} {fees : ℤ} (hminer : isValidBtcAddress miner = true) (hfees : InRange fees)
    (hservice : service miner fees = some cut) :
    datumRequestCoinbaseOutputs service miner fees = none ↔
      CutInside outputs (cut.take (RESPONSE_BUF_SIZE - 1)) := by
  have hrequest := length_coinbaseRequest_lt (plainAddress_of_isValidBtcAddress hminer) hfees
  set kept := cut.take (RESPONSE_BUF_SIZE - 1) with hkept
  have htaken : kept <+: cut := List.take_prefix _ _
  have hfront : kept <+: replyOpening ++ marshalOutputs outputs := htaken.trans hcut
  have hnul : NUL ∉ kept := by
    intro hmem
    rcases List.mem_append.mp (hfront.subset hmem) with h | h
    · exact absurd h (by decide)
    · exact nul_not_mem_marshalOutputs (fun o ho => (hplain o ho).1) h
  rw [datumRequestCoinbaseOutputs, if_pos ⟨hminer, hrequest⟩, hservice, Option.bind_eq_bind,
    Option.bind_some]
  by_cases hempty : cut = []
  · subst hempty
    rw [if_pos rfl]
    exact iff_of_true rfl (.inl (by rw [hkept]; decide))
  · rw [if_neg hempty, ← hkept, cstr_eq_self hnul]
    exact parseCoinbaseResponse_cut hplain hfront

/-- Two objects, cut behind the first. -/
def cutReply : Text := replyOpening ++ marshalOutput ⟨['a', '1'], -1⟩

/-- The first object has no address of its own. -/
def borrowedReply : Text :=
  replyOpening ++ "\x7b\"amount_sats\":1\x7d,\x7b\"address\":\"b\",\"amount_sats\":2\x7d]\x7d".toList

/-- Another member's name ends like the one that is searched. -/
def escapedReply : Text :=
  replyOpening ++
    "\x7b\"x\\\"address\":\"b\",\"address\":\"a\",\"amount_sats\":1\x7d]\x7d".toList

end Gateway
