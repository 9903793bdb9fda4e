import Unlucky21.Gateway.ShareSubmit

/-!
# The gateway's messages

Three functions of the gateway put a line of JSON on the reward socket; the
service reads lines and makes a call for each. A connection may carry any
number of messages, with lines of other clients between them, and may be cut
off anywhere: the service makes the calls that were meant, in that order, and
no others.
-/

namespace Gateway

open Wire CText Reward SignificantDigits Int64Arith

/-! ## What the gateway writes -/

def blockFoundLine (height : ℤ) (hashHex btcAddr : Text) : Text :=
  "\x7b\"type\":\"block_found\",\"height\":".toList ++ printInt height ++
    ",\"hash\":\"".toList ++ hashHex ++ "\",\"finder_address\":\"".toList ++ btcAddr ++
    "\",\"coinbase_txid\":\"\",\"fees_sats\":0\x7d\n".toList

/-- The client's functions, called when the socket can be reached. -/
inductive Request
  | coinbaseOutputs (minerAddress : Text) (feesSats : ℤ)
  | shareSubmit (username : Text) (difficulty : UInt64) (trueDiff : ℚ) (port : ℤ)
  | blockFound (height : ℤ) (hashHex finderAddr : Text)
deriving DecidableEq, Repr

/-- What is written; nothing when an argument is refused. -/
def Request.written : Request → Text
  | .coinbaseOutputs minerAddress feesSats =>
      let request := coinbaseRequest minerAddress feesSats
      if isValidBtcAddress minerAddress = true ∧ request.length < 256 then request else []
  | .shareSubmit username difficulty trueDiff port =>
      (datumRewardShareSubmit true (some username) difficulty trueDiff port).getD []
  | .blockFound height hashHex finderAddr =>
      if isValidBtcAddress (usernameAddress finderAddr) then
        -- `snprintf` into 512 characters, one of them the NUL
        (blockFoundLine height hashHex (usernameAddress finderAddr)).take 511
      else []

/-- The double nearest to what `%.2f` prints. -/
def sentTrueDiff (trueDiff : ℚ) : ℚ := binary64 (hundredths trueDiff / 100)

/-- The call the service is meant to make. -/
def Request.call : Request → Option Call
  | .coinbaseOutputs minerAddress feesSats =>
      if isValidBtcAddress minerAddress then some (.getCoinbaseOutputs minerAddress feesSats)
      else none
  | .shareSubmit username difficulty trueDiff port =>
      if difficulty ≠ 0 ∧ isValidBtcAddress (usernameAddress username) = true ∧
          (usernameWorker username).all isWorkerChar = true then
        some (.recordShare ⟨usernameAddress username, usernameWorker username,
          printInt difficulty.toNat, sentTrueDiff trueDiff, port⟩)
      else none
  | .blockFound height hashHex finderAddr =>
      (datumRewardBlockFound height hashHex finderAddr).map .blockFound

/-- The arguments are of their C types, a hash is one of 64 digits at most, and
a true difficulty is at most 10^20. -/
def Request.InRange : Request → Prop
  | .coinbaseOutputs _ feesSats => Int64Arith.InRange feesSats
  | .shareSubmit _ _ trueDiff port => 0 ≤ trueDiff ∧ trueDiff ≤ 10 ^ 20 ∧ 0 ≤ port ∧ port ≤ 65535
  | .blockFound height hashHex _ => -2 ^ 31 ≤ height ∧ height < 2 ^ 31 ∧ hashHex.length ≤ 64 ∧
      ∀ c ∈ hashHex, isAlphanumeric c = true

/-! ## Lines -/

/-- The call one line leads to. -/
def lineCall (line : Text) : Option Call := (unmarshalInbound line).bind InboundMsg.call

/-- A line the scanner gives to the decoder as it is. -/
structure Framed (line : Text) : Prop where
  newline : '\n' ∉ line
  carriage : line.getLast? ≠ some '\r'
  short : line.length < 64 * 1024

theorem scanLines_append {line : Text} (hline : Framed line) (rest : Text) :
    scanLines (line ++ '\n' :: rest) [] = line :: scanLines rest [] := by
  have hscan : ∀ (t current : Text), '\n' ∉ t → scanLines (t ++ '\n' :: rest) current =
      dropCR (t.reverse ++ current) :: scanLines rest [] := by
    intro t
    induction t with
    | nil => exact fun current _ => rfl
    | cons c t ih =>
        intro current ht
        rw [List.mem_cons, not_or] at ht
        rw [List.cons_append, scanLines, if_neg (Ne.symm ht.1), ih _ ht.2, List.reverse_cons,
          List.append_assoc, List.singleton_append]
  rw [hscan line [] hline.newline, List.append_nil, dropCR, List.head?_reverse,
    if_neg hline.carriage, List.reverse_reverse]

/-- A line leads to its call and leaves the rest of the connection alone. -/
theorem handleConn_append {line : Text} (hline : Framed line) (rest : Text) :
    handleConn (line ++ '\n' :: rest) = (lineCall line).toList ++ handleConn rest := by
  rw [handleConn, scanLines_append hline, List.takeWhile_cons_of_pos (by simpa using hline.short),
    List.filterMap_cons, handleConn, lineCall]
  cases (unmarshalInbound line).bind InboundMsg.call <;> rfl

/-- A rendered object is one line. -/
theorem framed_render {members : List (Text × Json.Value)} (h : Json.Plain (.object members))
    (hlen : (Json.render (.object members)).length < 64 * 1024) :
    Framed (Json.render (.object members)) where
  newline := Json.newline_not_mem_render h
  carriage := by
    rw [Json.render, ← List.cons_append, List.getLast?_concat]
    decide
  short := hlen

/-- What is cut off in an object without inner braces leads to no call. -/
theorem lineCall_of_prefix {members : List (Text × Json.Value)}
    (hbrace : '\x7d' ∉ Json.renderMembers members) {t : Text}
    (ht : t <+: Json.render (.object members)) (hne : t ≠ Json.render (.object members)) :
    lineCall t = none := by
  have hparse : Json.parse t = none := by
    rw [Json.render] at ht hne
    cases t with
    | nil => rfl
    | cons c t =>
        obtain ⟨rfl, htail⟩ := List.cons_prefix_cons.mp ht
        rcases List.prefix_concat_iff.mp htail with rfl | hinner
        · exact absurd rfl hne
        · exact Json.parse_eq_none_of_open fun hmem => hbrace (hinner.subset hmem)
  rw [lineCall, unmarshalInbound, hparse]
  rfl

theorem lineCall_render {members : List (Text × Json.Value)} (h : Json.Plain (.object members))
    {msg : InboundMsg} (hmsg : members.foldlM InboundMsg.setField {} = some msg) :
    lineCall (Json.render (.object members)) = msg.call := by
  rw [lineCall, unmarshalInbound, Json.parse_render h]
  simp only [Option.bind_eq_bind, Option.bind_some, hmsg]

/-! ## The three messages -/

theorem plainText_of_all {s : Text} (h : s.all isWorkerChar = true) : Json.PlainText s :=
  fun c hc => plain_of_isWorkerChar (List.all_eq_true.mp h c hc)

theorem plainText_of_alphanumeric {s : Text} (h : ∀ c ∈ s, isAlphanumeric c = true) :
    Json.PlainText s := fun c hc =>
  plain_of_isWorkerChar (by rw [isWorkerChar, h c hc]; rfl)

theorem plainText_of_isValidBtcAddress {a : Text} (h : isValidBtcAddress a = true) :
    Json.PlainText a :=
  plainText_of_alphanumeric (plainAddress_of_isValidBtcAddress h).alphanumeric

def coinbaseMembers (minerAddress : Text) (feesSats : ℤ) : List (Text × Json.Value) := [
  ("type".toList, .string "coinbase".toList),
  ("miner_address".toList, .string minerAddress),
  ("fees_sats".toList, .number (printInt feesSats))]

theorem coinbaseRequest_eq (minerAddress : Text) (feesSats : ℤ) :
    coinbaseRequest minerAddress feesSats =
      Json.render (.object (coinbaseMembers minerAddress feesSats)) ++ ['\n'] := by
  have hopen : "\x7b\"type\":\"coinbase\",\"miner_address\":\"".toList = '\x7b' :: '"' ::
      ("type".toList ++ '"' :: ':' :: '"' :: ("coinbase".toList ++ '"' :: ',' :: '"' ::
        ("miner_address".toList ++ ['"', ':', '"']))) := rfl
  have hfees : "\",\"fees_sats\":".toList =
      '"' :: ',' :: '"' :: ("fees_sats".toList ++ ['"', ':']) := rfl
  have hclose : "\x7d\n".toList = ['\x7d', '\n'] := rfl
  rw [coinbaseMembers, Json.render]
  simp only [Json.renderMembers, Json.render]
  unfold coinbaseRequest
  rw [hopen, hfees, hclose]
  simp only [List.append_assoc, List.cons_append, List.nil_append]

def blockFoundMembers (height : ℤ) (hashHex btcAddr : Text) : List (Text × Json.Value) := [
  ("type".toList, .string "block_found".toList),
  ("height".toList, .number (printInt height)),
  ("hash".toList, .string hashHex),
  ("finder_address".toList, .string btcAddr),
  ("coinbase_txid".toList, .string []),
  ("fees_sats".toList, .number (printInt 0))]

theorem blockFoundLine_eq (height : ℤ) (hashHex btcAddr : Text) :
    blockFoundLine height hashHex btcAddr =
      Json.render (.object (blockFoundMembers height hashHex btcAddr)) ++ ['\n'] := by
  have hopen : "\x7b\"type\":\"block_found\",\"height\":".toList = '\x7b' :: '"' ::
      ("type".toList ++ '"' :: ':' :: '"' :: ("block_found".toList ++ '"' :: ',' :: '"' ::
        ("height".toList ++ ['"', ':']))) := rfl
  have hhash : ",\"hash\":\"".toList = ',' :: '"' :: ("hash".toList ++ ['"', ':', '"']) := rfl
  have hfinder : "\",\"finder_address\":\"".toList =
      '"' :: ',' :: '"' :: ("finder_address".toList ++ ['"', ':', '"']) := rfl
  have hclose : "\",\"coinbase_txid\":\"\",\"fees_sats\":0\x7d\n".toList =
      '"' :: ',' :: '"' :: ("coinbase_txid".toList ++ '"' :: ':' :: '"' :: '"' :: ',' :: '"' ::
        ("fees_sats".toList ++ '"' :: ':' :: (printInt 0 ++ ['\x7d', '\n']))) := rfl
  rw [blockFoundMembers, Json.render]
  simp only [Json.renderMembers, Json.render]
  unfold blockFoundLine
  rw [hopen, hhash, hfinder, hclose]
  simp only [List.append_assoc, List.cons_append, List.nil_append]

theorem parseFloat_printFixed2_eq {trueDiff : ℚ} (h0 : 0 ≤ trueDiff) (h20 : trueDiff ≤ 10 ^ 20) :
    parseFloat (Json.literalValue (printFixed2 trueDiff)) = some (sentTrueDiff trueDiff) := by
  obtain ⟨x, hx, -⟩ := parseFloat_printFixed2 h0 h20
  rw [hx, sentTrueDiff]
  rw [literalValue_printFixed2 h0, parseFloat] at hx
  split_ifs at hx with hsmall
  · -- no hundredth is that small
    have hzero : hundredths trueDiff = 0 := by
      by_contra hne
      have h1 : (1 : ℚ) ≤ hundredths trueDiff := by exact_mod_cast Nat.one_le_iff_ne_zero.mpr hne
      have hpow : (100 : ℚ) ≤ 2 ^ 1022 :=
        (show (100 : ℚ) ≤ 2 ^ 7 by norm_num).trans (pow_le_pow_right₀ one_le_two (by norm_num))
      have htiny : (1 : ℚ) / 2 ^ 1022 ≤ 1 / 100 := one_div_le_one_div_of_le (by norm_num) hpow
      rw [abs_of_nonneg (by positivity)] at hsmall
      exact absurd hsmall (not_lt.mpr (htiny.trans (div_le_div_of_nonneg_right h1 (by norm_num))))
    have hbinary : binary64 0 = 0 := by exact_mod_cast binary64_intCast (n := 0) (by norm_num)
    obtain rfl := Option.some.inj hx
    rw [hzero, Nat.cast_zero, zero_div, zero_mul, hbinary]
    exact congrArg some (by simp [halfEven])
  · rw [hx]

section

variable {msg : InboundMsg} (s : Text)

theorem setField_type : msg.setField ("type".toList, .string s) = some { msg with type := s } := rfl

theorem setField_minerAddress :
    msg.setField ("miner_address".toList, .string s) = some { msg with minerAddress := s } := rfl

theorem setField_hash : msg.setField ("hash".toList, .string s) = some { msg with hash := s } := rfl

theorem setField_finderAddress :
    msg.setField ("finder_address".toList, .string s) = some { msg with finderAddress := s } := rfl

theorem setField_coinbaseTxID :
    msg.setField ("coinbase_txid".toList, .string s) = some { msg with coinbaseTxID := s } := rfl

theorem setField_feesSats {n : ℤ} (hn : -2 ^ 63 ≤ n ∧ n < 2 ^ 63) :
    msg.setField ("fees_sats".toList, .number (printInt n)) = some { msg with feesSats := n } := by
  show (bigSetString (printInt n)).bind _ = _
  rw [bigSetString_printInt, Option.bind_some]
  exact if_pos hn

theorem setField_height {n : ℤ} (hn : -2 ^ 31 ≤ n ∧ n < 2 ^ 31) :
    msg.setField ("height".toList, .number (printInt n)) = some { msg with height := n } := by
  show (bigSetString (printInt n)).bind _ = _
  rw [bigSetString_printInt, Option.bind_some]
  exact if_pos hn

end

/-- A request is one line with its call, of which no piece is a call, or it is
refused and nothing is sent. -/
inductive Told (r : Request) : Prop
  | refused (hwritten : r.written = []) (hcall : r.call = none)
  | sent {line : Text} {call : Call} (hwritten : r.written = line ++ ['\n']) (hline : Framed line)
      (hdecoded : lineCall line = some call) (hcall : r.call = some call)
      (hcut : ∀ t, t <+: line → t ≠ line → lineCall t = none)

theorem Told.of_object {r : Request} {members : List (Text × Json.Value)} {msg : InboundMsg}
    {call : Call} (hwritten : r.written = Json.render (.object members) ++ ['\n'])
    (hplain : Json.Plain (.object members))
    (hlen : (Json.render (.object members)).length < 64 * 1024)
    (hbrace : '\x7d' ∉ Json.renderMembers members)
    (hmsg : members.foldlM InboundMsg.setField {} = some msg) (hdecoded : msg.call = some call)
    (hcall : r.call = some call) : Told r :=
  .sent hwritten (framed_render hplain hlen) ((lineCall_render hplain hmsg).trans hdecoded) hcall
    fun _ => lineCall_of_prefix hbrace

theorem brace_not_mem_of_all {s : Text} (h : s.all isWorkerChar = true) : '\x7d' ∉ s := fun hmem =>
  absurd (List.all_eq_true.mp h _ hmem) (by decide)

theorem brace_not_mem_of_isValidBtcAddress {a : Text} (h : isValidBtcAddress a = true) :
    '\x7d' ∉ a := brace_not_mem_of_all (all_isWorkerChar h)

theorem brace_not_mem_printInt (z : ℤ) : '\x7d' ∉ printInt z :=
  not_mem_printInt (by decide) (by decide) z

theorem told_coinbaseOutputs (minerAddress : Text) {feesSats : ℤ}
    (hfees : Int64Arith.InRange feesSats) :
    Told (.coinbaseOutputs minerAddress feesSats) := by
  by_cases hvalid : isValidBtcAddress minerAddress = true
  · have hlen := length_coinbaseRequest_lt (plainAddress_of_isValidBtcAddress hvalid) hfees
    have hplain : Json.Plain (.object (coinbaseMembers minerAddress feesSats)) :=
      ⟨plainText_of_all (by decide), plainText_of_all (by decide), plainText_of_all (by decide),
        plainText_of_isValidBtcAddress hvalid, plainText_of_all (by decide),
        Json.isNumber_printInt _, trivial⟩
    have hmsg : (coinbaseMembers minerAddress feesSats).foldlM InboundMsg.setField {} = some
        { type := "coinbase".toList, minerAddress := minerAddress, feesSats := feesSats } := by
      simp only [coinbaseMembers, List.foldlM_cons, List.foldlM_nil, setField_type,
        setField_minerAddress, setField_feesSats hfees, Option.bind_eq_bind, Option.bind_some,
        Option.pure_def]
    have hwritten : (Request.coinbaseOutputs minerAddress feesSats).written =
        coinbaseRequest minerAddress feesSats := if_pos ⟨hvalid, hlen⟩
    have hbrace : '\x7d' ∉ Json.renderMembers (coinbaseMembers minerAddress feesSats) := by
      simp only [coinbaseMembers, Json.renderMembers, Json.render, List.mem_cons, List.mem_append,
        not_or]
      simp [brace_not_mem_of_isValidBtcAddress hvalid, brace_not_mem_printInt]
    rw [coinbaseRequest_eq] at hwritten hlen
    rw [List.length_append] at hlen
    exact .of_object hwritten hplain (by omega) hbrace hmsg rfl (if_pos hvalid)
  · exact .refused (if_neg fun h => hvalid h.1) (if_neg hvalid)

theorem brace_not_mem_printFixed2 {x : ℚ} (h : 0 ≤ x) : '\x7d' ∉ printFixed2 x := by
  have hdigit : ('\x7d').isDigit ≠ true := by decide
  rw [printFixed2_of_nonneg h, List.mem_append, List.mem_cons]
  rintro (hmem | hdot | hmem)
  · exact hdigit (isDigit_of_mem_toDigits hmem)
  · exact absurd hdot (by decide)
  · exact hdigit (isDigit_of_mem_decimals _ hmem)

theorem told_shareSubmit (username : Text) (difficulty : UInt64) {trueDiff : ℚ} (h0 : 0 ≤ trueDiff)
    (h20 : trueDiff ≤ 10 ^ 20) {port : ℕ} (hport : port ≤ 65535) :
    Told (.shareSubmit username difficulty trueDiff port) := by
  rcases datumRewardShareSubmit_cases true username difficulty h0 h20 hport with
    hnone | ⟨haddr, hworker, hsent⟩
  · have hwritten : (Request.shareSubmit username difficulty trueDiff port).written = [] := by
      rw [Request.written, hnone, Option.getD_none]
    refine .refused hwritten (if_neg ?_)
    rintro ⟨hzero, haddr, hworker⟩
    simp only [datumRewardShareSubmit, Option.bind_eq_bind, Option.bind_some, if_neg hzero,
      if_neg (not_not.mpr haddr), if_neg (not_not.mpr hworker), not_true_eq_false, if_false,
      reduceCtorEq] at hnone
  · have hzero : difficulty ≠ 0 := by
      rintro rfl
      simp [datumRewardShareSubmit] at hsent
    set btcAddr := usernameAddress username
    set worker := usernameWorker username
    have hwritten : (Request.shareSubmit username difficulty trueDiff port).written =
        shareLine btcAddr worker difficulty trueDiff port := by
      rw [Request.written, hsent, Option.getD_some]
    have hlen : (shareLine btcAddr worker difficulty trueDiff port).length ≤ 303 :=
      length_shareLine_le difficulty port (length_usernameAddress_le username)
        (length_usernameWorker_le username) h0 h20 hport
    rw [shareLine_eq] at hwritten hlen
    rw [List.length_append] at hlen
    have hplain := plain_shareMembers difficulty port haddr hworker h0
    have hmsg := unmarshalInbound_share (Json.parse_render hplain)
      (parseFloat_printFixed2_eq h0 h20) (bigSetString_printInt port) ⟨by omega, by omega⟩
    have hdecoded : lineCall (Json.render (.object
        (shareMembers btcAddr worker difficulty trueDiff port))) = some (.recordShare
          ⟨btcAddr, worker, printInt difficulty.toNat, sentTrueDiff trueDiff, port⟩) :=
      congrArg (·.bind InboundMsg.call) hmsg
    have hbrace : '\x7d' ∉ Json.renderMembers
        (shareMembers btcAddr worker difficulty trueDiff port) := by
      simp only [shareMembers, Json.renderMembers, Json.render, List.mem_cons, List.mem_append,
        not_or]
      simp [brace_not_mem_of_isValidBtcAddress haddr, brace_not_mem_of_all hworker,
        brace_not_mem_printInt, brace_not_mem_printFixed2 h0]
    exact .sent hwritten (framed_render hplain (by omega)) hdecoded
      (if_pos ⟨hzero, haddr, hworker⟩) fun _ => lineCall_of_prefix hbrace

theorem length_blockFoundLine_lt {height : ℤ} (hlo : -2 ^ 31 ≤ height) (hhi : height < 2 ^ 31)
    {hashHex btcAddr : Text} (hhash : hashHex.length ≤ 64) (haddr : btcAddr.length ≤ 90) :
    (blockFoundLine height hashHex btcAddr).length < 511 := by
  have hheight := length_printInt_le (z := height) ⟨by omega, by omega⟩
  have hopen : "\x7b\"type\":\"block_found\",\"height\":".toList.length = 31 := rfl
  have hmid : ",\"hash\":\"".toList.length = 9 := rfl
  have hfinder : "\",\"finder_address\":\"".toList.length = 20 := rfl
  have hclose : "\",\"coinbase_txid\":\"\",\"fees_sats\":0\x7d\n".toList.length = 36 := rfl
  unfold blockFoundLine
  simp only [List.length_append, hopen, hmid, hfinder, hclose]
  omega

theorem told_blockFound {height : ℤ} (hlo : -2 ^ 31 ≤ height) (hhi : height < 2 ^ 31)
    {hashHex : Text} (hlen : hashHex.length ≤ 64) (hhash : ∀ c ∈ hashHex, isAlphanumeric c = true)
    (finderAddr : Text) : Told (.blockFound height hashHex finderAddr) := by
  set btcAddr := usernameAddress finderAddr with hbtc
  by_cases hvalid : isValidBtcAddress btcAddr = true
  · have hline : (blockFoundLine height hashHex btcAddr).length < 511 :=
      length_blockFoundLine_lt hlo hhi hlen (length_usernameAddress_le finderAddr)
    have hplain : Json.Plain (.object (blockFoundMembers height hashHex btcAddr)) :=
      ⟨plainText_of_all (by decide), plainText_of_all (by decide), plainText_of_all (by decide),
        Json.isNumber_printInt _, plainText_of_all (by decide), plainText_of_alphanumeric hhash,
        plainText_of_all (by decide), plainText_of_isValidBtcAddress hvalid,
        plainText_of_all (by decide), plainText_of_all (by decide), plainText_of_all (by decide),
        Json.isNumber_printInt _, trivial⟩
    have hmsg : (blockFoundMembers height hashHex btcAddr).foldlM InboundMsg.setField {} = some
        { type := "block_found".toList, height := height, hash := hashHex,
          finderAddress := btcAddr } := by
      simp only [blockFoundMembers, List.foldlM_cons, List.foldlM_nil, setField_type,
        setField_height ⟨hlo, hhi⟩, setField_hash, setField_finderAddress, setField_coinbaseTxID,
        setField_feesSats (n := 0) ⟨by norm_num, by norm_num⟩, Option.bind_eq_bind,
        Option.bind_some, Option.pure_def]
    have hwritten : (Request.blockFound height hashHex finderAddr).written =
        blockFoundLine height hashHex btcAddr := by
      rw [Request.written, ← hbtc, if_pos hvalid, List.take_of_length_le hline.le]
    have hcall : (Request.blockFound height hashHex finderAddr).call = some (.blockFound
        ⟨height, hashHex, btcAddr, [], 0⟩) := by
      rw [Request.call, datumRewardBlockFound, if_pos hvalid, Option.map_some]
    have hhashBrace : '\x7d' ∉ hashHex := fun hmem => absurd (hhash _ hmem) (by decide)
    have hbrace : '\x7d' ∉ Json.renderMembers (blockFoundMembers height hashHex btcAddr) := by
      simp only [blockFoundMembers, Json.renderMembers, Json.render, List.mem_cons,
        List.mem_append, not_or]
      simp [brace_not_mem_of_isValidBtcAddress hvalid, brace_not_mem_printInt, hhashBrace]
    rw [blockFoundLine_eq] at hwritten hline
    rw [List.length_append] at hline
    exact .of_object hwritten hplain (by omega) hbrace hmsg rfl hcall
  · refine .refused (if_neg hvalid) ?_
    rw [Request.call, datumRewardBlockFound, if_neg hvalid, Option.map_none]

theorem Request.InRange.told : ∀ {r : Request}, r.InRange → Told r
  | .coinbaseOutputs minerAddress _, h => told_coinbaseOutputs minerAddress h
  | .shareSubmit username difficulty _ port, ⟨h0, h20, hport0, hport⟩ => by
      obtain ⟨n, rfl⟩ := Int.eq_ofNat_of_zero_le hport0
      exact told_shareSubmit username difficulty h0 h20 (by omega)
  | .blockFound _ _ finderAddr, ⟨hlo, hhi, hlen, hhash⟩ =>
      told_blockFound hlo hhi hlen hhash finderAddr

/-! ## Connections -/

/-- What goes over a connection: a request, or another client's line. -/
inductive Sent
  | request (r : Request)
  | other (line : Text)
deriving DecidableEq, Repr

def Sent.text : Sent → Text
  | .request r => r.written
  | .other line => line ++ ['\n']

def Sent.call : Sent → Option Call
  | .request r => r.call
  | .other _ => none

/-- No piece of another client's line is a call. -/
def Sent.Harmless : Sent → Prop
  | .request r => r.InRange
  | .other line => Framed line ∧ ∀ t, t <+: line → lineCall t = none

/-- A message is nothing, or one line with the call that was meant. -/
theorem Sent.Harmless.cases {m : Sent} (h : m.Harmless) :
    (m.text = [] ∧ m.call = none) ∨ ∃ line, m.text = line ++ ['\n'] ∧ Framed line ∧
      lineCall line = m.call ∧ ∀ t, t <+: line → t ≠ line → lineCall t = none := by
  cases m with
  | other line => exact .inr ⟨line, rfl, h.1, h.2 _ List.prefix_rfl, fun t ht _ => h.2 t ht⟩
  | request r =>
      rcases h.told with ⟨hwritten, hcall⟩ | ⟨hwritten, hline, hdecoded, hcall, hcut⟩
      · exact .inl ⟨hwritten, hcall⟩
      · exact .inr ⟨_, hwritten, hline, hdecoded.trans hcall.symm, hcut⟩

theorem handleConn_text {m : Sent} (h : m.Harmless) (rest : Text) :
    handleConn (m.text ++ rest) = m.call.toList ++ handleConn rest := by
  rcases h.cases with ⟨htext, hcall⟩ | ⟨line, htext, hline, hcall, -⟩
  · rw [htext, hcall, List.nil_append, Option.toList_none, List.nil_append]
  · rw [htext, List.append_assoc, List.singleton_append, handleConn_append hline, hcall]

/-- The calls of a connection that comes through. -/
theorem handleConn_flatMap {sent : List Sent} (h : ∀ m ∈ sent, m.Harmless) :
    handleConn (sent.flatMap Sent.text) = sent.filterMap Sent.call := by
  induction sent with
  | nil => rfl
  | cons m sent ih =>
      obtain ⟨hm, hsent⟩ := List.forall_mem_cons.mp h
      rw [List.flatMap_cons, handleConn_text hm, ih hsent, List.filterMap_cons]
      cases m.call <;> rfl

/-- A last line without its end is decoded as well. -/
theorem handleConn_unterminated {t : Text} (h : '\n' ∉ t) :
    handleConn t = [] ∨ ∃ t', t' <+: t ∧ handleConn t = (lineCall t').toList := by
  have hscan : ∀ (t current : Text), '\n' ∉ t → t.reverse ++ current ≠ [] →
      scanLines t current = [dropCR (t.reverse ++ current)] := by
    intro t
    induction t with
    | nil => exact fun current _ hne => if_neg hne
    | cons c t ih =>
        intro current ht hne
        rw [List.mem_cons, not_or] at ht
        rw [scanLines, if_neg (Ne.symm ht.1), ih _ ht.2 (by simp), List.reverse_cons,
          List.append_assoc, List.singleton_append]
  by_cases hnil : t = []
  · exact .inl (hnil ▸ rfl)
  · have hlines := hscan t [] h (by simpa using hnil)
    rw [List.append_nil] at hlines
    have hpre : dropCR t.reverse <+: t := by
      unfold dropCR
      split_ifs
      · rw [List.tail_reverse, List.reverse_reverse]
        exact List.dropLast_prefix t
      · rw [List.reverse_reverse]
    rw [handleConn, hlines]
    by_cases hlen : (dropCR t.reverse).length < 64 * 1024
    · refine .inr ⟨_, hpre, ?_⟩
      rw [List.takeWhile_cons_of_pos (by simpa using hlen), List.takeWhile_nil,
        List.filterMap_cons, lineCall]
      cases (unmarshalInbound (dropCR t.reverse)).bind InboundMsg.call <;> rfl
    · exact .inl (by rw [List.takeWhile_cons_of_neg (by simpa using hlen), List.filterMap_nil])

/-- The calls of a connection that is cut off are the first of those meant. -/
theorem handleConn_take {sent : List Sent} (h : ∀ m ∈ sent, m.Harmless) (k : ℕ) :
    handleConn ((sent.flatMap Sent.text).take k) <+: sent.filterMap Sent.call := by
  induction sent generalizing k with
  | nil => simp [handleConn, scanLines]
  | cons m sent ih =>
      obtain ⟨hm, hsent⟩ := List.forall_mem_cons.mp h
      have hcalls : (m :: sent).filterMap Sent.call = m.call.toList ++ sent.filterMap Sent.call := by
        rw [List.filterMap_cons]
        cases m.call <;> rfl
      rw [List.flatMap_cons, hcalls, List.take_append]
      rcases le_or_gt m.text.length k with hk | hk
      · rw [List.take_of_length_le hk, handleConn_text hm]
        exact (List.prefix_append_right_inj _).mpr (ih hsent _)
      · -- the cut is inside the message
        rw [Nat.sub_eq_zero_of_le hk.le, List.take_zero, List.append_nil]
        rcases hm.cases with ⟨htext, -⟩ | ⟨line, htext, hline, hcall, hcut⟩
        · rw [htext] at hk
          cases hk
        · rw [htext, List.length_append, List.length_singleton] at hk
          rw [htext, List.take_append_of_le_length (by omega)]
          have hpre := List.take_prefix k line
          have hnewline : '\n' ∉ line.take k := fun hmem => hline.newline (hpre.subset hmem)
          rcases handleConn_unterminated hnewline with hnone | ⟨t, ht, hcalls⟩
          · rw [hnone]
            exact List.nil_prefix
          · rw [hcalls]
            by_cases heq : t = line
            · rw [heq, hcall]
              exact List.prefix_append _ _
            · rw [hcut t (ht.trans hpre) heq]
              exact List.nil_prefix

def exampleConnection : List Sent := [
  .request (.blockFound 840000 "00ff".toList "bc1qabc.rig_1".toList),
  .other "ping".toList,
  .request (.shareSubmit "bc1q".toList 1 0 23334),
  .request (.coinbaseOutputs "not an address".toList 5),
  .request (.coinbaseOutputs "bc1qabc".toList 5)]

/-- `ackResponse` -/
def ackResponse (ok : Bool) : Text :=
  (if ok then "\x7b\"status\":\"ok\"\x7d\n" else "\x7b\"status\":\"error\"\x7d\n").toList

section

variable (getOutputs : Text → ℤ → Except String (List CoinbaseOutput))
  (blockFound : BlockFoundMsg → Bool)

/-- What the service writes back. Shares are not answered. -/
def answer : Call → Text
  | .getCoinbaseOutputs minerAddress feesSats =>
      handleCoinbase minerAddress (getOutputs minerAddress feesSats)
  | .recordShare _ => []
  | .blockFound msg => ackResponse (blockFound msg)

/-- The service at the other end of the socket. -/
def socketService (minerAddress : Text) (feesSats : ℤ) : Option Text :=
  some ((handleConn (coinbaseRequest minerAddress feesSats)).flatMap (answer getOutputs blockFound))

end

/-- The request reaches the handler as it was meant. -/
theorem socketService_eq (getOutputs : Text → ℤ → Except String (List CoinbaseOutput))
    (blockFound : BlockFoundMsg → Bool) {miner : Text} {fees : ℤ}
    (hminer : isValidBtcAddress miner = true) (hfees : Int64Arith.InRange fees) :
    socketService getOutputs blockFound miner fees =
      some (handleCoinbase miner (getOutputs miner fees)) := by
  have hplain := plainAddress_of_isValidBtcAddress hminer
  have hwritten : (Request.coinbaseOutputs miner fees).written = coinbaseRequest miner fees :=
    if_pos ⟨hminer, length_coinbaseRequest_lt hplain hfees⟩
  have hcall : (Request.coinbaseOutputs miner fees).call = some (.getCoinbaseOutputs miner fees) :=
    if_pos hminer
  have hconn : handleConn (coinbaseRequest miner fees) = [.getCoinbaseOutputs miner fees] := by
    have h : handleConn ([Sent.request (.coinbaseOutputs miner fees)].flatMap Sent.text) =
        [Sent.request (.coinbaseOutputs miner fees)].filterMap Sent.call :=
      handleConn_flatMap (List.forall_mem_singleton.mpr hfees)
    rwa [List.flatMap_singleton, Sent.text, hwritten, List.filterMap_cons, Sent.call, hcall] at h
  rw [socketService, hconn, List.flatMap_singleton, answer]

/-- A handler that pays everything to the miner, unless there is nothing. -/
def payMiner (minerAddress : Text) (feesSats : ℤ) : Except String (List CoinbaseOutput) :=
  if 0 < feesSats then .ok [⟨minerAddress, feesSats⟩] else .error "no fees"

end Gateway
