import Unlucky21.Gateway.ReplyParser
import Unlucky21.Reward.Inbound

/-!
# Shares on the reward socket

The gateway prints a miner's username into a line of JSON, without escaping it.
What may be in the username is filtered first, and the pieces are cut to the
buffers they are copied to; so the line is never cut, the service reads back
just what was printed, and the tables take the row.
-/

namespace Gateway

open Wire CText Reward SignificantDigits

/-! ## What the gateway writes

A C string is a text; a byte that is not ASCII is some other character, and no
filter lets it through. -/

/-- The part of a username behind the first dot, cut to fit its buffer. -/
def usernameWorker (username : Text) : Text := ((username.dropWhile (· ≠ '.')).drop 1).take 63

def isWorkerChar (c : Char) : Bool := isAlphanumeric c || c == '_' || c == '-'

/-- `%.2f` -/
def printFixed2 (x : ℚ) : Text :=
  let n := (halfEven (100 * |x|)).toNat
  (if x < 0 then ['-'] else []) ++ (Nat.toDigits 10 (n / 100) ++
    ['.', (n / 10 % 10).digitChar, (n % 10).digitChar])

def shareLine (btcAddr worker : Text) (difficulty : UInt64) (trueDiff : ℚ) (port : ℤ) : Text :=
  "\x7b\"type\":\"share\",\"btc_address\":\"".toList ++ btcAddr ++
    "\",\"worker_name\":\"".toList ++ worker ++
    "\",\"difficulty\":\"".toList ++ printInt difficulty.toNat ++
    "\",\"true_difficulty\":".toList ++ printFixed2 trueDiff ++
    ",\"source_port\":".toList ++ printInt port ++ "\x7d\n".toList

/-- `datum_reward_share_submit`: what it writes to the socket. -/
def datumRewardShareSubmit (connected : Bool) (username : Option Text) (difficulty : UInt64)
    (trueDiff : ℚ) (port : ℤ) : Option Text := do
  let username ← username
  if difficulty = 0 then none
  else if ¬ isValidBtcAddress (usernameAddress username) then none
  else if ¬ (usernameWorker username).all isWorkerChar then none
  else if ¬ connected then none
  else
    let line := shareLine (usernameAddress username) (usernameWorker username) difficulty trueDiff
      port
    -- `snprintf` into 512 characters, one of them the NUL
    some (line.take 511)

/-! ## The line as JSON -/

def shareMembers (btcAddr worker : Text) (difficulty : UInt64) (trueDiff : ℚ) (port : ℤ) :
    List (Text × Json.Value) := [
  ("type".toList, .string "share".toList),
  ("btc_address".toList, .string btcAddr),
  ("worker_name".toList, .string worker),
  ("difficulty".toList, .string (printInt difficulty.toNat)),
  ("true_difficulty".toList, .number (printFixed2 trueDiff)),
  ("source_port".toList, .number (printInt port))]

theorem shareLine_eq (btcAddr worker : Text) (difficulty : UInt64) (trueDiff : ℚ) (port : ℤ) :
    shareLine btcAddr worker difficulty trueDiff port =
      Json.render (.object (shareMembers btcAddr worker difficulty trueDiff port)) ++ ['\n'] := by
  have hopen : "\x7b\"type\":\"share\",\"btc_address\":\"".toList = '\x7b' :: '"' ::
      ("type".toList ++ '"' :: ':' :: '"' :: ("share".toList ++ '"' :: ',' :: '"' ::
        ("btc_address".toList ++ ['"', ':', '"']))) := rfl
  have hworker : "\",\"worker_name\":\"".toList =
      '"' :: ',' :: '"' :: ("worker_name".toList ++ ['"', ':', '"']) := rfl
  have hdiff : "\",\"difficulty\":\"".toList =
      '"' :: ',' :: '"' :: ("difficulty".toList ++ ['"', ':', '"']) := rfl
  have htrue : "\",\"true_difficulty\":".toList =
      '"' :: ',' :: '"' :: ("true_difficulty".toList ++ ['"', ':']) := rfl
  have hport : ",\"source_port\":".toList =
      ',' :: '"' :: ("source_port".toList ++ ['"', ':']) := rfl
  have hclose : "\x7d\n".toList = ['\x7d', '\n'] := rfl
  rw [shareMembers, Json.render]
  simp only [Json.renderMembers, Json.render]
  unfold shareLine
  rw [hopen, hworker, hdiff, htrue, hport, hclose]
  simp only [List.append_assoc, List.cons_append, List.nil_append]

theorem plain_of_isWorkerChar {c : Char} (h : isWorkerChar c = true) :
    c ≠ '"' ∧ c ≠ '\\' ∧ 0x20 ≤ c.toNat := by
  simp only [isWorkerChar, Bool.or_eq_true, beq_iff_eq] at h
  rcases h with (h | rfl) | rfl
  · have hrange := toNat_of_isAlphanumeric h
    exact ⟨ne_of_isAlphanumeric h (by decide), ne_of_isAlphanumeric h (by decide), by omega⟩
  · decide
  · decide

theorem all_isWorkerChar {s : Text} (h : isValidBtcAddress s = true) :
    s.all isWorkerChar = true := by
  simp only [isValidBtcAddress, Bool.and_eq_true, List.all_eq_true] at h
  rw [List.all_eq_true]
  intro c hc
  rw [isWorkerChar, h.2 c hc]
  rfl

theorem plain_of_isDigit {c : Char} (h : c.isDigit = true) :
    c ≠ '"' ∧ c ≠ '\\' ∧ 0x20 ≤ c.toNat := by
  simp only [Char.isDigit, Bool.and_eq_true, decide_eq_true_eq, ge_iff_le] at h
  have h48 : 48 ≤ c.val.toNat := UInt32.le_iff_toNat_le.mp h.1
  have h57 : c.val.toNat ≤ 57 := UInt32.le_iff_toNat_le.mp h.2
  refine ⟨?_, ?_, show 0x20 ≤ c.val.toNat by omega⟩
  · rintro rfl
    exact absurd h48 (by decide)
  · rintro rfl
    exact absurd h57 (by decide)

/-- What `%.2f` prints of a difficulty, in hundredths. -/
def hundredths (x : ℚ) : ℕ := (halfEven (100 * x)).toNat

theorem printFixed2_of_nonneg {x : ℚ} (h : 0 ≤ x) :
    printFixed2 x = Nat.toDigits 10 (hundredths x / 100) ++
      '.' :: [(hundredths x / 10 % 10).digitChar, (hundredths x % 10).digitChar] := by
  rw [printFixed2, abs_of_nonneg h, if_neg (not_lt.mpr h)]
  rfl

theorem isDigit_of_mem_decimals {n : ℕ} :
    ∀ c ∈ [(n / 10 % 10).digitChar, (n % 10).digitChar], c.isDigit = true := by
  simp [Nat.mod_lt]

theorem literalValue_printFixed2 {x : ℚ} (h : 0 ≤ x) :
    Json.literalValue (printFixed2 x) = (hundredths x : ℚ) / 100 := by
  rw [printFixed2_of_nonneg h,
    Json.literalValue_decimal _ (List.cons_ne_nil _ _) isDigit_of_mem_decimals]
  have hdigits : Nat.ofDigitChars 10
      [(hundredths x / 10 % 10).digitChar, (hundredths x % 10).digitChar] (hundredths x / 100) =
      hundredths x := by
    rw [Nat.ofDigitChars_cons_digitChar_of_lt_ten (Nat.mod_lt _ (by norm_num)),
      Nat.ofDigitChars_cons_digitChar_of_lt_ten (Nat.mod_lt _ (by norm_num)), Nat.ofDigitChars_nil]
    omega
  rw [hdigits]
  norm_num

theorem hundredths_le {x : ℚ} (h : x ≤ 10 ^ 20) : hundredths x ≤ 10 ^ 22 := by
  have hmono : halfEven (100 * x) ≤ halfEven ((10 ^ 22 : ℤ) : ℚ) :=
    halfEven_mono (by push_cast; linarith)
  rw [halfEven_intCast] at hmono
  unfold hundredths
  omega

theorem printInt_natCast (n : ℕ) : printInt n = Nat.toDigits 10 n := rfl

section

variable {btcAddr worker : Text} (difficulty : UInt64) {trueDiff : ℚ} (port : ℕ)

theorem plain_shareMembers (haddr : isValidBtcAddress btcAddr = true)
    (hworker : worker.all isWorkerChar = true) (h0 : 0 ≤ trueDiff) :
    Json.Plain (.object (shareMembers btcAddr worker difficulty trueDiff port)) := by
  have hchars : ∀ {s : Text}, s.all isWorkerChar = true → Json.PlainText s :=
    fun h c hc => plain_of_isWorkerChar (List.all_eq_true.mp h c hc)
  have haddr := all_isWorkerChar haddr
  have hdigits : Json.PlainText (printInt difficulty.toNat) := fun c hc =>
    plain_of_isDigit (isDigit_of_mem_toDigits hc)
  have htrue : Json.IsNumber (printFixed2 trueDiff) :=
    printFixed2_of_nonneg h0 ▸ Json.isNumber_decimal _
      (.inr ⟨_, rfl, List.cons_ne_nil _ _, isDigit_of_mem_decimals⟩)
  have hport : Json.IsNumber (printInt port) := by
    have h := Json.isNumber_decimal port (.inl rfl)
    rwa [List.append_nil] at h
  exact ⟨hchars (by decide), hchars (by decide), hchars (by decide), hchars haddr,
    hchars (by decide), hchars hworker, hchars (by decide), hdigits, hchars (by decide), htrue,
    hchars (by decide), hport, trivial⟩

theorem length_shareLine_le (haddr : btcAddr.length ≤ 90) (hworker : worker.length ≤ 63)
    (h0 : 0 ≤ trueDiff) (h20 : trueDiff ≤ 10 ^ 20) (hport : port ≤ 65535) :
    (shareLine btcAddr worker difficulty trueDiff port).length ≤ 303 := by
  have hdigits : ∀ {n k : ℕ}, 0 < k → n < 10 ^ k → (Nat.toDigits 10 n).length ≤ k := fun hk hn =>
    (Nat.length_toDigits_le_iff (by norm_num) hk).mpr hn
  have hlt := difficulty.toNat_lt
  have hdiff : (Nat.toDigits 10 difficulty.toNat).length ≤ 20 := hdigits (by norm_num) (by omega)
  have hhundred := hundredths_le h20
  have htrue : (Nat.toDigits 10 (hundredths trueDiff / 100)).length ≤ 21 :=
    hdigits (by norm_num) (by omega)
  have hsource : (Nat.toDigits 10 port).length ≤ 5 := hdigits (by norm_num) (by omega)
  have hopen : "\x7b\"type\":\"share\",\"btc_address\":\"".toList.length = 31 := rfl
  have hname : "\",\"worker_name\":\"".toList.length = 17 := rfl
  have hfield : "\",\"difficulty\":\"".toList.length = 16 := rfl
  have hfield' : "\",\"true_difficulty\":".toList.length = 20 := rfl
  have hlast : ",\"source_port\":".toList.length = 15 := rfl
  have hclose : "\x7d\n".toList.length = 2 := rfl
  unfold shareLine
  simp only [List.length_append, hopen, hname, hfield, hfield', hlast, hclose,
    printFixed2_of_nonneg h0, printInt_natCast, List.length_cons, List.length_nil]
  omega

/-! ## What the service reads -/

/-- Rounding to hundredths and to doubles keeps a difficulty small. -/
theorem parseFloat_printFixed2 (h0 : 0 ≤ trueDiff) (h20 : trueDiff ≤ 10 ^ 20) :
    ∃ x, parseFloat (Json.literalValue (printFixed2 trueDiff)) = some x ∧ 0 ≤ x ∧
      x ≤ 2 * 10 ^ 20 := by
  rw [literalValue_printFixed2 h0]
  set n := hundredths trueDiff
  have hn : (n : ℚ) ≤ 10 ^ 22 := by exact_mod_cast hundredths_le h20
  have hv0 : (0 : ℚ) ≤ n / 100 := by positivity
  have habs : |(n : ℚ) / 100| = n / 100 := abs_of_nonneg hv0
  unfold parseFloat
  rw [habs]
  by_cases hsmall : (n : ℚ) / 100 < 1 / 2 ^ 1022
  · -- no hundredth is that small
    have hzero : n = 0 := by
      by_contra hne
      have h1 : (1 : ℚ) ≤ n := by exact_mod_cast Nat.one_le_iff_ne_zero.mpr hne
      have hpow : (100 : ℚ) ≤ 2 ^ 1022 :=
        (show (100 : ℚ) ≤ 2 ^ 7 by norm_num).trans (pow_le_pow_right₀ one_le_two (by norm_num))
      have htiny : (1 : ℚ) / 2 ^ 1022 ≤ 1 / 100 := one_div_le_one_div_of_le (by norm_num) hpow
      exact absurd hsmall (not_lt.mpr (htiny.trans (div_le_div_of_nonneg_right h1 (by norm_num))))
    have hround : halfEven (((0 : ℕ) : ℚ) / 100 * 2 ^ 1074) = 0 := by
      rw [Nat.cast_zero, zero_div, zero_mul]
      exact halfEven_intCast 0
    rw [if_pos hsmall, hzero, hround]
    exact ⟨_, rfl, by simp, by norm_num⟩
  · have hround := abs_binary64_le (n / 100 : ℚ)
    have hnonneg := binary64_nonneg hv0
    rw [abs_of_nonneg hnonneg, habs] at hround
    have hle : binary64 (n / 100 : ℚ) ≤ 2 * 10 ^ 20 := by linarith
    have hmax : (2 * 10 ^ 20 : ℚ) < 2 ^ 1024 :=
      (show (2 * 10 ^ 20 : ℚ) < 2 ^ 68 by norm_num).trans_le
        (pow_le_pow_right₀ one_le_two (by norm_num))
    rw [if_neg hsmall, abs_of_nonneg hnonneg, if_pos (hle.trans_lt hmax)]
    exact ⟨_, rfl, hnonneg, hle⟩

/-- What the column makes of it fits. -/
theorem numeric78_numericOfDouble {x : ℚ} (h0 : 0 ≤ x) (h : x ≤ 2 * 10 ^ 20) :
    numeric78 (numericOfDouble x) = true := by
  have hround := abs_toDigits_sub_le (b := 10) (p := 15) (by norm_num) x
  have hnonneg := toDigits_nonneg (b := 10) (p := 15) (by norm_num) h0
  have hle : toDigits 10 15 x ≤ 4 * 10 ^ 20 := by
    have hfactor : ((10 : ℕ) : ℚ) ^ (1 - ((15 : ℕ) : ℤ)) / 2 ≤ 1 := by norm_num [zpow_neg]
    have hbound : |toDigits 10 15 x - x| ≤ x := by
      refine hround.trans ?_
      rw [abs_of_nonneg h0]
      exact mul_le_of_le_one_right h0 hfactor
    linarith [(abs_le.mp hbound).2]
  have hfloor : ⌊toDigits 10 15 x + 1 / 2⌋ ≤ 4 * 10 ^ 20 := by
    have hlt : ⌊toDigits 10 15 x + 1 / 2⌋ < 4 * 10 ^ 20 + 1 := by
      rw [Int.floor_lt]
      push_cast
      linarith
    omega
  have hfloor0 : 0 ≤ ⌊toDigits 10 15 x + 1 / 2⌋ := Int.floor_nonneg.mpr (by linarith)
  rw [numeric78, numericOfDouble, if_pos hnonneg, decide_eq_true_eq]
  omega

/-- The service decodes just what was printed. -/
theorem handleConn_shareLine (haddr : isValidBtcAddress btcAddr = true)
    (hworker : worker.all isWorkerChar = true) (hcut : worker.length ≤ 63) (h0 : 0 ≤ trueDiff)
    (h20 : trueDiff ≤ 10 ^ 20) (hport : port ≤ 65535) :
    ∃ x, 0 ≤ x ∧ x ≤ 2 * 10 ^ 20 ∧ handleConn (shareLine btcAddr worker difficulty trueDiff port) =
      [.recordShare ⟨btcAddr, worker, printInt difficulty.toNat, x, port⟩] := by
  obtain ⟨x, hx, hx0, hx20⟩ := parseFloat_printFixed2 h0 h20
  have hplain := plain_shareMembers difficulty port haddr hworker h0
  set members := shareMembers btcAddr worker difficulty trueDiff port with hmembers
  have hshort : btcAddr.length ≤ 90 := by
    simp only [isValidBtcAddress, Bool.and_eq_true, decide_eq_true_eq] at haddr
    have hlt := haddr.1.2
    unfold REWARD_ADDR_LEN at hlt
    omega
  have hlen := length_shareLine_le difficulty port hshort hcut h0 h20 hport
  rw [shareLine_eq, ← hmembers, List.length_append, List.length_singleton] at hlen
  have hcr : (Json.render (.object members)).getLast? ≠ some '\r' := by
    rw [Json.render, ← List.cons_append, List.getLast?_concat]
    decide
  have hmsg := unmarshalInbound_share (Json.parse_render hplain) hx (bigSetString_printInt port)
    ⟨by omega, by omega⟩
  refine ⟨x, hx0, hx20, ?_⟩
  rw [shareLine_eq]
  exact handleConn_line (Json.newline_not_mem_render hplain) hcr (by omega) hmsg rfl

end

/-! ## What the tables take -/

/-- The limits of the columns in `shares` and `workers`. -/
structure FitsColumns (sh : BufferedShare) : Prop where
  btcAddress : varchar 90 sh.btcAddress = true
  workerName : varchar 64 sh.workerName = true
  shareDifficulty : numeric78 sh.difficulty = true
  trueDifficulty : numeric78 (numericOfDouble sh.trueDiff) = true
  sourcePort : -2 ^ 31 ≤ sh.sourcePort ∧ sh.sourcePort < 2 ^ 31

theorem FitsColumns.storable {sh : BufferedShare} (h : FitsColumns sh) {db : Db}
    (hround : sh.roundID ∈ db.rounds.map RoundRow.id) : sh.Storable db where
  admits := by
    have hrounds : db.rounds.any (fun r => r.id = sh.columns.roundId) = true := by
      obtain ⟨r, hr, hid⟩ := List.mem_map.mp hround
      exact List.any_eq_true.mpr ⟨r, hr, decide_eq_true hid⟩
    have htrue : sh.columns.trueDifficulty.all numeric78 = true := h.trueDifficulty
    simp only [Db.admits, Bool.and_eq_true]
    exact ⟨⟨⟨⟨hrounds, h.btcAddress⟩, h.workerName⟩, h.shareDifficulty⟩, htrue⟩
  port_ge := h.sourcePort.1
  port_lt := h.sourcePort.2

/-- The message credits the username with the difficulty, and the share it
becomes fails no flush of its round. -/
structure CreditsShare (msg : ShareMsg) (username : Text) (difficulty : UInt64) : Prop where
  btcAddress : msg.btcAddress = (username.takeWhile (· ≠ '.')).take 90
  workerName : msg.workerName = ((username.dropWhile (· ≠ '.')).drop 1).take 63
  difficulty : bigSetString msg.difficulty = some (difficulty.toNat : ℤ)
  flushed : ∀ roundID, ∃ sh, recordShare roundID msg = some sh ∧ FitsColumns sh ∧
    ∀ db : Db, roundID ∈ db.rounds.map RoundRow.id → sh.Harmless db

theorem varchar_of_all {n : ℕ} {s : Text} (hlen : s.length ≤ n) (h : s.all isWorkerChar = true) :
    varchar n s = true := by
  have hnul : NUL ∉ s := fun hmem => absurd (List.all_eq_true.mp h _ hmem) (by decide)
  rw [varchar, Bool.and_eq_true, decide_eq_true_eq, decide_eq_true_eq]
  exact ⟨hlen, hnul⟩

theorem length_usernameAddress_le (username : Text) : (usernameAddress username).length ≤ 90 :=
  List.length_take_le _ _

theorem length_usernameWorker_le (username : Text) : (usernameWorker username).length ≤ 63 :=
  List.length_take_le _ _

/-- What is written has passed both filters and is not cut. -/
theorem datumRewardShareSubmit_cases (connected : Bool) (username : Text) (difficulty : UInt64)
    {trueDiff : ℚ} (h0 : 0 ≤ trueDiff) (h20 : trueDiff ≤ 10 ^ 20) {port : ℕ} (hport : port ≤ 65535) :
    datumRewardShareSubmit connected (some username) difficulty trueDiff port = none ∨
      isValidBtcAddress (usernameAddress username) = true ∧
        (usernameWorker username).all isWorkerChar = true ∧
        datumRewardShareSubmit connected (some username) difficulty trueDiff port =
          some (shareLine (usernameAddress username) (usernameWorker username) difficulty trueDiff
            port) := by
  have hlen := length_shareLine_le difficulty port (length_usernameAddress_le username)
    (length_usernameWorker_le username) h0 h20 hport
  have hfull := List.take_of_length_le (hlen.trans (by norm_num : 303 ≤ 511))
  simp only [datumRewardShareSubmit, Option.bind_eq_bind, Option.bind_some, hfull]
  by_cases hzero : difficulty = 0
  · exact .inl (if_pos hzero)
  rw [if_neg hzero]
  by_cases haddr : isValidBtcAddress (usernameAddress username) = true
  · rw [if_neg (not_not.mpr haddr)]
    by_cases hworker : (usernameWorker username).all isWorkerChar = true
    · rw [if_neg (not_not.mpr hworker)]
      by_cases hconnected : connected = true
      · exact .inr ⟨haddr, hworker, if_neg (not_not.mpr hconnected)⟩
      · exact .inl (if_pos hconnected)
    · exact .inl (if_pos hworker)
  · exact .inl (if_pos haddr)

/-- The row of a share that passed the filters. -/
theorem fitsColumns_of_valid {username : Text} (difficulty : UInt64) {port : ℕ}
    (haddr : isValidBtcAddress (usernameAddress username) = true)
    (hworker : (usernameWorker username).all isWorkerChar = true) {x : ℚ} (h0 : 0 ≤ x)
    (h20 : x ≤ 2 * 10 ^ 20) (hport : port ≤ 65535) (roundID : ℕ) :
    FitsColumns ⟨roundID, usernameAddress username, usernameWorker username, difficulty.toNat, x, port⟩ := by
  have hlt := difficulty.toNat_lt
  have hworkerLen := (length_usernameWorker_le username).trans (by norm_num : 63 ≤ 64)
  refine ⟨varchar_of_all (length_usernameAddress_le username) (all_isWorkerChar haddr),
    varchar_of_all hworkerLen hworker, ?_, numeric78_numericOfDouble h0 h20, ?_, ?_⟩
  · rw [numeric78, decide_eq_true_eq, Int.natAbs_natCast]
    omega
  · simp only
    omega
  · simp only
    omega

/-- **A share is credited as it was submitted, or not at all.** -/
theorem share_submit_credits (connected : Bool) (username : Text) (difficulty : UInt64)
    {trueDiff : ℚ} (h0 : 0 ≤ trueDiff) (h20 : trueDiff ≤ 10 ^ 20) {port : ℕ} (hport : port ≤ 65535) :
    datumRewardShareSubmit connected (some username) difficulty trueDiff port = none ∨
      ∃ line msg,
        datumRewardShareSubmit connected (some username) difficulty trueDiff port = some line ∧
        line = shareLine (usernameAddress username) (usernameWorker username) difficulty trueDiff
          port ∧
        line.length < 512 ∧ handleConn line = [.recordShare msg] ∧
        CreditsShare msg username difficulty := by
  rcases datumRewardShareSubmit_cases connected username difficulty h0 h20 hport with
    hnone | ⟨haddr, hworker, hsent⟩
  · exact .inl hnone
  · right
    have hlen := length_shareLine_le difficulty port (length_usernameAddress_le username)
      (length_usernameWorker_le username) h0 h20 hport
    obtain ⟨x, hx0, hx20, hconn⟩ := handleConn_shareLine difficulty port haddr hworker
      (length_usernameWorker_le username) h0 h20 hport
    have hdiff := bigSetString_printInt (difficulty.toNat : ℤ)
    refine ⟨_, _, hsent, rfl, by omega, hconn, rfl, rfl, hdiff, fun roundID => ?_⟩
    have hfits := fitsColumns_of_valid difficulty haddr hworker hx0 hx20 hport roundID
    have hrecord := congrArg (Option.map fun diff : ℤ => (⟨roundID, usernameAddress username,
      usernameWorker username, diff, x, port⟩ : BufferedShare)) hdiff
    exact ⟨_, hrecord, hfits, fun db hround => (hfits.storable hround).harmless⟩

theorem share_submit_credits_rig :
    ∃ line msg, datumRewardShareSubmit true (some "bc1qabc.rig_1".toList) 65536 (24691 / 2) 23334 =
        some line ∧ line.length < 512 ∧ handleConn line = [.recordShare msg] ∧
      CreditsShare msg "bc1qabc.rig_1".toList 65536 := by
  have hsubmit : (datumRewardShareSubmit true (some "bc1qabc.rig_1".toList) 65536 (24691 / 2)
      23334).isSome := by
    have haddr : isValidBtcAddress (usernameAddress "bc1qabc.rig_1".toList) = true := by decide
    have hworker : (usernameWorker "bc1qabc.rig_1".toList).all isWorkerChar = true := by decide
    simp only [datumRewardShareSubmit, Option.bind_eq_bind, Option.bind_some, haddr, hworker,
      not_true_eq_false, if_false]
    rfl
  obtain hnone | ⟨line, msg, hline, -, hlen, hconn, hcredits⟩ :=
    share_submit_credits true "bc1qabc.rig_1".toList 65536 (show (0 : ℚ) ≤ 24691 / 2 by norm_num)
      (by norm_num) (show 23334 ≤ 65535 by norm_num)
  · exact absurd hnone (Option.isSome_iff_ne_none.mp hsubmit)
  · exact ⟨line, msg, hline, hlen, hconn, hcredits⟩

end Gateway
