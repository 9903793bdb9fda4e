import Unlucky21.Lib.Json
import Unlucky21.Reward.Flushing

/-!
# Messages on the reward socket

`handleConn` reads lines, decodes each into an `inboundMsg` and calls the
handler its type names. A line that is no JSON, or has a field of another type,
is skipped.
-/

namespace Reward

open Wire SignificantDigits

/-- `inboundMsg`, with Go's zero values. -/
structure InboundMsg where
  type : Text := []
  minerAddress : Text := []
  feesSats : ℤ := 0
  btcAddress : Text := []
  workerName : Text := []
  difficulty : Text := []
  trueDifficulty : ℚ := 0
  sourcePort : ℤ := 0
  height : ℤ := 0
  hash : Text := []
  finderAddress : Text := []
  coinbaseTxID : Text := []
deriving DecidableEq, Repr

/-! ## Decoding -/

/-- `encoding/json` finds a field by its name in any case; two other characters
fold to ASCII letters. -/
def foldName (key : Text) : Text :=
  key.map fun c => if c = '\u017f' then 's' else if c = '\u212a' then 'k' else c.toLower

/-- A decoder of one field. A null leaves the field as it is. -/
abbrev FieldDecoder := Json.Value → InboundMsg → Option InboundMsg

def stringField (set : InboundMsg → Text → InboundMsg) : FieldDecoder
  | .null, msg => some msg
  | .string s, msg => some (set msg s)
  | _, _ => none

def intField (bits : ℕ) (set : InboundMsg → ℤ → InboundMsg) : FieldDecoder
  | .null, msg => some msg
  | .number literal, msg => do
      let n ← bigSetString literal
      if -2 ^ (bits - 1) ≤ n ∧ n < 2 ^ (bits - 1) then some (set msg n) else none
  | _, _ => none

/-- `strconv.ParseFloat`: the nearest double, with fewer digits close to zero. -/
def parseFloat (x : ℚ) : Option ℚ :=
  if |x| < 1 / 2 ^ 1022 then some (halfEven (x * 2 ^ 1074) / 2 ^ 1074)
  else if |binary64 x| < 2 ^ 1024 then some (binary64 x)
  else none

def floatField (set : InboundMsg → ℚ → InboundMsg) : FieldDecoder
  | .null, msg => some msg
  | .number literal, msg => (parseFloat (Json.literalValue literal)).map (set msg)
  | _, _ => none

def inboundFields : List (Text × FieldDecoder) := [
  ("type".toList, stringField fun msg s => { msg with type := s }),
  ("miner_address".toList, stringField fun msg s => { msg with minerAddress := s }),
  ("fees_sats".toList, intField 64 fun msg n => { msg with feesSats := n }),
  ("btc_address".toList, stringField fun msg s => { msg with btcAddress := s }),
  ("worker_name".toList, stringField fun msg s => { msg with workerName := s }),
  ("difficulty".toList, stringField fun msg s => { msg with difficulty := s }),
  ("true_difficulty".toList, floatField fun msg x => { msg with trueDifficulty := x }),
  ("source_port".toList, intField 64 fun msg n => { msg with sourcePort := n }),
  ("height".toList, intField 32 fun msg n => { msg with height := n }),
  ("hash".toList, stringField fun msg s => { msg with hash := s }),
  ("finder_address".toList, stringField fun msg s => { msg with finderAddress := s }),
  ("coinbase_txid".toList, stringField fun msg s => { msg with coinbaseTxID := s })]

/-- A member without a field is skipped. -/
def InboundMsg.setField (msg : InboundMsg) (member : Text × Json.Value) : Option InboundMsg :=
  match inboundFields.find? fun field => field.1 = foldName member.1 with
  | some field => field.2 member.2 msg
  | none => some msg

/-- `json.Unmarshal(line, &msg)` -/
def unmarshalInbound (line : Text) : Option InboundMsg := do
  match ← Json.parse line with
  | .object members => members.foldlM InboundMsg.setField {}
  | .null => some {}
  | _ => none

/-! ## Lines and calls -/

inductive Call
  | getCoinbaseOutputs (minerAddress : Text) (feesSats : ℤ)
  | recordShare (msg : ShareMsg)
  | blockFound (msg : BlockFoundMsg)
deriving DecidableEq, Repr

def InboundMsg.call (msg : InboundMsg) : Option Call :=
  if msg.type = "coinbase".toList then some (.getCoinbaseOutputs msg.minerAddress msg.feesSats)
  else if msg.type = "share".toList then
    some (.recordShare
      ⟨msg.btcAddress, msg.workerName, msg.difficulty, msg.trueDifficulty, msg.sourcePort⟩)
  else if msg.type = "block_found".toList then
    some (.blockFound ⟨msg.height, msg.hash, msg.finderAddress, msg.coinbaseTxID, msg.feesSats⟩)
  else none

/-- A line from its characters in reverse, without a carriage return at its end. -/
def dropCR (current : Text) : Text :=
  if current.head? = some '\r' then current.tail.reverse else current.reverse

/-- `bufio.ScanLines`, with the front of the current line in reverse. -/
def scanLines : Text → Text → List Text
  | [], current => if current = [] then [] else [dropCR current]
  | c :: t, current =>
      if c = '\n' then dropCR current :: scanLines t [] else scanLines t (c :: current)

/-- The calls of one connection. A line of 64 KB ends it. -/
def handleConn (input : Text) : List Call :=
  ((scanLines input []).takeWhile (·.length < 64 * 1024)).filterMap fun line =>
    (unmarshalInbound line).bind InboundMsg.call

theorem scanLines_line {t : Text} (hline : '\n' ∉ t) (hcr : t.getLast? ≠ some '\r') :
    scanLines (t ++ ['\n']) [] = [t] := by
  have hscan : ∀ current : Text, scanLines (t ++ ['\n']) current =
      scanLines ['\n'] (t.reverse ++ current) := by
    clear hcr
    induction t with
    | nil => exact fun current => rfl
    | cons c t ih =>
        intro current
        rw [List.mem_cons, not_or] at hline
        obtain ⟨hc, ht⟩ := hline
        rw [List.cons_append, scanLines, if_neg (Ne.symm hc), ih ht, List.reverse_cons,
          List.append_assoc, List.singleton_append]
  rw [hscan, List.append_nil, scanLines, if_pos rfl, dropCR, List.head?_reverse, if_neg hcr,
    List.reverse_reverse]
  rfl

/-- A connection with one line. -/
theorem handleConn_line {t : Text} (hline : '\n' ∉ t) (hcr : t.getLast? ≠ some '\r')
    (hlen : t.length < 64 * 1024) {msg : InboundMsg} (hmsg : unmarshalInbound t = some msg)
    {call : Call} (hcall : msg.call = some call) : handleConn (t ++ ['\n']) = [call] := by
  rw [handleConn, scanLines_line hline hcr, List.takeWhile_cons_of_pos (by simpa using hlen),
    List.takeWhile_nil, List.filterMap_cons_some (b := call)]
  · rfl
  · rw [hmsg, Option.bind_some, hcall]

/-! ## Shares -/

/-- `RecordShare`, up to the buffer. -/
def recordShare (roundID : ℕ) (msg : ShareMsg) : Option BufferedShare :=
  (bigSetString msg.difficulty).map fun diff =>
    ⟨roundID, msg.btcAddress, msg.workerName, diff, msg.trueDiff, msg.sourcePort⟩

/-- The share fails no flush: what could be flushed without it can be flushed with it. -/
def BufferedShare.Harmless (db : Db) (sh : BufferedShare) : Prop :=
  ∀ (front back : List BufferedShare) (ks ks' : List (Text × Text)) (now : Time),
    Iterates (seenWorkers (front ++ back)) ks → Iterates (seenWorkers (front ++ sh :: back)) ks' →
      (flushShares db (front ++ back) ks now).isSome →
        (flushShares db (front ++ sh :: back) ks' now).isSome

theorem BufferedShare.Storable.harmless {db : Db} {sh : BufferedShare} (h : sh.Storable db) :
    sh.Harmless db := by
  intro front back ks ks' now hks hks' hflush
  obtain ⟨db', hdb'⟩ := Option.isSome_iff_exists.mp hflush
  obtain ⟨hadmits, -⟩ := (flushShares_eq_some_iff hks).mp hdb'
  refine Option.isSome_iff_exists.mpr
    ⟨_, (flushShares_eq_some_iff hks').mpr ⟨fun sh' hsh' => ?_, rfl⟩⟩
  rcases List.mem_append.mp hsh' with hfront | hback
  · exact hadmits sh' (List.mem_append_left _ hfront)
  · rcases List.mem_cons.mp hback with rfl | hback
    · exact h.admits
    · exact hadmits sh' (List.mem_append_right _ hback)

/-- What the fields of a share message are decoded to. -/
theorem unmarshalInbound_share {line : Text} {addr worker difficulty trueDiff port : Text}
    (hparse : Json.parse line = some (.object [
      ("type".toList, .string "share".toList), ("btc_address".toList, .string addr),
      ("worker_name".toList, .string worker), ("difficulty".toList, .string difficulty),
      ("true_difficulty".toList, .number trueDiff), ("source_port".toList, .number port)]))
    {x : ℚ} (hx : parseFloat (Json.literalValue trueDiff) = some x) {n : ℤ}
    (hn : bigSetString port = some n) (hport : -2 ^ 63 ≤ n ∧ n < 2 ^ 63) :
    unmarshalInbound line = some {
      type := "share".toList
      btcAddress := addr
      workerName := worker
      difficulty := difficulty
      trueDifficulty := x
      sourcePort := n } := by
  have htype : ∀ (msg : InboundMsg) (s : Text), msg.setField ("type".toList, .string s) =
      some { msg with type := s } := fun _ _ => rfl
  have haddr : ∀ (msg : InboundMsg) (s : Text), msg.setField ("btc_address".toList, .string s) =
      some { msg with btcAddress := s } := fun _ _ => rfl
  have hworker : ∀ (msg : InboundMsg) (s : Text), msg.setField ("worker_name".toList, .string s) =
      some { msg with workerName := s } := fun _ _ => rfl
  have hdiff : ∀ (msg : InboundMsg) (s : Text), msg.setField ("difficulty".toList, .string s) =
      some { msg with difficulty := s } := fun _ _ => rfl
  have htrue : ∀ msg : InboundMsg, msg.setField ("true_difficulty".toList, .number trueDiff) =
      some { msg with trueDifficulty := x } := fun msg => by
    show (parseFloat (Json.literalValue trueDiff)).map _ = _
    rw [hx, Option.map_some]
  have hsource : ∀ msg : InboundMsg, msg.setField ("source_port".toList, .number port) =
      some { msg with sourcePort := n } := fun msg => by
    show (bigSetString port).bind _ = _
    rw [hn, Option.bind_some]
    exact if_pos hport
  rw [unmarshalInbound, hparse]
  simp only [Option.bind_eq_bind, Option.bind_some, List.foldlM_cons, List.foldlM_nil, htype, haddr,
    hworker, hdiff, htrue, hsource, Option.pure_def]

end Reward
