import Unlucky21.Lib.Bytes

/-!
# Bitcoin transactions on the wire

The serialization without witness data: version, inputs, outputs, lock time,
the lists and scripts prefixed by a CompactSize count. A parser takes a byte
string and returns a value with the bytes left over; `parseTx` accepts a byte
string only when nothing is left. Counts must be in shortest form.

Each `parse…_append` lemma is the round trip of one layer with arbitrary bytes
behind it, so that a layer is proved from the one below by rewriting.
-/

namespace Wire

abbrev Parser (α : Type*) := Bytes → Option (α × Bytes)

/-! ## Primitive fields -/

def takeBytes (k : ℕ) : Parser Bytes := fun bs =>
  if k ≤ bs.length then some (bs.take k, bs.drop k) else none

def parseLe (k : ℕ) : Parser ℕ := fun bs =>
  (takeBytes k bs).map fun p => (leNat p.1, p.2)

theorem takeBytes_append {k : ℕ} {as rest : Bytes} (h : as.length = k) :
    takeBytes k (as ++ rest) = some (as, rest) := by
  subst h
  simp [takeBytes]

theorem takeBytes_eq_none {k : ℕ} {bs : Bytes} (h : bs.length < k) :
    takeBytes k bs = none := by
  simp [takeBytes, h]

theorem parseLe_append_bytes {k : ℕ} {as rest : Bytes} (h : as.length = k) :
    parseLe k (as ++ rest) = some (leNat as, rest) := by
  simp [parseLe, takeBytes_append h]

theorem parseLe_append {k n : ℕ} (h : n < 256 ^ k) (rest : Bytes) :
    parseLe k (leBytes k n ++ rest) = some (n, rest) := by
  rw [parseLe_append_bytes (leBytes_length k n), leNat_leBytes h]

theorem parseLe_eq_none {k : ℕ} {bs : Bytes} (h : bs.length < k) : parseLe k bs = none := by
  simp [parseLe, takeBytes_eq_none h]

/-! ## CompactSize -/

def compactSize (n : ℕ) : Bytes :=
  if n < 0xfd then [UInt8.ofNat n]
  else if n < 2 ^ 16 then 0xfd :: leBytes 2 n
  else if n < 2 ^ 32 then 0xfe :: leBytes 4 n
  else 0xff :: leBytes 8 n

/-- A marker's payload, rejected when a shorter form would have done. -/
def parseWide (k least : ℕ) : Parser ℕ := fun bs =>
  (parseLe k bs).filter fun p => least ≤ p.1

def parseCompactSize : Parser ℕ
  | [] => none
  | b :: bs =>
      if b.toNat < 0xfd then some (b.toNat, bs)
      else if b.toNat = 0xfd then parseWide 2 0xfd bs
      else if b.toNat = 0xfe then parseWide 4 (2 ^ 16) bs
      else parseWide 8 (2 ^ 32) bs

theorem parseWide_append {k least n : ℕ} (hlo : least ≤ n) (hhi : n < 256 ^ k)
    (rest : Bytes) : parseWide k least (leBytes k n ++ rest) = some (n, rest) := by
  simp [parseWide, parseLe_append hhi, hlo]

theorem parseCompactSize_append {n : ℕ} (h : n < 2 ^ 64) (rest : Bytes) :
    parseCompactSize (compactSize n ++ rest) = some (n, rest) := by
  unfold compactSize
  split_ifs with h1 h2 h3
  · have hb : (UInt8.ofNat n).toNat = n := by
      simp only [UInt8.toNat_ofNat']
      omega
    simp [parseCompactSize, hb, h1]
  · have hn : n < 256 ^ 2 := by norm_num; omega
    have := parseWide_append (Nat.not_lt.mp h1) hn rest
    simpa [parseCompactSize] using this
  · have hn : n < 256 ^ 4 := by norm_num; omega
    have := parseWide_append (Nat.not_lt.mp h2) hn rest
    simpa [parseCompactSize] using this
  · have hn : n < 256 ^ 8 := by norm_num; omega
    have := parseWide_append (Nat.not_lt.mp h3) hn rest
    simpa [parseCompactSize] using this

theorem compactSize_of_lt {n : ℕ} (h : n < 0xfd) : compactSize n = [UInt8.ofNat n] := by
  simp [compactSize, h]

theorem compactSize_length_pos (n : ℕ) : 0 < (compactSize n).length := by
  unfold compactSize
  split_ifs <;> simp

theorem compactSize_length_le (n : ℕ) : (compactSize n).length ≤ 9 := by
  unfold compactSize
  split_ifs <;> simp

theorem compactSize_length_of_lt {n : ℕ} (h : n < 0xfd) : (compactSize n).length = 1 := by
  rw [compactSize_of_lt h, List.length_singleton]

theorem compactSize_length_of_ge {n : ℕ} (h : 0xfd ≤ n) (h' : n < 2 ^ 16) :
    (compactSize n).length = 3 := by
  rw [compactSize, if_neg (Nat.not_lt.mpr h), if_pos h', List.length_cons, leBytes_length]

theorem compactSize_length_le_three {n : ℕ} (h : n < 2 ^ 16) : (compactSize n).length ≤ 3 := by
  rcases lt_or_ge n 0xfd with hlt | hge
  · exact (compactSize_length_of_lt hlt).le.trans (by norm_num)
  · exact (compactSize_length_of_ge hge h).le

/-! ## Scripts and outputs -/

def varBytes (s : Bytes) : Bytes := compactSize s.length ++ s

def parseVarBytes : Parser Bytes := fun bs => do
  let (n, bs) ← parseCompactSize bs
  takeBytes n bs

theorem parseVarBytes_append {s : Bytes} (h : s.length < 2 ^ 64) (rest : Bytes) :
    parseVarBytes (varBytes s ++ rest) = some (s, rest) := by
  simp [parseVarBytes, varBytes, List.append_assoc, parseCompactSize_append h,
    takeBytes_append]

structure TxOut where
  value : ℕ
  script : Bytes
deriving DecidableEq, Repr

def TxOut.ser (o : TxOut) : Bytes := leBytes 8 o.value ++ varBytes o.script

/-- The value fits in 64 bits, and so does the script's length. -/
structure TxOut.Fits (o : TxOut) : Prop where
  value : o.value < 2 ^ 64
  script : o.script.length < 2 ^ 64

def parseTxOut : Parser TxOut := fun bs => do
  let (v, bs) ← parseLe 8 bs
  let (s, bs) ← parseVarBytes bs
  some (⟨v, s⟩, bs)

theorem parseTxOut_append {o : TxOut} (h : o.Fits) (rest : Bytes) :
    parseTxOut (o.ser ++ rest) = some (o, rest) := by
  have hv : o.value < 256 ^ 8 := by have := h.value; norm_num; omega
  simp [parseTxOut, TxOut.ser, List.append_assoc, parseLe_append hv,
    parseVarBytes_append h.script]

theorem TxOut.ser_length_ge (o : TxOut) : 9 ≤ o.ser.length := by
  have := compactSize_length_pos o.script.length
  simp only [TxOut.ser, varBytes, List.length_append, leBytes_length]
  omega

/-! ## Counted lists -/

def parseMany {α : Type*} (p : Parser α) : ℕ → Parser (List α)
  | 0 => fun bs => some ([], bs)
  | n + 1 => fun bs => do
      let (x, bs) ← p bs
      let (xs, bs) ← parseMany p n bs
      some (x :: xs, bs)

theorem parseMany_append {α : Type*} {p : Parser α} {ser : α → Bytes} :
    ∀ {xs : List α}, (∀ x ∈ xs, ∀ rest, p (ser x ++ rest) = some (x, rest)) →
      ∀ rest, parseMany p xs.length (xs.flatMap ser ++ rest) = some (xs, rest)
  | [], _, rest => rfl
  | x :: xs, h, rest => by
      have hx := h x List.mem_cons_self
      have htail : ∀ y ∈ xs, ∀ rest, p (ser y ++ rest) = some (y, rest) :=
        fun y hy => h y (List.mem_cons_of_mem _ hy)
      have ih := parseMany_append htail rest
      simp [parseMany, List.append_assoc, hx, ih]

/-- Parsing more elements than a serialized prefix holds goes on behind it. -/
theorem parseMany_add {α : Type*} {p : Parser α} {ser : α → Bytes} :
    ∀ {xs : List α}, (∀ x ∈ xs, ∀ rest, p (ser x ++ rest) = some (x, rest)) →
      ∀ (n : ℕ) (rest : Bytes), parseMany p (xs.length + n) (xs.flatMap ser ++ rest) =
        (parseMany p n rest).map fun q => (xs ++ q.1, q.2)
  | [], _, n, rest => by
      simp
  | x :: xs, h, n, rest => by
      have hx := h x List.mem_cons_self
      have htail : ∀ y ∈ xs, ∀ rest, p (ser y ++ rest) = some (y, rest) :=
        fun y hy => h y (List.mem_cons_of_mem _ hy)
      have ih := parseMany_add htail n rest
      have hlen : (x :: xs).length + n = (xs.length + n) + 1 := by simp; omega
      rw [hlen]
      simp only [parseMany, List.flatMap_cons, List.append_assoc, hx, Option.bind_eq_bind,
        Option.bind_some, ih]
      cases parseMany p n rest <;> simp

def serOuts (outs : List TxOut) : Bytes := outs.flatMap TxOut.ser

@[simp] theorem serOuts_nil : serOuts [] = [] := rfl

@[simp] theorem serOuts_cons (o : TxOut) (outs : List TxOut) :
    serOuts (o :: outs) = o.ser ++ serOuts outs := rfl

@[simp] theorem serOuts_append (as bs : List TxOut) :
    serOuts (as ++ bs) = serOuts as ++ serOuts bs := by
  simp [serOuts, List.flatMap_append]

/-- An output with a short script costs nine bytes more than the script. -/
theorem TxOut.ser_length_of_lt {o : TxOut} (h : o.script.length < 0xfd) :
    o.ser.length = o.script.length + 9 := by
  simp only [TxOut.ser, varBytes, List.length_append, leBytes_length, compactSize_length_of_lt h]
  omega

/-! ## Transactions -/

structure TxIn where
  prevout : Bytes
  scriptSig : Bytes
  sequence : Bytes
deriving DecidableEq, Repr

def TxIn.ser (i : TxIn) : Bytes := i.prevout ++ varBytes i.scriptSig ++ i.sequence

structure TxIn.Fits (i : TxIn) : Prop where
  prevout : i.prevout.length = 36
  scriptSig : i.scriptSig.length < 2 ^ 64
  sequence : i.sequence.length = 4

def parseTxIn : Parser TxIn := fun bs => do
  let (p, bs) ← takeBytes 36 bs
  let (s, bs) ← parseVarBytes bs
  let (q, bs) ← takeBytes 4 bs
  some (⟨p, s, q⟩, bs)

theorem parseTxIn_append {i : TxIn} (h : i.Fits) (rest : Bytes) :
    parseTxIn (i.ser ++ rest) = some (i, rest) := by
  simp [parseTxIn, TxIn.ser, List.append_assoc, takeBytes_append h.prevout,
    parseVarBytes_append h.scriptSig, takeBytes_append h.sequence]

structure Tx where
  version : ℕ
  ins : List TxIn
  outs : List TxOut
  lockTime : ℕ
deriving DecidableEq, Repr

def Tx.ser (t : Tx) : Bytes :=
  leBytes 4 t.version ++ (compactSize t.ins.length ++ t.ins.flatMap TxIn.ser) ++
    (compactSize t.outs.length ++ serOuts t.outs) ++ leBytes 4 t.lockTime

structure Tx.Fits (t : Tx) : Prop where
  version : t.version < 2 ^ 32
  ins : ∀ i ∈ t.ins, i.Fits
  insCount : t.ins.length < 2 ^ 64
  outs : ∀ o ∈ t.outs, o.Fits
  outsCount : t.outs.length < 2 ^ 64
  lockTime : t.lockTime < 2 ^ 32

/-- The transaction a byte string is, all of it consumed. -/
def parseTx (bs : Bytes) : Option Tx := do
  let (version, bs) ← parseLe 4 bs
  let (nIn, bs) ← parseCompactSize bs
  let (ins, bs) ← parseMany parseTxIn nIn bs
  let (nOut, bs) ← parseCompactSize bs
  let (outs, bs) ← parseMany parseTxOut nOut bs
  let (lockTime, bs) ← parseLe 4 bs
  if bs = [] then some ⟨version, ins, outs, lockTime⟩ else none

theorem parseMany_outs {outs : List TxOut} (h : ∀ o ∈ outs, o.Fits) (rest : Bytes) :
    parseMany parseTxOut outs.length (serOuts outs ++ rest) = some (outs, rest) :=
  parseMany_append (fun o ho rest => parseTxOut_append (h o ho) rest) rest

/-- **Round trip.** -/
theorem parseTx_ser {t : Tx} (h : t.Fits) : parseTx t.ser = some t := by
  have hv : t.version < 256 ^ 4 := by have := h.version; norm_num; omega
  have hl : t.lockTime < 256 ^ 4 := by have := h.lockTime; norm_num; omega
  have hin : ∀ i ∈ t.ins, ∀ rest, parseTxIn (TxIn.ser i ++ rest) = some (i, rest) :=
    fun i hi rest => parseTxIn_append (h.ins i hi) rest
  have hins := fun rest => parseMany_append hin rest
  have houts := fun rest => parseMany_outs h.outs rest
  have hlock := parseLe_append hl []
  rw [List.append_nil] at hlock
  simp [parseTx, Tx.ser, List.append_assoc, parseLe_append hv,
    parseCompactSize_append h.insCount, hins, parseCompactSize_append h.outsCount, houts, hlock]

/-! ## Behind the input -/

/-- Output count, outputs and lock time, with nothing behind. -/
def parseBody (bs : Bytes) : Option (List TxOut × ℕ) := do
  let (nOut, bs) ← parseCompactSize bs
  let (outs, bs) ← parseMany parseTxOut nOut bs
  let (lockTime, bs) ← parseLe 4 bs
  if bs = [] then some (outs, lockTime) else none

theorem parseTx_head {version : ℕ} {i : TxIn} (hv : version < 2 ^ 32) (hi : i.Fits)
    (rest : Bytes) :
    parseTx (leBytes 4 version ++ compactSize 1 ++ i.ser ++ rest) =
      (parseBody rest).map fun p => ⟨version, [i], p.1, p.2⟩ := by
  have hv' : version < 256 ^ 4 := by norm_num; omega
  have hin : parseMany parseTxIn 1 (i.ser ++ rest) = some ([i], rest) := by
    simp [parseMany, parseTxIn_append hi]
  have hone := parseCompactSize_append (show 1 < 2 ^ 64 by norm_num) (i.ser ++ rest)
  simp only [parseTx, List.append_assoc, parseLe_append hv', hone, hin, Option.bind_eq_bind,
    Option.bind_some, parseBody]
  cases parseCompactSize rest with
  | none => rfl
  | some p =>
      simp only [Option.bind_some]
      cases parseMany parseTxOut p.1 p.2 with
      | none => rfl
      | some q =>
          simp only [Option.bind_some]
          cases parseLe 4 q.2 with
          | none => rfl
          | some r => by_cases hr : r.2 = [] <;> simp [hr]

/-- Outputs known to be there are parsed; the count says how many follow. -/
theorem parseMany_outs_add {outs : List TxOut} (h : ∀ o ∈ outs, o.Fits) (n : ℕ) (rest : Bytes) :
    parseMany parseTxOut (outs.length + n) (serOuts outs ++ rest) =
      (parseMany parseTxOut n rest).map fun q => (outs ++ q.1, q.2) :=
  parseMany_add (fun o ho rest => parseTxOut_append (h o ho) rest) n rest

theorem parseTxOut_eq_none {bs : Bytes} (h : bs.length < 8) : parseTxOut bs = none := by
  simp [parseTxOut, parseLe_eq_none h]

/-- **The count decides.** Outputs followed by a lock time are read exactly when
the count in front is theirs: one too many runs into the lock time, one too few
leaves bytes over. -/
theorem parseBody_ser {n lockTime : ℕ} {outs : List TxOut} (hn : n < 2 ^ 64)
    (hlock : lockTime < 2 ^ 32) (h : ∀ o ∈ outs, o.Fits) :
    parseBody (compactSize n ++ (serOuts outs ++ leBytes 4 lockTime)) =
      if n = outs.length then some (outs, lockTime) else none := by
  have hlock' : lockTime < 256 ^ 4 := by norm_num; omega
  simp only [parseBody, parseCompactSize_append hn, Option.bind_eq_bind, Option.bind_some]
  rcases lt_trichotomy n outs.length with hlt | heq | hgt
  · -- fewer: the lock time is read from the next output, which is longer
    rw [if_neg hlt.ne]
    have htake : ∀ o ∈ outs.take n, o.Fits := fun o ho => h o (List.mem_of_mem_take ho)
    have hlen : (outs.take n).length = n := by simp [hlt.le]
    obtain ⟨o, rest, hdrop⟩ : ∃ o rest, outs.drop n = o :: rest := by
      cases hd : outs.drop n with
      | nil => exact absurd (List.drop_eq_nil_iff.mp hd) (by omega)
      | cons o rest => exact ⟨o, rest, rfl⟩
    have hsplit : serOuts outs ++ leBytes 4 lockTime =
        serOuts (outs.take n) ++ (o.ser ++ (serOuts rest ++ leBytes 4 lockTime)) := by
      conv_lhs => rw [← List.take_append_drop n outs, hdrop]
      simp [List.append_assoc]
    have hread := parseMany_outs htake (o.ser ++ (serOuts rest ++ leBytes 4 lockTime))
    rw [hlen] at hread
    have ho := o.ser_length_ge
    rw [hsplit, hread, Option.bind_some, parseLe, takeBytes, if_pos (by simp; omega)]
    simp only [Option.map_some, Option.bind_some, ite_eq_right_iff, reduceCtorEq, imp_false]
    intro hnil
    have := congrArg List.length hnil
    simp only [List.length_drop, List.length_append, List.length_nil] at this
    omega
  · rw [if_pos heq, heq, parseMany_outs h, Option.bind_some]
    have hread := parseLe_append hlock' []
    rw [List.append_nil] at hread
    simp [hread]
  · -- more: the lock time is too short for an output
    rw [if_neg hgt.ne']
    obtain ⟨k, rfl⟩ : ∃ k, n = outs.length + (k + 1) := ⟨n - outs.length - 1, by omega⟩
    have hnone : parseMany parseTxOut (k + 1) (leBytes 4 lockTime) = none := by
      simp [parseMany, parseTxOut_eq_none]
    rw [parseMany_outs_add h, hnone]
    rfl

end Wire
