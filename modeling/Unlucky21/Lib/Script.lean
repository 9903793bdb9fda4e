import Unlucky21.Lib.Transaction

/-!
# Scripts on the wire

A script is a sequence of elements: an opcode that stands alone, or a push with
its data behind. Up to 75 bytes the opcode of a push is the length; longer data
has its length in one, two or four bytes behind the opcode. `pushData` is the
shortest push there is for some data; the parser also takes longer ones.
-/

namespace Script

open Wire

inductive Element where
  | op (code : UInt8)
  | push (data : Bytes)
deriving DecidableEq, Repr

def pushData (data : Bytes) : Bytes :=
  if data.length ≤ 75 then UInt8.ofNat data.length :: data
  else if data.length ≤ 0xff then 0x4c :: (leBytes 1 data.length ++ data)
  else if data.length ≤ 0xffff then 0x4d :: (leBytes 2 data.length ++ data)
  else 0x4e :: (leBytes 4 data.length ++ data)

/-- A push with its length in `k` bytes. -/
def parsePush (k : ℕ) : Parser Element := fun bs => do
  let (n, bs) ← parseLe k bs
  let (data, bs) ← takeBytes n bs
  some (.push data, bs)

def parseElement : Parser Element
  | [] => none
  | b :: bs =>
      if b.toNat ≤ 75 then (takeBytes b.toNat bs).map fun p => (.push p.1, p.2)
      else if b = 0x4c then parsePush 1 bs
      else if b = 0x4d then parsePush 2 bs
      else if b = 0x4e then parsePush 4 bs
      else some (.op b, bs)

theorem parsePush_append (k : ℕ) {data : Bytes} (h : data.length < 256 ^ k) (rest : Bytes) :
    parsePush k (leBytes k data.length ++ (data ++ rest)) = some (.push data, rest) := by
  simp [parsePush, parseLe_append h, takeBytes_append]

theorem parseElement_pushData {data : Bytes} (h : data.length < 2 ^ 32) (rest : Bytes) :
    parseElement (pushData data ++ rest) = some (.push data, rest) := by
  unfold pushData
  split_ifs with h75 h8 h16
  · have hb : (UInt8.ofNat data.length).toNat = data.length := by
      simp only [UInt8.toNat_ofNat']
      omega
    simp [parseElement, hb, h75, takeBytes_append]
  · have hk : data.length < 256 ^ 1 := by norm_num; omega
    simp [parseElement, List.append_assoc, parsePush_append 1 hk rest]
  · have hk : data.length < 256 ^ 2 := by norm_num; omega
    simp [parseElement, List.append_assoc, parsePush_append 2 hk rest]
  · have hk : data.length < 256 ^ 4 := by norm_num; omega
    simp [parseElement, List.append_assoc, parsePush_append 4 hk rest]

theorem length_pushData_le {data : Bytes} (h : data.length ≤ 0xff) :
    (pushData data).length ≤ data.length + 2 := by
  unfold pushData
  split_ifs
  · simp
  · simp; omega

theorem length_pushData_le' (data : Bytes) : (pushData data).length ≤ data.length + 5 := by
  unfold pushData
  split_ifs <;> simp <;> omega

/-! ## Whole scripts -/

def Element.ser : Element → Bytes
  | .op code => [code]
  | .push data => pushData data

/-- An opcode is not one of a push, and data has a length of 32 bits. -/
def Element.Fits : Element → Prop
  | .op code => 0x4e < code.toNat
  | .push data => data.length < 2 ^ 32

/-- Every element takes a byte, so there are no more of them than bytes. -/
def parseElements : ℕ → Bytes → Option (List Element)
  | _, [] => some []
  | 0, _ :: _ => none
  | fuel + 1, b :: bs => do
      let (e, rest) ← parseElement (b :: bs)
      let es ← parseElements fuel rest
      some (e :: es)

def parseScript (bs : Bytes) : Option (List Element) := parseElements bs.length bs

theorem parseElement_ser {e : Element} (h : e.Fits) (rest : Bytes) :
    parseElement (e.ser ++ rest) = some (e, rest) := by
  cases e with
  | op code =>
      have h75 : ¬ code.toNat ≤ 75 := by
        intro hle
        exact absurd h (by simp only [Element.Fits]; omega)
      have hcode : ∀ c : UInt8, c.toNat ≤ 0x4e → code ≠ c := by
        rintro c hc rfl
        exact absurd h (by simp only [Element.Fits]; omega)
      simp [parseElement, Element.ser, h75, hcode 0x4c (by decide), hcode 0x4d (by decide),
        hcode 0x4e (by decide)]
  | push data => exact parseElement_pushData h rest

theorem exists_ser_eq_cons (e : Element) : ∃ b bs, e.ser = b :: bs := by
  cases e with
  | op code => exact ⟨code, [], rfl⟩
  | push data =>
      simp only [Element.ser, pushData]
      split_ifs <;> exact ⟨_, _, rfl⟩

theorem parseElements_flatMap {es : List Element} (h : ∀ e ∈ es, e.Fits) :
    ∀ fuel, es.length ≤ fuel → parseElements fuel (es.flatMap Element.ser) = some es := by
  induction es with
  | nil =>
      intro fuel _
      cases fuel <;> rfl
  | cons e es ih =>
      intro fuel hfuel
      obtain ⟨fuel, rfl⟩ : ∃ k, fuel = k + 1 := ⟨fuel - 1, by simp at hfuel; omega⟩
      have hes : ∀ x ∈ es, x.Fits := fun x hx => h x (List.mem_cons_of_mem _ hx)
      have hrest := ih hes fuel (by simpa using hfuel)
      obtain ⟨b, bs, hser⟩ := exists_ser_eq_cons e
      have hparse := parseElement_ser (h e List.mem_cons_self) (es.flatMap Element.ser)
      rw [hser, List.cons_append] at hparse
      rw [List.flatMap_cons, hser, List.cons_append, parseElements]
      simp [hparse, hrest]

theorem length_le_length_flatMap_ser (es : List Element) :
    es.length ≤ (es.flatMap Element.ser).length := by
  induction es with
  | nil => simp
  | cons e es ih =>
      obtain ⟨b, bs, hser⟩ := exists_ser_eq_cons e
      simp only [List.flatMap_cons, hser, List.length_cons, List.length_append]
      omega

/-- **Round trip.** -/
theorem parseScript_flatMap {es : List Element} (h : ∀ e ∈ es, e.Fits) :
    parseScript (es.flatMap Element.ser) = some es :=
  parseElements_flatMap h _ (length_le_length_flatMap_ser es)

/-! ## Numbers -/

/-- A positive number in as few bytes as leave the sign bit of the last one clear. -/
structure IsScriptNum (bs : Bytes) (n : ℕ) : Prop where
  value : leNat bs = n
  sign : n < 2 ^ (8 * bs.length - 1)
  shortest : ∀ k < bs.length, 2 ^ (8 * k - 1) ≤ n

theorem IsScriptNum.length_le {bs : Bytes} {n k : ℕ} (h : IsScriptNum bs n)
    (hn : n < 2 ^ (8 * k - 1)) : bs.length ≤ k := by
  by_contra hlt
  exact absurd (h.shortest k (Nat.not_le.mp hlt)) (Nat.not_le.mpr hn)

end Script
