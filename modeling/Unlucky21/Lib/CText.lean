import Unlucky21.Lib.Bytes

/-!
# C text buffers

A character buffer is the list of characters stored so far; everything behind
it is NUL, as in zero-initialised memory. `poke` overwrites a stretch of a
buffer, a `Cursor` is a buffer with the index the program writes at, and the
two ways of writing differ only in the terminator: `memcpy` and friends leave
what follows alone (`put`), `sprintf` also stores a NUL (`print`).

What the rest of the development uses is that the text in front of the cursor
(`written`) grows by exactly what is written, whatever the buffer held before.
-/

namespace CText

open Wire (Text)

abbrev NUL : Char := '\x00'

/-- The C string at the start of a buffer. -/
def cstr (buf : Text) : Text := buf.takeWhile (· ≠ NUL)

def poke (buf : Text) (i : ℕ) (t : Text) : Text :=
  buf.takeD i NUL ++ t ++ buf.drop (i + t.length)

theorem takeD_poke (buf : Text) (i : ℕ) (t : Text) :
    (poke buf i t).takeD (i + t.length) NUL = buf.takeD i NUL ++ t := by
  apply List.takeD_left'
  simp [List.takeD_length]

theorem takeD_takeD (l : Text) {k n : ℕ} (h : k ≤ n) :
    (l.takeD n NUL).takeD k NUL = l.takeD k NUL := by
  induction k generalizing l n with
  | zero => simp
  | succ k ih =>
      obtain ⟨n, rfl⟩ : ∃ m, n = m + 1 := ⟨n - 1, by omega⟩
      simp only [List.takeD_succ, List.head?_cons, Option.getD_some, List.tail_cons]
      rw [ih _ (by omega)]

theorem takeD_append_left {a b : Text} {k : ℕ} (h : k ≤ a.length) :
    (a ++ b).takeD k NUL = a.takeD k NUL := by
  rw [List.takeD_eq_take NUL (by simp; omega), List.takeD_eq_take NUL h,
    List.take_append_of_le_length h]

/-- Writing leaves everything in front of the index alone. -/
theorem takeD_poke_of_le (buf : Text) {i k : ℕ} (t : Text) (h : k ≤ i) :
    (poke buf i t).takeD k NUL = buf.takeD k NUL := by
  rw [poke, List.append_assoc, takeD_append_left (by rw [List.takeD_length]; exact h),
    takeD_takeD buf h]

theorem drop_poke (buf : Text) (i : ℕ) (t : Text) :
    (poke buf i t).drop (i + t.length) = buf.drop (i + t.length) := by
  rw [poke, List.drop_append_of_le_length (by simp [List.takeD_length])]
  rw [List.drop_eq_nil_of_le (by simp [List.takeD_length]), List.nil_append]

theorem poke_append (a b t : Text) : poke (a ++ b) a.length t = a ++ t ++ b.drop t.length := by
  have htake : (a ++ b).takeD a.length NUL = a := by
    rw [takeD_append_left le_rfl, List.takeD_eq_take NUL le_rfl, List.take_length]
  rw [poke, htake, List.drop_append, List.drop_eq_nil_of_le (by omega), List.nil_append,
    Nat.add_sub_cancel_left]

/-- A stretch overwritten by a text of the same length and a stray character,
which is then restored. -/
theorem poke_poke_append {a b b' : Text} {c d : Char} {r : Text} (h : b'.length = b.length) :
    poke (poke (a ++ (b ++ c :: r)) a.length (b' ++ [d])) (a.length + b'.length) [c] =
      a ++ (b' ++ c :: r) := by
  have hdrop : (b ++ c :: r).drop (b' ++ [d]).length = r := by
    have hlen : (b' ++ [d]).length = (b ++ [c]).length := by simp [h]
    have hsplit : b ++ c :: r = (b ++ [c]) ++ r := by simp
    rw [hlen, hsplit, List.drop_left]
  have hassoc : a ++ (b' ++ [d]) ++ r = (a ++ b') ++ (d :: r) := by simp
  have hlen : a.length + b'.length = (a ++ b').length := by simp
  rw [poke_append, hdrop, hassoc, hlen, poke_append]
  simp

theorem cstr_eq_self {t : Text} (hn : NUL ∉ t) : cstr t = t := by
  rw [cstr, List.takeWhile_eq_self_iff]
  intro c hc
  simpa using fun h0 : c = NUL => hn (h0 ▸ hc)

/-- A NUL-free stretch followed by a NUL is the C string. -/
theorem cstr_eq {buf t : Text} (ht : buf.takeD t.length NUL = t) (hn : NUL ∉ t)
    (hz : (buf.drop t.length).headD NUL = NUL) : cstr buf = t := by
  have hlen : t.length ≤ buf.length := by
    by_contra hlt
    apply hn
    rw [← ht]
    have hget : (buf.takeD t.length NUL)[buf.length]? = some NUL := by
      clear ht hn hz
      generalize t.length = n at hlt
      induction buf generalizing n with
      | nil =>
          obtain ⟨m, rfl⟩ : ∃ m, n = m + 1 := ⟨n - 1, by simp at hlt; omega⟩
          simp
      | cons c buf ih =>
          obtain ⟨m, rfl⟩ : ∃ m, n = m + 1 := ⟨n - 1, by simp at hlt; omega⟩
          simpa using ih m (by simp at hlt ⊢; omega)
    exact List.mem_of_getElem? hget
  have hsplit : buf = t ++ buf.drop t.length := by
    conv_lhs => rw [← List.take_append_drop t.length buf]
    rw [← List.takeD_eq_take NUL hlen, ht]
  have hall : ∀ c ∈ t, decide (c ≠ NUL) = true := by
    intro c hc
    simp only [ne_eq, decide_eq_true_eq]
    rintro rfl
    exact hn hc
  rw [cstr, hsplit, List.takeWhile_append_of_pos (by simpa using hall)]
  cases hd : buf.drop t.length with
  | nil => simp
  | cons c rest =>
      rw [hd] at hz
      simp only [List.headD_cons] at hz
      simp [hz]

/-! ## Cursors -/

structure Cursor where
  buf : Text
  idx : ℕ
deriving DecidableEq, Repr

namespace Cursor

/-- `memcpy`: store the characters, advance, no terminator. -/
def put (c : Cursor) (t : Text) : Cursor :=
  { buf := poke c.buf c.idx t, idx := c.idx + t.length }

/-- `sprintf`: store the characters and a NUL, advance over the characters. -/
def print (c : Cursor) (t : Text) : Cursor :=
  { buf := poke c.buf c.idx (t ++ [NUL]), idx := c.idx + t.length }

/-- The text in front of the cursor. -/
def written (c : Cursor) : Text := c.buf.takeD c.idx NUL

/-- The character at the cursor is a NUL: the text in front of it is a C
string. -/
def Terminated (c : Cursor) : Prop := (c.buf.drop c.idx).headD NUL = NUL

@[simp] theorem length_written (c : Cursor) : c.written.length = c.idx :=
  List.takeD_length ..

@[simp] theorem written_put (c : Cursor) (t : Text) :
    (c.put t).written = c.written ++ t :=
  takeD_poke ..

@[simp] theorem written_print (c : Cursor) (t : Text) :
    (c.print t).written = c.written ++ t := by
  have h := takeD_poke c.buf c.idx (t ++ [NUL])
  have hcut := takeD_takeD (poke c.buf c.idx (t ++ [NUL]))
    (k := c.idx + t.length) (n := c.idx + (t ++ [NUL]).length) (by simp)
  change (poke c.buf c.idx (t ++ [NUL])).takeD (c.idx + t.length) NUL = _
  rw [← hcut, h, ← List.append_assoc]
  apply List.takeD_left'
  simp [List.takeD_length]

@[simp] theorem idx_put (c : Cursor) (t : Text) : (c.put t).idx = c.idx + t.length := rfl

@[simp] theorem idx_print (c : Cursor) (t : Text) : (c.print t).idx = c.idx + t.length := rfl

@[simp] theorem terminated_print (c : Cursor) (t : Text) : (c.print t).Terminated := by
  have hlen : (c.buf.takeD c.idx NUL ++ t).length = c.idx + t.length := by
    simp [List.takeD_length]
  change ((poke c.buf c.idx (t ++ [NUL])).drop (c.idx + t.length)).headD NUL = NUL
  rw [poke, ← List.append_assoc, List.append_assoc, ← hlen, List.drop_left]
  rfl

/-- A terminated cursor holds a C string: what was written, if no NUL is in it. -/
theorem cstr_buf {c : Cursor} (ht : c.Terminated) (hn : NUL ∉ c.written) :
    cstr c.buf = c.written := by
  apply cstr_eq
  · rw [length_written]
    rfl
  · exact hn
  · rw [length_written]
    exact ht

/-- A piece of the text in front of the cursor. -/
theorem slice_buf (c : Cursor) {i n : ℕ} (h : i + n ≤ c.idx) :
    (c.buf.drop i).takeD n NUL = (c.written.drop i).take n := by
  have hdrop : ∀ (l : Text) (i m : ℕ), i ≤ m →
      (l.takeD m NUL).drop i = (l.drop i).takeD (m - i) NUL := by
    intro l i
    induction i generalizing l with
    | zero => simp
    | succ i ih =>
        intro m hm
        obtain ⟨m, rfl⟩ : ∃ k, m = k + 1 := ⟨m - 1, by omega⟩
        rw [List.takeD_succ, List.drop_succ_cons, ih _ _ (by omega), Nat.add_sub_add_right]
        cases l <;> simp
  have hlen : n ≤ ((c.buf.drop i).takeD (c.idx - i) NUL).length := by
    rw [List.takeD_length]
    omega
  rw [written, hdrop _ _ _ (by omega), ← List.takeD_eq_take NUL hlen, takeD_takeD _ (by omega)]

end Cursor

/-! ## Searching -/

/-- `strchr`: the text from the first `c` on. -/
def strchr (c : Char) : Text → Option Text
  | [] => none
  | d :: t => if d = c then some (d :: t) else strchr c t

/-- `strstr`: the text from the first occurrence of the needle on. -/
def strstr (needle : Text) : Text → Option Text
  | [] => if needle = [] then some [] else none
  | d :: t => if needle.isPrefixOf (d :: t) then some (d :: t) else strstr needle t

theorem strchr_append {c : Char} : ∀ {t r : Text}, c ∉ t →
    strchr c (t ++ c :: r) = some (c :: r)
  | [], r, _ => by simp [strchr]
  | d :: t, r, h => by
      have hd : d ≠ c := fun e => h (by simp [e])
      have ht : c ∉ t := fun e => h (List.mem_cons_of_mem _ e)
      simp [strchr, hd, strchr_append ht]

theorem strstr_append_self (needle r : Text) : strstr needle (needle ++ r) = some (needle ++ r) := by
  cases needle with
  | nil => cases r <;> simp [strstr]
  | cons c n =>
      have hp : (c :: n).isPrefixOf (c :: (n ++ r)) = true := by
        rw [List.isPrefixOf_iff_prefix]
        exact ⟨r, rfl⟩
      simp only [List.cons_append, strstr, hp, if_true]

/-- A character the needle does not start with is skipped. -/
theorem strstr_skip {c d : Char} {n t : Text} (h : d ≠ c) :
    strstr (c :: n) (d :: t) = strstr (c :: n) t := by
  simp [strstr, List.isPrefixOf, Ne.symm h]

theorem strstr_skips {c : Char} {n : Text} : ∀ {s t : Text}, c ∉ s →
    strstr (c :: n) (s ++ t) = strstr (c :: n) t
  | [], _, _ => rfl
  | d :: s, t, h => by
      have hd : d ≠ c := fun e => h (by simp [e])
      have hs : c ∉ s := fun e => h (List.mem_cons_of_mem _ e)
      rw [List.cons_append, strstr_skip hd, strstr_skips hs]

/-- A position whose continuation does not match is skipped. -/
theorem strstr_mismatch {c : Char} {n t : Text} (h : ¬ n <+: t) :
    strstr (c :: n) (c :: t) = strstr (c :: n) t := by
  have hp : (c :: n).isPrefixOf (c :: t) = false := by
    rw [Bool.eq_false_iff]
    intro hcon
    rw [List.isPrefixOf_iff_prefix] at hcon
    exact h ((List.cons_prefix_cons.mp hcon).2)
  simp [strstr, hp]

/-- What is in front of the character, and what is behind it. -/
theorem exists_of_strchr {c : Char} : ∀ {t u : Text}, strchr c t = some u →
    ∃ s r, c ∉ s ∧ t = s ++ c :: r ∧ u = c :: r
  | d :: t, u, h => by
      rw [strchr] at h
      split_ifs at h with hd
      · obtain rfl := Option.some.inj h
        exact ⟨[], t, List.not_mem_nil, by rw [hd, List.nil_append], by rw [hd]⟩
      · obtain ⟨s, r, hs, rfl, rfl⟩ := exists_of_strchr h
        exact ⟨d :: s, r, by simpa [Ne.symm hd] using hs, rfl, rfl⟩

theorem strchr_eq_none {c : Char} {t : Text} (h : c ∉ t) : strchr c t = none := by
  by_contra hne
  obtain ⟨u, hu⟩ := Option.ne_none_iff_exists'.mp hne
  obtain ⟨s, r, -, rfl, -⟩ := exists_of_strchr hu
  exact h (List.mem_append_right _ List.mem_cons_self)

theorem strstr_eq_some {n : Text} : ∀ {t u : Text}, strstr n t = some u → n <+: u ∧ u <:+ t
  | [], u, h => by
      rw [strstr] at h
      split_ifs at h with hn
      obtain rfl := Option.some.inj h
      exact ⟨hn ▸ List.prefix_refl _, List.suffix_refl _⟩
  | d :: t, u, h => by
      rw [strstr] at h
      split_ifs at h with hn
      · obtain rfl := Option.some.inj h
        exact ⟨List.isPrefixOf_iff_prefix.mp hn, List.suffix_refl _⟩
      · obtain ⟨hfront, hback⟩ := strstr_eq_some h
        exact ⟨hfront, hback.trans (List.suffix_cons d t)⟩

/-- What is found is found also when the text goes on. -/
theorem strstr_append_right {n : Text} : ∀ {t u : Text}, strstr n t = some u → ∀ r : Text,
    strstr n (t ++ r) = some (u ++ r)
  | [], u, h, r => by
      rw [strstr] at h
      split_ifs at h with hn
      obtain rfl := Option.some.inj h
      rw [hn]
      exact strstr_append_self [] r
  | d :: t, u, h, r => by
      rw [strstr] at h
      rw [List.cons_append, strstr]
      split_ifs at h with hn
      · obtain rfl := Option.some.inj h
        have hlong : n.isPrefixOf (d :: (t ++ r)) = true :=
          List.isPrefixOf_iff_prefix.mpr
            ((List.isPrefixOf_iff_prefix.mp hn).trans (List.prefix_append (d :: t) r))
        rw [if_pos hlong, List.cons_append]
      · -- an occurrence over the end of the text would be behind the first one
        have hn' : ¬ n.isPrefixOf (d :: (t ++ r)) = true := by
          intro hlong
          obtain ⟨hfront, hback⟩ := strstr_eq_some h
          have hlen : n.length ≤ (d :: t).length :=
            (hfront.length_le.trans hback.length_le).trans (Nat.le_succ _)
          refine hn (List.isPrefixOf_iff_prefix.mpr (List.prefix_of_prefix_length_le
            (List.isPrefixOf_iff_prefix.mp hlong) ?_ hlen))
          exact List.prefix_append (d :: t) r
        rw [if_neg hn', strstr_append_right h]

/-! ## Numbers -/

/-- The digits at the front; reading stops at the first other character. -/
def atollDigits : Text → ℕ → ℕ
  | [], acc => acc
  | c :: t, acc => if c.isDigit then atollDigits t (10 * acc + (c.toNat - '0'.toNat)) else acc

def isSpace (c : Char) : Bool := c == ' ' || ('\t' ≤ c && c ≤ '\r')

def saturate (n : ℤ) : ℤ := max (-2 ^ 63) (min n (2 ^ 63 - 1))

/-- `atoll`: blanks, an optional sign and digits; out of range it saturates. -/
def atoll (t : Text) : ℤ :=
  match t.dropWhile isSpace with
  | '-' :: ds => saturate (-atollDigits ds 0)
  | '+' :: ds => saturate (atollDigits ds 0)
  | ds => saturate (atollDigits ds 0)

theorem atoll_range (t : Text) : -2 ^ 63 ≤ atoll t ∧ atoll t < 2 ^ 63 := by
  unfold atoll
  split <;> unfold saturate <;> omega

/-- Signed decimal: C's `%lld`, and how a decimal integer is written in JSON. -/
def printInt : ℤ → Text
  | .ofNat n => Nat.toDigits 10 n
  | .negSucc n => '-' :: Nat.toDigits 10 (n + 1)

theorem atollDigits_append {ds r : Text} (hd : ∀ c ∈ ds, c.isDigit = true)
    (hr : ∀ c ∈ r.head?, c.isDigit = false) :
    ∀ acc, atollDigits (ds ++ r) acc = Nat.ofDigitChars 10 ds acc := by
  induction ds with
  | nil =>
      intro acc
      cases r with
      | nil => rfl
      | cons c r =>
          have hc : c.isDigit = false := hr c (by simp)
          simp [atollDigits, hc]
  | cons c ds ih =>
      intro acc
      have hc : c.isDigit = true := hd c List.mem_cons_self
      rw [List.cons_append, atollDigits, if_pos hc,
        ih (fun x hx => hd x (List.mem_cons_of_mem _ hx)), Nat.ofDigitChars_cons]

theorem isDigit_of_mem_toDigits {n : ℕ} {c : Char} (h : c ∈ Nat.toDigits 10 n) :
    c.isDigit = true :=
  Nat.isDigit_of_mem_toDigits (by norm_num) (by norm_num) h

theorem exists_toDigits_cons (n : ℕ) : ∃ c ds, Nat.toDigits 10 n = c :: ds ∧ c.isDigit = true := by
  cases h : Nat.toDigits 10 n with
  | nil => exact absurd h (List.length_pos_iff.mp Nat.length_toDigits_pos)
  | cons c ds => exact ⟨c, ds, rfl, isDigit_of_mem_toDigits (h ▸ List.mem_cons_self)⟩

/-- No leading zero. -/
theorem head_toDigits_ne_zero {n : ℕ} (h : 0 < n) : ∀ c ∈ (Nat.toDigits 10 n).head?, c ≠ '0' := by
  induction n using Nat.strong_induction_on with
  | _ n ih =>
      rcases lt_or_ge n 10 with hlt | hge
      · intro c hc
        obtain rfl : Nat.digitChar n = c := by simpa [Nat.toDigits_of_lt_base hlt] using hc
        interval_cases n <;> decide
      · rw [Nat.toDigits_of_base_le (by norm_num) hge,
          List.head?_append_of_ne_nil _ Nat.toDigits_ne_nil]
        exact ih (n / 10) (by omega) (by omega)

theorem printInt_injective : Function.Injective printInt := by
  have hdigits : ∀ {m n : ℕ}, Nat.toDigits 10 m = Nat.toDigits 10 n → m = n := fun {m n} h => by
    rw [← Nat.ofDigitChars_ten_toDigits (n := m), h, Nat.ofDigitChars_ten_toDigits]
  have hminus : ∀ {n : ℕ} {ds : Text}, Nat.toDigits 10 n ≠ '-' :: ds := fun {n ds} h => by
    have hdigit : ('-').isDigit = true := isDigit_of_mem_toDigits (h ▸ List.mem_cons_self)
    exact absurd hdigit (by decide)
  intro z w h
  cases z with
  | ofNat m =>
      cases w with
      | ofNat n => exact congrArg Int.ofNat (hdigits h)
      | negSucc n => exact absurd h hminus
  | negSucc m =>
      cases w with
      | ofNat n => exact absurd h.symm hminus
      | negSucc n => exact congrArg Int.negSucc (Nat.succ.inj (hdigits (List.cons.inj h).2))

theorem not_isSpace_of_isDigit {c : Char} (h : c.isDigit = true) : isSpace c = false := by
  simp only [Char.isDigit, Bool.and_eq_true, decide_eq_true_eq, ge_iff_le] at h
  have h0 : 48 ≤ c.val.toNat := UInt32.le_iff_toNat_le.mp h.1
  have hspace : c ≠ ' ' := by
    rintro rfl
    exact absurd h0 (by decide)
  have hcr : ¬ c ≤ '\r' := by
    intro hle
    have : c.val.toNat ≤ 13 := UInt32.le_iff_toNat_le.mp hle
    omega
  simp [isSpace, hspace, hcr]

/-- What is behind the digits does not matter. -/
theorem atoll_digits_append {sign ds r : Text} (hsign : sign = [] ∨ sign = ['-']) (hne : ds ≠ [])
    (hds : ∀ c ∈ ds, c.isDigit = true) (hr : ∀ c ∈ r.head?, c.isDigit = false) :
    atoll (sign ++ (ds ++ r)) = saturate (if sign = [] then (Nat.ofDigitChars 10 ds 0 : ℤ)
      else -(Nat.ofDigitChars 10 ds 0 : ℤ)) := by
  have hread : atollDigits (ds ++ r) 0 = Nat.ofDigitChars 10 ds 0 := atollDigits_append hds hr 0
  obtain ⟨c, ds', rfl⟩ := List.exists_cons_of_ne_nil hne
  have hc : c.isDigit = true := hds c List.mem_cons_self
  have hminus : c ≠ '-' := by rintro rfl; exact absurd hc (by decide)
  have hplus : c ≠ '+' := by rintro rfl; exact absurd hc (by decide)
  rw [List.cons_append] at hread
  rcases hsign with rfl | rfl
  · simp only [atoll, List.nil_append, List.cons_append, List.dropWhile_cons,
      not_isSpace_of_isDigit hc, Bool.false_eq_true, if_false, if_true]
    split
    next h => exact absurd (List.cons.inj h).1 hminus
    next h => exact absurd (List.cons.inj h).1 hplus
    next => rw [hread]
  · have hspace : isSpace '-' = false := by decide
    simp only [atoll, List.cons_append, List.nil_append, List.dropWhile_cons, hspace,
      Bool.false_eq_true, if_false, hread, reduceCtorEq]

/-- Reading back a printed 64-bit integer, whatever other than a digit is behind. -/
theorem atoll_printInt_append {z : ℤ} (hlo : -2 ^ 63 ≤ z) (hhi : z < 2 ^ 63) {r : Text}
    (hr : ∀ c ∈ r.head?, c.isDigit = false) : atoll (printInt z ++ r) = z := by
  have hsat : saturate z = z := by unfold saturate; omega
  cases z with
  | ofNat n =>
      have h := atoll_digits_append (.inl rfl) Nat.toDigits_ne_nil
        (fun _ hc => isDigit_of_mem_toDigits (n := n) hc) hr
      rw [List.nil_append, if_pos rfl, Nat.ofDigitChars_ten_toDigits] at h
      exact h.trans hsat
  | negSucc n =>
      have h := atoll_digits_append (.inr rfl) Nat.toDigits_ne_nil
        (fun _ hc => isDigit_of_mem_toDigits (n := n + 1) hc) hr
      rw [if_neg (List.cons_ne_nil _ _), Nat.ofDigitChars_ten_toDigits] at h
      exact h.trans hsat

/-- Blanks in front do not count, and it does not matter who skips them. -/
theorem atoll_append_of_isSpace {b t : Text} (h : ∀ c ∈ b, isSpace c = true) :
    atoll (b ++ t) = atoll t := by
  rw [atoll, atoll, List.dropWhile_append_of_pos h]

theorem atoll_dropWhile {q : Char → Bool} (hq : ∀ c, q c = true → isSpace c = true) (t : Text) :
    atoll (t.dropWhile q) = atoll t := by
  have hfront : ∀ c ∈ t.takeWhile q, isSpace c = true := fun c hc =>
    hq c (List.mem_takeWhile_imp hc)
  conv_rhs => rw [← List.takeWhile_append_dropWhile (p := q) (l := t)]
  rw [atoll_append_of_isSpace hfront]

/-! ## `strtoul` in base 16 -/

open Wire

def hexDigit? (c : Char) : Option ℕ :=
  if '0' ≤ c ∧ c ≤ '9' then some (c.toNat - '0'.toNat)
  else if 'a' ≤ c ∧ c ≤ 'f' then some (c.toNat - 'a'.toNat + 10)
  else if 'A' ≤ c ∧ c ≤ 'F' then some (c.toNat - 'A'.toNat + 10)
  else none

/-- The digits at the front; reading stops at the first other character. -/
def strtoulDigits : Text → ℕ → ℕ
  | [], acc => acc
  | c :: t, acc =>
      match hexDigit? c with
      | some d => strtoulDigits t (16 * acc + d)
      | none => acc

/-- `0x` in front counts only with a digit behind it. -/
def skipHexMark : Text → Text
  | '0' :: x :: d :: t =>
      if (x = 'x' ∨ x = 'X') ∧ (hexDigit? d).isSome then d :: t else '0' :: x :: d :: t
  | t => t

def wrapUlong (negative : Bool) (n : ℕ) : ℕ :=
  if 2 ^ 64 ≤ n then 2 ^ 64 - 1 else if negative then (2 ^ 64 - n) % 2 ^ 64 else n

/-- `strtoul(s, NULL, 16)`: blanks, an optional sign, an optional mark and
digits; out of range it saturates, and a minus sign wraps. -/
def strtoul16 (t : Text) : ℕ :=
  match t.dropWhile isSpace with
  | '-' :: ds => wrapUlong true (strtoulDigits (skipHexMark ds) 0)
  | '+' :: ds => wrapUlong false (strtoulDigits (skipHexMark ds) 0)
  | ds => wrapUlong false (strtoulDigits (skipHexMark ds) 0)

def isLowerHex (c : Char) : Bool := ('0' ≤ c && c ≤ '9') || ('a' ≤ c && c ≤ 'f')

theorem exists_digitChar {c : Char} (h : isLowerHex c = true) :
    ∃ n < 16, Nat.digitChar n = c := by
  have hval : (48 ≤ c.toNat ∧ c.toNat ≤ 57) ∨ (97 ≤ c.toNat ∧ c.toNat ≤ 102) := by
    simpa [isLowerHex, Char.le_def, UInt32.le_iff_toNat_le] using h
  have hchar : ∀ n < 103, (48 ≤ n ∧ n ≤ 57) ∨ (97 ≤ n ∧ n ≤ 102) →
      ∃ d < 16, (Nat.digitChar d).toNat = n := by decide
  obtain ⟨d, hd, hc⟩ := hchar c.toNat (by omega) hval
  exact ⟨d, hd, Char.toNat_inj.mp hc⟩

theorem isLowerHex_digitChar {n : ℕ} (h : n < 16) : isLowerHex (Nat.digitChar n) = true := by
  interval_cases n <;> decide

theorem hexDigit?_digitChar {n : ℕ} (h : n < 16) : hexDigit? (Nat.digitChar n) = some n := by
  interval_cases n <;> decide

theorem strtoulDigits_append {s : Text} (hs : ∀ c ∈ s, isLowerHex c = true) (t : Text) :
    ∀ acc, strtoulDigits (s ++ t) acc = strtoulDigits t (strtoulDigits s acc) := by
  induction s with
  | nil => exact fun _ => rfl
  | cons c s ih =>
      intro acc
      obtain ⟨d, hd, rfl⟩ := exists_digitChar (hs c List.mem_cons_self)
      simp only [List.cons_append, strtoulDigits, hexDigit?_digitChar hd]
      exact ih (fun x hx => hs x (List.mem_cons_of_mem _ hx)) _

theorem isLowerHex_hexFixed (w n : ℕ) : ∀ c ∈ hexFixed w n, isLowerHex c = true := by
  induction w generalizing n with
  | zero => simp [hexFixed]
  | succ w ih =>
      intro c hc
      rw [hexFixed, List.mem_append, List.mem_singleton] at hc
      rcases hc with hc | rfl
      · exact ih _ c hc
      · exact isLowerHex_digitChar (Nat.mod_lt _ (by norm_num))

theorem strtoulDigits_hexFixed {w n : ℕ} (h : n < 16 ^ w) :
    strtoulDigits (hexFixed w n) 0 = n := by
  induction w generalizing n with
  | zero =>
      simp only [pow_zero] at h
      simp only [hexFixed, strtoulDigits]
      omega
  | succ w ih =>
      have hdiv : n / 16 < 16 ^ w := by
        rw [pow_succ] at h
        omega
      rw [hexFixed, strtoulDigits_append (isLowerHex_hexFixed w _), ih hdiv]
      simp only [strtoulDigits, hexDigit?_digitChar (Nat.mod_lt n (by norm_num : 16 > 0))]
      omega

/-- The digits are those of the number they are read as. -/
theorem hexFixed_strtoulDigits {t : Text} (h : ∀ c ∈ t, isLowerHex c = true) :
    strtoulDigits t 0 < 16 ^ t.length ∧ hexFixed t.length (strtoulDigits t 0) = t := by
  induction t using List.reverseRecOn with
  | nil => exact ⟨by norm_num [strtoulDigits], rfl⟩
  | append_singleton t c ih =>
      have ht : ∀ c ∈ t, isLowerHex c = true := fun x hx => h x (List.mem_append_left _ hx)
      obtain ⟨hlt, hfix⟩ := ih ht
      obtain ⟨d, hd, rfl⟩ := exists_digitChar (h c (by simp))
      have hread : strtoulDigits (t ++ [Nat.digitChar d]) 0 = 16 * strtoulDigits t 0 + d := by
        rw [strtoulDigits_append ht]
        simp only [strtoulDigits, hexDigit?_digitChar hd]
      have hdiv : (16 * strtoulDigits t 0 + d) / 16 = strtoulDigits t 0 := by omega
      have hmod : (16 * strtoulDigits t 0 + d) % 16 = d := by omega
      rw [hread, List.length_append, List.length_singleton, hexFixed, hdiv, hmod, hfix, pow_succ]
      exact ⟨by omega, rfl⟩

theorem skipHexMark_of_isLowerHex {t : Text} (h : ∀ c ∈ t, isLowerHex c = true) :
    skipHexMark t = t := by
  unfold skipHexMark
  split
  next x d t =>
    have hx : isLowerHex x = true := h x (by simp)
    have hmark : ¬ (x = 'x' ∨ x = 'X') := by
      rintro (rfl | rfl) <;> exact absurd hx (by decide)
    rw [if_neg (fun hc => hmark hc.1)]
  next => rfl

/-- Hex digits with nothing in front are read as they stand. -/
theorem strtoul16_of_isLowerHex {t : Text} (h : ∀ c ∈ t, isLowerHex c = true)
    (hlen : t.length ≤ 16) : strtoul16 t = strtoulDigits t 0 := by
  have hlt : strtoulDigits t 0 < 2 ^ 64 :=
    calc strtoulDigits t 0 < 16 ^ t.length := (hexFixed_strtoulDigits h).1
      _ ≤ 16 ^ 16 := Nat.pow_le_pow_right (by norm_num) hlen
      _ = 2 ^ 64 := by norm_num
  have hwrap : wrapUlong false (strtoulDigits t 0) = strtoulDigits t 0 := by
    rw [wrapUlong, if_neg (Nat.not_le.mpr hlt), if_neg Bool.false_ne_true]
  have hdrop : t.dropWhile isSpace = t := by
    cases t with
    | nil => rfl
    | cons c t =>
        obtain ⟨d, hd, rfl⟩ := exists_digitChar (h c List.mem_cons_self)
        have hspace : isSpace (Nat.digitChar d) = false := by
          interval_cases d <;> decide
        rw [List.dropWhile_cons_of_neg (by simp [hspace])]
  have hsign : ∀ c ∈ t, c ≠ '-' ∧ c ≠ '+' := by
    intro c hc
    constructor <;> rintro rfl <;> exact absurd (h _ hc) (by decide)
  unfold strtoul16
  rw [hdrop]
  split
  next => exact absurd rfl (hsign _ List.mem_cons_self).1
  next => exact absurd rfl (hsign _ List.mem_cons_self).2
  next => rw [skipHexMark_of_isLowerHex h, hwrap]

/-! ## Hexadecimal text

`Encodes digits t bs`: the NUL-free text `t` is read, pair by pair, as `bs`. -/

def Encodes (digits : Char → Char → UInt8) (t : Text) (bs : Bytes) : Prop :=
  2 ∣ t.length ∧ unhex digits t = bs ∧ NUL ∉ t

section Encodes

variable {digits : Char → Char → UInt8}

theorem Encodes.nil : Encodes digits [] [] := ⟨by simp, rfl, by simp⟩

theorem Encodes.append {s t : Text} {as bs : Bytes}
    (hs : Encodes digits s as) (ht : Encodes digits t bs) :
    Encodes digits (s ++ t) (as ++ bs) := by
  obtain ⟨hs2, rfl, hsn⟩ := hs
  obtain ⟨ht2, rfl, htn⟩ := ht
  refine ⟨?_, unhex_append hs2, ?_⟩
  · rw [List.length_append]
    exact Nat.dvd_add hs2 ht2
  · simp [hsn, htn]

theorem Encodes.length_eq {t : Text} {bs : Bytes} (h : Encodes digits t bs) :
    t.length = 2 * bs.length := by
  rw [← h.2.1, unhex_length h.1]

theorem Encodes.unhex_eq {t : Text} {bs : Bytes} (h : Encodes digits t bs) :
    unhex digits t = bs := h.2.1

theorem Encodes.nul_not_mem {t : Text} {bs : Bytes} (h : Encodes digits t bs) : NUL ∉ t :=
  h.2.2

theorem unhex_take : ∀ (k : ℕ) (t : Text), 2 * k ≤ t.length →
    unhex digits (t.take (2 * k)) = (unhex digits t).take k
  | 0, _, _ => by simp [unhex]
  | k + 1, [], h => by simp at h
  | k + 1, [_], h => by simp at h; omega
  | k + 1, c :: d :: t, h => by
      have hk : 2 * k ≤ t.length := by simp only [List.length_cons] at h; omega
      have h2 : 2 * (k + 1) = 2 * k + 1 + 1 := by ring
      rw [h2, List.take_succ_cons, List.take_succ_cons, unhex, unhex, List.take_succ_cons,
        unhex_take k t hk]

/-- The front of a text encodes the front of its bytes. -/
theorem Encodes.take {t : Text} {as bs : Bytes} (h : Encodes digits t (as ++ bs)) :
    Encodes digits (t.take (2 * as.length)) as := by
  have hlen := h.length_eq
  rw [List.length_append] at hlen
  refine ⟨?_, ?_, fun hmem => h.nul_not_mem (List.mem_of_mem_take hmem)⟩
  · rw [List.length_take, Nat.min_eq_left (by omega)]
    exact Nat.dvd_mul_right 2 _
  · rw [unhex_take _ _ (by omega), h.unhex_eq, List.take_left]

theorem unhex_drop : ∀ (k : ℕ) (t : Text), 2 * k ≤ t.length →
    unhex digits (t.drop (2 * k)) = (unhex digits t).drop k
  | 0, _, _ => by simp
  | k + 1, [], h => by simp at h
  | k + 1, [_], h => by simp at h; omega
  | k + 1, c :: d :: t, h => by
      have hk : 2 * k ≤ t.length := by simp only [List.length_cons] at h; omega
      have h2 : 2 * (k + 1) = 2 * k + 1 + 1 := by ring
      rw [h2, List.drop_succ_cons, List.drop_succ_cons, unhex, List.drop_succ_cons,
        unhex_drop k t hk]

theorem Encodes.drop {t : Text} {as bs : Bytes} (h : Encodes digits t (as ++ bs)) :
    Encodes digits (t.drop (2 * as.length)) bs := by
  have hlen := h.length_eq
  rw [List.length_append] at hlen
  refine ⟨?_, ?_, fun hmem => h.nul_not_mem (List.mem_of_mem_drop hmem)⟩
  · rw [List.length_drop, hlen]
    omega
  · rw [unhex_drop _ _ (by omega), h.unhex_eq, List.drop_left]

def digitValue (c : Char) : ℕ :=
  if c.isDigit then c.toNat - '0'.toNat else c.toNat - 'a'.toNat + 10

/-- Two digits a byte, high half first. -/
def hexOf (bs : Bytes) : Text :=
  bs.flatMap fun b => [Nat.digitChar (b.toNat / 16), Nat.digitChar (b.toNat % 16)]

theorem digitChar_ne_nul {n : ℕ} (h : n < 16) : Nat.digitChar n ≠ NUL := by
  interval_cases n <;> decide

theorem encodes_hexOf (hd : ReadsDigits digits) (bs : Bytes) : Encodes digits (hexOf bs) bs := by
  induction bs with
  | nil => exact Encodes.nil
  | cons b bs ih =>
      have hb : b.toNat < 256 := b.toNat_lt
      have hhi : b.toNat / 16 < 16 := by omega
      have hlo : b.toNat % 16 < 16 := by omega
      have hval : UInt8.ofNat (16 * (b.toNat / 16) + b.toNat % 16) = b := by
        rw [Nat.div_add_mod, UInt8.ofNat_toNat]
      have hpair : Encodes digits
          [Nat.digitChar (b.toNat / 16), Nat.digitChar (b.toNat % 16)] [b] := by
        refine ⟨by simp, by simp [unhex, hd _ _ hhi hlo, hval], ?_⟩
        simp only [List.mem_cons, List.not_mem_nil, or_false, not_or]
        exact ⟨(digitChar_ne_nul hhi).symm, (digitChar_ne_nul hlo).symm⟩
      exact hpair.append ih

theorem hexOf_append (as bs : Bytes) : hexOf (as ++ bs) = hexOf as ++ hexOf bs := List.flatMap_append

theorem hexOf_injective : Function.Injective hexOf := by
  intro as bs h
  let digits : Char → Char → UInt8 := fun hi lo => UInt8.ofNat (16 * digitValue hi + digitValue lo)
  have hd : ReadsDigits digits := by
    have hdigit : ∀ n < 16, digitValue (Nat.digitChar n) = n := by decide
    intro hi lo hhi hlo
    simp only [digits, hdigit hi hhi, hdigit lo hlo]
  have ha : unhex digits (hexOf as) = as := (encodes_hexOf hd as).unhex_eq
  have hb : unhex digits (hexOf bs) = bs := (encodes_hexOf hd bs).unhex_eq
  rw [← ha, h, hb]

/-- `2k` printed digits are the `k` big-endian bytes. -/
theorem hexFixed_eq_hexOf (k n : ℕ) : hexFixed (2 * k) n = hexOf (leBytes k n).reverse := by
  induction k generalizing n with
  | zero => rfl
  | succ k ih =>
      have hw : 2 * (k + 1) = (2 * k + 1) + 1 := by ring
      have hdiv : n / 16 / 16 = n / 256 := by omega
      have hhi : (UInt8.ofNat n).toNat / 16 = n / 16 % 16 := by
        simp only [UInt8.toNat_ofNat']
        omega
      have hlo : (UInt8.ofNat n).toNat % 16 = n % 16 := by
        simp only [UInt8.toNat_ofNat']
        omega
      have hpair : hexOf [UInt8.ofNat n] = [(n / 16 % 16).digitChar, (n % 16).digitChar] := by
        rw [← hhi, ← hlo]
        rfl
      rw [hw, hexFixed, hexFixed, hdiv, ih, leBytes, List.reverse_cons, hexOf_append, hpair,
        List.append_assoc]
      rfl

theorem printHex_eq_hexOf {k n : ℕ} (hk : 0 < k) (h : n < 256 ^ k) :
    printHex (2 * k) n = hexOf (leBytes k n).reverse := by
  rw [printHex_eq_hexFixed (by omega) (by rw [pow_mul]; norm_num; exact h), hexFixed_eq_hexOf]

theorem encodes_printHex (hd : ReadsDigits digits) {k n : ℕ} (hk : 0 < k) (h : n < 256 ^ k) :
    Encodes digits (printHex (2 * k) n) (leBytes k n).reverse :=
  printHex_eq_hexOf hk h ▸ encodes_hexOf hd _

/-- Reverse the eight bytes of a 64-bit value. -/
def bswap64 (n : ℕ) : ℕ := leNat (leBytes 8 n).reverse

/-- `%016llx` of the byte-swapped value is the little-endian value in hex. -/
theorem printHex_bswap64 (v : ℕ) : printHex 16 (bswap64 v) = hexOf (leBytes 8 v) := by
  have hlen : (leBytes 8 v).reverse.length = 8 := by simp
  have hlt : bswap64 v < 256 ^ 8 := by
    have := leNat_lt (leBytes 8 v).reverse
    rwa [hlen] at this
  have hback : leBytes 8 (bswap64 v) = (leBytes 8 v).reverse := by
    have := leBytes_leNat (leBytes 8 v).reverse
    rwa [hlen] at this
  have h := printHex_eq_hexOf (k := 8) (by norm_num) hlt
  rwa [hback, List.reverse_reverse] at h

theorem encodes_bswap64 (hd : ReadsDigits digits) (v : ℕ) :
    Encodes digits (printHex 16 (bswap64 v)) (leBytes 8 v) :=
  printHex_bswap64 v ▸ encodes_hexOf hd _

end Encodes

end CText
