import Mathlib

/-!
# Replacing one stretch of a list by another

A splice replaces one occurrence of a target. What a splice does to some other
list `m` (a needle) follows from a check on three fixed lists: if `m` and the
target cannot overlap, or the replacement has `m` in it, then `m` stays where
it occurs; if `m` and the replacement cannot overlap, then `m` does not come up
where it did not occur. Neither depends on what is around the target.
-/

namespace Rewriting

variable {α : Type*}

/-! ## Splices -/

structure Rewrite (α : Type*) where
  target : List α
  replacement : List α
deriving DecidableEq

/-- One occurrence of the target gives way to the replacement. -/
def Splice (e : Rewrite α) (s s' : List α) : Prop :=
  ∃ a b, s = a ++ e.target ++ b ∧ s' = a ++ e.replacement ++ b

/-- Any number of splices, each by one of some rewrites. -/
def Edits (es : List (Rewrite α)) : List α → List α → Prop :=
  Relation.ReflTransGen fun s s' => ∃ e ∈ es, Splice e s s'

theorem Splice.edits {es : List (Rewrite α)} {e : Rewrite α} {s s' : List α} (hmem : e ∈ es)
    (h : Splice e s s') : Edits es s s' :=
  Relation.ReflTransGen.single ⟨e, hmem, h⟩

/-- What is in front does not matter. -/
theorem Edits.append_left {es : List (Rewrite α)} {s s' : List α} (p : List α)
    (h : Edits es s s') : Edits es (p ++ s) (p ++ s') := by
  induction h with
  | refl => exact Relation.ReflTransGen.refl
  | tail _ hstep ih =>
      obtain ⟨e, hmem, a, b, rfl, rfl⟩ := hstep
      refine ih.tail ⟨e, hmem, p ++ a, b, ?_, ?_⟩ <;> simp only [List.append_assoc]

variable [DecidableEq α]

/-! ## Overlaps -/

/-- One is the beginning of the other. -/
def agree : List α → List α → Bool
  | c :: m, d :: t => decide (c = d) && agree m t
  | _, _ => true

/-- Some stretch of `m` up to its end agrees with `t`: an occurrence of `t` may
begin inside one of `m`. -/
def touches (t : List α) : List α → Bool
  | [] => false
  | c :: m => agree (c :: m) t || touches t m

/-- Occurrences of `m` and `t` never share a position. -/
def apart (m t : List α) : Bool := !touches t m && !touches m t

theorem agree_of_prefix : ∀ {m t s : List α}, m <+: s → t <+: s → agree m t = true
  | [], _, _, _, _ => by simp [agree]
  | _ :: _, [], _, _, _ => by simp [agree]
  | c :: m, d :: t, [], hm, _ => by simp at hm
  | c :: m, d :: t, e :: s, hm, ht => by
      obtain ⟨hc, hm'⟩ := List.cons_prefix_cons.mp hm
      obtain ⟨hd, ht'⟩ := List.cons_prefix_cons.mp ht
      simp [agree, hc, hd, agree_of_prefix hm' ht']

theorem touches_of_drop {t s : List α} : ∀ {m : List α}, ∀ k < m.length, m.drop k <+: s →
    t <+: s → touches t m = true
  | c :: m, 0, _, hdrop, ht => by
      simp [touches, agree_of_prefix (by simpa using hdrop) ht]
  | c :: m, k + 1, hk, hdrop, ht => by
      have htail := touches_of_drop k (by simpa using hk) (by simpa using hdrop) ht
      simp [touches, htail]

/-- Two occurrences that never share a position: one is in front of the other. -/
theorem infix_of_apart {m t x y a b : List α} (h : apart m t = true)
    (heq : x ++ m ++ y = a ++ t ++ b) : m <:+: a ∨ m <:+: b := by
  simp only [apart, Bool.and_eq_true, Bool.not_eq_true'] at h
  simp only [List.append_assoc] at heq
  have hneedle : m <+: (x ++ (m ++ y)).drop x.length := by simp
  have htarget : t <+: (x ++ (m ++ y)).drop a.length := by
    rw [heq]
    simp
  rcases le_total x.length a.length with hxa | hax
  · obtain ⟨k, hk⟩ := Nat.le.dest hxa
    by_cases hin : k < m.length
    · -- the target begins inside the needle
      have hdrop : m.drop k <+: (x ++ (m ++ y)).drop a.length := by
        rw [← hk, ← List.drop_drop, List.drop_left, List.drop_append_of_le_length hin.le]
        exact List.prefix_append _ _
      have := touches_of_drop k hin hdrop htarget
      rw [h.1] at this
      cases this
    · left
      have hlen : (x ++ m).length ≤ a.length := by
        rw [List.length_append]
        omega
      have hfront : x ++ m <+: a ++ (t ++ b) := by
        rw [← heq, ← List.append_assoc]
        exact List.prefix_append _ _
      have hpre : x ++ m <+: a :=
        List.prefix_of_prefix_length_le hfront (List.prefix_append _ _) hlen
      exact List.infix_append_right.trans hpre.isInfix
  · obtain ⟨k, hk⟩ := Nat.le.dest hax
    by_cases hin : k < t.length
    · -- the needle begins inside the target
      have hdrop : t.drop k <+: (x ++ (m ++ y)).drop x.length := by
        rw [heq, ← hk, ← List.drop_drop, List.drop_left, List.drop_append_of_le_length hin.le]
        exact List.prefix_append _ _
      have := touches_of_drop k hin hdrop hneedle
      rw [h.2] at this
      cases this
    · right
      have hsuff : m ++ y <:+ b := by
        have hdrop := congrArg (List.drop x.length) heq
        rw [List.drop_left, ← hk, ← List.drop_drop, List.drop_left,
          List.drop_append, List.drop_eq_nil_of_le (Nat.not_lt.mp hin), List.nil_append] at hdrop
        rw [hdrop]
        exact List.drop_suffix _ _
      exact List.infix_append_left.trans hsuff.isInfix

/-! ## Searching -/

/-- What is in front of the first occurrence of `t`, and what is behind it. -/
def cut (t : List α) : List α → Option (List α × List α)
  | [] => none
  | c :: s =>
      if t.isPrefixOf (c :: s) then some ([], (c :: s).drop t.length)
      else (cut t s).map fun p => (c :: p.1, p.2)

/-- The same for the last occurrence. -/
def cutLast (t : List α) : List α → Option (List α × List α)
  | [] => none
  | c :: s =>
      match cutLast t s with
      | some p => some (c :: p.1, p.2)
      | none => if t.isPrefixOf (c :: s) then some ([], (c :: s).drop t.length) else none

def occurs (t : List α) : List α → Bool
  | [] => false
  | c :: s => t.isPrefixOf (c :: s) || occurs t s

theorem cut_eq_some {t : List α} (ht : t ≠ []) :
    ∀ {s a b : List α}, cut t s = some (a, b) → s = a ++ t ++ b ∧ ¬ t <:+: a
  | [], _, _, h => by simp [cut] at h
  | c :: s, a, b, h => by
      rw [cut] at h
      split_ifs at h with hp
      · obtain ⟨rfl, rfl⟩ := Prod.mk.inj (Option.some.inj h)
        obtain ⟨r, hr⟩ := List.isPrefixOf_iff_prefix.mp hp
        rw [← hr, List.drop_left, List.nil_append]
        exact ⟨rfl, fun hnil => ht (List.infix_nil.mp hnil)⟩
      · obtain ⟨⟨a', b'⟩, hcut, hab⟩ := Option.map_eq_some_iff.mp h
        obtain ⟨rfl, rfl⟩ := Prod.mk.inj hab
        obtain ⟨hs, hnot⟩ := cut_eq_some ht hcut
        refine ⟨by simp [hs], fun hin => ?_⟩
        rcases List.infix_cons_iff.mp hin with hpre | hin
        · apply hp
          rw [List.isPrefixOf_iff_prefix, hs, List.append_assoc]
          exact hpre.trans (List.prefix_append (c :: a') _)
        · exact hnot hin

theorem cutLast_eq_some {t : List α} :
    ∀ {s a b : List α}, cutLast t s = some (a, b) → s = a ++ t ++ b
  | [], _, _, h => by simp [cutLast] at h
  | c :: s, a, b, h => by
      rw [cutLast] at h
      cases hcut : cutLast t s with
      | some p =>
          rw [hcut] at h
          obtain ⟨rfl, rfl⟩ := Prod.mk.inj (Option.some.inj h)
          simp [cutLast_eq_some (a := p.1) (b := p.2) hcut]
      | none =>
          rw [hcut] at h
          simp only at h
          split_ifs at h with hp
          obtain ⟨rfl, rfl⟩ := Prod.mk.inj (Option.some.inj h)
          obtain ⟨r, hr⟩ := List.isPrefixOf_iff_prefix.mp hp
          rw [← hr, List.drop_left, List.nil_append]

theorem cut_eq_none_iff {t : List α} (ht : t ≠ []) : ∀ {s : List α}, cut t s = none ↔ ¬ t <:+: s
  | [] => by simpa [cut] using ht
  | c :: s => by
      have ih := cut_eq_none_iff ht (s := s)
      rw [cut, List.infix_cons_iff, ← List.isPrefixOf_iff_prefix]
      split_ifs with hp
      · simp [hp]
      · simp [hp, ih]

theorem occurs_iff {t : List α} (ht : t ≠ []) : ∀ {s : List α}, occurs t s = true ↔ t <:+: s
  | [] => by simpa [occurs] using ht
  | c :: s => by
      rw [occurs, Bool.or_eq_true, List.isPrefixOf_iff_prefix, List.infix_cons_iff, occurs_iff ht]

/-! ## What a splice keeps -/

/-- Where `m` occurs it stays. -/
def Rewrite.keeps (e : Rewrite α) (m : List α) : Bool :=
  apart m e.target || occurs m e.replacement

/-- Where `m` does not occur it does not come up. -/
def Rewrite.spares (e : Rewrite α) (m : List α) : Bool := apart m e.replacement

theorem Splice.keeps {e : Rewrite α} {m s s' : List α} (hm : m ≠ []) (hk : e.keeps m = true)
    (h : Splice e s s') (hin : m <:+: s) : m <:+: s' := by
  obtain ⟨a, b, rfl, rfl⟩ := h
  rw [Rewrite.keeps, Bool.or_eq_true, occurs_iff hm] at hk
  rcases hk with hapart | hrep
  · obtain ⟨x, y, hxy⟩ := hin
    rcases infix_of_apart hapart hxy with ha | hb
    · rw [List.append_assoc]
      exact ha.trans List.infix_append_left
    · exact hb.trans List.infix_append_right
  · exact hrep.trans (List.infix_append a _ b)

theorem Splice.spares {e : Rewrite α} {m s s' : List α} (hk : e.spares m = true)
    (h : Splice e s s') (hout : ¬ m <:+: s) : ¬ m <:+: s' := by
  obtain ⟨a, b, rfl, rfl⟩ := h
  rintro ⟨x, y, hxy⟩
  apply hout
  rcases infix_of_apart hk hxy with ha | hb
  · rw [List.append_assoc]
    exact ha.trans List.infix_append_left
  · exact hb.trans List.infix_append_right

theorem Edits.keeps {es : List (Rewrite α)} {m s s' : List α} (hm : m ≠ [])
    (hk : ∀ e ∈ es, e.keeps m = true) (h : Edits es s s') (hin : m <:+: s) : m <:+: s' := by
  induction h with
  | refl => exact hin
  | tail _ hstep ih =>
      obtain ⟨e, hmem, hsplice⟩ := hstep
      exact hsplice.keeps hm (hk e hmem) ih

theorem Edits.spares {es : List (Rewrite α)} {m s s' : List α}
    (hk : ∀ e ∈ es, e.spares m = true) (h : Edits es s s') (hout : ¬ m <:+: s) :
    ¬ m <:+: s' := by
  induction h with
  | refl => exact hout
  | tail _ hstep ih =>
      obtain ⟨e, hmem, hsplice⟩ := hstep
      exact hsplice.spares (hk e hmem) ih

/-! ## Replacing -/

/-- The first occurrence. -/
def Rewrite.first (e : Rewrite α) (s : List α) : List α :=
  match cut e.target s with
  | some (a, b) => a ++ e.replacement ++ b
  | none => s

/-- Every occurrence, from the left and none of them overlapping. -/
def Rewrite.allFuel (e : Rewrite α) : ℕ → List α → List α
  | 0, s => s
  | fuel + 1, s =>
      match cut e.target s with
      | some (a, b) => a ++ e.replacement ++ e.allFuel fuel b
      | none => s

def Rewrite.all (e : Rewrite α) (s : List α) : List α := e.allFuel s.length s

theorem Rewrite.first_of_not_infix {e : Rewrite α} (ht : e.target ≠ []) {s : List α}
    (h : ¬ e.target <:+: s) : e.first s = s := by
  rw [Rewrite.first, (cut_eq_none_iff ht).mpr h]

theorem Rewrite.splice_first {e : Rewrite α} (ht : e.target ≠ []) {s : List α}
    (h : e.target <:+: s) : Splice e s (e.first s) := by
  cases hcut : cut e.target s with
  | none => exact absurd h ((cut_eq_none_iff ht).mp hcut)
  | some p => exact ⟨p.1, p.2, (cut_eq_some ht hcut).1, by rw [Rewrite.first, hcut]⟩

theorem Rewrite.edits_first {es : List (Rewrite α)} {e : Rewrite α} (ht : e.target ≠ [])
    (hmem : e ∈ es) (s : List α) : Edits es s (e.first s) := by
  by_cases h : e.target <:+: s
  · exact (Rewrite.splice_first ht h).edits hmem
  · rw [Rewrite.first_of_not_infix ht h]
    exact Relation.ReflTransGen.refl

/-- After a replacement what it brings is there, unless there was nothing to replace. -/
theorem Rewrite.infix_first_or {e : Rewrite α} (ht : e.target ≠ []) {m : List α} (hm : m ≠ [])
    (hr : occurs m e.replacement = true) (s : List α) :
    m <:+: e.first s ∨ ¬ e.target <:+: s ∧ e.first s = s := by
  by_cases h : e.target <:+: s
  · obtain ⟨a, b, -, hs'⟩ := Rewrite.splice_first ht h
    rw [hs']
    exact Or.inl (((occurs_iff hm).mp hr).trans (List.infix_append a _ b))
  · exact Or.inr ⟨h, Rewrite.first_of_not_infix ht h⟩

theorem Rewrite.edits_allFuel {es : List (Rewrite α)} {e : Rewrite α} (ht : e.target ≠ [])
    (hmem : e ∈ es) : ∀ (fuel : ℕ) (s : List α), Edits es s (e.allFuel fuel s)
  | 0, _ => Relation.ReflTransGen.refl
  | fuel + 1, s => by
      rw [Rewrite.allFuel]
      cases hcut : cut e.target s with
      | none => exact Relation.ReflTransGen.refl
      | some p =>
          have hsplice : Splice e s (p.1 ++ e.replacement ++ p.2) :=
            ⟨p.1, p.2, (cut_eq_some ht hcut).1, rfl⟩
          exact (hsplice.edits hmem).trans ((Rewrite.edits_allFuel ht hmem fuel p.2).append_left _)

/-- **Nothing is left** of a target that cannot overlap its replacement. -/
theorem Rewrite.not_infix_allFuel {e : Rewrite α} (ht : e.target ≠ [])
    (hapart : apart e.target e.replacement = true) :
    ∀ (fuel : ℕ) (s : List α), s.length ≤ fuel → ¬ e.target <:+: e.allFuel fuel s
  | 0, s, h => by
      obtain rfl := List.length_eq_zero_iff.mp (Nat.le_zero.mp h)
      exact fun hin => ht (List.infix_nil.mp hin)
  | fuel + 1, s, h => by
      rw [Rewrite.allFuel]
      cases hcut : cut e.target s with
      | none => exact (cut_eq_none_iff ht).mp hcut
      | some p =>
          obtain ⟨hs, hfront⟩ := cut_eq_some ht hcut
          have hpos := List.length_pos_iff.mpr ht
          have hlen : p.2.length ≤ fuel := by
            rw [hs, List.length_append, List.length_append] at h
            omega
          have hbehind := Rewrite.not_infix_allFuel ht hapart fuel p.2 hlen
          rintro ⟨x, y, hxy⟩
          rcases infix_of_apart hapart hxy with ha | hb
          · exact hfront ha
          · exact hbehind hb

theorem Rewrite.edits_all {es : List (Rewrite α)} {e : Rewrite α} (ht : e.target ≠ [])
    (hmem : e ∈ es) (s : List α) : Edits es s (e.all s) :=
  Rewrite.edits_allFuel ht hmem _ s

theorem Rewrite.not_infix_all {e : Rewrite α} (ht : e.target ≠ [])
    (hapart : apart e.target e.replacement = true) (s : List α) : ¬ e.target <:+: e.all s :=
  Rewrite.not_infix_allFuel ht hapart _ s le_rfl

end Rewriting
