import Mathlib

/-!
# Greedy selection with a wrapping total

Items are taken from the front of a list while their cost fits a budget and the
running total of their values, kept modulo `W`, stays within a cap. Taking stops
early once less than `least` of the budget is left or the cap is reached; an
item that does not fit is skipped. Each item taken is listed with its position.

The total is the true sum exactly when no addition that passed the test wrapped
(`Exact`). A value that would wrap can pass the test only by wrapping.
-/

namespace Greedy

variable {α : Type*} (W : ℕ) (cost : α → ℤ) (value : α → ℕ) (least : ℤ) (cap : ℕ)

/-- The test an item has to pass. -/
def Fits (budget : ℤ) (total : ℕ) (a : α) : Prop :=
  cost a ≤ budget ∧ (total + value a) % W ≤ cap

instance (budget : ℤ) (total : ℕ) (a : α) : Decidable (Fits W cost value cap budget total a) :=
  inferInstanceAs (Decidable (_ ∧ _))

/-- Nothing more is looked at. -/
def Stops (budget : ℤ) (total : ℕ) : Prop := budget < least ∨ cap ≤ total

instance (budget : ℤ) (total : ℕ) : Decidable (Stops least cap budget total) :=
  inferInstanceAs (Decidable (_ ∨ _))

def take : ℕ → ℤ → ℕ → List α → List (ℕ × α)
  | _, _, _, [] => []
  | k, budget, total, a :: rest =>
      if Fits W cost value cap budget total a then
        (k, a) ::
          if Stops least cap (budget - cost a) ((total + value a) % W) then []
          else take (k + 1) (budget - cost a) ((total + value a) % W) rest
      else take (k + 1) budget total rest

/-- No addition that passes the test reaches the modulus. -/
def Exact : ℤ → ℕ → List α → Prop
  | _, _, [] => True
  | budget, total, a :: rest =>
      if Fits W cost value cap budget total a then
        total + value a < W ∧
          (Stops least cap (budget - cost a) ((total + value a) % W) ∨
            Exact (budget - cost a) ((total + value a) % W) rest)
      else Exact budget total rest

instance decidableExact : ∀ (budget : ℤ) (total : ℕ) (l : List α),
    Decidable (Exact W cost value least cap budget total l)
  | _, _, [] => isTrue trivial
  | budget, total, a :: rest =>
      have := decidableExact (budget - cost a) ((total + value a) % W) rest
      have := decidableExact budget total rest
      inferInstanceAs (Decidable (if Fits W cost value cap budget total a then
        total + value a < W ∧
          (Stops least cap (budget - cost a) ((total + value a) % W) ∨
            Exact W cost value least cap (budget - cost a) ((total + value a) % W) rest)
        else Exact W cost value least cap budget total rest))

/-- The values of the items taken, added up without wrapping. -/
def taken (l : List (ℕ × α)) : ℕ := (l.map fun p => value p.2).sum

variable {W cost value least cap}

@[simp] theorem taken_nil : taken value ([] : List (ℕ × α)) = 0 := rfl

@[simp] theorem taken_cons (p : ℕ × α) (l : List (ℕ × α)) :
    taken value (p :: l) = value p.2 + taken value l := by
  simp [taken]

@[simp] theorem taken_append (l l' : List (ℕ × α)) :
    taken value (l ++ l') = taken value l + taken value l' := by
  simp [taken]

/-- Positions count up from the start. -/
theorem le_of_mem_take : ∀ {l : List α} {k : ℕ} {budget : ℤ} {total : ℕ} {p : ℕ × α},
    p ∈ take W cost value least cap k budget total l → k ≤ p.1
  | a :: rest, k, budget, total, p, hp => by
      rw [take] at hp
      split at hp
      · rcases List.mem_cons.mp hp with rfl | hp
        · exact le_rfl
        · split at hp
          · exact absurd hp List.not_mem_nil
          · exact (Nat.le_succ k).trans (le_of_mem_take hp)
      · exact (Nat.le_succ k).trans (le_of_mem_take hp)

theorem pairwise_take : ∀ (l : List α) (k : ℕ) (budget : ℤ) (total : ℕ),
    (take W cost value least cap k budget total l).Pairwise fun p q => p.1 < q.1
  | [], _, _, _ => List.Pairwise.nil
  | a :: rest, k, budget, total => by
      rw [take]
      split
      · rw [List.pairwise_cons]
        constructor
        · intro p hp
          split at hp
          · exact absurd hp List.not_mem_nil
          · exact le_of_mem_take hp
        · split
          · exact List.Pairwise.nil
          · exact pairwise_take rest _ _ _
      · exact pairwise_take rest _ _ _

/-- The items taken, in order, are among those offered. -/
theorem take_sublist : ∀ (l : List α) (k : ℕ) (budget : ℤ) (total : ℕ),
    ((take W cost value least cap k budget total l).map Prod.snd).Sublist l
  | [], _, _, _ => List.Sublist.slnil
  | a :: rest, k, budget, total => by
      rw [take]
      split
      · rw [List.map_cons]
        apply List.Sublist.cons_cons
        split
        · exact List.nil_sublist _
        · exact take_sublist rest _ _ _
      · exact (take_sublist rest _ _ _).cons a

/-- The wrapped total stays within the cap. -/
theorem total_mod_le (hcap : cap < W) : ∀ (l : List α) (k : ℕ) (budget : ℤ) (total : ℕ),
    total ≤ cap →
      (total + taken value (take W cost value least cap k budget total l)) % W ≤ cap
  | [], _, _, total, h => by
      simpa [take, Nat.mod_eq_of_lt (h.trans_lt hcap)] using h
  | a :: rest, k, budget, total, h => by
      rw [take]
      split
      next hfit =>
        rw [taken_cons, ← add_assoc]
        split
        · simpa using hfit.2
        · have ih := total_mod_le hcap rest (k + 1) (budget - cost a) _ hfit.2
          rwa [Nat.mod_add_mod] at ih
      next => exact total_mod_le hcap rest _ _ _ h

/-- **Exact totals.** The additions that pass the test never wrap if and only if
the true sum of what is taken stays below the modulus. -/
theorem exact_iff_taken_lt (hcap : cap < W) :
    ∀ (l : List α) (k : ℕ) (budget : ℤ) (total : ℕ), total ≤ cap →
      (Exact W cost value least cap budget total l ↔
        total + taken value (take W cost value least cap k budget total l) < W)
  | [], _, _, total, h => by
      simpa [Exact, take] using h.trans_lt hcap
  | a :: rest, k, budget, total, h => by
      rw [Exact, take]
      split
      next hfit =>
        rw [taken_cons, ← add_assoc]
        by_cases hlt : total + value a < W
        · have hmod : (total + value a) % W = total + value a := Nat.mod_eq_of_lt hlt
          split
          next hstop => simp [hlt, hstop]
          next hstop =>
            have ih := exact_iff_taken_lt hcap rest (k + 1) (budget - cost a) _ hfit.2
            rw [hmod] at ih hstop ⊢
            simp [hlt, hstop, ih]
        · have hge : ¬ total + value a + taken value
              (if Stops least cap (budget - cost a) ((total + value a) % W) then []
                else take W cost value least cap (k + 1) (budget - cost a)
                  ((total + value a) % W) rest) < W := by omega
          simp [hlt, hge]
      next => exact exact_iff_taken_lt hcap rest _ _ _ h

/-- Everything is taken when it all fits and nothing stops the taking in front of
the last item. -/
theorem take_all_of_room (hcap : cap < W) :
    ∀ (l : List α) (k : ℕ) (budget : ℤ) (total : ℕ), (∀ a ∈ l, 0 ≤ cost a) →
      (l.map cost).sum ≤ budget → total + (l.map value).sum ≤ cap →
      l.dropLast = [] ∨ (l.dropLast.map cost).sum + least ≤ budget ∧
        total + (l.dropLast.map value).sum < cap →
      (take W cost value least cap k budget total l).map Prod.snd = l
  | [], _, _, _, _, _, _, _ => rfl
  | a :: rest, k, budget, total, hl, hcost, hvalue, hgo => by
      obtain ⟨-, hrest⟩ := List.forall_mem_cons.mp hl
      have hnonneg : ∀ l : List α, (∀ b ∈ l, 0 ≤ cost b) → 0 ≤ (l.map cost).sum := by
        intro l hl
        apply List.sum_nonneg
        rintro c hc
        obtain ⟨b, hb, rfl⟩ := List.mem_map.mp hc
        exact hl b hb
      have hrestcost := hnonneg rest hrest
      rw [List.map_cons, List.sum_cons] at hcost hvalue
      have hmod : (total + value a) % W = total + value a := Nat.mod_eq_of_lt (by omega)
      have hfit : Fits W cost value cap budget total a := ⟨by omega, by rw [hmod]; omega⟩
      rw [take, if_pos hfit, hmod]
      cases rest with
      | nil => split <;> rfl
      | cons b rest =>
          obtain ⟨hleast, hbelow⟩ := hgo.resolve_left (by simp)
          rw [List.dropLast_cons_cons, List.map_cons, List.sum_cons] at hleast hbelow
          have hdrop := hnonneg (b :: rest).dropLast fun d hd => hrest d (List.mem_of_mem_dropLast hd)
          have hno : ¬ Stops least cap (budget - cost a) (total + value a) := by
            rintro (hlow | hfull)
            · omega
            · omega
          rw [if_neg hno, List.map_cons]
          congr 1
          exact take_all_of_room hcap _ _ _ _ hrest (by omega) (by omega)
            (Or.inr ⟨by omega, by omega⟩)

/-- Positive values reach the cap only with the last item. -/
theorem take_all (hcap : cap < W) (l : List α) (k : ℕ) (budget : ℤ) (total : ℕ)
    (hl : ∀ a ∈ l, 0 ≤ cost a ∧ 0 < value a) (hcost : (l.map cost).sum ≤ budget)
    (hleast : (l.dropLast.map cost).sum + least ≤ budget)
    (hvalue : total + (l.map value).sum ≤ cap) :
    (take W cost value least cap k budget total l).map Prod.snd = l := by
  refine take_all_of_room hcap l k budget total (fun a ha => (hl a ha).1) hcost hvalue ?_
  rcases List.eq_nil_or_concat l with rfl | ⟨front, a, rfl⟩
  · exact Or.inl rfl
  · have hpos := (hl a (by simp)).2
    refine Or.inr ⟨hleast, ?_⟩
    simp only [List.concat_eq_append, List.map_append, List.map_cons, List.map_nil,
      List.sum_append, List.sum_singleton, List.dropLast_concat] at hvalue ⊢
    omega

/-- What is taken fits the budget. -/
theorem cost_take_le : ∀ (l : List α) (k : ℕ) (budget : ℤ) (total : ℕ), 0 ≤ budget →
    ((take W cost value least cap k budget total l).map fun p => cost p.2).sum ≤ budget
  | [], _, _, _, h => by simpa [take] using h
  | a :: rest, k, budget, total, h => by
      rw [take]
      split
      next hfit =>
        rw [List.map_cons, List.sum_cons]
        show cost a + _ ≤ budget
        have hleft : 0 ≤ budget - cost a := by have := hfit.1; omega
        split
        · simp only [List.map_nil, List.sum_nil]
          omega
        · have ih := cost_take_le rest (k + 1) _ ((total + value a) % W) hleft
          omega
      next => exact cost_take_le rest _ _ _ h

/-- Without a budget nothing that costs is taken. -/
theorem take_of_budget_neg : ∀ {l : List α} (k : ℕ) {budget : ℤ} (total : ℕ),
    (∀ a ∈ l, 0 ≤ cost a) → budget < 0 → take W cost value least cap k budget total l = []
  | [], _, _, _, _, _ => rfl
  | a :: rest, k, budget, total, hcost, h => by
      obtain ⟨ha, hrest⟩ := List.forall_mem_cons.mp hcost
      have hno : ¬ Fits W cost value cap budget total a := by
        rintro ⟨hfit, -⟩
        omega
      rw [take, if_neg hno, take_of_budget_neg _ _ hrest h]

/-- With a least cost per item, the budget bounds how many are taken. -/
theorem length_take_mul_le {c : ℤ} (h0 : 0 ≤ c) {l : List α} (hc : ∀ a ∈ l, c ≤ cost a) (k : ℕ)
    (budget : ℤ) (total : ℕ) :
    c * (take W cost value least cap k budget total l).length ≤ max budget 0 := by
  rcases lt_or_ge budget 0 with hneg | hpos
  · rw [take_of_budget_neg _ _ (fun a ha => h0.trans (hc a ha)) hneg]
    simp
  · have hle : ((take W cost value least cap k budget total l).map fun p => cost p.2).sum ≤
        budget := cost_take_le l k budget total hpos
    have hmem : ∀ p ∈ take W cost value least cap k budget total l, c ≤ cost p.2 := fun p hp =>
      hc p.2 ((take_sublist l k budget total).subset (List.mem_map_of_mem hp))
    have hsum : ∀ t : List (ℕ × α), (∀ p ∈ t, c ≤ cost p.2) →
        c * t.length ≤ (t.map fun p => cost p.2).sum := by
      intro t
      induction t with
      | nil => simp
      | cons p t ih =>
          intro ht
          obtain ⟨hp, hrest⟩ := List.forall_mem_cons.mp ht
          have := ih hrest
          simp only [List.length_cons, List.map_cons, List.sum_cons]
          push_cast
          linarith
    exact (hsum _ hmem).trans (hle.trans (le_max_left _ _))

/-- A cap of zero is reached with the first item. -/
theorem length_take_cap_zero : ∀ (l : List α) (k : ℕ) (budget : ℤ) (total : ℕ),
    (take W cost value least 0 k budget total l).length ≤ 1
  | [], _, _, _ => Nat.zero_le 1
  | a :: rest, k, budget, total => by
      rw [take]
      split
      · have hstop : Stops least 0 (budget - cost a) ((total + value a) % W) := Or.inr (Nat.zero_le _)
        rw [if_pos hstop, List.length_singleton]
      · exact length_take_cap_zero rest _ _ _

/-- An item taken fits the budget on its own. -/
theorem cost_le_of_mem_take (hcost : ∀ a : α, 0 ≤ cost a) :
    ∀ {l : List α} {k : ℕ} {budget : ℤ} {total : ℕ} {p : ℕ × α},
      p ∈ take W cost value least cap k budget total l → cost p.2 ≤ budget
  | a :: rest, k, budget, total, p, hp => by
      rw [take] at hp
      split at hp
      next hfit =>
        rcases List.mem_cons.mp hp with rfl | hp
        · exact hfit.1
        · split at hp
          · exact absurd hp List.not_mem_nil
          · have hle := cost_le_of_mem_take hcost hp
            have := hcost a
            omega
      next => exact cost_le_of_mem_take hcost hp

end Greedy
