import Mathlib

/-!
# Sums over slots

A table of infinitely many slots, all but finitely many of them idle, each with
a weight. The sum of the weights is taken over any finite set that covers the
slots in use; it changes by the weight of the slot that is written. The same for
the entries of a list.
-/

namespace Slots

variable {α M : Type*} [AddCommMonoid M]

/-- Every slot outside the set is idle. -/
def Covers (idle : α) (slots : ℕ → α) (s : Finset ℕ) : Prop := ∀ i, i ∉ s → slots i = idle

def total (weight : α → M) (slots : ℕ → α) (s : Finset ℕ) : M := ∑ i ∈ s, weight (slots i)

theorem Covers.update {idle : α} {slots : ℕ → α} {s : Finset ℕ} (h : Covers idle slots s) (i : ℕ)
    (a : α) : Covers idle (Function.update slots i a) (insert i s) := by
  intro j hj
  obtain ⟨hne, hs⟩ := not_or.mp (mt Finset.mem_insert.mpr hj)
  rw [Function.update_of_ne hne]
  exact h j hs

/-- There is always a free slot. -/
theorem Covers.exists_idle {idle : α} {slots : ℕ → α} {s : Finset ℕ} (h : Covers idle slots s) :
    ∃ i, slots i = idle := by
  obtain ⟨i, hi⟩ := Infinite.exists_notMem_finset s
  exact ⟨i, h i hi⟩

theorem total_insert (weight : α → M) {idle : α} (hidle : weight idle = 0) {slots : ℕ → α}
    {s : Finset ℕ} (h : Covers idle slots s) (i : ℕ) :
    total weight slots (insert i s) = total weight slots s := by
  by_cases hi : i ∈ s
  · rw [Finset.insert_eq_of_mem hi]
  · rw [total, Finset.sum_insert hi, h i hi, hidle, zero_add, total]

/-- **Writing a slot.** What the slot weighed before is exchanged for what it
weighs now. -/
theorem total_update (weight : α → M) {idle : α} (hidle : weight idle = 0) {slots : ℕ → α}
    {s : Finset ℕ} (h : Covers idle slots s) (i : ℕ) (a : α) :
    total weight (Function.update slots i a) (insert i s) + weight (slots i) =
      total weight slots s + weight a := by
  rw [← total_insert weight hidle h i]
  have hmem : i ∈ insert i s := Finset.mem_insert_self i s
  have hothers : ∑ j ∈ (insert i s).erase i, weight (Function.update slots i a j) =
      ∑ j ∈ (insert i s).erase i, weight (slots j) :=
    Finset.sum_congr rfl fun j hj => by rw [Function.update_of_ne (Finset.ne_of_mem_erase hj)]
  rw [total, total, ← Finset.add_sum_erase _ _ hmem, ← Finset.add_sum_erase _ _ hmem,
    Function.update_self, hothers]
  abel

/-- A slot weighs no more than all of them. -/
theorem le_total {weight : α → ℕ} {slots : ℕ → α} {s : Finset ℕ} {i : ℕ} (hi : i ∈ s) :
    weight (slots i) ≤ total weight slots s :=
  Finset.single_le_sum (f := fun j => weight (slots j)) (fun _ _ => Nat.zero_le _) hi

/-! ## Lists -/

theorem sum_map_eraseIdx (weight : α → M) {l : List α} {i : ℕ} {a : α} (h : l[i]? = some a) :
    (l.map weight).sum = weight a + ((l.eraseIdx i).map weight).sum := by
  obtain ⟨hi, rfl⟩ := List.getElem?_eq_some_iff.mp h
  have hperm := (List.getElem_cons_eraseIdx_perm hi).map weight
  simpa using hperm.sum_eq.symm

theorem sum_map_set (weight : α → M) {l : List α} {i : ℕ} {a : α} (h : l[i]? = some a) (b : α) :
    ((l.set i b).map weight).sum + weight a = (l.map weight).sum + weight b := by
  obtain ⟨hi, -⟩ := List.getElem?_eq_some_iff.mp h
  have hset : (l.set i b)[i]? = some b := List.getElem?_set_self hi
  rw [sum_map_eraseIdx weight h, sum_map_eraseIdx weight hset, List.eraseIdx_set_eq]
  abel

end Slots
