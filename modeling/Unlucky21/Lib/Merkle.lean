import Mathlib

/-!
# Merkle roots over any node function

A level is halved by joining neighbours; an odd last element is its own
neighbour. The root is what is left when this has been done until one element
remains. The number of levels is bounded by the number of leaves.
-/

namespace Merkle

variable {α : Type*} (node : α → α → α)

def level : List α → List α
  | [] => []
  | [a] => [node a a]
  | a :: b :: t => node a b :: level t

/-- Levels up to a single element, at most `fuel` of them. -/
def climb : ℕ → List α → List α
  | 0, xs => xs
  | fuel + 1, xs => if 1 < xs.length then climb fuel (level node xs) else xs

/-- The root of a list of leaves; `empty` stands for that of none. -/
def root (empty : α) (xs : List α) : α := (climb node xs.length xs).headD empty

theorem length_level : ∀ xs : List α, (level node xs).length = (xs.length + 1) / 2
  | [] => by simp [level]
  | [_] => by simp [level]
  | a :: b :: t => by
      simp only [level, List.length_cons, length_level t]
      omega

/-- The fuel suffices. -/
theorem length_climb {xs : List α} (hne : xs ≠ []) :
    ∀ fuel, xs.length ≤ fuel + 1 → (climb node fuel xs).length = 1 := by
  have hpos := List.length_pos_iff.mpr hne
  intro fuel
  induction fuel generalizing xs with
  | zero =>
      intro h
      simp only [climb]
      omega
  | succ fuel ih =>
      intro h
      rw [climb]
      split_ifs with hlt
      · have hlen := length_level node xs
        have hpos' : 0 < (level node xs).length := by omega
        exact ih (List.length_pos_iff.mp hpos') hpos' (by omega)
      · omega

variable {node}

theorem mem_level : ∀ {xs : List α} {x : α}, x ∈ level node xs → ∃ a b, x = node a b
  | [], _, h => by simp [level] at h
  | [a], _, h => ⟨a, a, by simpa [level] using h⟩
  | a :: b :: t, _, h => by
      rcases List.mem_cons.mp h with rfl | h
      · exact ⟨a, b, rfl⟩
      · exact mem_level h

theorem mem_climb {fuel : ℕ} {xs : List α} (h : ∀ x ∈ xs, ∃ a b, x = node a b) :
    ∀ x ∈ climb node fuel xs, ∃ a b, x = node a b := by
  induction fuel generalizing xs with
  | zero => exact h
  | succ fuel ih =>
      rw [climb]
      split_ifs
      · exact ih fun x hx => mem_level hx
      · exact h

theorem root_singleton (empty a : α) : root node empty [a] = a := rfl

variable (node)

/-- With two leaves or more the root is a node. -/
theorem exists_root_eq_node (empty : α) {xs : List α} (h : 2 ≤ xs.length) :
    ∃ a b, root node empty xs = node a b := by
  obtain ⟨fuel, hfuel⟩ : ∃ k, xs.length = k + 1 := ⟨xs.length - 1, by omega⟩
  have hclimb : climb node xs.length xs = climb node fuel (level node xs) := by
    rw [hfuel, climb, if_pos (by omega)]
  have hlevel : (level node xs).length = (xs.length + 1) / 2 := length_level node xs
  have hne : level node xs ≠ [] := List.length_pos_iff.mp (by omega)
  have hone := length_climb node hne fuel (by omega)
  obtain ⟨x, hx⟩ := List.length_eq_one_iff.mp hone
  have hmem : x ∈ climb node fuel (level node xs) := by simp [hx]
  obtain ⟨a, b, hab⟩ := mem_climb (fun y hy => mem_level hy) x hmem
  exact ⟨a, b, by rw [root, hclimb, hx, ← hab]; rfl⟩

end Merkle
