import Mathlib

/-!
# Stretches of a memory

A memory is a function from addresses. A list stored at an address stays there
as long as what is stored later lies apart from it.
-/

namespace Memory

variable {β : Type*}

def store (m : ℕ → β) (addr : ℕ) (bs : List β) : ℕ → β := fun a =>
  if addr ≤ a then bs.getD (a - addr) (m a) else m a

def Holds (m : ℕ → β) (addr : ℕ) (bs : List β) : Prop :=
  ∀ k (h : k < bs.length), m (addr + k) = bs[k]

theorem holds_store (m : ℕ → β) (addr : ℕ) (bs : List β) : Holds (store m addr bs) addr bs := by
  intro k hk
  simp [store, List.getD_eq_getElem?_getD, hk]

theorem store_of_outside {m : ℕ → β} {addr a : ℕ} {bs : List β}
    (h : a < addr ∨ addr + bs.length ≤ a) : store m addr bs a = m a := by
  unfold store
  split_ifs with hle
  · have hout : bs.length ≤ a - addr := by omega
    simp [List.getD_eq_getElem?_getD, hout]
  · rfl

theorem Holds.store_of_apart {m : ℕ → β} {addr addr' : ℕ} {bs bs' : List β} (h : Holds m addr bs)
    (hapart : addr + bs.length ≤ addr' ∨ addr' + bs'.length ≤ addr) :
    Holds (store m addr' bs') addr bs := by
  intro k hk
  rw [store_of_outside (by omega), h k hk]

/-- What lies between two addresses. -/
structure Stretch where
  start : ℕ
  stop : ℕ
deriving DecidableEq, Repr

def Stretch.Apart (a b : Stretch) : Prop := a.stop ≤ b.start ∨ b.stop ≤ a.start

end Memory
