import Mathlib

/-!
# Draining a buffer in batches

An account of the items that pass through a buffer: a producer accepts items,
a worker takes the whole buffer as a batch, and later either stores the batch
or drops it. Several batches may be on their way at once. Whatever the order,
each item is in exactly one place, so once no batch is on its way the stored
items and the buffer make up the accepted ones exactly when nothing was
dropped.
-/

namespace Drain

variable {α : Type*}

structure Account (α : Type*) where
  accepted : Multiset α
  pending : Multiset α
  taken : Multiset α
  stored : Multiset α
  dropped : Multiset α

inductive Step : Account α → Account α → Prop
  | skip (a) : Step a a
  | accept (a x) : Step a { a with accepted := a.accepted + {x}, pending := a.pending + {x} }
  | take (a) : Step a { a with pending := 0, taken := a.taken + a.pending }
  | store {a batch rest} (h : a.taken = batch + rest) :
      Step a { a with taken := rest, stored := a.stored + batch }
  | drop {a batch rest} (h : a.taken = batch + rest) :
      Step a { a with taken := rest, dropped := a.dropped + batch }

/-- Every accepted item is in one place. -/
def Account.Balanced (a : Account α) : Prop :=
  a.accepted = a.stored + a.pending + a.taken + a.dropped

theorem Step.balanced {a b : Account α} (hstep : Step a b) (h : a.Balanced) : b.Balanced := by
  unfold Account.Balanced at *
  cases hstep with
  | skip => exact h
  | accept x =>
      simp only [h]
      abel
  | take =>
      simp only [h]
      abel
  | store ht =>
      simp only [h, ht]
      abel
  | drop ht =>
      simp only [h, ht]
      abel

/-- With no batch on its way, what is stored or pending is all that was
accepted if and only if nothing was dropped. -/
theorem Account.Balanced.conserved_iff {a : Account α} (h : a.Balanced) (hidle : a.taken = 0) :
    a.accepted = a.stored + a.pending ↔ a.dropped = 0 := by
  unfold Account.Balanced at h
  rw [h, hidle, add_zero]
  exact add_eq_left

end Drain
