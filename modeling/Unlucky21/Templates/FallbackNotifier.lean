import Mathlib.Data.List.Destutter
import Unlucky21.Lib.CText
import Unlucky21.Templates.Parser

/-!
# The fallback notifier

A thread of its own asks the node every second for the hash of its best block,
in case a notification gets lost.
-/

namespace BlockTemplates

open Wire CText

/-- The hash in an answer, if there is one. -/
def bestBlockHash (gbbh : Option JsonT) : Option Text := do
  let gbbh ← gbbh
  let s ← stringValue (objectGet gbbh "result")
  if (cstr s).length = 64 then some (cstr s) else none

/-- One round of `datum_gateway_fallback_notifier`: the hash it keeps, and the
one it calls `datum_blocktemplates_notifynew` with. -/
def fallbackNotifier (p1 : Text) (gbbh : Option JsonT) : Text × Option Text :=
  match bestBlockHash gbbh with
  | none => (p1, none)
  | some s =>
      if p1 = [] then (s.take 70, none)
      else if s ≠ p1 then (s.take 70, some s)
      else (p1, none)

/-- All its calls, from some hash on. -/
def fallbackCalls : Text → List (Option JsonT) → List Text
  | _, [] => []
  | p1, gbbh :: rest =>
      (fallbackNotifier p1 gbbh).2.toList ++ fallbackCalls (fallbackNotifier p1 gbbh).1 rest

theorem bestBlockHash_eq_some {gbbh : Option JsonT} {s : Text} (h : bestBlockHash gbbh = some s) :
    s.length = 64 := by
  simp only [bestBlockHash, Option.bind_eq_bind, Option.bind_eq_some_iff] at h
  obtain ⟨_, -, _, -, h⟩ := h
  split_ifs at h with hlen
  rw [← Option.some.inj h, hlen]

theorem fallbackCalls_eq {p1 : Text} (hp1 : p1 ≠ []) : ∀ gbbhs : List (Option JsonT),
    p1 :: fallbackCalls p1 gbbhs = (gbbhs.filterMap bestBlockHash).destutter' (· ≠ ·) p1 := by
  intro gbbhs
  induction gbbhs generalizing p1 with
  | nil => rfl
  | cons gbbh rest ih =>
      rw [fallbackCalls, fallbackNotifier]
      cases hhash : bestBlockHash gbbh with
      | none =>
          rw [List.filterMap_cons_none hhash]
          exact ih hp1
      | some s =>
          have hlen := bestBlockHash_eq_some hhash
          have hs : s ≠ [] := by
            rintro rfl
            simp at hlen
          rw [List.filterMap_cons_some hhash, List.destutter'_cons]
          simp only [if_neg hp1]
          by_cases hnew : s = p1
          · subst hnew
            simpa using ih hp1
          · rw [if_pos hnew, if_pos (Ne.symm hnew)]
            simp only [Option.toList_some, List.singleton_append, List.cons.injEq, true_and]
            rw [List.take_of_length_le (by omega)]
            exact ih hs

/-- **Every change of the best block is told once.** Whatever the node answers
or fails to answer, the calls are the hashes it gave, without repetitions and
without the first. -/
theorem fallbackCalls_destutter (gbbhs : List (Option JsonT)) :
    fallbackCalls [] gbbhs = ((gbbhs.filterMap bestBlockHash).destutter (· ≠ ·)).tail := by
  induction gbbhs with
  | nil => rfl
  | cons gbbh rest ih =>
      rw [fallbackCalls, fallbackNotifier]
      cases hhash : bestBlockHash gbbh with
      | none =>
          rw [List.filterMap_cons_none hhash]
          exact ih
      | some s =>
          have hlen := bestBlockHash_eq_some hhash
          have hs : s ≠ [] := by
            rintro rfl
            simp at hlen
          rw [List.filterMap_cons_some hhash, List.destutter_cons', ← fallbackCalls_eq hs]
          simp [List.take_of_length_le (show s.length ≤ 70 by omega)]

end BlockTemplates
