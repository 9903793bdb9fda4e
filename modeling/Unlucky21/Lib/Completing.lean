import Unlucky21.Lib.Patching

/-!
# When a script comes to its end

A seeker is a pass that gives up exactly where it finds none of the needles it
wants. Where the earlier passes of a script neither destroy nor bring up what
the later ones want, the files as they were decide whether it comes to its end.
A run that was stopped between two passes can be started over.
-/

namespace Rewriting

variable {α : Type*} [DecidableEq α]

/-! ## Seekers -/

structure Seeker (α : Type*) [DecidableEq α] extends Pass α where
  wants : List (List α)
  seeks : ∀ s, apply s = .exit ↔ ∀ m ∈ wants, ¬ m <:+: s

/-- The empty needle is everywhere, so a pass that wants it never gives up. -/
def Pass.tolerant (p : Pass α) (h : ∀ s, p.apply s ≠ .exit) : Seeker α where
  toPass := p
  wants := [[]]
  seeks s := by simpa using h s

/-- The texts of a guarded pass fit together. -/
structure Fits (marker : List α) (es : List (Rewrite α)) : Prop where
  nonempty : marker ≠ []
  targets : ∀ e ∈ es, e.target ≠ []
  replacements : ∀ e ∈ es, occurs marker e.replacement = true

instance (marker : List α) (es : List (Rewrite α)) : Decidable (Fits marker es) :=
  decidable_of_iff (marker ≠ [] ∧ (∀ e ∈ es, e.target ≠ []) ∧
    ∀ e ∈ es, occurs marker e.replacement = true)
    ⟨fun h => ⟨h.1, h.2.1, h.2.2⟩, fun h => ⟨h.nonempty, h.targets, h.replacements⟩⟩

def Seeker.guarded (marker : List α) (es : List (Rewrite α)) (h : Fits marker es) : Seeker α where
  toPass := .guarded marker es h.nonempty h.targets h.replacements
  wants := marker :: es.map Rewrite.target
  seeks s := by
    have hfind : (es.find? fun e => occurs e.target s) = none ↔
        ∀ e ∈ es, ¬ e.target <:+: s := by
      rw [List.find?_eq_none]
      exact forall₂_congr fun e he => not_congr (occurs_iff (h.targets e he))
    simp only [Pass.guarded, Pass.marked, Rewriting.guarded, List.forall_mem_cons,
      List.forall_mem_map]
    rw [← hfind, ← occurs_iff h.nonempty]
    split_ifs with hm
    · simp [hm]
    · cases es.find? fun e => occurs e.target s <;> simp [hm]

theorem cutLast_eq_none_iff {t : List α} (ht : t ≠ []) :
    ∀ {s : List α}, cutLast t s = none ↔ ¬ t <:+: s
  | [] => by simpa [cutLast] using ht
  | c :: s => by
      have ih := cutLast_eq_none_iff ht (s := s)
      rw [cutLast, List.infix_cons_iff, ← List.isPrefixOf_iff_prefix]
      cases hcut : cutLast t s with
      | some p => simpa [hcut] using fun _ => mt ih.mpr (by simp [hcut])
      | none =>
          have hout := ih.mp hcut
          simp only
          split_ifs with hp
          · simp [hp]
          · simpa [hp] using hout

def Seeker.guardedBeforeLast (marker t text : List α) (h : Fits marker [⟨t, text ++ t⟩]) :
    Seeker α where
  toPass := .guardedBeforeLast marker t text h.nonempty (h.replacements _ List.mem_cons_self)
  wants := [marker, t]
  seeks s := by
    simp only [Pass.guardedBeforeLast, Pass.marked, Rewriting.guardedBeforeLast,
      List.forall_mem_cons, List.not_mem_nil, false_implies, implies_true, and_true]
    rw [← cutLast_eq_none_iff (h.targets _ List.mem_cons_self), ← occurs_iff h.nonempty]
    split_ifs with hm
    · simp [hm]
    · cases cutLast t s <;> simp [hm]

/-! ## Needles over a run -/

/-- The pass has no say in whether the needle occurs. -/
def Pass.neutral (p : Pass α) (m : List α) : Bool :=
  m.isEmpty || p.rewrites.all fun e => e.keeps m && e.spares m

theorem Pass.infix_iff_of_neutral {p : Pass α} {m : List α} (h : p.neutral m = true)
    {s s' : List α} (hs : (p.apply s).content s = some s') : m <:+: s' ↔ m <:+: s := by
  rw [Pass.neutral, Bool.or_eq_true, List.isEmpty_iff, List.all_eq_true] at h
  rcases h with rfl | h
  · simp
  · have hall : ∀ e ∈ p.rewrites, e.keeps m = true ∧ e.spares m = true := by
      simpa using h
    by_cases hm : m = []
    · simp [hm]
    · exact ⟨not_imp_not.mp ((p.edits s s' hs).spares fun e he => (hall e he).2),
        (p.edits s s' hs).keeps hm fun e he => (hall e he).1⟩

variable {ι : Type*} {read : List α → List α}

theorem Orderly.take {script : List (ι × Pass α)} (h : Orderly read script) (k : ℕ) :
    Orderly read (script.take k) where
  written e he := h.written e (List.mem_of_mem_take he)
  compatible := h.compatible.sublist (List.take_sublist k script)

theorem Orderly.drop {script : List (ι × Pass α)} (h : Orderly read script) (k : ℕ) :
    Orderly read (script.drop k) where
  written e he := h.written e (List.mem_of_mem_drop he)
  compatible := h.compatible.sublist (List.drop_sublist k script)

variable [DecidableEq ι]

/-- What a step does to the text that is read of each file. -/
theorem edits_of_step (hread : ∀ s, read (read s) = read s) {disk disk' : ι → List α}
    {e : ι × Pass α} (hwritten : ∀ s t, read s = s → e.2.apply s = .write t → read t = t)
    (h : step read disk e = some disk') (i : ι) :
    (i = e.1 ∧ (e.2.apply (read (disk i))).content (read (disk i)) = some (read (disk' i))) ∨
      disk' i = disk i := by
  by_cases hi : i = e.1
  · subst hi
    exact Or.inl ⟨rfl, content_of_step hread hwritten h⟩
  · exact Or.inr (step_of_ne h hi)

theorem infix_iff_of_step (hread : ∀ s, read (read s) = read s) {disk disk' : ι → List α}
    {e : ι × Pass α} (hwritten : ∀ s t, read s = s → e.2.apply s = .write t → read t = t)
    (h : step read disk e = some disk') {i : ι} {m : List α}
    (hm : i = e.1 → e.2.neutral m = true) :
    m <:+: read (disk' i) ↔ m <:+: read (disk i) := by
  rcases edits_of_step hread hwritten h i with ⟨hi, hcontent⟩ | hsame
  · exact Pass.infix_iff_of_neutral (hm hi) hcontent
  · rw [hsame]

/-- A needle that the passes keep. -/
theorem infix_of_run (hread : ∀ s, read (read s) = read s) {m : List α} (hm : m ≠ []) {i : ι} :
    ∀ {script : List (ι × Pass α)} {disk disk' : ι → List α}, Orderly read script →
      (∀ e ∈ script, i = e.1 → ∀ r ∈ e.2.rewrites, r.keeps m = true) →
        Runs.run (step read) disk script = some disk' → m <:+: read (disk i) →
          m <:+: read (disk' i)
  | [], _, _, _, _, h, hin => by
      obtain rfl := Option.some.inj h
      exact hin
  | e :: script, disk, disk', hord, hkeeps, h, hin => by
      obtain ⟨disk₁, hstep, hrun⟩ := Runs.run_cons_iff.mp h
      refine infix_of_run hread hm hord.tail
        (fun e' he' => hkeeps e' (List.mem_cons_of_mem _ he')) hrun ?_
      rcases edits_of_step hread (hord.written e List.mem_cons_self) hstep i with
        ⟨hi, hcontent⟩ | hsame
      · exact (e.2.edits _ _ hcontent).keeps hm (hkeeps e List.mem_cons_self hi) hin
      · rwa [hsame]

/-- A needle that the passes do not bring up. -/
theorem not_infix_of_run (hread : ∀ s, read (read s) = read s) {m : List α} {i : ι} :
    ∀ {script : List (ι × Pass α)} {disk disk' : ι → List α}, Orderly read script →
      (∀ e ∈ script, i = e.1 → ∀ r ∈ e.2.rewrites, r.spares m = true) →
        Runs.run (step read) disk script = some disk' → ¬ m <:+: read (disk i) →
          ¬ m <:+: read (disk' i)
  | [], _, _, _, _, h, hout => by
      obtain rfl := Option.some.inj h
      exact hout
  | e :: script, disk, disk', hord, hspares, h, hout => by
      obtain ⟨disk₁, hstep, hrun⟩ := Runs.run_cons_iff.mp h
      refine not_infix_of_run hread hord.tail
        (fun e' he' => hspares e' (List.mem_cons_of_mem _ he')) hrun ?_
      rcases edits_of_step hread (hord.written e List.mem_cons_self) hstep i with
        ⟨hi, hcontent⟩ | hsame
      · exact (e.2.edits _ _ hcontent).spares (hspares e List.mem_cons_self hi) hout
      · rwa [hsame]

/-- A needle that a guarded pass brings along, if its marker was missing at first. -/
theorem infix_of_run_guarded (hread : ∀ s, read (read s) = read s)
    (before after : List (ι × Pass α)) {i : ι} {marker m : List α} {es : List (Rewrite α)}
    (hfits : Fits marker es) (hm : m ≠ []) (hbring : ∀ e ∈ es, occurs m e.replacement = true)
    (hspares : ∀ e ∈ before, i = e.1 → ∀ r ∈ e.2.rewrites, r.spares marker = true)
    (hkeeps : ∀ e ∈ after, i = e.1 → ∀ r ∈ e.2.rewrites, r.keeps m = true)
    (hord : Orderly read (before ++ (i, (Seeker.guarded marker es hfits).toPass) :: after))
    {disk disk' : ι → List α}
    (h : Runs.run (step read) disk
      (before ++ (i, (Seeker.guarded marker es hfits).toPass) :: after) = some disk')
    (hout : ¬ marker <:+: read (disk i)) : m <:+: read (disk' i) := by
  obtain ⟨disk₁, hbefore, hrest⟩ := Runs.run_append_iff.mp h
  obtain ⟨disk₂, hstep, hafter⟩ := Runs.run_cons_iff.mp hrest
  have hord' := hord.drop before.length
  rw [List.drop_left] at hord'
  have hbefore_ord := hord.take before.length
  rw [List.take_left] at hbefore_ord
  have hmissing := not_infix_of_run hread hbefore_ord hspares hbefore hout
  have hcontent := content_of_step hread (hord'.written _ List.mem_cons_self) hstep
  obtain ⟨e, he, a, b, -, hnew⟩ := splice_of_guarded hfits.nonempty hfits.targets hmissing hcontent
  refine infix_of_run hread hm hord'.tail hkeeps hafter ?_
  rw [hnew]
  exact ((occurs_iff hm).mp (hbring e he)).trans (List.infix_append a _ b)

/-! ## Coming to the end -/

def Seeker.found (p : Seeker α) (s : List α) : Prop := ∃ m ∈ p.wants, m <:+: s

theorem Seeker.found_iff {p : Seeker α} {s : List α} : p.found s ↔ p.apply s ≠ .exit := by
  rw [Seeker.found, Ne, p.seeks]
  push Not
  rfl

theorem isSome_step_iff {disk : ι → List α} {i : ι} {p : Seeker α} :
    (step read disk (i, p.toPass)).isSome = true ↔ p.found (read (disk i)) := by
  rw [Seeker.found_iff, step, patch]
  cases p.apply (read (disk i)) <;> simp

def Pass.respects (q : Pass α) (p : Seeker α) : Bool := p.wants.all q.neutral

/-- The passes of a list of seekers. -/
abbrev scriptOf (seekers : List (ι × Seeker α)) : List (ι × Pass α) :=
  seekers.map fun e => (e.1, e.2.toPass)

/-- **The files as they were decide.** If no pass has a say in what a later one
of the same file looks for, the script comes to its end exactly when each pass
finds something of its own in the file as it was read at first. -/
theorem isSome_run_iff (hread : ∀ s, read (read s) = read s) :
    ∀ {seekers : List (ι × Seeker α)} {disk : ι → List α}, Orderly read (scriptOf seekers) →
      (seekers.Pairwise fun e e' => e.1 = e'.1 → e.2.respects e'.2 = true) →
        ((Runs.run (step read) disk (scriptOf seekers)).isSome = true ↔
          ∀ e ∈ seekers, e.2.found (read (disk e.1)))
  | [], _, _, _ => by simp
  | e :: seekers, disk, hord, hres => by
      obtain ⟨hhead, htail⟩ := List.pairwise_cons.mp hres
      rw [List.forall_mem_cons, ← isSome_step_iff]
      cases hstep : step read disk (e.1, e.2.toPass) with
      | none => simp [Runs.run, hstep]
      | some disk₁ =>
          have ih : (Runs.run (step read) disk₁ (scriptOf seekers)).isSome = true ↔
              ∀ e ∈ seekers, e.2.found (read (disk₁ e.1)) :=
            isSome_run_iff hread hord.tail htail
          have hsame : ∀ e' ∈ seekers,
              (e'.2.found (read (disk₁ e'.1)) ↔ e'.2.found (read (disk e'.1))) := by
            intro e' he'
            refine exists_congr fun m => and_congr_right fun hm => ?_
            refine infix_iff_of_step hread (hord.written _ List.mem_cons_self) hstep fun hi => ?_
            exact List.all_eq_true.mp (hhead e' he' hi.symm) m hm
          simp only [scriptOf, List.map_cons, Runs.run, hstep, Option.bind_some, Option.isSome_some,
            true_and]
          rw [← forall₂_congr hsame]
          exact ih

/-! ## Starting over -/

/-- Runs that stop after some pass, one after another. -/
def Stopped (read : List α → List α) (script : List (ι × Pass α)) :
    (ι → List α) → (ι → List α) → Prop :=
  Relation.ReflTransGen fun disk disk' =>
    ∃ k, Runs.run (step read) disk (script.take k) = some disk'

/-- **A script can be started over**: after runs that were stopped it does what
it would have done without them. -/
theorem run_of_stopped (hread : ∀ s, read (read s) = read s) {script : List (ι × Pass α)}
    (hord : Orderly read script) {disk disk' : ι → List α} (h : Stopped read script disk disk') :
    Runs.run (step read) disk' script = Runs.run (step read) disk script := by
  induction h with
  | refl => rfl
  | tail _ hstop ih =>
      obtain ⟨k, hk⟩ := hstop
      have hagain := run_idempotent hread (hord.take k) hk
      rw [← ih, ← List.take_append_drop k script, Runs.run_append, Runs.run_append, hk, hagain]

end Rewriting
