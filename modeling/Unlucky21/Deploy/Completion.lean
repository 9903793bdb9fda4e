import Unlucky21.Lib.Completing
import Unlucky21.Deploy.Idempotence

/-!
# When the patch script comes to its end

Every patch of the script looks for its marker or for a passage of the upstream
text. Those of patches 0 to 9 are out of reach of the patches before them; the
last four patches look for text that an earlier patch brings.
-/

namespace Deploy

open Rewriting

-- The checks run over the characters of a text.
set_option maxRecDepth 20000

/-! ## Starting over -/

/-- Runs that ended early, each between two patches, by an exit or from outside. -/
def Interrupted : (File → List Char) → (File → List Char) → Prop :=
  Relation.ReflTransGen fun disk disk' => ∃ k,
    Runs.run (fun disk e => patch readText disk e.1 e.2) disk (patches.take k) = some disk'

theorem Interrupted.stopped {disk disk' : File → List Char} (h : Interrupted disk disk') :
    Stopped readText passes disk disk' := by
  refine Relation.ReflTransGen.mono (fun d d' hstop => ?_) _ _ h
  obtain ⟨k, hk⟩ := hstop
  refine ⟨k, ?_⟩
  rwa [← passes_apply, ← List.map_take, Runs.run_map] at hk

/-- **An interrupted deployment can be repeated.** However often the script was
stopped between two patches, a run then does what it would have done on the
untouched files: it gives up there too, or leaves the same three files. -/
theorem interrupted_run_repeated {disk disk' : File → List Char} (h : Interrupted disk disk') :
    patchStratum disk' = patchStratum disk := by
  rw [patchStratum_eq, patchStratum_eq]
  exact run_of_stopped readText_readText passes_orderly h.stopped

/-- Stopped behind patch 4. -/
theorem interrupted_run_repeated_halfPatched :
    ∃ disk : File → List Char, disk ≠ halfPatched ∧ Interrupted halfPatched disk ∧
      patchStratum disk = patchStratum halfPatched := by
  have hrun : ((Runs.run (fun disk e => patch readText disk e.1 e.2) halfPatched
      (patches.take 6)).map fun disk => occurs assemblyMarker.chars (disk .stratumC)) =
        some true := by decide +kernel
  have hout : occurs assemblyMarker.chars (halfPatched .stratumC) = false := by decide +kernel
  obtain ⟨disk, hdisk, hocc⟩ := Option.map_eq_some_iff.mp hrun
  have hstop : Interrupted halfPatched disk := Relation.ReflTransGen.single ⟨6, hdisk⟩
  refine ⟨disk, fun hsame => ?_, hstop, interrupted_run_repeated hstop⟩
  rw [hsame, hout] at hocc
  cases hocc

/-! ## What a finished run leaves -/

/-- The patches that never end without their marker. -/
def markers : List (File × Text) :=
  [(.coinbaserH, declarationMarker), (.stratumH, fieldsMarker), (.stratumC, coinb2SendMarker),
    (.stratumC, cleanJobsMarker), (.stratumC, assemblyMarker), (.stratumC, extMarker),
    (.stratumC, vrollMarker), (.stratumC, pjidMarker), (.stratumC, epochCheckMarker),
    (.stratumH, p10Marker), (.stratumC, p11Marker), (.stratumC, p12Marker),
    (.stratumC, p13Marker)]

def fileSeeker (target replacement marker : List Char)
    (h : Fits marker [⟨target, replacement⟩]) : Seeker Char :=
  .guarded marker [⟨target, replacement⟩] h

theorem patch5_eq_exit_iff (s : List Char) : patch5 s = .exit ↔
    ∀ m ∈ [trueDiffMarker.chars, submitAny.chars, t5.chars, untab t5.chars], ¬ m <:+: s := by
  have hmarker : trueDiffMarker.chars ≠ [] := by decide +kernel
  have hjob : submitJobDiff.chars ≠ [] := by decide +kernel
  have hzero : submitZero.chars ≠ [] := by decide +kernel
  have hany : submitAny.chars ≠ [] := by decide +kernel
  have ht5 : t5.chars ≠ [] := by decide +kernel
  have ht5_alt : untab t5.chars ≠ [] := by decide +kernel
  have hjob_any : occurs submitJobDiff.chars s = true → occurs submitAny.chars s = true := by
    rw [occurs_iff hjob, occurs_iff hany]
    exact submitAny_infix_jobDiff.trans
  have hzero_any : occurs submitZero.chars s = true → occurs submitAny.chars s = true := by
    rw [occurs_iff hzero, occurs_iff hany]
    exact submitAny_infix_zero.trans
  simp only [List.forall_mem_cons, List.not_mem_nil, false_implies, implies_true, and_true]
  rw [← occurs_iff hmarker, ← occurs_iff hany, ← occurs_iff ht5, ← occurs_iff ht5_alt]
  unfold patch5
  split_ifs with h₁ h₂ h₃ h₄ h₅ h₆ <;> simp_all

def seekers : List (File × Seeker Char) :=
  [(.stratumC, pass0.tolerant fun s => by
      simp only [pass0, Pass.guardedOrSame, guardedOrSame]
      split_ifs <;> simp),
    (.coinbaserH, .guardedBeforeLast declarationMarker.chars endif.chars declaration.chars
      (by decide +kernel)),
    (.stratumH, fileSeeker stratumHTarget.chars (stratumHTarget.chars ++ stratumHAddition.chars)
      fieldsMarker.chars (by decide +kernel)),
    (.stratumC, .guarded coinb2SendMarker.chars
      [⟨coinb2SendTargetV1.chars, coinb2SendReplacement.chars⟩,
        ⟨coinb2SendTarget.chars, coinb2SendReplacement.chars⟩]
      (by decide +kernel)),
    (.stratumC, fileSeeker cleanJobsTarget.chars cleanJobsReplacement.chars cleanJobsMarker.chars
      (by decide +kernel)),
    (.stratumC, fileSeeker assemblyTarget.chars assemblyReplacement.chars assemblyMarker.chars
      (by decide +kernel)),
    (.stratumC, pass4Lengths.tolerant fun s => by
      simp only [pass4Lengths, Pass.everywhere, everywhere]
      split_ifs <;> simp),
    (.stratumC, { pass5 with
      wants := [trueDiffMarker.chars, submitAny.chars, t5.chars, untab t5.chars]
      seeks := patch5_eq_exit_iff }),
    (.stratumC, fileSeeker extTarget.chars extReplacement.chars extMarker.chars
      (by decide +kernel)),
    (.stratumC, .guarded vrollMarker.chars
      [⟨vrollTarget.chars, vrollReplacement.chars⟩,
        ⟨vrollTargetAlt, untab vrollReplacement.chars⟩]
      (by decide +kernel)),
    (.stratumC, fileSeeker pjidTarget.chars pjidReplacement.chars pjidMarker.chars
      (by decide +kernel)),
    (.stratumC, fileSeeker epochCheckTarget.chars epochCheckReplacement.chars
      epochCheckMarker.chars (by decide +kernel))]

/-- Patches 10, 11 and 12. -/
def followers : List (File × Seeker Char) :=
  [(.stratumH, fileSeeker p10Target.chars p10Replacement.chars p10Marker.chars
      (by decide +kernel)),
    (.stratumC, fileSeeker p11Target.chars p11Replacement.chars p11Marker.chars
      (by decide +kernel)),
    (.stratumC, fileSeeker p12Target.chars p12Replacement.chars p12Marker.chars
      (by decide +kernel))]

theorem passes_eq :
    passes = scriptOf seekers ++ (scriptOf followers ++ [(.stratumC, pass13)]) := rfl

/-- No patch has a say in what patches 0 to 9 look for. -/
theorem seekers_respected :
    seekers.Pairwise fun e e' => e.1 = e'.1 → e.2.respects e'.2 = true := by
  decide +kernel

theorem followers_respected :
    followers.Pairwise fun e e' => e.1 = e'.1 → e.2.respects e'.2 = true := by
  decide +kernel

/-! ## A checkout that was never patched -/

/-- None of the text that later patches build on is there yet. -/
structure Unpatched (disk : File → List Char) : Prop where
  fields : ¬ fieldsMarker.chars <:+: readText (disk .stratumH)
  send : ¬ coinb2SendMarker.chars <:+: readText (disk .stratumC)
  assembly : ¬ assemblyMarker.chars <:+: readText (disk .stratumC)
  saved : ¬ p11Marker.chars <:+: readText (disk .stratumC)

/-- What patches 1 to 9 look for, their own markers first. -/
def passages : List (File × List (List Char)) :=
  [(.coinbaserH, [declarationMarker.chars, endif.chars]),
    (.stratumH, [fieldsMarker.chars, stratumHTarget.chars]),
    (.stratumC, [coinb2SendMarker.chars, coinb2SendTargetV1.chars, coinb2SendTarget.chars]),
    (.stratumC, [cleanJobsMarker.chars, cleanJobsTarget.chars]),
    (.stratumC, [assemblyMarker.chars, assemblyTarget.chars]),
    (.stratumC, [trueDiffMarker.chars, submitAny.chars, t5.chars, untab t5.chars]),
    (.stratumC, [extMarker.chars, extTarget.chars]),
    (.stratumC, [vrollMarker.chars, vrollTarget.chars, vrollTargetAlt]),
    (.stratumC, [pjidMarker.chars, pjidTarget.chars]),
    (.stratumC, [epochCheckMarker.chars, epochCheckTarget.chars])]

theorem found_iff_passages (disk : File → List Char) :
    (∀ e ∈ seekers, e.2.found (readText (disk e.1))) ↔
      ∀ e ∈ passages, ∃ m ∈ e.2, m <:+: readText (disk e.1) := by
  simp only [seekers, passages, List.forall_mem_cons, List.not_mem_nil, false_implies,
    implies_true, and_true, Seeker.found, Pass.tolerant, Seeker.guarded, fileSeeker,
    Seeker.guardedBeforeLast, List.map_cons, List.map_nil]
  simp

/-- What the earlier patches did to an unpatched checkout suits patches 10 to 12. -/
theorem followers_found {disk disk₁ : File → List Char} (hnew : Unpatched disk)
    (h : Runs.run (step readText) disk (scriptOf seekers) = some disk₁) :
    ∀ e ∈ followers, e.2.found (readText (disk₁ e.1)) := by
  have hord : Orderly readText (scriptOf seekers) := passes_orderly.take 12
  have h10 : p10Target.chars <:+: readText (disk₁ .stratumH) :=
    infix_of_run_guarded readText_readText ((scriptOf seekers).take 2)
      ((scriptOf seekers).drop 3) (by decide +kernel) (by decide +kernel) (by decide +kernel)
      (by decide +kernel) (by decide +kernel) hord h hnew.fields
  have h11 : p11Target.chars <:+: readText (disk₁ .stratumC) :=
    infix_of_run_guarded readText_readText ((scriptOf seekers).take 3)
      ((scriptOf seekers).drop 4) (by decide +kernel) (by decide +kernel) (by decide +kernel)
      (by decide +kernel) (by decide +kernel) hord h hnew.send
  have h12 : p12Target.chars <:+: readText (disk₁ .stratumC) :=
    infix_of_run_guarded readText_readText ((scriptOf seekers).take 5)
      ((scriptOf seekers).drop 6) (by decide +kernel) (by decide +kernel) (by decide +kernel)
      (by decide +kernel) (by decide +kernel) hord h hnew.assembly
  simp only [followers, List.forall_mem_cons, List.not_mem_nil, false_implies, implies_true,
    and_true]
  refine ⟨⟨_, ?_, h10⟩, ⟨_, ?_, h11⟩, ⟨_, ?_, h12⟩⟩ <;>
    simp [fileSeeker, Seeker.guarded]

theorem pass13_found {disk disk₂ : File → List Char} (hnew : Unpatched disk)
    (h : Runs.run (step readText) disk (passes.take 15) = some disk₂) :
    p13Target.chars <:+: readText (disk₂ .stratumC) :=
  infix_of_run_guarded readText_readText (passes.take 13) [passes.get ⟨14, by decide⟩]
    (by decide +kernel) (by decide +kernel) (by decide +kernel) (by decide +kernel)
    (by decide +kernel) (passes_orderly.take 15) h hnew.saved

/-- **Which checkouts can be patched.** On files that were never patched a run
comes to its end exactly when they have the passages of patches 1 to 9: no
patch takes away what a later one needs, and the last four find their places in
what earlier ones brought. -/
theorem unpatched_run_finishes_iff {disk : File → List Char} (hnew : Unpatched disk) :
    (patchStratum disk).isSome = true ↔
      ∀ e ∈ passages, ∃ m ∈ e.2, m <:+: readText (disk e.1) := by
  have hord : Orderly readText (scriptOf seekers) := passes_orderly.take 12
  have hfirst : (Runs.run (step readText) disk (scriptOf seekers)).isSome = true ↔
      ∀ e ∈ passages, ∃ m ∈ e.2, m <:+: readText (disk e.1) :=
    (isSome_run_iff readText_readText hord seekers_respected).trans (found_iff_passages disk)
  rw [patchStratum_eq, ← hfirst, passes_eq, Runs.run_append]
  cases hrun : Runs.run (step readText) disk (scriptOf seekers) with
  | none => simp
  | some disk₁ =>
      have hord' : Orderly readText (scriptOf followers) := (passes_orderly.drop 12).take 3
      have hnext : (Runs.run (step readText) disk₁ (scriptOf followers)).isSome = true :=
        (isSome_run_iff readText_readText hord' followers_respected).mpr (followers_found hnew hrun)
      obtain ⟨disk₂, hrun₂⟩ := Option.isSome_iff_exists.mp hnext
      have hall : Runs.run (step readText) disk (passes.take 15) = some disk₂ := by
        have htake : passes.take 15 = scriptOf seekers ++ scriptOf followers := rfl
        rw [htake, Runs.run_append, hrun, Option.bind_some, hrun₂]
      have hlast : (fileSeeker p13Target.chars p13Replacement.chars p13Marker.chars
          (by decide +kernel)).found (readText (disk₂ .stratumC)) :=
        ⟨_, by simp [fileSeeker, Seeker.guarded], pass13_found hnew hall⟩
      have hstep : (step readText disk₂ (.stratumC, pass13)).isSome = true :=
        isSome_step_iff.mpr hlast
      rw [Option.bind_some, Runs.run_append, hrun₂, Option.bind_some]
      obtain ⟨disk₃, hdisk₃⟩ := Option.isSome_iff_exists.mp hstep
      simp only [Option.isSome_some, iff_true]
      rw [Option.isSome_iff_exists]
      exact ⟨disk₃, Runs.run_cons_iff.mpr ⟨disk₃, hdisk₃, rfl⟩⟩

/-- The upstream passages and nothing around them. -/
def freshCheckout : File → List Char
  | .stratumC => List.flatten
      [includeTarget.chars, coinb2SendTarget.chars, cleanJobsTarget.chars, assemblyTarget.chars,
        t5.chars, extTarget.chars, vrollTarget.chars, pjidTarget.chars, epochCheckTarget.chars]
  | .stratumH => stratumHTarget.chars
  | .coinbaserH => endif.chars

theorem unpatched_freshCheckout : Unpatched freshCheckout where
  fields := mt (occurs_iff (by decide +kernel)).mpr (by decide +kernel)
  send := mt (occurs_iff (by decide +kernel)).mpr (by decide +kernel)
  assembly := mt (occurs_iff (by decide +kernel)).mpr (by decide +kernel)
  saved := mt (occurs_iff (by decide +kernel)).mpr (by decide +kernel)

theorem unpatched_run_finishes_iff_freshCheckout : (patchStratum freshCheckout).isSome = true := by
  refine (unpatched_run_finishes_iff unpatched_freshCheckout).mpr fun e he => ?_
  have hall : ∀ e ∈ passages, ∃ m ∈ e.2,
      m ≠ [] ∧ occurs m (readText (freshCheckout e.1)) = true := by decide +kernel
  obtain ⟨m, hm, hne, hocc⟩ := hall e he
  exact ⟨m, hm, (occurs_iff hne).mp hocc⟩

end Deploy
