import Unlucky21.Deploy.PatchStratum

/-!
# The patch script is idempotent

Every patch is a pass that settles, and no patch disturbs an earlier one of the
same file. That is a check on the texts of the script alone, whatever the files
have around them.
-/

namespace Deploy

open Rewriting

-- The checks run over the characters of a text.
set_option maxRecDepth 20000

/-! ## Reading -/

theorem cr_not_mem_readText (s : List Char) : '\r' ∉ readText s := by
  fun_induction readText s with
  | case1 => simp
  | case2 s ih => simpa using ih
  | case3 s _ ih => simpa using ih
  | case4 c s _ hc ih => simpa [ih] using fun h => hc h.symm

theorem readText_eq_self {s : List Char} (h : '\r' ∉ s) : readText s = s := by
  fun_induction readText s with
  | case1 => rfl
  | case2 s ih => simp at h
  | case3 s _ ih => simp at h
  | case4 c s _ _ ih => rw [ih fun hs => h (List.mem_cons_of_mem _ hs)]

theorem readText_eq_self_iff {s : List Char} : readText s = s ↔ '\r' ∉ s :=
  ⟨fun h => h ▸ cr_not_mem_readText s, readText_eq_self⟩

theorem readText_readText (s : List Char) : readText (readText s) = readText s :=
  readText_eq_self (cr_not_mem_readText s)

/-! ## The patches as passes -/

def filePass (target replacement marker : List Char)
    (h : marker ≠ [] ∧ target ≠ [] ∧ occurs marker replacement = true) : Pass Char :=
  .guarded marker [⟨target, replacement⟩] h.1 (by simpa using h.2.1) (by simpa using h.2.2)

def pass0 : Pass Char :=
  .guardedOrSame includeMarker.chars ⟨includeTarget.chars, includeReplacement.chars⟩
    (by decide +kernel) (by decide +kernel) (by decide +kernel)

def pass1 : Pass Char :=
  .guardedBeforeLast declarationMarker.chars endif.chars declaration.chars (by decide +kernel)
    (by decide +kernel)

def pass2 : Pass Char :=
  filePass stratumHTarget.chars (stratumHTarget.chars ++ stratumHAddition.chars)
    fieldsMarker.chars (by decide +kernel)

def pass3 : Pass Char :=
  .guarded coinb2SendMarker.chars
    [⟨coinb2SendTargetV1.chars, coinb2SendReplacement.chars⟩,
      ⟨coinb2SendTarget.chars, coinb2SendReplacement.chars⟩]
    (by decide +kernel) (by decide +kernel) (by decide +kernel)

def pass3b : Pass Char :=
  filePass cleanJobsTarget.chars cleanJobsReplacement.chars cleanJobsMarker.chars
    (by decide +kernel)

def pass4 : Pass Char :=
  filePass assemblyTarget.chars assemblyReplacement.chars assemblyMarker.chars (by decide +kernel)

def pass4Lengths : Pass Char :=
  .everywhere ⟨lengthTarget.chars, lengthReplacement.chars⟩ (by decide +kernel)
    (by decide +kernel)

/-! ### The share submission -/

/-- What patch 5 replaces where there is no call yet. -/
def freshRewrites : List (Rewrite Char) := [⟨t5.chars, r5⟩, ⟨untab t5.chars, untab r5⟩]

def jobDiffRewrite : Rewrite Char := ⟨submitJobDiffTarget.chars, trueDiffBlock.chars⟩

def zeroRewrite : Rewrite Char := ⟨submitZeroTarget.chars, trueDiffBlock.chars⟩

/-- What patch 5 did to a content that was not refused. -/
inductive Submitted (s s' : List Char) : Prop where
  | present (h : trueDiffMarker.chars <:+: s) (same : s' = s)
  | jobDiff (h : submitJobDiff.chars <:+: s) (new : s' = jobDiffRewrite.first s)
  | zero (hnot : ¬ submitJobDiff.chars <:+: s) (h : submitZero.chars <:+: s)
      (new : s' = zeroRewrite.first s)
  | fresh (e : Rewrite Char) (h : e ∈ freshRewrites) (new : Splice e s s')
  | unknown (hjob : ¬ submitJobDiff.chars <:+: s) (hzero : ¬ submitZero.chars <:+: s)
      (h : submitAny.chars <:+: s) (same : s' = s)

/-- The marker is there; or there is a call, and the branch that is taken for it
finds nothing to replace. -/
def Submits (s : List Char) : Prop :=
  trueDiffMarker.chars <:+: s ∨
    submitAny.chars <:+: s ∧ ¬ submitJobDiffTarget.chars <:+: s ∧
      (submitJobDiff.chars <:+: s ∨ ¬ submitZeroTarget.chars <:+: s)

theorem submitted_of_patch5 {s s' : List Char} (h : (patch5 s).content s = some s') :
    Submitted s s' := by
  have hmarker : trueDiffMarker.chars ≠ [] := by decide +kernel
  have hjob : submitJobDiff.chars ≠ [] := by decide +kernel
  have hzero : submitZero.chars ≠ [] := by decide +kernel
  have hany : submitAny.chars ≠ [] := by decide +kernel
  have ht5 : t5.chars ≠ [] := by decide +kernel
  have ht5_alt : untab t5.chars ≠ [] := by decide +kernel
  unfold patch5 at h
  split_ifs at h with h₁ h₂ h₃ h₄ h₅ h₆
  · obtain rfl := Option.some.inj h
    exact .present ((occurs_iff hmarker).mp h₁) rfl
  · obtain rfl := Option.some.inj h
    exact .jobDiff ((occurs_iff hjob).mp h₂) rfl
  · obtain rfl := Option.some.inj h
    exact .zero (mt (occurs_iff hjob).mpr h₂) ((occurs_iff hzero).mp h₃) rfl
  · obtain rfl := Option.some.inj h
    exact .fresh ⟨t5.chars, r5⟩ List.mem_cons_self
      (Rewrite.splice_first ht5 ((occurs_iff ht5).mp h₅))
  · obtain rfl := Option.some.inj h
    exact .fresh ⟨untab t5.chars, untab r5⟩ (List.mem_cons_of_mem _ List.mem_cons_self)
      (Rewrite.splice_first ht5_alt ((occurs_iff ht5_alt).mp h₆))
  · cases h
  · obtain rfl := Option.some.inj h
    refine .unknown (mt (occurs_iff hjob).mpr h₂) (mt (occurs_iff hzero).mpr h₃) ?_ rfl
    rw [Bool.not_eq_true', Bool.not_eq_false] at h₄
    exact (occurs_iff hany).mp h₄

theorem submitAny_infix_jobDiff : submitAny.chars <:+: submitJobDiff.chars :=
  (occurs_iff (by decide +kernel)).mp (by decide +kernel)

theorem submitAny_infix_zero : submitAny.chars <:+: submitZero.chars :=
  (occurs_iff (by decide +kernel)).mp (by decide +kernel)

theorem submitJobDiff_infix_target : submitJobDiff.chars <:+: submitJobDiffTarget.chars :=
  (occurs_iff (by decide +kernel)).mp (by decide +kernel)

theorem submitZero_infix_target : submitZero.chars <:+: submitZeroTarget.chars :=
  (occurs_iff (by decide +kernel)).mp (by decide +kernel)

/-- The marker comes with every replacement. -/
theorem trueDiffMarker_of_first {e : Rewrite Char}
    (he : e ∈ jobDiffRewrite :: zeroRewrite :: freshRewrites) (s : List Char) :
    trueDiffMarker.chars <:+: e.first s ∨ ¬ e.target <:+: s ∧ e.first s = s := by
  have hall : ∀ e ∈ jobDiffRewrite :: zeroRewrite :: freshRewrites,
      e.target ≠ [] ∧ occurs trueDiffMarker.chars e.replacement = true := by
    decide +kernel
  exact e.infix_first_or (hall e he).1 (by decide +kernel) (hall e he).2 s

theorem Submitted.submits {s s' : List Char} (h : Submitted s s') : Submits s' := by
  cases h with
  | present h same => exact Or.inl (same ▸ h)
  | jobDiff h new =>
      subst new
      rcases trueDiffMarker_of_first List.mem_cons_self s with hin | ⟨hout, hsame⟩
      · exact Or.inl hin
      · rw [hsame]
        exact Or.inr ⟨submitAny_infix_jobDiff.trans h, hout, Or.inl h⟩
  | zero hnot h new =>
      subst new
      rcases trueDiffMarker_of_first (List.mem_cons_of_mem _ List.mem_cons_self) s with
        hin | ⟨hout, hsame⟩
      · exact Or.inl hin
      · rw [hsame]
        exact Or.inr ⟨submitAny_infix_zero.trans h,
          fun ht => hnot (submitJobDiff_infix_target.trans ht), Or.inr hout⟩
  | fresh e h new =>
      have hall : ∀ e ∈ freshRewrites, occurs trueDiffMarker.chars e.replacement = true := by
        decide +kernel
      obtain ⟨a, b, -, rfl⟩ := new
      have hin := (occurs_iff (by decide +kernel)).mp (hall e h)
      exact Or.inl (hin.trans (List.infix_append a _ b))
  | unknown hjob hzero h same =>
      subst same
      exact Or.inr ⟨h, fun ht => hjob (submitJobDiff_infix_target.trans ht),
        Or.inr fun ht => hzero (submitZero_infix_target.trans ht)⟩

theorem Submitted.edits {s s' : List Char} (h : Submitted s s') :
    Edits (jobDiffRewrite :: zeroRewrite :: freshRewrites) s s' := by
  cases h with
  | present _ same => exact same ▸ Relation.ReflTransGen.refl
  | jobDiff _ new =>
      rw [new]
      exact jobDiffRewrite.edits_first (by decide +kernel) List.mem_cons_self s
  | zero _ _ new =>
      rw [new]
      exact zeroRewrite.edits_first (by decide +kernel)
        (List.mem_cons_of_mem _ List.mem_cons_self) s
  | fresh e h new => exact new.edits (List.mem_cons_of_mem _ (List.mem_cons_of_mem _ h))
  | unknown _ _ _ same => exact same ▸ Relation.ReflTransGen.refl

theorem Submits.idle {s : List Char} (h : Submits s) :
    patch5 s = .keep ∨ patch5 s = .write s := by
  have hjob_target : jobDiffRewrite.target ≠ [] := by decide +kernel
  have hzero_target : zeroRewrite.target ≠ [] := by decide +kernel
  unfold patch5
  rcases h with hmarker | ⟨hany, hnot, hform⟩
  · rw [if_pos ((occurs_iff (by decide +kernel)).mpr hmarker)]
    exact Or.inl rfl
  · have hcall : occurs submitAny.chars s = true := (occurs_iff (by decide +kernel)).mpr hany
    split_ifs with h₁ h₂ h₃ h₄ h₅ h₆
    · exact Or.inl rfl
    · exact Or.inr (congrArg _ (jobDiffRewrite.first_of_not_infix hjob_target hnot))
    · rcases hform with hjob | hzero
      · exact absurd ((occurs_iff (by decide +kernel)).mpr hjob) h₂
      · exact Or.inr (congrArg _ (zeroRewrite.first_of_not_infix hzero_target hzero))
    · simp [hcall] at h₄
    · simp [hcall] at h₄
    · simp [hcall] at h₄
    · exact Or.inl rfl

def pass5 : Pass Char where
  apply := patch5
  rewrites := jobDiffRewrite :: zeroRewrite :: freshRewrites
  present := [trueDiffMarker.chars, submitAny.chars, submitJobDiff.chars]
  absent := [submitJobDiffTarget.chars, submitZeroTarget.chars]
  Settled := Submits
  needles := by decide +kernel
  edits _ _ h := (submitted_of_patch5 h).edits
  settles _ _ h := (submitted_of_patch5 h).submits
  idle _ h := h.idle
  carry s s' h hpresent habsent := by
    simp only [List.forall_mem_cons] at hpresent habsent
    obtain ⟨hmarker, hany, hjob, -⟩ := hpresent
    obtain ⟨hjob_target, hzero_target, -⟩ := habsent
    exact h.imp hmarker fun h => ⟨hany h.1, hjob_target h.2.1, h.2.2.imp hjob hzero_target⟩

/-! ### The others -/

def pass6 : Pass Char :=
  filePass extTarget.chars extReplacement.chars extMarker.chars (by decide +kernel)

def pass7 : Pass Char :=
  .guarded vrollMarker.chars
    [⟨vrollTarget.chars, vrollReplacement.chars⟩,
      ⟨vrollTargetAlt, untab vrollReplacement.chars⟩]
    (by decide +kernel) (by decide +kernel) (by decide +kernel)

def pass8 : Pass Char :=
  filePass pjidTarget.chars pjidReplacement.chars pjidMarker.chars (by decide +kernel)

def pass9 : Pass Char :=
  filePass epochCheckTarget.chars epochCheckReplacement.chars epochCheckMarker.chars
    (by decide +kernel)

def pass10 : Pass Char :=
  filePass p10Target.chars p10Replacement.chars p10Marker.chars (by decide +kernel)

def pass11 : Pass Char :=
  filePass p11Target.chars p11Replacement.chars p11Marker.chars (by decide +kernel)

def pass12 : Pass Char :=
  filePass p12Target.chars p12Replacement.chars p12Marker.chars (by decide +kernel)

def pass13 : Pass Char :=
  filePass p13Target.chars p13Replacement.chars p13Marker.chars (by decide +kernel)

/-! ## The script -/

def passes : List (File × Pass Char) :=
  [(.stratumC, pass0), (.coinbaserH, pass1), (.stratumH, pass2), (.stratumC, pass3),
    (.stratumC, pass3b), (.stratumC, pass4), (.stratumC, pass4Lengths), (.stratumC, pass5),
    (.stratumC, pass6), (.stratumC, pass7), (.stratumC, pass8), (.stratumC, pass9),
    (.stratumH, pass10), (.stratumC, pass11), (.stratumC, pass12), (.stratumC, pass13)]

theorem passes_apply : passes.map (fun e => (e.1, e.2.apply)) = patches := rfl

/-- No patch undoes what an earlier one of the same file looks for. -/
theorem passes_compatible :
    passes.Pairwise fun e e' => e.1 = e'.1 → e.2.compatible e'.2 = true := by
  decide +kernel

/-- No patch brings in a carriage return. -/
theorem passes_spare_cr : ∀ e ∈ passes, ∀ r ∈ e.2.rewrites, r.spares ['\r'] = true := by
  decide +kernel

theorem patchStratum_eq (disk : File → List Char) :
    patchStratum disk = Runs.run (step readText) disk passes := by
  rw [patchStratum, ← passes_apply, Runs.run_map]
  rfl

theorem passes_orderly : Orderly readText passes where
  written e he s t hs happ := by
    have hedits : Edits e.2.rewrites s t := e.2.edits s t (by rw [happ, Outcome.content])
    rw [readText_eq_self_iff] at hs ⊢
    have hspared := hedits.spares (passes_spare_cr e he)
    simpa [List.singleton_infix_iff] using hspared (by simpa [List.singleton_infix_iff] using hs)
  compatible := passes_compatible

/-- **The script is idempotent.** Once a run came to its end, another one ends
too and leaves the three files as they are. -/
theorem second_run_changes_nothing {disk disk' : File → List Char}
    (h : patchStratum disk = some disk') : patchStratum disk' = some disk' := by
  rw [patchStratum_eq] at h ⊢
  exact run_idempotent readText_readText passes_orderly h

/-- Fresh headers, and a datum_stratum.c that still has the targets of patches 0
and 4 and from the others their markers. -/
def halfPatched : File → List Char
  | .stratumC => List.flatten
      [includeTarget.chars, cleanJobsMarker.chars, assemblyTarget.chars, trueDiffMarker.chars,
        extMarker.chars, vrollMarker.chars, pjidMarker.chars, epochCheckMarker.chars,
        p11Marker.chars, p13Marker.chars]
  | .stratumH => stratumHTarget.chars
  | .coinbaserH => endif.chars

/-- Patches 0, 1, 2, 4, 10 and 12 write, the last one into text of patch 4. -/
theorem second_run_changes_nothing_halfPatched :
    ∃ disk, patchStratum halfPatched = some disk ∧ disk .stratumC ≠ halfPatched .stratumC ∧
      patchStratum disk = some disk := by
  have hrun : ((patchStratum halfPatched).map fun disk =>
      occurs p12Marker.chars (disk .stratumC)) = some true := by decide +kernel
  have hout : occurs p12Marker.chars (halfPatched .stratumC) = false := by decide +kernel
  obtain ⟨disk, hdisk, hocc⟩ := Option.map_eq_some_iff.mp hrun
  refine ⟨disk, hdisk, fun hsame => ?_, second_run_changes_nothing hdisk⟩
  rw [hsame, hout] at hocc
  cases hocc

end Deploy
