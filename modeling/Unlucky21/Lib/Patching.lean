import Unlucky21.Lib.Rewriting
import Unlucky21.Lib.Runs

/-!
# Passes over files

A pass reads a file and leaves it, writes a new content or gives up. It is
*settled* on a content when it has nothing to change there, and says which
needles this depends on. If every later pass on the same file keeps the needles
that must be there and does not bring up those that must not, a pass settles
for good, and a script of such passes does nothing the second time.

Reading need not give a file's content as it stands (line ends may be
translated), but what is written reads as it was written.
-/

namespace Rewriting

variable {α : Type*} [DecidableEq α]

inductive Outcome (α : Type*) where
  /-- The script ends with an error. -/
  | exit
  /-- The file is left alone. -/
  | keep
  | write (content : List α)
deriving DecidableEq

/-- The content after a pass that read `s`. -/
def Outcome.content (s : List α) : Outcome α → Option (List α)
  | .exit => none
  | .keep => some s
  | .write t => some t

structure Pass (α : Type*) [DecidableEq α] where
  apply : List α → Outcome α
  /-- All it ever replaces. -/
  rewrites : List (Rewrite α)
  /-- The needles that must stay where they occur, for the pass to stay settled. -/
  present : List (List α)
  /-- The needles that must not come up. -/
  absent : List (List α)
  Settled : List α → Prop
  needles : ∀ m ∈ present, m ≠ []
  edits : ∀ s s', (apply s).content s = some s' → Edits rewrites s s'
  settles : ∀ s s', (apply s).content s = some s' → Settled s'
  idle : ∀ s, Settled s → apply s = .keep ∨ apply s = .write s
  carry : ∀ s s', Settled s → (∀ m ∈ present, m <:+: s → m <:+: s') →
    (∀ m ∈ absent, ¬ m <:+: s → ¬ m <:+: s') → Settled s'

/-- The later pass `q` does not disturb `p`. -/
def Pass.compatible (p q : Pass α) : Bool :=
  q.rewrites.all fun e => p.present.all e.keeps && p.absent.all e.spares

theorem Pass.settled_of_compatible {p q : Pass α} (h : p.compatible q = true) {s s' : List α}
    (hs : p.Settled s) (hq : (q.apply s).content s = some s') : p.Settled s' := by
  have hall : ∀ e ∈ q.rewrites, (∀ m ∈ p.present, e.keeps m = true) ∧
      ∀ m ∈ p.absent, e.spares m = true := by
    simpa [Pass.compatible, List.all_eq_true] using h
  have hedits := q.edits s s' hq
  refine p.carry s s' hs (fun m hm hin => ?_) fun m hm hout => ?_
  · exact hedits.keeps (p.needles m hm) (fun e he => (hall e he).1 m hm) hin
  · exact hedits.spares (fun e he => (hall e he).2 m hm) hout

/-! ## Kinds of passes -/

/-- Leave a marked content, else replace the first occurrence of the first
target there is. -/
def guarded (marker : List α) (es : List (Rewrite α)) (s : List α) : Outcome α :=
  if occurs marker s then .keep
  else
    match es.find? fun e => occurs e.target s with
    | some e => .write (e.first s)
    | none => .exit

/-- Leave a marked content, else put `text` before the last `t`. -/
def guardedBeforeLast (marker t text s : List α) : Outcome α :=
  if occurs marker s then .keep
  else
    match cutLast t s with
    | some (a, b) => .write (a ++ text ++ t ++ b)
    | none => .exit

/-- Leave a marked content, else write it with its first target replaced, if it has one. -/
def guardedOrSame (marker : List α) (e : Rewrite α) (s : List α) : Outcome α :=
  if occurs marker s then .keep else .write (e.first s)

/-- Replace every occurrence, if there is one. -/
def everywhere (e : Rewrite α) (s : List α) : Outcome α :=
  if occurs e.target s then .write (e.all s) else .keep

/-- A pass that leaves its marker behind, or else does nothing. -/
def Pass.marked (apply : List α → Outcome α) (marker : List α) (es : List (Rewrite α))
    (hmarker : marker ≠ []) (hes : ∀ e ∈ es, occurs marker e.replacement = true)
    (hkeep : ∀ s, marker <:+: s → apply s = .keep)
    (hsplice : ∀ s s', ¬ marker <:+: s → (apply s).content s = some s' → ∃ e ∈ es, Splice e s s') :
    Pass α where
  apply := apply
  rewrites := es
  present := [marker]
  absent := []
  Settled s := marker <:+: s
  needles := by simpa using hmarker
  edits s s' h := by
    by_cases hm : marker <:+: s
    · rw [hkeep s hm] at h
      obtain rfl := Option.some.inj h
      exact Relation.ReflTransGen.refl
    · obtain ⟨e, hmem, hsp⟩ := hsplice s s' hm h
      exact hsp.edits hmem
  settles s s' h := by
    by_cases hm : marker <:+: s
    · rw [hkeep s hm] at h
      obtain rfl := Option.some.inj h
      exact hm
    · obtain ⟨e, hmem, a, b, -, rfl⟩ := hsplice s s' hm h
      exact ((occurs_iff hmarker).mp (hes e hmem)).trans (List.infix_append a _ b)
  idle s hs := Or.inl (hkeep s hs)
  carry s s' hs hpresent _ := hpresent marker List.mem_cons_self hs

theorem guarded_of_infix {marker : List α} (hmarker : marker ≠ []) {es : List (Rewrite α)}
    {s : List α} (h : marker <:+: s) : guarded marker es s = .keep := by
  rw [guarded, if_pos ((occurs_iff hmarker).mpr h)]

theorem splice_of_guarded {marker : List α} (hmarker : marker ≠ []) {es : List (Rewrite α)}
    (hes : ∀ e ∈ es, e.target ≠ []) {s s' : List α} (h : ¬ marker <:+: s)
    (hs : (guarded marker es s).content s = some s') : ∃ e ∈ es, Splice e s s' := by
  rw [guarded, if_neg (mt (occurs_iff hmarker).mp h)] at hs
  cases hfind : es.find? fun e => occurs e.target s with
  | none =>
      rw [hfind] at hs
      cases hs
  | some e =>
      rw [hfind] at hs
      obtain rfl := Option.some.inj hs
      have hmem := List.mem_of_find?_eq_some hfind
      have hocc := List.find?_some (p := fun e : Rewrite α => occurs e.target s) hfind
      exact ⟨e, hmem, e.splice_first (hes e hmem) ((occurs_iff (hes e hmem)).mp hocc)⟩

def Pass.guarded (marker : List α) (es : List (Rewrite α)) (hmarker : marker ≠ [])
    (htargets : ∀ e ∈ es, e.target ≠ []) (hes : ∀ e ∈ es, occurs marker e.replacement = true) :
    Pass α :=
  .marked (Rewriting.guarded marker es) marker es hmarker hes
    (fun _ h => guarded_of_infix hmarker h) fun _ _ => splice_of_guarded hmarker htargets

def Pass.guardedBeforeLast (marker t text : List α) (hmarker : marker ≠ [])
    (htext : occurs marker (text ++ t) = true) : Pass α :=
  .marked (Rewriting.guardedBeforeLast marker t text) marker [⟨t, text ++ t⟩] hmarker
    (by simpa using htext)
    (fun s h => by rw [Rewriting.guardedBeforeLast, if_pos ((occurs_iff hmarker).mpr h)])
    fun s s' h hs => by
      rw [Rewriting.guardedBeforeLast, if_neg (mt (occurs_iff hmarker).mp h)] at hs
      cases hcut : cutLast t s with
      | none =>
          rw [hcut] at hs
          cases hs
      | some p =>
          rw [hcut] at hs
          obtain rfl := Option.some.inj hs
          exact ⟨_, List.mem_cons_self, p.1, p.2, cutLast_eq_some hcut, by
            simp only [List.append_assoc]⟩

/-- The marker may be missing afterwards, when the target was. -/
def Pass.guardedOrSame (marker : List α) (e : Rewrite α) (hmarker : marker ≠ [])
    (ht : e.target ≠ []) (hes : occurs marker e.replacement = true) : Pass α where
  apply := Rewriting.guardedOrSame marker e
  rewrites := [e]
  present := [marker]
  absent := [e.target]
  Settled s := marker <:+: s ∨ ¬ e.target <:+: s
  needles := by simpa using hmarker
  edits s s' h := by
    unfold Rewriting.guardedOrSame at h
    split_ifs at h
    · obtain rfl := Option.some.inj h
      exact Relation.ReflTransGen.refl
    · obtain rfl := Option.some.inj h
      exact e.edits_first ht List.mem_cons_self s
  settles s s' h := by
    unfold Rewriting.guardedOrSame at h
    split_ifs at h with hm
    · obtain rfl := Option.some.inj h
      exact Or.inl ((occurs_iff hmarker).mp hm)
    · obtain rfl := Option.some.inj h
      rcases e.infix_first_or ht hmarker hes s with hin | ⟨hout, hsame⟩
      · exact Or.inl hin
      · exact Or.inr (hsame.symm ▸ hout)
  idle s hs := by
    unfold Rewriting.guardedOrSame
    split_ifs with hm
    · exact Or.inl rfl
    · rcases hs with hin | hout
      · exact absurd ((occurs_iff hmarker).mpr hin) hm
      · rw [e.first_of_not_infix ht hout]
        exact Or.inr rfl
  carry s s' hs hpresent habsent :=
    hs.imp (hpresent marker List.mem_cons_self) (habsent e.target List.mem_cons_self)

def Pass.everywhere (e : Rewrite α) (ht : e.target ≠ [])
    (hapart : apart e.target e.replacement = true) : Pass α where
  apply := Rewriting.everywhere e
  rewrites := [e]
  present := []
  absent := [e.target]
  Settled s := ¬ e.target <:+: s
  needles := by simp
  edits s s' h := by
    unfold Rewriting.everywhere at h
    split_ifs at h
    · obtain rfl := Option.some.inj h
      exact e.edits_all ht List.mem_cons_self s
    · obtain rfl := Option.some.inj h
      exact Relation.ReflTransGen.refl
  settles s s' h := by
    unfold Rewriting.everywhere at h
    split_ifs at h with hocc
    · obtain rfl := Option.some.inj h
      exact e.not_infix_all ht hapart s
    · obtain rfl := Option.some.inj h
      exact mt (occurs_iff ht).mpr hocc
  idle s hs := by
    rw [Rewriting.everywhere, if_neg (mt (occurs_iff ht).mp hs)]
    exact Or.inl rfl
  carry s s' hs _ habsent := habsent e.target List.mem_cons_self hs

/-! ## Scripts -/

variable {ι : Type*} (read : List α → List α)

/-- What a script needs to have of its passes. -/
structure Orderly (script : List (ι × Pass α)) : Prop where
  written : ∀ e ∈ script, ∀ s t, read s = s → e.2.apply s = .write t → read t = t
  compatible : script.Pairwise fun e e' => e.1 = e'.1 → e.2.compatible e'.2 = true

variable {read}

theorem Orderly.tail {e : ι × Pass α} {script : List (ι × Pass α)}
    (h : Orderly read (e :: script)) : Orderly read script where
  written := fun e' he' => h.written e' (List.mem_cons_of_mem _ he')
  compatible := (List.pairwise_cons.mp h.compatible).2

variable [DecidableEq ι]

/-- What a patch does to one of several files. -/
def patch (read : List α → List α) (disk : ι → List α) (i : ι) (f : List α → Outcome α) :
    Option (ι → List α) :=
  match f (read (disk i)) with
  | .exit => none
  | .keep => some disk
  | .write t => some (Function.update disk i t)

/-- The same for a pass. -/
def step (read : List α → List α) (disk : ι → List α) (e : ι × Pass α) : Option (ι → List α) :=
  patch read disk e.1 e.2.apply

/-- A step seen from its own file: the content read afterwards is the pass's. -/
theorem content_of_step (hread : ∀ s, read (read s) = read s) {disk disk' : ι → List α}
    {e : ι × Pass α}
    (hwritten : ∀ s t, read s = s → e.2.apply s = .write t → read t = t)
    (h : step read disk e = some disk') :
    (e.2.apply (read (disk e.1))).content (read (disk e.1)) = some (read (disk' e.1)) := by
  unfold step patch at h
  cases happ : e.2.apply (read (disk e.1)) with
  | exit =>
      rw [happ] at h
      cases h
  | keep =>
      rw [happ] at h
      obtain rfl := Option.some.inj h
      rfl
  | write t =>
      rw [happ] at h
      obtain rfl := Option.some.inj h
      simp only [Outcome.content, Function.update_self]
      rw [hwritten _ t (hread _) happ]

/-- The other files are left alone. -/
theorem step_of_ne {disk disk' : ι → List α} {e : ι × Pass α} (h : step read disk e = some disk')
    {i : ι} (hi : i ≠ e.1) : disk' i = disk i := by
  unfold step patch at h
  cases happ : e.2.apply (read (disk e.1)) with
  | exit =>
      rw [happ] at h
      cases h
  | keep =>
      rw [happ] at h
      obtain rfl := Option.some.inj h
      rfl
  | write t =>
      rw [happ] at h
      obtain rfl := Option.some.inj h
      exact Function.update_of_ne hi _ _

/-- A settled pass stays settled over the passes behind it. -/
theorem settled_of_run (hread : ∀ s, read (read s) = read s) {p : Pass α} {i : ι} :
    ∀ {script : List (ι × Pass α)} {disk disk' : ι → List α}, Orderly read script →
      (∀ e ∈ script, i = e.1 → p.compatible e.2 = true) → p.Settled (read (disk i)) →
        Runs.run (step read) disk script = some disk' → p.Settled (read (disk' i))
  | [], _, _, _, _, hs, h => by
      obtain rfl := Option.some.inj h
      exact hs
  | e :: script, disk, disk', hord, hcompat, hs, h => by
      obtain ⟨disk₁, hstep, hrun⟩ := Runs.run_cons_iff.mp h
      have hs₁ : p.Settled (read (disk₁ i)) := by
        by_cases hi : i = e.1
        · subst hi
          exact p.settled_of_compatible (hcompat e List.mem_cons_self rfl) hs
            (content_of_step hread (hord.written e List.mem_cons_self) hstep)
        · rw [step_of_ne hstep hi]
          exact hs
      exact settled_of_run hread hord.tail (fun e' he' => hcompat e' (List.mem_cons_of_mem _ he'))
        hs₁ hrun

/-- After a run every pass is settled. -/
theorem all_settled (hread : ∀ s, read (read s) = read s) :
    ∀ {script : List (ι × Pass α)} {disk disk' : ι → List α}, Orderly read script →
      Runs.run (step read) disk script = some disk' →
        ∀ e ∈ script, e.2.Settled (read (disk' e.1))
  | [], _, _, _, _ => by simp
  | e :: script, disk, disk', hord, h => by
      obtain ⟨disk₁, hstep, hrun⟩ := Runs.run_cons_iff.mp h
      intro e' he'
      rcases List.mem_cons.mp he' with rfl | he'
      · have hs := e'.2.settles _ _
          (content_of_step hread (hord.written e' List.mem_cons_self) hstep)
        exact settled_of_run hread hord.tail
          (fun e'' he'' => (List.pairwise_cons.mp hord.compatible).1 e'' he'') hs hrun
      · exact all_settled hread hord.tail hrun e' he'

/-- A file no pass writes is as it was; any other one reads as it stands. -/
theorem kept_or_read (hread : ∀ s, read (read s) = read s) :
    ∀ {script : List (ι × Pass α)} {disk disk' : ι → List α}, Orderly read script →
      Runs.run (step read) disk script = some disk' → ∀ i,
        (disk' i = disk i ∧ ∀ e ∈ script, e.1 = i → e.2.apply (read (disk i)) = .keep) ∨
          read (disk' i) = disk' i
  | [], _, _, _, h => by
      obtain rfl := Option.some.inj h
      simp
  | e :: script, disk, disk', hord, h => by
      obtain ⟨disk₁, hstep, hrun⟩ := Runs.run_cons_iff.mp h
      intro i
      rcases kept_or_read hread hord.tail hrun i with ⟨hi, hkeep⟩ | hfix
      · by_cases hne : e.1 = i
        · subst hne
          unfold step patch at hstep
          cases happ : e.2.apply (read (disk e.1)) with
          | exit =>
              rw [happ] at hstep
              cases hstep
          | keep =>
              rw [happ] at hstep
              obtain rfl := Option.some.inj hstep
              refine Or.inl ⟨hi, fun e' he' hfile => ?_⟩
              rcases List.mem_cons.mp he' with rfl | he'
              · exact happ
              · exact hkeep e' he' hfile
          | write t =>
              rw [happ] at hstep
              obtain rfl := Option.some.inj hstep
              right
              rw [hi, Function.update_self]
              exact hord.written e List.mem_cons_self _ t (hread _) happ
        · have hsame := step_of_ne hstep (Ne.symm hne)
          rw [hsame] at hi hkeep
          refine Or.inl ⟨hi, fun e' he' hfile => ?_⟩
          rcases List.mem_cons.mp he' with rfl | he'
          · exact absurd hfile hne
          · exact hkeep e' he' hfile
      · exact Or.inr hfix

theorem run_eq_self {disk : ι → List α} {script : List (ι × Pass α)}
    (h : ∀ e ∈ script, step read disk e = some disk) :
    Runs.run (step read) disk script = some disk := by
  induction script with
  | nil => rfl
  | cons e script ih =>
      have htail := ih fun e' he' => h e' (List.mem_cons_of_mem _ he')
      exact Runs.run_cons_iff.mpr ⟨disk, h e List.mem_cons_self, htail⟩

/-- **A script of compatible passes is idempotent.** -/
theorem run_idempotent (hread : ∀ s, read (read s) = read s) {script : List (ι × Pass α)}
    {disk disk' : ι → List α} (hord : Orderly read script)
    (h : Runs.run (step read) disk script = some disk') :
    Runs.run (step read) disk' script = some disk' := by
  apply run_eq_self
  intro e he
  rcases kept_or_read hread hord h e.1 with ⟨hsame, hkeep⟩ | hfix
  · rw [step, patch, hsame, hkeep e he rfl]
  · rcases e.2.idle _ (all_settled hread hord h e he) with happ | happ
    · rw [step, patch, happ]
    · rw [step, patch, happ, hfix]
      simp only [Function.update_eq_self]

end Rewriting
