import Mathlib

/-!
# Runs of a partial step function

A system is a step function `σ → ε → Option σ`: `none` means the event cannot
happen in that state. A run is a list of events taken in order. The rules here
are the ones every state machine of the development uses: how runs compose,
the invariant rule, the history rule (an invariant that may also mention the
events taken so far), the rule for an invariant that survives only the steps
meeting a side condition, and the rule for runs that come to an end.
-/

namespace Runs

variable {σ ε : Type*} {step : σ → ε → Option σ}

/-- Take the events of the list in order, stopping at one that cannot happen. -/
def run (step : σ → ε → Option σ) : σ → List ε → Option σ
  | s, [] => some s
  | s, e :: es => (step s e).bind fun s' => run step s' es

@[simp] theorem run_nil (s : σ) : run step s [] = some s := rfl

theorem run_cons_iff {s t : σ} {e : ε} {es : List ε} :
    run step s (e :: es) = some t ↔
      ∃ s', step s e = some s' ∧ run step s' es = some t := by
  simp [run, Option.bind_eq_some_iff]

theorem run_map {δ : Type*} (f : δ → ε) (es : List δ) (s : σ) :
    run step s (es.map f) = run (fun s e => step s (f e)) s es := by
  induction es generalizing s with
  | nil => rfl
  | cons e es ih => simp [run, ih]

theorem run_append (s : σ) (es es' : List ε) :
    run step s (es ++ es') = (run step s es).bind fun t => run step t es' := by
  induction es generalizing s with
  | nil => rfl
  | cons e es ih => simp [run, ih, Option.bind_assoc]

theorem run_append_iff {s t : σ} : ∀ {es es' : List ε},
    run step s (es ++ es') = some t ↔
      ∃ s', run step s es = some s' ∧ run step s' es' = some t := by
  intro es
  induction es generalizing s with
  | nil => intro es'; simp
  | cons e es ih =>
      intro es'
      simp only [List.cons_append, run_cons_iff, ih]
      constructor
      · rintro ⟨s₁, h₁, s₂, h₂, h₃⟩
        exact ⟨s₂, ⟨s₁, h₁, h₂⟩, h₃⟩
      · rintro ⟨s₂, ⟨s₁, h₁, h₂⟩, h₃⟩
        exact ⟨s₁, h₁, s₂, h₂, h₃⟩

theorem run_snoc_iff {s t : σ} {es : List ε} {e : ε} :
    run step s (es ++ [e]) = some t ↔
      ∃ s', run step s es = some s' ∧ step s' e = some t := by
  simp [run_append_iff, run_cons_iff]

/-- **History rule.** A property of the events taken and the state they lead
to holds after every run if it holds at the start and each step extends it. -/
theorem run_history {P : List ε → σ → Prop} {s₀ : σ} (h0 : P [] s₀)
    (hstep : ∀ es s e s', run step s₀ es = some s → P es s →
      step s e = some s' → P (es ++ [e]) s') :
    ∀ {es s}, run step s₀ es = some s → P es s := by
  intro es
  induction es using List.reverseRecOn with
  | nil =>
      intro s h
      cases h
      exact h0
  | append_singleton es e ih =>
      intro s h
      obtain ⟨s', hs', he⟩ := run_snoc_iff.mp h
      exact hstep es s' e s hs' (ih hs') he

/-- **Invariant rule.** -/
theorem run_invariant {P : σ → Prop}
    (hstep : ∀ s e s', P s → step s e = some s' → P s')
    {s t : σ} {es : List ε} (hs : P s) (h : run step s es = some t) : P t :=
  run_history (P := fun _ s => P s) hs
    (fun _ s e s' _ hi he => hstep s e s' hi he) h

/-- Every step of the run meets `ok`, a condition on the event and the state
it is taken in. -/
def Every (step : σ → ε → Option σ) (ok : σ → ε → Prop) : σ → List ε → Prop
  | _, [] => True
  | s, e :: es => ok s e ∧ ∀ s' ∈ step s e, Every step ok s' es

instance decidableEvery (step : σ → ε → Option σ) (ok : σ → ε → Prop)
    [∀ s e, Decidable (ok s e)] : ∀ s es, Decidable (Every step ok s es)
  | _, [] => .isTrue trivial
  | s, e :: es =>
      have := fun s' => decidableEvery step ok s' es
      inferInstanceAs (Decidable (ok s e ∧ ∀ s' ∈ step s e, Every step ok s' es))

theorem every_map {δ : Type*} (f : δ → ε) (ok : σ → ε → Prop) (es : List δ) (s : σ) :
    Every step ok s (es.map f) ↔
      Every (fun s e => step s (f e)) (fun s e => ok s (f e)) s es := by
  induction es generalizing s with
  | nil => rfl
  | cons e es ih => simp [Every, ih]

theorem every_append_iff {ok : σ → ε → Prop} {es es' : List ε} : ∀ {s : σ},
    Every step ok s (es ++ es') ↔
      Every step ok s es ∧ ∀ t, run step s es = some t → Every step ok t es' := by
  induction es with
  | nil => simp [Every]
  | cons e es ih =>
      intro s
      simp only [List.cons_append, Every, ih, run_cons_iff, Option.mem_def]
      constructor
      · rintro ⟨hok, h⟩
        exact ⟨⟨hok, fun s' hs => (h s' hs).1⟩, fun t ⟨s', hs, hr⟩ => (h s' hs).2 t hr⟩
      · rintro ⟨⟨hok, h⟩, h'⟩
        exact ⟨hok, fun s' hs => ⟨h s' hs, fun t hr => h' t ⟨s', hs, hr⟩⟩⟩

theorem Every.of_append {ok : σ → ε → Prop} {s : σ} {es es' : List ε}
    (h : Every step ok s (es ++ es')) : Every step ok s es :=
  (every_append_iff.mp h).1

theorem Every.last {ok : σ → ε → Prop} {s t : σ} {es : List ε} {e : ε}
    (h : Every step ok s (es ++ [e])) (hr : run step s es = some t) : ok t e :=
  ((every_append_iff.mp h).2 t hr).1

/-- **Guarded history rule.** As `run_history`, for runs whose steps all meet
a side condition. -/
theorem run_history_of_every {P : List ε → σ → Prop} {ok : σ → ε → Prop} {s₀ : σ}
    (h0 : P [] s₀)
    (hstep : ∀ es s e s', run step s₀ es = some s → P es s → ok s e →
      step s e = some s' → P (es ++ [e]) s') :
    ∀ {es s}, Every step ok s₀ es → run step s₀ es = some s → P es s := by
  intro es s hok hr
  have key : Every step ok s₀ es → P es s :=
    run_history (P := fun es s => Every step ok s₀ es → P es s) (fun _ => h0)
      (fun es s e s' hr hP he hev =>
        hstep es s e s' hr (hP hev.of_append) (hev.last hr) he) hr
  exact key hok

/-- **Exact guard.** If a step keeps `P` exactly when it meets `ok`, then `P`
holds all along a run exactly when every step of it meets `ok`. -/
theorem forall_prefix_iff_every {Inv P : σ → Prop} {ok : σ → ε → Prop}
    (hinv : ∀ s e s', Inv s → step s e = some s' → Inv s')
    (hstep : ∀ s e s', Inv s → P s → step s e = some s' → (P s' ↔ ok s e))
    {s t : σ} {es : List ε} (hs : Inv s) (hP : P s) (hr : run step s es = some t) :
    (∀ pre post u, es = pre ++ post → run step s pre = some u → P u) ↔
      Every step ok s es := by
  induction es generalizing s with
  | nil =>
      refine ⟨fun _ => trivial, fun _ pre post u heq hu => ?_⟩
      obtain ⟨rfl, -⟩ := List.append_eq_nil_iff.mp heq.symm
      cases hu
      exact hP
  | cons e es ih =>
      obtain ⟨s', hs', hr'⟩ := run_cons_iff.mp hr
      have hiff := hstep s e s' hs hP hs'
      constructor
      · intro hall
        have hP' : P s' := hall [e] es s' rfl (by simp [run_cons_iff, hs'])
        refine ⟨hiff.mp hP', fun s'' hs'' => ?_⟩
        obtain rfl : s' = s'' := Option.some.inj (hs'.symm.trans hs'')
        refine (ih (hinv s e s' hs hs') hP' hr').mp fun pre post u heq hu => ?_
        exact hall (e :: pre) post u (by simp [heq]) (run_cons_iff.mpr ⟨s', hs', hu⟩)
      · rintro ⟨hok, hevery⟩ pre post u heq hu
        have hP' : P s' := hiff.mpr hok
        cases pre with
        | nil =>
            cases hu
            exact hP
        | cons e' pre =>
            obtain ⟨rfl, rfl⟩ : e = e' ∧ es = pre ++ post := by simpa using heq
            obtain ⟨s'', hs'', hu'⟩ := run_cons_iff.mp hu
            obtain rfl : s' = s'' := Option.some.inj (hs'.symm.trans hs'')
            exact (ih (hinv s e s' hs hs') hP' hr').mpr (hevery s' hs') pre post u rfl hu'

/-- **Progress rule.** Where every state that is not done has a step that leaves
less work, some run gets done. -/
theorem exists_run_of_work {Work : σ → ℕ → Prop} {Done : σ → Prop} {ok : ε → Prop}
    (hstep : ∀ s n, Work s n → ¬ Done s →
      ∃ e s' m, ok e ∧ step s e = some s' ∧ m < n ∧ Work s' m) :
    ∀ {n s}, Work s n → ∃ es t, (∀ e ∈ es, ok e) ∧ run step s es = some t ∧ Done t := by
  intro n
  induction n using Nat.strong_induction_on with
  | _ n ih =>
      intro s hwork
      by_cases hdone : Done s
      · exact ⟨[], s, by simp, rfl, hdone⟩
      · obtain ⟨e, s', m, hok, hs, hlt, hwork'⟩ := hstep s n hwork hdone
        obtain ⟨es, t, hes, hrun, ht⟩ := ih m hlt hwork'
        refine ⟨e :: es, t, ?_, run_cons_iff.mpr ⟨s', hs, hrun⟩, ht⟩
        exact List.forall_mem_cons.mpr ⟨hok, hes⟩

/-- What the steps of a run report, in order. -/
def reports {α : Type*} (step : σ → ε → Option σ) (report : σ → ε → Option α) :
    σ → List ε → List α
  | _, [] => []
  | s, e :: es => (report s e).toList ++ ((step s e).map fun s' => reports step report s' es).getD []

theorem reports_snoc {α : Type*} {report : σ → ε → Option α} {s t : σ} {es : List ε} {e : ε}
    (h : run step s es = some t) :
    reports step report s (es ++ [e]) = reports step report s es ++ (report t e).toList := by
  induction es generalizing s with
  | nil =>
      obtain rfl : t = s := by simpa [eq_comm] using h
      cases hstep : step t e <;> simp [reports, hstep]
  | cons e' es ih =>
      obtain ⟨s', hs', hr⟩ := run_cons_iff.mp h
      simp [reports, hs', ih hr]

end Runs
