import Unlucky21.Templates.Fetcher

/-!
# What the template thread publishes

One inversion lemma says what an answer of the node can do. From it: the last
job is on the block of the last template, miners are never moved to another
block without being told to drop their work, no call for urgent work is lost,
and a notification costs a bounded number of extra requests.
-/

namespace BlockTemplates

open Wire Runs

variable {hdr : Header} {naps : ℕ}

/-! ## What an answer can do -/

/-- What becomes of the template in slot `i`. -/
inductive Served (hdr : Header) (s : Fetcher) (i : ℕ) : Fetcher → Prop
  | urgent (h : (s.ring.slots i).previousblockhash ≠ s.p1 ∨ s.notifyOthercause = true) :
      Served hdr s i { s with
        phase := .urgent i (decide ((s.ring.slots i).previousblockhash ≠ s.p1)) }
  | normal (same : (s.ring.slots i).previousblockhash = s.p1) (calm : s.notifyOthercause = false)
      (told : s.wasNotified = false) :
      Served hdr s i { s.updateStratumJob i false .fullNormalWaitCoinbaser with phase := .served }
  | known (same : (s.ring.slots i).previousblockhash = s.p1) (calm : s.notifyOthercause = false) :
      Served hdr s i { s with wasNotified := false, wnc := 0, phase := .served }
  | old (same : (s.ring.slots i).previousblockhash = s.p1) (calm : s.notifyOthercause = false)
      (told : Bool) (h : told = true → s.wasNotified = true) :
      Served hdr s i { s with wasNotified := told, phase := .served }
  | forwarded (same : (s.ring.slots i).previousblockhash = s.p1)
      (calm : s.notifyOthercause = false) (told : Bool) :
      Served hdr s i ({ s with wasNotified := told, phase := .served }.fastForward hdr i)

theorem served_of_serve {s s' : Fetcher} {i now : ℕ} (h : s.serve hdr i now = some s') :
    Served hdr s i s' := by
  rw [Fetcher.serve] at h
  split_ifs at h with hurgent htold
  · obtain rfl := Option.some.inj h
    exact .urgent (by simpa using hurgent)
  · have hcalm : (s.ring.slots i).previousblockhash = s.p1 ∧ s.notifyOthercause = false := by
      simpa using hurgent
    rw [Fetcher.notified] at h
    split_ifs at h with hlock hknown
    · obtain rfl := Option.some.inj h
      exact .known hcalm.1 hcalm.2
    · obtain rfl := Option.some.inj h
      split_ifs
      · exact .forwarded hcalm.1 hcalm.2 _
      · exact .old hcalm.1 hcalm.2 _ fun h => (Bool.and_eq_true _ _ ▸ h).1
  · have hcalm : (s.ring.slots i).previousblockhash = s.p1 ∧ s.notifyOthercause = false := by
      simpa using hurgent
    obtain rfl := Option.some.inj h
    exact .normal hcalm.1 hcalm.2 (by simpa using htold)

/-- What an answer can do. -/
inductive Replied (hdr : Header) (s : Fetcher) (damage : Ring → Ring) :
    Option JsonT → Fetcher → Prop
  | failed (error : Option String) : Replied hdr s damage none { s with error := error }
  | refused (gbt : JsonT) (ring : Ring) (error : Option String)
      (none : ∀ result, objectGet gbt "result" = some result → s.ring.template hdr result = none) :
      Replied hdr s damage (some gbt) { s with ring := ring, error := error, phase := .served }
  | template (gbt result : JsonT) (i : ℕ) (s' : Fetcher)
      (result_eq : objectGet gbt "result" = some result)
      (template : s.ring.template hdr result = some i)
      (served : Served hdr { s with ring := s.ring.step hdr ⟨result, damage⟩, error := none } i s') :
      Replied hdr s damage (some gbt) s'

theorem replied_of_reply {s s' : Fetcher} {gbt : Option JsonT} {damage : Ring → Ring} {now : ℕ}
    (h : s.reply hdr gbt damage now = some s') : Replied hdr s damage gbt s' := by
  cases gbt with
  | none =>
      obtain rfl := Option.some.inj h
      exact .failed _
  | some gbt =>
      rw [Fetcher.reply] at h
      split at h
      · rename_i hresult
        obtain rfl := Option.some.inj h
        exact .refused gbt s.ring _ fun result hsome => by rw [hresult] at hsome; cases hsome
      · rename_i result hresult
        simp only at h
        split at h
        · rename_i htemplate
          obtain rfl := Option.some.inj h
          refine .refused gbt _ _ fun result' hsome => ?_
          obtain rfl := Option.some.inj (hresult.symm.trans hsome)
          exact htemplate
        · rename_i i htemplate
          exact .template gbt result i s' hresult htemplate (served_of_serve h)

/-! ## What a step can do -/

/-- The event is a notification of a new block. -/
def Event.notifies : Event → Bool
  | .sighandler | .notifynew .. => true
  | _ => false

inductive Moved (hdr : Header) (naps : ℕ) (s : Fetcher) : Event → Fetcher → Prop
  | told (e : Event) (h : e.notifies = true) (newNotify threadsafe : Bool) (blockhash : Text)
      (height : ℤ) (lockHeld : Bool) :
      Moved hdr naps s e { s with
        newNotify := newNotify
        newNotifyThreadsafe := threadsafe
        newNotifyBlockhash := blockhash
        newNotifyHeight := height
        lockHeld := lockHeld }
  | othercause : Moved hdr naps s .othercause { s with notifyOthercause := true }
  | replied (gbt : Option JsonT) (damage : Ring → Ring) (now : ℕ) (s' : Fetcher)
      (h : s.phase = .fetching) (replied : Replied hdr s damage gbt s') :
      Moved hdr naps s (.reply gbt damage now) s'
  | clear (i : ℕ) (newBlock : Bool) (h : s.phase = .urgent i newBlock) :
      Moved hdr naps s .clear { s with notifyOthercause := false, phase := .cleared i newBlock }
  | newBlock (i now : ℕ) (h : s.phase = .cleared i true) :
      Moved hdr naps s (.publishEmpty now) { s.updateStratumJob i true .emptyPlus with
        lastBlockChange := now
        p1 := (s.ring.slots i).previousblockhash
        wasNotified := false
        phase := .emptySent i }
  | sameBlock (i now : ℕ) (h : s.phase = .cleared i false) :
      Moved hdr naps s (.publishEmpty now)
        { s.updateStratumJob i true .emptyPlus with phase := .emptySent i }
  | publishFull (i : ℕ) (h : s.phase = .emptySent i) :
      Moved hdr naps s .publishFull
        { s.updateStratumJob i false .fullPriorityWaitCoinbaser with phase := .served }
  | nap (h : s.phase = .served) : Moved hdr naps s .rest { s with phase := .napping naps }
  | rest (h : s.phase = .served) (told : s.wasNotified = true) (none : s.pending = false) :
      Moved hdr naps s .rest { s with phase := .dozing }
  | slept (h : s.phase = .napping 0) : Moved hdr naps s .nap { s with phase := .fetching }
  | asleep (n : ℕ) (h : s.phase = .napping (n + 1)) :
      Moved hdr naps s .nap { s with phase := .napping n }
  | woken (n : ℕ) (h : s.phase = .napping (n + 1)) (pending : s.pending = true) :
      Moved hdr naps s .nap { s with
        newNotify := false
        newNotifyThreadsafe := false
        wasNotified := true
        wnc := 0
        phase := .fetching }
  | gaveUp (h : s.phase = .dozing) : Moved hdr naps s .doze { s with
      wasNotified := false
      wnc := 0
      phase := .fetching }
  | dozed (h : s.phase = .dozing) (few : s.wnc + 1 ≤ 16) :
      Moved hdr naps s .doze { s with wnc := s.wnc + 1, phase := .fetching }

theorem moved_of_step {s s' : Fetcher} {e : Event} (h : s.step hdr naps e = some s') :
    Moved hdr naps s e s' := by
  cases e with
  | sighandler =>
      obtain rfl := Option.some.inj h
      exact .told .sighandler rfl _ _ _ _ _
  | notifynew prevhash height =>
      simp only [Fetcher.step, Fetcher.notifynew] at h
      split at h
      · split_ifs at h
        · obtain rfl := Option.some.inj h
          exact .told (.notifynew _ height) rfl _ _ _ _ _
        · obtain rfl := Option.some.inj h
          exact .told (.notifynew _ height) rfl _ _ _ _ _
      · obtain rfl := Option.some.inj h
        exact .told (.notifynew prevhash height) rfl _ _ _ _ _
  | othercause =>
      obtain rfl := Option.some.inj h
      exact .othercause
  | reply gbt damage now =>
      rw [Fetcher.step] at h
      split_ifs at h with hphase
      exact .replied gbt damage now s' hphase (replied_of_reply h)
  | clear =>
      rw [Fetcher.step] at h
      split at h
      · rename_i i newBlock hphase
        obtain rfl := Option.some.inj h
        exact .clear i newBlock hphase
      · cases h
  | publishEmpty now =>
      rw [Fetcher.step] at h
      split at h
      · rename_i i newBlock hphase
        obtain rfl := Option.some.inj h
        cases newBlock with
        | true => exact .newBlock i now hphase
        | false => exact .sameBlock i now hphase
      · cases h
  | publishFull =>
      rw [Fetcher.step] at h
      split at h
      · rename_i i hphase
        obtain rfl := Option.some.inj h
        exact .publishFull i hphase
      · cases h
  | rest =>
      rw [Fetcher.step] at h
      split_ifs at h with hphase hnap
      · obtain rfl := Option.some.inj h
        exact .nap hphase
      · obtain rfl := Option.some.inj h
        have hrest : s.wasNotified = true ∧ s.pending = false := by simpa using hnap
        exact .rest hphase hrest.1 hrest.2
  | nap =>
      rw [Fetcher.step] at h
      split at h
      · rename_i hphase
        obtain rfl := Option.some.inj h
        exact .slept hphase
      · rename_i n hphase
        obtain rfl := Option.some.inj h
        split_ifs with hpending
        · exact .woken n hphase hpending
        · exact .asleep n hphase
      · cases h
  | doze =>
      rw [Fetcher.step] at h
      split_ifs at h with hphase hmany
      · obtain rfl := Option.some.inj h
        exact .gaveUp hphase
      · obtain rfl := Option.some.inj h
        exact .dozed hphase (Nat.le_of_not_lt hmany)

/-! ## Jobs and the tip -/

/-- The block the current job builds on. -/
def Fetcher.tip (s : Fetcher) : Text := (s.jobs.head?.map StratumUpdate.previousblockhash).getD []

/-- From one block to another miners are led by clean empty work. -/
def Follows (next job : StratumUpdate) : Prop :=
  next.previousblockhash ≠ job.previousblockhash → next.clean = true ∧ next.state = .emptyPlus

structure JobsInv (s : Fetcher) : Prop where
  tip : s.tip = s.p1
  follows : s.jobs.IsChain Follows
  urgent : ∀ i newBlock, s.phase = .urgent i newBlock ∨ s.phase = .cleared i newBlock →
    newBlock = decide ((s.ring.slots i).previousblockhash ≠ s.p1)
  empty : ∀ i, s.phase = .emptySent i → (s.ring.slots i).previousblockhash = s.p1

/-- No template is held. -/
def Phase.quiet : Phase → Bool
  | .fetching | .served | .napping _ | .dozing => true
  | _ => false

/-- Jobs stay what they are while no template is held. -/
theorem JobsInv.of_quiet {s s' : Fetcher} (h : JobsInv s) (hjobs : s'.jobs = s.jobs)
    (hp1 : s'.p1 = s.p1) (hphase : s'.phase.quiet = true) : JobsInv s' where
  tip := by rw [Fetcher.tip, hjobs, hp1, ← h.tip, Fetcher.tip]
  follows := hjobs ▸ h.follows
  urgent i newBlock hu := by
    rcases hu with hu | hu <;> simp [hu, Phase.quiet] at hphase
  empty i he := by simp [he, Phase.quiet] at hphase

/-- A flag does not touch jobs. -/
theorem JobsInv.of_flag {s s' : Fetcher} (h : JobsInv s) (hjobs : s'.jobs = s.jobs)
    (hp1 : s'.p1 = s.p1) (hring : s'.ring = s.ring) (hphase : s'.phase = s.phase) : JobsInv s' where
  tip := by rw [Fetcher.tip, hjobs, hp1, ← h.tip, Fetcher.tip]
  follows := hjobs ▸ h.follows
  urgent i newBlock hu := by
    rw [hp1, hring]
    rw [hphase] at hu
    exact h.urgent i newBlock hu
  empty i he := by
    rw [hp1, hring]
    rw [hphase] at he
    exact h.empty i he

theorem follows_cons {s : Fetcher} (h : JobsInv s) (job : StratumUpdate)
    (hjob : job.previousblockhash = s.p1 ∨ job.clean = true ∧ job.state = .emptyPlus) :
    (job :: s.jobs).IsChain Follows := by
  rw [List.isChain_cons]
  refine ⟨fun last hlast hne => ?_, h.follows⟩
  rcases hjob with hsame | hclean
  · have htip := h.tip
    rw [Fetcher.tip, hlast] at htip
    exact absurd (hsame.trans htip.symm) hne
  · exact hclean

/-- A job on the same block. -/
theorem JobsInv.publish {s s' : Fetcher} (h : JobsInv s) (job : StratumUpdate)
    (hjob : job.previousblockhash = s.p1) (hjobs : s'.jobs = job :: s.jobs) (hp1 : s'.p1 = s.p1)
    (hphase : s'.phase.quiet = true) : JobsInv s' where
  tip := by
    rw [Fetcher.tip, hjobs, hp1]
    exact hjob
  follows := hjobs ▸ follows_cons h _ (Or.inl hjob)
  urgent i newBlock hu := by
    rcases hu with hu | hu <;> simp [hu, Phase.quiet] at hphase
  empty i he := by simp [he, Phase.quiet] at hphase

theorem JobsInv.served {s s' : Fetcher} {i : ℕ} (h : JobsInv s) (hs : Served hdr s i s') :
    JobsInv s' := by
  cases hs with
  | urgent hurgent =>
      refine ⟨h.tip, h.follows, fun j newBlock hu => ?_, fun j he => by simp at he⟩
      simp only [Phase.urgent.injEq, reduceCtorEq, or_false] at hu
      obtain ⟨rfl, rfl⟩ := hu
      rfl
  | normal same calm told => exact h.publish _ same rfl rfl rfl
  | known same calm => exact h.of_quiet rfl rfl rfl
  | old same calm told _ => exact h.of_quiet rfl rfl rfl
  | forwarded same calm told =>
      refine h.publish ⟨i, _, true, .fullPriorityWaitCoinbaser⟩ ?_ rfl rfl rfl
      simpa using same

theorem JobsInv.step {s s' : Fetcher} {e : Event} (h : JobsInv s) (hs : s.step hdr naps e = some s') :
    JobsInv s' := by
  cases moved_of_step hs with
  | told => exact h.of_flag rfl rfl rfl rfl
  | othercause => exact h.of_flag rfl rfl rfl rfl
  | replied gbt damage now s' hphase replied =>
      cases replied with
      | failed error => exact h.of_flag rfl rfl rfl rfl
      | refused gbt ring error none => exact h.of_quiet rfl rfl rfl
      | template gbt result i _ result_eq template served =>
          have hring : JobsInv { s with ring := s.ring.step hdr ⟨result, damage⟩, error := none } :=
            h.of_quiet rfl rfl (by simp [hphase, Phase.quiet])
          exact hring.served served
  | clear i newBlock hphase =>
      refine ⟨h.tip, h.follows, fun j nb hu => ?_, fun j he => by simp at he⟩
      simp only [reduceCtorEq, Phase.cleared.injEq, false_or] at hu
      obtain ⟨rfl, rfl⟩ := hu
      exact h.urgent i newBlock (Or.inl hphase)
  | newBlock i now hphase =>
      refine ⟨rfl, follows_cons h _ (Or.inr ⟨rfl, rfl⟩), fun j nb hu => by simp at hu, fun j he => ?_⟩
      simp only [Phase.emptySent.injEq] at he
      rw [← he]
      rfl
  | sameBlock i now hphase =>
      have hsame : (s.ring.slots i).previousblockhash = s.p1 := by
        simpa using h.urgent i false (Or.inr hphase)
      refine ⟨hsame, follows_cons h _ (Or.inr ⟨rfl, rfl⟩), fun j nb hu => by simp at hu,
        fun j he => ?_⟩
      simp only [Phase.emptySent.injEq] at he
      rw [← he]
      exact hsame
  | publishFull i hphase => exact h.publish _ (h.empty i hphase) rfl rfl rfl
  | nap => exact h.of_quiet rfl rfl rfl
  | rest => exact h.of_quiet rfl rfl rfl
  | slept => exact h.of_quiet rfl rfl rfl
  | asleep => exact h.of_quiet rfl rfl rfl
  | woken => exact h.of_quiet rfl rfl rfl
  | gaveUp => exact h.of_quiet rfl rfl rfl
  | dozed => exact h.of_quiet rfl rfl rfl

theorem jobsInv_of_run {es : List Event} {s : Fetcher} (h : run (Fetcher.step hdr naps) {} es = some s) :
    JobsInv s :=
  run_invariant (P := JobsInv) (fun _ _ _ hi hs => hi.step hs)
    ⟨rfl, List.IsChain.nil, fun i nb hu => by simp at hu, fun i he => by simp at he⟩ h

/-! ## The tip the node shows -/

variable (hdr) in
/-- The previous block of the template that is read, if one is. -/
def Fetcher.seen (s : Fetcher) : Event → Option Text
  | .reply (some gbt) damage _ => do
      let result ← objectGet gbt "result"
      let i ← s.ring.template hdr result
      some ((s.ring.step hdr ⟨result, damage⟩).slots i).previousblockhash
  | _ => none

/-- While a template is held it is the last one, and else `p1` is its block. -/
def AtTip (tip : Text) (s : Fetcher) : Prop :=
  match s.phase with
  | .urgent i _ | .cleared i _ => (s.ring.slots i).previousblockhash = tip
  | _ => s.p1 = tip

theorem atTip_of_quiet {tip : Text} {s : Fetcher} (hphase : s.phase.quiet = true) :
    AtTip tip s ↔ s.p1 = tip := by
  unfold AtTip
  cases h : s.phase <;> simp_all [Phase.quiet]

theorem AtTip.served {s s' : Fetcher} {i : ℕ} (hs : Served hdr s i s') :
    AtTip (s.ring.slots i).previousblockhash s' := by
  cases hs with
  | urgent h => exact rfl
  | normal same calm told => exact same.symm
  | known same calm => exact same.symm
  | old same calm told _ => exact same.symm
  | forwarded same calm told => exact same.symm

/-- A step keeps the tip, or moves it to that of the template it read. -/
theorem AtTip.step {s s' : Fetcher} {e : Event} (hinv : JobsInv s)
    (hs : s.step hdr naps e = some s') :
    (∀ tip, s.seen hdr e = some tip → AtTip tip s') ∧
      (s.seen hdr e = none → ∀ tip, AtTip tip s → AtTip tip s') := by
  cases moved_of_step hs with
  | told e he =>
      cases e <;> simp_all [Event.notifies, Fetcher.seen, AtTip]
  | othercause => simp [Fetcher.seen, AtTip]
  | replied gbt damage now s' hphase replied =>
      have hquiet : s.phase.quiet = true := by rw [hphase]; rfl
      cases replied with
      | failed error => simp [Fetcher.seen, AtTip]
      | refused gbt ring error none =>
          refine ⟨fun tip hseen => ?_, fun _ tip htip => (atTip_of_quiet hquiet).mp htip⟩
          simp only [Fetcher.seen, Option.bind_eq_bind, Option.bind_eq_some_iff] at hseen
          obtain ⟨result, hresult, i, htemplate, _⟩ := hseen
          rw [none result hresult] at htemplate
          cases htemplate
      | template gbt result i _ result_eq template served =>
          have hseen : s.seen hdr (.reply (some gbt) damage now) =
              some ((s.ring.step hdr ⟨result, damage⟩).slots i).previousblockhash := by
            simp [Fetcher.seen, result_eq, template]
          rw [hseen]
          refine ⟨fun tip htip => ?_, fun hnone => by cases hnone⟩
          rw [← Option.some.inj htip]
          exact AtTip.served served
  | clear i newBlock hphase => simp [Fetcher.seen, AtTip, hphase]
  | newBlock i now hphase => simp [Fetcher.seen, AtTip, hphase]
  | sameBlock i now hphase =>
      have hsame : (s.ring.slots i).previousblockhash = s.p1 := by
        simpa using hinv.urgent i false (Or.inr hphase)
      have hp1 : (s.updateStratumJob i true .emptyPlus).p1 = s.p1 := rfl
      simp [Fetcher.seen, AtTip, hphase, hsame, hp1]
  | publishFull i hphase =>
      have hp1 : (s.updateStratumJob i false .fullPriorityWaitCoinbaser).p1 = s.p1 := rfl
      simp [Fetcher.seen, AtTip, hphase, hp1]
  | nap hphase => simp [Fetcher.seen, AtTip, hphase]
  | rest hphase => simp [Fetcher.seen, AtTip, hphase]
  | slept hphase => simp [Fetcher.seen, AtTip, hphase]
  | asleep n hphase => simp [Fetcher.seen, AtTip, hphase]
  | woken n hphase => simp [Fetcher.seen, AtTip, hphase]
  | gaveUp hphase => simp [Fetcher.seen, AtTip, hphase]
  | dozed hphase => simp [Fetcher.seen, AtTip, hphase]

theorem atTip_of_run {es : List Event} {s : Fetcher}
    (h : run (Fetcher.step hdr naps) {} es = some s) {tip : Text}
    (hseen : (reports (Fetcher.step hdr naps) (Fetcher.seen hdr) {} es).getLast? = some tip) :
    AtTip tip s := by
  revert tip
  refine run_history (P := fun es s => ∀ {tip},
    (reports (Fetcher.step hdr naps) (Fetcher.seen hdr) {} es).getLast? = some tip → AtTip tip s)
    (by simp [reports]) ?_ h
  intro es s e s' hrun hprev hstep tip hlast
  obtain ⟨hnew, hold⟩ := AtTip.step (jobsInv_of_run hrun) hstep
  rw [reports_snoc hrun] at hlast
  cases hseen : s.seen hdr e with
  | none =>
      rw [hseen, Option.toList_none, List.append_nil] at hlast
      exact hold hseen tip (hprev hlast)
  | some tip' =>
      rw [hseen, Option.toList_some, List.getLast?_concat] at hlast
      exact hnew tip (hseen.trans hlast)

/-- **Jobs follow the tip.** In every run, from one block to another miners are
led by clean empty work only, and except while a template is being turned into
urgent work the current job builds on the block of the last template read. -/
theorem jobs_follow_tip {es : List Event} {s : Fetcher}
    (h : run (Fetcher.step hdr naps) {} es = some s) :
    s.jobs.IsChain Follows ∧
      ∀ tip ≠ [], (reports (Fetcher.step hdr naps) (Fetcher.seen hdr) {} es).getLast? = some tip →
        (∃ i newBlock, s.phase = .urgent i newBlock ∨ s.phase = .cleared i newBlock) ∨
          ∃ job ∈ s.jobs.head?, job.previousblockhash = tip := by
  have hinv := jobsInv_of_run h
  refine ⟨hinv.follows, fun tip hne hseen => ?_⟩
  have hat := atTip_of_run h hseen
  by_cases hheld : ∃ i newBlock, s.phase = .urgent i newBlock ∨ s.phase = .cleared i newBlock
  · exact Or.inl hheld
  · right
    have hp1 : s.p1 = tip := by
      unfold AtTip at hat
      split at hat
      · exact absurd ⟨_, _, Or.inl ‹_›⟩ hheld
      · exact absurd ⟨_, _, Or.inr ‹_›⟩ hheld
      · exact hat
    have htip := hinv.tip
    rw [hp1, Fetcher.tip] at htip
    cases hjobs : s.jobs.head? with
    | none =>
        rw [hjobs] at htip
        exact absurd htip.symm hne
    | some job =>
        rw [hjobs] at htip
        exact ⟨job, rfl, htip⟩

/-- The node answers with the sample template. -/
def sampleReply : Event := .reply (some (.object [("result".toList, sampleAnswer)])) id 0

/-- A first template, a signal while napping, and a request out of turn. -/
def sampleRun : List Event :=
  [sampleReply, .clear, .publishEmpty 7, .publishFull, .rest, .sighandler, .nap, sampleReply, .rest,
    .doze]

theorem jobs_follow_tip_sample : ∃ s : Fetcher,
    run (Fetcher.step sampleHeader 4) {} sampleRun = some s ∧
      ∃ job ∈ s.jobs.head?, job.previousblockhash = "00ff".toList := by
  have hrun : (run (Fetcher.step sampleHeader 4) {} sampleRun).map Fetcher.phase =
      some .fetching := by decide +kernel
  obtain ⟨s, hs, hphase⟩ := Option.map_eq_some_iff.mp hrun
  have hseen : (reports (Fetcher.step sampleHeader 4) (Fetcher.seen sampleHeader) {}
      sampleRun).getLast? = some "00ff".toList := by decide +kernel
  refine ⟨s, hs, ((jobs_follow_tip hs).2 _ (by decide) hseen).resolve_left ?_⟩
  rintro ⟨i, newBlock, h | h⟩ <;> rw [hphase] at h <;> cases h

/-! ## Urgent work -/

/-- Urgent work that was asked for at `jobs` is still to be done, or was done first. -/
inductive Owed (jobs : List StratumUpdate) (seen : List Text) (s : Fetcher) : Prop where
  | asked (same : s.jobs = jobs) (flag : s.notifyOthercause = true) (quiet : s.phase.quiet = true)
      (none : seen = [])
  | held (i : ℕ) (newBlock : Bool) (same : s.jobs = jobs)
      (phase : s.phase = .urgent i newBlock ∨ s.phase = .cleared i newBlock)
  | done (later : List StratumUpdate) (job : StratumUpdate) (jobs_eq : s.jobs = later ++ job :: jobs)
      (clean : job.clean = true) (state : job.state = .emptyPlus)

/-- Jobs are only added. -/
theorem jobs_grow {s s' : Fetcher} {e : Event} (hs : s.step hdr naps e = some s') :
    ∃ new, s'.jobs = new ++ s.jobs := by
  cases moved_of_step hs with
  | replied gbt damage now s' hphase replied =>
      cases replied with
      | failed => exact ⟨[], rfl⟩
      | refused => exact ⟨[], rfl⟩
      | template gbt result i _ result_eq template served =>
          cases served with
          | urgent => exact ⟨[], rfl⟩
          | normal => exact ⟨[_], rfl⟩
          | known => exact ⟨[], rfl⟩
          | old => exact ⟨[], rfl⟩
          | forwarded => exact ⟨[_], rfl⟩
  | newBlock => exact ⟨[_], rfl⟩
  | sameBlock => exact ⟨[_], rfl⟩
  | publishFull => exact ⟨[_], rfl⟩
  | _ => exact ⟨[], rfl⟩

/-- While nothing is published and no template is read, the flag stays. -/
theorem Owed.asked_step {jobs : List StratumUpdate} {s s' : Fetcher} {e : Event}
    (hsame : s.jobs = jobs) (hflag : s.notifyOthercause = true) (hquiet : s.phase.quiet = true)
    (hs : s.step hdr naps e = some s') : Owed jobs (s.seen hdr e).toList s' := by
  cases moved_of_step hs with
  | told e he =>
      have hseen : s.seen hdr e = none := by cases e <;> simp_all [Event.notifies, Fetcher.seen]
      exact .asked hsame hflag hquiet (by rw [hseen]; rfl)
  | othercause => exact .asked hsame rfl hquiet rfl
  | replied gbt damage now s' hphase replied =>
      cases replied with
      | failed error => exact .asked hsame hflag hquiet rfl
      | refused gbt ring error none =>
          have hseen : s.seen hdr (.reply (some gbt) damage now) = .none := by
            simp only [Fetcher.seen, Option.bind_eq_bind, Option.bind_eq_none_iff]
            intro result hresult i htemplate
            rw [none result hresult] at htemplate
            cases htemplate
          exact .asked hsame hflag rfl (by rw [hseen]; rfl)
      | template gbt result i _ result_eq template served =>
          cases served with
          | urgent h => exact .held i _ hsame (Or.inl rfl)
          | normal same calm told => exact absurd (calm.symm.trans hflag) (by decide)
          | known same calm => exact absurd (calm.symm.trans hflag) (by decide)
          | old same calm told _ => exact absurd (calm.symm.trans hflag) (by decide)
          | forwarded same calm told => exact absurd (calm.symm.trans hflag) (by decide)
  | clear i newBlock hphase => simp [hphase, Phase.quiet] at hquiet
  | newBlock i now hphase => simp [hphase, Phase.quiet] at hquiet
  | sameBlock i now hphase => simp [hphase, Phase.quiet] at hquiet
  | publishFull i hphase => simp [hphase, Phase.quiet] at hquiet
  | nap => exact .asked hsame hflag rfl rfl
  | rest => exact .asked hsame hflag rfl rfl
  | slept => exact .asked hsame hflag rfl rfl
  | asleep => exact .asked hsame hflag rfl rfl
  | woken => exact .asked hsame hflag rfl rfl
  | gaveUp => exact .asked hsame hflag rfl rfl
  | dozed => exact .asked hsame hflag rfl rfl

/-- A template that is held becomes clean empty work. -/
theorem Owed.held_step {jobs : List StratumUpdate} {seen : List Text} {s s' : Fetcher} {e : Event}
    (hsame : s.jobs = jobs) {i : ℕ} {newBlock : Bool}
    (hphase : s.phase = .urgent i newBlock ∨ s.phase = .cleared i newBlock)
    (hs : s.step hdr naps e = some s') : Owed jobs seen s' := by
  have hpaid : ∀ {s' : Fetcher} (j : ℕ), s'.jobs =
      ⟨j, (s.ring.slots j).previousblockhash, true, .emptyPlus⟩ :: s.jobs → Owed jobs seen s' :=
    fun j hjobs => .done [] _ (by rw [hjobs, hsame, List.nil_append]) rfl rfl
  cases moved_of_step hs with
  | told e he => exact .held i newBlock hsame hphase
  | othercause => exact .held i newBlock hsame hphase
  | clear j nb h => exact .held j nb hsame (Or.inr rfl)
  | newBlock j now h => exact hpaid j rfl
  | sameBlock j now h => exact hpaid j rfl
  | replied gbt damage now s' h => rcases hphase with hp | hp <;> cases hp.symm.trans h
  | publishFull j h => rcases hphase with hp | hp <;> cases hp.symm.trans h
  | nap h => rcases hphase with hp | hp <;> cases hp.symm.trans h
  | rest h => rcases hphase with hp | hp <;> cases hp.symm.trans h
  | slept h => rcases hphase with hp | hp <;> cases hp.symm.trans h
  | asleep n h => rcases hphase with hp | hp <;> cases hp.symm.trans h
  | woken n h => rcases hphase with hp | hp <;> cases hp.symm.trans h
  | gaveUp h => rcases hphase with hp | hp <;> cases hp.symm.trans h
  | dozed h => rcases hphase with hp | hp <;> cases hp.symm.trans h

theorem Owed.step {jobs : List StratumUpdate} {seen : List Text} {s s' : Fetcher} {e : Event}
    (h : Owed jobs seen s) (hs : s.step hdr naps e = some s') :
    Owed jobs (seen ++ (s.seen hdr e).toList) s' := by
  cases h with
  | asked same flag quiet none =>
      rw [none, List.nil_append]
      exact Owed.asked_step same flag quiet hs
  | held i newBlock same phase => exact Owed.held_step same phase hs
  | done later job jobs_eq clean state =>
      obtain ⟨new, hnew⟩ := jobs_grow hs
      exact .done (new ++ later) job (by rw [hnew, jobs_eq, List.append_assoc]) clean state

/-- **Urgent work is never lost.** From whatever state it is asked for in, if a
template was read since and none is held, the first job published was clean
empty work. -/
theorem urgent_work_served {s s' : Fetcher} {es : List Event}
    (h : run (Fetcher.step hdr naps) s es = some s') (hflag : s.notifyOthercause = true)
    (hquiet : s.phase.quiet = true)
    (hseen : reports (Fetcher.step hdr naps) (Fetcher.seen hdr) s es ≠ [])
    (hquiet' : s'.phase.quiet = true ∨ ∃ i, s'.phase = .emptySent i) :
    ∃ later job, s'.jobs = later ++ job :: s.jobs ∧ job.clean = true ∧ job.state = .emptyPlus := by
  have howed : Owed s.jobs (reports (Fetcher.step hdr naps) (Fetcher.seen hdr) s es) s' := by
    refine run_history (P := fun es t =>
      Owed s.jobs (reports (Fetcher.step hdr naps) (Fetcher.seen hdr) s es) t)
      (.asked rfl hflag hquiet rfl) ?_ h
    intro es t e t' hrun howed hstep
    rw [reports_snoc hrun]
    exact howed.step hstep
  cases howed with
  | asked same flag quiet none => exact absurd none hseen
  | held i newBlock same phase =>
      rcases phase with phase | phase <;> simp [phase, Phase.quiet] at hquiet'
  | done later job jobs_eq clean state => exact ⟨later, job, jobs_eq, clean, state⟩

/-- Asked for while napping, and the node shows the block that is known. -/
theorem urgent_work_served_sample : ∃ s s' : Fetcher,
    run (Fetcher.step sampleHeader 4) {} [sampleReply, .clear, .publishEmpty 7, .publishFull, .rest,
      .othercause] = some s ∧
    run (Fetcher.step sampleHeader 4) s [.nap, .nap, .nap, .nap, .nap, sampleReply, .clear,
      .publishEmpty 9] = some s' ∧
    ∃ later job, s'.jobs = later ++ job :: s.jobs ∧ job.clean = true ∧ job.state = .emptyPlus := by
  have hfirst : ((run (Fetcher.step sampleHeader 4) {} [sampleReply, .clear, .publishEmpty 7,
      .publishFull, .rest, .othercause]).map fun s => (s.notifyOthercause, s.phase,
        (run (Fetcher.step sampleHeader 4) s [.nap, .nap, .nap, .nap, .nap, sampleReply, .clear,
          .publishEmpty 9]).map Fetcher.phase,
        reports (Fetcher.step sampleHeader 4) (Fetcher.seen sampleHeader) s [.nap, .nap, .nap,
          .nap, .nap, sampleReply, .clear, .publishEmpty 9])) =
      some (true, .napping 4, some (.emptySent 1), ["00ff".toList]) := by decide +kernel
  obtain ⟨s, hs, hstate⟩ := Option.map_eq_some_iff.mp hfirst
  simp only [Prod.mk.injEq] at hstate
  obtain ⟨hflag, hphase, hnext, hseen⟩ := hstate
  obtain ⟨s', hs', hphase'⟩ := Option.map_eq_some_iff.mp hnext
  exact ⟨s, s', hs, hs', urgent_work_served hs' hflag (by rw [hphase]; rfl)
    (by rw [hseen]; exact List.cons_ne_nil _ _) (Or.inr ⟨1, hphase'⟩)⟩

/-! ## Extra requests -/

def Event.dozes : Event → Bool
  | .doze => true
  | _ => false

/-- How often the loop may still doze. -/
def Fetcher.dozesLeft (s : Fetcher) : ℕ :=
  (if s.pending then 17 else 0) + (if s.wasNotified then 17 - s.wnc else 0)

/-- The loop only dozes while it was notified, and counts the dozes. -/
structure DozeInv (s : Fetcher) : Prop where
  wnc : s.wnc ≤ 16
  notified : s.phase = .dozing → s.wasNotified = true

theorem DozeInv.step {s s' : Fetcher} {e : Event} (h : DozeInv s)
    (hs : s.step hdr naps e = some s') : DozeInv s' := by
  cases moved_of_step hs with
  | told => exact ⟨h.wnc, h.notified⟩
  | othercause => exact ⟨h.wnc, h.notified⟩
  | replied gbt damage now s' hphase replied =>
      cases replied with
      | failed => exact ⟨h.wnc, h.notified⟩
      | refused => exact ⟨h.wnc, nofun⟩
      | template gbt result i _ result_eq template served =>
          cases served with
          | urgent => exact ⟨h.wnc, nofun⟩
          | normal => exact ⟨h.wnc, nofun⟩
          | known => exact ⟨Nat.zero_le _, nofun⟩
          | old => exact ⟨h.wnc, nofun⟩
          | forwarded => exact ⟨h.wnc, nofun⟩
  | clear => exact ⟨h.wnc, nofun⟩
  | newBlock => exact ⟨h.wnc, nofun⟩
  | sameBlock => exact ⟨h.wnc, nofun⟩
  | publishFull => exact ⟨h.wnc, nofun⟩
  | nap => exact ⟨h.wnc, nofun⟩
  | rest hphase told => exact ⟨h.wnc, fun _ => told⟩
  | slept => exact ⟨h.wnc, nofun⟩
  | asleep => exact ⟨h.wnc, nofun⟩
  | woken => exact ⟨Nat.zero_le _, nofun⟩
  | gaveUp => exact ⟨Nat.zero_le _, nofun⟩
  | dozed hphase few => exact ⟨few, nofun⟩

theorem dozesLeft_le {s s' : Fetcher} (hpending : s'.pending = s.pending)
    (htold : s'.wasNotified = true → s.wasNotified = true ∧ s.wnc ≤ s'.wnc) :
    s'.dozesLeft ≤ s.dozesLeft := by
  unfold Fetcher.dozesLeft
  rw [hpending]
  refine Nat.add_le_add_left ?_ _
  split_ifs with h' h
  · have hwnc := (htold h').2
    omega
  · exact absurd (htold h').1 h
  · exact Nat.zero_le _
  · exact le_rfl

/-- What a notification brings pays for the dozes. -/
theorem dozesLeft_step {s s' : Fetcher} {e : Event} (h : DozeInv s)
    (hs : s.step hdr naps e = some s') :
    s'.dozesLeft + (if e.dozes then 1 else 0) ≤ s.dozesLeft + (if e.notifies then 17 else 0) := by
  have hsame : s'.pending = s.pending → (s'.wasNotified = true → s.wasNotified = true ∧ s.wnc ≤ s'.wnc) →
      e.dozes = false → s'.dozesLeft + (if e.dozes then 1 else 0) ≤
        s.dozesLeft + (if e.notifies then 17 else 0) := by
    intro hpending htold hdoze
    have hle := dozesLeft_le hpending htold
    rw [hdoze, if_neg Bool.false_ne_true]
    exact hle.trans (Nat.le_add_right _ _)
  cases moved_of_step hs with
  | told e he newNotify threadsafe blockhash height lockHeld =>
      have hdoze : e.dozes = false := by cases e <;> simp_all [Event.notifies, Event.dozes]
      simp only [Fetcher.dozesLeft, he, hdoze, if_true, Bool.false_eq_true, if_false]
      split_ifs <;> omega
  | othercause => exact hsame rfl (fun h => ⟨h, le_rfl⟩) rfl
  | replied gbt damage now s' hphase replied =>
      cases replied with
      | failed => exact hsame rfl (fun h => ⟨h, le_rfl⟩) rfl
      | refused => exact hsame rfl (fun h => ⟨h, le_rfl⟩) rfl
      | template gbt result i _ result_eq template served =>
          cases served with
          | urgent => exact hsame rfl (fun h => ⟨h, le_rfl⟩) rfl
          | normal => exact hsame rfl (fun h => ⟨h, le_rfl⟩) rfl
          | known => exact hsame rfl nofun rfl
          | old same calm told h => exact hsame rfl (fun ht => ⟨h ht, le_rfl⟩) rfl
          | forwarded => exact hsame rfl nofun rfl
  | clear => exact hsame rfl (fun h => ⟨h, le_rfl⟩) rfl
  | newBlock => exact hsame rfl nofun rfl
  | sameBlock => exact hsame rfl (fun h => ⟨h, le_rfl⟩) rfl
  | publishFull => exact hsame rfl (fun h => ⟨h, le_rfl⟩) rfl
  | nap => exact hsame rfl (fun h => ⟨h, le_rfl⟩) rfl
  | rest => exact hsame rfl (fun h => ⟨h, le_rfl⟩) rfl
  | slept => exact hsame rfl (fun h => ⟨h, le_rfl⟩) rfl
  | asleep => exact hsame rfl (fun h => ⟨h, le_rfl⟩) rfl
  | woken n hphase pending =>
      have hleft : s.dozesLeft ≥ 17 := by
        rw [Fetcher.dozesLeft, if_pos pending]
        exact Nat.le_add_right _ _
      exact hleft
  | gaveUp hphase =>
      have hleft : s.dozesLeft = (if s.pending then 17 else 0) + (17 - s.wnc) := by
        rw [Fetcher.dozesLeft, if_pos (h.notified hphase)]
      have hwnc := h.wnc
      have hnew : ({ s with wasNotified := false, wnc := 0, phase := .fetching } : Fetcher).dozesLeft =
          (if s.pending then 17 else 0) := rfl
      rw [hnew, hleft]
      simp only [Event.dozes, Event.notifies, if_true, Bool.false_eq_true, if_false]
      omega
  | dozed hphase few =>
      have hleft : s.dozesLeft = (if s.pending then 17 else 0) + (17 - s.wnc) := by
        rw [Fetcher.dozesLeft, if_pos (h.notified hphase)]
      have hnew : ({ s with wnc := s.wnc + 1, phase := .fetching } : Fetcher).dozesLeft =
          (if s.pending then 17 else 0) + (17 - (s.wnc + 1)) := by
        rw [Fetcher.dozesLeft, if_pos (h.notified hphase)]
        rfl
      rw [hnew, hleft]
      simp only [Event.dozes, Event.notifies, if_true, Bool.false_eq_true, if_false]
      omega

/-- **Being notified costs little.** In every run the node is asked at most 17
times out of turn for each notification, also for those that turn out false. -/
theorem dozes_le {es : List Event} {s : Fetcher} (h : run (Fetcher.step hdr naps) {} es = some s) :
    es.countP Event.dozes ≤ 17 * es.countP Event.notifies := by
  have hinv : DozeInv s ∧ s.dozesLeft + es.countP Event.dozes ≤ 17 * es.countP Event.notifies := by
    refine run_history (P := fun es (s : Fetcher) => DozeInv s ∧
      s.dozesLeft + es.countP Event.dozes ≤ 17 * es.countP Event.notifies) ?_ ?_ h
    · exact ⟨⟨Nat.zero_le _, nofun⟩, le_rfl⟩
    · rintro es s e s' - ⟨hdoze, hle⟩ hstep
      have hcost := dozesLeft_step hdoze hstep
      rw [List.countP_append, List.countP_append, List.countP_singleton, List.countP_singleton]
      refine ⟨hdoze.step hstep, ?_⟩
      split_ifs at hcost ⊢ <;> omega
  omega

theorem dozes_le_sample : ∃ s : Fetcher, run (Fetcher.step sampleHeader 4) {} sampleRun = some s ∧
    sampleRun.countP Event.dozes = 1 ∧
    sampleRun.countP Event.dozes ≤ 17 * sampleRun.countP Event.notifies := by
  have hrun : (run (Fetcher.step sampleHeader 4) {} sampleRun).isSome = true := by decide +kernel
  obtain ⟨s, hs⟩ := Option.isSome_iff_exists.mp hrun
  exact ⟨s, hs, rfl, dozes_le hs⟩

end BlockTemplates
