import Unlucky21.Lib.Runs

/-!
# A single-flight cache

An asynchronous getter in front of a slow source. A call takes the cached value
while it is younger than `ttl`, else joins the fetch in flight, else starts one.
Calls, the ends of fetches and the callbacks of their promises come in any
order; the callbacks of a promise run before the clock is read again.
-/

namespace SingleFlight

variable {κ α : Type*}

/-- A value and the time it was fetched at. -/
structure Entry (α : Type*) where
  value : α
  fetchedAt : ℤ
deriving DecidableEq

/-- A fetch in flight and, once it has ended, what its promise resolved to. -/
structure Flight (α : Type*) where
  id : ℕ
  result : Option (Entry α)
deriving DecidableEq

structure Waiter (κ : Type*) where
  caller : κ
  asked : ℤ
  flight : ℕ
deriving DecidableEq

structure Answer (κ α : Type*) where
  caller : κ
  asked : ℤ
  entry : Entry α
deriving DecidableEq

/-- `started` and `answers` are the history of the run. -/
structure State (κ α : Type*) where
  now : ℤ
  cache : Option (Entry α)
  inflight : Option ℕ
  flights : List (Flight α)
  waiting : List (Waiter κ)
  started : List ℤ
  answers : List (Answer κ α)
deriving DecidableEq

def init (now : ℤ) : State κ α := ⟨now, none, none, [], [], [], []⟩

inductive Event (κ α : Type*)
  | clock (now : ℤ)
  | get (caller : κ)
  | settle (flight : ℕ) (value : α)
  | resolve (flight : ℕ)
deriving DecidableEq

/-- The cached entry, if it is young enough. -/
def freshEntry (ttl : ℤ) (s : State κ α) : Option (Entry α) :=
  s.cache.filter fun e => s.now - e.fetchedAt < ttl

def await (s : State κ α) (caller : κ) (flight : ℕ) : State κ α :=
  { s with waiting := s.waiting ++ [⟨caller, s.now, flight⟩] }

def start (s : State κ α) : State κ α :=
  { s with
    inflight := some s.started.length
    flights := s.flights ++ [⟨s.started.length, none⟩]
    started := s.started ++ [s.now] }

def get (ttl : ℤ) (s : State κ α) (caller : κ) : State κ α :=
  match freshEntry ttl s with
  | some e => { s with answers := s.answers ++ [⟨caller, s.now, e⟩] }
  | none =>
      match s.inflight with
      | some flight => await s caller flight
      | none => await (start s) caller s.started.length

/-- The end of a fetch. -/
def settle (s : State κ α) (flight : ℕ) (value : α) : State κ α :=
  { s with
    cache := some ⟨value, s.now⟩
    flights := s.flights.map fun f =>
      if f.id = flight then { f with result := some ⟨value, s.now⟩ } else f }

/-- The callbacks of a promise: whatever is in flight is forgotten. -/
def resolve (s : State κ α) (flight : ℕ) (e : Entry α) : State κ α :=
  { s with
    inflight := none
    flights := s.flights.filter fun f => f.id ≠ flight
    waiting := s.waiting.filter fun w => w.flight ≠ flight
    answers := s.answers ++
      (s.waiting.filter fun w => w.flight = flight).map fun w => ⟨w.caller, w.asked, e⟩ }

def step (ttl : ℤ) (s : State κ α) : Event κ α → Option (State κ α)
  | .clock now => if ∀ f ∈ s.flights, f.result = none then some { s with now := now } else none
  | .get caller => some (get ttl s caller)
  | .settle flight value =>
      if s.flights.any fun f => f.id = flight ∧ f.result.isNone then some (settle s flight value)
      else none
  | .resolve flight =>
      ((s.flights.find? fun f => f.id = flight).bind Flight.result).map (resolve s flight)

/-! ## What a step does -/

/-- Nothing is in flight and nobody waits, or everybody waits for the one fetch. -/
inductive Phase (s : State κ α) : Prop
  | idle (hflights : s.flights = []) (hinflight : s.inflight = none) (hwaiting : s.waiting = [])
  | busy (f : Flight α) (hflights : s.flights = [f]) (hinflight : s.inflight = some f.id)
      (hwaiting : ∀ w ∈ s.waiting, w.flight = f.id)

theorem Phase.flights_length_le {s : State κ α} (h : Phase s) : s.flights.length ≤ 1 := by
  cases h with
  | idle hflights => simp [hflights]
  | busy f hflights => simp [hflights]

/-- What each event finds and leaves. -/
inductive Step (ttl : ℤ) (s : State κ α) : Event κ α → State κ α → Prop
  | clock (now : ℤ) (hquiet : ∀ f ∈ s.flights, f.result = none) :
      Step ttl s (.clock now) { s with now := now }
  | cached (caller : κ) (e : Entry α) (hcache : s.cache = some e)
      (hfresh : s.now - e.fetchedAt < ttl) :
      Step ttl s (.get caller) { s with answers := s.answers ++ [⟨caller, s.now, e⟩] }
  | joined (caller : κ) (f : Flight α) (hflights : s.flights = [f])
      (hstale : ∀ e ∈ s.cache, ttl ≤ s.now - e.fetchedAt) :
      Step ttl s (.get caller) (await s caller f.id)
  | started (caller : κ) (hflights : s.flights = []) (hwaiting : s.waiting = [])
      (hstale : ∀ e ∈ s.cache, ttl ≤ s.now - e.fetchedAt) :
      Step ttl s (.get caller)
        { s with
          inflight := some s.started.length
          flights := [⟨s.started.length, none⟩]
          waiting := [⟨caller, s.now, s.started.length⟩]
          started := s.started ++ [s.now] }
  | settled (id : ℕ) (value : α) (hflights : s.flights = [⟨id, none⟩]) :
      Step ttl s (.settle id value)
        { s with cache := some ⟨value, s.now⟩, flights := [⟨id, some ⟨value, s.now⟩⟩] }
  | resolved (id : ℕ) (e : Entry α) (hflights : s.flights = [⟨id, some e⟩]) :
      Step ttl s (.resolve id)
        { s with
          inflight := none
          flights := []
          waiting := []
          answers := s.answers ++ s.waiting.map fun w => ⟨w.caller, w.asked, e⟩ }

theorem freshEntry_eq_some {ttl : ℤ} {s : State κ α} {e : Entry α} :
    freshEntry ttl s = some e ↔ s.cache = some e ∧ s.now - e.fetchedAt < ttl := by
  simp [freshEntry, Option.filter_eq_some_iff]

theorem stale_of_freshEntry {ttl : ℤ} {s : State κ α} (h : freshEntry ttl s = none) :
    ∀ e ∈ s.cache, ttl ≤ s.now - e.fetchedAt := by
  intro e he
  by_contra hlt
  have : freshEntry ttl s = some e := freshEntry_eq_some.mpr ⟨he, not_le.mp hlt⟩
  rw [h] at this
  cases this

theorem step_cases {ttl : ℤ} {s s' : State κ α} {ev : Event κ α} (hphase : Phase s)
    (h : step ttl s ev = some s') : Step ttl s ev s' := by
  cases ev with
  | clock now =>
      simp only [step] at h
      split_ifs at h with hquiet
      cases h
      exact .clock now hquiet
  | get caller =>
      obtain rfl := Option.some.inj h
      rw [get]
      cases hfresh : freshEntry ttl s with
      | some e =>
          obtain ⟨hcache, hlt⟩ := freshEntry_eq_some.mp hfresh
          exact .cached caller e hcache hlt
      | none =>
          have hstale := stale_of_freshEntry hfresh
          cases hphase with
          | idle hflights hinflight hwaiting =>
              have hnext := Step.started caller hflights hwaiting hstale
              simpa [hinflight, start, await, hflights, hwaiting] using hnext
          | busy f hflights hinflight hwaiting =>
              simpa [hinflight] using Step.joined caller f hflights hstale
  | settle id value =>
      simp only [step] at h
      split_ifs at h with hany
      cases h
      cases hphase with
      | idle hflights => simp [hflights] at hany
      | busy f hflights =>
          obtain ⟨fid, result⟩ := f
          obtain ⟨rfl, rfl⟩ : fid = id ∧ result = none := by simpa [hflights] using hany
          simpa [settle, hflights] using Step.settled fid value hflights
  | resolve id =>
      simp only [step, Option.map_eq_some_iff, Option.bind_eq_some_iff] at h
      obtain ⟨e, ⟨f, hfind, he⟩, rfl⟩ := h
      cases hphase with
      | idle hflights => simp [hflights] at hfind
      | busy g hflights hinflight hwaiting =>
          obtain ⟨rfl, rfl⟩ : g.id = id ∧ g = f := by
            simpa [hflights, List.find?_cons_eq_some] using hfind
          obtain ⟨fid, result⟩ := g
          obtain rfl : result = some e := he
          have hall : s.waiting.filter (fun w => w.flight = fid) = s.waiting :=
            List.filter_eq_self.mpr fun w hw => by simpa using hwaiting w hw
          have hnone : s.waiting.filter (fun w => w.flight ≠ fid) = [] :=
            List.filter_eq_nil_iff.mpr fun w hw => by simpa using hwaiting w hw
          have hdone : Step ttl s (.resolve fid) _ := .resolved fid e hflights
          simpa only [resolve, hall, hnone, hflights, List.filter_cons, List.filter_nil, ne_eq,
            not_true_eq_false, decide_false, Bool.false_eq_true, if_false] using hdone

/-! ## One fetch at a time -/

theorem Phase.next {ttl : ℤ} {s s' : State κ α} {ev : Event κ α} (hphase : Phase s)
    (h : Step ttl s ev s') : Phase s' := by
  cases h with
  | clock now hquiet =>
      cases hphase with
      | idle hflights hinflight hwaiting => exact .idle hflights hinflight hwaiting
      | busy f hflights hinflight hwaiting => exact .busy f hflights hinflight hwaiting
  | cached caller e hcache hfresh =>
      cases hphase with
      | idle hflights hinflight hwaiting => exact .idle hflights hinflight hwaiting
      | busy f hflights hinflight hwaiting => exact .busy f hflights hinflight hwaiting
  | joined caller f hflights hstale =>
      cases hphase with
      | idle hnone => simp [hnone] at hflights
      | busy g hflights' hinflight hwaiting =>
          obtain rfl : g = f := by simpa [hflights'] using hflights
          refine .busy g hflights hinflight fun w hw => ?_
          rcases List.mem_append.mp hw with hw | hw
          · exact hwaiting w hw
          · rw [List.mem_singleton.mp hw]
  | started caller hflights hwaiting hstale =>
      exact .busy ⟨s.started.length, none⟩ rfl rfl (by simp)
  | settled id value hflights =>
      cases hphase with
      | idle hnone => simp [hnone] at hflights
      | busy f hflights' hinflight hwaiting =>
          obtain rfl : f = ⟨id, none⟩ := by simpa [hflights'] using hflights
          exact .busy ⟨id, some ⟨value, s.now⟩⟩ rfl hinflight hwaiting
  | resolved id e hflights => exact .idle rfl rfl rfl

theorem phase_init (now : ℤ) : Phase (init now : State κ α) := .idle rfl rfl rfl

theorem phase_of_run {ttl now : ℤ} {s : State κ α} {es : List (Event κ α)}
    (h : Runs.run (step ttl) (init now) es = some s) : Phase s :=
  Runs.run_invariant (fun _ _ _ hphase hs => hphase.next (step_cases hphase hs))
    (phase_init now) h

/-! ## Answers -/

def Event.caller? : Event κ α → Option κ
  | .get caller => some caller
  | _ => none

/-- `e` is what a fetch of the run ended with, and when. -/
def Fetched (ttl now : ℤ) (es : List (Event κ α)) (e : Entry α) : Prop :=
  ∃ pre id post u, es = pre ++ .settle id e.value :: post ∧
    Runs.run (step ttl) (init now) pre = some u ∧ u.now = e.fetchedAt

theorem Fetched.snoc {ttl now : ℤ} {es : List (Event κ α)} {e : Entry α}
    (h : Fetched ttl now es e) (ev : Event κ α) : Fetched ttl now (es ++ [ev]) e := by
  obtain ⟨pre, id, post, u, rfl, hrun, hnow⟩ := h
  exact ⟨pre, id, post ++ [ev], u, by simp, hrun, hnow⟩

/-- Where the entries of a state are from, and who was asked for them. -/
structure Served (ttl now : ℤ) (es : List (Event κ α)) (s : State κ α) : Prop where
  cache : ∀ e ∈ s.cache, Fetched ttl now es e
  flights : ∀ f ∈ s.flights, ∀ e ∈ f.result, Fetched ttl now es e
  answers : ∀ a ∈ s.answers, Fetched ttl now es a.entry
  callers : (es.filterMap Event.caller?).Perm
    (s.answers.map Answer.caller ++ s.waiting.map Waiter.caller)

theorem Served.next {ttl now : ℤ} {es : List (Event κ α)} {s s' : State κ α} {ev : Event κ α}
    (hrun : Runs.run (step ttl) (init now) es = some s) (hserved : Served ttl now es s)
    (h : Step ttl s ev s') : Served ttl now (es ++ [ev]) s' := by
  have hcache := fun e he => (hserved.cache e he).snoc ev
  have hflights' := fun f hf e he => (hserved.flights f hf e he).snoc ev
  have hanswers := fun a ha => (hserved.answers a ha).snoc ev
  have hcallers := hserved.callers
  cases h with
  | clock now hquiet =>
      exact ⟨hcache, hflights', hanswers, by simpa [List.filterMap_cons, Event.caller?] using hcallers⟩
  | cached caller e hentry hfresh =>
      refine ⟨hcache, hflights', fun a ha => ?_, ?_⟩
      · rcases List.mem_append.mp ha with ha | ha
        · exact hanswers a ha
        · rw [List.mem_singleton.mp ha]
          exact hcache e hentry
      · have hlast : (s.waiting.map Waiter.caller ++ [caller]).Perm
            ([caller] ++ s.waiting.map Waiter.caller) := List.perm_append_comm
        have hsnoc := (hcallers.append_right [caller]).trans
          (by simpa using hlast.append_left (s.answers.map Answer.caller))
        simpa [List.filterMap_cons, Event.caller?] using hsnoc
  | joined caller f hflights hstale =>
      refine ⟨hcache, hflights', hanswers, ?_⟩
      simpa [List.filterMap_cons, Event.caller?, await] using hcallers.append_right [caller]
  | started caller hflights hwaiting hstale =>
      refine ⟨hcache, by simp, hanswers, ?_⟩
      simpa [List.filterMap_cons, Event.caller?, hwaiting] using hcallers.append_right [caller]
  | settled id value hflights =>
      have hnew : Fetched ttl now (es ++ [.settle id value]) ⟨value, s.now⟩ :=
        ⟨es, id, [], s, rfl, hrun, rfl⟩
      refine ⟨by simpa using hnew, by simpa using hnew, hanswers, ?_⟩
      simpa [List.filterMap_cons, Event.caller?] using hcallers
  | resolved id e hflights =>
      have he := hflights' ⟨id, some e⟩ (by simp [hflights]) e rfl
      refine ⟨hcache, by simp, fun a ha => ?_, ?_⟩
      · rcases List.mem_append.mp ha with ha | ha
        · exact hanswers a ha
        · obtain ⟨w, -, rfl⟩ := List.mem_map.mp ha
          exact he
      · simpa [List.filterMap_cons, Event.caller?, Function.comp_def] using hcallers

/-- Every call is answered once or waits, and what it gets was fetched. -/
theorem served_of_run {ttl now : ℤ} {s : State κ α} {es : List (Event κ α)}
    (h : Runs.run (step ttl) (init now) es = some s) : Served ttl now es s := by
  refine Runs.run_history (P := fun es s => Served ttl now es s) ?_ ?_ h
  · exact ⟨by simp [init], by simp [init], by simp [init], by simp [init]⟩
  · intro es s ev s' hrun hserved hs
    exact hserved.next hrun (step_cases (phase_of_run hrun) hs)

/-- Once the fetch in flight ends, nobody is left waiting. -/
theorem exists_answered {ttl now : ℤ} {s : State κ α} {es : List (Event κ α)}
    (h : Runs.run (step ttl) (init now) es = some s) (value : α) :
    ∃ es' t, (∀ ev ∈ es', (∃ id, ev = .settle id value) ∨ ∃ id, ev = .resolve id) ∧
      Runs.run (step ttl) (init now) (es ++ es') = some t ∧ t.waiting = [] := by
  cases phase_of_run h with
  | idle hflights hinflight hwaiting => exact ⟨[], s, by simp, by simpa using h, hwaiting⟩
  | busy f hflights hinflight hwaiting =>
      have hleft : ∀ e, (resolve s f.id e).waiting = [] := fun e =>
        List.filter_eq_nil_iff.mpr fun w hw => by simpa using hwaiting w hw
      cases hresult : f.result with
      | some e =>
          refine ⟨[.resolve f.id], resolve s f.id e, by simp, ?_, hleft e⟩
          simp [Runs.run_snoc_iff, h, step, hflights, hresult]
      | none =>
          refine ⟨[.settle f.id value, .resolve f.id],
            resolve (settle s f.id value) f.id ⟨value, s.now⟩, by simp, ?_, hleft ⟨value, s.now⟩⟩
          simp [Runs.run_append_iff, Runs.run_cons_iff, h, step, hflights, hresult, settle]

/-! ## A clock that does not go back -/

/-- No clock event turns the clock back. -/
def Forward (s : State κ α) : Event κ α → Prop
  | .clock now => s.now ≤ now
  | _ => True

instance decidableForward (s : State κ α) : ∀ ev : Event κ α, Decidable (Forward s ev)
  | .clock now => inferInstanceAs (Decidable (s.now ≤ now))
  | .get _ | .settle _ _ | .resolve _ => .isTrue trivial

/-- Times are in order: a settled promise holds the cached entry of this
moment, answers are young, and fetches start `ttl` apart. -/
structure Timely (ttl : ℤ) (s : State κ α) : Prop where
  cache : ∀ e ∈ s.cache, e.fetchedAt ≤ s.now
  waiting : ∀ w ∈ s.waiting, w.asked ≤ s.now
  settled : ∀ f ∈ s.flights, ∀ e ∈ f.result, s.cache = some e ∧ e.fetchedAt = s.now
  answers : ∀ a ∈ s.answers, a.asked - a.entry.fetchedAt < ttl
  started : ∀ t ∈ s.started, t ≤ s.now
  ended : s.flights = [] → ∀ t ∈ s.started, ∃ e ∈ s.cache, t ≤ e.fetchedAt
  spaced : s.started.Pairwise fun t t' => t + ttl ≤ t'

theorem timely_init (ttl now : ℤ) : Timely ttl (init now : State κ α) where
  cache := by simp [init]
  waiting := by simp [init]
  settled := by simp [init]
  answers := by simp [init]
  started := by simp [init]
  ended := by simp [init]
  spaced := by simp [init]

theorem Timely.next {ttl : ℤ} (httl : 0 < ttl) {s s' : State κ α} {ev : Event κ α}
    (htimely : Timely ttl s) (hforward : Forward s ev) (h : Step ttl s ev s') :
    Timely ttl s' := by
  cases h with
  | clock now hquiet =>
      exact { htimely with
        cache := fun e he => (htimely.cache e he).trans hforward
        waiting := fun w hw => (htimely.waiting w hw).trans hforward
        settled := fun f hf e he => by simp [hquiet f hf] at he
        started := fun t ht => (htimely.started t ht).trans hforward }
  | cached caller e hcache hfresh =>
      refine { htimely with answers := fun a ha => ?_ }
      rcases List.mem_append.mp ha with ha | ha
      · exact htimely.answers a ha
      · rwa [List.mem_singleton.mp ha]
  | joined caller f hflights hstale =>
      refine { htimely with waiting := fun w hw => ?_ }
      rcases List.mem_append.mp hw with hw | hw
      · exact htimely.waiting w hw
      · rw [List.mem_singleton.mp hw]
        exact le_rfl
  | started caller hflights hwaiting hstale =>
      exact { htimely with
        waiting := by simp
        settled := by simp
        started := fun t ht => by
          rcases List.mem_append.mp ht with ht | ht
          · exact htimely.started t ht
          · rw [List.mem_singleton.mp ht]
        ended := fun hnone => by simp at hnone
        spaced := by
          refine List.pairwise_append.mpr ⟨htimely.spaced, List.pairwise_singleton _ _, ?_⟩
          intro t ht t' ht'
          obtain ⟨e, he, hle⟩ := htimely.ended hflights t ht
          have := hstale e he
          rw [List.mem_singleton.mp ht']
          omega }
  | settled id value hflights =>
      exact { htimely with
        cache := by simp
        settled := by simp
        ended := by simp }
  | resolved id e hflights =>
      obtain ⟨hcache, hnow⟩ := htimely.settled ⟨id, some e⟩ (by simp [hflights]) e rfl
      exact { htimely with
        waiting := by simp
        settled := by simp
        answers := fun a ha => by
          rcases List.mem_append.mp ha with ha | ha
          · exact htimely.answers a ha
          · obtain ⟨w, hw, rfl⟩ := List.mem_map.mp ha
            have := htimely.waiting w hw
            simp only
            omega
        ended := fun _ t ht => ⟨e, hcache, by
          have := htimely.started t ht
          omega⟩ }

theorem timely_of_run {ttl now : ℤ} (httl : 0 < ttl) {s : State κ α} {es : List (Event κ α)}
    (hforward : Runs.Every (step ttl) Forward (init now) es)
    (h : Runs.run (step ttl) (init now) es = some s) : Timely ttl s :=
  Runs.run_history_of_every (P := fun _ s => Timely ttl s) (timely_init ttl now)
    (fun _ _ _ _ hrun htimely hok hs =>
      htimely.next httl hok (step_cases (phase_of_run hrun) hs)) hforward h

/-! ## Counting -/

/-- Of numbers `gap` apart, few lie in a window. -/
theorem length_le_of_spaced {gap width : ℤ} : ∀ {ts : List ℤ},
    ts.Pairwise (fun t t' => t + gap ≤ t') → (∀ t ∈ ts, ∀ t' ∈ ts, t' ≤ t + width) →
      ts ≠ [] → (ts.length - 1) * gap ≤ width
  | [t], _, hwindow, _ => by
      have := hwindow t (by simp) t (by simp)
      simp
      omega
  | t :: t' :: ts, hspaced, hwindow, _ => by
      obtain ⟨hhead, htail⟩ := List.pairwise_cons.mp hspaced
      have := hhead t' (by simp)
      have hrest := @length_le_of_spaced gap (width - gap) _ htail
        (fun u hu v hv => by
          have hu' := hhead u hu
          have hv' := hwindow t (by simp) v (List.mem_cons_of_mem t hv)
          omega) (by simp)
      push_cast [List.length_cons] at hrest ⊢
      nlinarith

/-- Any window of `width` sees at most one start more than `width / ttl`. -/
theorem Timely.starts_le {ttl : ℤ} (httl : 0 < ttl) {s : State κ α} (h : Timely ttl s)
    (since : ℤ) {width : ℤ} (hwidth : 0 ≤ width) :
    ((s.started.filter fun t => since ≤ t ∧ t ≤ since + width).length : ℤ) ≤
      1 + width / ttl := by
  have hspaced := h.spaced.filter fun t => since ≤ t ∧ t ≤ since + width
  have hwindow : ∀ t ∈ s.started.filter fun t => since ≤ t ∧ t ≤ since + width,
      since ≤ t ∧ t ≤ since + width := fun t ht => of_decide_eq_true (List.mem_filter.mp ht).2
  generalize s.started.filter (fun t => since ≤ t ∧ t ≤ since + width) = ts at *
  rcases eq_or_ne ts [] with rfl | hsome
  · have := Int.ediv_nonneg hwidth httl.le
    simp only [List.length_nil, Nat.cast_zero]
    omega
  · have hlen := @length_le_of_spaced ttl width ts hspaced (fun t ht t' ht' => by
      have := hwindow t ht
      have := hwindow t' ht'
      omega) hsome
    have := (Int.le_ediv_iff_mul_le httl).mpr hlen
    omega

end SingleFlight
