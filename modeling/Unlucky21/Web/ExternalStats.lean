import Unlucky21.Lib.Json
import Unlucky21.Lib.SingleFlight

/-!
# Price and network figures

`getExternalStats` asks two services for figures the stats page shows, and the
page promises that they are cached for 60 seconds.
-/

namespace Web

open Wire SingleFlight

/-! ## external.ts -/

/-- What `Promise.allSettled` tells of a fetch, with the body where one can be
read. -/
inductive Settled
  | rejected
  | fulfilled (ok : Bool) (body : Option Text)
deriving DecidableEq, Repr

/-- The parsed body of a response that is fine; all that throws is caught. -/
def okJson : Settled → Option Json.Value
  | .fulfilled true (some body) => Json.parse body
  | _ => none

/-- `typeof d.key === 'number' ? d.key : null`, the number as it is written. Of
members with one name the last counts. -/
def numberField (key : Text) : Json.Value → Option Text
  | .object members =>
      match members.reverse.lookup key with
      | some (.number literal) => some literal
      | _ => none
  | _ => none

/-- `ExternalStats` without `fetchedAt`, which the cache entry has. -/
structure ExternalFigures where
  btcPriceUsd : Option Text
  networkHashrateHs : Option Text
  networkDifficulty : Option Text
deriving DecidableEq, Repr

def externalFigures (priceResult hashrateResult : Settled) : ExternalFigures :=
  { btcPriceUsd := (okJson priceResult).bind (numberField "USD".toList)
    networkHashrateHs := (okJson hashrateResult).bind (numberField "currentHashrate".toList)
    networkDifficulty := (okJson hashrateResult).bind (numberField "currentDifficulty".toList) }

/-- `TTL`, in milliseconds. -/
def externalTtl : ℤ := 60000

variable {κ : Type*}

/-- The process with its clock, its callers and its promises. -/
abbrev ExternalCache (κ : Type*) := State κ ExternalFigures

/-- What happens to it: the clock goes on, somebody calls, both fetches of a
`_fetchExternal` settle, its promise runs its callbacks. -/
inductive ExternalEvent (κ : Type*)
  | clock (now : ℤ)
  | getExternalStats (caller : κ)
  | fetchExternal (flight : ℕ) (priceResult hashrateResult : Settled)
  | callbacks (flight : ℕ)
deriving DecidableEq

def cacheEvent : ExternalEvent κ → Event κ ExternalFigures
  | .clock now => .clock now
  | .getExternalStats caller => .get caller
  | .fetchExternal flight priceResult hashrateResult =>
      .settle flight (externalFigures priceResult hashrateResult)
  | .callbacks flight => .resolve flight

def externalStep (s : ExternalCache κ) (e : ExternalEvent κ) : Option (ExternalCache κ) :=
  step externalTtl s (cacheEvent e)

/-- The callers of `getExternalStats`, in order. -/
def externalCallers (es : List (ExternalEvent κ)) : List κ :=
  es.filterMap fun e => (cacheEvent e).caller?

/-! ## Over every run -/

/-- The entry is what the services answered at some point of the run. -/
def AnsweredThen (now : ℤ) (es : List (ExternalEvent κ)) (e : Entry ExternalFigures) : Prop :=
  ∃ pre flight priceResult hashrateResult post u,
    es = pre ++ .fetchExternal flight priceResult hashrateResult :: post ∧
      Runs.run externalStep (init now) pre = some u ∧ u.now = e.fetchedAt ∧
        e.value = externalFigures priceResult hashrateResult

section Runs

variable {now : ℤ} {es : List (ExternalEvent κ)} {s : ExternalCache κ}

theorem run_cacheEvents (now : ℤ) (es : List (ExternalEvent κ)) :
    Runs.run (step externalTtl) (init now) (es.map cacheEvent) =
      Runs.run externalStep (init now) es :=
  Runs.run_map cacheEvent es (init now)

theorem answeredThen_of_fetched {e : Entry ExternalFigures}
    (h : Fetched externalTtl now (es.map cacheEvent) e) : AnsweredThen now es e := by
  obtain ⟨pre, flight, post, u, heq, hrun, hnow⟩ := h
  obtain ⟨pre', rest, rfl, rfl, hrest⟩ := List.map_eq_append_iff.mp heq
  obtain ⟨ev, post', rfl, hev, rfl⟩ := List.map_eq_cons_iff.mp hrest
  cases ev with
  | fetchExternal flight' priceResult hashrateResult =>
      obtain ⟨rfl, hvalue⟩ : flight' = flight ∧ externalFigures priceResult hashrateResult = e.value := by
        simpa [cacheEvent] using hev
      exact ⟨pre', flight', priceResult, hashrateResult, post', u, rfl,
        (run_cacheEvents now pre') ▸ hrun, hnow, hvalue.symm⟩
  | clock now' => cases hev
  | getExternalStats caller => cases hev
  | callbacks flight' => cases hev

/-- The fetch in flight ends with what the services say, and its callbacks run. -/
def Ends (priceResult hashrateResult : Settled) (es : List (ExternalEvent κ)) : Prop :=
  ∀ e ∈ es, (∃ flight, e = .fetchExternal flight priceResult hashrateResult) ∨
    ∃ flight, e = .callbacks flight

/-- When the fetch in flight ends, whatever it brings, nobody is left waiting. -/
theorem exists_all_answered (hrun : Runs.run externalStep (init now) es = some s)
    (priceResult hashrateResult : Settled) : ∃ es' t, Ends priceResult hashrateResult es' ∧
      Runs.run externalStep (init now) (es ++ es') = some t ∧ t.waiting = [] := by
  rw [← run_cacheEvents] at hrun
  obtain ⟨es', t, hends, ht, hwaiting⟩ :=
    exists_answered hrun (externalFigures priceResult hashrateResult)
  have hlift : ∀ ev ∈ es', ∃ e : ExternalEvent κ, cacheEvent e = ev ∧
      ((∃ flight, e = .fetchExternal flight priceResult hashrateResult) ∨
        ∃ flight, e = .callbacks flight) := fun ev hev => by
    rcases hends ev hev with ⟨id, rfl⟩ | ⟨id, rfl⟩
    · exact ⟨.fetchExternal id priceResult hashrateResult, rfl, .inl ⟨id, rfl⟩⟩
    · exact ⟨.callbacks id, rfl, .inr ⟨id, rfl⟩⟩
  obtain ⟨es'', hmap, hall⟩ : ∃ es'', es''.map cacheEvent = es' ∧
      Ends priceResult hashrateResult es'' := by
    clear ht hends
    induction es' with
    | nil => exact ⟨[], rfl, by simp [Ends]⟩
    | cons ev es' ih =>
        obtain ⟨⟨e, rfl, he⟩, hrest⟩ := List.forall_mem_cons.mp hlift
        obtain ⟨es'', rfl, hall⟩ := ih hrest
        exact ⟨e :: es'', rfl, List.forall_mem_cons.mpr ⟨he, hall⟩⟩
  refine ⟨es'', t, hall, ?_, hwaiting⟩
  rwa [← run_cacheEvents, List.map_append, hmap]

/-- Two callers share a fetch of which one half fails, a third is served from the
cache, and a minute later a fourth has to wait. -/
def fourCallers : List (ExternalEvent ℕ) := [
  .getExternalStats 1, .clock 40, .getExternalStats 2,
  .fetchExternal 0 (.fulfilled true (some "\x7b\"USD\":64000\x7d".toList)) .rejected, .callbacks 0,
  .clock 60039, .getExternalStats 3, .clock 60040, .getExternalStats 4]

theorem every_forward_fourCallers : Runs.Every externalStep (fun s e => Forward s (cacheEvent e))
    (init 0) fourCallers := by
  decide +kernel

/-- **The services are asked at most once a minute**, however many callers there
are: one fetch at a time, and in any `width` milliseconds no more than one start
and another for every 60 seconds. -/
theorem external_fetches (now : ℤ) (es : List (ExternalEvent κ)) (s : ExternalCache κ)
    (hrun : Runs.run externalStep (init now) es = some s)
    (hclock : Runs.Every externalStep (fun s e => Forward s (cacheEvent e)) (init now) es) :
    s.flights.length ≤ 1 ∧ ∀ since width : ℤ, 0 ≤ width →
      ((s.started.filter fun t => since ≤ t ∧ t ≤ since + width).length : ℤ) ≤
        1 + width / 60000 := by
  rw [← run_cacheEvents] at hrun
  have htimely := timely_of_run (by decide) ((Runs.every_map cacheEvent Forward es _).mpr hclock) hrun
  exact ⟨(phase_of_run hrun).flights_length_le, fun since width hwidth =>
    htimely.starts_le (by decide) since hwidth⟩

theorem external_fetches_fourCallers :
    ∃ s, Runs.run externalStep (init 0) fourCallers = some s ∧ s.started = [0, 60040] ∧
      ((s.started.filter fun t => 0 ≤ t ∧ t ≤ 0 + 60040).length : ℤ) ≤ 1 + 60040 / 60000 := by
  have hrun : (Runs.run externalStep (init 0) fourCallers).map State.started =
      some [0, 60040] := by decide +kernel
  obtain ⟨s, hs, hstarted⟩ := Option.map_eq_some_iff.mp hrun
  exact ⟨s, hs, hstarted,
    (external_fetches 0 _ s hs every_forward_fourCallers).2 0 60040 (by norm_num)⟩

end Runs

end Web
