import Unlucky21.Gateway.RewardSocket
import Unlucky21.Lib.Runs

/-!
# Personal coinbases of one client

The patched `send_mining_notify` and the submit path keep two slots per client:
the personal coinb2 built last and the one before it. A slot remembers the
index of its job in the table of current jobs, and the table is reused
cyclically, so an index names one job after another. What a share is rebuilt
from depends on the slots at the time of the submit.

Jobs are numbered here in the order they are made; the number is not in the
code, which only has the index.
-/

namespace Stratum

open Wire Gateway Runs

/-! ## Jobs and slots -/

structure Job where
  serial : ℕ
  availableCoinbaseOutputsCount : ℕ
deriving DecidableEq, Repr

/-- Where the second half of a coinbase comes from: the job's own one for a
coinbase type, or one built for a client from a job. -/
inductive Coinb2
  | shared (serial cbselect : ℕ)
  | personal (serial : ℕ) (body : Bytes)
deriving DecidableEq, Repr

/-- A cached coinb2: built from job `source`, filed under `jobIndex`. -/
structure Slot where
  source : ℕ
  body : Bytes
  valid : Bool
  jobIndex : ℕ
deriving DecidableEq, Repr

def Slot.coinb2 (slot : Slot) : Coinb2 := .personal slot.source slot.body

def Slot.holds (slot : Slot) (index : ℕ) : Bool := slot.valid && slot.jobIndex = index

structure Miner where
  lastAuthUsername : Text
  personal : Slot
  prev : Slot
deriving DecidableEq, Repr

/-- A coinb2 sent as work: the job, the coinbase type in the job id, the coinb2. -/
structure Sent where
  serial : ℕ
  cbselect : ℕ
  coinb2 : Coinb2
deriving DecidableEq, Repr

/-- `jobs` and `sent` are newest first. -/
structure State where
  jobs : List Job
  miner : Miner
  sent : List Sent
deriving DecidableEq, Repr

def Miner.new : Miner := ⟨[], ⟨0, [], false, 0⟩, ⟨0, [], false, 0⟩⟩

def State.new : State := ⟨[], .new, []⟩

/-- The table has `N` entries. -/
def Job.globalIndex (N : ℕ) (j : Job) : ℕ := j.serial % N

/-- `global_cur_stratum_jobs[index]`: the newest job of that index. -/
def State.tableEntry (N : ℕ) (s : State) (index : ℕ) : Option Job :=
  s.jobs.find? fun j => j.globalIndex N = index

/-! ## Notify and submit -/

/-- `datum_generate_personal_coinb2` for the client's address; `reply` is what it
builds when the service answers. -/
def generatePersonalCoinb2 (m : Miner) (reply : Option Bytes) : Option Bytes :=
  if usernameAddress m.lastAuthUsername = [] then none else reply

/-- Not on a quickdiff before the first build, and not for the index held. -/
def Miner.needsRebuild (N : ℕ) (m : Miner) (j : Job) (quickdiff : Bool) : Bool :=
  (!quickdiff || m.personal.valid) &&
    (!m.personal.valid || m.personal.jobIndex ≠ j.globalIndex N)

/-- The rebuild inside the send path, with the save to the previous slot. -/
def Miner.rebuild (N : ℕ) (m : Miner) (j : Job) (quickdiff : Bool) (reply : Option Bytes) : Miner :=
  if m.needsRebuild N j quickdiff then
    { m with
      prev := if m.personal.valid then m.personal else m.prev
      personal :=
        match generatePersonalCoinb2 m reply with
        | some body => ⟨j.serial, body, true, j.globalIndex N⟩
        | none => { m.personal with valid := false, jobIndex := j.globalIndex N } }
  else m

/-- The client may get a personal coinb2 with this notify. -/
def personalPath (m : Miner) (j : Job) (newBlock : Bool) : Bool :=
  !newBlock && m.lastAuthUsername ≠ [] && 0 < j.availableCoinbaseOutputsCount

def sendMiningNotify (N : ℕ) (s : State) (j : Job) (quickdiff newBlock : Bool) (cbselect : ℕ)
    (reply : Option Bytes) : State :=
  -- a plain new-block notify sends the subsidy-only coinbase as empty work
  if newBlock && !quickdiff then s
  else if personalPath s.miner j newBlock then
    let m := s.miner.rebuild N j quickdiff reply
    let coinb2 := if m.personal.valid then m.personal.coinb2 else .shared j.serial cbselect
    { s with miner := m, sent := ⟨j.serial, cbselect, coinb2⟩ :: s.sent }
  else { s with sent := ⟨j.serial, cbselect, .shared j.serial cbselect⟩ :: s.sent }

/-- The coinb2 a share for `job` is rebuilt with, unless it is empty work. -/
def Miner.coinb2Use (N : ℕ) (m : Miner) (job : Job) (cbselect : ℕ) : Coinb2 :=
  if m.personal.holds (job.globalIndex N) then m.personal.coinb2
  else if m.prev.holds (job.globalIndex N) then m.prev.coinb2
  else .shared job.serial cbselect

def submitCoinb2 (N : ℕ) (s : State) (index cbselect : ℕ) : Option Coinb2 :=
  (s.tableEntry N index).map fun job => s.miner.coinb2Use N job cbselect

inductive Event
  | newJob (outputsCount : ℕ)
  | authorize (username : Text)
  | notify (quickdiff newBlock : Bool) (cbselect : ℕ) (reply : Option Bytes)
deriving DecidableEq, Repr

def State.step (N : ℕ) (s : State) : Event → Option State
  | .newJob outputsCount => some { s with jobs := ⟨s.jobs.length, outputsCount⟩ :: s.jobs }
  | .authorize username => some { s with miner := { s.miner with lastAuthUsername := username } }
  | .notify quickdiff newBlock cbselect reply =>
      s.jobs.head?.map fun j => sendMiningNotify N s j quickdiff newBlock cbselect reply

/-! ## What is asked of a run -/

def lastSent (s : State) (serial : ℕ) : Option Sent :=
  s.sent.find? fun x => x.serial = serial

/-- A share for the current or the previous job is rebuilt with the coinb2 sent
last for that job, and personal coinb2s were built from the job they went out
with. -/
structure Rebuilds (N : ℕ) (s : State) : Prop where
  submit : ∀ job ∈ s.jobs.take 2, ∀ x, lastSent s job.serial = some x →
    submitCoinb2 N s (job.globalIndex N) x.cbselect = some x.coinb2
  source : ∀ x ∈ s.sent, ∀ serial body, x.coinb2 = .personal serial body → serial = x.serial

/-- The notifies that keep it so. A personal coinb2 goes out again without a
rebuild only for a job the client has had work for. The shared one goes out while
no slot is filed under the job's index; when a rebuild fails, the slot that moves to
the previous place is of another job, so only the previous slot kept is looked at. -/
def notifyOk (N : ℕ) (s : State) : Event → Prop
  | .notify quickdiff newBlock _ reply =>
      ∀ j ∈ s.jobs.head?, !(newBlock && !quickdiff) →
        if personalPath s.miner j newBlock then
          if s.miner.personal.holds (j.globalIndex N) then s.sent.any fun x => x.serial = j.serial
          else !s.miner.personal.valid → (quickdiff ∨ generatePersonalCoinb2 s.miner reply = none) →
            !s.miner.prev.holds (j.globalIndex N)
        else !s.miner.personal.holds (j.globalIndex N) ∧ !s.miner.prev.holds (j.globalIndex N)
  | _ => True

/-! ## Numbering -/

def Numbered : List Job → Prop
  | [] => True
  | j :: rest => j.serial = rest.length ∧ Numbered rest

theorem globalIndex_ne_of_succ {N : ℕ} (hN : 2 ≤ N) {j p : Job} (h : j.serial = p.serial + 1) :
    j.globalIndex N ≠ p.globalIndex N := by
  intro heq
  have hmod : p.serial + 1 ≡ p.serial + 0 [MOD N] := by
    simpa [Job.globalIndex, h, Nat.ModEq] using heq
  have h10 : 1 ≡ 0 [MOD N] := Nat.ModEq.add_left_cancel' _ hmod
  have : 1 % N = 0 := by simpa [Nat.ModEq] using h10
  rw [Nat.mod_eq_of_lt (by omega)] at this
  exact one_ne_zero this

/-- Neither the current nor the previous job has been replaced in the table. -/
theorem tableEntry_of_take_two {N : ℕ} (hN : 2 ≤ N) {s : State} (hs : Numbered s.jobs) {job : Job}
    (hjob : job ∈ s.jobs.take 2) : s.tableEntry N (job.globalIndex N) = some job := by
  unfold State.tableEntry
  match hjobs : s.jobs with
  | [] => simp [hjobs] at hjob
  | [j] =>
      obtain rfl : job = j := by simpa [hjobs] using hjob
      simp
  | j :: p :: rest =>
      rw [hjobs] at hs hjob
      obtain ⟨hj, hp, -⟩ := hs
      have hne := globalIndex_ne_of_succ hN (j := j) (p := p) (by simp [hj, hp])
      rcases List.mem_cons.mp hjob with rfl | hmem
      · simp
      · obtain rfl : job = p := by simpa using hmem
        simp [hne]

/-! ## The slots -/

/-- What holds of the slots in every run: a valid slot is filed under the index
of the job it was built from; the previous slot is older than the personal one
and than the current job. -/
structure SlotInv (N : ℕ) (s : State) : Prop where
  numbered : Numbered s.jobs
  sent : ∀ x ∈ s.sent, x.serial < s.jobs.length
  personal : s.miner.personal.valid →
    s.miner.personal.jobIndex = s.miner.personal.source % N ∧
      s.miner.personal.source < s.jobs.length
  prev : s.miner.prev.valid →
    s.miner.prev.jobIndex = s.miner.prev.source % N ∧
      s.miner.prev.source + 1 < s.jobs.length
  order : s.miner.personal.valid → s.miner.prev.valid →
    s.miner.prev.source < s.miner.personal.source

theorem SlotInv.new (N : ℕ) : SlotInv N .new where
  numbered := trivial
  sent := by simp [State.new]
  personal := by simp [State.new, Miner.new]
  prev := by simp [State.new, Miner.new]
  order := by simp [State.new, Miner.new]

/-- Sending changes the log only by an entry for the current job. -/
theorem SlotInv.send {N : ℕ} {s : State} {j : Job} (hinv : SlotInv N s)
    (hj : s.jobs.head? = some j) (cbselect : ℕ) (coinb2 : Coinb2) :
    SlotInv N { s with sent := ⟨j.serial, cbselect, coinb2⟩ :: s.sent } where
  numbered := hinv.numbered
  sent := by
    obtain ⟨rest, hjobs⟩ := List.head?_eq_some_iff.mp hj
    have hnum := hinv.numbered
    rw [hjobs] at hnum
    intro x hx
    rcases List.mem_cons.mp hx with rfl | hx
    · simp [hjobs, hnum.1]
    · exact hinv.sent x hx
  personal := hinv.personal
  prev := hinv.prev
  order := hinv.order

theorem SlotInv.rebuild {N : ℕ} {s : State} {j : Job} (hinv : SlotInv N s)
    (hj : s.jobs.head? = some j) (quickdiff : Bool) (reply : Option Bytes) :
    SlotInv N { s with miner := s.miner.rebuild N j quickdiff reply } := by
  obtain ⟨rest, hjobs⟩ := List.head?_eq_some_iff.mp hj
  have hserial : j.serial + 1 = s.jobs.length := by
    have hnum := hinv.numbered
    rw [hjobs] at hnum
    simp [hjobs, hnum.1]
  cases hcond : s.miner.needsRebuild N j quickdiff with
  | false => simpa [Miner.rebuild, hcond] using hinv
  | true =>
      simp only [Miner.rebuild, hcond, if_true]
      -- a valid slot that is rebuilt is of an earlier job
      have hsaved : s.miner.personal.valid → s.miner.personal.source + 1 < s.jobs.length := by
        intro hv
        obtain ⟨hidx, hlt⟩ := hinv.personal hv
        have hne : s.miner.personal.source ≠ j.serial := by
          rintro heq
          simp [Miner.needsRebuild, hv, hidx, heq, Job.globalIndex] at hcond
        omega
      have hprev : ∀ slot : Slot, slot = (if s.miner.personal.valid then s.miner.personal
          else s.miner.prev) → slot.valid →
          slot.jobIndex = slot.source % N ∧ slot.source + 1 < s.jobs.length := by
        rintro slot rfl
        split_ifs with hv
        · exact fun _ => ⟨(hinv.personal hv).1, hsaved hv⟩
        · exact hinv.prev
      refine ⟨hinv.numbered, hinv.sent, ?_, hprev _ rfl, ?_⟩
      · cases generatePersonalCoinb2 s.miner reply with
        | none => simp
        | some body => exact fun _ => ⟨rfl, by simp only; omega⟩
      · cases generatePersonalCoinb2 s.miner reply with
        | none => simp
        | some body =>
            intro _ hv
            have := (hprev _ rfl hv).2
            simp only
            omega

theorem SlotInv.step {N : ℕ} {s s' : State} {e : Event} (hinv : SlotInv N s)
    (hs : s.step N e = some s') : SlotInv N s' := by
  cases e with
  | newJob outputsCount =>
      obtain rfl := Option.some.inj hs
      refine ⟨⟨rfl, hinv.numbered⟩, ?_, ?_, ?_, hinv.order⟩
      · exact fun x hx => Nat.lt_succ_of_lt (hinv.sent x hx)
      · exact fun hv => ⟨(hinv.personal hv).1, Nat.lt_succ_of_lt (hinv.personal hv).2⟩
      · exact fun hv => ⟨(hinv.prev hv).1, Nat.lt_succ_of_lt (hinv.prev hv).2⟩
  | authorize username =>
      obtain rfl := Option.some.inj hs
      exact ⟨hinv.numbered, hinv.sent, hinv.personal, hinv.prev, hinv.order⟩
  | notify quickdiff newBlock cbselect reply =>
      obtain ⟨j, hj, rfl⟩ := Option.map_eq_some_iff.mp hs
      unfold sendMiningNotify
      split_ifs with hempty hpath
      · exact hinv
      · exact (hinv.rebuild hj quickdiff reply).send hj _ _
      · exact hinv.send hj _ _

/-- A personal coinb2 went out when it was built. -/
def BuiltSent (s : State) : Prop :=
  s.miner.personal.valid → ∃ x ∈ s.sent, x.serial = s.miner.personal.source

theorem BuiltSent.new : BuiltSent .new := by simp [BuiltSent, State.new, Miner.new]

theorem BuiltSent.step {N : ℕ} {s s' : State} {e : Event} (hbuilt : BuiltSent s)
    (hs : s.step N e = some s') : BuiltSent s' := by
  cases e with
  | newJob outputsCount =>
      obtain rfl := Option.some.inj hs
      exact hbuilt
  | authorize username =>
      obtain rfl := Option.some.inj hs
      exact hbuilt
  | notify quickdiff newBlock cbselect reply =>
      obtain ⟨j, -, rfl⟩ := Option.map_eq_some_iff.mp hs
      have hlater : ∀ sent : Sent, s.miner.personal.valid →
          ∃ x ∈ sent :: s.sent, x.serial = s.miner.personal.source := by
        intro sent hv
        obtain ⟨x, hx, hsource⟩ := hbuilt hv
        exact ⟨x, List.mem_cons_of_mem _ hx, hsource⟩
      unfold sendMiningNotify
      split_ifs with hempty hpath
      · exact hbuilt
      · cases hneeds : s.miner.needsRebuild N j quickdiff with
        | false =>
            simp only [BuiltSent, Miner.rebuild, hneeds, Bool.false_eq_true, if_false]
            exact hlater _
        | true =>
            cases hgen : generatePersonalCoinb2 s.miner reply with
            | none => simp [BuiltSent, Miner.rebuild, hneeds, hgen]
            | some body => simp [BuiltSent, Miner.rebuild, hneeds, hgen]
      · exact hlater _

/-! ## One notify -/

theorem lastSent_mem {s : State} {serial : ℕ} {x : Sent} (h : lastSent s serial = some x) :
    x ∈ s.sent ∧ x.serial = serial :=
  ⟨List.mem_of_find?_eq_some h, by simpa using List.find?_some h⟩

/-- With the table lookups resolved, `Rebuilds` is about the slots alone. -/
theorem rebuilds_iff_coinb2Use {N : ℕ} (hN : 2 ≤ N) {s : State} (hs : Numbered s.jobs) :
    Rebuilds N s ↔
      (∀ job ∈ s.jobs.take 2, ∀ x, lastSent s job.serial = some x →
        s.miner.coinb2Use N job x.cbselect = x.coinb2) ∧
      ∀ x ∈ s.sent, ∀ serial body, x.coinb2 = .personal serial body → serial = x.serial := by
  have key : ∀ job ∈ s.jobs.take 2, ∀ t, submitCoinb2 N s (job.globalIndex N) t =
      some (s.miner.coinb2Use N job t) := by
    intro job hjob t
    simp [submitCoinb2, tableEntry_of_take_two hN hs hjob]
  constructor
  · intro h
    refine ⟨fun job hjob x hx => ?_, h.source⟩
    have := h.submit job hjob x hx
    rw [key job hjob] at this
    exact Option.some.inj this
  · rintro ⟨hsubmit, hsource⟩
    exact ⟨fun job hjob x hx => by rw [key job hjob, hsubmit job hjob x hx], hsource⟩

/-- After `coinb2` has gone out for the current job: the slots must give it
back for that job, what they give for the previous job must not have changed,
and `coinb2` must be the job's own. -/
theorem rebuilds_send_iff {N : ℕ} (hN : 2 ≤ N) {s : State} {j : Job} (hinv : SlotInv N s)
    (hj : s.jobs.head? = some j) (hR : Rebuilds N s) {m : Miner} {cbselect : ℕ} {coinb2 : Coinb2}
    (hprev : ∀ p ∈ s.jobs.tail.head?, ∀ x, lastSent s p.serial = some x →
      m.coinb2Use N p x.cbselect = x.coinb2) :
    Rebuilds N { s with miner := m, sent := ⟨j.serial, cbselect, coinb2⟩ :: s.sent } ↔
      m.coinb2Use N j cbselect = coinb2 ∧
        ∀ serial body, coinb2 = .personal serial body → serial = j.serial := by
  rw [rebuilds_iff_coinb2Use hN (by exact hinv.numbered)]
  obtain ⟨rest, hjobs⟩ := List.head?_eq_some_iff.mp hj
  constructor
  · rintro ⟨hsubmit, hsource⟩
    refine ⟨?_, fun serial body h => hsource _ List.mem_cons_self serial body h⟩
    exact hsubmit j (by simp [hjobs]) ⟨j.serial, cbselect, coinb2⟩ (by simp [lastSent])
  · rintro ⟨huse, hown⟩
    constructor
    · intro job hjob x hx
      rcases eq_or_ne job.serial j.serial with heq | hne
      · -- serials are distinct, so the sent coinb2 is the last one of the current job only
        have hjob' : job = j := by
          rcases rest with - | ⟨p, rest⟩
          · simpa [hjobs] using hjob
          · have hnum := hinv.numbered
            rw [hjobs] at hnum
            have hp : p.serial ≠ j.serial := by
              rw [hnum.1, hnum.2.1]
              simp
            have : job = j ∨ job = p := by simpa [hjobs] using hjob
            rcases this with rfl | rfl
            · rfl
            · exact absurd heq hp
        subst hjob'
        obtain rfl : (⟨job.serial, cbselect, coinb2⟩ : Sent) = x := by simpa [lastSent] using hx
        exact huse
      · have hp : job ∈ s.jobs.tail.head? := by
          rcases rest with - | ⟨p, rest⟩
          · have : job = j := by simpa [hjobs] using hjob
            exact absurd (this ▸ rfl) hne
          · have : job = j ∨ job = p := by simpa [hjobs] using hjob
            rcases this with rfl | rfl
            · exact absurd rfl hne
            · simp [hjobs]
        refine hprev job hp x ?_
        simpa [lastSent, Ne.symm hne] using hx
    · intro x hx
      rcases List.mem_cons.mp hx with rfl | hx
      · exact hown
      · exact hR.source x hx

theorem rebuild_personal_jobIndex {N : ℕ} {m : Miner} {j : Job} {quickdiff : Bool}
    (hneeds : m.needsRebuild N j quickdiff = true) (reply : Option Bytes) :
    (m.rebuild N j quickdiff reply).personal.jobIndex = j.globalIndex N := by
  simp only [Miner.rebuild, hneeds, if_true]
  cases generatePersonalCoinb2 m reply <;> rfl

theorem rebuild_prev {N : ℕ} {m : Miner} {j : Job} {quickdiff : Bool}
    (hneeds : m.needsRebuild N j quickdiff = true) (reply : Option Bytes) :
    (m.rebuild N j quickdiff reply).prev = if m.personal.valid then m.personal else m.prev := by
  simp only [Miner.rebuild, hneeds, if_true]

/-- A rebuild does not change what shares for the previous job get, as long as
that job's coinb2 was rebuilt rightly before. -/
theorem coinb2Use_rebuild_previous {N : ℕ} (hN : 2 ≤ N) {s : State} {j p : Job}
    (hinv : SlotInv N s) (hj : s.jobs.head? = some j) (hp : p ∈ s.jobs.tail.head?)
    (hR : Rebuilds N s) (quickdiff : Bool) (reply : Option Bytes) {x : Sent}
    (hx : lastSent s p.serial = some x) :
    (s.miner.rebuild N j quickdiff reply).coinb2Use N p x.cbselect = x.coinb2 := by
  obtain ⟨rest, hjobs⟩ := List.head?_eq_some_iff.mp hj
  obtain ⟨rest', rfl⟩ : ∃ rest', rest = p :: rest' := by
    simpa [hjobs, List.head?_eq_some_iff] using hp
  have hnum := hinv.numbered
  rw [hjobs] at hnum
  have hserial : j.serial = p.serial + 1 := by simp [hnum.1, hnum.2.1]
  have hlen : s.jobs.length = p.serial + 2 := by simp [hjobs, hnum.2.1]
  have hold := ((rebuilds_iff_coinb2Use hN hinv.numbered).mp hR).1 p (by simp [hjobs]) x hx
  cases hneeds : s.miner.needsRebuild N j quickdiff with
  | false => simpa [Miner.rebuild, hneeds] using hold
  | true =>
      have hpersonal : (s.miner.rebuild N j quickdiff reply).personal.holds
          (p.globalIndex N) = false := by
        simp [Slot.holds, rebuild_personal_jobIndex hneeds, globalIndex_ne_of_succ hN hserial]
      rw [Miner.coinb2Use, hpersonal, rebuild_prev hneeds]
      cases hv : s.miner.personal.valid with
      | false =>
          -- an invalid slot was not used before either
          simpa [Miner.coinb2Use, Slot.holds, hv] using hold
      | true =>
          by_cases hidx : s.miner.personal.jobIndex = p.globalIndex N
          · simpa [Miner.coinb2Use, Slot.holds, hv, hidx] using hold
          · have hp0 : ¬ s.miner.personal.holds (p.globalIndex N) := by simp [Slot.holds, hidx]
            rw [Miner.coinb2Use, if_neg hp0] at hold
            by_cases hq : s.miner.prev.holds (p.globalIndex N)
            · -- the previous slot would have to be of job `p`, but is older
              rw [if_pos hq] at hold
              have hcoinb2 : x.coinb2 = .personal s.miner.prev.source s.miner.prev.body := hold.symm
              have hsource : s.miner.prev.source = p.serial := by
                obtain ⟨hmem, hxp⟩ := lastSent_mem hx
                rw [← hxp]
                exact hR.source x hmem _ _ hcoinb2
              have hqv : s.miner.prev.valid := by
                simp only [Slot.holds, Bool.and_eq_true] at hq
                exact hq.1
              obtain ⟨hpi, hplt⟩ := hinv.personal hv
              have hnep : s.miner.personal.source ≠ p.serial := by
                intro heq
                exact hidx (by rw [hpi, heq]; rfl)
              have hnej : s.miner.personal.source ≠ j.serial := by
                intro heq
                simp [Miner.needsRebuild, hv, hpi, heq, Job.globalIndex] at hneeds
              have := hinv.order hv hqv
              omega
            · rw [if_neg hq] at hold
              simpa [Slot.holds, hidx] using hold

/-- The slots give the shared coinb2 back when none is filed under the job's index. -/
theorem coinb2Use_eq_shared_iff {N : ℕ} (m : Miner) (j : Job) (cbselect : ℕ) :
    m.coinb2Use N j cbselect = .shared j.serial cbselect ↔
      !m.personal.holds (j.globalIndex N) ∧ !m.prev.holds (j.globalIndex N) := by
  unfold Miner.coinb2Use
  split_ifs with h1 h2 <;> simp [h1, Slot.coinb2]
  · simpa using h2
  · simpa using h2

/-- The personal path: when the slots give back what is sent, and it is the job's own. -/
theorem rebuild_send_iff {N : ℕ} (m : Miner) (j : Job) (quickdiff : Bool) (cbselect : ℕ)
    (reply : Option Bytes) :
    let m' := m.rebuild N j quickdiff reply
    let coinb2 := if m'.personal.valid then m'.personal.coinb2 else .shared j.serial cbselect
    (m'.coinb2Use N j cbselect = coinb2 ∧
        ∀ serial body, coinb2 = .personal serial body → serial = j.serial) ↔
      if m.personal.holds (j.globalIndex N) then m.personal.source = j.serial
      else !m.personal.valid → (quickdiff ∨ generatePersonalCoinb2 m reply = none) →
        !m.prev.holds (j.globalIndex N) := by
  intro m' coinb2
  by_cases hholds : m.personal.holds (j.globalIndex N)
  · -- the cached coinb2 goes out again
    obtain ⟨hv, hidx⟩ : m.personal.valid = true ∧ m.personal.jobIndex = j.globalIndex N := by
      simpa [Slot.holds] using hholds
    have hm' : m' = m := by simp [m', Miner.rebuild, Miner.needsRebuild, hv, hidx]
    have hcoinb2 : coinb2 = m.personal.coinb2 := by simp [coinb2, hm', hv]
    rw [hcoinb2, hm', if_pos hholds]
    simp [Miner.coinb2Use, hholds, Slot.coinb2]
  · rw [if_neg hholds]
    cases hneeds : m.needsRebuild N j quickdiff with
    | false =>
        -- a quickdiff before the first build: the shared coinb2 goes out
        obtain ⟨hq, hv⟩ : quickdiff = true ∧ m.personal.valid = false := by
          cases hv : m.personal.valid <;> cases quickdiff <;>
            simp_all [Miner.needsRebuild, Slot.holds]
        have hm' : m' = m := by simp [m', Miner.rebuild, hneeds]
        have hcoinb2 : coinb2 = .shared j.serial cbselect := by simp [coinb2, hm', hv]
        rw [hcoinb2, hm', coinb2Use_eq_shared_iff]
        simp [hq, hv, hholds]
    | true =>
        have hidx : m'.personal.jobIndex = j.globalIndex N := rebuild_personal_jobIndex hneeds reply
        have hprev : m'.prev = if m.personal.valid then m.personal else m.prev :=
          rebuild_prev hneeds reply
        cases hgen : generatePersonalCoinb2 m reply with
        | some body =>
            have hslot : m'.personal = ⟨j.serial, body, true, j.globalIndex N⟩ := by
              simp [m', Miner.rebuild, hneeds, hgen]
            have hnot : m.personal.valid = false → quickdiff = false := by
              intro hv
              simpa [Miner.needsRebuild, hv] using hneeds
            have hcoinb2 : coinb2 = .personal j.serial body := by
              simp [coinb2, hslot, Slot.coinb2]
            rw [hcoinb2]
            simp only [Miner.coinb2Use, Slot.holds, hslot, Slot.coinb2]
            cases hv : m.personal.valid <;> simp_all
        | none =>
            have hinvalid : m'.personal.valid = false := by
              simp [m', Miner.rebuild, hneeds, hgen]
            have hcoinb2 : coinb2 = .shared j.serial cbselect := by simp [coinb2, hinvalid]
            rw [hcoinb2, coinb2Use_eq_shared_iff, hprev]
            cases hv : m.personal.valid
            · simp [Slot.holds, hinvalid]
            · simpa [Slot.holds, hinvalid, hv] using hholds

/-- A coinb2 that is used again was built from the job just if the client has had
work for it. -/
theorem source_eq_iff_sent {N : ℕ} (hN : 2 ≤ N) {s : State} {j : Job} (hinv : SlotInv N s)
    (hbuilt : BuiltSent s) (hj : s.jobs.head? = some j) (hR : Rebuilds N s)
    (hholds : s.miner.personal.holds (j.globalIndex N)) :
    s.miner.personal.source = j.serial ↔ s.sent.any fun x => x.serial = j.serial := by
  obtain ⟨hv, -⟩ : s.miner.personal.valid = true ∧ _ := by simpa [Slot.holds] using hholds
  constructor
  · intro hsource
    obtain ⟨x, hx, hserial⟩ := hbuilt hv
    exact List.any_eq_true.mpr ⟨x, hx, decide_eq_true (hserial.trans hsource)⟩
  · intro hany
    obtain ⟨x, hx⟩ := Option.isSome_iff_exists.mp (List.find?_isSome.mpr (List.any_eq_true.mp hany))
    obtain ⟨hmem, hserial⟩ := lastSent_mem hx
    obtain ⟨rest, hjobs⟩ := List.head?_eq_some_iff.mp hj
    have huse := ((rebuilds_iff_coinb2Use hN hinv.numbered).mp hR).1 j (by simp [hjobs]) x hx
    rw [Miner.coinb2Use, if_pos hholds] at huse
    exact (hR.source x hmem _ _ huse.symm).trans hserial

/-- **One step.** A step keeps the shares' coinb2 right exactly when it is an
acceptable notify, or no notify at all. -/
theorem rebuilds_step_iff {N : ℕ} (hN : 2 ≤ N) {s s' : State} {e : Event} (hinv : SlotInv N s)
    (hbuilt : BuiltSent s) (hR : Rebuilds N s) (hs : s.step N e = some s') :
    Rebuilds N s' ↔ notifyOk N s e := by
  have huse := (rebuilds_iff_coinb2Use hN hinv.numbered).mp hR
  cases e with
  | newJob outputsCount =>
      have hinv' := hinv.step hs
      obtain rfl := Option.some.inj hs
      refine iff_of_true ((rebuilds_iff_coinb2Use hN hinv'.numbered).mpr ⟨?_, huse.2⟩) trivial
      intro job hjob x hx
      rcases List.mem_cons.mp hjob with rfl | hjob
      · -- nothing has been sent for the new job
        obtain ⟨hmem, hxs⟩ := lastSent_mem hx
        have := hinv.sent x hmem
        simp only at hxs
        omega
      · exact huse.1 job (List.take_subset_take_left _ (by norm_num : 1 ≤ 2) hjob) x hx
  | authorize username =>
      have hinv' := hinv.step hs
      obtain rfl := Option.some.inj hs
      exact iff_of_true ((rebuilds_iff_coinb2Use hN hinv'.numbered).mpr huse) trivial
  | notify quickdiff newBlock cbselect reply =>
      obtain ⟨j, hj, rfl⟩ := Option.map_eq_some_iff.mp hs
      have hprev : ∀ p ∈ s.jobs.tail.head?, ∀ x, lastSent s p.serial = some x →
          s.miner.coinb2Use N p x.cbselect = x.coinb2 := by
        intro p hp x hx
        refine huse.1 p ?_ x hx
        obtain ⟨rest, hjobs⟩ := List.head?_eq_some_iff.mp hj
        rw [hjobs] at hp
        obtain ⟨rest', rfl⟩ := List.head?_eq_some_iff.mp hp
        simp [hjobs]
      unfold sendMiningNotify
      split_ifs with hempty hpath
      · -- empty work for a new block has the subsidy-only coinbase, which no slot holds
        simpa [notifyOk, hj, hempty] using hR
      · rw [rebuilds_send_iff hN hinv hj hR fun p hp x hx =>
          coinb2Use_rebuild_previous hN hinv hj hp hR quickdiff reply hx]
        simp only [notifyOk, hj, Option.mem_def, Option.some.injEq, forall_eq', hempty, hpath,
          Bool.not_false, if_true, true_implies]
        refine (rebuild_send_iff s.miner j quickdiff cbselect reply).trans ?_
        split_ifs with hholds
        · exact source_eq_iff_sent hN hinv hbuilt hj hR hholds
        · exact Iff.rfl
      · have hsend : Rebuilds N { s with
            miner := s.miner
            sent := ⟨j.serial, cbselect, .shared j.serial cbselect⟩ :: s.sent } ↔ _ :=
          rebuilds_send_iff hN hinv hj hR hprev
        refine hsend.trans ?_
        rw [coinb2Use_eq_shared_iff]
        simp [notifyOk, hj, hempty, hpath]

/-! ## Runs -/

theorem rebuilds_new (N : ℕ) : Rebuilds N .new where
  submit := by simp [State.new]
  source := by simp [State.new]

/-- **Shares are rebuilt from what was sent.** Along a run this holds in every
state exactly when every notify of the run is acceptable. -/
theorem rebuilds_always_iff_notifyOk {N : ℕ} (hN : 2 ≤ N) {es : List Event} {s : State}
    (hrun : run (State.step N) .new es = some s) :
    (∀ pre post t, es = pre ++ post → run (State.step N) .new pre = some t → Rebuilds N t) ↔
      Every (State.step N) (notifyOk N) .new es := by
  have hinv : ∀ s e s', SlotInv N s ∧ BuiltSent s → s.step N e = some s' →
      SlotInv N s' ∧ BuiltSent s' := fun s e s' h hs => ⟨h.1.step hs, h.2.step hs⟩
  exact forall_prefix_iff_every hinv
    (fun _ _ _ h hR hs => rebuilds_step_iff hN h.1 h.2 hR hs) ⟨.new N, .new⟩ (rebuilds_new N) hrun

instance decidableNotifyOk (N : ℕ) (s : State) : ∀ e, Decidable (notifyOk N s e)
  | .newJob _ => .isTrue trivial
  | .authorize _ => .isTrue trivial
  | .notify _ _ _ _ => inferInstanceAs (Decidable (∀ j ∈ s.jobs.head?, _ → _))

/-- Two jobs; each time the client gets its personal coinb2. -/
def personalEach : List Event :=
  [.authorize ['m'], .newJob 3, .notify false false 2 (some [1]),
    .newJob 3, .notify false false 2 (some [2]), .notify true false 2 none]

theorem rebuilds_personalEach :
    ∃ s, run (State.step 2) .new personalEach = some s ∧ Rebuilds 2 s := by
  obtain ⟨s, hs⟩ := Option.isSome_iff_exists.mp
    (show (run (State.step 2) .new personalEach).isSome by decide)
  have hall := (rebuilds_always_iff_notifyOk le_rfl hs).mpr (by decide)
  exact ⟨s, hs, hall personalEach [] s (List.append_nil _).symm hs⟩

/-- The index of the first job comes back with the third. The client is not
notified of the second job and keeps the slot of the first. -/
def indexReused : List Event :=
  [.authorize ['m'], .newJob 3, .notify false false 2 (some [1]),
    .newJob 3, .newJob 3, .notify false false 2 (some [3])]

/-- The third job goes out with the coinb2 built from the first. -/
theorem indexReused_sends_old_coinb2 :
    ∃ s, run (State.step 2) .new indexReused = some s ∧
      lastSent s 2 = some ⟨2, 2, .personal 0 [1]⟩ ∧ ¬ Rebuilds 2 s := by
  refine ⟨_, rfl, by decide, fun h => ?_⟩
  have := h.source ⟨2, 2, .personal 0 [1]⟩ (by decide) 0 [1] rfl
  simp at this

end Stratum
