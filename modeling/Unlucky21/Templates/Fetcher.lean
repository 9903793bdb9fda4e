import Unlucky21.Lib.Runs
import Unlucky21.Templates.Ring

/-!
# The template thread

`datum_gateway_template_thread` asks the node for a template again and again
and publishes stratum jobs. Between two requests it waits, unless it was told
of a block that the node does not show yet: then it asks four times a second.
Other threads and a signal handler set flags at any time.
-/

namespace BlockTemplates

open Wire Runs

/-! ## The state -/

inductive JobState
  | emptyPlus | fullPriorityWaitCoinbaser | fullNormalWaitCoinbaser
deriving DecidableEq, Repr

/-- What `update_stratum_job` is called with. -/
structure StratumUpdate where
  slot : ℕ
  previousblockhash : Text
  /-- Miners have to drop the work they have. -/
  clean : Bool
  state : JobState
deriving DecidableEq, Repr

/-- Where the loop is; `i` is the slot of the template. -/
inductive Phase
  | fetching
  /-- New work is urgent, `notify_othercause` is still to be cleared. -/
  | urgent (i : ℕ) (newBlock : Bool)
  | cleared (i : ℕ) (newBlock : Bool)
  /-- Waiting for the empty work to be sent. -/
  | emptySent (i : ℕ)
  /-- In front of the wait. -/
  | served
  /-- So many naps of 2.5 ms left. -/
  | napping (left : ℕ)
  | dozing
deriving DecidableEq, Repr

structure Fetcher where
  ring : Ring := {}
  newNotify : Bool := false
  newNotifyThreadsafe : Bool := false
  notifyOthercause : Bool := false
  newNotifyBlockhash : Text := []
  newNotifyHeight : ℤ := 0
  /-- `new_notify_lock`, while no call is under way. -/
  lockHeld : Bool := false
  p1 : Text := []
  wasNotified : Bool := false
  wnc : ℕ := 0
  lastBlockChange : ℕ := 0
  phase : Phase := .fetching
  /-- `datum_blocktemplates_error` -/
  error : Option String := none
  /-- The latest one first. -/
  jobs : List StratumUpdate := []

inductive Event
  | sighandler
  | notifynew (prevhash : Option Text) (height : ℤ)
  | othercause
  /-- `getblocktemplate` is answered, or fails. -/
  | reply (gbt : Option JsonT) (damage : Ring → Ring) (now : ℕ)
  | clear
  | publishEmpty (now : ℕ)
  | publishFull
  | rest
  | nap
  | doze

/-! ## The steps -/

variable (hdr : Header) (naps : ℕ)

/-- A `char` above zero, where `char` is signed. -/
def positive (c : Char) : Bool := c ≠ CText.NUL && c.toNat < 128

/-- `datum_blocktemplates_notifynew`. The lock is taken for any text but only
given back for one that starts with a positive character. -/
def Fetcher.notifynew (s : Fetcher) (prevhash : Option Text) (height : ℤ) : Option Fetcher :=
  match prevhash.map CText.cstr with
  | some (c :: rest) =>
      if s.lockHeld then none
      else if positive c then
        some { s with
          newNotifyThreadsafe := true
          newNotifyBlockhash := (c :: rest).take 66
          newNotifyHeight := max s.newNotifyHeight height }
      else some { s with newNotifyThreadsafe := true, lockHeld := true }
  | _ => some { s with newNotifyThreadsafe := true }

/-- `update_stratum_job` with the template in slot `i`. -/
def Fetcher.updateStratumJob (s : Fetcher) (i : ℕ) (clean : Bool) (state : JobState) : Fetcher :=
  { s with jobs := ⟨i, (s.ring.slots i).previousblockhash, clean, state⟩ :: s.jobs }

/-- The notification was for a block that is no news. -/
def Fetcher.known (s : Fetcher) (t : TemplateData) : Bool :=
  s.newNotifyBlockhash.head?.any positive && t.previousblockhash = s.newNotifyBlockhash &&
    (s.newNotifyHeight ≤ 0 || s.newNotifyHeight = t.number .height)

/-- `current_time_millis() - 2500 < last_block_change`, without a sign. -/
def Fetcher.justChanged (s : Fetcher) (now : ℕ) : Bool :=
  (now + 2 ^ 64 - 2500) % 2 ^ 64 < s.lastBlockChange

def Fetcher.fastForwards (s : Fetcher) (t : TemplateData) : Bool :=
  (t.number .height < 800000 || 2980000 < t.number .height) &&
    s.newNotifyBlockhash.head? = some 'T'

/-- The testnet hack: difficulty 1 and a later time. -/
def Fetcher.fastForward (s : Fetcher) (i : ℕ) : Fetcher :=
  let t := s.ring.slots i
  let ahead := hdr.exceedsCurtime s.newNotifyHeight (t.number .curtime)
  let curtime := if ahead then s.newNotifyHeight else t.number .curtime + 1200
  let t := { t with
    bits := "1d00ffff".toList
    number := Function.update t.number .curtime (hdr.convert .curtime curtime) }
  let s := { s with
    ring := { s.ring with slots := Function.update s.ring.slots i t }
    newNotifyHeight := if ahead then -1 else s.newNotifyHeight }
  { s.updateStratumJob i true .fullPriorityWaitCoinbaser with
    newNotifyBlockhash := []
    wasNotified := false }

/-- Notified of a new block, and the template builds on the old one. -/
def Fetcher.notified (s : Fetcher) (i : ℕ) (now : ℕ) : Option Fetcher :=
  let t := s.ring.slots i
  if s.lockHeld then none
  else if s.known t then some { s with wasNotified := false, wnc := 0, phase := .served }
  else
    let s := { s with
      wasNotified := s.wasNotified && !s.justChanged now
      phase := .served }
    some (if s.fastForwards t then s.fastForward hdr i else s)

/-- A template was read into slot `i`. -/
def Fetcher.serve (s : Fetcher) (i : ℕ) (now : ℕ) : Option Fetcher :=
  let newBlock := decide ((s.ring.slots i).previousblockhash ≠ s.p1)
  if newBlock || s.notifyOthercause then some { s with phase := .urgent i newBlock }
  else if s.wasNotified then s.notified hdr i now
  else some { s.updateStratumJob i false .fullNormalWaitCoinbaser with phase := .served }

def Fetcher.reply (s : Fetcher) (gbt : Option JsonT) (damage : Ring → Ring) (now : ℕ) :
    Option Fetcher :=
  match gbt with
  -- after a second it tries again
  | none => some { s with error := some "Could not fetch new template!" }
  | some gbt =>
      match objectGet gbt "result" with
      | none => some { s with error := some "Could not decode GBT result!", phase := .served }
      | some result =>
          let ring := s.ring.step hdr ⟨result, damage⟩
          match s.ring.template hdr result with
          | none => some { s with ring := ring, phase := .served }
          | some i => { s with ring := ring, error := none }.serve hdr i now

/-- There is a notification that the loop has not seen. -/
def Fetcher.pending (s : Fetcher) : Bool := s.newNotify || s.newNotifyThreadsafe

def Fetcher.step (s : Fetcher) : Event → Option Fetcher
  | .sighandler => some { s with newNotify := true }
  | .notifynew prevhash height => s.notifynew prevhash height
  | .othercause => some { s with notifyOthercause := true }
  | .reply gbt damage now => if s.phase = .fetching then s.reply hdr gbt damage now else none
  | .clear =>
      match s.phase with
      | .urgent i newBlock => some { s with notifyOthercause := false, phase := .cleared i newBlock }
      | _ => none
  | .publishEmpty now =>
      match s.phase with
      | .cleared i newBlock =>
          let s := s.updateStratumJob i true .emptyPlus
          some (if newBlock then { s with
              lastBlockChange := now
              p1 := (s.ring.slots i).previousblockhash
              wasNotified := false
              phase := .emptySent i }
            else { s with phase := .emptySent i })
      | _ => none
  | .publishFull =>
      match s.phase with
      | .emptySent i =>
          some { s.updateStratumJob i false .fullPriorityWaitCoinbaser with phase := .served }
      | _ => none
  | .rest =>
      if s.phase = .served then
        some { s with phase := if !s.wasNotified || s.pending then .napping naps else .dozing }
      else none
  | .nap =>
      match s.phase with
      | .napping 0 => some { s with phase := .fetching }
      | .napping (n + 1) =>
          some (if s.pending then { s with
              newNotify := false
              newNotifyThreadsafe := false
              wasNotified := true
              wnc := 0
              phase := .fetching }
            else { s with phase := .napping n })
      | _ => none
  | .doze =>
      if s.phase = .dozing then
        some (if 16 < s.wnc + 1 then { s with wasNotified := false, wnc := 0, phase := .fetching }
          else { s with wnc := s.wnc + 1, phase := .fetching })
      else none

end BlockTemplates
