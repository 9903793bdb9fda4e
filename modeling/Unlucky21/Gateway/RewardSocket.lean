import Unlucky21.Lib.CText
import Unlucky21.Reward.Rounds

/-!
# Messages of the gateway

What the gateway's C client puts on the reward socket. A stratum username is
an address, optionally followed by a dot and a worker name.
-/

namespace Gateway

open Wire CText Reward

def REWARD_ADDR_LEN : ℕ := 91

def REWARD_MAX_OUTPUTS : ℕ := 30

def isAlphanumeric (c : Char) : Bool :=
  ('a' ≤ c && c ≤ 'z') || ('A' ≤ c && c ≤ 'Z') || ('0' ≤ c && c ≤ '9')

/-- Safe to put between quotes in a JSON line. -/
def isValidBtcAddress (addr : Text) : Bool :=
  addr.length ≠ 0 && addr.length < REWARD_ADDR_LEN && addr.all isAlphanumeric

/-- The part of a username in front of the first dot, cut to fit its buffer. -/
def usernameAddress (username : Text) : Text :=
  (username.takeWhile (· ≠ '.')).take (REWARD_ADDR_LEN - 1)

/-- `datum_reward_block_found`: the fields of the line it sends. The
transaction id and the fees are constants of the format string. -/
def datumRewardBlockFound (height : ℤ) (hashHex finderAddr : Text) : Option BlockFoundMsg :=
  if isValidBtcAddress (usernameAddress finderAddr) then
    some {
      height := height
      hash := hashHex
      finderAddress := usernameAddress finderAddr
      coinbaseTxid := []
      feesSats := 0 }
  else none

theorem feesSats_datumRewardBlockFound {height : ℤ} {hashHex finderAddr : Text}
    {msg : BlockFoundMsg} (h : datumRewardBlockFound height hashHex finderAddr = some msg) :
    msg.feesSats = 0 := by
  unfold datumRewardBlockFound at h
  split_ifs at h
  obtain rfl := Option.some.inj h
  rfl

end Gateway
