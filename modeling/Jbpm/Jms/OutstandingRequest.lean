/-
  Outstanding requests and their keys: the hand-written comparison of
  `OutstandingRequest.Key`, and where it is equality.
-/
import Jbpm.Java.Lang
import Jbpm.Lib.Hashtable

namespace Jbpm

/-- The fields of a request that are needed to reply. -/
structure OutstandingRequest where
  replyDestination : String
  correlationID : String
  deriving DecidableEq

namespace OutstandingRequest

structure Key where
  partnerLinkId : BitVec 64
  operationName : String
  messageExchange : Option String
  deriving DecidableEq

namespace Key

/-- `Key.equals`.  In the source `&&` binds tighter than `? :`, so the first
    two components only select the branch. -/
def equals (this that : Key) : Bool :=
  if this.partnerLinkId = that.partnerLinkId ∧ this.operationName = that.operationName ∧
      this.messageExchange ≠ none then
    this.messageExchange = that.messageExchange
  else that.messageExchange = none

def hashCode (k : Key) : BitVec 32 :=
  let prime := 23
  let result := 239
  let result := prime * result + Java.longHash k.partnerLinkId
  let result := prime * result + Java.stringHash k.operationName
  prime * result + (match k.messageExchange with
    | none => 0
    | some e => Java.stringHash e)

/-- The hashing of the table of outstanding requests. -/
def hashing : Lib.Hashing Key (BitVec 32) := ⟨hashCode, equals⟩

theorem equals_self (k : Key) : k.equals k = true := by
  unfold equals; split
  · simp
  · next h => simpa using h

/-- **Where `equals` is equality.**  It takes a key for another one exactly
    when the other one has no message exchange and differs in the partner link
    or in the operation. -/
theorem equals_iff_eq (k k' : Key) :
    (k.equals k' = true ↔ k = k') ↔
      (k'.messageExchange = none →
        k.partnerLinkId = k'.partnerLinkId ∧ k.operationName = k'.operationName) := by
  obtain ⟨p, o, e⟩ := k
  obtain ⟨p', o', e'⟩ := k'
  by_cases hp : p = p' <;> by_cases ho : o = o' <;> cases e <;> cases e' <;>
    simp [equals, hp, ho]

end Key

end OutstandingRequest

end Jbpm
