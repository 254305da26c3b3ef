import Mathlib
import GrainStore.Model

/-!
# Change-data-capture

The committer publishes every applied write to the subscribers, in commit order.
-/

namespace GrainStore

/-- One committed change; a delete carries `op = 1` and an empty `val`. -/
structure CdcRecord where
  sid : U128
  pred : U32
  seq : U64
  op : FixedWidth.Byte
  val : Bytes
  deriving DecidableEq, Repr

/-- Whether the change is a logical delete. -/
def CdcRecord.isDelete (r : CdcRecord) : Bool := r.op = 1

/-- One end of a subscription: whether the receiver is still there, and what it was sent. -/
structure Subscriber where
  live : Bool
  received : List CdcRecord
  deriving DecidableEq, Repr

/-- Fan-out publisher held by the truth store and shared with the committer. -/
structure CdcPublisher where
  subs : List Subscriber
  deriving DecidableEq, Repr

namespace CdcPublisher

/-- A publisher without subscribers. -/
def new : CdcPublisher := ⟨[]⟩

/-- Register a subscriber. -/
def subscribe (p : CdcPublisher) : CdcPublisher := ⟨p.subs ++ [⟨true, []⟩]⟩

/-- Publish a record to all live subscribers; drops any that have hung up. -/
def publish (p : CdcPublisher) (r : CdcRecord) : CdcPublisher :=
  ⟨p.subs.filterMap fun s =>
    if s.live then some { s with received := s.received ++ [r] } else none⟩

/-- What the first subscriber was sent. -/
def received (p : CdcPublisher) : List CdcRecord :=
  (p.subs.head?.map Subscriber.received).getD []

end CdcPublisher

end GrainStore
