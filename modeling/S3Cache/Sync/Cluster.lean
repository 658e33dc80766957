import S3Cache.Lib.Machine
import S3Cache.Sync.Feed

/-! Nodes that write to their own index and feed, and fold one another's events in feed order,
each any number of times. -/

namespace S3Cache.Sync

open Index Fleet KeyIndexState Utf8

structure Node where
  feed : WriteFeed
  index : KeyIndexState
  received : String → Nat

abbrev Cluster := String → Node

def Node.start (me : String) (epoch : Nat) : Node where
  feed := { me, epoch }
  index := ({} : KeyIndexState).registerNativeWriter ⟨utf8 me, epoch, 0⟩
  received _ := 0

inductive Action where
  | put (node bucket key : String) (entry : ObjEntry)
  | del (node bucket key : String) (ts : SystemTime)
  | deliver (node peer : String) (seq : Nat)

instance (s : KeyIndexState) (bucket : String) (sweep : TombstoneSweep) :
    Decidable (s.Unswept bucket sweep) := inferInstanceAs (Decidable (_ → _ → _))

def Describes (entry : ObjEntry) : Prop :=
  (entry.etag.isSome ∨ entry.size.isSome) ∧ wireStamp entry.lastModified = entry.lastModified

instance (entry : ObjEntry) : Decidable (Describes entry) := inferInstanceAs (Decidable (_ ∧ _))

section
variable [Layout]

def Node.put (n : Node) (bucket key : String) (entry : ObjEntry) : Node :=
  let (_, feed, index) := indexPut n.feed n.index bucket key entry
  { n with feed, index }

def Node.del (n : Node) (bucket key : String) (ts : SystemTime) : Node :=
  let (feed, index) := indexDel n.feed n.index bucket key ts
  { n with feed, index }

variable [ETagParser] [EventCodec]

/-- One event off the wire; `none` where the bytes are not an event. -/
def Node.receive (n : Node) (peer : String) (token : WriteToken) (bytes : List UInt8) :
    Option Node := do
  let event ← decodeEvent bytes
  let (_, index) ← applyFeedIndex n.index peer token event
  return { n with
    index, received := Function.update n.received peer (max (n.received peer) token.seq) }

theorem received_of_receive {n n' : Node} {peer : String} {token : WriteToken} {bytes : List UInt8}
    (h : n.receive peer token bytes = some n') :
    n'.received = Function.update n.received peer (max (n.received peer) token.seq) := by
  obtain ⟨event, -, h⟩ := Option.bind_eq_some_iff.mp h
  obtain ⟨_, -, h⟩ := Option.bind_eq_some_iff.mp h
  cases h
  rfl

def step (c : Cluster) : Action → Option Cluster
  | .put node bucket key entry =>
    if Describes entry then some (Function.update c node ((c node).put bucket key entry)) else none
  | .del node bucket key ts =>
    if wireStamp ts = ts ∧ (c node).index.Unswept bucket .run then
      some (Function.update c node ((c node).del bucket key ts))
    else none
  | .deliver node peer seq => do
    if node = peer ∨ seq = 0 ∨ (c node).received peer + 1 < seq then none else
    let event ← (c peer).feed.log[seq - 1]?
    if ¬ (c node).index.Unswept event.bucket .run then none else
    let n ← (c node).receive peer ⟨(c peer).feed.epoch, seq⟩ (encodeEvent event)
    return Function.update c node n

end

namespace Cluster

def start (epoch : String → Nat) : Cluster := fun n => Node.start n (epoch n)

end Cluster

end S3Cache.Sync
