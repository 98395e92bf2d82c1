import Mathlib.Data.List.Basic

/-!
# The change feed of a collection

A ring of the newest committed changes, and the subscribers that read it from positions of their
own. The floor is the lowest position from which the ring still has everything. It rises when the
ring evicts, when a gap is noted, and when a subscriber wakes a feed that nobody watched.
-/
namespace DewDB.Changefeed

inductive ChangeOp where
  | insert
  | update
  | delete
  | drop
  deriving DecidableEq

structure ChangeEvent (V : Type) where
  lsn : ℕ
  op : ChangeOp
  key : String
  value : Option V
  deriving DecidableEq

/-- A committed change, with what reading the frame of a write gives. -/
inductive PendingChange (V : Type) where
  | wrote (lsn : ℕ) (op : ChangeOp) (key : String) (doc : Option V)
  | gone (lsn : ℕ) (key : String)
  | dropped (lsn : ℕ)
  deriving DecidableEq

variable {V : Type}

namespace PendingChange

def lsn : PendingChange V → ℕ
  | wrote lsn _ _ _ => lsn
  | gone lsn _ => lsn
  | dropped lsn => lsn

/-- `none` is a document that could not be resolved. -/
def event? : PendingChange V → Option (ChangeEvent V)
  | wrote lsn op key doc => doc.map fun value => ⟨lsn, op, key, some value⟩
  | gone lsn key => some ⟨lsn, .delete, key, none⟩
  | dropped lsn => some ⟨lsn, .drop, "", none⟩

end PendingChange

structure Ring (V : Type) where
  events : List (ChangeEvent V)
  resumeFloor : ℕ
  position : ℕ
  closed : Bool
  deriving DecidableEq

namespace Ring

variable (r : Ring V)

def push (bufferEvents : ℕ) (r : Ring V) (e : ChangeEvent V) : Ring V :=
  if bufferEvents < r.events.length + 1 then
    match r.events with
    | [] => { r with
        events := []
        resumeFloor := max r.resumeFloor e.lsn }
    | gone :: rest => { r with
        events := rest ++ [e]
        resumeFloor := max r.resumeFloor gone.lsn }
  else { r with events := r.events ++ [e] }

def publish (bufferEvents : ℕ) (events : List (ChangeEvent V)) (through : ℕ) : Ring V :=
  if r.closed then r
  else
    let r := events.foldl (push bufferEvents) r
    { r with position := max r.position through }

def noteGap (through : ℕ) : Ring V :=
  if r.closed then r
  else { r with
    resumeFloor := max r.resumeFloor through
    position := max r.position through
    events := [] }

def close : Ring V := { r with
  closed := true
  events := [] }

def catchUp (applied : ℕ) : Ring V :=
  if r.position < applied then { r with
    resumeFloor := max r.resumeFloor applied
    position := applied
    events := [] }
  else r

end Ring

inductive SubscribeError where
  | overrun (floor : ℕ)
  | ahead (position : ℕ)
  | tooMany (max : ℕ)
  | closed

inductive FeedEnd where
  | overrun (floor : ℕ)
  | closed
  deriving DecidableEq

inductive Read (V : Type) where
  | events (batch : List (ChangeEvent V))
  | empty
  | overrun (floor : ℕ)
  | skipped (floor : ℕ)
  | closed

/-- The events are in the order of their LSNs, so `partition_point` counts those up to the cursor.
-/
def Ring.readFrom (r : Ring V) (cursor : ℕ) (strict : Bool) (readBatch : ℕ) : Read V :=
  if cursor < r.resumeFloor then if strict then .overrun r.resumeFloor else .skipped r.resumeFloor
  else
    match (r.events.dropWhile fun e => e.lsn ≤ cursor).take readBatch with
    | e :: batch => .events (e :: batch)
    | [] => if r.closed then .closed else .empty

/-- A subscriber, with the position it started from and all it was handed. -/
structure Subscription (V : Type) where
  cursor : ℕ
  strict : Bool
  delivered : Bool
  attached : Bool
  ended : Option FeedEnd
  start : ℕ
  received : List (ChangeEvent V)
  deriving DecidableEq

/-- One turn of the loop of `next_batch`. -/
def Subscription.next (sub : Subscription V) (r : Ring V) (readBatch : ℕ) : Subscription V :=
  match r.readFrom sub.cursor (sub.strict || sub.delivered) readBatch with
  | .events batch => { sub with
      delivered := true
      cursor := (batch.getLast?.map ChangeEvent.lsn).getD sub.cursor
      received := sub.received ++ batch }
  | .skipped floor => { sub with
      cursor := floor
      start := floor }
  | .overrun floor => { sub with ended := some (.overrun floor) }
  | .closed => { sub with ended := some .closed }
  | .empty => sub

structure Feed (V : Type) where
  bufferEvents : ℕ
  maxSubscribers : ℕ
  ring : Ring V
  subs : List (Subscription V)
  pins : ℕ
  deriving DecidableEq

namespace Feed

variable (f : Feed V)

def new (bufferEvents maxSubscribers position : ℕ) : Feed V :=
  ⟨bufferEvents, maxSubscribers, ⟨[], position, position, false⟩, [], 0⟩

def subscribers : ℕ := f.subs.countP Subscription.attached

/-- `lapsed` says that no subscriber has been here within the retention. -/
def quiet (lapsed : Bool) : Bool := f.subscribers = 0 && f.pins = 0 && lapsed

def active (lapsed : Bool) : Bool := 0 < f.subscribers || 0 < f.pins || (!f.ring.closed && !lapsed)

/-- What a subscriber leaves, with its refusal if it is refused: even then the feed may have been
brought up to the watermark. -/
def subscribe (after : Option ℕ) (applied : ℕ) (lapsed : Bool) : Feed V × Option SubscribeError :=
  if f.ring.closed then (f, some .closed)
  else if f.maxSubscribers ≤ f.subscribers then (f, some (.tooMany f.maxSubscribers))
  else
    let ring := if f.quiet lapsed then f.ring.catchUp applied else f.ring
    let f := { f with ring := ring }
    let attach := fun cursor strict =>
      { f with subs := f.subs ++ [⟨cursor, strict, false, true, none, cursor, []⟩] }
    match after with
    | none => (attach ring.position false, none)
    | some a =>
      if ring.position < a then (f, some (.ahead ring.position))
      else if a < ring.resumeFloor then (f, some (.overrun ring.resumeFloor))
      else (attach a true, none)

def pinFrom (applied : ℕ) (lapsed : Bool) : Feed V := { f with
  ring := if f.quiet lapsed then f.ring.catchUp applied else f.ring
  pins := f.pins + 1 }

def unpin : Feed V := { f with pins := f.pins - 1 }

def onSub (i : ℕ) (g : Subscription V → Subscription V) : Feed V :=
  { f with subs := f.subs.modify i g }

def nextBatch (i readBatch : ℕ) : Feed V :=
  f.onSub i fun sub => if sub.attached && sub.ended.isNone then sub.next f.ring readBatch else sub

def detach (i : ℕ) : Feed V := f.onSub i fun sub => { sub with attached := false }

end Feed

/-- The first half of `publish_changes`: what resolved is published. -/
def resolvedEvents (changes : List (PendingChange V)) : List (ChangeEvent V) :=
  changes.filterMap PendingChange.event?

def unresolvedGap (changes : List (PendingChange V)) : ℕ :=
  (changes.filter fun c => c.event?.isNone).foldl (fun gap c => max gap c.lsn) 0

end DewDB.Changefeed
