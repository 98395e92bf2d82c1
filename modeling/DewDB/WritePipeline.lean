import Mathlib.Data.List.Sort
import Mathlib.Data.List.Dedup
import DewDB.TransitionSystem
import DewDB.StagedOverlay

/-!
# The local write pipeline

Every mutating request locks the stripes of its keys, reads what its condition is judged on, and
hands its frames to a blocking task. The request's future can be dropped at any await: its locks go
with it, the blocking task does not. Commits move staged frames to the index, and a node that does
not lead receives the frames of another leader, which take no key lock.
-/
namespace DewDB.WritePipeline

open Precondition StagedOverlay

variable {K V : Type}

def keyLockStripes : Nat := 64

/-- A mutating request. Puts, deletes and migration writes are one `write`; index definitions, TTL
changes and barriers are `unkeyed`. -/
inductive Op (K V : Type) where
  | write (key : K) (value : Option V) (expireAt : Option Nat) (pre : Preconditions)
  | patch (key : K) (doc : V) (expireAt : Option Nat) (pre : Preconditions)
  | batch (items : List (K × V × Option Nat))
  | sweep (candidates : List (K × Version))
  | dropAll
  | unkeyed
  deriving DecidableEq

/-- `hash` is the 64-bit hash of the key's bytes. -/
def keyStripe (hash : K → Nat) (k : K) : Nat := hash k % keyLockStripes

namespace Op

def stripes (hash : K → Nat) : Op K V → List Nat
  | .write key _ _ _ => [keyStripe hash key]
  | .patch key _ _ _ => [keyStripe hash key]
  | .batch items => ((items.map fun i => keyStripe hash i.1).insertionSort (· ≤ ·)).dedup
  | .sweep candidates => ((candidates.map fun c => keyStripe hash c.1).insertionSort (· ≤ ·)).dedup
  | .dropAll => List.range keyLockStripes
  | .unkeyed => []

/-- The keys a request looks up under its locks. A patch looks again for the expiry it keeps. -/
def reads : Op K V → List K
  | .write key _ _ pre => if pre.isEmpty then [] else [key]
  | .patch key _ expireAt _ => key :: if expireAt.isSome then [] else [key]
  | .sweep candidates => candidates.map Prod.fst
  | _ => []

/-- What a request appends once its lookups returned `got`; `none` if it is refused or has nothing
to append. `merge` is the merge patch of documents. -/
def changes (merge : V → V → V) (op : Op K V) (got : List (Option (IndexEntry V))) :
    Option (List (Change K V)) :=
  match op with
  | .write key value expireAt pre =>
    if !pre.isEmpty && !pre.holds (got.head?.join.map IndexEntry.version) then none
    else
      match value with
      | some v => some [.put key v expireAt]
      | none => some [.remove key]
  | .patch key doc expireAt pre =>
    let current := got.head?.join
    if !pre.isEmpty && !pre.holds (current.map IndexEntry.version) then none
    else current.map fun cur =>
      [.put key (merge cur.value doc) (expireAt.or (got[1]?.join.bind IndexEntry.expireAt))]
  | .batch items => some (items.map fun i => .put i.1 i.2.1 i.2.2)
  | .sweep candidates =>
    let expired := (candidates.zip got).filter fun c => c.2.map IndexEntry.version == some c.1.2
    if expired.isEmpty then none else some (expired.map fun c => .remove c.1.1)
  | .dropAll => some [.clear]
  | .unkeyed => some [.nothing]

def condition : Op K V → Option (K × Preconditions)
  | .write key _ _ pre => some (key, pre)
  | .patch key _ _ pre => some (key, pre)
  | _ => none

end Op

inductive Stage (K V : Type) where
  | locking (left : List Nat)
  | reading (left : List K) (got : List (Option (IndexEntry V)))
  /-- The staged frames had nothing for `key`; the index is next. -/
  | indexing (key : K) (left : List K) (got : List (Option (IndexEntry V)))
  /-- The blocking task still has `left` to append. -/
  | appending (term : Nat) (left : List (Change K V))
  | finished

structure Request (K V : Type) where
  op : Op K V
  held : List Nat
  stage : Stage K V

/-- A local append, with the log it was made on. `stint` counts the frames of other leaders before
it. -/
structure Appended (K V : Type) where
  op : Op K V
  before : List (Frame K V)
  frame : Frame K V
  stint : Nat

/-- One collection of one node. `log` and `appended` also keep what compaction retires, for the
statements. -/
structure State (K V : Type) where
  index : Index K V
  pending : List (Frame K V)
  log : List (Frame K V)
  appliedLsn : Nat
  nextLsn : Nat
  requests : List (Request K V)
  stint : Nat
  appended : List (Appended K V)

inductive Label (K V : Type) where
  | arrive (op : Op K V)
  | lock (r : Nat)
  | scan (r : Nat)
  | lookup (r : Nat)
  | judge (r : Nat) (term : Nat)
  | append (r : Nat)
  | finish (r : Nat)
  /-- The request ends with an error: not leading, a failed read or a failed append. -/
  | fail (r : Nat)
  /-- The client is gone and the request's future is dropped. -/
  | cancel (r : Nat)
  | commit (lsn : Nat)
  /-- Another collection, or an append that failed later, takes an LSN of the database. -/
  | takeLsn
  /-- A frame of another leader is appended after `prev`, and what was above `prev` is cut. -/
  | receive (prev : Nat) (f : Frame K V)

def enter (op : Op K V) : List Nat → Stage K V
  | [] => .reading op.reads []
  | x :: left => .locking (x :: left)

def State.setRequest (s : State K V) (r : Nat) (q : Request K V) : State K V :=
  { s with requests := s.requests.set r q }

def Request.ended (q : Request K V) : Request K V := { q with held := [], stage := .finished }

/-- Appends one frame under the append lock and stages it. The counter is above every staged LSN, so
the frame goes to the end of the map. -/
def State.appendFrame (s : State K V) (op : Op K V) (term : Nat) (c : Change K V) : State K V :=
  let f : Frame K V := ⟨s.nextLsn + 1, term, c⟩
  { s with
    pending := s.pending ++ [f], log := s.log ++ [f], nextLsn := s.nextLsn + 1,
    appended := s.appended ++ [⟨op, s.log, f, s.stint⟩] }

def State.applyCommitted [DecidableEq K] (s : State K V) (lsn : Nat) : State K V :=
  { s with
    index := replay s.index (s.pending.filter fun f => f.lsn ≤ lsn),
    pending := s.pending.filter fun f => lsn < f.lsn,
    appliedLsn := max s.appliedLsn lsn }

def State.receiveFrame (s : State K V) (prev : Nat) (f : Frame K V) : State K V :=
  { s with
    pending := s.pending.filter (fun g => g.lsn ≤ prev) ++ [f],
    log := s.log.filter (fun g => g.lsn ≤ prev) ++ [f],
    nextLsn := max s.nextLsn f.lsn, stint := s.stint + 1 }

def requestStep [DecidableEq K] (merge : V → V → V) (s : State K V) (r : Nat) (q : Request K V) :
    Label K V → Option (State K V)
  | .lock _ =>
    match q.stage with
    | .locking (x :: left) =>
      if s.requests.any (fun other => x ∈ other.held) then none
      else some (s.setRequest r { q with held := x :: q.held, stage := enter q.op left })
    | _ => none
  | .scan _ =>
    match q.stage with
    | .reading (k :: left) got =>
      match overlay s.pending k with
      | some current =>
        some (s.setRequest r { q with stage := .reading left (got ++ [current]) })
      | none => some (s.setRequest r { q with stage := .indexing k left got })
    | _ => none
  | .lookup _ =>
    match q.stage with
    | .indexing k left got =>
      some (s.setRequest r { q with stage := .reading left (got ++ [s.index k]) })
    | _ => none
  | .judge _ term =>
    match q.stage with
    | .reading [] got =>
      match q.op.changes merge got with
      | some cs => some (s.setRequest r { q with stage := .appending term cs })
      | none => some (s.setRequest r q.ended)
    | _ => none
  | .append _ =>
    match q.stage with
    | .appending term (c :: left) =>
      some ((s.appendFrame q.op term c).setRequest r { q with stage := .appending term left })
    | _ => none
  | .finish _ =>
    match q.stage with
    | .appending _ [] => some (s.setRequest r q.ended)
    | _ => none
  | .fail _ => some (s.setRequest r q.ended)
  | .cancel _ =>
    match q.stage with
    | .appending _ _ => some (s.setRequest r { q with held := [] })
    | _ => some (s.setRequest r q.ended)
  | _ => none

def Label.request : Label K V → Option Nat
  | .lock r | .scan r | .lookup r | .judge r _ | .append r | .finish r | .fail r | .cancel r =>
    some r
  | _ => none

def step [DecidableEq K] (hash : K → Nat) (merge : V → V → V) (s : State K V) :
    Label K V → Option (State K V)
  | .arrive op =>
    some { s with requests := s.requests ++ [⟨op, [], enter op (op.stripes hash)⟩] }
  | .commit lsn => some (s.applyCommitted lsn)
  | .takeLsn => some { s with nextLsn := s.nextLsn + 1 }
  | .receive prev f =>
    if s.appliedLsn ≤ prev ∧ prev < f.lsn then some (s.receiveFrame prev f) else none
  | l => l.request.bind fun r => s.requests[r]?.bind fun q => requestStep merge s r q l

/-- A collection as a node finds it: an index that replays what is committed and the frames above
it, LSNs rising up to the database's counter, and no request yet. -/
structure Opened [DecidableEq K] (s : State K V) : Prop where
  published : ∃ c, s.log = c ++ s.pending ∧ s.index = replay (fun _ => none) c ∧
    ∀ f ∈ c, f.lsn ≤ s.appliedLsn
  rising : s.log.Pairwise fun a b => a.lsn < b.lsn
  below : ∀ f ∈ s.log, f.lsn ≤ s.nextLsn
  requests : s.requests = []
  appended : s.appended = []

def Stage.deciding : Stage K V → Bool
  | .locking _ => false
  | .reading _ _ => true
  | .indexing _ _ _ => true
  | .appending _ left => !left.isEmpty
  | .finished => false

def Stage.blocking : Stage K V → Bool
  | .appending _ left => !left.isEmpty
  | _ => false

/-- No request is dropped while its blocking task still appends, and no other leader's frame lands
while a request is between its first lookup and its last append. -/
def Uninterrupted (s : State K V) : Label K V → Bool
  | .cancel r => s.requests[r]?.all fun q => !q.stage.blocking
  | .receive _ _ => s.requests.all fun q => !q.stage.deciding
  | _ => true

end DewDB.WritePipeline
