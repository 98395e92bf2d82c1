import DewDB.FrameBytes
import DewDB.SortedMap
import DewDB.StorageEntry
import Mathlib.Data.String.Basic

/-!
# Inline values and their accounts

A small value is kept in memory beside its position. The bytes of committed copies, those of staged
copies and the entries that expire are counted as they come and go, here by every operation that
moves them: staging, committing, truncating, relocating and a replay. A subtraction below zero is
`none`. `decode` is the JSON reader of the payload.
-/
namespace DewDB.InlineAccounts

open FrameBytes
open StorageEntry (LogEntry Settings IndexChange)
open QuorumConfig (Configuration)

structure ReadCacheConfig where
  inlineMaxValueBytes : ℕ
  inlineBudgetBytes : ℕ

structure IndexEntry where
  walId : ℕ
  offset : ℕ
  len : ℕ
  inline : Option Bytes
  lsn : ℕ
  term : ℕ
  ts : ℕ
  expireAt : Option ℕ

namespace IndexEntry

def inlineBytes (e : IndexEntry) : ℕ := e.inline.elim 0 List.length

def expiring (e : IndexEntry) : ℕ := if e.expireAt.isSome then 1 else 0

def expiresAt (e : IndexEntry) (collectionTtlSecs : Option ℕ) : Option ℕ :=
  e.expireAt.or (collectionTtlSecs.bind fun secs =>
    if 0 < e.ts then some (min (e.ts + min (secs * 1000) (2 ^ 64 - 1)) (2 ^ 64 - 1)) else none)

end IndexEntry

abbrev Index := SortedMap String IndexEntry

inductive StagedEffect (H : Type) where
  | put (key : String) (entry : IndexEntry)
  | remove (key : String)
  | nothing
  | clear
  | configure (config : Configuration)
  | recordHandover (handover : H)
  | defineIndex (change : IndexChange)
  | setTtl (ttlSecs : Option ℕ)

structure StagedApply (H : Type) where
  walId : ℕ
  offset : ℕ
  term : ℕ
  effect : StagedEffect H
  migration : Bool

abbrev Pending (H : Type) := SortedMap ℕ (StagedApply H)

variable {V H : Type}

def StagedEffect.inlineBytes : StagedEffect H → ℕ
  | .put _ entry => entry.inlineBytes
  | _ => 0

def StagedApply.inlineBytes (s : StagedApply H) : ℕ := s.effect.inlineBytes

def isMigration : LogEntry V H → Bool
  | .put migration .. => migration
  | .del migration .. => migration
  | _ => false

/-- The effect of an entry; a put has the index entry that was built for it. -/
def effectOf (entry : IndexEntry) : LogEntry V H → StagedEffect H
  | .put _ key .. => .put key entry
  | .del _ key _ => .remove key
  | .barrier _ => .nothing
  | .drop _ => .clear
  | .config config _ => .configure (StorageEntry.Configuration.canonicalized config)
  | .handover handover _ => .recordHandover handover
  | .index change _ => .defineIndex change
  | .ttl ttlSecs _ => .setTtl ttlSecs

def publishSettings (s : Settings H) : StagedEffect H → Settings H
  | .put .. | .remove _ => { s with dropped := false }
  | .nothing => s
  | .clear => { s with
      dropped := true
      indexes := []
      ttlSecs := none }
  | .configure config => { s with config := some config }
  | .recordHandover handover => { s with handover := some handover }
  | .defineIndex change => { s with indexes := change.applyTo s.indexes }
  | .setTtl ttlSecs => { s with ttlSecs }

def fetchSub (counter n : ℕ) : Option ℕ := if n ≤ counter then some (counter - n) else none

/-- An open collection. `fence` is the position of a cut that is not finished. -/
structure Coll (H : Type) where
  index : Index
  pending : Pending H
  inlineBytes : ℕ
  stagedInline : ℕ
  expiringEntries : ℕ
  appliedLsn : ℕ
  settings : Settings H
  fence : Option ℕ

section Operations

variable (cache : ReadCacheConfig) (decode : Bytes → Option (LogEntry V H))

def Coll.inlineResident (c : Coll H) : ℕ := c.inlineBytes + c.stagedInline

/-- `resident` is what the budget is already spent on. -/
def buildEntry (resident walId offset lsn term : ℕ) (payload : Bytes) : IndexEntry :=
  let len := payload.length
  let inline := if len ≤ cache.inlineMaxValueBytes ∧ resident + len ≤ cache.inlineBudgetBytes
    then some payload else none
  match decode payload with
  | some (.put _ _ _ ts expireAt) => ⟨walId, offset, len, inline, lsn, term, ts, expireAt⟩
  | _ => ⟨walId, offset, len, inline, lsn, term, 0, none⟩

namespace Coll

def releaseStaged (c : Coll H) (effect : StagedEffect H) : Option (Coll H) :=
  (fetchSub c.stagedInline effect.inlineBytes).map fun n => { c with stagedInline := n }

def applyIndexPut (c : Coll H) (key : String) (entry : IndexEntry) : Option (Coll H) :=
  let old := c.index.get? key
  let added := entry.inlineBytes
  let replaced := old.elim 0 IndexEntry.inlineBytes
  let bytes := if replaced ≤ added then some (c.inlineBytes + (added - replaced))
    else fetchSub c.inlineBytes (replaced - added)
  let expires := entry.expireAt.isSome
  let wasExpiring := old.any fun old => old.expireAt.isSome
  let expiring := if expires && !wasExpiring then some (c.expiringEntries + 1)
    else if wasExpiring && !expires then fetchSub c.expiringEntries 1
    else some c.expiringEntries
  bytes.bind fun inlineBytes => expiring.map fun expiringEntries =>
    { c with index := c.index.insert key entry, inlineBytes, expiringEntries }

def applyIndexRemove (c : Coll H) (key : String) : Option (Coll H) :=
  match c.index.get? key with
  | none => some c
  | some old =>
    (fetchSub c.inlineBytes old.inlineBytes).bind fun inlineBytes =>
      let expiring := if old.expireAt.isSome then fetchSub c.expiringEntries 1
        else some c.expiringEntries
      expiring.map fun expiringEntries =>
        { c with index := c.index.erase key, inlineBytes, expiringEntries }

def clearIndex (c : Coll H) : Coll H := { c with
  index := .empty
  inlineBytes := 0
  expiringEntries := 0 }

/-- A frame that lands on an LSN which is already held displaces it. -/
def stageAppended (c : Coll H) (lsn term : ℕ) (entry : LogEntry V H) (walId offset : ℕ)
    (payload : Bytes) : Option (Coll H) :=
  let built := buildEntry cache decode c.inlineResident walId offset lsn term payload
  let effect := effectOf built entry
  let reserved := { c with stagedInline := c.stagedInline + effect.inlineBytes }
  let staged := { reserved with pending := c.pending.insert lsn ⟨walId, offset, term, effect,
    isMigration entry⟩ }
  match c.pending.get? lsn with
  | none => some staged
  | some old => staged.releaseStaged old.effect

def applyEffect (c : Coll H) : StagedEffect H → Option (Coll H)
  | .put key entry => c.applyIndexPut key entry
  | .remove key => c.applyIndexRemove key
  | .clear => some c.clearIndex
  | _ => some c

/-- A staged frame in the loop of `apply_committed`: what it held is released once the index is
charged. -/
def publish (c : Coll H) (effect : StagedEffect H) : Option (Coll H) :=
  (c.applyEffect effect).bind fun c =>
    { c with settings := publishSettings c.settings effect }.releaseStaged effect

def publishAll (c : Coll H) : List (ℕ × StagedApply H) → Option (Coll H)
  | [] => some c
  | staged :: ready => (c.publish staged.2.effect).bind fun c => c.publishAll ready

/-- The staged frames up to the committed LSN are drained in log order. -/
def applyCommitted (c : Coll H) (committedLsn : ℕ) : Option (Coll H) :=
  let ready := c.pending.filterKeys fun lsn => lsn < committedLsn + 1
  let rest := c.pending.filterKeys fun lsn => !decide (lsn < committedLsn + 1)
  (publishAll { c with pending := rest } ready.entries).map fun c =>
    { c with appliedLsn := max c.appliedLsn committedLsn }

def dropStaged (c : Coll H) : List ℕ → Option (Coll H)
  | [] => some c
  | lsn :: doomed =>
    match c.pending.get? lsn with
    | none => c.dropStaged doomed
    | some dropped =>
      ({ c with pending := c.pending.erase lsn }.releaseStaged dropped.effect).bind fun c =>
        c.dropStaged doomed

def doomed (c : Coll H) (prevLsn : ℕ) : List ℕ := c.pending.keys.filter fun lsn => prevLsn < lsn

def applyCut (c : Coll H) (prevLsn : ℕ) (fails : Bool) : Coll H :=
  { c with fence := if fails then some prevLsn else none }

/-- `rewind_to`, which leaves the collection as it is if it refuses; `recorded` is false if the cut
cannot be recorded. -/
def rewindTo (c : Coll H) (prevLsn prevTerm : ℕ) (recorded fails : Bool) : Option (Coll H) :=
  let held := match c.pending.get? prevLsn with
    | some staged => decide (staged.term = prevTerm)
    | none => decide (prevLsn = c.appliedLsn)
  if prevLsn < c.appliedLsn ∨ !held ∨ c.doomed prevLsn = [] ∨ !recorded then some c
  else (c.dropStaged (c.doomed prevLsn)).map fun c => c.applyCut prevLsn fails

def healFencedCut (c : Coll H) (fails : Bool) : Option (Coll H) :=
  match c.fence with
  | none => some c
  | some prevLsn => (c.dropStaged (c.doomed prevLsn)).map fun c => c.applyCut prevLsn fails

end Coll

/-- A live key that a compaction has written anew; `resident` is what the budget was spent on then.
-/
structure RelocatedFrame where
  key : String
  oldWalId : ℕ
  oldOffset : ℕ
  offset : ℕ
  lsn : ℕ
  term : ℕ
  payload : Bytes
  resident : ℕ

namespace Coll

/-- Only an entry that still points at the location which was read moves. -/
def remapRelocated (c : Coll H) (compactId : ℕ) : List RelocatedFrame → Option (Coll H)
  | [] => some c
  | f :: relocated =>
    let entry := buildEntry cache decode f.resident compactId f.offset f.lsn f.term f.payload
    if (c.index.get? f.key).any fun cur => cur.walId = f.oldWalId ∧ cur.offset = f.oldOffset then
      (c.applyIndexPut f.key entry).bind fun c => c.remapRelocated compactId relocated
    else c.remapRelocated compactId relocated

def moveEntry (compactId : ℕ) (moved : List ((ℕ × ℕ) × ℕ)) (e : IndexEntry) : IndexEntry :=
  match moved.lookup (e.walId, e.offset) with
  | none => e
  | some offset => { e with
      walId := compactId
      offset }

/-- The part of `compact` that remaps the index. -/
def remap (c : Coll H) (compactId : ℕ) (relocated : List RelocatedFrame)
    (moved : List ((ℕ × ℕ) × ℕ)) : Option (Coll H) :=
  (c.remapRelocated cache decode compactId relocated).map fun c =>
    { c with index := c.index.mapValues (moveEntry compactId moved) }

def walkExpired (c : Coll H) (nowMs : ℕ) (owned : String → Bool) : List (String × ℕ × ℕ) :=
  (c.index.entries.filter fun e =>
    owned e.1 && (e.2.expiresAt c.settings.ttlSecs).any fun deadline => deadline ≤ nowMs).map
      fun e => (e.1, e.2.term, e.2.lsn)

/-- The keys that have expired, without a walk if nothing can expire. -/
def expiredKeys (c : Coll H) (nowMs : ℕ) (owned : String → Bool) : List (String × ℕ × ℕ) :=
  if c.settings.ttlSecs = none ∧ c.expiringEntries = 0 then [] else c.walkExpired nowMs owned

end Coll

end Operations

section Replaying

structure ReadFrame where
  offset : ℕ
  header : FrameHeader
  payload : Bytes

structure Replay (H : Type) where
  index : Index
  pending : Pending H
  inlineUsed : ℕ
  stagedInline : ℕ
  settings : Settings H

variable (cache : ReadCacheConfig) (decode : Bytes → Option (LogEntry V H))

namespace Replay

def start (map : Index) (settings : Settings H) : Replay H :=
  ⟨map, .empty, map.total IndexEntry.inlineBytes, 0, settings⟩

/-- The index entry of an uncommitted frame, of which only a put makes use. -/
def stagedEntry (r : Replay H) (walId : ℕ) (f : ReadFrame) (entry : LogEntry V H) : IndexEntry :=
  let len := f.payload.length
  let fits := len ≤ cache.inlineMaxValueBytes ∧
    r.inlineUsed + r.stagedInline + len ≤ cache.inlineBudgetBytes
  let inline := if fits then some f.payload else none
  match entry with
  | .put _ _ _ ts expireAt =>
    ⟨walId, f.offset, len, inline, f.header.lsn.toNat, f.header.term.toNat, ts, expireAt⟩
  | _ => ⟨walId, f.offset, len, none, f.header.lsn.toNat, f.header.term.toNat, 0, none⟩

def stage (r : Replay H) (walId : ℕ) (f : ReadFrame) (entry : LogEntry V H) : Replay H :=
  let effect := effectOf (r.stagedEntry cache walId f entry) entry
  { r with
    pending := r.pending.insert f.header.lsn.toNat
      ⟨walId, f.offset, f.header.term.toNat, effect, isMigration entry⟩
    stagedInline := r.stagedInline + effect.inlineBytes
    settings := r.settings.stage entry }

def publish (r : Replay H) (walId : ℕ) (f : ReadFrame) (entry : LogEntry V H) : Option (Replay H) :=
  let len := f.payload.length
  let settings := r.settings.replay entry
  match entry with
  | .put _ key _ ts expireAt =>
    let fits := len ≤ cache.inlineMaxValueBytes ∧ r.inlineUsed + len ≤ cache.inlineBudgetBytes
    let built : IndexEntry :=
      ⟨walId, f.offset, len, if fits then some f.payload else none, f.header.lsn.toNat,
      f.header.term.toNat, ts, expireAt⟩
    let old := r.index.get? key
    (fetchSub (r.inlineUsed + built.inlineBytes) (old.elim 0 IndexEntry.inlineBytes)).map
      fun inlineUsed =>
      { r with index := r.index.insert key built, inlineUsed, settings }
  | .del _ key _ =>
    let old := r.index.get? key
    (fetchSub r.inlineUsed (old.elim 0 IndexEntry.inlineBytes)).map fun inlineUsed =>
      { r with index := r.index.erase key, inlineUsed, settings }
  | .drop _ => some { r with index := .empty, inlineUsed := 0, settings }
  | _ => some { r with settings }

def frame (appliedThrough walId : ℕ) (r : Replay H) (f : ReadFrame) : Option (Replay H) :=
  match decode f.payload with
  | none => some r
  | some entry =>
    if appliedThrough < f.header.lsn.toNat then some (r.stage cache walId f entry)
    else r.publish cache walId f entry

/-- The end of `Collection::open`. -/
def opened (r : Replay H) (appliedAt : ℕ) : Coll H :=
  { index := r.index
    pending := r.pending
    inlineBytes := r.inlineUsed
    stagedInline := r.stagedInline
    expiringEntries := (r.index.values.filter fun e => e.expireAt.isSome).length
    appliedLsn := appliedAt
    settings := r.settings
    fence := none }

end Replay

end Replaying

end DewDB.InlineAccounts
