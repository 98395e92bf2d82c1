import DewDB.PositionSlots
import DewDB.StorageEntry

/-!
# Saving the watermark

`apply_committed` drains the staged frames up to a position under the `pending` lock, and the index
lock while there are any. Then it makes its position durable: a position file for the position
alone, `applied.meta` for the position with the settings. The saves go one at a time under a lock of
their own. `rich_gen` counts the changes to the settings and `rich_saved` is how many of them
`applied.meta` has. A caller first looks without the lock, then again with it.
-/
namespace DewDB.Watermark

open StorageEntry Recovery PositionSlots TransitionSystem

inductive RichWrite (H : Type) where
  | swapDropped (dropped : Bool)
  | clearIndexes
  | takeTtl
  | define (change : IndexChange)
  | setTtl (ttlSecs : Option ℕ)
  | configure (config : QuorumConfig.Configuration)
  | recordHandover (handover : H)

/-- What a call makes durable. `record_watermark_once` and `flush_watermark_full` always write the
full record. -/
inductive Task where
  | applyCommitted (committedLsn : UInt64)
  | recordOnce
  | flushFull
  deriving DecidableEq

inductive Pc where
  | idle
  | draining
  | checkSaved (task : Task)
  | loadGen (task : Task)
  | loadSaved (task : Task) (gen : ℕ)
  | waiting (task : Task)
  | writing
  | returned (task : Task) (ok : Bool)
  deriving DecidableEq

inductive Phase (H : Type) where
  | checkSaved
  | loadGen
  | loadSaved (gen : ℕ)
  | loadRich
  | compare (rich : ℕ)
  | sample (rich : ℕ)
  | savePos (rich covered : ℕ)
  | notePos (covered : ℕ)
  | sampleFull (rich : ℕ)
  | saveFull (rich : ℕ) (record : AppliedMeta H)
  | noteRich (rich covered : ℕ)
  | noteSaved (covered : ℕ)

structure Writer (ι H : Type) where
  caller : ι
  task : Task
  phase : Phase H

/-- The call that has the `pending` lock; `highest` is of the frames that it took, 0 where there are
none. -/
structure Drain (ι H : Type) where
  caller : ι
  committedLsn : UInt64
  writes : List (RichWrite H)
  highest : ℕ
  indexLocked : Bool

/-- `appliedMeta` and `appliedPos` are the files. `highestApplied` is the highest LSN of a staged
frame that was applied, 0 where there is none. -/
structure State (ι V H : Type) where
  pending : List (ℕ × LogEntry V H)
  settings : Settings H
  appliedLsn : ℕ
  watermarkRecorded : Bool
  watermarkSaved : ℕ
  richGen : ℕ
  richSaved : ℕ
  appliedMeta : Option (AppliedMeta H)
  appliedPos : PositionSlots.State
  drain : Option (Drain ι H)
  writer : Option (Writer ι H)
  pc : ι → Pc
  highestApplied : ℕ

/-- A save of the position that fails has got to some of the bytes; one of the record leaves the
file as it is. -/
inductive Op (ι V H : Type) where
  | stage (lsn : ℕ) (entry : LogEntry V H)
  | truncate (lsn : ℕ)
  | call (c : ι) (task : Task)
  | drain
  | look (c : ι)
  | lock (c : ι)
  | write
  | savePos (torn : Option (List Bool))
  | saveFull (ok : Bool)

variable {ι V H : Type}

/-- The settings after the write, and whether it counts as a change. -/
def RichWrite.apply (s : Settings H) : RichWrite H → Settings H × Bool
  | .swapDropped dropped => ({ s with dropped }, s.dropped != dropped)
  | .clearIndexes => ({ s with indexes := [] }, !s.indexes.isEmpty)
  | .takeTtl => ({ s with ttlSecs := none }, s.ttlSecs.isSome)
  | .define change => ({ s with indexes := change.applyTo s.indexes }, true)
  | .setTtl ttlSecs => ({ s with ttlSecs }, s.ttlSecs != ttlSecs)
  | .configure config => ({ s with config := some config }, true)
  | .recordHandover handover => ({ s with handover := some handover }, true)

def richWrites : LogEntry V H → List (RichWrite H)
  | .put .. | .del .. => [.swapDropped false]
  | .barrier _ => []
  | .drop _ => [.clearIndexes, .takeTtl, .swapDropped true]
  | .config c _ => [.configure (Configuration.canonicalized c)]
  | .handover h _ => [.recordHandover h]
  | .index change _ => [.define change]
  | .ttl ttlSecs _ => [.setTtl ttlSecs]

def stageEntry (lsn : ℕ) (entry : LogEntry V H) : List (ℕ × LogEntry V H) → List (ℕ × LogEntry V H)
  | [] => [(lsn, entry)]
  | p :: ps =>
    if lsn < p.1 then (lsn, entry) :: p :: ps
    else if lsn = p.1 then (lsn, entry) :: ps
    else p :: stageEntry lsn entry ps

namespace State

variable (s : State ι V H)

def IndexFree : Prop := ∀ d ∈ s.drain, d.indexLocked = false

instance : Decidable s.IndexFree := inferInstanceAs (Decidable (∀ d ∈ s.drain, _))

section Calls

variable [DecidableEq ι]

def at_ (c : ι) (pc : Pc) : State ι V H := { s with pc := Function.update s.pc c pc }

def Ready (c : ι) : Prop := s.pc c = .idle ∨ ∃ task ok, s.pc c = .returned task ok

instance (c : ι) : Decidable (s.Ready c) :=
  match h : s.pc c with
  | .idle => isTrue (.inl h)
  | .returned task ok => isTrue (.inr ⟨task, ok, h⟩)
  | .draining | .checkSaved _ | .loadGen _ | .loadSaved .. | .waiting _ | .writing =>
    isFalse (by rintro (hidle | ⟨_, _, hreturned⟩) <;> simp_all)

/-- Takes what is staged up to the position. `committed_lsn + 1` wraps at the highest LSN. -/
def startDrain (c : ι) (committedLsn : UInt64) : State ι V H :=
  let ready := s.pending.takeWhile fun p => p.1 < (committedLsn + 1).toNat
  { s.at_ c .draining with
    pending := s.pending.dropWhile fun p => p.1 < (committedLsn + 1).toNat
    drain := some ⟨c, committedLsn, ready.flatMap fun p => richWrites p.2,
      ready.foldl (fun h p => max h p.1) 0, !ready.isEmpty⟩ }

def start (c : ι) : Task → Option (State ι V H)
  | .applyCommitted committedLsn => if s.drain.isNone
      then some (s.startDrain c committedLsn) else none
  | .recordOnce => some (s.at_ c (.checkSaved .recordOnce))
  | .flushFull => some (s.at_ c (.waiting .flushFull))

/-- The next step under the `pending` lock. The index lock goes before the position moves. -/
def stepDrain (d : Drain ι H) : State ι V H :=
  match d.writes, d.indexLocked with
  | w :: rest, _ =>
    let (settings, changed) := w.apply s.settings
    { s with
      settings
      richGen := if changed then s.richGen + 1 else s.richGen
      drain := some { d with writes := rest } }
  | [], true => { s with drain := some { d with indexLocked := false } }
  | [], false => { s.at_ d.caller (.checkSaved (.applyCommitted d.committedLsn)) with
      appliedLsn := max s.appliedLsn d.committedLsn.toNat
      highestApplied := max s.highestApplied d.highest
      drain := none }

/-- Whether the task may be done without a save, before the settings are looked at. -/
def covers : Task → Bool
  | .applyCommitted committedLsn => committedLsn.toNat ≤ s.watermarkSaved
  | .recordOnce => s.watermarkRecorded
  | .flushFull => false

def look (c : ι) : Option (State ι V H) :=
  match s.pc c with
  | .checkSaved task =>
    if !s.covers task then some (s.at_ c (.waiting task))
    else if task = .recordOnce then some (s.at_ c (.returned task true))
    else some (s.at_ c (.loadGen task))
  | .loadGen task => some (s.at_ c (.loadSaved task s.richGen))
  | .loadSaved task gen =>
      some (s.at_ c (if gen = s.richSaved then .returned task true else .waiting task))
  | _ => none

def lock (c : ι) : Option (State ι V H) :=
  match s.pc c, s.writer with
  | .waiting task, none => some { s.at_ c .writing with
      writer := some ⟨c, task, if task = .flushFull then .loadRich else .checkSaved⟩ }
  | _, _ => none

def done (w : Writer ι H) (ok : Bool) : State ι V H :=
  { s.at_ w.caller (.returned w.task ok) with writer := none }

def goto (w : Writer ι H) (phase : Phase H) : State ι V H :=
  { s with writer := some { w with phase } }

/-- The next step under the lock of the saves, where it is not a save. -/
def stepWriter (w : Writer ι H) : Option (State ι V H) :=
  match w.phase with
  | .checkSaved =>
    if !s.covers w.task then some (s.goto w .loadRich)
    else if w.task = .recordOnce then some (s.done w true)
    else some (s.goto w .loadGen)
  | .loadGen => some (s.goto w (.loadSaved s.richGen))
  | .loadSaved gen => some (if gen = s.richSaved then s.done w true else s.goto w .loadRich)
  | .loadRich =>
    match w.task with
    | .applyCommitted _ => some (s.goto w (.compare s.richGen))
    | _ => some (s.goto w (.sampleFull s.richGen))
  | .compare rich => some (s.goto w (if rich = s.richSaved then .sample rich else .sampleFull rich))
  | .sample rich => if s.IndexFree then some (s.goto w (.savePos rich s.appliedLsn)) else none
  | .savePos rich _ => if s.appliedPos.seq.isNone then some (s.goto w (.sampleFull rich)) else none
  | .notePos covered => some { s.done w true with watermarkSaved := max s.watermarkSaved covered }
  | .sampleFull rich => if s.IndexFree
      then some (s.goto w (.saveFull rich ⟨s.appliedLsn, s.settings⟩)) else none
  | .saveFull .. => none
  | .noteRich rich covered => some { s.goto w (.noteSaved covered) with richSaved := rich }
  | .noteSaved covered => some { s.done w true with
      watermarkSaved := max s.watermarkSaved covered
      watermarkRecorded := s.watermarkRecorded || w.task = .recordOnce }

/-- The save of the position. Where it fails the full record is written. -/
def savePos (crc : List UInt8 → UInt32) (w : Writer ι H) (torn : Option (List Bool)) : Option
    (State ι V H) :=
  match w.phase with
  | .savePos rich covered =>
    (PositionSlots.step crc s.appliedPos
      (.save (UInt64.ofNat covered) (torn.elim .done .failed))).map fun pos =>
      { s.goto w (if torn.isNone then .notePos covered else .sampleFull rich)
        with appliedPos := pos }
  | _ => none

def saveFull (w : Writer ι H) (ok : Bool) : Option (State ι V H) :=
  match w.phase with
  | .saveFull rich record =>
    some (if ok then { s.goto w (.noteRich rich record.appliedLsn) with appliedMeta := some record }
      else s.done w false)
  | _ => none

end Calls

end State

/-- No frame is staged before `applied.meta` is there. -/
def step [DecidableEq ι] (crc : List UInt8 → UInt32) (s : State ι V H) :
    Op ι V H → Option (State ι V H)
  | .stage lsn entry =>
    if s.drain.isNone ∧ s.watermarkRecorded
      then some { s with pending := stageEntry lsn entry s.pending } else none
  | .truncate lsn =>
    if s.drain.isNone then some { s with pending := s.pending.filter fun p => p.1 < lsn } else none
  | .call c task => if s.Ready c then s.start c task else none
  | .drain => s.drain.map s.stepDrain
  | .look c => s.look c
  | .lock c => s.lock c
  | .write => s.writer.bind s.stepWriter
  | .savePos torn => s.writer.bind fun w => s.savePos crc w torn
  | .saveFull ok => s.writer.bind fun w => s.saveFull w ok

section Position

variable (crc : List UInt8 → UInt32) (s : State ι V H)

def recordedWatermark : Except Refusal (Option ℕ) :=
  (newest crc s.appliedPos.file).map fun pos => s.appliedMeta.map fun m =>
    max m.appliedLsn ((pos.map Prod.snd).getD 0)

def durable : ℕ := max (s.appliedMeta.elim 0 AppliedMeta.appliedLsn)
  (positionOf crc s.appliedPos.file)

/-- A collection that has just been created or opened: `applied.meta` has the settings it has, and
the position is the one the files give. -/
structure Opened : Prop where
  pc : ∀ c, s.pc c = .idle
  drain : s.drain = none
  writer : s.writer = none
  richGen : s.richGen = 0
  richSaved : s.richSaved = 0
  appliedPos : PositionSlots.Inv crc s.appliedPos
  position_le : positionOf crc s.appliedPos.file ≤ s.appliedLsn
  appliedLsn_lt : s.appliedLsn < 2 ^ 64
  recorded : s.watermarkRecorded = s.appliedMeta.isSome
  pending : s.appliedMeta = none → s.pending = []
  watermarkSaved : s.watermarkSaved = s.appliedMeta.elim 0 fun _ => durable crc s
  appliedLsn : ∀ m ∈ s.appliedMeta, s.appliedLsn = durable crc s
  settings : ∀ m ∈ s.appliedMeta, m.settings = s.settings
  highestApplied : s.highestApplied = 0

end Position

section Writes

theorem RichWrite.apply_of_not_changed {s : Settings H} {w : RichWrite H}
    (h : (w.apply s).2 = false) : (w.apply s).1 = s := by
  obtain ⟨dropped, config, handover, indexes, ttlSecs⟩ := s
  cases w <;> simp_all [RichWrite.apply]

/-- The writes of a frame are together what committing it does to the settings. -/
theorem foldl_richWrites (s : Settings H) (e : LogEntry V H) :
    (richWrites e).foldl (fun s w => (w.apply s).1) s = s.publish e := by
  cases e <;> rfl

end Writes

end DewDB.Watermark
