import DewDB.TransitionSystem

/-!
# Installing a staged collection

A collection has three paths under the data directory: `live`, `.old` and `.tmp`. Installing a
staged directory moves `live` to `.old` and `.tmp` to `live` and opens it; a marker in `.tmp` tells
a staged install from a download. The program counter names the next call on the file system, and a
label gives its outcome. A crash stops the program anywhere; `recover_collection_install` runs at a
boot, or before a collection is looked up. Opening a directory can fail for its contents, or for the
call itself.
-/
namespace DewDB.CollectionInstall

open TransitionSystem

/-- The contents of a directory: a collection, or what an interrupted removal left of one. -/
inductive Contents (D : Type) where
  | whole (d : D)
  | part (d : D)
  deriving DecidableEq

def Contents.remnant {D : Type} : Contents D → Contents D
  | .whole d => .part d
  | .part d => .part d

structure Dir (D : Type) where
  contents : Contents D
  marker : Bool

structure Root (D : Type) where
  live : Option (Dir D)
  old : Option (Dir D)
  tmp : Option (Dir D)

/-- The next call, of the install and of the recovery; `hadOld` and `boot` are the functions' own.
-/
inductive Pc where
  | release
  | clearOld
  | mark
  | backup
  | swap (hadOld : Bool)
  | restore
  | opening (hadOld : Bool)
  | unmark
  | dropOld
  | moveBad (hadOld : Bool)
  | removeBad (hadOld : Bool)
  | undo (hadOld : Bool)
  | idle
  | recover (boot : Bool)
  | unmarkLive (boot : Bool)
  | dropTmp
  | promote (boot : Bool)
  | clearTmp (boot : Bool)
  | restoreOld (boot : Bool)
  | openLive
  | dropBackup
  deriving DecidableEq

/-- The outcome of the next call, or what happens to the process. A removal can stop part-way, with
the marker still there or not. -/
inductive Label where
  | ok
  | fail
  | partway (marker : Bool)
  | crash
  | boot
  | lookup
  deriving DecidableEq

/-- The paths and the program counter, with what has been opened, what an install has found not to
open, and what a recovery has promoted over which backup. -/
structure State (D : Type) where
  root : Root D
  pc : Pc
  opened : List (Contents D)
  refused : List (Contents D)
  promotions : List (Contents D × Option (Contents D))

variable {D : Type} (opens : Contents D → Bool)

def stagedInstallReady (tmp : Option (Dir D)) : Bool := tmp.any Dir.marker

/-- `remove_dir_with_retry`. -/
def removed (dir : Option (Dir D)) : Label → Option (Dir D)
  | .ok => none
  | .partway marker => dir.map fun d => ⟨d.contents.remnant, marker && d.marker⟩
  | _ => dir

def marked (dir : Option (Dir D)) (marker : Bool) : Option (Dir D) :=
  dir.map fun d => { d with marker }

namespace State

variable (s : State D)

def goto (pc : Pc) : State D := { s with pc }

def setLive (dir : Option (Dir D)) : State D := { s with root := { s.root with live := dir } }

def setOld (dir : Option (Dir D)) : State D := { s with root := { s.root with old := dir } }

def setTmp (dir : Option (Dir D)) : State D := { s with root := { s.root with tmp := dir } }

/-- Where a recovery goes after `live` is there: the boot only reconciles. -/
def recovered (boot : Bool) : State D := s.goto (if boot then .idle else .openLive)

/-- The calls of `install_staged_collection` and `recover_collection_install`, one at a time. A
rename onto a directory that is there fails. -/
def call (out : Label) : State D :=
  match s.pc with
  | .release => s.goto (if out = .ok then .clearOld else .idle)
  | .clearOld =>
    if s.root.old.isNone then s.goto .mark
    else (s.setOld (removed s.root.old out)).goto (if out = .ok then .mark else .idle)
  | .mark =>
    if out = .ok then
      (s.setTmp (marked s.root.tmp true)).goto (if s.root.live.isSome then .backup else .swap false)
    else s.goto .idle
  | .backup =>
    if out = .ok then ((s.setOld s.root.live).setLive none).goto (.swap true) else s.goto .idle
  | .swap hadOld =>
    if out = .ok then ((s.setLive s.root.tmp).setTmp none).goto (.opening hadOld)
    else s.goto (if hadOld then .restore else .idle)
  | .restore =>
    if out = .ok then ((s.setLive s.root.old).setOld none).goto .idle else s.goto .idle
  | .opening hadOld =>
    match s.root.live with
    | none => s.goto .idle
    | some d =>
      if out = .ok ∧ opens d.contents then { s.goto .unmark with opened := d.contents :: s.opened }
      else { s.goto (.moveBad hadOld) with refused := d.contents :: s.refused }
  | .unmark => (if out = .ok then s.setLive (marked s.root.live false) else s).goto .dropOld
  | .dropOld => (s.setOld (removed s.root.old out)).goto .idle
  | .moveBad hadOld =>
    if out = .ok then ((s.setTmp s.root.live).setLive none).goto (.undo hadOld)
    else s.goto (.removeBad hadOld)
  | .removeBad hadOld => (s.setLive (removed s.root.live out)).goto (.undo hadOld)
  | .undo hadOld =>
    if hadOld ∧ out = .ok ∧ s.root.live.isNone then
      ((s.setLive s.root.old).setOld none).goto .idle
    else s.goto .idle
  | .idle => s
  | .recover boot =>
    if s.root.live.isSome then s.goto (.unmarkLive boot)
    else if stagedInstallReady s.root.tmp then s.goto (.promote boot)
    else if s.root.tmp.isSome then s.goto (.clearTmp boot)
    else s.goto (.restoreOld boot)
  | .unmarkLive boot =>
    let s' := if out = .ok then s.setLive (marked s.root.live false) else s
    if boot ∧ s.root.tmp.isSome then s'.goto .dropTmp else s'.recovered boot
  | .dropTmp => (s.setTmp (removed s.root.tmp out)).goto .idle
  | .promote boot =>
    if out = .ok then
      { ((s.setLive s.root.tmp).setTmp none).goto (.unmarkLive boot) with
        promotions := (s.root.tmp.toList.map fun d => (d.contents, s.root.old.map Dir.contents)) ++
          s.promotions }
    else s.goto .idle
  | .clearTmp boot => (s.setTmp (removed s.root.tmp out)).goto (.restoreOld boot)
  | .restoreOld boot =>
    if out = .ok ∧ s.root.old.isSome then ((s.setLive s.root.old).setOld none).recovered boot
    else s.goto .idle
  | .openLive =>
    match s.root.live with
    | none => s.goto .idle
    | some d =>
      if out = .ok ∧ opens d.contents
        then { s.goto .dropBackup with opened := d.contents :: s.opened }
      else s.goto .idle
  | .dropBackup => (s.setOld (removed s.root.old out)).goto .idle

end State

/-- A call with its outcome, a crash, or the start of a recovery. `lookup_collection` recovers only
when there is something to recover. -/
def step (s : State D) : Label → Option (State D)
  | .crash => some (s.goto .idle)
  | .boot => if s.pc = .idle then some (s.goto (.recover true)) else none
  | .lookup =>
    if s.pc = .idle ∧ (s.root.live.isSome ∨ s.root.old.isSome ∨ stagedInstallReady s.root.tmp) then
      some (s.goto (.recover false))
    else none
  | out => if s.pc = .idle then none else some (s.call opens out)

/-- The call that opens the staged directory does not fail for a reason outside the directory. -/
def OpenRuns (s : State D) : Label → Prop
  | .fail | .partway _ => ∀ hadOld, s.pc ≠ .opening hadOld
  | _ => True

/-- The state in which `install_staged_collection` begins. -/
def start (r : Root D) : State D := ⟨r, .release, [], [], []⟩

/-- What a collection is before the install: the live directory, or else the backup a lookup would
bring back. -/
def former (r : Root D) : Option (Contents D) := (r.live <|> r.old).map Dir.contents

def settles (r : Root D) : Option (Contents D) :=
  match r.live with
  | some d => some d.contents
  | none => if stagedInstallReady r.tmp then r.tmp.map Dir.contents else r.old.map Dir.contents

/-- The swap is atomic in this state, for an install that began with `former` and `staged`. -/
structure Safe (former : Option (Contents D)) (staged : Contents D) (s : State D) : Prop where
  /-- A recovery ends with the old collection, or with the staged one, which then opens. -/
  settles : settles s.root = former ∨ settles s.root = some staged ∧ opens staged
  /-- What did not open is never promoted over a backup that opens. -/
  promotions : ∀ p ∈ s.promotions, p.1 ∈ s.refused → ∀ c ∈ p.2, opens c = false
  /-- The old collection is there until the staged one has been opened. -/
  kept : ∀ c ∈ former, s.root.live.map Dir.contents = some c ∨
    s.root.old.map Dir.contents = some c ∨ staged ∈ s.opened

end DewDB.CollectionInstall
