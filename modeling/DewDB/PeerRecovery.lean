import DewDB.CatalogMerge
import DewDB.CollectionInstall
import DewDB.CollectionLog

/-!
# Recovering a collection from a peer

A node that could not win an election takes over the newer log of a peer. `recover_from_peer`
samples the local tail, downloads the peer's snapshot next to the collection, has
`prepare_election_snapshot` compare the two and swaps the directories. The write gate and the
install lock keep out client writes, replicated frames and commit notices meanwhile, not the tasks
that a former leadership left behind.
-/
namespace DewDB.PeerRecovery

open CollectionInstall CollectionLog Endpoint QuorumConfig Vote

variable {β : Type}

/-- `last_appended`. -/
def lastAppended (col : Collection β) : LogTail := ⟨col.lastAppendedTerm, col.lastAppendedLsn⟩

structure Standing where
  isLeader : Bool
  currentTerm : ℕ
  quorumConfig : Configuration
  resyncing : Bool

structure Status where
  code : ℕ
  text : String

def Status.isSuccess (s : Status) : Bool := 200 ≤ s.code && s.code < 300

/-- A staging directory: what its index and its watermark file say, and what it opens as. -/
structure Staged (β : Type) where
  indexLastLsn : Except String ℕ
  appliedMeta : Except String ℕ
  opened : Except String (Collection β)

inductive LateOp (β : Type) where
  | append (lsn term : ℕ) (entry : β)
  | commit (lsn : ℕ)

def LateOp.apply (col : Collection β) : LateOp β → Collection β
  | .append lsn term entry => col.append lsn term entry
  | .commit lsn => col.applyCommitted lsn

def after (ops : List (LateOp β)) (local? : Option (Collection β)) : Option (Collection β) :=
  if ops.isEmpty then local? else some (ops.foldl LateOp.apply (local?.getD .empty))

inductive Copy (β : Type) where
  | own (col : Collection β)
  | peer (col : Collection β)

def Copy.collection : Copy β → Collection β
  | .own col => col
  | .peer col => col

/-- What the call meets: the node at its checks, the directories, what the peer and the file system
answer, and the operations before and after the watermark is read. `lookup_collection` finds nothing
only where there is no backup and no install to finish. `saved` is the watermark in the files, which
stays behind when it cannot be written. -/
structure Env (β : Type) where
  hasDatabase : Bool
  atCall : Standing
  atStart : Standing
  atEnd : Standing
  lookup : Except String Unit
  live : Option (Collection β)
  saved : ℕ
  old : Option (Dir (Copy β))
  tmp : Option (Dir (Copy β))
  found : lookup = .ok () → live = none → old = none ∧ stagedInstallReady tmp = false
  response : Except String Status
  wipe : Label
  create : Except String Unit
  received : Except String (Staged β)
  remains : Option (Contents (Copy β))
  meanwhile : List (LateOp β)
  since : List (LateOp β)
  persist : Except String Unit
  saveIndex : Except String Unit
  io : Pc → Label
  ioError : String
  cleanup : Label

def validateStagedSnapshot (d : Staged β) (localApplied : ℕ) : Except String Unit := do
  let lastLsn ← d.indexLastLsn
  let applied ← d.appliedMeta
  if lastLsn < applied then .error "snapshot applied watermark is beyond its WAL tail"
  else if applied < localApplied then
    .error ("snapshot stops at applied lsn " ++ toString applied ++
      " but this node has already published " ++ toString localApplied)
  else .ok ()

def prepareElectionSnapshot (d : Staged β) (localTail : LogTail) (localApplied : ℕ)
    (offered : LogTail)
    (term : ℕ) (persist saveIndex : Except String Unit) : Except String (Collection β) := do
  validateStagedSnapshot d 0
  let staged ← d.opened
  let tail := lastAppended staged
  if !offered.le tail || tail.le localTail || term < tail.lastTerm ||
    tail.lastLsn < localApplied then
    .error "election snapshot does not preserve the required history"
  else if staged.applied < localApplied then
    let staged := staged.applyCommitted localApplied
    persist
    if staged.applied ≠ localApplied then
      .error "election snapshot is missing the locally committed position"
    else
      saveIndex
      .ok staged
  else .ok staged

namespace Env

variable (env : Env β)

def localTail : LogTail := (env.live.map lastAppended).getD .zero

/-- The watermark behind the transfer, of the handle that was looked up before it. -/
def localApplied : ℕ :=
  ((env.live.bind fun _ => after env.meanwhile env.live).map Collection.applied).getD 0

def now : Option (Collection β) := after (env.meanwhile ++ env.since) env.live

def changed (term : ℕ) : Bool :=
  env.atEnd.isLeader || env.atEnd.currentTerm != term ||
    decide (env.atEnd.quorumConfig ≠ env.atCall.quorumConfig)

def allowed (peer : Url) (name : CollectionName) (term : ℕ) : Except String Unit :=
  if !CatalogMerge.validCollectionName name then .error "invalid election collection name"
  else if !env.atCall.quorumConfig.contains peer
    then .error "election snapshot source is not a voter"
  else if !env.hasDatabase then .error "No database"
  else if env.atStart.isLeader || env.atStart.currentTerm != term || env.atStart.resyncing then
    .error "node state changed during election recovery"
  else env.lookup

/-- What is in the staging directory when there is nothing to install. -/
def dropped : Option (Dir (Copy β)) := env.remains.map fun c => ⟨c, false⟩

/-- The transfer, and what its failure leaves in the staging directory. -/
def download : Except String (Staged β) × Option (Dir (Copy β)) :=
  match env.response with
  | .error e => (.error e, env.tmp)
  | .ok status =>
    if !status.isSuccess then (.error ("Election snapshot returned " ++ status.text), env.tmp)
    else if env.tmp.isSome && env.wipe != .ok then (.error env.ioError, removed env.tmp env.wipe)
    else
      match env.create with
      | .error e => (.error e, none)
      | .ok () => (env.received, env.dropped)

/-- Up to the swap: the collection to install, or `none` when the peer offers nothing newer. -/
def fetch (peer : Url) (name : CollectionName) (offered : LogTail) (term : ℕ) :
    Except String (Option (Collection β)) × Option (Dir (Copy β)) :=
  match env.allowed peer name term with
  | .error e => (.error e, env.tmp)
  | .ok () =>
    if offered.le env.localTail then (.ok none, env.tmp)
    else
      match env.download with
      | (.error e, tmp) => (.error e, tmp)
      | (.ok d, tmp) =>
        if env.changed term then (.error "node state changed during election recovery", tmp)
        else
          ((prepareElectionSnapshot d env.localTail env.localApplied offered term env.persist
            env.saveIndex).map some, tmp)

end Env

/-- `install_staged_collection`, with the outcome of each of its calls. A prepared directory opens,
unless the call fails. -/
def installing (io : Pc → Label) : ℕ → State (Copy β) → State (Copy β)
  | 0, s => s
  | n + 1, s => if s.pc = .idle then s else installing io n (s.call (fun _ => true) (io s.pc))

namespace Env

variable (env : Env β)

/-- Opening the directory again gives the frames that were in memory, and the watermark in the
files. -/
def reopened (col : Collection β) : Collection β :=
  { col with applied := min env.saved col.applied }

def heldDir : Option (Dir (Copy β)) := env.now.map fun col => ⟨.whole (.own col), false⟩

/-- The directory once the handle is released, which every install begins with. -/
def liveDir : Option (Dir (Copy β)) := env.now.map fun col =>
  ⟨.whole (.own (env.reopened col)), false⟩

/-- The install of a prepared collection; it makes at most nine calls. -/
def install (staged : Collection β) : State (Copy β) :=
  installing env.io 9 (start ⟨env.liveDir, env.old, some ⟨.whole (.peer staged), false⟩⟩)

/-- What a lookup would find without the recovery: the operations beside it have run. -/
def undisturbed : Option (Contents (Copy β)) := settles ⟨env.heldDir, env.old, env.tmp⟩

/-- The answer, and the directories once the staging directory has been dropped. -/
def recoverFromPeer (peer : Url) (name : CollectionName) (offered : LogTail) (term : ℕ) :
    Except String Unit × Root (Copy β) :=
  match env.fetch peer name offered term with
  | (.error e, tmp) => (.error e, ⟨env.heldDir, env.old, tmp⟩)
  | (.ok none, tmp) => (.ok (), ⟨env.heldDir, env.old, tmp⟩)
  | (.ok (some staged), _) =>
    let s := env.install staged
    (if s.opened.isEmpty then .error env.ioError else .ok (),
      { s.root with tmp := removed s.root.tmp env.cleanup })

end Env

def held : Option (Contents (Copy β)) → Collection β
  | some (.whole copy) => copy.collection
  | _ => .empty

/-- The tail is not lower, and every committed frame is still there and committed. -/
structure Kept (col col' : Collection β) : Prop where
  tail : (lastAppended col).le (lastAppended col') = true
  committed : ∀ f ∈ col.frames, f.lsn ≤ col.applied → f ∈ col'.frames ∧ f.lsn ≤ col'.applied

/-- The recovery has not moved the collection backwards, and where it failed it has left it alone:
`found` is what a lookup finds without it and `found'` what it finds afterwards. -/
structure NeverBack (result : Except String Unit)
    (found found' : Option (Contents (Copy β))) : Prop where
  kept : Kept (held found) (held found')
  alone : ∀ e, result = .error e → found' = found

end DewDB.PeerRecovery
