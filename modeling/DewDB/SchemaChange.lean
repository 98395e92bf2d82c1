import DewDB.DurableAgreement
import DewDB.RouterForward
import DewDB.WriteConcern

/-!
# Requests that change a schema

Dropping a collection, defining and dropping an index, and setting and clearing a TTL, as a leader
handles them and as a router sends them to every group. A change is an entry in the collection's log
and, apart from it, an entry of the catalogue; each handler records it there before it appends. How
an append goes is left open.

In a round of gossip a node takes the newer entries of every catalogue that it can fetch, adopts the
best view of the round, and hands its own to the nodes that differ. A leader then appends what its
collections lack of the catalogue and drops what the catalogue does not name.
-/
namespace DewDB.SchemaChange

open ReplicationMeta (NodeId)
open Concern Vote StorageEntry ClusterMeta RouterForward
open CatalogMerge hiding supersedes_iff not_supersedes_self
open DurableView (CatalogUpdate)

section Nodes

variable {V H : Type}

structure Log (V H : Type) where
  entries : List (LogEntry V H)
  committed : ℕ

namespace Log

variable (l : Log V H)

def settled : Settings H := (l.entries.take l.committed).foldl Settings.replay .fresh

def inForce : Settings H := l.entries.foldl Settings.replay .fresh

def isDropped : Bool := l.settled.dropped

def activeIndexSpecs : List IndexSpec := l.inForce.indexes

def activeTtlSecs : Option ℕ := l.inForce.ttlSecs

def append (e : LogEntry V H) : Log V H := { l with entries := l.entries ++ [e] }

end Log

structure Node (V H : Type) where
  nodeId : NodeId
  leading : Bool
  view : ClusterMetadata
  collections : CollectionName → Option (Log V H)

def isSystemCollection (name : CollectionName) : Bool := name.head? = some '_'

/-- What an append meets: it is stopped before the log, or the entry is in the log and the answer is
a failure, or that it is there with or without its quorum. -/
inductive Fate where
  | stopped (unavailable : Bool)
  | failed (ts : ℕ) (unavailable : Bool)
  | staged (ts : ℕ) (met : Bool)

def Fate.ts? : Fate → Option ℕ
  | .stopped _ => none
  | .failed ts _ | .staged ts _ => some ts

/-- Whether a request can read the directory, and what its append meets. -/
structure Circumstances where
  readable : Bool
  fate : Fate

namespace Node

variable (n : Node V H)

def finalizing : Bool := n.view.migration.any fun m => m.phase = .finalizing

def present (c : CollectionName) : Bool :=
  !isSystemCollection c && (n.collections c).any fun l => !l.isDropped

def record (u : CatalogUpdate) : Node V H := { n with view := (u.applyTo n.nodeId n.view).1 }

def append (c : CollectionName) (e : LogEntry V H) : Node V H :=
  { n with collections :=
    Function.update n.collections c (some (((n.collections c).getD ⟨[], 0⟩).append e)) }

def failureStatus (unavailable : Bool) : ℕ := if unavailable then 503 else 500

def localEntry (c : CollectionName) (entry : ℕ → LogEntry V H) : Fate → Node V H × Except ℕ Bool
  | .stopped unavailable => (n, .error (failureStatus unavailable))
  | .failed ts unavailable => (n.append c (entry ts), .error (failureStatus unavailable))
  | .staged ts met => (n.append c (entry ts), .ok met)

def localDrop (c : CollectionName) (fate : Fate) : Node V H × Except ℕ Bool :=
  n.localEntry c .drop fate

def localIndexChange (c : CollectionName) (change : IndexChange) (fate : Fate) :
    Node V H × Except ℕ Bool :=
  n.localEntry c (.index change) fate

def localTtlChange (c : CollectionName) (ttlSecs : Option ℕ) (fate : Fate) :
    Node V H × Except ℕ Bool :=
  n.localEntry c (.ttl ttlSecs) fate

def answer (done : ℕ) : Node V H × Except ℕ Bool → Node V H × ℕ
  | (n, .error status) => (n, status)
  | (n, .ok met) => (n, if met then done else 202)

variable (c : CollectionName) (w : Option (List Char)) (e : Circumstances)

def dropCollection : Node V H × ℕ :=
  if !n.leading then (n, 403)
  else if n.finalizing then (n, 503)
  else if !e.readable then (n, 500)
  else
    let recorded := n.record (.forget c)
    if !n.present c then (recorded, 200)
    else
      -- The write concern is read only now.
      match parseWriteConcern w with
      | none => (recorded, 400)
      | some _ => answer 200 (recorded.localDrop c e.fate)

def createIndex (name field : String) : Node V H × ℕ :=
  if !n.leading then (n, 403)
  else if !validIndexName name then (n, 400)
  else if !validFieldPath field then (n, 400)
  else
    match parseWriteConcern w with
    | none => (n, 400)
    | some _ =>
      if !e.readable then (n, 500)
      else
        match n.collections c with
        | none => (n, 404)
        | some col =>
          let change := IndexChange.create ⟨name, field⟩
          match specNamed col.activeIndexSpecs name with
          | some current => if current.field ≠ field then (n, 409)
              else (n.record (.index c change), 200)
          | none =>
            if maxIndexesPerCollection ≤ col.activeIndexSpecs.length then (n, 409)
            else answer 201 ((n.record (.index c change)).localIndexChange c change e.fate)

def dropIndex (name : String) : Node V H × ℕ :=
  if !n.leading then (n, 403)
  else
    match parseWriteConcern w with
    | none => (n, 400)
    | some _ =>
      if !e.readable then (n, 500)
      else
        match n.collections c with
        | none => (n, 404)
        | some col =>
          let recorded := n.record (.index c (.drop name))
          if (specNamed col.activeIndexSpecs name).isNone then (recorded, 200)
          else answer 200 (recorded.localIndexChange c (.drop name) e.fate)

def setTtl (ttlSecs : ℕ) : Node V H × ℕ :=
  if ttlSecs = 0 then (n, 400)
  else if !n.leading then (n, 403)
  else
    match parseWriteConcern w with
    | none => (n, 400)
    | some _ =>
      if !e.readable then (n, 500)
      else if (n.collections c).isNone then (n, 404)
      else answer 200 ((n.record (.ttl c (some ttlSecs))).localTtlChange c (some ttlSecs) e.fate)

def deleteTtl : Node V H × ℕ :=
  if !n.leading then (n, 403)
  else
    match parseWriteConcern w with
    | none => (n, 400)
    | some _ =>
      if !e.readable then (n, 500)
      else
        match n.collections c with
        | none => (n, 404)
        | some col =>
          let recorded := n.record (.ttl c none)
          if col.activeTtlSecs.isNone then (recorded, 200)
            else answer 200 (recorded.localTtlChange c none e.fate)

end Node

inductive Change where
  | dropCollection
  | createIndex (name field : String)
  | dropIndex (name : String)
  | setTtl (ttlSecs : ℕ)
  | deleteTtl
  deriving DecidableEq

/-- A request, with the write concern as the node that handles it reads it. -/
structure Request where
  collection : CollectionName
  change : Change
  w : Option (List Char)

def Request.update (r : Request) : CatalogUpdate :=
  match r.change with
  | .dropCollection => .forget r.collection
  | .createIndex name field => .index r.collection (.create ⟨name, field⟩)
  | .dropIndex name => .index r.collection (.drop name)
  | .setTtl ttlSecs => .ttl r.collection (some ttlSecs)
  | .deleteTtl => .ttl r.collection none

def collectionPath (name : CollectionName) : Option ℕ :=
  if isSystemCollection name then some 403 else if !validCollectionName name then some 400 else none

def Node.handle (n : Node V H) (r : Request) (e : Circumstances) : Node V H × ℕ :=
  match collectionPath r.collection with
  | some status => (n, status)
  | none =>
    match r.change with
    | .dropCollection => n.dropCollection r.collection r.w e
    | .createIndex name field => n.createIndex r.collection r.w e name field
    | .dropIndex name => n.dropIndex r.collection r.w e name
    | .setTtl ttlSecs => n.setTtl r.collection r.w e ttlSecs
    | .deleteTtl => n.deleteTtl r.collection r.w e

end Nodes

section Routing

variable {ι κ V H : Type}

structure Router where
  nodeId : NodeId
  view : ClusterMetadata

def Router.record (k : Router) (u : CatalogUpdate) : Router :=
  { k with view := (u.applyTo k.nodeId k.view).1 }

structure Cluster (ι κ V H : Type) where
  shards : ι → Node V H
  routers : κ → Router

inductive Contact where
  | unreachable
  | reached (e : Circumstances) (answered : Bool)

abbrev Candidates (ι : Type) := List (ι × Contact)

variable [DecidableEq ι] [DecidableEq κ]

/-- One group: the candidates are asked until one of them answers authoritatively. -/
def askGroup (r : Request) (shards : ι → Node V H) : Candidates ι → (ι → Node V H) × Option ℕ
  | [] => (shards, none)
  | (_, .unreachable) :: rest => askGroup r shards rest
  | (i, .reached e answered) :: rest =>
    let (n, status) := (shards i).handle r e
    let shards := Function.update shards i n
    if answered && authoritativeWriteStatus status then (shards, some status)
      else askGroup r shards rest

def fanoutToOwners (r : Request) (shards : ι → Node V H) :
    List (Candidates ι) → (ι → Node V H) × List (Option ℕ)
  | [] => (shards, [])
  | group :: groups =>
    let (shards, result) := askGroup r shards group
    let (shards, results) := fanoutToOwners r shards groups
    (shards, result :: results)

def countStatus (p : ℕ → Bool) (results : List (Option ℕ)) : ℕ := results.countP fun s => s.any p

def dropStatus (results : List (Option ℕ)) : ℕ :=
  let pending := countStatus (fun s => s == 202) results
  let done := countStatus (fun s => s < 300 && s != 202) results
  if done = results.length then 200 else if done + pending = results.length then 202 else 207

def changeStatus (create : Bool) (results : List (Option ℕ)) : ℕ :=
  let absent := countStatus (fun s => s == 404) results
  let pending := countStatus (fun s => s == 202) results
  let done := countStatus (fun s => s < 300 && s != 202) results
  let created := countStatus (fun s => s == 201) results
  if done = 0 ∧ pending = 0 ∧ 0 < absent then 404
  else if done + absent = results.length then
    if create ∧ 0 < created ∧ created = done then 201 else 200
  else if done + pending + absent = results.length then 202
  else 207

/-- Whether the router records the change once the groups have answered. -/
def Request.routerRecords (r : Request) (results : List (Option ℕ)) : Bool :=
  match r.change with
  | .dropCollection => isSuccess (dropStatus results)
  | .createIndex .. => changeStatus true results != 404
  | _ => changeStatus false results != 404

inductive Target (ι κ : Type) where
  | shard (i : ι) (e : Circumstances)
  | router (k : κ) (groups : List (Candidates ι))

/-- How a request was answered: by the node that it was sent to, or by the groups that a router sent
it to. -/
inductive Answer where
  | node (status : ℕ)
  | groups (results : List (Option ℕ))
  deriving DecidableEq

def Request.routerRefusal (r : Request) : Option ℕ :=
  (collectionPath r.collection).or (if r.change = .setTtl 0 then some 400 else none)

def Cluster.serve (w : Cluster ι κ V H) (r : Request) : Target ι κ → Cluster ι κ V H × Answer
  | .shard i e =>
    let (n, status) := (w.shards i).handle r e
    ({ w with shards := Function.update w.shards i n }, .node status)
  | .router k groups =>
    match r.routerRefusal with
    | some status => (w, .node status)
    | none =>
      let (shards, results) := fanoutToOwners r w.shards groups
      let routers := if r.routerRecords results then
          Function.update w.routers k ((w.routers k).record r.update)
        else w.routers
      (⟨shards, routers⟩, .groups results)

def isClientError (status : ℕ) : Bool := 400 ≤ status && status < 500

def Answer.refused : Answer → Bool
  | .node status => isClientError status
  | .groups results => !results.isEmpty && results.all fun s => s.any isClientError

end Routing

section Rounds

variable {ι κ V H : Type} [DecidableEq ι] [DecidableEq κ]

section Gossip

def Cluster.view (w : Cluster ι κ V H) : ι ⊕ κ → ClusterMetadata
  | .inl i => (w.shards i).view
  | .inr k => (w.routers k).view

def Cluster.setView (w : Cluster ι κ V H) (v : ClusterMetadata) : ι ⊕ κ → Cluster ι κ V H
  | .inl i => { w with shards := Function.update w.shards i { w.shards i with view := v } }
  | .inr k => { w with routers := Function.update w.routers k { w.routers k with view := v } }

def fetchedView (v : ClusterMetadata) : Option ClusterMetadata :=
  if v.sanitized.validate = .ok () then some v.sanitized else none

/-- The best view of a round of those that supersede the node's own. -/
def winner (own : ClusterMetadata) (best : Option ClusterMetadata) (theirs : ClusterMetadata) :
    Option ClusterMetadata :=
  if theirs.supersedes own && best.all fun b => theirs.supersedes b then some theirs else best

/-- One round of gossip at `a`: `fetched` are the peers whose views it gets and `handed` those that
its own view reaches. -/
def gossipCatalog (fingerprint : IndexCatalog → ℕ) (w : Cluster ι κ V H) (a : ι ⊕ κ)
    (fetched handed : List (ι ⊕ κ)) : Cluster ι κ V H :=
  let own := w.view a
  let views := fetched.filterMap fun b => (fetchedView (w.view b)).map fun v => (b, v)
  let merged := views.foldl (fun v p => (v.mergeFrom p.2.indexCatalog).1) own
  let best := views.foldl (fun best p => winner own best p.2) none
  let next := best.elim merged fun b => (adopt merged b).1
  let behind := views.filter fun p =>
    fingerprint p.2.indexCatalog != fingerprint next.indexCatalog && handed.contains p.1
  behind.foldl (fun w p => w.setView (adopt (w.view p.1) next).1 p.1) (w.setView next a)

end Gossip

section Reconcile

def diff (want own : List IndexSpec) : List IndexSpec × List String :=
  (want.filter fun spec => spec ∉ own,
    (own.filter fun spec => !want.any fun s => s.name == spec.name).map IndexSpec.name)

namespace Node

/-- The appends of one collection, until one of them fails; also what is left of the fates. -/
def reconcileIndexes (n : Node V H) (c : CollectionName) :
    List IndexChange → List Fate → Node V H × List Fate
  | [], fates => (n, fates)
  | _, [] => (n, [])
  | change :: changes, fate :: fates =>
    match n.localIndexChange c change fate with
    | (n, .ok _) => reconcileIndexes n c changes fates
    | (n, .error _) => (n, fates)

def reconcileTtl (n : Node V H) (c : CollectionName) (ttlSecs : Option ℕ) :
    List Fate → Node V H × List Fate
  | [] => (n, [])
  | fate :: fates => ((n.localTtlChange c ttlSecs fate).1, fates)

def reconcileEntry (n : Node V H) (fates : List Fate) (c : CollectionName)
    (entry : CollectionIndexes) : Node V H × List Fate :=
  match n.collections c with
  | none => (n, fates)
  | some col =>
    if isSystemCollection c || col.isDropped then (n, fates)
    else
      let (create, drop) := diff entry.indexes col.activeIndexSpecs
      let (n, fates) := n.reconcileIndexes c (create.map .create ++ drop.map .drop) fates
      let active := ((n.collections c).map Log.activeTtlSecs).getD none
      if active ≠ entry.ttlSecs then n.reconcileTtl c entry.ttlSecs fates else (n, fates)

/-- A pass over the catalogue, with the fates of its appends; an append without one is not made. -/
def reconcileLocalIndexes (n : Node V H) (fates : List Fate) : Node V H :=
  if !n.leading then n
  else (n.view.indexCatalog.toList.foldl (fun s p => reconcileEntry s.1 s.2 p.1 p.2) (n, fates)).1

end Node

end Reconcile

section Rounds

/-- What goes on after a request: rounds at a node, and appended entries that commit. -/
inductive Round (ι κ : Type) where
  | gossip (a : ι ⊕ κ) (fetched handed : List (ι ⊕ κ))
  | reconcile (i : ι) (fates : List Fate)
  | commit (i : ι) (c : CollectionName) (committed : ℕ)

def Node.commit (n : Node V H) (c : CollectionName) (committed : ℕ) : Node V H :=
  { n with collections := Function.update n.collections c ((n.collections c).map fun l =>
      { l with committed := max l.committed (min committed l.entries.length) }) }

def step (fingerprint : IndexCatalog → ℕ) (w : Cluster ι κ V H) : Round ι κ → Cluster ι κ V H
  | .gossip a fetched handed => gossipCatalog fingerprint w a fetched handed
  | .reconcile i fates =>
    { w with shards := Function.update w.shards i ((w.shards i).reconcileLocalIndexes fates) }
  | .commit i c committed =>
      { w with shards := Function.update w.shards i ((w.shards i).commit c committed) }

def runRounds (fingerprint : IndexCatalog → ℕ) (w : Cluster ι κ V H) (rounds : List (Round ι κ)) :
    Cluster ι κ V H :=
  rounds.foldl (step fingerprint) w

end Rounds

end Rounds

end DewDB.SchemaChange
