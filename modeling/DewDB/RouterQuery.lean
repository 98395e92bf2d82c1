import DewDB.KeyOwnership
import DewDB.SortedPages

/-!
# A query over all shards

The router asks the shards that own the keys and puts their pages together. An unsorted page splits
its limit over the shards that are still in the scan, and its cursor has a position for each of
them. A sorted page asks every shard for the whole limit behind one position in the sort order and
merges. A shard answers for its group from documents at rest; which node of the group it is, and
which indexes that node has built, may differ from page to page.
-/
namespace DewDB.RouterQuery

open Endpoint TokenRing Vote ClusterMeta KeyOwnership JsonValue QueryFilter Secondary QuerySort
  QueryScan QueryPages SortedPages Std

variable {N : Type} [Number N] [DecidableEq N]

inductive Refusal where
  | badRequest (message : String)
  | staleRing
  | collectionAbsent
  | internal (message : String)
  deriving DecidableEq

structure KeyCursor where
  key : Key
  ring : Option ℕ

/-- A position for each shard that is still in the scan; `none` is a shard with no rows spent. -/
structure ShardCursor where
  ring : ℕ
  positions : List (Url × Option KeyCursor)

inductive Cursor (N : Type) where
  | shards (c : ShardCursor)
  | sorted (c : SortCursor N)

structure QueryParams (N : Type) where
  start : Option Key
  stop : Option Key
  filter : Option (QueryFilter.Filter N)
  sort : Option SortOrder
  limit : Option ℕ
  maxDocs : Option ℕ

structure QueryPage (N C : Type) where
  rows : List (SortedRow N)
  nextCursor : Option C

/-- The node that answers for a group, and the collection it holds if it holds one. -/
structure Node (N : Type) [Number N] where
  ownUrl : Url
  col : Option (Collection N)

inductive Reply (N C : Type) where
  | page (page : QueryPage N C)
  | absent
  | refused (e : Refusal)

def maxAggregateScan : ℕ := 1000000

def defaultAggregateScan : ℕ := 100000

def defaultQueryLimit : ℕ := 100

def shardShares (limit shards : ℕ) : List ℕ :=
  if shards = 0 then []
  else (List.range shards).map fun i => limit / shards + if i < limit % shards then 1 else 0

def Refusal.ofIoError (e : IoError) : Refusal :=
  if e.kind = .invalidInput then .badRequest e.message else .internal e.message

namespace QueryParams

variable {M : Type} (p : QueryParams M)

def budget : Except Refusal ℕ :=
  match p.maxDocs with
  | some n => if maxAggregateScan < n
      then .error (.badRequest s!"max_docs {n} exceeds the maximum of {maxAggregateScan}")
      else .ok (max n 1)
  | none => .ok defaultAggregateScan

def pageLimit : Except Refusal ℕ :=
  match p.limit with
  | some n => if maxQueryLimit < n then
      .error (.badRequest s!"limit {n} exceeds the maximum of {maxQueryLimit}; page with `cursor`")
      else .ok (max n 1)
  | none => .ok defaultQueryLimit

def checkKeyRange : Except Refusal Unit :=
  match p.start, p.stop with
  | some s, some e => if strCmp s e = .gt then
      .error (.badRequest s!"start `{String.ofList s}` is above end `{String.ofList e}`; both bounds are inclusive and ascending")
      else .ok ()
  | _, _ => .ok ()

end QueryParams

section Shards

variable (xxh64 : Xxh64) (v : ClusterMetadata) (collection : CollectionName) (node : Node N)
  (p : QueryParams N)

def includes (key : Key) : Bool :=
  (scanOwnership xxh64 v (ringsOf xxh64 v) node.ownUrl collection).includes xxh64 key

/-- `query_docs` of a shard without a sort. -/
def shardPage (limit : ℕ) (cursor : Option KeyCursor) : Reply N KeyCursor :=
  match p.budget, { p with limit := some limit }.pageLimit, p.checkKeyRange with
  | .ok budget, .ok limit, .ok _ =>
    if cursor.any fun c => c.ring.any fun r => r != partitionFingerprint xxh64 v
      then .refused .staleRing
    else
      match node.col with
      | none => .absent
      | some col =>
        match queryPageOwned col (cursor.map KeyCursor.key) p.start p.stop p.filter limit budget
          (includes xxh64 v collection node) with
        | .ok (rows, next) => .page ⟨rows, next.map fun key =>
            ⟨key, some (partitionFingerprint xxh64 v)⟩⟩
        | .error e => .refused (.ofIoError e)
  | .error e, _, _ | _, .error e, _ | _, _, .error e => .refused e

def arityOk (order : SortOrder) (cursor : Option (SortCursor N)) : Bool :=
  cursor.all fun c => c.positions.length == order.keys.length

/-- `query_docs` of a shard with a sort. -/
def shardSortedPage (order : SortOrder) (limit : ℕ) (cursor : Option (SortCursor N)) : Reply N
    (SortCursor N) :=
  match p.budget, { p with limit := some limit }.pageLimit, p.checkKeyRange with
  | .ok budget, .ok limit, .ok _ =>
    if !arityOk order cursor then .refused
      (.badRequest "cursor does not belong to this sorted query")
    else
      match node.col with
      | none => .absent
      | some col =>
        match sortedPageOwned col p.start p.stop p.filter order cursor limit budget
          (includes xxh64 v collection node) with
        | .ok (rows, more) =>
          .page ⟨rows, if more then rows.getLast?.map fun last =>
            .ofPosition (sortPosition last.value order) last.key
            else none⟩
        | .error e => .refused (.ofIoError e)
  | .error e, _, _ | _, .error e, _ | _, _, .error e => .refused e

end Shards

/-- What the loop over the replies to an unsorted query has come to. -/
structure Gathered (N : Type) where
  rows : List (SortedRow N)
  positions : List (Url × Option KeyCursor)
  present : ℕ
  absent : ℕ

def Gathered.take (g : Gathered N) (reply : Url × Reply N KeyCursor) : Except Refusal
    (Gathered N) :=
  match reply.2 with
  | .page page => .ok { g with
      rows := g.rows ++ page.rows
      positions := g.positions ++ (page.nextCursor.map fun c => (reply.1, some c)).toList
      present := g.present + 1 }
  | .absent => .ok { g with absent := g.absent + 1 }
  | .refused e => .error e

structure Merging (N : Type) where
  lists : List (List (SortedRow N))
  received : ℕ
  shardHasMore : Bool
  present : ℕ
  absent : ℕ

def Merging.take (m : Merging N) (reply : Reply N (SortCursor N)) : Except Refusal (Merging N) :=
  match reply with
  | .page page => .ok { m with
      lists := m.lists ++ [page.rows]
      received := m.received + page.rows.length
      shardHasMore := m.shardHasMore || page.nextCursor.isSome
      present := m.present + 1 }
  | .absent => .ok { m with absent := m.absent + 1 }
  | .refused e => .error e

section Router

variable (xxh64 : Xxh64) (v : ClusterMetadata) (collection : CollectionName) (nodes : Url → Node N)
  (p : QueryParams N)

/-- The shards that are still in the scan, with the positions they resume from. -/
def activeShards (owners : List (Url × List Url)) : Option ShardCursor → List
    (Url × Option KeyCursor)
  | none => owners.map fun o => (o.1, none)
  | some c => owners.filterMap fun o => (c.positions.lookup o.1).map fun after => (o.1, after)

/-- `router_query` without a sort. A shard without a share keeps its position. -/
def routerPage (limit : ℕ) (cursor : Option ShardCursor) : Except Refusal
    (QueryPage N ShardCursor) :=
  let ring := partitionFingerprint xxh64 v
  if cursor.any fun c => c.ring != ring then .error .staleRing
  else do
    let active := activeShards v.forget.shardOwners cursor
    let split := active.zip (shardShares limit active.length)
    let replies := (split.filter fun s => s.2 != 0).map fun s =>
      (s.1.1, shardPage xxh64 v collection (nodes s.1.1) p s.2 s.1.2)
    let carried := (split.filter fun s => s.2 == 0).map Prod.fst
    let g ← replies.foldlM Gathered.take ⟨[], carried, 0, 0⟩
    if g.present = 0 ∧ 0 < g.absent ∧ g.positions = [] then .error .collectionAbsent
    else return ⟨g.rows, if g.positions = [] then none else some ⟨ring, g.positions⟩⟩

/-- `router_query` with a sort. -/
def routerSortedPage (order : SortOrder) (limit : ℕ) (cursor : Option (SortCursor N)) :
    Except Refusal (QueryPage N (SortCursor N)) := do
  let replies := v.forget.shardOwners.map fun o =>
    shardSortedPage xxh64 v collection (nodes o.1) p order limit cursor
  let m ← replies.foldlM Merging.take ⟨[], 0, false, 0, 0⟩
  if m.present = 0 ∧ 0 < m.absent then .error .collectionAbsent
  else
    let merged := kwayMerge m.lists order limit
    return ⟨merged, if m.shardHasMore ∨ merged.length < m.received then
      merged.getLast?.map fun last => .ofPosition (sortPosition last.value order) last.key
        else none⟩

/-- `query_docs` of a router. -/
def routerQuery (cursor : Option (Cursor N)) : Except Refusal (QueryPage N (Cursor N)) := do
  let _ ← p.budget
  let limit ← p.pageLimit
  let _ ← p.checkKeyRange
  match p.sort, cursor with
  | some order, some (.sorted c) =>
    if !arityOk order (some c)
      then .error (.badRequest "cursor does not belong to this sorted query")
    else
      let page ← routerSortedPage xxh64 v collection nodes p order limit (some c)
      return ⟨page.rows, page.nextCursor.map .sorted⟩
  | some order, none =>
    let page ← routerSortedPage xxh64 v collection nodes p order limit none
    return ⟨page.rows, page.nextCursor.map .sorted⟩
  | some _, some (.shards _) => .error (.badRequest "cursor does not belong to this sorted query")
  | none, some (.shards c) =>
    let page ← routerPage xxh64 v collection nodes p limit (some c)
    return ⟨page.rows, page.nextCursor.map .shards⟩
  | none, none =>
    let page ← routerPage xxh64 v collection nodes p limit none
    return ⟨page.rows, page.nextCursor.map .shards⟩
  | none, some (.sorted _) => .error (.badRequest "cursor does not belong to this query")

end Router

/-- Follows the cursors: the pages, and the refusal that the walk ended with if it did not end with
a page. -/
def followRouter (xxh64 : Xxh64) (v : ClusterMetadata) (collection : CollectionName)
    (nodes : ℕ → Url → Node N)
    (p : QueryParams N) : ℕ → ℕ → Option (Cursor N) →
      Option (List (List (SortedRow N)) × Option Refusal)
  | 0, _, _ => none
  | fuel + 1, i, cursor =>
    match routerQuery xxh64 v collection (nodes i) p cursor with
    | .error e => some ([], some e)
    | .ok ⟨rows, none⟩ => some ([rows], none)
    | .ok ⟨rows, some c⟩ =>
      (followRouter xxh64 v collection nodes p fuel (i + 1) (some c)).map fun w =>
        (rows :: w.1, w.2)

section Placement

variable (xxh64 : Xxh64) (v : ClusterMetadata) (collection : CollectionName)

def ownerOf (key : Key) : Option Url :=
  (configuredShard v (ringsOf xxh64 v) (hashKey xxh64 collection key)).map Prod.fst

/-- The key is owned by the shard with this address, however it is spelled. -/
def Owns (o : Url) (key : Key) : Prop := ∃ u ∈ ownerOf xxh64 v collection key, nodeKey u = nodeKey o

instance (o : Url) (key : Key) : Decidable (Owns xxh64 v collection o key) :=
  inferInstanceAs (Decidable (∃ u ∈ ownerOf xxh64 v collection key, _))

def Stored (nodes : ℕ → Url → Node N) (o : Url) (key : Key) (doc : Json N) : Prop :=
  ∃ col, (nodes 0 o).col = some col ∧ col.docs[key]? = some doc

/-- The documents are at rest and each is at the shard that owns it. A shard of a ring may hold
others beside its own, which its scans leave out; a range map has no such filter. -/
structure Placed (docs : ExtTreeMap Key (Json N) strCmp) (nodes : ℕ → Url → Node N) : Prop where
  answers : ∀ i, ∀ o ∈ v.forget.shardOwners, ClusterView.names o (nodes i o.1).ownUrl = true
  live : ∀ i o, ∀ col ∈ (nodes i o).col, col.released = false
  static : ∀ i o, (nodes i o).col.map Collection.docs = (nodes 0 o).col.map Collection.docs
  stored : ∀ o ∈ v.forget.shardOwners, ∀ key doc, Owns xxh64 v collection o.1 key →
    (Stored nodes o.1 key doc ↔ docs[key]? = some doc)
  onlyOwned : v.ring = none → ∀ o ∈ v.forget.shardOwners, ∀ key doc, Stored nodes o.1 key doc →
    Owns xxh64 v collection o.1 key

end Placement

end DewDB.RouterQuery
