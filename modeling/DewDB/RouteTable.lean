import DewDB.Routing
import DewDB.Utf8Order

/-!
# The route table

The paths that a node answers on, with the handler of each method. A path is routed as it is
written, by its segments, and only the values of its parameters are percent-decoded.
-/
namespace DewDB.RouteTable

open Routing
open Utf8Order (asciiChars toList_eq_asciiChars)

inductive Method where
  | get
  | head
  | post
  | put
  | patch
  | delete
  | other
  deriving DecidableEq

inductive Handler where
  | health
  | metrics
  | cluster
  | join
  | leave
  | configuration
  | setConfiguration
  | setRing
  | transferLeadership
  | startMigration
  | migrationStatus
  | abortMigration
  | rebalanceStatus
  | listCollections
  | dropCollection
  | compactCollection
  | listIndexes
  | createIndex
  | dropIndex
  | getTtl
  | setTtl
  | deleteTtl
  | snapshotCollection
  | createDoc
  | listDocs
  | bulkCreateDocs
  | queryDocs
  | aggregateDocs
  | streamChanges
  | wsChanges
  | listWebhooks
  | createWebhook
  | getWebhook
  | deleteWebhook
  | getDoc
  | putDoc
  | updateDoc
  | deleteDoc
  | clusterView
  | clusterUpdate
  | replicate
  | snapshot
  | electionHistories
  | electionSnapshot
  | resync
  | vote
  | preVote
  | timeoutNow
  | heartbeat
  | dataSummary
  | migrate
  | migrateReset
  | migrateCleanup
  | internalMigrationStatus
  deriving DecidableEq

abbrev MethodRouter := List (Method × Handler)

def get (h : Handler) : MethodRouter := [(.get, h), (.head, h)]

def post (h : Handler) : MethodRouter := [(.post, h)]

def put (h : Handler) : MethodRouter := [(.put, h)]

def patch (h : Handler) : MethodRouter := [(.patch, h)]

def delete (h : Handler) : MethodRouter := [(.delete, h)]

def MethodRouter.handler (r : MethodRouter) (method : Method) : Option Handler :=
  (r.find? fun e => e.1 = method).map Prod.snd

abbrev Table := List (Pattern (List Char) × MethodRouter)

def pattern (path : String) : Pattern (List Char) :=
  ((path.toList.splitOn '/').drop 1).map fun s => if s.head? = some ':' then .param else .lit s

def route (path : String) (r : MethodRouter) : Pattern (List Char) × MethodRouter :=
  (pattern path, r)

theorem route_eq_ascii (path : String) (r : MethodRouter) : route path r =
    (((asciiChars path).splitOn '/' |>.drop 1).map fun s =>
      if s.head? = some ':' then .param else .lit s, r) := by
  rw [route, pattern, toList_eq_asciiChars]

def publicRoutes : Table := [
  route "/health" (get .health),
  route "/metrics" (get .metrics),
  route "/cluster" (get .cluster),
  route "/cluster/members" (post .join ++ delete .leave),
  route "/cluster/configuration" (get .configuration ++ post .setConfiguration),
  route "/cluster/ring" (post .setRing),
  route "/cluster/transfer-leadership" (post .transferLeadership),
  route "/cluster/migrate" (post .startMigration ++ get .migrationStatus ++ delete .abortMigration),
  route "/cluster/rebalance" (get .rebalanceStatus),
  route "/collections" (get .listCollections),
  route "/collections/:name" (delete .dropCollection),
  route "/collections/:name/compact" (post .compactCollection),
  route "/collections/:name/indexes" (get .listIndexes ++ post .createIndex),
  route "/collections/:name/indexes/:index" (delete .dropIndex),
  route "/collections/:name/ttl" (get .getTtl ++ put .setTtl ++ delete .deleteTtl),
  route "/collections/:name/snapshot" (post .snapshotCollection),
  route "/collections/:name/docs" (post .createDoc ++ get .listDocs),
  route "/collections/:name/docs/bulk" (post .bulkCreateDocs),
  route "/collections/:name/query" (get .queryDocs),
  route "/collections/:name/aggregate" (get .aggregateDocs),
  route "/collections/:name/changes" (get .streamChanges),
  route "/collections/:name/changes/ws" (get .wsChanges),
  route "/collections/:name/webhooks" (get .listWebhooks ++ post .createWebhook),
  route "/collections/:name/webhooks/:id" (get .getWebhook ++ delete .deleteWebhook),
  route "/collections/:name/docs/:id"
    (get .getDoc ++ put .putDoc ++ patch .updateDoc ++ delete .deleteDoc)]

def clusterRoutes : Table := [
  route "/internal/cluster" (get .clusterView ++ post .clusterUpdate)]

def shardRoutes : Table := [
  route "/internal/replicate" (post .replicate),
  route "/internal/snapshot" (get .snapshot),
  route "/internal/election-histories" (get .electionHistories),
  route "/internal/election-snapshot" (get .electionSnapshot),
  route "/internal/resync" (post .resync),
  route "/internal/vote" (post .vote),
  route "/internal/pre-vote" (post .preVote),
  route "/internal/timeout-now" (post .timeoutNow),
  route "/internal/heartbeat" (get .heartbeat),
  route "/internal/data-summary" (get .dataSummary),
  route "/internal/migrate" (post .migrate),
  route "/internal/migrate-reset" (post .migrateReset),
  route "/internal/migrate-cleanup" (post .migrateCleanup),
  route "/internal/migration-status" (get .internalMigrationStatus)]

def buildApp (shard : Bool) :
    Table := publicRoutes ++ clusterRoutes ++ if shard then shardRoutes else []

def segments : List Char → Option (List (List Char))
  | '/' :: rest => some (rest.splitOn '/')
  | _ => none

theorem eq_cons_of_segments {path : List Char} {segs : List (List Char)}
    (h : segments path = some segs) : ∃ rest, path = '/' :: rest ∧ rest.splitOn '/' = segs := by
  unfold segments at h
  split at h
  · exact ⟨_, rfl, Option.some.inj h⟩
  · cases h

/-- The handler that a request reaches, with the values of the path's parameters. -/
def Table.reaches (table : Table) (path : List Char) (method : Method) : Option
    (Handler × List (List Char)) :=
  (segments path).bind fun segs =>
    (dispatch List.isEmpty table segs).bind fun found =>
      (found.1.handler method).map fun h => (h, found.2)

theorem follows_of_reaches {table : Table} {path : List Char} {method : Method} {h : Handler}
    {values : List (List Char)} (hreach : table.reaches path method = some (h, values)) :
    ∃ segs, segments path = some segs ∧ ∃ pattern r, (pattern, r) ∈ table ∧
      r.handler method = some h ∧ Follows List.isEmpty pattern segs values := by
  obtain ⟨segs, hsegs, hreach⟩ := Option.bind_eq_some_iff.mp hreach
  obtain ⟨⟨r, values'⟩, hfound, hreach⟩ := Option.bind_eq_some_iff.mp hreach
  obtain ⟨h', hhandler, heq⟩ := Option.map_eq_some_iff.mp hreach
  cases heq
  obtain ⟨pattern, hmem, hfollows⟩ := follows_of_dispatch hfound
  exact ⟨segs, hsegs, pattern, r, hmem, hhandler, hfollows⟩

example : (buildApp true).reaches "/collections/c/docs/k".toList .put =
    some (.putDoc, ["c".toList, "k".toList]) := by
  simp only [buildApp, publicRoutes, clusterRoutes, shardRoutes, route_eq_ascii,
    toList_eq_asciiChars]
  decide

end DewDB.RouteTable
