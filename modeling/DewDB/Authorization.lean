import DewDB.PercentCoding
import DewDB.RouteTable
import DewDB.TokenRing

/-!
# Authorization

The gate in front of the route table judges a request by its path, method and headers, with
predicates of its own on the path. It has to agree with the table: what is administrative or
internal there needs the key for it here.
-/
namespace DewDB.Authorization

open RouteTable Routing
open Utf8Order (toList_eq_asciiChars)

section Model

structure AuthConfig where
  internalSecret : List String
  apiKeys : List String
  adminKeys : List String
  upstreamApiKey : Option String

def AuthConfig.internalLocked (cfg : AuthConfig) : Bool := !cfg.internalSecret.isEmpty

def AuthConfig.publicLocked (cfg : AuthConfig) : Bool := !cfg.apiKeys.isEmpty

def AuthConfig.adminLocked (cfg : AuthConfig) : Bool := !cfg.adminKeys.isEmpty

def constantTimeEq (a b : String) : Bool :=
  let as := a.toUTF8.data.toList
  let bs := b.toUTF8.data.toList
  if as.length ≠ bs.length then false
  else (as.zip bs).foldl (fun diff p => diff ||| (p.1 ^^^ p.2)) 0 == 0

inductive AuthOutcome where
  | allow
  | deny (reason : String)
  deriving DecidableEq

def trim (text : List Char) : List Char :=
  ((text.dropWhile TokenRing.isWhitespace).reverse.dropWhile TokenRing.isWhitespace).reverse

def presentedApiKey (apiKeyHeader authorization : Option String) : Option String :=
  match apiKeyHeader with
  | some k => some k
  | none => (authorization.bind fun a => "Bearer ".toList.isPrefixOf? a.toList).map fun k =>
      String.ofList (trim k)

/-- `/collections/<name>/<word>`, and one segment more where that is allowed. -/
def underCollection (word : String) (deeper : Bool) (path : List Char) : Bool :=
  ("/collections/".toList.isPrefixOf? path).any fun rest =>
    match rest.splitOn '/' with
    | [name, w] => !name.isEmpty && w == word.toList
    | [name, w, id] => deeper && !name.isEmpty && w == word.toList && !id.isEmpty
    | _ => false

def isWebhookRoute : List Char → Bool := underCollection "webhooks" true

def isTtlRoute : List Char → Bool := underCollection "ttl" false

def isIndexRoute : List Char → Bool := underCollection "indexes" true

/-- Topology, destruction, index definitions and TTL. Segments are counted before percent-decoding,
the way they are routed. -/
def isAdminRoute (path : List Char) (method : Method) : Bool :=
  if path == "/cluster".toList || "/cluster/".toList.isPrefixOf path then true
  else if method == .delete &&
      ("/collections/".toList.isPrefixOf? path).any fun name =>
        !name.isEmpty && !name.contains '/' then true
  else if (method == .post || method == .delete) && isIndexRoute path then true
  else if (method == .put || method == .delete) && isTtlRoute path then true
  else isWebhookRoute path

def accepted (presented : Option String) (keys : List String) : Bool :=
  presented.any fun got => keys.any fun k => constantTimeEq got k

def authorize (path : List Char) (method : Method) (cfg : AuthConfig)
    (secretHeader apiKeyHeader authorization : Option String) : AuthOutcome :=
  if "/internal/".toList.isPrefixOf path then
    if !cfg.internalLocked then .allow
    else
      match secretHeader with
      | some got =>
        if cfg.internalSecret.any fun s => constantTimeEq got s then .allow
          else .deny "invalid internal secret"
      | none => .deny "missing internal secret header"
  else if path == "/health".toList then .allow
  else
    let presented := presentedApiKey apiKeyHeader authorization
    -- ahead of the public gate, so that the admin surface can be locked alone
    if cfg.adminLocked && isAdminRoute path method then
      if presented.isNone then .deny "missing admin key"
      else if accepted presented cfg.adminKeys then .allow
      else .deny "invalid admin key"
    else if !cfg.publicLocked then .allow
    else if presented.isNone then .deny "missing api key"
    else if accepted presented cfg.apiKeys || accepted presented cfg.adminKeys then .allow
    else .deny "invalid api key"

/-- Replaces the two client tiers, and tells whether they moved. -/
def rotateClientKeys (held : AuthConfig) (apiKeys adminKeys : List String) : AuthConfig × Bool :=
  if held.apiKeys = apiKeys ∧ held.adminKeys = adminKeys then (held, false)
  else ({ held with apiKeys, adminKeys }, true)

/-- Replaces the credentials for peers, and tells whether they moved. The secret cannot be taken
away. -/
def rotatePeerCredentials (held : AuthConfig) (internalSecret : List String)
    (upstreamApiKey : Option String) : AuthConfig × Except String Bool :=
  if held.internalLocked && internalSecret.isEmpty then
    (held, .error "auth.internal_secret cannot be removed from a running node")
  else if held.internalSecret = internalSecret ∧ held.upstreamApiKey = upstreamApiKey
    then (held, .ok false)
  else ({ held with internalSecret, upstreamApiKey }, .ok true)

inductive Rotation where
  | clientKeys (apiKeys adminKeys : List String)
  | peerCredentials (internalSecret : List String) (upstreamApiKey : Option String)

def rotate (held : AuthConfig) : Rotation → AuthConfig
  | .clientKeys apiKeys adminKeys => (rotateClientKeys held apiKeys adminKeys).1
  | .peerCredentials internalSecret upstreamApiKey =>
      (rotatePeerCredentials held internalSecret upstreamApiKey).1

end Model

section Keys

theorem internalLocked_rotate {held : AuthConfig} (rotation : Rotation)
    (hlocked : held.internalLocked = true) : (rotate held rotation).internalLocked = true := by
  cases rotation with
  | clientKeys apiKeys adminKeys =>
    simp only [rotate, rotateClientKeys]
    split_ifs
    · exact hlocked
    · exact hlocked
  | peerCredentials internalSecret upstreamApiKey =>
    simp only [rotate, rotatePeerCredentials, hlocked, Bool.true_and]
    split_ifs with hempty hsame
    · exact hlocked
    · exact hlocked
    · simpa [AuthConfig.internalLocked] using hempty

theorem internalLocked_foldl {held : AuthConfig} (rotations : List Rotation)
    (hlocked : held.internalLocked = true) :
    (rotations.foldl rotate held).internalLocked = true := by
  induction rotations generalizing held with
  | nil => exact hlocked
  | cons rotation rotations ih => exact ih (internalLocked_rotate rotation hlocked)

theorem foldl_diff_eq_zero {ps : List (UInt8 × UInt8)} {diff : UInt8} :
    ps.foldl (fun diff p => diff ||| (p.1 ^^^ p.2)) diff = 0 ↔ diff = 0 ∧ ∀ p ∈ ps, p.1 = p.2 := by
  induction ps generalizing diff with
  | nil => simp
  | cons p ps ih => simp [ih, UInt8.or_eq_zero_iff, and_assoc]

theorem eq_of_forall_zip {as bs : List UInt8} (hlength : as.length = bs.length) :
    (∀ p ∈ as.zip bs, p.1 = p.2) ↔ as = bs := by
  induction as generalizing bs with
  | nil => simp [List.eq_nil_iff_length_eq_zero, ← hlength]
  | cons a as ih =>
    cases bs with
    | nil => cases hlength
    | cons b bs =>
      rw [List.zip_cons_cons, List.forall_mem_cons, ih (Nat.succ.inj hlength), List.cons.injEq]

theorem constantTimeEq_iff {a b : String} : constantTimeEq a b = true ↔ a = b := by
  rw [← PercentCoding.utf8_inj]
  simp only [constantTimeEq]
  split_ifs with hlength
  · simp only [false_iff]
    exact fun heq => hlength (congrArg List.length heq)
  · rw [beq_iff_eq, foldl_diff_eq_zero, eq_of_forall_zip (not_not.mp hlength)]
    simp

theorem accepted_iff {presented : Option String} {keys : List String} :
    accepted presented keys = true ↔ ∃ k ∈ keys, presented = some k := by
  cases presented with
  | none => simp [accepted]
  | some got => simp [accepted, constantTimeEq_iff]

end Keys

section Paths

variable {word p rest : List Char} {segs : List (List Char)} {method : Method}

/-- A path is one segment, or a first segment with a slash and the rest behind it. -/
theorem splitOn_cases (p : List Char) : ('/' ∉ p ∧ p.splitOn '/' = [p]) ∨
    ∃ first rest, '/' ∉ first ∧ p = first ++ '/' :: rest ∧
      p.splitOn '/' = first :: rest.splitOn '/' := by
  by_cases hmem : '/' ∈ p
  · obtain ⟨first, rest, rfl, hfirst⟩ := List.eq_append_cons_of_mem hmem
    exact .inr ⟨first, rest, hfirst, rfl, List.splitOn_append_cons_self_of_not_mem hfirst rest⟩
  · exact .inl ⟨hmem, List.splitOn_eq_singleton hmem⟩

theorem isPrefixOf?_append (as bs : List Char) : as.isPrefixOf? (as ++ bs) = some bs := by
  induction as with
  | nil => simp [List.isPrefixOf?]
  | cons a as ih => simp [List.isPrefixOf?, ih]

theorem eq_append_of_isPrefixOf? {as bs rest : List Char} (h : as.isPrefixOf? bs = some rest) :
    bs = as ++ rest := by
  induction as generalizing bs with
  | nil => simpa [List.isPrefixOf?] using h
  | cons a as ih =>
    cases bs with
    | nil => cases h
    | cons b bs =>
      rw [List.isPrefixOf?] at h
      split_ifs at h with hab
      rw [List.cons_append, ← ih h, beq_iff_eq.mp hab]

/-- What follows a first word and a slash is judged by the segments behind the first one. -/
theorem any_isPrefixOf? (hword : '/' ∉ word) (f : List (List Char) → Bool) (p : List Char) :
    (((word ++ ['/']).isPrefixOf? p).any fun rest => f (rest.splitOn '/')) =
      match p.splitOn '/' with
      | w :: s :: segs => w == word && f (s :: segs)
      | _ => false := by
  rcases splitOn_cases p with ⟨hp, hsplit⟩ | ⟨first, rest, hfirst, rfl, hsplit⟩
  · have hnone : (word ++ ['/']).isPrefixOf? p = none := by
      rw [Option.eq_none_iff_forall_ne_some]
      intro rest hrest
      exact hp (eq_append_of_isPrefixOf? hrest ▸ by simp)
    rw [hnone, hsplit]
    rfl
  · obtain ⟨s, segs, hs⟩ := List.exists_cons_of_ne_nil (List.splitOn_ne_nil '/' rest)
    rw [hsplit, hs]
    by_cases heq : first = word
    · subst heq
      have hsome : (first ++ ['/']).isPrefixOf? (first ++ '/' :: rest) = some rest := by
        have hcons : first ++ '/' :: rest = first ++ ['/'] ++ rest := List.append_cons _ _ _
        rw [hcons]
        exact isPrefixOf?_append _ _
      simp [hsome, hs]
    · have hnone : (word ++ ['/']).isPrefixOf? (first ++ '/' :: rest) = none := by
        rw [Option.eq_none_iff_forall_ne_some]
        intro rest' hrest'
        have happ := eq_append_of_isPrefixOf? hrest'
        have hsplit' := List.splitOn_append_cons_self_of_not_mem hword rest'
        rw [List.append_cons, ← happ, hsplit] at hsplit'
        exact heq (List.cons.inj hsplit').1
      simp [hnone, heq]

def adminSegments (method : Method) : List (List Char) → Bool
  | [] => false
  | w :: rest =>
    w == "cluster".toList || (w == "collections".toList &&
      match rest with
      | [name] => method == .delete && !name.isEmpty
      | [name, w] => !name.isEmpty && (w == "webhooks".toList ||
          (w == "indexes".toList && (method == .post || method == .delete)) ||
          (w == "ttl".toList && (method == .put || method == .delete)))
      | [name, w, id] => !name.isEmpty && !id.isEmpty && (w == "webhooks".toList ||
          (w == "indexes".toList && (method == .post || method == .delete)))
      | _ => false)

theorem isPrefixOf?_slash (as bs : List Char) : ('/' :: as).isPrefixOf?
    ('/' :: bs) = as.isPrefixOf? bs := by
  simp [List.isPrefixOf?]

theorem isPrefixOf_eq (as bs : List Char) : as.isPrefixOf bs = (as.isPrefixOf? bs).isSome := by
  induction as generalizing bs with
  | nil => simp [List.isPrefixOf?]
  | cons a as ih =>
    cases bs with
    | nil => rfl
    | cons b bs =>
      rw [List.isPrefixOf, List.isPrefixOf?, ih]
      split_ifs with hab <;> simp [hab]

theorem startsWith_eq (hword : '/' ∉ word) (p : List Char) :
    ('/' :: (word ++ ['/'])).isPrefixOf ('/' :: p) =
      match p.splitOn '/' with
      | w :: _ :: _ => w == word
      | _ => false := by
  have hany : ((word ++ ['/']).isPrefixOf? p).isSome = ((word ++ ['/']).isPrefixOf? p).any
    fun _ => true := by
    cases (word ++ ['/']).isPrefixOf? p <;> rfl
  rw [isPrefixOf_eq, isPrefixOf?_slash, hany, any_isPrefixOf? hword (fun _ => true) p]
  simp only [Bool.and_true]

theorem cluster_eq (p : List Char) :
    ('/' :: p == "/cluster".toList || "/cluster/".toList.isPrefixOf ('/' :: p)) =
      ((p.splitOn '/').head? == some "cluster".toList) := by
  have hword : '/' ∉ "cluster".toList := by decide
  have hself : ('/' :: p == "/cluster".toList) = (p == "cluster".toList) := rfl
  have hslash : "/cluster/".toList = '/' :: ("cluster".toList ++ ['/']) := rfl
  rw [hslash, startsWith_eq hword, hself]
  rcases splitOn_cases p with ⟨hp, hsplit⟩ | ⟨first, rest, hfirst, rfl, hsplit⟩
  · rw [hsplit]
    simp
  · obtain ⟨s, segs, hs⟩ := List.exists_cons_of_ne_nil (List.splitOn_ne_nil '/' rest)
    have hne : (first ++ '/' :: rest == "cluster".toList) = false := by
      rw [beq_eq_false_iff_ne]
      intro heq
      exact hword (heq ▸ by simp)
    rw [hsplit, hs, hne]
    simp

theorem collections_eq (f : List (List Char) → Bool) (p : List Char) :
    (("/collections/".toList.isPrefixOf? ('/' :: p)).any fun rest => f (rest.splitOn '/')) =
      match p.splitOn '/' with
      | w :: s :: segs => w == "collections".toList && f (s :: segs)
      | _ => false := by
  have hword : '/' ∉ "collections".toList := by decide
  rw [← any_isPrefixOf? hword]
  rfl

theorem underCollection_eq (word : String) (deeper : Bool) (p : List Char) :
    underCollection word deeper ('/' :: p) =
      match p.splitOn '/' with
      | [c, name, w] => c == "collections".toList && (!name.isEmpty && w == word.toList)
      | [c, name, w, id] =>
        c == "collections".toList && (deeper && !name.isEmpty && w == word.toList && !id.isEmpty)
      | _ => false := by
  rw [underCollection, collections_eq fun segs =>
    match segs with
    | [name, w] => !name.isEmpty && w == word.toList
    | [name, w, id] => deeper && !name.isEmpty && w == word.toList && !id.isEmpty
    | _ => false]
  rcases p.splitOn '/' with - | ⟨c, - | ⟨name, - | ⟨w, - | ⟨id, - | ⟨more, segs⟩⟩⟩⟩⟩ <;> simp

def oneName : List (List Char) → Bool
  | [name] => !name.isEmpty
  | _ => false

theorem singleName_eq (p : List Char) :
    (("/collections/".toList.isPrefixOf? ('/' :: p)).any fun name =>
      !name.isEmpty && !name.contains '/') =
      match p.splitOn '/' with
      | [c, name] => c == "collections".toList && !name.isEmpty
      | _ => false := by
  have hname : ∀ rest : List Char, (!rest.isEmpty && !rest.contains '/') = oneName
    (rest.splitOn '/') := by
    intro rest
    rcases splitOn_cases rest with ⟨hrest, hsplit⟩ | ⟨first, rest', -, rfl, hsplit⟩
    · simp [hsplit, hrest, oneName]
    · obtain ⟨s, segs, hs⟩ := List.exists_cons_of_ne_nil (List.splitOn_ne_nil '/' rest')
      simp [hsplit, hs, oneName]
  simp only [hname]
  rw [collections_eq oneName]
  rcases p.splitOn '/' with - | ⟨c, - | ⟨name, - | ⟨w, segs⟩⟩⟩ <;> simp [oneName]

theorem isAdminRoute_eq (p : List Char) (method : Method) :
    isAdminRoute ('/' :: p) method = adminSegments method (p.splitOn '/') := by
  rw [isAdminRoute, cluster_eq, singleName_eq, isIndexRoute, isTtlRoute, isWebhookRoute,
    underCollection_eq, underCollection_eq, underCollection_eq]
  rcases p.splitOn '/' with - | ⟨c, - | ⟨name, - | ⟨w, - | ⟨id, - | ⟨more, segs⟩⟩⟩⟩⟩
  · cases method <;> rfl
  · simp only [adminSegments, List.head?_cons, Option.some_beq_some]
    generalize (c == "cluster".toList) = cluster
    cases method <;> cases cluster <;> simp
  · simp only [adminSegments, List.head?_cons, Option.some_beq_some]
    generalize (c == "cluster".toList) = cluster
    generalize (c == "collections".toList) = collections
    generalize name.isEmpty = blank
    revert cluster collections blank
    cases method <;> decide
  · simp only [adminSegments, List.head?_cons, Option.some_beq_some]
    generalize (c == "cluster".toList) = cluster
    generalize (c == "collections".toList) = collections
    generalize name.isEmpty = blank
    generalize (w == "indexes".toList) = indexes
    generalize (w == "ttl".toList) = ttl
    generalize (w == "webhooks".toList) = webhooks
    revert cluster collections blank indexes ttl webhooks
    cases method <;> decide
  · simp only [adminSegments, List.head?_cons, Option.some_beq_some]
    generalize (c == "cluster".toList) = cluster
    generalize (c == "collections".toList) = collections
    generalize name.isEmpty = blank
    generalize id.isEmpty = blank'
    generalize (w == "indexes".toList) = indexes
    generalize (w == "ttl".toList) = ttl
    generalize (w == "webhooks".toList) = webhooks
    revert cluster collections blank blank' indexes ttl webhooks
    cases method <;> decide
  · simp only [adminSegments, List.head?_cons, Option.some_beq_some]
    generalize (c == "cluster".toList) = cluster
    cases method <;> cases cluster <;> simp

end Paths

section Table

/-- Cluster topology, drops, index definitions, TTLs and webhooks. -/
def administrative : Handler → Bool
  | .cluster | .join | .leave | .configuration | .setConfiguration | .setRing | .transferLeadership
  | .startMigration | .migrationStatus | .abortMigration | .rebalanceStatus => true
  | .dropCollection | .createIndex | .dropIndex | .setTtl | .deleteTtl => true
  | .listWebhooks | .createWebhook | .getWebhook | .deleteWebhook => true
  | _ => false

def internal : Handler → Bool
  | .clusterView | .clusterUpdate | .replicate | .snapshot | .electionHistories
      | .electionSnapshot | .resync
  | .vote | .preVote | .timeoutNow | .heartbeat | .dataSummary | .migrate | .migrateReset
      | .migrateCleanup
  | .internalMigrationStatus => true
  | _ => false

def dataPath : Handler → Bool
  | .createDoc | .listDocs | .bulkCreateDocs | .getDoc | .putDoc | .updateDoc | .deleteDoc => true
  | .queryDocs | .aggregateDocs | .streamChanges | .wsChanges => true
  | _ => false

def adminPattern (method : Method) : Pattern (List Char) → Bool
  | .lit w :: rest =>
    w == "cluster".toList || (w == "collections".toList &&
      match rest with
      | [.param] => method == .delete
      | [.param, .lit w] => w == "webhooks".toList ||
          (w == "indexes".toList && (method == .post || method == .delete)) ||
          (w == "ttl".toList && (method == .put || method == .delete))
      | [.param, .lit w, _] => w == "webhooks".toList ||
          (w == "indexes".toList && (method == .post || method == .delete))
      | _ => false)
  | _ => false

/-- The patterns of which the gate reads the same off every path: words stand where it looks for
words. -/
def regular : Pattern (List Char) → Bool
  | [.lit _] => true
  | [.lit w, .lit _] => w != "collections".toList
  | [.lit _, .param] => true
  | [.lit _, .param, .lit _] => true
  | [.lit _, .param, .lit _, .param] => true
  | [.lit _, .param, .lit _, .lit w] => !w.isEmpty
  | _ => false

variable {pattern : Pattern (List Char)} {segs values : List (List Char)} {method : Method}

theorem adminSegments_of_follows (hregular : regular pattern = true)
    (h : Follows List.isEmpty pattern segs values) :
    adminSegments method segs = adminPattern method pattern := by
  unfold regular at hregular
  split at hregular
  · simp only [follows_lit, follows_nil] at h
    obtain ⟨_, rfl, rfl, -⟩ := h
    rfl
  · simp only [follows_lit, follows_nil] at h
    obtain ⟨_, rfl, _, rfl, rfl, -⟩ := h
    rw [bne, Bool.not_eq_true'] at hregular
    simp only [adminSegments, adminPattern, hregular, Bool.false_and]
  · simp only [follows_lit, follows_param, follows_nil] at h
    obtain ⟨_, rfl, name, _, _, rfl, -, hname, rfl, -⟩ := h
    simp only [adminSegments, adminPattern, hname, Bool.not_false, Bool.and_true]
  · simp only [follows_lit, follows_param, follows_nil] at h
    obtain ⟨_, rfl, name, _, _, rfl, -, hname, _, rfl, rfl, -⟩ := h
    simp only [adminSegments, adminPattern, hname, Bool.not_false, Bool.true_and]
  · simp only [follows_lit, follows_param, follows_nil] at h
    obtain ⟨_, rfl, name, _, _, rfl, -, hname, _, rfl, id, _, _, rfl, -, hid, rfl, -⟩ := h
    simp only [adminSegments, adminPattern, hname, hid, Bool.not_false, Bool.true_and]
  · simp only [follows_lit, follows_param, follows_nil] at h
    obtain ⟨_, rfl, name, _, _, rfl, -, hname, _, rfl, _, rfl, rfl, -⟩ := h
    rw [Bool.not_eq_true'] at hregular
    simp only [adminSegments, adminPattern, hname, hregular, Bool.not_false, Bool.true_and]
  · cases hregular

theorem adminPattern_of_table : ∀ e ∈ buildApp true, ∀ mh ∈ e.2, regular e.1 = true ∧
    (administrative mh.2 = true → adminPattern mh.1 e.1 = true) ∧
    (dataPath mh.2 = true → adminPattern mh.1 e.1 = false) := by
  simp only [buildApp, publicRoutes, clusterRoutes, shardRoutes, route_eq_ascii,
    toList_eq_asciiChars, regular, adminPattern]
  decide

theorem internal_of_table : ∀ e ∈ buildApp true, ∀ mh ∈ e.2, internal mh.2 = true →
    e.1.head? = some (.lit "internal".toList) ∧ e.1.length = 2 := by
  simp only [buildApp, publicRoutes, clusterRoutes, shardRoutes, route_eq_ascii,
    toList_eq_asciiChars]
  decide

theorem mem_buildApp {shard : Bool} {e : Pattern (List Char) × MethodRouter}
    (h : e ∈ buildApp shard) : e ∈ buildApp true := by
  cases shard with
  | true => exact h
  | false =>
    have hbase : e ∈ publicRoutes ++ clusterRoutes := by simpa [buildApp] using h
    exact List.mem_append_left _ hbase

end Table

section Gate

variable {path p : List Char} {segs values : List (List Char)} {method : Method}
  {cfg : AuthConfig} {h : Handler}
  {shard : Bool} {secretHeader apiKeyHeader authorization : Option String}

theorem internalPath_eq (p : List Char) :
    "/internal/".toList.isPrefixOf ('/' :: p) =
      match p.splitOn '/' with
      | w :: _ :: _ => w == "internal".toList
      | _ => false := by
  have hword : '/' ∉ "internal".toList := by decide
  exact startsWith_eq hword p

theorem head_of_adminSegments (hadmin : adminSegments method segs = true) :
    segs.head? = some "cluster".toList ∨ segs.head? = some "collections".toList := by
  cases segs with
  | nil => cases hadmin
  | cons w rest =>
    simp only [adminSegments, Bool.or_eq_true, Bool.and_eq_true, beq_iff_eq] at hadmin
    rcases hadmin with rfl | ⟨rfl, -⟩
    · exact .inl rfl
    · exact .inr rfl

theorem admin_elsewhere (hadmin : isAdminRoute ('/' :: p) method = true) :
    "/internal/".toList.isPrefixOf ('/' :: p) = false ∧ ('/' :: p == "/health".toList) = false := by
  rw [isAdminRoute_eq] at hadmin
  have hhead := head_of_adminSegments hadmin
  constructor
  · rw [internalPath_eq]
    split
    next w _ _ heq =>
      rw [heq, List.head?_cons, Option.some.injEq, Option.some.injEq] at hhead
      rcases hhead with rfl | rfl
      · decide
      · decide
    · rfl
  · rw [beq_eq_false_iff_ne]
    intro heq
    obtain rfl : p = "health".toList := (List.cons.inj heq).2
    revert hhead
    decide

theorem admin_key_of_allow (hadmin : isAdminRoute ('/' :: p) method = true)
    (hlocked : cfg.adminLocked = true)
    (hallow : authorize ('/' :: p) method cfg secretHeader apiKeyHeader authorization = .allow) :
    ∃ k ∈ cfg.adminKeys, presentedApiKey apiKeyHeader authorization = some k := by
  obtain ⟨hinternal, hhealth⟩ := admin_elsewhere hadmin
  rw [← accepted_iff]
  simp only [authorize, hinternal, hhealth, hlocked, hadmin, Bool.false_eq_true, if_false,
    Bool.and_self, if_true] at hallow
  split_ifs at hallow with hnone hkey
  exact hkey

theorem secret_of_allow (hinternal : "/internal/".toList.isPrefixOf path = true)
    (hlocked : cfg.internalLocked = true)
    (hallow : authorize path method cfg secretHeader apiKeyHeader authorization = .allow) :
    ∃ s ∈ cfg.internalSecret, secretHeader = some s := by
  rw [← accepted_iff]
  simp only [authorize, hinternal, hlocked, Bool.not_true, Bool.false_eq_true, if_false,
    if_true] at hallow
  cases secretHeader with
  | none => cases hallow
  | some got =>
    dsimp only at hallow
    split_ifs at hallow with hgot
    exact hgot

structure Agrees (path : List Char) (method : Method) (h : Handler) : Prop where
  admin : administrative h = true → isAdminRoute path method = true
  data : dataPath h = true → isAdminRoute path method = false
  internal : internal h = true → "/internal/".toList.isPrefixOf path = true

theorem agrees_of_reaches (hreach : (buildApp shard).reaches path method = some (h, values)) :
    Agrees path method h := by
  obtain ⟨segs, hsegs, pattern, r, hmem, hhandler, hfollows⟩ := follows_of_reaches hreach
  obtain ⟨mh, hfind, rfl⟩ := Option.map_eq_some_iff.mp hhandler
  have hmethod : mh.1 = method := by simpa using List.find?_some hfind
  have hin := List.mem_of_find?_eq_some hfind
  have hroute := mem_buildApp hmem
  obtain ⟨hregular, hadmin, hdata⟩ := adminPattern_of_table _ hroute _ hin
  obtain ⟨p, rfl, rfl⟩ := eq_cons_of_segments hsegs
  have hgate : isAdminRoute ('/' :: p) method = adminPattern method pattern := by
    rw [isAdminRoute_eq, adminSegments_of_follows hregular hfollows]
  rw [← hmethod] at hgate ⊢
  refine ⟨fun h => hgate.trans (hadmin h), fun h => hgate.trans (hdata h), fun h => ?_⟩
  obtain ⟨hhead, hlength⟩ := internal_of_table _ hroute _ hin h
  match pattern, hhead, hlength with
  | [.lit _, seg], rfl, _ =>
    obtain ⟨rest, hrest, hfollows⟩ := follows_lit.mp hfollows
    rw [internalPath_eq, hrest]
    cases rest with
    | nil => cases seg <;> cases hfollows
    | cons s rest => exact beq_self_eq_true _

theorem exists_of_reaches (hreach : (buildApp shard).reaches path method = some (h, values)) :
    ∃ p, path = '/' :: p := by
  obtain ⟨segs, hsegs, -⟩ := follows_of_reaches hreach
  obtain ⟨p, hp, -⟩ := eq_cons_of_segments hsegs
  exact ⟨p, hp⟩

/-- Who is let in to an administrative or internal handler has the key or the secret held at that
moment, and the data path is never taken for administrative. -/
theorem authorize_covers (cfg : AuthConfig) (rotations : List Rotation)
    (hreach : (buildApp shard).reaches path method = some (h, values)) :
    (administrative h = true → (rotations.foldl rotate cfg).adminLocked = true →
        authorize path method (rotations.foldl rotate cfg) secretHeader apiKeyHeader
          authorization = .allow →
        ∃ k ∈ (rotations.foldl rotate cfg).adminKeys,
          presentedApiKey apiKeyHeader authorization = some k) ∧
      (internal h = true → (rotations.foldl rotate cfg).internalLocked = true →
        authorize path method (rotations.foldl rotate cfg) secretHeader apiKeyHeader
          authorization = .allow →
        ∃ s ∈ (rotations.foldl rotate cfg).internalSecret, secretHeader = some s) ∧
      (dataPath h = true → isAdminRoute path method = false) := by
  have hagrees := agrees_of_reaches hreach
  refine ⟨fun hh hlocked hallow => ?_, fun hh hlocked hallow =>
    secret_of_allow (hagrees.internal hh) hlocked hallow, hagrees.data⟩
  obtain ⟨p, rfl⟩ := exists_of_reaches hreach
  exact admin_key_of_allow (hagrees.admin hh) hlocked hallow

/-- Of two admin keys the older is replaced, and a drop is let in with the newer. -/
theorem authorize_covers_drop : ∃ k ∈ ["new"], presentedApiKey (some "new") none = some k :=
  have hreach : (buildApp true).reaches "/collections/c".toList .delete = some
    (.dropCollection, ["c".toList]) := by
    simp only [buildApp, publicRoutes, clusterRoutes, shardRoutes, route_eq_ascii,
      toList_eq_asciiChars]
    decide
  (authorize_covers ⟨[], [], ["old"], none⟩ [.clientKeys [] ["new"]] hreach).1 rfl rfl
    (show authorize _ _ _ none (some "new") none = .allow by decide)

end Gate

end DewDB.Authorization
