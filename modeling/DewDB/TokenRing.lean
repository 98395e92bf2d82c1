import Mathlib.Data.List.Sort
import DewDB.Endpoint

/-!
# The consistent-hash ring

Every shard has a number of tokens, hashed from its canonical address. A hash belongs to the shard
of the first token clockwise from it. `keyspaceMovement` measures what changes hands between two
rings, with widths as exact naturals.
-/
namespace DewDB.TokenRing

open Endpoint

abbrev Xxh64 := List Char → Nat

def ringSize : Nat := 2 ^ 64

structure RingShard where
  nodeUrl : Url
  replicaUrls : List Url
  deriving DecidableEq

structure HashRing where
  vnodes : Nat
  shards : List RingShard
  deriving DecidableEq

def maxVnodes : Nat := 4096

def maxRingShards : Nat := 1024

def maxRingTokens : Nat := 2 ^ 20

def hashKey (xxh64 : Xxh64) (col key : List Char) : Nat := xxh64 (col ++ ':' :: key) % ringSize

def vnodeToken (xxh64 : Xxh64) (nodeUrl : Url) (index : Nat) : Nat :=
  xxh64 (nodeKey nodeUrl ++ '#' :: Nat.toDigits 10 index) % ringSize

section Validate

/-- Unicode white space, which `trim` takes off both ends. -/
def isWhitespace (c : Char) : Bool :=
  let n := c.toNat
  (9 ≤ n && n ≤ 13) || n == 0x20 || n == 0x85 || n == 0xA0 || n == 0x1680 ||
    (0x2000 ≤ n && n ≤ 0x200A) || n == 0x2028 || n == 0x2029 || n == 0x202F || n == 0x205F ||
    n == 0x3000

def blank (url : Url) : Bool := url.all isWhitespace

inductive RingError where
  | noShards
  | noVnodes
  | tooManyVnodes (vnodes : Nat)
  | tooManyShards (shards : Nat)
  | tooManyTokens (tokens shards vnodes : Nat)
  | emptyNodeUrl
  | duplicateShard (nodeUrl : Url)
  | emptyReplicaUrl (nodeUrl : Url)
  | replicatesItself (nodeUrl : Url)
  | primaryIsReplica (replica : Url)
  | duplicateReplica (nodeUrl replica : Url)
  | sharedReplica (replica : Url)
  deriving DecidableEq

def checkPrimaries (seen : List Url) : List RingShard → Except RingError (List Url)
  | [] => .ok seen
  | shard :: rest =>
    if blank shard.nodeUrl then .error .emptyNodeUrl
    else if nodeKey shard.nodeUrl ∈ seen then .error (.duplicateShard shard.nodeUrl)
    else checkPrimaries (nodeKey shard.nodeUrl :: seen) rest

/-- One shard's replicas: `mine` are those of the shard so far, `placed` those of all shards. -/
def checkReplicas (primaries : List Url) (nodeUrl : Url) (mine placed : List Url) :
    List Url → Except RingError (List Url)
  | [] => .ok placed
  | replica :: rest =>
    if blank replica then .error (.emptyReplicaUrl nodeUrl)
    else if nodeKey replica = nodeKey nodeUrl then .error (.replicatesItself nodeUrl)
    else if nodeKey replica ∈ primaries then .error (.primaryIsReplica replica)
    else if nodeKey replica ∈ mine then .error (.duplicateReplica nodeUrl replica)
    else if nodeKey replica ∈ placed then .error (.sharedReplica replica)
    else checkReplicas primaries nodeUrl (nodeKey replica :: mine) (nodeKey replica :: placed) rest

def checkPlacement (primaries : List Url) (placed : List Url) :
    List RingShard → Except RingError Unit
  | [] => .ok ()
  | shard :: rest =>
    match checkReplicas primaries shard.nodeUrl [] placed shard.replicaUrls with
    | .error e => .error e
    | .ok placed => checkPlacement primaries placed rest

def HashRing.validate (ring : HashRing) : Except RingError Unit :=
  if ring.shards.isEmpty then .error .noShards
  else if ring.vnodes = 0 then .error .noVnodes
  else if maxVnodes < ring.vnodes then .error (.tooManyVnodes ring.vnodes)
  else if maxRingShards < ring.shards.length then .error (.tooManyShards ring.shards.length)
  else if maxRingTokens < ring.shards.length * ring.vnodes then
    .error (.tooManyTokens (ring.shards.length * ring.vnodes) ring.shards.length ring.vnodes)
  else
    match checkPrimaries [] ring.shards with
    | .error e => .error e
    | .ok primaries => checkPlacement primaries [] ring.shards

theorem mem_of_checkPrimaries {seen primaries : List Url} {shards : List RingShard}
    (h : checkPrimaries seen shards = .ok primaries) :
    (∀ k ∈ seen, k ∈ primaries) ∧ ∀ s ∈ shards, nodeKey s.nodeUrl ∈ primaries := by
  induction shards generalizing seen with
  | nil =>
    cases h
    exact ⟨fun _ hk => hk, by simp⟩
  | cons s shards ih =>
    simp only [checkPrimaries] at h
    split at h
    · cases h
    · split at h
      · cases h
      · obtain ⟨hseen, hrest⟩ := ih h
        refine ⟨fun k hk => hseen k (List.mem_cons_of_mem _ hk), fun t ht => ?_⟩
        rcases List.mem_cons.mp ht with rfl | ht
        · exact hseen _ List.mem_cons_self
        · exact hrest t ht

theorem not_mem_of_checkReplicas {primaries mine placed placed' urls : List Url} {nodeUrl : Url}
    (h : checkReplicas primaries nodeUrl mine placed urls = .ok placed') :
    ∀ r ∈ urls, nodeKey r ∉ primaries := by
  induction urls generalizing mine placed with
  | nil => simp
  | cons r urls ih =>
    simp only [checkReplicas] at h
    repeat (split at h; · cases h)
    rename_i hprimary _ _
    intro r' hr'
    rcases List.mem_cons.mp hr' with rfl | hr'
    · exact hprimary
    · exact ih h r' hr'

theorem not_mem_of_checkPlacement {primaries placed : List Url} {shards : List RingShard}
    (h : checkPlacement primaries placed shards = .ok ()) :
    ∀ s ∈ shards, ∀ r ∈ s.replicaUrls, nodeKey r ∉ primaries := by
  induction shards generalizing placed with
  | nil => simp
  | cons s shards ih =>
    simp only [checkPlacement] at h
    split at h
    · cases h
    · rename_i placed' hs
      intro t ht
      rcases List.mem_cons.mp ht with rfl | ht
      · exact not_mem_of_checkReplicas hs
      · exact ih h t ht

theorem replica_ne_primary {ring : HashRing} (h : ring.validate = .ok ()) {s t : RingShard}
    (hs : s ∈ ring.shards) (ht : t ∈ ring.shards) {r : Url} (hr : r ∈ t.replicaUrls) :
    nodeKey r ≠ nodeKey s.nodeUrl := by
  simp only [HashRing.validate] at h
  repeat (split at h; · cases h)
  rename_i primaries hp
  intro heq
  exact not_mem_of_checkPlacement h t ht r hr (heq ▸ (mem_of_checkPrimaries hp).2 s hs)

theorem nonempty_of_validate {ring : HashRing} (h : ring.validate = .ok ()) :
    ring.shards ≠ [] ∧ ring.vnodes ≠ 0 := by
  simp only [HashRing.validate] at h
  split at h
  · cases h
  · rename_i hne
    split at h
    · cases h
    · rename_i hv
      exact ⟨by simpa using hne, hv⟩

theorem nodup_of_checkPrimaries {seen primaries : List Url} {shards : List RingShard}
    (h : checkPrimaries seen shards = .ok primaries) :
    (shards.map fun s => nodeKey s.nodeUrl).Nodup ∧ ∀ s ∈ shards, nodeKey s.nodeUrl ∉ seen := by
  induction shards generalizing seen with
  | nil => exact ⟨List.nodup_nil, by simp⟩
  | cons s shards ih =>
    simp only [checkPrimaries] at h
    split at h
    · cases h
    · split at h
      · cases h
      · next hseen =>
        obtain ⟨hnodup, hnew⟩ := ih h
        refine ⟨List.nodup_cons.mpr ⟨fun hmem => ?_, hnodup⟩, fun t ht => ?_⟩
        · obtain ⟨t, ht, hkey⟩ := List.mem_map.mp hmem
          exact hnew t ht (hkey ▸ List.mem_cons_self)
        · rcases List.mem_cons.mp ht with rfl | ht
          · exact hseen
          · exact fun hmem => hnew t ht (List.mem_cons_of_mem _ hmem)

theorem checked_of_validate {ring : HashRing} (h : ring.validate = .ok ()) :
    ∃ primaries, checkPrimaries [] ring.shards = .ok primaries ∧
      checkPlacement primaries [] ring.shards = .ok () := by
  simp only [HashRing.validate] at h
  repeat (split at h; · cases h)
  next primaries hp => exact ⟨primaries, hp, h⟩

theorem nodup_of_validate {ring : HashRing} (h : ring.validate = .ok ()) :
    (ring.shards.map fun s => nodeKey s.nodeUrl).Nodup := by
  obtain ⟨primaries, hp, -⟩ := checked_of_validate h
  exact (nodup_of_checkPrimaries hp).1

end Validate

section Lookup

/-- The ring in lookup form: tokens with the index of their shard, in clockwise order. -/
structure BuiltRing where
  tokens : List (Nat × Nat)
  shards : List RingShard
  deriving DecidableEq

def urlAt (shards : List RingShard) (i : Nat) : Url := (shards[i]?.map RingShard.nodeUrl).getD []

/-- Token order; ties go by endpoint, not by the order of the shard list. -/
def tokenLe (shards : List RingShard) (a b : Nat × Nat) : Bool :=
  ((compare a.1 b.1).then (cmpEndpoint (urlAt shards a.2) (urlAt shards b.2))).isLE

def shardTokens (xxh64 : Xxh64) (vnodes : Nat) (shard : RingShard) (index : Nat) :
    List (Nat × Nat) :=
  (List.range vnodes).map fun v => (vnodeToken xxh64 shard.nodeUrl v, index)

def HashRing.build (xxh64 : Xxh64) (ring : HashRing) : BuiltRing :=
  let tokens := (ring.shards.zipIdx.map fun s => shardTokens xxh64 ring.vnodes s.1 s.2).flatten
  ⟨tokens.insertionSort fun a b => tokenLe ring.shards a b = true, ring.shards⟩

/-- The loop of the standard library's binary search: `base` stays on an element not above the
target, if there is one. `fuel` bounds the halvings. -/
def searchLoop (above : Nat → Bool) : Nat → Nat → Nat → Nat
  | 0, base, _ => base
  | fuel + 1, base, size =>
    if size ≤ 1 then base
    else
      let half := size / 2
      searchLoop above fuel (if above (base + half) then base else base + half) (size - half)

/-- The index of a match, or the one where the hash would be inserted. -/
def binarySearch (tokens : List (Nat × Nat)) (hash : Nat) : Except Nat Nat :=
  let at? := fun i => (tokens[i]?.map Prod.fst).getD 0
  if tokens.isEmpty then .error 0
  else
    let base := searchLoop (fun i => hash < at? i) tokens.length 0 tokens.length
    match compare (at? base) hash with
    | .eq => .ok base
    | .lt => .error (base + 1)
    | .gt => .error base

/-- First token clockwise from `hash`, wrapping at the top of the ring. -/
def BuiltRing.owner (ring : BuiltRing) (hash : Nat) : Option RingShard :=
  if ring.tokens.isEmpty then none
  else
    let i :=
      match binarySearch ring.tokens hash with
      | .ok i => i
      | .error i => if i < ring.tokens.length then i else 0
    ring.tokens[i]?.bind fun t => ring.shards[t.2]?

def BuiltRing.ownerUrl (ring : BuiltRing) (hash : Nat) : Url :=
  ((ring.owner hash).map RingShard.nodeUrl).getD []

theorem BuiltRing.mem_of_owner {ring : BuiltRing} {hash : Nat} {s : RingShard}
    (h : ring.owner hash = some s) : s ∈ ring.shards := by
  unfold BuiltRing.owner at h
  split at h
  · cases h
  · obtain ⟨t, -, ht⟩ := Option.bind_eq_some_iff.mp h
    exact List.mem_of_getElem? ht

theorem searchLoop_lt {above : Nat → Bool} {fuel base size len : Nat} (hlen : base + size ≤ len)
    (hsize : 0 < size) : searchLoop above fuel base size < len := by
  induction fuel generalizing base size with
  | zero =>
    simp only [searchLoop]
    omega
  | succ fuel ih =>
    simp only [searchLoop]
    split
    · omega
    · split
      · exact ih (by omega) (by omega)
      · exact ih (by omega) (by omega)

theorem binarySearch_ok_lt {tokens : List (Nat × Nat)} {hash i : Nat}
    (h : binarySearch tokens hash = .ok i) : i < tokens.length := by
  simp only [binarySearch] at h
  split at h
  · cases h
  · rename_i hne
    have hpos : 0 < tokens.length := List.length_pos_iff.mpr (by simpa using hne)
    split at h
    · cases h
      exact searchLoop_lt (by omega) hpos
    · cases h
    · cases h

theorem BuiltRing.exists_owner {ring : BuiltRing} (hne : ring.tokens ≠ [])
    (hidx : ∀ t ∈ ring.tokens, t.2 < ring.shards.length) (hash : Nat) :
    ∃ s ∈ ring.shards, ring.owner hash = some s := by
  have hpos : 0 < ring.tokens.length := List.length_pos_iff.mpr hne
  have hat : ∀ i < ring.tokens.length, ∃ s ∈ ring.shards,
      (ring.tokens[i]?.bind fun t => ring.shards[t.2]?) = some s := by
    intro i hi
    have hlt := hidx _ (List.getElem_mem hi)
    refine ⟨ring.shards[ring.tokens[i].2], List.getElem_mem hlt, ?_⟩
    simp [List.getElem?_eq_getElem hi, List.getElem?_eq_getElem hlt]
  simp only [BuiltRing.owner, List.isEmpty_iff, hne, if_false]
  split
  · rename_i i hi
    exact hat i (binarySearch_ok_lt hi)
  · rename_i i hi
    split
    · rename_i hlt
      exact hat i hlt
    · exact hat 0 hpos

theorem mem_build_tokens {xxh64 : Xxh64} {ring : HashRing} {t : Nat × Nat} :
    t ∈ (ring.build xxh64).tokens ↔
      ∃ i s, ring.shards[i]? = some s ∧ ∃ v < ring.vnodes,
        t = (vnodeToken xxh64 s.nodeUrl v, i) := by
  simp only [HashRing.build, List.mem_insertionSort, List.mem_flatten, List.mem_map]
  constructor
  · rintro ⟨l, ⟨⟨s, i⟩, hs, rfl⟩, ht⟩
    obtain ⟨v, hv, rfl⟩ := List.mem_map.mp ht
    exact ⟨i, s, List.mem_zipIdx_iff_getElem?.mp hs, v, List.mem_range.mp hv, rfl⟩
  · rintro ⟨i, s, hs, v, hv, rfl⟩
    exact ⟨_, ⟨(s, i), List.mem_zipIdx_iff_getElem?.mpr hs, rfl⟩,
      List.mem_map.mpr ⟨v, List.mem_range.mpr hv, rfl⟩⟩

/-- Every hash has an owner in a ring of at least one shard and one token a shard. -/
theorem exists_owner_build {xxh64 : Xxh64} {ring : HashRing} (hshards : ring.shards ≠ [])
    (hvnodes : ring.vnodes ≠ 0) (hash : Nat) :
    ∃ s ∈ ring.shards, (ring.build xxh64).owner hash = some s := by
  change ∃ s ∈ (ring.build xxh64).shards, _
  refine BuiltRing.exists_owner ?_ ?_ hash
  · obtain ⟨s, rest, hs⟩ := List.exists_cons_of_ne_nil hshards
    have hmem : (vnodeToken xxh64 s.nodeUrl 0, 0) ∈ (ring.build xxh64).tokens :=
      mem_build_tokens.mpr ⟨0, s, by simp [hs], 0, Nat.pos_of_ne_zero hvnodes, rfl⟩
    exact List.ne_nil_of_mem hmem
  · intro t ht
    obtain ⟨i, s, hs, v, -, rfl⟩ := mem_build_tokens.mp ht
    exact (List.getElem?_eq_some_iff.mp hs).1

end Lookup

section Movement

structure Transfer where
  source : Url
  target : Url
  width : Nat

structure Movement where
  moved : Nat
  transfers : List Transfer

def textLt : List Char → List Char → Bool
  | [], [] => false
  | [], _ :: _ => true
  | _ :: _, [] => false
  | x :: xs, y :: ys => x.toNat < y.toNat || (x == y && textLt xs ys)

/-- Adds to the entry of a pair of URLs, as they are written, in a map ordered by them. -/
def addWidth (source target : Url) (width : Nat) : List Transfer → List Transfer
  | [] => [⟨source, target, width⟩]
  | t :: rest =>
    if t.source = source ∧ t.target = target then { t with width := t.width + width } :: rest
    else if textLt source t.source || (source == t.source && textLt target t.target) then
      ⟨source, target, width⟩ :: t :: rest
    else t :: addWidth source target width rest

/-- One arc `(start, end]` of the ring, judged just inside it. -/
def moveArc (before after : BuiltRing) (m : Movement) (arc : Nat × Nat) : Movement :=
  let width := if arc.1 < arc.2 then arc.2 - arc.1 else ringSize - arc.1 + arc.2
  let probe := (arc.1 + 1) % ringSize
  let source := before.ownerUrl probe
  let target := after.ownerUrl probe
  if source = target then m
  else ⟨m.moved + width, addWidth source target width m.transfers⟩

/-- Every token of either ring bounds an arc; the last arc wraps to the first boundary. -/
def arcs (boundaries : List Nat) : List (Nat × Nat) :=
  boundaries.zip (boundaries.drop 1 ++ boundaries.take 1)

def keyspaceMovement (before after : BuiltRing) : Movement :=
  let boundaries := ((before.tokens ++ after.tokens).map Prod.fst).insertionSort (· ≤ ·) |>.dedup
  let m := (arcs boundaries).foldl (moveArc before after) ⟨0, []⟩
  { m with transfers := m.transfers.insertionSort fun a b => b.width ≤ a.width }

theorem target_of_mem_addWidth {source target : Url} {width : Nat} {ts : List Transfer}
    {t : Transfer}
    (h : t ∈ addWidth source target width ts) :
    t.target = target ∨ ∃ t' ∈ ts, t'.target = t.target := by
  induction ts with
  | nil => exact .inl (by rw [List.mem_singleton.mp h])
  | cons u ts ih =>
    simp only [addWidth] at h
    split at h
    · rcases List.mem_cons.mp h with rfl | h
      · exact .inr ⟨u, by simp, rfl⟩
      · exact .inr ⟨t, List.mem_cons_of_mem _ h, rfl⟩
    · split at h
      · rcases List.mem_cons.mp h with rfl | h
        · exact .inl rfl
        · exact .inr ⟨t, h, rfl⟩
      · rcases List.mem_cons.mp h with rfl | h
        · exact .inr ⟨t, by simp, rfl⟩
        · rcases ih h with heq | ⟨t', ht', heq⟩
          · exact .inl heq
          · exact .inr ⟨t', List.mem_cons_of_mem _ ht', heq⟩

theorem target_of_mem_transfers {before after : BuiltRing} {t : Transfer}
    (h : t ∈ (keyspaceMovement before after).transfers) :
    ∃ hash, t.target = after.ownerUrl hash := by
  simp only [keyspaceMovement, List.mem_insertionSort] at h
  have hfold : ∀ (l : List (Nat × Nat)) (m : Movement),
      (∀ u ∈ m.transfers, ∃ hash, u.target = after.ownerUrl hash) →
      ∀ u ∈ (l.foldl (moveArc before after) m).transfers, ∃ hash,
        u.target = after.ownerUrl hash := by
    intro l
    induction l with
    | nil => exact fun m hm => hm
    | cons arc l ih =>
      intro m hm
      refine ih _ fun u hu => ?_
      simp only [moveArc] at hu
      split at hu
      · exact hm u hu
      · rcases target_of_mem_addWidth hu with heq | ⟨u', hu', heq⟩
        · exact ⟨_, heq⟩
        · exact heq ▸ hm u' hu'
  exact hfold _ _ (by simp) t h

theorem urlAt_congr {shards shards' : List RingShard}
    (h : shards.map RingShard.nodeUrl = shards'.map RingShard.nodeUrl) (i : Nat) :
    urlAt shards i = urlAt shards' i := by
  have hi : (shards.map RingShard.nodeUrl)[i]? = (shards'.map RingShard.nodeUrl)[i]? := by rw [h]
  rw [List.getElem?_map, List.getElem?_map] at hi
  rw [urlAt, urlAt, hi]

theorem build_tokens_congr {xxh64 : Xxh64} {ring ring' : HashRing} (hv : ring.vnodes = ring'.vnodes)
    (h : ring.shards.map RingShard.nodeUrl = ring'.shards.map RingShard.nodeUrl) :
    (ring.build xxh64).tokens = (ring'.build xxh64).tokens := by
  have hmap : ∀ (shards shards' : List RingShard) (k : Nat),
      shards.map RingShard.nodeUrl = shards'.map RingShard.nodeUrl →
      (shards.zipIdx k).map (fun s => shardTokens xxh64 ring.vnodes s.1 s.2) =
        (shards'.zipIdx k).map fun s => shardTokens xxh64 ring.vnodes s.1 s.2 := by
    intro shards
    induction shards with
    | nil =>
      intro shards' k h
      rw [List.map_eq_nil_iff.mp h.symm]
    | cons s shards ih =>
      intro shards' k h
      cases shards' with
      | nil => simp at h
      | cons s' shards' =>
        obtain ⟨hs, hrest⟩ := List.cons.inj h
        simp only [List.zipIdx_cons, List.map_cons, ih shards' (k + 1) hrest]
        simp only [shardTokens, hs]
  have hle : tokenLe ring.shards = tokenLe ring'.shards := by
    funext a b
    simp only [tokenLe, urlAt_congr h]
  simp only [HashRing.build, hmap _ _ 0 h, ← hv, hle]

theorem ownerUrl_eq (ring : BuiltRing) (hash : Nat) : ring.ownerUrl hash =
    if ring.tokens.isEmpty then []
    else
      let i :=
        match binarySearch ring.tokens hash with
        | .ok i => i
        | .error i => if i < ring.tokens.length then i else 0
      (ring.tokens[i]?.map fun t => urlAt ring.shards t.2).getD [] := by
  unfold BuiltRing.ownerUrl BuiltRing.owner
  split_ifs
  · rfl
  · dsimp only
    split
    next i _ => cases ring.tokens[i]? <;> rfl
    next i _ => cases ring.tokens[if i < ring.tokens.length then i else 0]? <;> rfl

/-- Two rings with the same primaries, whatever their replicas, differ in the owner of no key. -/
theorem keyspaceMovement_same_primaries {xxh64 : Xxh64} {ring ring' : HashRing}
    (hv : ring.vnodes = ring'.vnodes)
    (h : ring.shards.map RingShard.nodeUrl = ring'.shards.map RingShard.nodeUrl) :
    keyspaceMovement (ring.build xxh64) (ring'.build xxh64) = ⟨0, []⟩ := by
  have howner : ∀ hash, (ring.build xxh64).ownerUrl hash = (ring'.build xxh64).ownerUrl hash := by
    intro hash
    have hat : urlAt (ring.build xxh64).shards = urlAt (ring'.build xxh64).shards :=
      funext (urlAt_congr h)
    rw [ownerUrl_eq, ownerUrl_eq, build_tokens_congr hv h, hat]
  have hfold : ∀ arcs : List (Nat × Nat),
      arcs.foldl (moveArc (ring.build xxh64) (ring'.build xxh64)) ⟨0, []⟩ = ⟨0, []⟩ := by
    intro arcs
    induction arcs with
    | nil => rfl
    | cons arc arcs ih => rw [List.foldl_cons, moveArc, if_pos (howner _), ih]
  simp only [keyspaceMovement, hfold, List.insertionSort_nil]

end Movement

end DewDB.TokenRing
