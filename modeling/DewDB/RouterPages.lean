import Mathlib.Algebra.Order.BigOperators.Group.List
import Mathlib.Algebra.Order.Group.Nat
import DewDB.RouterQuery

/-!
# Following the cursors of an unsorted query over all shards

What is left of the scan is what is left on each shard that is still in it. A page takes rows from
the shards that it asks and leaves the rest where it was, and at least one shard is asked.
-/
namespace DewDB.RouterQuery

open Endpoint TokenRing Vote ClusterMeta KeyOwnership JsonValue QueryFilter Secondary QuerySort
  QueryScan QueryPages SortedPages Std
open HandoverPlan (holds)

section Shares

theorem sum_shares (q r n : ℕ) :
    ((List.range n).map fun i => q + if i < r then 1 else 0).sum = n * q + min n r := by
  induction n with
  | zero => simp
  | succ n ih =>
    rw [List.range_succ, List.map_append, List.sum_append, ih, List.map_singleton,
      List.sum_singleton, Nat.succ_mul]
    split_ifs <;> omega

theorem length_shardShares (limit n : ℕ) : (shardShares limit n).length = n := by
  unfold shardShares
  split_ifs with h
  · exact h.symm
  · rw [List.length_map, List.length_range]

theorem sum_shardShares (limit : ℕ) {n : ℕ} (hn : n ≠ 0) : (shardShares limit n).sum = limit := by
  have hlt : limit % n < n := Nat.mod_lt limit (Nat.pos_of_ne_zero hn)
  rw [shardShares, if_neg hn, sum_shares, Nat.min_eq_right hlt.le]
  exact Nat.div_add_mod limit n

theorem exists_share {limit n : ℕ} (hn : n ≠ 0) (hlimit : 0 < limit) :
    ∃ share ∈ shardShares limit n, share ≠ 0 := by
  have hfirst : limit / n + (if 0 < limit % n then 1 else 0) ≠ 0 := by
    rcases Nat.lt_or_ge limit n with hlt | hge
    · rw [Nat.mod_eq_of_lt hlt, if_pos hlimit]
      exact Nat.succ_ne_zero _
    · have hdiv : 0 < limit / n := Nat.div_pos hge (Nat.pos_of_ne_zero hn)
      omega
  refine ⟨_, ?_, hfirst⟩
  rw [shardShares, if_neg hn]
  exact List.mem_map.mpr ⟨0, List.mem_range.mpr (Nat.pos_of_ne_zero hn), rfl⟩

end Shares

section Owners

theorem mem_of_ownersAfter {seen : List Url} {owners : List (Url × List Url)} {o : Url × List Url}
    (h : o ∈ ClusterView.ownersAfter seen owners) : o ∈ owners ∧ o.1 ∉ seen := by
  induction owners generalizing seen with
  | nil => cases h
  | cons q owners ih =>
    rw [ClusterView.ownersAfter] at h
    split_ifs at h with hseen
    · exact (ih h).imp_left (List.mem_cons_of_mem q)
    · rcases List.mem_cons.mp h with rfl | h
      · exact ⟨List.mem_cons_self, hseen⟩
      · obtain ⟨hmem, hnew⟩ := ih h
        exact ⟨List.mem_cons_of_mem q hmem, fun hs => hnew (List.mem_cons_of_mem _ hs)⟩

theorem nodup_ownersAfter (seen : List Url) (owners : List (Url × List Url)) :
    ((ClusterView.ownersAfter seen owners).map Prod.fst).Nodup := by
  induction owners generalizing seen with
  | nil => exact List.nodup_nil
  | cons q owners ih =>
    rw [ClusterView.ownersAfter]
    split_ifs
    · exact ih seen
    · rw [List.map_cons, List.nodup_cons]
      refine ⟨fun hmem => ?_, ih _⟩
      obtain ⟨o, ho, hq⟩ := List.mem_map.mp hmem
      exact (mem_of_ownersAfter ho).2 (hq ▸ List.mem_cons_self)

theorem nodup_shardOwners (v : ClusterView.ClusterMetadata) :
    (v.shardOwners.map Prod.fst).Nodup := by
  unfold ClusterView.ClusterMetadata.shardOwners
  split <;> exact nodup_ownersAfter _ _

theorem mem_ownersAfter {seen : List Url} {owners : List (Url × List Url)} {o : Url × List Url}
    (h : o ∈ owners)
    (hseen : o.1 ∉ seen) : ∃ q ∈ ClusterView.ownersAfter seen owners, q.1 = o.1 := by
  induction owners generalizing seen with
  | nil => cases h
  | cons q owners ih =>
    rw [ClusterView.ownersAfter]
    rcases List.mem_cons.mp h with rfl | h
    · rw [if_neg hseen]
      exact ⟨o, List.mem_cons_self, rfl⟩
    · split_ifs with hq
      · exact ih h hseen
      · by_cases hsame : o.1 = q.1
        · exact ⟨q, List.mem_cons_self, hsame.symm⟩
        · have hnew : o.1 ∉ q.1 :: seen := by simp [hsame, hseen]
          obtain ⟨w, hw, hkey⟩ := ih h hnew
          exact ⟨w, List.mem_cons_of_mem q hw, hkey⟩

end Owners

variable {N : Type} [Number N] [DecidableEq N]

section Rows

variable (xxh64 : Xxh64) (v : ClusterMetadata) (collection : CollectionName)
  (nodes : ℕ → Url → Node N) (p : QueryParams N)

def scans (o : Url) (key : Key) : Bool := v.ring.isNone || decide (Owns xxh64 v collection o key)

/-- The rows that the shard has behind a position, in key order. -/
def shardRows (o : Url) (after : Option Key) : List (SortedRow N) :=
  match (nodes 0 o).col with
  | none => []
  | some col => rowsIn col.docs p.filter (scans xxh64 v collection o) after p.start p.stop

def left (s : Url × Option KeyCursor) : List (SortedRow N) :=
  shardRows xxh64 v collection nodes p s.1 (s.2.map KeyCursor.key)

def load (s : Url × Option KeyCursor) : ℕ :=
  match (nodes 0 s.1).col with
  | none => 1
  | some col => (col.inRange (s.2.map KeyCursor.key) p.start p.stop).length + 1

def PositionOk (after : Option KeyCursor) : Prop :=
  (∀ c ∈ after, c.ring = some (partitionFingerprint xxh64 v)) ∧
    Resumes (after.map KeyCursor.key) p.start

end Rows

section Shards

variable {xxh64 : Xxh64} {v : ClusterMetadata} {collection : CollectionName}
  {nodes : ℕ → Url → Node N}
  {p : QueryParams N} {docs : ExtTreeMap Key (Json N) strCmp} {budget limit : ℕ}

omit [DecidableEq N] in
theorem includes_eq (hv : v.validate = .ok ())
    (hplaced : Placed xxh64 v collection docs nodes) (i : ℕ)
    {o : Url × List Url} (ho : o ∈ v.forget.shardOwners) :
    includes xxh64 v collection (nodes i o.1) = scans xxh64 v collection o.1 := by
  funext key
  cases hring : v.ring with
  | none => simp [includes, scans, hring, scanOwnership, ringsOf, ScanOwnership.includes]
  | some ring =>
    have hr : ring.validate = .ok () := (validate_iff.mp hv).1.2.1 ring hring
    have hanswers := hplaced.answers i o ho
    have howners : v.forget.shardOwners =
        ClusterView.ownersAfter [] (ring.shards.map fun s => (s.nodeUrl, s.replicaUrls)) := by
      rw [ClusterView.ClusterMetadata.shardOwners, ClusterMetadata.forget, hring]
    rw [howners] at ho
    obtain ⟨s, hs, rfl⟩ := List.mem_map.mp (mem_of_ownersAfter ho).1
    obtain ⟨owner, hos, hown⟩ := @exists_owner _ xxh64 hr (hashKey xxh64 collection key)
    have hscan := scanOwnership_includes hring hr hown hos hs hanswers
    have howner : ownerOf xxh64 v collection key = some owner.nodeUrl := by
      simp [ownerOf, configuredShard, ringsOf, hring, hown]
    have howns : Owns xxh64 v collection s.nodeUrl key ↔ s = owner := by
      constructor
      · rintro ⟨u, hu, hkey⟩
        rw [howner] at hu
        obtain rfl := Option.some.inj hu
        exact eq_of_primary hr hs hos hkey.symm
      · rintro rfl
        exact ⟨_, howner, rfl⟩
    rw [includes, Bool.eq_iff_iff, hscan, scans, hring]
    simpa using howns.symm

omit [Number N] [DecidableEq N] in
theorem budget_pos (h : p.budget = .ok budget) : 0 < budget := by
  unfold QueryParams.budget at h
  split at h
  · split_ifs at h
    obtain rfl := Except.ok.inj h
    exact Nat.lt_of_lt_of_le Nat.one_pos (Nat.le_max_right _ _)
  · obtain rfl := Except.ok.inj h
    exact Nat.succ_pos _

omit [Number N] [DecidableEq N] in
theorem pageLimit_some (hpos : 0 < limit) (hle : limit ≤ maxQueryLimit) :
    ({ p with limit := some limit } : QueryParams N).pageLimit = .ok limit := by
  rw [QueryParams.pageLimit]
  dsimp only
  rw [if_neg (Nat.not_lt.mpr hle), Nat.max_eq_left hpos]

theorem shardPage_rest (hv : v.validate = .ok ())
    (hplaced : Placed xxh64 v collection docs nodes) (i : ℕ)
    {o : Url × List Url} (ho : o ∈ v.forget.shardOwners) (hbudget : p.budget = .ok budget)
    (hrange : p.checkKeyRange = .ok ()) (hpos : 0 < limit) (hle : limit ≤ maxQueryLimit)
    {after : Option KeyCursor} (hafter : PositionOk xxh64 v p after) :
    ((nodes 0 o.1).col = none ∧ shardPage xxh64 v collection
      (nodes i o.1) p limit after = .absent) ∨
    ∃ rows next, shardPage xxh64 v collection (nodes i o.1) p limit after = .page ⟨rows, next⟩ ∧
      rows.length ≤ limit ∧
      (next = none → left xxh64 v collection nodes p (o.1, after) = rows) ∧
      ∀ c, next = some c → PositionOk xxh64 v p (some c) ∧
        left xxh64 v collection nodes p (o.1, after) = rows ++ left xxh64 v collection nodes p
          (o.1, some c) ∧
        load nodes p (o.1, some c) < load nodes p (o.1, after) := by
  have hring : (after.any fun c => c.ring.any fun r =>
    r != partitionFingerprint xxh64 v) = false := by
    cases after with
    | none => rfl
    | some c =>
      have hc := hafter.1 c rfl
      simp [hc]
  have hstatic := hplaced.static i o.1
  unfold shardPage
  rw [hbudget, pageLimit_some hpos hle, hrange]
  dsimp only
  rw [hring]
  cases hcol : (nodes i o.1).col with
  | none =>
    left
    rw [hcol, Option.map_none, eq_comm, Option.map_eq_none_iff] at hstatic
    exact ⟨hstatic, rfl⟩
  | some col =>
    right
    rw [hcol, Option.map_some, eq_comm, Option.map_eq_some_iff] at hstatic
    obtain ⟨col₀, hcol₀, hdocs⟩ := hstatic
    have hlive : col.released = false := hplaced.live i o.1 col hcol
    obtain ⟨rows, next, hpage, hlen, hend, hrest⟩ := @queryPageOwned_rest _ _ _ col p.filter
      (scans xxh64 v collection o.1) limit budget (after.map KeyCursor.key) p.start p.stop
        hlive hafter.2 hpos
      (budget_pos hbudget)
    rw [if_neg Bool.false_ne_true, includes_eq hv hplaced i ho]
    dsimp only
    rw [hpage]
    refine ⟨rows, _, rfl, hlen, fun hnone => ?_, fun c hc => ?_⟩
    · rw [left, shardRows, hcol₀]
      dsimp only
      rw [hdocs, hend (Option.map_eq_none_iff.mp hnone)]
    · obtain ⟨k, hk, rfl⟩ := Option.map_eq_some_iff.mp hc
      obtain ⟨hin, hrows⟩ := hrest k hk
      have hin₀ : k ∈ col₀.inRange (after.map KeyCursor.key) p.start p.stop := by
        rwa [Collection.inRange, Collection.keys, hdocs, ← Collection.keys, ← Collection.inRange]
      refine ⟨⟨fun c hc => ?_, resumes_of_inRange col hafter.2 hin⟩, ?_, ?_⟩
      · obtain rfl := Option.some.inj hc
        rfl
      · rw [left, left, shardRows, shardRows, hcol₀]
        dsimp only [Option.map_some]
        rw [hdocs, hrows]
      · obtain ⟨front, back, hsplit⟩ := List.append_of_mem hin₀
        rw [load, load, hcol₀]
        dsimp only [Option.map_some]
        rw [inRange_after col₀ hsplit, hsplit, List.length_append, List.length_cons]
        omega

end Shards

section Pages

variable {xxh64 : Xxh64} {v : ClusterMetadata} {collection : CollectionName}
  {nodes : ℕ → Url → Node N}
  {p : QueryParams N} {docs : ExtTreeMap Key (Json N) strCmp} {budget limit : ℕ}

def asked (split : List ((Url × Option KeyCursor) × ℕ)) : List ((Url × Option KeyCursor) × ℕ) :=
  split.filter fun s => s.2 != 0

def carried (split : List ((Url × Option KeyCursor) × ℕ)) : List (Url × Option KeyCursor) :=
  (split.filter fun s => s.2 == 0).map Prod.fst

/-- What the loop over the replies comes to: the rows, and the positions of the shards that have
more. -/
structure Split (xxh64 : Xxh64) (v : ClusterMetadata) (collection : CollectionName)
    (nodes : ℕ → Url → Node N)
    (p : QueryParams N) (split : List ((Url × Option KeyCursor) × ℕ)) (rows : List (SortedRow N))
    (fresh : List (Url × Option KeyCursor)) (present absent : ℕ) : Prop where
  length : rows.length ≤ (split.map Prod.snd).sum
  rest : (split.flatMap fun s => left xxh64 v collection nodes p s.1).Perm
    (rows ++ (carried split ++ fresh).flatMap (left xxh64 v collection nodes p))
  measure : ((carried split ++ fresh).map (load nodes p)).sum + (asked split).length ≤
    (split.map fun s => load nodes p s.1).sum
  urls : ∃ dropped, (split.map fun s => s.1.1).Perm
    ((carried split ++ fresh).map Prod.fst ++ dropped)
  positions : ∀ s ∈ fresh, PositionOk xxh64 v p s.2
  count : present + absent = (asked split).length
  nowhere : present = 0 → fresh = [] ∧ rows = []
  lacking : 0 < absent → ∃ s ∈ split, (nodes 0 s.1.1).col = none

def replyOf (xxh64 : Xxh64) (v : ClusterMetadata) (collection : CollectionName)
    (nodes : Url → Node N)
    (p : QueryParams N) (s : (Url × Option KeyCursor) × ℕ) : Url × Reply N KeyCursor :=
  (s.1.1, shardPage xxh64 v collection (nodes s.1.1) p s.2 s.1.2)

theorem Split.carry {split : List ((Url × Option KeyCursor) × ℕ)} {rows : List (SortedRow N)}
    {fresh : List (Url × Option KeyCursor)} {present absent : ℕ}
    (h : Split xxh64 v collection nodes p split rows fresh present absent)
    {s : (Url × Option KeyCursor) × ℕ}
    (hs : s.2 = 0) : Split xxh64 v collection nodes p (s :: split) rows fresh present absent := by
  have hcarried : carried (s :: split) = s.1 :: carried split := by simp [carried, hs]
  have hasked : asked (s :: split) = asked split := by simp [asked, hs]
  obtain ⟨dropped, hurls⟩ := h.urls
  constructor
  · rw [List.map_cons, List.sum_cons, hs, Nat.zero_add]
    exact h.length
  · rw [hcarried, List.flatMap_cons, List.cons_append, List.flatMap_cons]
    exact (h.rest.append_left _).trans (List.perm_append_comm_assoc _ _ _)
  · have hload := h.measure
    rw [hcarried, hasked, List.cons_append, List.map_cons, List.sum_cons, List.map_cons,
      List.sum_cons]
    omega
  · rw [hcarried, List.cons_append, List.map_cons, List.map_cons]
    exact ⟨dropped, hurls.cons _⟩
  · exact h.positions
  · exact hasked.symm ▸ h.count
  · exact h.nowhere
  · intro habsent
    obtain ⟨q, hq, hcol⟩ := h.lacking habsent
    exact ⟨q, List.mem_cons_of_mem s hq, hcol⟩

theorem Split.drop {split : List ((Url × Option KeyCursor) × ℕ)} {rows : List (SortedRow N)}
    {fresh : List (Url × Option KeyCursor)} {present absent : ℕ}
    (h : Split xxh64 v collection nodes p split rows fresh present absent)
    {s : (Url × Option KeyCursor) × ℕ} (hs : s.2 ≠ 0) (hcol : (nodes 0 s.1.1).col = none) :
    Split xxh64 v collection nodes p (s :: split) rows fresh present (absent + 1) := by
  have hcarried : carried (s :: split) = carried split := by simp [carried, hs]
  have hasked : asked (s :: split) = s :: asked split := by simp [asked, hs]
  have hleft : left xxh64 v collection nodes p s.1 = [] := by rw [left, shardRows, hcol]
  have hone : load nodes p s.1 = 1 := by rw [load, hcol]
  obtain ⟨dropped, hurls⟩ := h.urls
  constructor
  · rw [List.map_cons, List.sum_cons]
    exact h.length.trans (Nat.le_add_left _ _)
  · rw [hcarried, List.flatMap_cons, hleft, List.nil_append]
    exact h.rest
  · have hload := h.measure
    rw [hcarried, hasked, List.length_cons, List.map_cons, List.sum_cons, hone]
    omega
  · rw [hcarried, List.map_cons]
    exact ⟨s.1.1 :: dropped, (hurls.cons _).trans List.perm_middle.symm⟩
  · exact h.positions
  · have hcount := h.count
    rw [hasked, List.length_cons]
    omega
  · exact h.nowhere
  · exact fun _ => ⟨s, List.mem_cons_self, hcol⟩

theorem Split.page {split : List ((Url × Option KeyCursor) × ℕ)} {rows rows' : List (SortedRow N)}
    {fresh : List (Url × Option KeyCursor)} {present absent : ℕ}
    (h : Split xxh64 v collection nodes p split rows fresh present absent)
    {s : (Url × Option KeyCursor) × ℕ}
    (hs : s.2 ≠ 0) {next : Option KeyCursor} (hlength : rows'.length ≤ s.2)
    (hend : next = none → left xxh64 v collection nodes p s.1 = rows')
    (hrest : ∀ c, next = some c → PositionOk xxh64 v p (some c) ∧
      left xxh64 v collection nodes p s.1 = rows' ++ left xxh64 v collection nodes p
        (s.1.1, some c) ∧
      load nodes p (s.1.1, some c) < load nodes p s.1) :
    Split xxh64 v collection nodes p (s :: split) (rows' ++ rows)
      ((next.map fun c => (s.1.1, some c)).toList ++ fresh) (present + 1) absent := by
  have hcarried : carried (s :: split) = carried split := by simp [carried, hs]
  have hasked : asked (s :: split) = s :: asked split := by simp [asked, hs]
  have hload := h.measure
  have hcount := h.count
  obtain ⟨dropped, hurls⟩ := h.urls
  have hnowhere : present + 1 = 0 →
      (next.map fun c => (s.1.1, some c)).toList ++ fresh = [] ∧ rows' ++ rows = [] :=
        fun h => by cases h
  have habsent : 0 < absent → ∃ q ∈ s :: split, (nodes 0 q.1.1).col = none := by
    intro hpos
    obtain ⟨q, hq, hcol⟩ := h.lacking hpos
    exact ⟨q, List.mem_cons_of_mem s hq, hcol⟩
  have hlen : (rows' ++ rows).length ≤ ((s :: split).map Prod.snd).sum := by
    rw [List.length_append, List.map_cons, List.sum_cons]
    exact Nat.add_le_add hlength h.length
  cases next with
  | none =>
    have hpos : 0 < load nodes p s.1 := by
      unfold load
      split <;> exact Nat.succ_pos _
    refine ⟨hlen, ?_, ?_, ?_, h.positions, ?_, hnowhere, habsent⟩
    · rw [hcarried, List.flatMap_cons, hend rfl, List.append_assoc]
      exact h.rest.append_left rows'
    · rw [hcarried, hasked, List.length_cons, List.map_cons, List.sum_cons]
      dsimp only [Option.map_none, Option.toList_none, List.nil_append]
      omega
    · rw [hcarried, List.map_cons]
      exact ⟨s.1.1 :: dropped, (hurls.cons _).trans List.perm_middle.symm⟩
    · rw [hasked, List.length_cons]
      omega
  | some c =>
    obtain ⟨hok, hrows, hless⟩ := hrest c rfl
    have hmiddle : (carried split ++ ((s.1.1, some c) :: fresh)).Perm
        ((s.1.1, some c) :: (carried split ++ fresh)) := List.perm_middle
    refine ⟨hlen, ?_, ?_, ?_, ?_, ?_, hnowhere, habsent⟩
    · rw [hcarried, List.flatMap_cons, hrows]
      have hflat := hmiddle.flatMap_right (left xxh64 v collection nodes p)
      rw [List.flatMap_cons] at hflat
      calc rows' ++ left xxh64 v collection nodes p (s.1.1, some c) ++
            split.flatMap (fun s => left xxh64 v collection nodes p s.1)
          _ |>.Perm (rows' ++ (left xxh64 v collection nodes p (s.1.1, some c) ++
              (rows ++ (carried split ++ fresh).flatMap (left xxh64 v collection nodes p)))) := by
            rw [List.append_assoc]
            exact (h.rest.append_left _).append_left _
          _ |>.Perm _ := by
            rw [List.append_assoc]
            exact ((List.perm_append_comm_assoc _ _ _).trans
              (hflat.symm.append_left _)).append_left _
    · have hsum := (hmiddle.map (load nodes p)).sum_nat
      rw [List.map_cons, List.sum_cons] at hsum
      rw [hcarried, hasked, List.length_cons, List.map_cons, List.sum_cons]
      dsimp only [Option.map_some, Option.toList_some, List.singleton_append]
      omega
    · rw [hcarried, List.map_cons]
      have hmap := hmiddle.map Prod.fst
      exact ⟨dropped, (hurls.cons _).trans (hmap.symm.append_right dropped)⟩
    · intro q hq
      rcases List.mem_cons.mp hq with rfl | hq
      · exact hok
      · exact h.positions q hq
    · rw [hasked, List.length_cons]
      omega

/-- What the loop over the replies of the shards that are asked comes to. -/
theorem gather_split (hv : v.validate = .ok ())
    (hplaced : Placed xxh64 v collection docs nodes) (i : ℕ)
    (hbudget : p.budget = .ok budget) (hrange : p.checkKeyRange = .ok ())
    (split : List ((Url × Option KeyCursor) × ℕ))
    (hsplit : ∀ s ∈ split, s.1.1 ∈ v.forget.shardOwners.map Prod.fst ∧ PositionOk xxh64 v p s.1.2 ∧
      s.2 ≤ maxQueryLimit) (g : Gathered N) :
    ∃ rows fresh present absent,
      ((asked split).map (replyOf xxh64 v collection (nodes i) p)).foldlM Gathered.take g =
        .ok ⟨g.rows ++ rows, g.positions ++ fresh, g.present + present, g.absent + absent⟩ ∧
      Split xxh64 v collection nodes p split rows fresh present absent := by
  induction split generalizing g with
  | nil =>
    refine ⟨[], [], 0, 0, ?_, ?_⟩
    · rw [List.append_nil, List.append_nil]
      rfl
    · exact ⟨Nat.le_refl 0, List.Perm.nil, Nat.le_refl 0, ⟨[], List.Perm.nil⟩, nofun, rfl, fun _ =>
        ⟨rfl, rfl⟩, nofun⟩
  | cons s split ih =>
    obtain ⟨hurl, hposition, hle⟩ := hsplit s List.mem_cons_self
    have hrest := fun q hq => hsplit q (List.mem_cons_of_mem s hq)
    by_cases hs : s.2 = 0
    · obtain ⟨rows, fresh, present, absent, hgather, hok⟩ := ih hrest g
      have hasked : asked (s :: split) = asked split := by simp [asked, hs]
      exact ⟨rows, fresh, present, absent, by rw [hasked]; exact hgather, hok.carry hs⟩
    · have hasked : asked (s :: split) = s :: asked split := by simp [asked, hs]
      obtain ⟨o, ho, heq⟩ := List.mem_map.mp hurl
      have hpage := shardPage_rest hv hplaced i ho hbudget hrange
        (Nat.pos_of_ne_zero hs) hle hposition
      rw [heq] at hpage
      rw [hasked, List.map_cons, List.foldlM_cons]
      rcases hpage with ⟨hcol, hreply⟩ | ⟨rows', next, hreply, hlen, hend, hnext⟩
      · have htake : g.take (replyOf xxh64 v collection (nodes i) p s) = .ok
          { g with absent := g.absent + 1 } := by
          rw [Gathered.take, replyOf, hreply]
        obtain ⟨rows, fresh, present, absent, hgather, hok⟩ :=
          ih hrest { g with absent := g.absent + 1 }
        refine ⟨rows, fresh, present, absent + 1, ?_, hok.drop hs hcol⟩
        rw [htake]
        refine hgather.trans ?_
        rw [Nat.add_assoc, Nat.add_comm 1 absent]
      · have htake : g.take (replyOf xxh64 v collection (nodes i) p s) = .ok { g with
            rows := g.rows ++ rows'
            positions := g.positions ++ (next.map fun c => (s.1.1, some c)).toList
            present := g.present + 1 } := by
          rw [Gathered.take, replyOf, hreply]
        obtain ⟨rows, fresh, present, absent, hgather, hok⟩ := ih hrest { g with
            rows := g.rows ++ rows'
            positions := g.positions ++ (next.map fun c => (s.1.1, some c)).toList
            present := g.present + 1 }
        refine ⟨rows' ++ rows, _, present + 1, absent, ?_, hok.page hs hlen hend hnext⟩
        rw [htake]
        refine hgather.trans ?_
        rw [List.append_assoc, List.append_assoc, Nat.add_assoc, Nat.add_comm 1 present]

theorem lookup_of_mem {positions : List (Url × Option KeyCursor)}
    (h : (positions.map Prod.fst).Nodup)
    {s : Url × Option KeyCursor} (hs : s ∈ positions) : positions.lookup s.1 = some s.2 := by
  induction positions with
  | nil => cases hs
  | cons q positions ih =>
    rw [List.map_cons, List.nodup_cons] at h
    rcases List.mem_cons.mp hs with rfl | hs
    · rw [List.lookup_cons, beq_self_eq_true]
    · have hne : (s.1 == q.1) = false := by
        rw [beq_eq_false_iff_ne]
        exact fun heq => h.1 (heq ▸ List.mem_map_of_mem hs)
      rw [List.lookup_cons, hne]
      exact ih h.2 hs

theorem mem_of_lookup {positions : List (Url × Option KeyCursor)} {o : Url}
    {after : Option KeyCursor} (h : positions.lookup o = some after) : (o, after) ∈ positions := by
  induction positions with
  | nil => cases h
  | cons q positions ih =>
    rw [List.lookup_cons] at h
    split at h
    · next heq =>
      obtain rfl := Option.some.inj h
      exact List.mem_cons.mpr (.inl (Prod.ext (beq_iff_eq.mp heq) rfl))
    · exact List.mem_cons_of_mem q (ih h)

/-- The shards that are still in the scan are those with a position in the cursor. -/
theorem activeShards_perm {owners : List (Url × List Url)} (howners : (owners.map Prod.fst).Nodup)
    {c : ShardCursor}
    (hc : (c.positions.map Prod.fst).Nodup) (hmem : ∀ s ∈ c.positions, s.1 ∈ owners.map Prod.fst) :
    (activeShards owners (some c)).Perm c.positions := by
  have hkeys : (activeShards owners (some c)).map Prod.fst =
      owners.filterMap fun o => (c.positions.lookup o.1).map fun _ => o.1 := by
    rw [activeShards, List.map_filterMap]
    simp only [Option.map_map]
    rfl
  have hsub : ((activeShards owners (some c)).map Prod.fst).Sublist (owners.map Prod.fst) := by
    rw [hkeys]
    clear hmem howners hkeys
    induction owners with
    | nil => exact List.Sublist.refl _
    | cons o owners ih =>
      rw [List.filterMap_cons, List.map_cons]
      cases c.positions.lookup o.1 with
      | none => exact ih.cons _
      | some after => exact ih.cons_cons _
  apply (List.perm_ext_iff_of_nodup (howners.sublist hsub).of_map hc.of_map).mpr
  intro s
  constructor
  · intro hs
    obtain ⟨o, -, ho⟩ := List.mem_filterMap.mp hs
    obtain ⟨after, hafter, rfl⟩ := Option.map_eq_some_iff.mp ho
    exact mem_of_lookup hafter
  · intro hs
    obtain ⟨o, ho, heq⟩ := List.mem_map.mp (hmem s hs)
    refine List.mem_filterMap.mpr ⟨o, ho, ?_⟩
    rw [heq, lookup_of_mem hc hs, Option.map_some]

structure CursorOk (xxh64 : Xxh64) (v : ClusterMetadata) (p : QueryParams N)
    (c : ShardCursor) : Prop where
  ring : c.ring = partitionFingerprint xxh64 v
  nodup : (c.positions.map Prod.fst).Nodup
  owners : ∀ s ∈ c.positions, s.1 ∈ v.forget.shardOwners.map Prod.fst
  positions : ∀ s ∈ c.positions, PositionOk xxh64 v p s.2

omit [Number N] [DecidableEq N] in
theorem mem_activeShards {c : Option ShardCursor} (hc : ∀ c' ∈ c, CursorOk xxh64 v p c')
    {s : Url × Option KeyCursor} (hs : s ∈ activeShards v.forget.shardOwners c) :
    s.1 ∈ v.forget.shardOwners.map Prod.fst ∧ PositionOk xxh64 v p s.2 := by
  cases c with
  | none =>
    obtain ⟨o, ho, rfl⟩ := List.mem_map.mp hs
    exact ⟨List.mem_map_of_mem ho, nofun, nofun⟩
  | some c =>
    have hok := hc c rfl
    have hmem := (activeShards_perm (nodup_shardOwners _) hok.nodup hok.owners).mem_iff.mp hs
    exact ⟨hok.owners s hmem, hok.positions s hmem⟩

omit [Number N] [DecidableEq N] in
theorem nodup_activeShards {c : Option ShardCursor} (hc : ∀ c' ∈ c, CursorOk xxh64 v p c') :
    ((activeShards v.forget.shardOwners c).map Prod.fst).Nodup := by
  cases c with
  | none =>
    rw [activeShards, List.map_map]
    exact nodup_shardOwners _
  | some c =>
    have hok := hc c rfl
    exact ((activeShards_perm (nodup_shardOwners _) hok.nodup hok.owners).map
      Prod.fst).nodup_iff.mpr hok.nodup

/-- What a page leaves, and that it takes something off every walk that goes on. -/
theorem routerPage_rest (hv : v.validate = .ok ())
    (hplaced : Placed xxh64 v collection docs nodes) (i : ℕ)
    (hbudget : p.budget = .ok budget) (hrange : p.checkKeyRange = .ok ()) (hpos : 0 < limit)
    (hle : limit ≤ maxQueryLimit) {c : Option ShardCursor} (hc : ∀ c' ∈ c, CursorOk xxh64 v p c') :
    (routerPage xxh64 v collection (nodes i) p limit c = .error .collectionAbsent ∧
      (activeShards v.forget.shardOwners c).flatMap (left xxh64 v collection nodes p) = [] ∧
      ∃ o ∈ v.forget.shardOwners, (nodes 0 o.1).col = none) ∨
    ∃ rows next, routerPage xxh64 v collection (nodes i) p limit c = .ok ⟨rows, next⟩ ∧
      rows.length ≤ limit ∧
      (next = none → ((activeShards v.forget.shardOwners c).flatMap
        (left xxh64 v collection nodes p)).Perm rows) ∧
      ∀ c', next = some c' → CursorOk xxh64 v p c' ∧
        ((activeShards v.forget.shardOwners c).flatMap (left xxh64 v collection nodes p)).Perm
          (rows ++ (activeShards v.forget.shardOwners (some c')).flatMap
            (left xxh64 v collection nodes p)) ∧
        ((activeShards v.forget.shardOwners (some c')).map (load nodes p)).sum <
          ((activeShards v.forget.shardOwners c).map (load nodes p)).sum := by
  obtain ⟨active, hactive⟩ : ∃ active, active = activeShards v.forget.shardOwners c := ⟨_, rfl⟩
  obtain ⟨split, hsplit⟩ : ∃ split, split = active.zip (shardShares limit active.length) := ⟨_, rfl⟩
  have hlen : active.length = (shardShares limit active.length).length :=
    (length_shardShares _ _).symm
  have hfst : split.map Prod.fst = active := hsplit ▸ List.map_fst_zip hlen.le
  have hsnd : split.map Prod.snd = shardShares limit active.length :=
    hsplit ▸ List.map_snd_zip hlen.ge
  have hin : ∀ s ∈ split, s.1 ∈ active := fun s hs => hfst ▸ List.mem_map_of_mem hs
  have hshares : ∀ s ∈ split, s.2 ≤ limit := by
    intro s hs
    have hs' : s.2 ∈ shardShares limit active.length := hsnd ▸ List.mem_map_of_mem hs
    have hne : active.length ≠ 0 := (List.length_pos_of_mem (hin s hs)).ne'
    exact (List.le_sum_of_mem hs').trans (sum_shardShares limit hne).le
  have hsplitOk : ∀ s ∈ split, s.1.1 ∈ v.forget.shardOwners.map Prod.fst ∧
    PositionOk xxh64 v p s.1.2 ∧
      s.2 ≤ maxQueryLimit := by
    intro s hs
    obtain ⟨hurl, hposition⟩ := mem_activeShards hc (hactive ▸ hin s hs)
    exact ⟨hurl, hposition, (hshares s hs).trans hle⟩
  obtain ⟨rows, fresh, present, absent, hgather, hok⟩ :=
    gather_split hv hplaced i hbudget hrange split hsplitOk ⟨[], carried split, 0, 0⟩
  rw [List.nil_append, Nat.zero_add, Nat.zero_add] at hgather
  have hstale : (c.any fun c => c.ring != partitionFingerprint xxh64 v) = false := by
    cases c with
    | none => rfl
    | some c => simp [(hc c rfl).ring]
  have hpage : routerPage xxh64 v collection (nodes i) p limit c =
      if present = 0 ∧ 0 < absent ∧ carried split ++ fresh = [] then .error .collectionAbsent
      else .ok ⟨rows, if carried split ++ fresh = [] then none
        else some ⟨partitionFingerprint xxh64 v, carried split ++ fresh⟩⟩ := by
    unfold routerPage
    dsimp only
    rw [hstale, ← hactive, ← hsplit]
    exact congrArg (fun r => r >>= _) hgather
  have hleft : split.flatMap (fun s => left xxh64 v collection nodes p s.1) =
      active.flatMap (left xxh64 v collection nodes p) := by
    rw [← hfst, List.flatMap_map]
  have hload : split.map (fun s => load nodes p s.1) = active.map (load nodes p) := by
    rw [← hfst, List.map_map]
    rfl
  have hrest := hok.rest
  have hmeasure := hok.measure
  rw [hleft] at hrest
  rw [hload] at hmeasure
  rw [← hactive, hpage]
  split_ifs with habsent hdone
  · left
    obtain ⟨hpresent, hlacking, hpositions⟩ := habsent
    rw [(hok.nowhere hpresent).2, hpositions] at hrest
    obtain ⟨s, hs, hcol⟩ := hok.lacking hlacking
    obtain ⟨o, ho, heq⟩ := List.mem_map.mp (hsplitOk s hs).1
    exact ⟨rfl, hrest.eq_nil, o, ho, heq ▸ hcol⟩
  · right
    have hlength : rows.length ≤ limit := by
      have hsum := hok.length
      rw [hsnd] at hsum
      by_cases hne : active.length = 0
      · rw [hne] at hsum
        exact hsum.trans (Nat.zero_le limit)
      · rwa [sum_shardShares limit hne] at hsum
    rw [hdone, List.flatMap_nil, List.append_nil] at hrest
    exact ⟨rows, none, rfl, hlength, fun _ => hrest, nofun⟩
  · right
    have hne : active.length ≠ 0 := by
      intro hzero
      obtain ⟨dropped, hurls⟩ := hok.urls
      have hnil : split = [] := by
        rw [hsplit, List.eq_nil_of_length_eq_zero hzero, List.zip_nil_left]
      rw [hnil, List.map_nil] at hurls
      have hmap := (List.append_eq_nil_iff.mp hurls.nil_eq.symm).1
      exact hdone (hnil ▸ List.map_eq_nil_iff.mp hmap)
    have hlength : rows.length ≤ limit := by
      have hsum := hok.length
      rwa [hsnd, sum_shardShares limit hne] at hsum
    have hasked : 0 < (asked split).length := by
      obtain ⟨share, hshare, hnonzero⟩ := exists_share hne hpos
      rw [← hsnd] at hshare
      obtain ⟨s, hs, rfl⟩ := List.mem_map.mp hshare
      exact List.length_pos_of_mem (List.mem_filter.mpr ⟨hs, by simpa using hnonzero⟩)
    have hurlsEq : split.map (fun s => s.1.1) = active.map Prod.fst := by
      rw [← hfst, List.map_map]
      rfl
    obtain ⟨dropped, hurls⟩ := hok.urls
    rw [hurlsEq] at hurls
    have hcursor : CursorOk xxh64 v p ⟨partitionFingerprint xxh64 v, carried split ++ fresh⟩ := by
      constructor
      · rfl
      · have hnodup := hurls.nodup_iff.mp (hactive ▸ nodup_activeShards hc)
        exact (List.nodup_append.mp hnodup).1
      · intro s hs
        have hmem := hurls.mem_iff.mpr (List.mem_append_left dropped (List.mem_map_of_mem hs))
        obtain ⟨q, hq, heq⟩ := List.mem_map.mp hmem
        exact heq ▸ (mem_activeShards hc (hactive ▸ hq)).1
      · intro s hs
        rcases List.mem_append.mp hs with hs | hs
        · obtain ⟨q, hq, rfl⟩ := List.mem_map.mp hs
          exact (mem_activeShards hc (hactive ▸ hin q (List.mem_filter.mp hq).1)).2
        · exact hok.positions s hs
    refine ⟨rows, _, rfl, hlength, nofun, fun c' hc' => ?_⟩
    obtain rfl := Option.some.inj hc'
    have hperm := activeShards_perm (nodup_shardOwners v.forget) hcursor.nodup hcursor.owners
    refine ⟨hcursor, ?_, ?_⟩
    · exact hrest.trans ((hperm.symm.flatMap_right _).append_left rows)
    · rw [(hperm.map (load nodes p)).sum_nat]
      dsimp only
      omega

end Pages

section Walks

variable {xxh64 : Xxh64} {v : ClusterMetadata} {collection : CollectionName}
  {nodes : ℕ → Url → Node N}
  {p : QueryParams N} {docs : ExtTreeMap Key (Json N) strCmp} {budget limit : ℕ}

omit [Number N] [DecidableEq N] in
theorem pageLimit_bounds (h : p.pageLimit = .ok limit) : 0 < limit ∧ limit ≤ maxQueryLimit := by
  unfold QueryParams.pageLimit at h
  split at h
  · split_ifs at h with hle
    obtain rfl := Except.ok.inj h
    exact ⟨Nat.lt_of_lt_of_le Nat.one_pos (Nat.le_max_right _ _),
      max_le (Nat.not_lt.mp hle) (Nat.succ_pos 9999)⟩
  · obtain rfl := Except.ok.inj h
    exact ⟨Nat.succ_pos 99, by decide⟩

theorem routerQuery_unsorted (hsort : p.sort = none) (hbudget : p.budget = .ok budget)
    (hlimit : p.pageLimit = .ok limit)
    (hrange : p.checkKeyRange = .ok ()) (shards : Url → Node N) (c : Option ShardCursor) :
    routerQuery xxh64 v collection shards p (c.map .shards) =
      (routerPage xxh64 v collection shards p limit c).map fun page =>
        ⟨page.rows, page.nextCursor.map .shards⟩ := by
  unfold routerQuery
  rw [hbudget, hlimit, hrange, hsort]
  cases c <;> rfl

/-- Every page takes something off what can still be given, so the cursors come to an end. -/
theorem followRouter_rows (hv : v.validate = .ok ())
    (hplaced : Placed xxh64 v collection docs nodes)
    (hsort : p.sort = none) (hbudget : p.budget = .ok budget) (hlimit : p.pageLimit = .ok limit)
    (hrange : p.checkKeyRange = .ok ()) (fuel i : ℕ) {c : Option ShardCursor}
    (hc : ∀ c' ∈ c, CursorOk xxh64 v p c')
    (hfuel : ((activeShards v.forget.shardOwners c).map (load nodes p)).sum < fuel) :
    ∃ pages last, followRouter xxh64 v collection nodes p fuel i (c.map .shards) = some
      (pages, last) ∧ (∀ page ∈ pages, page.length ≤ limit) ∧
      ((activeShards v.forget.shardOwners c).flatMap (left xxh64 v collection nodes p)).Perm
        pages.flatten ∧
      (last = none ∨ last = some .collectionAbsent ∧ ∃ o ∈ v.forget.shardOwners,
        (nodes 0 o.1).col = none) := by
  obtain ⟨hpos, hle⟩ := pageLimit_bounds hlimit
  induction fuel generalizing i c with
  | zero => cases hfuel
  | succ fuel ih =>
    rw [followRouter, routerQuery_unsorted hsort hbudget hlimit hrange]
    rcases routerPage_rest hv hplaced i hbudget hrange hpos hle hc with
      ⟨hpage, hnone, habsent⟩ | ⟨rows, next, hpage, hlen, hend, hrest⟩
    · rw [hpage, hnone]
      exact ⟨[], _, rfl, nofun, List.Perm.nil, .inr ⟨rfl, habsent⟩⟩
    · rw [hpage]
      cases next with
      | none =>
        refine ⟨[rows], none, rfl, ?_, ?_, .inl rfl⟩
        · intro page hp
          rwa [List.mem_singleton.mp hp]
        · rw [List.flatten_singleton]
          exact hend rfl
      | some c' =>
        obtain ⟨hok, hperm, hless⟩ := hrest c' rfl
        have hnext : ∀ c'' ∈ some c', CursorOk xxh64 v p c'' := fun c'' h => Option.some.inj h ▸ hok
        obtain ⟨pages, last, hpages, hlens, hflat, hlast⟩ := ih (i + 1) hnext (by omega)
        refine ⟨rows :: pages, last, ?_, ?_, ?_, hlast⟩
        · exact congrArg (Option.map _) hpages
        · intro page hp
          rcases List.mem_cons.mp hp with rfl | hp
          · exact hlen
          · exact hlens page hp
        · rw [List.flatten_cons]
          exact hperm.trans (hflat.append_left rows)

theorem mem_owners_of_ownerOf {key : Key} {u : Url} (h : ownerOf xxh64 v collection key = some u) :
    ∃ o ∈ v.forget.shardOwners, o.1 = u := by
  obtain ⟨shard, hshard, rfl⟩ := Option.map_eq_some_iff.mp h
  unfold configuredShard at hshard
  unfold ClusterView.ClusterMetadata.shardOwners
  cases hring : v.ring with
  | none =>
    simp only [ringsOf, hring, Option.map_none] at hshard
    obtain ⟨s, hs, rfl⟩ := Option.map_eq_some_iff.mp hshard
    simp only [ClusterMetadata.forget, hring]
    exact mem_ownersAfter (List.mem_map_of_mem (List.mem_of_find?_eq_some hs)) List.not_mem_nil
  | some ring =>
    simp only [ringsOf, hring, Option.map_some] at hshard
    obtain ⟨s, hs, rfl⟩ := Option.map_eq_some_iff.mp hshard
    simp only [ClusterMetadata.forget, hring]
    have hmem : s ∈ ring.shards := BuiltRing.mem_of_owner hs
    exact mem_ownersAfter (List.mem_map_of_mem hmem) List.not_mem_nil

omit [DecidableEq N] in
theorem stored_and_scans_iff (hplaced : Placed xxh64 v collection docs nodes) {o : Url × List Url}
    (ho : o ∈ v.forget.shardOwners) {key : Key} {doc : Json N} :
    Stored nodes o.1 key doc ∧ scans xxh64 v collection o.1 key = true ↔
      docs[key]? = some doc ∧ Owns xxh64 v collection o.1 key := by
  have howns : Stored nodes o.1 key doc → scans xxh64 v collection o.1 key = true →
      Owns xxh64 v collection o.1 key := by
    intro hstored hscans
    cases hring : v.ring with
    | none => exact hplaced.onlyOwned hring o ho key doc hstored
    | some ring => simpa [scans, hring] using hscans
  constructor
  · rintro ⟨hstored, hscans⟩
    have hown := howns hstored hscans
    exact ⟨(hplaced.stored o ho key doc hown).mp hstored, hown⟩
  · rintro ⟨hdoc, hown⟩
    exact ⟨(hplaced.stored o ho key doc hown).mpr hdoc, by simp [scans, hown]⟩

theorem mem_shardRows (hplaced : Placed xxh64 v collection docs nodes) {o : Url × List Url}
    (ho : o ∈ v.forget.shardOwners) {row : SortedRow N} :
    row ∈ shardRows xxh64 v collection nodes p o.1 none ↔
      row ∈ rowsIn docs p.filter (fun key => (ownerOf xxh64 v collection key).isSome) none
        p.start p.stop ∧ Owns xxh64 v collection o.1 row.key := by
  have hsome : Owns xxh64 v collection o.1 row.key →
    (ownerOf xxh64 v collection row.key).isSome = true := by
    rintro ⟨u, hu, -⟩
    exact Option.isSome_of_mem hu
  have hplace : Stored nodes o.1 row.key row.value ∧ scans xxh64 v collection o.1 row.key = true ↔
      docs[row.key]? = some row.value ∧ Owns xxh64 v collection o.1 row.key :=
        stored_and_scans_iff hplaced ho
  have hmem : row ∈ shardRows xxh64 v collection nodes p o.1 none ↔
      (Stored nodes o.1 row.key row.value ∧ scans xxh64 v collection o.1 row.key = true) ∧
        (p.filter.all fun f => f.matches row.value) = true ∧ fromLower none p.start row.key = true ∧
        toUpper p.stop row.key = true := by
    unfold shardRows Stored
    cases hcol : (nodes 0 o.1).col with
    | none => simp
    | some col =>
      simp only [mem_rowsIn, Option.some.injEq, exists_eq_left', and_assoc]
  rw [hmem, hplace, mem_rowsIn]
  constructor
  · rintro ⟨⟨hdoc, hown⟩, hrest⟩
    exact ⟨⟨hdoc, hsome hown, hrest⟩, hown⟩
  · rintro ⟨⟨hdoc, -, hrest⟩, hown⟩
    exact ⟨⟨hdoc, hown⟩, hrest⟩

theorem rowsIn_nodup {M : Type} [Number M] [DecidableEq M] (docs : ExtTreeMap Key (Json M) strCmp)
    (filter : Option (QueryFilter.Filter M)) (owned : Key → Bool) (start stop : Option Key) :
    (rowsIn docs filter owned none start stop).Nodup :=
  (rowsIn_distinct docs).imp fun hne heq => hne (congrArg SortedRow.key heq)

theorem shardRows_perm (hplaced : Placed xxh64 v collection docs nodes)
    (hdistinct : (v.forget.shardOwners.map fun o => nodeKey o.1).Nodup) :
    (v.forget.shardOwners.flatMap fun o => shardRows xxh64 v collection nodes p o.1 none).Perm
      (rowsIn docs p.filter (fun key => (ownerOf xxh64 v collection key).isSome) none
        p.start p.stop) := by
  have hshards : ∀ o ∈ v.forget.shardOwners,
    (shardRows xxh64 v collection nodes p o.1 none).Nodup := by
    intro o _
    unfold shardRows
    split
    · exact List.nodup_nil
    · exact rowsIn_nodup _ _ _ _ _
  have hapart : v.forget.shardOwners.Pairwise fun o o' => List.Disjoint
      (shardRows xxh64 v collection nodes p o.1 none)
        (shardRows xxh64 v collection nodes p o'.1 none) := by
    have hkeys : v.forget.shardOwners.Pairwise fun o o' => nodeKey o.1 ≠ nodeKey o'.1 :=
      List.pairwise_map.mp hdistinct
    apply List.Pairwise.imp_of_mem _ hkeys
    intro o o' ho ho' hne row hrow hrow'
    obtain ⟨u, hu, hkey⟩ := ((mem_shardRows hplaced ho).mp hrow).2
    obtain ⟨u', hu', hkey'⟩ := ((mem_shardRows hplaced ho').mp hrow').2
    obtain rfl := Option.some.inj (hu.symm.trans hu')
    exact hne (hkey.symm.trans hkey')
  apply (List.perm_ext_iff_of_nodup (List.nodup_flatMap.mpr ⟨hshards, hapart⟩)
    (rowsIn_nodup _ _ _ _ _)).mpr
  intro row
  rw [List.mem_flatMap]
  constructor
  · rintro ⟨o, ho, hrow⟩
    exact ((mem_shardRows hplaced ho).mp hrow).1
  · intro hrow
    obtain ⟨u, hu⟩ := Option.isSome_iff_exists.mp (mem_rowsIn.mp hrow).2.1
    obtain ⟨o, ho, rfl⟩ := mem_owners_of_ownerOf hu
    exact ⟨o, ho, (mem_shardRows hplaced ho).mpr ⟨hrow, _, hu, rfl⟩⟩

end Walks

end DewDB.RouterQuery
