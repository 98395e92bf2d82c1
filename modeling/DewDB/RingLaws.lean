import Mathlib.Data.Char
import Mathlib.Data.List.Lex
import DewDB.Clockwise
import DewDB.TokenRing

/-!
# The laws of the ring

The lookup finds the next token clockwise. What it returns depends on the endpoints alone, and a
shard that joins or leaves moves hashes only to or from itself. Two shards with a token in common
break one law: the hashes before that token go to the smaller endpoint, and the token itself, found
by the binary search, to the larger one.
-/
namespace DewDB.TokenRing

open Clockwise Endpoint

section Order

theorem cons_le_cons_iff {α : Type*} [LinearOrder α] {a b : α} {as bs : List α} :
    a :: as ≤ b :: bs ↔ a < b ∨ a = b ∧ as ≤ bs := by
  have hlt : a :: as < b :: bs ↔ a < b ∨ a = b ∧ as < bs := List.cons_lex_cons_iff
  rw [le_iff_lt_or_eq, hlt, List.cons.injEq, le_iff_lt_or_eq, and_or_left, or_assoc]

theorem nil_le {α : Type*} [LinearOrder α] (as : List α) : [] ≤ as := by
  cases as with
  | nil => exact le_rfl
  | cons a as => exact le_of_lt .nil

theorem not_cons_le_nil {α : Type*} [LinearOrder α] {a : α} {as : List α} : ¬a :: as ≤ [] :=
  not_le_of_gt .nil

theorem cmpIgnoreCase_isLE_iff (as bs : List Char) :
    (cmpIgnoreCase as bs).isLE = true ↔ as.map Char.toLower ≤ bs.map Char.toLower := by
  induction as generalizing bs with
  | nil => cases bs <;> simp [cmpIgnoreCase, nil_le]
  | cons a as ih =>
    cases bs with
    | nil => simp [cmpIgnoreCase, not_cons_le_nil]
    | cons b bs =>
      have hlt : a.toLower < b.toLower ↔ a.toLower.toNat < b.toLower.toNat := Iff.rfl
      rw [List.map_cons, List.map_cons, cons_le_cons_iff, ← ih bs, cmpIgnoreCase, hlt,
        ← Char.toNat_inj, ← Nat.compare_eq_lt, ← Nat.compare_eq_eq]
      cases compare a.toLower.toNat b.toLower.toNat <;> simp [Ordering.then]

theorem cmpEndpoint_isLE_iff (a b : Url) : (cmpEndpoint a b).isLE = true ↔ nodeKey a ≤ nodeKey b :=
  cmpIgnoreCase_isLE_iff _ _

end Order

section Search

variable {above : ℕ → Bool} {fuel base size len : ℕ}

/-- The search ends on the last element that is not above the target, or on the first one if all
are. -/
theorem searchLoop_spec (hfuel : size ≤ fuel) (hsize : 0 < size)
    (hlow : base = 0 ∨ above base = false) (hhigh : ∀ i, base + size ≤ i → i < len → above i = true)
    (hmono : ∀ i j, i ≤ j → j < len → above i = true → above j = true) (hlen : base + size ≤ len) :
    (searchLoop above fuel base size = 0 ∨ above (searchLoop above fuel base size) = false) ∧
      ∀ i, searchLoop above fuel base size < i → i < len → above i = true := by
  induction fuel generalizing base size with
  | zero => omega
  | succ fuel ih =>
    simp only [searchLoop]
    split_ifs with hone hmid
    · exact ⟨hlow, fun i hi => hhigh i (by omega)⟩
    · apply ih (by omega) (by omega) hlow ?_ (by omega)
      intro i hi hilen
      exact hmono (base + size / 2) i (by omega) hilen hmid
    · apply ih (by omega) (by omega) (.inr (by simpa using hmid)) ?_ (by omega)
      intro i hi hilen
      exact hhigh i (by omega) hilen

variable {tokens : List (ℕ × ℕ)} {hash i : ℕ}

theorem next_eq_getElem?_hit (hi : i < tokens.length) (heq : tokens[i].1 = hash)
    (habove : ∀ j (hj : j < tokens.length), i < j → hash < tokens[j].1) :
    next hash tokens = tokens[i]? := by
  have hsplit : tokens = tokens.take i ++ tokens[i] :: tokens.drop (i + 1) := by simp
  have hdrop : ∀ q ∈ tokens.drop (i + 1), hash < q.1 := by
    intro q hq
    obtain ⟨j, hj, rfl⟩ := List.mem_drop_iff_getElem.mp hq
    exact habove (i + 1 + j) (by omega) (by omega)
  rw [hsplit, next_hit heq hdrop, ← hsplit, List.getElem?_eq_getElem hi]

theorem next_eq_getElem?_miss (hbelow : ∀ j (hj : j < tokens.length), j < i → tokens[j].1 < hash)
    (habove : ∀ j (hj : j < tokens.length), i ≤ j → hash < tokens[j].1) :
    next hash tokens = tokens[if i < tokens.length then i else 0]? := by
  have htake : ∀ q ∈ tokens.take i, q.1 < hash := by
    intro q hq
    obtain ⟨j, hj, rfl⟩ := List.mem_take_iff_getElem.mp hq
    exact hbelow j (by omega) (by omega)
  have hdrop : ∀ q ∈ tokens.drop i, hash < q.1 := by
    intro q hq
    obtain ⟨j, hj, rfl⟩ := List.mem_drop_iff_getElem.mp hq
    exact habove (i + j) (by omega) (by omega)
  have hnext := next_miss htake hdrop
  rw [List.take_append_drop, List.head?_drop, List.head?_eq_getElem?] at hnext
  rw [hnext]
  split_ifs with hi
  · rw [List.getElem?_eq_getElem hi, Option.some_or]
  · rw [List.getElem?_eq_none (by omega), Option.none_or]

theorem next_eq_of_binarySearch (hs : tokens.Pairwise fun t u => t.1 ≤ u.1) (hne : tokens ≠ []) :
    next hash tokens = tokens[match binarySearch tokens hash with
      | .ok i => i
      | .error i => if i < tokens.length then i else 0]? := by
  have hpos := List.length_pos_iff.mpr hne
  have hle : ∀ i j (hi : i < tokens.length) (hj : j < tokens.length), i ≤ j →
    tokens[i].1 ≤ tokens[j].1 := by
    intro i j hi hj hij
    rcases hij.lt_or_eq with hlt | rfl
    · exact List.pairwise_iff_getElem.mp hs i j hi hj hlt
    · exact le_rfl
  have hat : ∀ i (hi : i < tokens.length), (tokens[i]?.map Prod.fst).getD 0 = tokens[i].1 :=
    fun i hi => by
    rw [List.getElem?_eq_getElem hi, Option.map_some, Option.getD_some]
  let above : ℕ → Bool := fun i => hash < (tokens[i]?.map Prod.fst).getD 0
  have hmono : ∀ i j, i ≤ j → j < tokens.length → above i = true → above j = true := by
    intro i j hij hj hi
    have hle := hle i j (by omega) hj hij
    simp only [above, hat i (by omega), hat j hj, decide_eq_true_eq] at hi ⊢
    omega
  have hlt : searchLoop above tokens.length 0 tokens.length < tokens.length :=
    searchLoop_lt (by omega) hpos
  obtain ⟨hlow, hhigh⟩ : (searchLoop above tokens.length 0 tokens.length = 0 ∨
      above (searchLoop above tokens.length 0 tokens.length) = false) ∧
      ∀ i, searchLoop above tokens.length 0 tokens.length < i → i < tokens.length →
        above i = true :=
    searchLoop_spec le_rfl hpos (.inl rfl) (by omega) hmono (by omega)
  have hfold : (fun i => decide (hash < (tokens[i]?.map Prod.fst).getD 0)) = above := rfl
  simp only [binarySearch, List.isEmpty_iff, hne, if_false]
  rw [hfold]
  generalize searchLoop above tokens.length 0 tokens.length = r at hlow hhigh hlt ⊢
  have habove : ∀ j (hj : j < tokens.length), r < j → hash < tokens[j].1 := by
    intro j hj hrj
    simpa only [above, hat j hj, decide_eq_true_eq] using hhigh j hrj hj
  rw [hat r hlt]
  rcases hcmp : compare tokens[r].1 hash with - | - | -
  · have hbelow := Nat.compare_eq_lt.mp hcmp
    exact next_eq_getElem?_miss (fun j hj hjr => (hle j r hj hlt (by omega)).trans_lt hbelow)
      fun j hj hjr => habove j hj (by omega)
  · exact next_eq_getElem?_hit hlt (Nat.compare_eq_eq.mp hcmp) habove
  · have hgt := Nat.compare_eq_gt.mp hcmp
    have hzero : r = 0 := by
      rcases hlow with hzero | hlow
      · exact hzero
      · simp only [above, hat r hlt, decide_eq_false_iff_not] at hlow
        omega
    subst hzero
    apply next_eq_getElem?_miss
    · omega
    · intro j hj hjr
      exact hgt.trans_le (hle 0 j hlt hj (by omega))

theorem BuiltRing.owner_eq {ring : BuiltRing}
    (hs : ring.tokens.Pairwise fun t u => t.1 ≤ u.1) (hash : ℕ) :
    ring.owner hash = (next hash ring.tokens).bind fun t => ring.shards[t.2]? := by
  unfold BuiltRing.owner
  split_ifs with hemp
  · rw [List.isEmpty_iff.mp hemp]
    rfl
  · have hnext : next hash ring.tokens = _ := next_eq_of_binarySearch hs (by simpa using hemp)
    exact congrArg (fun t => t.bind fun t => ring.shards[t.2]?) hnext.symm

end Search

section Points

variable {xxh64 : Xxh64} {ring : HashRing}

def HashRing.points (xxh64 : Xxh64) (ring : HashRing) : List (ℕ × Url) :=
  (ring.build xxh64).tokens.map fun t => (t.1, nodeKey (urlAt ring.shards t.2))

def keyPoints (xxh64 : Xxh64) (vnodes : ℕ) (key : Url) : List (ℕ × Url) :=
  (List.range vnodes).map fun v => (xxh64 (key ++ '#' :: Nat.toDigits 10 v) % ringSize, key)

def HashRing.keys (ring : HashRing) : List Url := ring.shards.map fun s => nodeKey s.nodeUrl

theorem tokenLe_iff (shards : List RingShard) (t u : ℕ × ℕ) :
    tokenLe shards t u = true ↔
      Precedes (t.1, nodeKey (urlAt shards t.2)) (u.1, nodeKey (urlAt shards u.2)) := by
  rw [tokenLe, Precedes, ← cmpEndpoint_isLE_iff, ← Nat.compare_eq_lt, ← Nat.compare_eq_eq]
  cases compare t.1 u.1 <;> simp [Ordering.then]

theorem points_pairwise (xxh64 : Xxh64) (ring : HashRing) :
    (ring.points xxh64).Pairwise Precedes := by
  have : Std.Total fun t u : ℕ × ℕ => tokenLe ring.shards t u = true := by
    refine ⟨fun t u => ?_⟩
    rw [tokenLe_iff, tokenLe_iff]
    rcases lt_trichotomy t.1 u.1 with hlt | heq | hgt
    · exact .inl (.inl hlt)
    · rcases le_total (nodeKey (urlAt ring.shards t.2)) (nodeKey (urlAt ring.shards u.2))
        with hle | hle
      · exact .inl (.inr ⟨heq, hle⟩)
      · exact .inr (.inr ⟨heq.symm, hle⟩)
    · exact .inr (.inl hgt)
  have : IsTrans (ℕ × ℕ) fun t u => tokenLe ring.shards t u = true := by
    refine ⟨fun t u v htu huv => ?_⟩
    rw [tokenLe_iff] at htu huv ⊢
    exact htu.trans huv
  have hsort := List.pairwise_insertionSort (fun t u => tokenLe ring.shards t u = true)
    (ring.shards.zipIdx.map fun s => shardTokens xxh64 ring.vnodes s.1 s.2).flatten
  exact List.pairwise_map.mpr (hsort.imp fun h => (tokenLe_iff _ _ _).mp h)

theorem points_perm (xxh64 : Xxh64) (ring : HashRing) :
    (ring.points xxh64).Perm (ring.keys.flatMap (keyPoints xxh64 ring.vnodes)) := by
  have hperm := (List.perm_insertionSort (fun t u => tokenLe ring.shards t u = true)
    (ring.shards.zipIdx.map fun s => shardTokens xxh64 ring.vnodes s.1 s.2).flatten).map
      fun t => (t.1, nodeKey (urlAt ring.shards t.2))
  have hblocks : ((ring.shards.zipIdx.map fun s =>
    shardTokens xxh64 ring.vnodes s.1 s.2).flatten.map
      fun t => (t.1, nodeKey (urlAt ring.shards t.2))) = ring.keys.flatMap
        (keyPoints xxh64 ring.vnodes) := by
    have hshard : ∀ s ∈ ring.shards.zipIdx,
        (shardTokens xxh64 ring.vnodes s.1 s.2).map (fun t =>
          (t.1, nodeKey (urlAt ring.shards t.2))) =
          keyPoints xxh64 ring.vnodes (nodeKey s.1.nodeUrl) := by
      intro s hs
      have hurl : urlAt ring.shards s.2 = s.1.nodeUrl := by
        rw [urlAt, List.mem_zipIdx_iff_getElem?.mp hs]
        rfl
      rw [shardTokens, List.map_map, keyPoints]
      apply List.map_congr_left
      intro v _
      rw [Function.comp_apply, hurl]
      rfl
    have hfst : ring.shards.zipIdx.map
      ((fun s => keyPoints xxh64 ring.vnodes (nodeKey s.nodeUrl)) ∘ Prod.fst) =
        ring.shards.map fun s => keyPoints xxh64 ring.vnodes (nodeKey s.nodeUrl) := by
      rw [← List.map_map, List.zipIdx_map_fst]
    rw [List.map_flatten, List.map_map, HashRing.keys, List.flatMap_map, List.flatMap_def, ← hfst]
    exact congrArg List.flatten (List.map_congr_left hshard)
  exact hperm.trans (.of_eq hblocks)

theorem lt_of_mem_tokens {t : ℕ × ℕ} (ht : t ∈ (ring.build xxh64).tokens) :
    t.2 < ring.shards.length := by
  obtain ⟨i, s, hs, v, -, rfl⟩ := mem_build_tokens.mp ht
  exact (List.getElem?_eq_some_iff.mp hs).1

def HashRing.ownerKey (xxh64 : Xxh64) (ring : HashRing) (hash : ℕ) : Option Url :=
  ((ring.build xxh64).owner hash).map fun s => nodeKey s.nodeUrl

theorem tokens_pairwise : (ring.build xxh64).tokens.Pairwise fun t u => t.1 ≤ u.1 :=
  (List.pairwise_map.mp (points_pairwise xxh64 ring)).imp fun h => h.le

theorem ownerKey_eq (hash : ℕ) :
    ring.ownerKey xxh64 hash = (next hash (ring.points xxh64)).map Prod.snd := by
  rw [HashRing.ownerKey, BuiltRing.owner_eq tokens_pairwise, HashRing.points,
    next_map fun i => nodeKey (urlAt ring.shards i), Option.map_map]
  cases ht : next hash (ring.build xxh64).tokens with
  | none => rfl
  | some t =>
    have hlt := lt_of_mem_tokens (mem_of_next ht)
    have hget : (ring.build xxh64).shards[t.2]? = some ring.shards[t.2] :=
      List.getElem?_eq_getElem hlt
    have hurl : urlAt ring.shards t.2 = ring.shards[t.2].nodeUrl := by
      rw [urlAt, List.getElem?_eq_getElem hlt]
      rfl
    simp only [Option.bind_some, Option.map_some, hget, Function.comp_apply, hurl]

theorem mem_points {p : ℕ × Url} :
    p ∈ ring.points xxh64 ↔ ∃ s ∈ ring.shards, ∃ v < ring.vnodes,
      p = (vnodeToken xxh64 s.nodeUrl v, nodeKey s.nodeUrl) := by
  rw [(points_perm xxh64 ring).mem_iff, HashRing.keys, List.flatMap_map]
  simp only [List.mem_flatMap, keyPoints, List.mem_map, List.mem_range, vnodeToken,
    eq_comm (b := p)]

end Points

section Laws

variable {xxh64 : Xxh64} {ring ring' : HashRing}

theorem ownerKey_of_perm (hv : ring'.vnodes = ring.vnodes)
    (hperm : ring'.keys.Perm ring.keys) (hash : ℕ) :
    ring'.ownerKey xxh64 hash = ring.ownerKey xxh64 hash := by
  have hblocks : (ring'.keys.flatMap (keyPoints xxh64 ring'.vnodes)).Perm
      (ring.keys.flatMap (keyPoints xxh64 ring.vnodes)) := hv ▸ hperm.flatMap_right _
  have hpoints : ring'.points xxh64 = ring.points xxh64 :=
    eq_of_perm (points_pairwise _ _) (points_pairwise _ _)
      ((points_perm _ _).trans (hblocks.trans (points_perm _ _).symm))
  rw [ownerKey_eq, ownerKey_eq, hpoints]

theorem keyPoints_filter_self (vnodes : ℕ) (key : Url) :
    (keyPoints xxh64 vnodes key).filter (fun p => p.2 ≠ key) = [] := by
  simp [keyPoints]

theorem flatMap_filter_of_not_mem {vnodes : ℕ} {key : Url} {keys : List Url} (hkey : key ∉ keys) :
    (keys.flatMap (keyPoints xxh64 vnodes)).filter (fun p => p.2 ≠ key) = keys.flatMap
      (keyPoints xxh64 vnodes) := by
  apply List.filter_eq_self.mpr
  intro p hp
  obtain ⟨k, hk, hp⟩ := List.mem_flatMap.mp hp
  obtain ⟨v, -, rfl⟩ := List.mem_map.mp hp
  have hne : k ≠ key := fun heq => hkey (heq ▸ hk)
  simpa using hne

/-- Without the points of a shard the ring is the one without that shard. -/
theorem points_filter {s : RingShard} (hnodup : ring'.keys.Nodup) (hv : ring'.vnodes = ring.vnodes)
    (hperm : ring'.shards.Perm (s :: ring.shards)) :
    (ring'.points xxh64).filter (fun p => p.2 ≠ nodeKey s.nodeUrl) = ring.points xxh64 := by
  have hkeys : ring'.keys.Perm (nodeKey s.nodeUrl :: ring.keys) := hperm.map _
  have hnew : nodeKey s.nodeUrl ∉ ring.keys := (List.nodup_cons.mp (hkeys.nodup_iff.mp hnodup)).1
  have hblocks := (points_perm xxh64 ring').trans (hkeys.flatMap_right _)
  have hfilter := hblocks.filter fun p => p.2 ≠ nodeKey s.nodeUrl
  rw [List.flatMap_cons, List.filter_append, keyPoints_filter_self, flatMap_filter_of_not_mem hnew,
    List.nil_append, hv] at hfilter
  exact eq_of_perm ((points_pairwise _ _).filter _) (points_pairwise _ _)
    (hfilter.trans (points_perm _ _).symm)

theorem ownerKey_of_added {s : RingShard} (hnodup : ring'.keys.Nodup)
    (hv : ring'.vnodes = ring.vnodes) (hperm : ring'.shards.Perm (s :: ring.shards)) (hash : ℕ) :
    ring'.ownerKey xxh64 hash = ring.ownerKey xxh64 hash ∨
      ring'.ownerKey xxh64 hash = some (nodeKey s.nodeUrl) := by
  rw [ownerKey_eq, ownerKey_eq, ← points_filter hnodup hv hperm]
  cases hp : next hash (ring'.points xxh64) with
  | none =>
    left
    have hnil : ring'.points xxh64 = [] := by
      by_contra hne
      obtain ⟨p, hsome⟩ := exists_next (h := hash) hne
      rw [hp] at hsome
      cases hsome
    rw [hnil]
    rfl
  | some p =>
    by_cases hkey : p.2 = nodeKey s.nodeUrl
    · exact .inr (congrArg some hkey)
    · left
      rw [next_filter hp (decide_eq_true hkey)]

/-- Among shards with different endpoints the owner is known by its endpoint. -/
theorem owner_eq_of_ownerKey_eq {shards : List RingShard}
    (hnodup : (shards.map fun s => nodeKey s.nodeUrl).Nodup)
    (hsub : ring.shards ⊆ shards) (hsub' : ring'.shards ⊆ shards) {hash hash' : ℕ}
    (hkey : ring'.ownerKey xxh64 hash' = ring.ownerKey xxh64 hash) :
    (ring'.build xxh64).owner hash' = (ring.build xxh64).owner hash := by
  unfold HashRing.ownerKey at hkey
  cases hs : (ring.build xxh64).owner hash with
  | none =>
    rw [hs] at hkey
    exact Option.map_eq_none_iff.mp hkey
  | some s =>
    rw [hs] at hkey
    obtain ⟨t, ht, htkey⟩ := Option.map_eq_some_iff.mp hkey
    have hts : t = s := List.inj_on_of_nodup_map hnodup (hsub' (BuiltRing.mem_of_owner ht))
      (hsub (BuiltRing.mem_of_owner hs)) htkey
    rw [ht, hts]

def BuiltRing.boundaries (ring : BuiltRing) : List ℕ :=
  ((ring.tokens.map Prod.fst).insertionSort (· ≤ ·)).dedup

theorem boundaries_pairwise (ring : BuiltRing) : ring.boundaries.Pairwise (· < ·) := by
  have hle := (List.pairwise_insertionSort (· ≤ ·) (ring.tokens.map Prod.fst)).sublist
    (List.dedup_sublist _)
  exact (hle.and (List.nodup_dedup _)).imp fun h => lt_of_le_of_ne h.1 h.2

theorem mem_boundaries {t : ℕ} :
    t ∈ (ring.build xxh64).boundaries ↔ ∃ p ∈ ring.points xxh64, p.1 = t := by
  simp [BuiltRing.boundaries, HashRing.points]

theorem lt_of_mem_points {p : ℕ × Url} (hp : p ∈ ring.points xxh64) : p.1 < ringSize := by
  obtain ⟨s, -, v, -, rfl⟩ := mem_points.mp hp
  exact Nat.mod_lt _ (by simp [ringSize])

def positionBefore (token : ℕ) : ℕ := if token = 0 then ringSize - 1 else token - 1

/-- Two shards have a token in common, and it is not the only position of its arc. -/
def HashRing.SplitToken (xxh64 : Xxh64) (ring : HashRing) : Prop :=
  ∃ p ∈ ring.points xxh64, ∃ q ∈ ring.points xxh64, p.1 = q.1 ∧ p.2 ≠ q.2 ∧
    ∀ r ∈ ring.points xxh64, r.1 ≠ positionBefore p.1

variable {arc : ℕ × ℕ}

theorem points_gap (harc : arc ∈ arcs (ring.build xxh64).boundaries) {p : ℕ × Url}
    (hp : p ∈ ring.points xxh64) (hin : InArc arc p.1) : p.1 = arc.2 := by
  rw [arcs, zip_rotate_eq_around] at harc
  exact eq_end_of_mem_around (boundaries_pairwise _) harc (mem_boundaries.mpr ⟨p, hp, rfl⟩) hin

theorem inArc_before {h : ℕ} (hh : h < ringSize) (hin : InArc arc h) (hne : h ≠ arc.2) :
    InArc arc (positionBefore arc.2) ∧ positionBefore arc.2 ≠ arc.2 := by
  unfold InArc positionBefore at *
  have hsize : 1 < ringSize := by simp [ringSize]
  split_ifs at * <;> omega

/-- Every hash of an arc has the owner of its end, where no token is split. -/
theorem ownerKey_end (hsplit : ¬ring.SplitToken xxh64)
    (hgap : ∀ p ∈ ring.points xxh64, InArc arc p.1 → p.1 = arc.2)
    {h : ℕ} (hh : h < ringSize) (hin : InArc arc h) :
    ring.ownerKey xxh64 h = ring.ownerKey xxh64 arc.2 := by
  by_cases hne : h = arc.2
  · rw [hne]
  · have hfree := free_of_inside hgap hin hne
    by_cases hend : ∃ p ∈ ring.points xxh64, p.1 = arc.2
    · obtain ⟨p, hp, hend⟩ := hend
      obtain ⟨hbefore, hbne⟩ := inArc_before hh hin hne
      obtain ⟨q, hq⟩ := exists_next (h := h) (List.ne_nil_of_mem hp)
      obtain ⟨r, hr⟩ := exists_next (h := arc.2) (List.ne_nil_of_mem hp)
      have hqend := (next_inside (points_pairwise _ _) hgap hin hne hq hp hend).1
      have hrend := (next_at (points_pairwise _ _) hr hp hend).1
      have hkey : q.2 = r.2 := by
        by_contra hdiff
        refine hsplit ⟨q, mem_of_next hq, r, mem_of_next hr, hqend.trans hrend.symm, hdiff, ?_⟩
        rw [hqend]
        exact free_of_inside hgap hbefore hbne
      rw [ownerKey_eq, ownerKey_eq, hq, hr, Option.map_some, Option.map_some, hkey]
    · have hfree' : ∀ p ∈ ring.points xxh64, p.1 ≠ arc.2 := fun p hp heq => hend ⟨p, hp, heq⟩
      rw [ownerKey_eq, ownerKey_eq, (apart_of_free hgap hin hfree (inArc_end arc) hfree').next_eq]

theorem ownerKey_ne_of_split {p q : ℕ × Url} (hp : p ∈ ring.points xxh64)
    (hq : q ∈ ring.points xxh64)
    (hpos : p.1 = q.1) (hkey : p.2 ≠ q.2)
    (hbefore : ∀ r ∈ ring.points xxh64, r.1 ≠ positionBefore p.1)
    (harc : arc ∈ arcs (ring.build xxh64).boundaries) (hend : arc.2 = p.1) :
    InArc arc (positionBefore p.1) ∧
      ring.ownerKey xxh64 (positionBefore p.1) ≠ ring.ownerKey xxh64 p.1 := by
  obtain ⟨start, hstart, heq⟩ : ∃ r ∈ ring.points xxh64, r.1 = arc.1 := by
    rw [arcs, zip_rotate_eq_around] at harc
    exact mem_boundaries.mp (mem_of_around harc).1
  have hin : InArc arc (positionBefore p.1) := by
    have hlt := lt_of_mem_points hstart
    have hne := hbefore start hstart
    rw [InArc, hend]
    unfold positionBefore at hne ⊢
    split_ifs at hne ⊢ <;> omega
  have hne : positionBefore p.1 ≠ arc.2 := fun h => hbefore p hp (hend.symm.trans h.symm)
  refine ⟨hin, fun heq => ?_⟩
  obtain ⟨first, hfirst⟩ := exists_next (h := positionBefore p.1) (List.ne_nil_of_mem hp)
  obtain ⟨last, hlast⟩ := exists_next (h := p.1) (List.ne_nil_of_mem hp)
  have hgap : ∀ r ∈ ring.points xxh64, InArc arc r.1 → r.1 = arc.2 := fun r hr => points_gap harc hr
  have hfp := (next_inside (points_pairwise _ _) hgap hin hne hfirst hp hend.symm).2
  have hfq := (next_inside (points_pairwise _ _) hgap hin hne hfirst hq
    (hpos.symm.trans hend.symm)).2
  have hpl := (next_at (points_pairwise _ _) hlast hp rfl).2
  have hql := (next_at (points_pairwise _ _) hlast hq hpos.symm).2
  have hsame : first.2 = last.2 := by
    rw [ownerKey_eq, ownerKey_eq, hfirst, hlast] at heq
    exact Option.some.inj heq
  have hpkey : p.2 = first.2 := le_antisymm (hsame ▸ hpl) hfp
  have hqkey : q.2 = first.2 := le_antisymm (hsame ▸ hql) hfq
  exact hkey (hpkey.trans hqkey.symm)

structure HashRing.Lawful (xxh64 : Xxh64) (ring : HashRing) : Prop where
  total : ∀ hash, ∃ s ∈ ring.shards, (ring.build xxh64).owner hash = some s
  order : ∀ shards, shards.Perm ring.shards → ∀ hash,
    ((HashRing.mk ring.vnodes shards).build xxh64).owner hash = (ring.build xxh64).owner hash
  spelling : ∀ ring' : HashRing, ring'.vnodes = ring.vnodes → ring'.keys.Perm ring.keys → ∀ hash,
    sameEndpoint ((ring'.build xxh64).ownerUrl hash) ((ring.build xxh64).ownerUrl hash) = true
  constant : ∀ arc ∈ arcs (ring.build xxh64).boundaries, ∀ h < ringSize, ∀ h' < ringSize,
    InArc arc h → InArc arc h' → (ring.build xxh64).owner h = (ring.build xxh64).owner h'
  added : ∀ ring' : HashRing, ring'.validate = .ok () → ring'.vnodes = ring.vnodes → ∀ s,
    ring'.shards.Perm (s :: ring.shards) → ∀ hash,
      (ring'.build xxh64).owner hash = (ring.build xxh64).owner hash ∨
        (ring'.build xxh64).owner hash = some s
  removed : ∀ ring' : HashRing, ring'.validate = .ok () → ring'.vnodes = ring.vnodes → ∀ s,
    ring.shards.Perm (s :: ring'.shards) → ∀ hash,
      (ring'.build xxh64).owner hash = (ring.build xxh64).owner hash ∨
        (ring.build xxh64).owner hash = some s

theorem owner_of_ownerKey {shards : List RingShard}
    (hnodup : (shards.map fun s => nodeKey s.nodeUrl).Nodup)
    (hsub : ring.shards ⊆ shards) {s : RingShard} (hs : s ∈ shards) {hash : ℕ}
    (hkey : ring.ownerKey xxh64 hash = some (nodeKey s.nodeUrl)) :
    (ring.build xxh64).owner hash = some s := by
  obtain ⟨t, ht, htkey⟩ := Option.map_eq_some_iff.mp hkey
  have hts : t = s := List.inj_on_of_nodup_map hnodup (hsub (BuiltRing.mem_of_owner ht)) hs htkey
  rw [ht, hts]

theorem owner_of_added {s : RingShard} (hnodup : ring'.keys.Nodup) (hv : ring'.vnodes = ring.vnodes)
    (hperm : ring'.shards.Perm (s :: ring.shards)) (hash : ℕ) :
    (ring'.build xxh64).owner hash = (ring.build xxh64).owner hash ∨
      (ring'.build xxh64).owner hash = some s := by
  rcases ownerKey_of_added hnodup hv hperm hash with hsame | hnew
  · have hsub : ring.shards ⊆ ring'.shards := fun t ht =>
      hperm.mem_iff.mpr (List.mem_cons_of_mem _ ht)
    exact .inl (owner_eq_of_ownerKey_eq hnodup hsub (List.Subset.refl _) hsame)
  · exact .inr (owner_of_ownerKey hnodup (List.Subset.refl _)
      (hperm.mem_iff.mpr List.mem_cons_self) hnew)

/-- The lookup keeps its laws exactly as long as no token is split between two shards. -/
theorem lawful_iff (h : ring.validate = .ok ()) : ring.Lawful xxh64 ↔ ¬ring.SplitToken xxh64 := by
  have hnodup : ring.keys.Nodup := nodup_of_validate h
  obtain ⟨hshards, hvnodes⟩ := nonempty_of_validate h
  constructor
  · rintro hlaws ⟨p, hp, q, hq, hpos, hkey, hbefore⟩
    obtain ⟨arc, harc, hend⟩ := exists_around (mem_boundaries.mpr ⟨p, hp, rfl⟩)
    rw [← zip_rotate_eq_around] at harc
    obtain ⟨hin, hne⟩ := ownerKey_ne_of_split hp hq hpos hkey hbefore harc hend
    apply hne
    have hlt : positionBefore p.1 < ringSize := by
      have := lt_of_mem_points hp
      unfold positionBefore
      split_ifs <;> omega
    have hself : InArc arc p.1 := by
      rw [InArc, hend]
      split_ifs <;> omega
    rw [HashRing.ownerKey, HashRing.ownerKey,
      hlaws.constant arc harc _ hlt _ (lt_of_mem_points hp) hin hself]
  · intro hsplit
    refine ⟨fun hash => exists_owner_build hshards hvnodes hash, ?_, ?_, ?_, ?_, ?_⟩
    · intro shards hperm hash
      apply owner_eq_of_ownerKey_eq hnodup (List.Subset.refl _) hperm.subset
      have hkeys : (HashRing.mk ring.vnodes shards).keys.Perm ring.keys := hperm.map _
      have hv : (HashRing.mk ring.vnodes shards).vnodes = ring.vnodes := rfl
      exact ownerKey_of_perm hv hkeys hash
    · intro ring' hv hperm hash
      have hkey : ring'.ownerKey xxh64 hash = ring.ownerKey xxh64 hash :=
        ownerKey_of_perm hv hperm hash
      obtain ⟨s, -, hs⟩ : ∃ s ∈ ring.shards, (ring.build xxh64).owner hash = some s :=
        exists_owner_build hshards hvnodes hash
      unfold HashRing.ownerKey at hkey
      rw [hs] at hkey
      obtain ⟨t, ht, htkey⟩ := Option.map_eq_some_iff.mp hkey
      rw [sameEndpoint_iff, BuiltRing.ownerUrl, BuiltRing.ownerUrl, ht, hs]
      exact htkey
    · intro arc harc h hh h' hh' hin hin'
      apply owner_eq_of_ownerKey_eq hnodup (List.Subset.refl _) (List.Subset.refl _)
      have hgap : ∀ p ∈ ring.points xxh64, InArc arc p.1 → p.1 = arc.2 :=
        fun p hp => points_gap harc hp
      rw [ownerKey_end hsplit hgap hh hin, ownerKey_end hsplit hgap hh' hin']
    · intro ring' hvalid hv s hperm hash
      exact owner_of_added (nodup_of_validate hvalid) hv hperm hash
    · intro ring' _ hv s hperm hash
      rcases owner_of_added hnodup hv.symm hperm hash with hsame | hmoved
      · exact .inl hsame.symm
      · exact .inr hmoved

def twoShards : HashRing := ⟨1, [⟨['a', ':', '1'], []⟩, ⟨['b', ':', '1'], []⟩]⟩

/-- The code of the first character tells the two shards' tokens apart. -/
theorem lawful_twoShards : twoShards.Lawful fun text => (text.head?.map Char.toNat).getD 0 :=
  (lawful_iff (by decide)).mpr (by unfold HashRing.SplitToken; decide)

/-- Both tokens are 5: the hash 4 goes to the one shard and the hash 5 to the other. -/
theorem not_lawful_twoShards : twoShards.validate = .ok () ∧ ¬twoShards.Lawful fun _ => 5 := by
  refine ⟨by decide, fun h => ?_⟩
  have hconstant := h.constant (5, 5) (by decide) 4 (by decide) 5 (by decide)
    (by decide) (by decide)
  exact absurd hconstant (by decide)

end Laws

end DewDB.TokenRing
