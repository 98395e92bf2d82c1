import DewDB.SchemaChange
import DewDB.ViewRings

/-!
# The cleanup after a handover

Once the target ring is in force, the source's leader deletes the keys that it handed over. It
derives them from the ring of its view, then looks at each of them once more under the view that it
holds by then, and then appends a delete; a delete waits for a majority, so that many views can come
and go before the last one.
-/
namespace DewDB.HandoverCleanup

open Endpoint TokenRing HandoverPlan ClusterMeta KeyOwnership TransitionSystem
open SchemaChange (isSystemCollection)
open ViewRings (RingCache)

abbrev PlanId := List Char

structure MigrationProgress where
  id : PlanId
  target : HashRing
  done : Bool

structure HandoverRecord where
  id : PlanId
  target : HashRing

inductive Stage where
  | checked
  | flipped (live : HashRing)
  | listing (live : HashRing)
  | deleting
  deriving DecidableEq

/-- A call of the handler. `next` has been re-checked, and its delete is not appended yet. -/
structure Cleanup where
  id : PlanId
  stage : Stage
  left : List DocKey
  next : Option DocKey
  removed : ℕ
  short : ℕ

/-- A node of a shard group. `recorded` is the committed handover of the group's log, `current` the
node's own run, and `tombstones` are the deletes that cleanups appended, each with the view that the
node held then. -/
structure Node where
  own : Url
  isShard : Bool
  isLeader : Bool
  view : ClusterMetadata
  cache : RingCache
  keys : List DocKey
  current : Option MigrationProgress
  recorded : Option HandoverRecord
  cleanups : List Cleanup
  tombstones : List (DocKey × ClusterMetadata)

inductive Op where
  | setView (v : ClusterMetadata)
  | setLeader (leads : Bool)
  | layOut
  | put (k : DocKey)
  | remove (k : DocKey)
  | setCurrent (p : Option MigrationProgress)
  | setRecorded (r : HandoverRecord)
  | restart
  | begin (id : PlanId)
  | readRing (i : ℕ)
  | compare (i : ℕ)
  | visit (i : ℕ) (k : DocKey)
  | listed (i : ℕ)
  | recheck (i : ℕ) (k : DocKey)
  | append (i : ℕ) (met : Bool)
  | refuse (i : ℕ)
  | finish (i : ℕ)
  | drop (i : ℕ)

section Source

variable (xxh64 : Xxh64)

/-- The ring that keys were moved for under `id`. -/
def handoverTarget (n : Node) (id : PlanId) : Option HashRing :=
  ((n.recorded.filter fun r => r.id = id).map HandoverRecord.target).or
    ((n.current.filter fun p => p.id = id && p.done).map MigrationProgress.target)

/-- The test of `keys_not_ours`; a node that the ring does not name owns nothing. -/
def notOurs (ring : HashRing) (own : Url) (k : DocKey) : Bool :=
  !isSystemCollection k.collection && !(sourceGroup ring own).any fun mine =>
    ownedBy xxh64 ring mine k

namespace Node

variable (n : Node)

/-- `rings_for` the node's view. -/
def rings : Rings := if n.cache.version = n.view.version then n.cache.rings
  else ringsOf xxh64 n.view

/-- The cache after a call of `rings_for`. -/
def cached : RingCache :=
  if n.cache.version < n.view.version then
    ⟨n.view.version, (ringsOf xxh64 n.view).1, (ringsOf xxh64 n.view).2⟩
  else n.cache

def verdict (k : DocKey) : Option Ownership :=
  ownership xxh64 n.view (n.rings xxh64) n.own k.collection k.key

def freshVerdict (k : DocKey) : Option Ownership :=
  ownership xxh64 n.view (ringsOf xxh64 n.view) n.own k.collection k.key

def setCleanup (i : ℕ) (c : Cleanup) : Node := { n with cleanups := n.cleanups.set i c }

def forget (id : PlanId) : Node := { n with current := n.current.filter fun p => p.id ≠ id }

end Node

/-- The first group are the node's other doings: its view changes, the group's log is applied,
handovers of its own progress. The second are the steps of a cleanup. -/
def step (n : Node) : Op → Option Node
  | .setView v => some { n with view := v }
  | .setLeader leads => some { n with isLeader := leads }
  | .layOut => some { n with cache := n.cached xxh64 }
  | .put k => some { n with keys := if k ∈ n.keys then n.keys else k :: n.keys }
  | .remove k => some { n with keys := n.keys.filter fun q => q ≠ k }
  | .setCurrent p => some { n with current := p }
  | .setRecorded r => some { n with recorded := some r }
  | .restart => some { n with cleanups := [], cache := ⟨0, none, none⟩ }
  | .begin id =>
    if n.isShard ∧ n.isLeader ∧ n.view.migration = none then
      some { n with cleanups := n.cleanups ++ [⟨id, .checked, [], none, 0, 0⟩] }
    else none
  | .readRing i => n.cleanups[i]?.bind fun c =>
    match c.stage with
    | .checked => some (n.setCleanup i { c with stage := n.view.ring.elim .deleting .flipped })
    | _ => none
  | .compare i => n.cleanups[i]?.bind fun c =>
    match c.stage with
    | .flipped live => some (n.setCleanup i
        { c with stage := if handoverTarget n c.id = some live then .listing live else .deleting })
    | _ => none
  | .visit i k => n.cleanups[i]?.bind fun c =>
    match c.stage with
    | .listing live =>
      if k ∈ n.keys ∧ notOurs xxh64 live n.own k
        then some (n.setCleanup i { c with left := k :: c.left }) else none
    | _ => none
  | .listed i => n.cleanups[i]?.bind fun c =>
    match c.stage with
    | .listing _ => some (n.setCleanup i { c with stage := .deleting })
    | _ => none
  | .recheck i k => n.cleanups[i]?.bind fun c =>
    if c.stage = .deleting ∧ c.next = none ∧ k ∈ c.left then
      some { n.setCleanup i { c with
          left := c.left.filter fun q => q ≠ k
          next := if n.verdict xxh64 k = some .ours then none else some k } with
        cache := n.cached xxh64 }
    else none
  | .append i met => n.cleanups[i]?.bind fun c => c.next.bind fun k =>
    some { n.setCleanup i (if met then { c with next := none, removed := c.removed + 1 }
        else { c with next := none, short := c.short + 1 }) with
      tombstones := n.tombstones ++ [(k, n.view)] }
  | .refuse i => n.cleanups[i]?.bind fun c =>
    if c.next.isSome then some (n.setCleanup i { c with next := none, short := c.short + 1 })
      else none
  | .finish i => n.cleanups[i]?.bind fun c =>
    if c.stage = .deleting ∧ c.left = [] ∧ c.next = none then
      let done := { n with cleanups := n.cleanups.eraseIdx i }
      some (if c.short = 0 then done.forget c.id else done)
    else none
  -- the request goes away; a delete that the blocking thread has is appended all the same
  | .drop i => n.cleanups[i]?.bind fun c =>
      some (n.setCleanup i { c with stage := .deleting, left := [] })

/-- Under this view the key's owner is another group than the node's. -/
def ownedElsewhere (v : ClusterMetadata) (own : Url) (k : DocKey) : Bool :=
  v.ring.any fun ring => (ownerOf xxh64 ring k).any fun owner =>
    !(sourceGroup ring own).any fun group => sameEndpoint owner.nodeUrl group

def Undisturbed (n : Node) : Op → Prop
  -- What the re-check does not find the group's own is found another group's by the view's own
  -- rings: it is not moving from here, and the view has a ring.
  | .recheck _ k => n.verdict xxh64 k = some .ours ∨ ∃ owner,
      n.freshVerdict xxh64 k = some (.elsewhere owner)
  -- No view gives the group a key whose delete is about to be appended.
  | .setView v => ∀ c ∈ n.cleanups, ∀ k ∈ c.next, ownedElsewhere xxh64 v n.own k = true
  | _ => True

def Initial (n : Node) : Prop := n.cleanups = [] ∧ n.tombstones = []

/-- What a re-check has let through is another group's, and so was what is deleted when it was. -/
structure Inv (n : Node) : Prop where
  pending : ∀ c ∈ n.cleanups, ∀ k ∈ c.next, ownedElsewhere xxh64 n.view n.own k = true
  appended : ∀ d ∈ n.tombstones, ownedElsewhere xxh64 d.2 n.own d.1 = true

end Source

section Verdict

variable {xxh64 : Xxh64} {v : ClusterMetadata} {own : Url} {k : DocKey}

theorem ownedElsewhere_iff : ownedElsewhere xxh64 v own k = true ↔
    ∃ owner, ownership xxh64 v (ringsOf xxh64 v) own k.collection k.key = some
      (.elsewhere owner) := by
  cases hring : v.ring with
  | none => simp [ownedElsewhere, ownership, ringsOf, hring]
  | some ring =>
    have howner : (ring.build xxh64).owner (hashKey xxh64 k.collection k.key) =
      ownerOf xxh64 ring k := rfl
    have hentry : KeyOwnership.entryFor (ring.build xxh64).shards own =
      HandoverPlan.entryFor ring own := rfl
    simp only [ownedElsewhere, ownership, ringsOf, hring, Option.any_some, Option.map_some,
      Option.bind_some, classify, howner, hentry, sourceGroup]
    cases ho : ownerOf xxh64 ring k with
    | none => simp
    | some owner =>
      cases he : HandoverPlan.entryFor ring own with
      | none => simp
      | some mine =>
        cases hsame : sameEndpoint owner.nodeUrl mine.nodeUrl with
        | false => simp [hsame]
        | true =>
          simp only [Option.any_some, Option.map_some, hsame, Bool.not_true,
            Bool.false_eq_true, if_false, false_iff, not_exists]
          intro u
          split
          · split
            · split <;> simp
            · simp
          · simp

/-- The group's own keys, those on the move included, are not another group's. -/
theorem not_held_of_ownedElsewhere (h : ownedElsewhere xxh64 v own k = true) {o : Ownership}
    (ho : ownership xxh64 v (ringsOf xxh64 v) own k.collection k.key = some o) : ¬o.Held := by
  obtain ⟨owner, howner⟩ := ownedElsewhere_iff.mp h
  obtain rfl : o = .elsewhere owner := Option.some.inj (ho.symm.trans howner)
  exact id

/-- With the rings of the node's own view, a re-check goes wrong for a key on the move and without a
ring. -/
theorem undisturbed_recheck_iff {n : Node} (hrings : n.rings xxh64 = ringsOf xxh64 n.view) {i : ℕ} :
    Undisturbed xxh64 n (.recheck i k) ↔
      (n.verdict xxh64 k).isSome ∧ ∀ next, n.verdict xxh64 k ≠ some (.moving next) := by
  have hverdict : n.verdict xxh64 k = n.freshVerdict xxh64 k := by
    rw [Node.verdict, hrings, Node.freshVerdict]
  simp only [Undisturbed, ← hverdict]
  cases n.verdict xxh64 k with
  | none => simp
  | some o => cases o <;> simp

end Verdict

section Runs

variable {xxh64 : Xxh64} {n t : Node} {i : ℕ} {c c' : Cleanup}

/-- What a step does to the tasks and the deletes: keys are listed that a ring gives to others,
those let through at a re-check were listed, and those deleted were let through. -/
structure Effect (xxh64 : Xxh64) (n : Node) (op : Op) (t : Node) : Prop where
  view : t.view = n.view ∨ op = .setView t.view
  own : t.own = n.own
  left : ∀ c ∈ t.cleanups, ∀ k ∈ c.left,
    (∃ d ∈ n.cleanups, k ∈ d.left) ∨ ∃ live, notOurs xxh64 live n.own k = true
  next : ∀ c ∈ t.cleanups, ∀ k ∈ c.next, (∃ d ∈ n.cleanups, k ∈ d.next) ∨
    (∃ d ∈ n.cleanups, k ∈ d.left) ∧ n.verdict xxh64 k ≠ some .ours ∧ ∃ i, op = .recheck i k
  tombstones : ∀ d ∈ t.tombstones, d ∈ n.tombstones ∨ d.2 = n.view ∧ ∃ c ∈ n.cleanups, d.1 ∈ c.next

theorem Effect.of_cleanups {op : Op} (hview : t.view = n.view ∨ op = .setView t.view)
    (hown : t.own = n.own)
    (hcleanups : ∀ c ∈ t.cleanups, c ∈ n.cleanups) (htombstones : t.tombstones = n.tombstones) :
    Effect xxh64 n op t where
  view := hview
  own := hown
  left := fun c hc _ hk => .inl ⟨c, hcleanups c hc, hk⟩
  next := fun c hc _ hk => .inl ⟨c, hcleanups c hc, hk⟩
  tombstones := fun _ hd => .inl (htombstones ▸ hd)

theorem Effect.of_setCleanup {op : Op} (hc : n.cleanups[i]? = some c)
    (hcleanups : t.cleanups = n.cleanups.set i c') (hview : t.view = n.view) (hown : t.own = n.own)
    (hleft : ∀ k ∈ c'.left, k ∈ c.left ∨ ∃ live, notOurs xxh64 live n.own k = true)
    (hnext : ∀ k ∈ c'.next, k ∈ c.next ∨ k ∈ c.left ∧ n.verdict xxh64 k ≠ some .ours ∧ ∃ i,
      op = .recheck i k)
    (htombstones : ∀ d ∈ t.tombstones, d ∈ n.tombstones ∨ d.2 = n.view ∧ d.1 ∈ c.next) :
    Effect xxh64 n op t where
  view := .inl hview
  own := hown
  left := by
    intro d hd k hk
    rcases List.mem_or_eq_of_mem_set (hcleanups ▸ hd) with hd | rfl
    · exact .inl ⟨d, hd, hk⟩
    · exact (hleft k hk).imp_left fun hleft => ⟨c, List.mem_of_getElem? hc, hleft⟩
  next := by
    intro d hd k hk
    rcases List.mem_or_eq_of_mem_set (hcleanups ▸ hd) with hd | rfl
    · exact .inl ⟨d, hd, hk⟩
    · rcases hnext k hk with hnext | ⟨hleft, hverdict⟩
      · exact .inl ⟨c, List.mem_of_getElem? hc, hnext⟩
      · exact .inr ⟨⟨c, List.mem_of_getElem? hc, hleft⟩, hverdict⟩
  tombstones := by
    intro d hd
    exact (htombstones d hd).imp_right fun ⟨hview, hnext⟩ =>
      ⟨hview, c, List.mem_of_getElem? hc, hnext⟩

theorem step_effect {op : Op} (hstep : step xxh64 n op = some t) : Effect xxh64 n op t := by
  cases op with
  | setView v =>
    cases hstep
    exact .of_cleanups (.inr rfl) rfl (fun _ hc => hc) rfl
  | setLeader leads =>
    cases hstep
    exact .of_cleanups (.inl rfl) rfl (fun _ hc => hc) rfl
  | layOut =>
    cases hstep
    exact .of_cleanups (.inl rfl) rfl (fun _ hc => hc) rfl
  | put k =>
    cases hstep
    exact .of_cleanups (.inl rfl) rfl (fun _ hc => hc) rfl
  | remove k =>
    cases hstep
    exact .of_cleanups (.inl rfl) rfl (fun _ hc => hc) rfl
  | setCurrent p =>
    cases hstep
    exact .of_cleanups (.inl rfl) rfl (fun _ hc => hc) rfl
  | setRecorded r =>
    cases hstep
    exact .of_cleanups (.inl rfl) rfl (fun _ hc => hc) rfl
  | restart =>
    cases hstep
    exact .of_cleanups (.inl rfl) rfl (fun _ hc => nomatch hc) rfl
  | begin id =>
    simp only [step] at hstep
    split at hstep
    · cases hstep
      refine ⟨.inl rfl, rfl, fun c hc k hk => ?_, fun c hc k hk => ?_, fun _ hd => .inl hd⟩
      · rcases List.mem_append.mp hc with hc | hc
        · exact .inl ⟨c, hc, hk⟩
        · rw [List.mem_singleton.mp hc] at hk
          cases hk
      · rcases List.mem_append.mp hc with hc | hc
        · exact .inl ⟨c, hc, hk⟩
        · rw [List.mem_singleton.mp hc] at hk
          cases hk
    · cases hstep
  | readRing i =>
    obtain ⟨c, hc, hstep⟩ := Option.bind_eq_some_iff.mp hstep
    split at hstep
    · cases hstep
      exact .of_setCleanup hc rfl rfl rfl (fun _ hk => .inl hk) (fun _ hk => .inl hk)
        fun _ hd => .inl hd
    · cases hstep
  | compare i =>
    obtain ⟨c, hc, hstep⟩ := Option.bind_eq_some_iff.mp hstep
    split at hstep
    · cases hstep
      exact .of_setCleanup hc rfl rfl rfl (fun _ hk => .inl hk) (fun _ hk => .inl hk)
        fun _ hd => .inl hd
    · cases hstep
  | visit i k =>
    obtain ⟨c, hc, hstep⟩ := Option.bind_eq_some_iff.mp hstep
    split at hstep
    · next live _ =>
      split at hstep
      · next hvisit =>
        cases hstep
        refine .of_setCleanup hc rfl rfl rfl (fun q hq => ?_) (fun _ hk => .inl hk)
          fun _ hd => .inl hd
        rcases List.mem_cons.mp hq with rfl | hq
        · exact .inr ⟨live, hvisit.2⟩
        · exact .inl hq
      · cases hstep
    · cases hstep
  | listed i =>
    obtain ⟨c, hc, hstep⟩ := Option.bind_eq_some_iff.mp hstep
    split at hstep
    · cases hstep
      exact .of_setCleanup hc rfl rfl rfl (fun _ hk => .inl hk) (fun _ hk => .inl hk)
        fun _ hd => .inl hd
    · cases hstep
  | recheck i k =>
    obtain ⟨c, hc, hstep⟩ := Option.bind_eq_some_iff.mp hstep
    split at hstep
    · next hguard =>
      cases hstep
      refine .of_setCleanup hc rfl rfl rfl (fun q hq => .inl (List.mem_of_mem_filter hq))
        (fun q hq => .inr ?_) fun _ hd => .inl hd
      dsimp only at hq
      split at hq
      · cases hq
      · next hverdict =>
        cases hq
        exact ⟨hguard.2.2, hverdict, i, rfl⟩
    · cases hstep
  | append i met =>
    obtain ⟨c, hc, hstep⟩ := Option.bind_eq_some_iff.mp hstep
    obtain ⟨k, hk, hstep⟩ := Option.bind_eq_some_iff.mp hstep
    cases hstep
    refine .of_setCleanup hc rfl rfl rfl (fun q hq => .inl ?_) (fun q hq => ?_) fun d hd => ?_
    · split at hq <;> exact hq
    · split at hq <;> cases hq
    · rcases List.mem_append.mp hd with hd | hd
      · exact .inl hd
      · rw [List.mem_singleton.mp hd]
        exact .inr ⟨rfl, hk⟩
  | refuse i =>
    obtain ⟨c, hc, hstep⟩ := Option.bind_eq_some_iff.mp hstep
    split at hstep
    · cases hstep
      exact .of_setCleanup hc rfl rfl rfl (fun _ hk => .inl hk) (fun _ hk => nomatch hk)
        fun _ hd => .inl hd
    · cases hstep
  | finish i =>
    obtain ⟨c, hc, hstep⟩ := Option.bind_eq_some_iff.mp hstep
    split at hstep
    · cases hstep
      split
      · exact .of_cleanups (.inl rfl) rfl (fun _ hd => List.mem_of_mem_eraseIdx hd) rfl
      · exact .of_cleanups (.inl rfl) rfl (fun _ hd => List.mem_of_mem_eraseIdx hd) rfl
    · cases hstep
  | drop i =>
    obtain ⟨c, hc, hstep⟩ := Option.bind_eq_some_iff.mp hstep
    cases hstep
    exact .of_setCleanup hc rfl rfl rfl (fun _ hk => nomatch hk) (fun _ hk => .inl hk)
      fun _ hd => .inl hd

theorem step_inv (h : Inv xxh64 n) {op : Op} (hok : Undisturbed xxh64 n op)
    (hstep : step xxh64 n op = some t) : Inv xxh64 t := by
  have heffect := step_effect hstep
  constructor
  · intro c hc k hk
    rw [heffect.own]
    rcases heffect.view with hview | rfl
    · rw [hview]
      rcases heffect.next c hc k hk with ⟨d, hd, hk⟩ | ⟨-, hverdict, i, rfl⟩
      · exact h.pending d hd k hk
      · exact ownedElsewhere_iff.mpr (hok.resolve_left hverdict)
    · rcases heffect.next c hc k hk with ⟨d, hd, hk⟩ | ⟨-, -, i, heq⟩
      · exact hok d hd k hk
      · cases heq
  · intro d hd
    rw [heffect.own]
    rcases heffect.tombstones d hd with hd | ⟨hview, c, hc, hk⟩
    · exact h.appended d hd
    · rw [hview]
      exact h.pending c hc d.1 hk

theorem Initial.inv (h : Initial n) : Inv xxh64 n := by
  obtain ⟨hcleanups, htombstones⟩ := h
  constructor
  · rw [hcleanups]
    exact fun c hc => nomatch hc
  · rw [htombstones]
    exact fun d hd => nomatch hd

/-- A step outside the condition leads to the delete of a key that is not another group's. -/
theorem deletes_of_disturbed {op : Op} (hbad : ¬Undisturbed xxh64 n op)
    (hstep : step xxh64 n op = some t) :
    ∃ i u, step xxh64 t (.append i true) = some u ∧
      ∃ d ∈ u.tombstones, ownedElsewhere xxh64 d.2 u.own d.1 = false := by
  have happend : ∀ (i : ℕ) (c : Cleanup) (k : DocKey), t.cleanups[i]? = some c → c.next = some k →
      ownedElsewhere xxh64 t.view t.own k = false → ∃ i u, step xxh64 t (.append i true) = some u ∧
        ∃ d ∈ u.tombstones, ownedElsewhere xxh64 d.2 u.own d.1 = false := by
    intro i c k hc hk hown
    have hu : step xxh64 t (.append i true) = some
        { t.setCleanup i { c with next := none, removed := c.removed + 1 } with
          tombstones := t.tombstones ++ [(k, t.view)] } := by
      simp only [step, hc, hk, Option.bind_some, if_true]
    exact ⟨i, _, hu, (k, t.view), List.mem_append_right _ (List.mem_singleton_self _), hown⟩
  cases op with
  | setView v =>
    simp only [Undisturbed, not_forall, Bool.not_eq_true] at hbad
    obtain ⟨c, hc, k, hk, hown⟩ := hbad
    obtain ⟨i, hi⟩ := List.mem_iff_getElem?.mp hc
    cases hstep
    exact happend i c k hi hk hown
  | recheck i k =>
    have hfresh := not_or.mp hbad
    have hown : ownedElsewhere xxh64 n.view n.own k = false :=
      Bool.eq_false_iff.mpr fun helsewhere => hfresh.2 (ownedElsewhere_iff.mp helsewhere)
    obtain ⟨c, hc, hstep⟩ := Option.bind_eq_some_iff.mp hstep
    split at hstep
    · cases hstep
      refine happend i _ k (List.getElem?_set_self (List.getElem?_eq_some_iff.mp hc).1) ?_ hown
      exact if_neg hfresh.1
    · cases hstep
  | _ => exact (hbad trivial).elim

/-- Where every key that a re-check lets through is another group's, and stays so until its delete
is appended, a cleanup deletes no key of the node's group. -/
theorem cleanup_deletes_elsewhere {ops : List Op} (hinit : Initial n)
    (hrun : run (step xxh64) n ops = some t) (hok : Meets (step xxh64) (Undisturbed xxh64) n ops) :
    ∀ d ∈ t.tombstones, ownedElsewhere xxh64 d.2 t.own d.1 = true := by
  have hinv : Inv xxh64 t :=
    run_invariant_of_meets (fun _ _ _ h hok hstep => step_inv h hok hstep) hrun hok hinit.inv
  exact hinv.appended

end Runs

section Returned

def ringOf (url : Url) : HashRing := ⟨1, [⟨url, []⟩]⟩

/-- The view of `version` with a ring of one shard, and a handover to another that finalizes. -/
def viewOf (version : ℕ) (url : Url) (next : Option Url) : ClusterMetadata :=
  ⟨version, ['c'], false, [], [], some (ringOf url),
    next.map fun u => ⟨['m'], ringOf u, ['c'], .finalizing⟩, ∅⟩

def movedKey : DocKey := ⟨['t'], ['k']⟩

/-- The leader at `a` after the handover `p` to `b`. -/
def handedOver : Node :=
  ⟨['a'], true, true, viewOf 2 ['b'] none, ⟨0, none, none⟩, [movedKey], none,
    some ⟨['p'], ringOf ['b']⟩, [], []⟩

def listOps : List Op := [.begin ['p'], .readRing 0, .compare 0, .visit 0 movedKey, .listed 0]

def cleanupOps : List Op :=
  listOps ++ [Op.recheck 0 movedKey, .append 0 true, .finish 0, .setView (viewOf 3 ['a'] none)]

/-- The key comes back, and is about to leave again when the re-check comes to it. -/
def movingOps : List Op :=
  listOps ++ [Op.setView (viewOf 3 ['a'] none), .setView (viewOf 4 ['a'] (some ['b'])),
    .recheck 0 movedKey, .append 0 true]

def returnedOps : List Op :=
  listOps ++ [Op.recheck 0 movedKey, .setView (viewOf 3 ['a'] none), .append 0 true]

def after (ops : List Op) : Node := (run (step List.length) handedOver ops).getD handedOver

theorem run_cleanupOps : run (step List.length) handedOver cleanupOps = some
    (after cleanupOps) := by rfl

theorem cleanup_deletes_elsewhere_once :
    (after cleanupOps).tombstones = [(movedKey, viewOf 2 ['b'] none)] ∧
    ∀ d ∈ (after cleanupOps).tombstones, ownedElsewhere List.length d.2
      (after cleanupOps).own d.1 = true := by
  refine ⟨rfl, cleanup_deletes_elsewhere ⟨rfl, rfl⟩ run_cleanupOps ?_⟩
  repeat apply meets_cons trivial rfl
  apply meets_cons (.inr ⟨['b'], by decide⟩) rfl
  repeat apply meets_cons trivial rfl
  exact meets_cons (fun c hc => nomatch hc) rfl trivial

/-- Under valid views, a cleanup deletes a key that is moving from the group, and one that the group
has got back. -/
theorem owned_key_deleted :
    (∀ v ∈ [viewOf 2 ['b'] none, viewOf 3 ['a'] none, viewOf 4 ['a'] (some ['b'])],
      v.validate = .ok ()) ∧
    run (step List.length) handedOver movingOps = some (after movingOps) ∧
    (after movingOps).tombstones = [(movedKey, viewOf 4 ['a'] (some ['b']))] ∧
    (after movingOps).verdict List.length movedKey = some (.moving ['b']) ∧
    run (step List.length) handedOver returnedOps = some (after returnedOps) ∧
    (after returnedOps).tombstones = [(movedKey, viewOf 3 ['a'] none)] ∧
    (after returnedOps).verdict List.length movedKey = some .ours ∧
    ¬∀ (n t : Node) (ops : List Op), Initial n → run (step List.length) n ops = some t →
      ∀ d ∈ t.tombstones, ownedElsewhere List.length d.2 t.own d.1 = true := by
  refine ⟨by decide, rfl, rfl, by decide, rfl, rfl, by decide, fun hclaim => ?_⟩
  have helsewhere := hclaim handedOver (after movingOps) movingOps ⟨rfl, rfl⟩ rfl
    (movedKey, viewOf 4 ['a'] (some ['b'])) (List.mem_singleton_self _)
  revert helsewhere
  decide

end Returned

end DewDB.HandoverCleanup
