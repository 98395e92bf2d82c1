import DewDB.HandoverCleanup
import DewDB.ResetSafety

/-!
# Handovers and system collections

A group keeps state of its own in collections with reserved names. A handover takes up documents in
four places: the plan of a pass and a reset list a node's keys, a destination writes the batches it
receives, and a cleanup deletes. The cleanup alone leaves out the reserved names.
-/
namespace DewDB.SystemCollections

open Endpoint TokenRing HandoverPlan ClusterMeta HandoverCleanup TransitionSystem
open SchemaChange (isSystemCollection)

/-- One node's task for one phase of a plan. `left` are the keys of a pass that have not been read
yet, each with its destination, and `docs` those that have been read and not yet sent. -/
structure Push where
  node : ℕ
  migration : ClusterMeta.Migration
  checked : Bool
  left : List (Url × DocKey)
  docs : List (Url × DocKey)

structure MigrateBatch where
  id : PlanId
  phase : MigrationPhase
  docs : List DocKey

structure MigrateReset where
  id : PlanId
  phase : MigrationPhase
  source : Url

structure Reset where
  node : ℕ
  req : MigrateReset
  left : List DocKey

/-- What a pass or a reset appends at a node: a document or a delete. -/
structure Written where
  node : ℕ
  key : DocKey
  deletes : Bool
  deriving DecidableEq

/-- All nodes, with the tasks of handovers and the requests between them, which can be late, doubled
or lost. What the documents hold is left out. -/
structure State where
  nodes : ℕ → Node
  pushes : List Push
  batches : List (Url × MigrateBatch)
  requests : List (Url × MigrateReset)
  resets : List Reset
  completed : List (ℕ × PlanId × Url)
  written : List Written

inductive Op where
  | node (n : ℕ) (op : HandoverCleanup.Op)
  | ensureRunning (n : ℕ)
  | check (j : ℕ)
  | plan (j : ℕ)
  | requestReset (j : ℕ) (destination : Url)
  | read (j : ℕ) (destination : Url) (collection : List Char) (m : ℕ)
  | send (j m : ℕ)
  | receive (n b m : ℕ)
  | reset (n r : ℕ)
  | tombstone (i : ℕ)
  | complete (i : ℕ)
  | abandon (i : ℕ)

/-- The plan of the node's view, if it is this one in this phase. -/
def inPhase (n : Node) (id : PlanId) (phase : MigrationPhase) : Option ClusterMeta.Migration :=
  n.view.migration.filter fun m => m.id = id && m.phase = phase

def State.setPush (s : State) (j : ℕ) (p : Push) : State := { s with pushes := s.pushes.set j p }

section Source

variable (xxh64 : Xxh64)

/-- `plan_outgoing`, with the ring of the view and the target of the task. -/
def outgoing (current target : HashRing) (mine : Url) (keys : List DocKey) : List (Url × DocKey) :=
  keys.filterMap fun k => (destinationOf xxh64 current target mine k).map fun next => (next, k)

/-- `migrate_reset_handler` up to its list, at a node that is in the plan's last phase. -/
def resetOutcome (n : Node) (target : HashRing) (source : Url) : ResetOutcome :=
  migrateResetHandler xxh64 ⟨n.own, n.isLeader, n.view.ring,
    some ⟨0, target, .finalizing⟩, [], n.keys⟩ ⟨0, .finalizing, source⟩

def step (s : State) : Op → Option State
  | .node n op => (HandoverCleanup.step xxh64 (s.nodes n) op).map fun t =>
      { s with nodes := Function.update s.nodes n t }
  | .ensureRunning n =>
    if (s.nodes n).isLeader then
      (s.nodes n).view.migration.map fun m =>
        { s with pushes := s.pushes ++ [⟨n, m, false, [], []⟩] }
    else none
  | .check j => s.pushes[j]?.bind fun p =>
    if (s.nodes p.node).isLeader ∧
      (inPhase (s.nodes p.node) p.migration.id p.migration.phase).isSome then
      some (s.setPush j { p with checked := true })
    else none
  | .plan j => s.pushes[j]?.bind fun p =>
    if p.checked then
      let n := s.nodes p.node
      n.view.ring.bind fun current => (sourceGroup current n.own).map fun mine =>
        s.setPush j ⟨p.node, p.migration, false,
          outgoing xxh64 current p.migration.target mine n.keys, []⟩
    else none
  | .requestReset j destination => s.pushes[j]?.bind fun p =>
    let n := s.nodes p.node
    n.view.ring.bind fun current => (sourceGroup current n.own).bind fun mine =>
      if p.migration.phase = .finalizing ∧
        destination ∈ destinations xxh64 current p.migration.target mine then
        some { s with requests :=
          s.requests ++ [(destination, ⟨p.migration.id, .finalizing, mine⟩)] }
      else none
  | .read j destination collection m => s.pushes[j]?.bind fun p =>
    if p.docs = [] then
      let chunk := (p.left.filter fun e => e.1 = destination && e.2.collection = collection).take m
      some (s.setPush j { p with
        left := p.left.filter fun e => e ∉ chunk
        docs := chunk.filter fun e => e.2 ∈ (s.nodes p.node).keys })
    else none
  | .send j m => s.pushes[j]?.bind fun p => p.docs.head?.map fun first =>
      { s.setPush j { p with docs := p.docs.drop m } with
        batches := s.batches ++
          [(first.1, ⟨p.migration.id, p.migration.phase, (p.docs.take m).map Prod.snd⟩)] }
  -- an append can fail after the first `m` documents
  | .receive n b m => s.batches[b]?.bind fun batch =>
    if sameEndpoint (s.nodes n).own batch.1 ∧ (s.nodes n).isShard ∧ (s.nodes n).isLeader ∧
        (inPhase (s.nodes n) batch.2.id batch.2.phase).isSome then
      some { s with written := s.written ++ (batch.2.docs.take m).map fun k => ⟨n, k, false⟩ }
    else none
  | .reset n r => s.requests[r]?.bind fun req =>
    if sameEndpoint (s.nodes n).own req.1 ∧ (s.nodes n).isShard ∧ req.2.phase = .finalizing ∧
        (n, req.2.id, nodeKey req.2.source) ∉ s.completed then
      (inPhase (s.nodes n) req.2.id .finalizing).bind fun m =>
        match resetOutcome xxh64 (s.nodes n) m.target req.2.source with
        | .reset stale => some { s with resets := s.resets ++ [⟨n, req.2, stale⟩] }
        | _ => none
    else none
  | .tombstone i => s.resets[i]?.bind fun r => r.left.head?.map fun k =>
      { s with
        resets := s.resets.set i { r with left := r.left.tail }
        written := s.written ++ [⟨r.node, k, true⟩] }
  | .complete i => s.resets[i]?.bind fun r =>
    if r.left = [] then
      some { s with
        resets := s.resets.eraseIdx i
        completed := (r.node, r.req.id, nodeKey r.req.source) :: s.completed }
    else none
  | .abandon i => some { s with resets := s.resets.eraseIdx i }

def Settled (s : State) : Op → Prop
  -- No system document of the source moves from its group.
  | .plan j => ∀ p ∈ s.pushes[j]?, ∀ current ∈ (s.nodes p.node).view.ring,
      ∀ mine ∈ sourceGroup current (s.nodes p.node).own, ∀ k ∈ (s.nodes p.node).keys,
        isSystemCollection k.collection = true →
          destinationOf xxh64 current p.migration.target mine k = none
  -- No system document of the destination moves to its group from the source.
  | .reset n r => ∀ req ∈ s.requests[r]?, ∀ current ∈ (s.nodes n).view.ring,
      ∀ m ∈ (s.nodes n).view.migration,
      ∀ destination ∈ sourceGroup m.target (s.nodes n).own, ∀ k ∈ (s.nodes n).keys,
        isSystemCollection k.collection = true → ownedBy xxh64 current req.2.source k = true →
          ownedBy xxh64 m.target destination k = false
  | _ => True

end Source

def Ordinary (k : DocKey) : Prop := isSystemCollection k.collection = false

/-- Nothing is under way yet; the nodes' views and documents are arbitrary. -/
def Initial (s : State) : Prop :=
  s.pushes = [] ∧ s.batches = [] ∧ s.resets = [] ∧ s.written = [] ∧ ∀ n,
    HandoverCleanup.Initial (s.nodes n)

/-- A node's cleanups, and what they deleted, are about no system document. -/
structure NodeInv (n : Node) : Prop where
  left : ∀ c ∈ n.cleanups, ∀ k ∈ c.left, Ordinary k
  next : ∀ c ∈ n.cleanups, ∀ k ∈ c.next, Ordinary k
  tombstones : ∀ d ∈ n.tombstones, Ordinary d.1

/-- No task, no batch and nothing that is written is about a system document. -/
structure Inv (s : State) : Prop where
  nodes : ∀ n, NodeInv (s.nodes n)
  left : ∀ p ∈ s.pushes, ∀ e ∈ p.left, Ordinary e.2
  docs : ∀ p ∈ s.pushes, ∀ e ∈ p.docs, Ordinary e.2
  batches : ∀ b ∈ s.batches, ∀ k ∈ b.2.docs, Ordinary k
  resets : ∀ r ∈ s.resets, ∀ k ∈ r.left, Ordinary k
  written : ∀ w ∈ s.written, Ordinary w.key

section Steps

variable {xxh64 : Xxh64} {s t : State} {j : ℕ} {p p' : Push}

theorem NodeInv.step {n n' : Node} (h : NodeInv n) {op : HandoverCleanup.Op}
    (hstep : HandoverCleanup.step xxh64 n op = some n') : NodeInv n' := by
  have heffect := step_effect hstep
  constructor
  · intro c hc k hk
    rcases heffect.left c hc k hk with ⟨d, hd, hk⟩ | ⟨live, hours⟩
    · exact h.left d hd k hk
    · simp only [notOurs, Bool.and_eq_true, Bool.not_eq_true'] at hours
      exact hours.1
  · intro c hc k hk
    rcases heffect.next c hc k hk with ⟨d, hd, hk⟩ | ⟨⟨d, hd, hk⟩, -⟩
    · exact h.next d hd k hk
    · exact h.left d hd k hk
  · intro d hd
    rcases heffect.tombstones d hd with hd | ⟨-, c, hc, hk⟩
    · exact h.tombstones d hd
    · exact h.next c hc d.1 hk

theorem Inv.setPush (h : Inv s) (hleft : ∀ e ∈ p'.left, Ordinary e.2)
    (hdocs : ∀ e ∈ p'.docs, Ordinary e.2) : Inv (s.setPush j p') := by
  refine { h with left := fun q hq => ?_, docs := fun q hq => ?_ }
  · rcases List.mem_or_eq_of_mem_set hq with hq | rfl
    · exact h.left q hq
    · exact hleft
  · rcases List.mem_or_eq_of_mem_set hq with hq | rfl
    · exact h.docs q hq
    · exact hdocs

theorem ordinary_outgoing {current target : HashRing} {mine : Url} {keys : List DocKey}
    (h : ∀ k ∈ keys, isSystemCollection k.collection = true →
      destinationOf xxh64 current target mine k = none) :
    ∀ e ∈ outgoing xxh64 current target mine keys, Ordinary e.2 := by
  intro e he
  obtain ⟨k, hk, hmap⟩ := List.mem_filterMap.mp he
  obtain ⟨next, hnext, rfl⟩ := Option.map_eq_some_iff.mp hmap
  apply Bool.eq_false_iff.mpr
  intro hsystem
  rw [h k hk hsystem] at hnext
  cases hnext

theorem ordinary_stale {n : Node} {current target : HashRing} {source : Url} {stale : List DocKey}
    (hring : n.view.ring = some current)
    (hreset : resetOutcome xxh64 n target source = .reset stale)
    (h : ∀ destination ∈ sourceGroup target n.own, ∀ k ∈ n.keys,
      isSystemCollection k.collection = true →
      ownedBy xxh64 current source k = true → ownedBy xxh64 target destination k = false) :
    ∀ k ∈ stale, Ordinary k := by
  intro k hk
  have hmem : k ∈ (resetOutcome xxh64 n target source).tombstones := by
    rw [hreset]
    exact hk
  obtain ⟨hkeys, hsource, destination, hdestination, htarget⟩ :=
    ResetSafety.owned_of_mem_tombstones hring rfl hmem
  apply Bool.eq_false_iff.mpr
  intro hsystem
  rw [h destination hdestination k hkeys hsystem hsource] at htarget
  cases htarget

theorem mem_stale {n : Node} {current target : HashRing} {source destination : Url}
    {stale : List DocKey}
    {k : DocKey} (hring : n.view.ring = some current)
    (hreset : resetOutcome xxh64 n target source = .reset stale)
    (hdestination : sourceGroup target n.own = some destination) (hk : k ∈ n.keys)
    (hsource : ownedBy xxh64 current source k = true)
    (htarget : ownedBy xxh64 target destination k = true) : k ∈ stale := by
  simp only [resetOutcome, migrateResetHandler, hring,
    hdestination, and_self, if_true, List.not_mem_nil, if_false] at hreset
  split at hreset
  · cases hreset
  · split at hreset
    · obtain rfl := ResetOutcome.reset.inj hreset
      rw [List.mem_filter, hsource, htarget]
      exact ⟨hk, rfl⟩
    · cases hreset

theorem Inv.ensureRunning (h : Inv s) {n : ℕ}
    (hstep : step xxh64 s (.ensureRunning n) = some t) : Inv t := by
  simp only [step] at hstep
  split at hstep
  · obtain ⟨m, hm, rfl⟩ := Option.map_eq_some_iff.mp hstep
    refine { h with left := fun p hp => ?_, docs := fun p hp => ?_ }
    · rcases List.mem_append.mp hp with hp | hp
      · exact h.left p hp
      · rw [List.mem_singleton.mp hp]
        exact fun e he => nomatch he
    · rcases List.mem_append.mp hp with hp | hp
      · exact h.docs p hp
      · rw [List.mem_singleton.mp hp]
        exact fun e he => nomatch he
  · cases hstep

theorem Inv.plan (h : Inv s)
    (hok : Settled xxh64 s (.plan j))
    (hstep : step xxh64 s (.plan j) = some t) : Inv t := by
  obtain ⟨p, hp, hstep⟩ := Option.bind_eq_some_iff.mp hstep
  split at hstep
  · obtain ⟨current, hcurrent, hstep⟩ := Option.bind_eq_some_iff.mp hstep
    obtain ⟨mine, hmine, rfl⟩ := Option.map_eq_some_iff.mp hstep
    apply h.setPush
    · exact ordinary_outgoing (hok p hp current hcurrent mine hmine)
    · exact fun e he => nomatch he
  · cases hstep

theorem Inv.read (h : Inv s) {destination : Url} {collection : List Char} {m : ℕ}
    (hstep : step xxh64 s (.read j destination collection m) = some t) : Inv t := by
  obtain ⟨p, hp, hstep⟩ := Option.bind_eq_some_iff.mp hstep
  have hleft := h.left p (List.mem_of_getElem? hp)
  split at hstep
  · cases hstep
    apply h.setPush
    · exact fun e he => hleft e (List.mem_of_mem_filter he)
    · intro e he
      have hchunk := List.mem_of_mem_take (List.mem_of_mem_filter he)
      exact hleft e (List.mem_of_mem_filter hchunk)
  · cases hstep

theorem Inv.send (h : Inv s) {m : ℕ}
    (hstep : step xxh64 s (.send j m) = some t) : Inv t := by
  obtain ⟨p, hp, hstep⟩ := Option.bind_eq_some_iff.mp hstep
  obtain ⟨first, -, rfl⟩ := Option.map_eq_some_iff.mp hstep
  have hmem := List.mem_of_getElem? hp
  have hset : Inv (s.setPush j { p with docs := p.docs.drop m }) := by
    refine h.setPush ?_ ?_
    · exact h.left p hmem
    · exact fun e he => h.docs p hmem e (List.mem_of_mem_drop he)
  refine { hset with batches := fun b hb => ?_ }
  rcases List.mem_append.mp hb with hb | hb
  · exact h.batches b hb
  · rw [List.mem_singleton.mp hb]
    intro k hk
    obtain ⟨e, he, rfl⟩ := List.mem_map.mp hk
    exact h.docs p hmem e (List.mem_of_mem_take he)

theorem Inv.receive (h : Inv s) {n b m : ℕ}
    (hstep : step xxh64 s (.receive n b m) = some t) : Inv t := by
  obtain ⟨batch, hbatch, hstep⟩ := Option.bind_eq_some_iff.mp hstep
  split at hstep
  · cases hstep
    refine { h with written := fun w hw => ?_ }
    rcases List.mem_append.mp hw with hw | hw
    · exact h.written w hw
    · obtain ⟨k, hk, rfl⟩ := List.mem_map.mp hw
      exact h.batches batch (List.mem_of_getElem? hbatch) k (List.mem_of_mem_take hk)
  · cases hstep

theorem Inv.reset (h : Inv s) {n r : ℕ}
    (hok : Settled xxh64 s (.reset n r))
    (hstep : step xxh64 s (.reset n r) = some t) : Inv t := by
  obtain ⟨req, hreq, hstep⟩ := Option.bind_eq_some_iff.mp hstep
  split at hstep
  · obtain ⟨m, hm, hstep⟩ := Option.bind_eq_some_iff.mp hstep
    have hmigration := (Option.filter_eq_some_iff.mp hm).1
    split at hstep
    · next stale hreset =>
      cases hstep
      refine { h with resets := fun q hq => ?_ }
      rcases List.mem_append.mp hq with hq | hq
      · exact h.resets q hq
      · rw [List.mem_singleton.mp hq]
        cases hring : (s.nodes n).view.ring with
        | some current => exact ordinary_stale hring hreset (hok req hreq current
            hring m hmigration)
        | none =>
          -- a node without a ring refuses the reset
          simp only [resetOutcome, migrateResetHandler, hring] at hreset
          grind
    · cases hstep
  · cases hstep

theorem Inv.tombstone (h : Inv s) {i : ℕ}
    (hstep : step xxh64 s (.tombstone i) = some t) : Inv t := by
  obtain ⟨r, hr, hstep⟩ := Option.bind_eq_some_iff.mp hstep
  obtain ⟨k, hk, rfl⟩ := Option.map_eq_some_iff.mp hstep
  have hleft := h.resets r (List.mem_of_getElem? hr)
  refine { h with resets := fun q hq => ?_, written := fun w hw => ?_ }
  · rcases List.mem_or_eq_of_mem_set hq with hq | rfl
    · exact h.resets q hq
    · exact fun k hk => hleft k (List.mem_of_mem_tail hk)
  · rcases List.mem_append.mp hw with hw | hw
    · exact h.written w hw
    · rw [List.mem_singleton.mp hw]
      exact hleft k (List.mem_of_head? hk)

theorem step_inv (h : Inv s) {op : Op} (hok : Settled xxh64 s op)
    (hstep : step xxh64 s op = some t) : Inv t := by
  cases op with
  | node n op =>
    obtain ⟨n', hn', rfl⟩ := Option.map_eq_some_iff.mp hstep
    refine { h with nodes := fun m => ?_ }
    by_cases hm : m = n
    · subst hm
      dsimp only
      rw [Function.update_self]
      exact (h.nodes m).step hn'
    · dsimp only
      rw [Function.update_of_ne hm]
      exact h.nodes m
  | ensureRunning n => exact h.ensureRunning hstep
  | check j =>
    obtain ⟨p, hp, hstep⟩ := Option.bind_eq_some_iff.mp hstep
    have hmem := List.mem_of_getElem? hp
    split at hstep
    · cases hstep
      exact h.setPush (h.left p hmem) (h.docs p hmem)
    · cases hstep
  | plan j => exact h.plan hok hstep
  | requestReset j destination =>
    obtain ⟨p, hp, hstep⟩ := Option.bind_eq_some_iff.mp hstep
    obtain ⟨current, hcurrent, hstep⟩ := Option.bind_eq_some_iff.mp hstep
    obtain ⟨mine, hmine, hstep⟩ := Option.bind_eq_some_iff.mp hstep
    split at hstep
    · cases hstep
      exact { h with }
    · cases hstep
  | read j destination collection m => exact h.read hstep
  | send j m => exact h.send hstep
  | receive n b m => exact h.receive hstep
  | reset n r => exact h.reset hok hstep
  | tombstone i => exact h.tombstone hstep
  | complete i =>
    obtain ⟨r, hr, hstep⟩ := Option.bind_eq_some_iff.mp hstep
    split at hstep
    · cases hstep
      exact { h with resets := fun q hq => h.resets q (List.mem_of_mem_eraseIdx hq) }
    · cases hstep
  | abandon i =>
    cases hstep
    exact { h with resets := fun q hq => h.resets q (List.mem_of_mem_eraseIdx hq) }

theorem Initial.inv (h : Initial s) : Inv s := by
  obtain ⟨hpushes, hbatches, hresets, hwritten, hnodes⟩ := h
  constructor
  · intro n
    obtain ⟨hcleanups, htombstones⟩ := hnodes n
    constructor <;> simp [hcleanups, htombstones]
  · simp [hpushes]
  · simp [hpushes]
  · simp [hbatches]
  · simp [hresets]
  · simp [hwritten]

theorem taken_up_of_unsettled {op : Op} (hbad : ¬Settled xxh64 s op)
    (hstep : step xxh64 s op = some t) :
    (∃ p ∈ t.pushes, ∃ e ∈ p.left, ¬Ordinary e.2) ∨ ∃ r ∈ t.resets, ∃ k ∈ r.left, ¬Ordinary k := by
  have hordinary : ∀ k, isSystemCollection k.collection = true → ¬Ordinary k := by
    intro k hsystem
    rw [Ordinary, hsystem]
    exact nofun
  cases op with
  | plan j =>
    left
    simp only [Settled, not_forall] at hbad
    obtain ⟨p, hp, current, hcurrent, mine, hmine, k, hk, hsystem, hmoves⟩ := hbad
    obtain ⟨next, hnext⟩ := Option.ne_none_iff_exists'.mp hmoves
    obtain ⟨q, hq, hstep⟩ := Option.bind_eq_some_iff.mp hstep
    obtain rfl : p = q := Option.some.inj (hp.symm.trans hq)
    split at hstep
    · simp only [Option.mem_def.mp hcurrent, Option.mem_def.mp hmine, Option.bind_some,
        Option.map_some, Option.some.injEq] at hstep
      subst hstep
      have hlt : j < s.pushes.length := (List.getElem?_eq_some_iff.mp hp).1
      refine ⟨_, List.mem_set hlt _, (next, k), ?_, hordinary k hsystem⟩
      apply List.mem_filterMap.mpr
      exact ⟨k, hk, by rw [hnext]; rfl⟩
    · cases hstep
  | reset n r =>
    right
    simp only [Settled, not_forall, Bool.not_eq_false] at hbad
    obtain ⟨req, hreq, current, hcurrent, m, hm, destination, hdestination, k, hk, hsystem, hsource,
      htarget⟩ := hbad
    obtain ⟨req', hreq', hstep⟩ := Option.bind_eq_some_iff.mp hstep
    obtain rfl : req = req' := Option.some.inj (hreq.symm.trans hreq')
    split at hstep
    · obtain ⟨m', hm', hstep⟩ := Option.bind_eq_some_iff.mp hstep
      obtain rfl : m = m' := Option.some.inj (hm.symm.trans (Option.filter_eq_some_iff.mp hm').1)
      split at hstep
      · next stale hreset =>
        cases hstep
        have hstale := mem_stale hcurrent hreset hdestination hk hsource htarget
        exact ⟨_, List.mem_append_right _ (List.mem_singleton_self _), k, hstale,
          hordinary k hsystem⟩
      · cases hstep
    · cases hstep
  | _ => exact (hbad trivial).elim

/-- Where no pass plans at a node with a system document that moves away from its group, and no
reset comes to a node with one that moves to its group, a handover writes and deletes no system
document at any node. -/
theorem handover_leaves_system {ops : List Op} (hinit : Initial s)
    (hrun : run (step xxh64) s ops = some t) (hok : Meets (step xxh64) (Settled xxh64) s ops) :
    (∀ w ∈ t.written, isSystemCollection w.key.collection = false) ∧
      ∀ n, ∀ d ∈ (t.nodes n).tombstones, isSystemCollection d.1.collection = false := by
  have hinv : Inv t := run_invariant_of_meets (fun _ _ _ h hok hstep =>
    step_inv h hok hstep) hrun hok hinit.inv
  exact ⟨hinv.written, fun n => (hinv.nodes n).tombstones⟩

end Steps

section Registrations

open ResetSafety (sumHash)

def twoShards : HashRing := ⟨1, [⟨['a'], []⟩, ⟨['b'], []⟩]⟩

/-- The handover of the shard at `a` to the one at `b`. -/
def leaving (phase : MigrationPhase) : ClusterMetadata :=
  ⟨2, ['c'], false, [], [], some twoShards, some ⟨['m'], ringOf ['b'], ['c'], phase⟩, ∅⟩

def twoLeaders (phase : MigrationPhase) (a b : List DocKey) : State :=
  ⟨fun n => ⟨if n = 0 then ['a'] else ['b'], true, true, leaving phase, ⟨0, none, none⟩,
    if n = 0 then a else b, none, none, [], []⟩, [], [], [], [], [], []⟩

def registrations : DocKey := ⟨"_webhooks".toList, "registrations".toList⟩

/-- The source has one document, and the destination its own registrations. -/
def copyStart (k : DocKey) : State := twoLeaders .copy [k] [registrations]

def copyOps (k : DocKey) : List Op :=
  [.ensureRunning 0, .check 0, .plan 0, .read 0 ['b'] k.collection 1, .send 0 1, .receive 1 0 1]

def resetStart : State := twoLeaders .finalizing [] [registrations]

def resetOps : List Op :=
  [.ensureRunning 0, .check 0, .plan 0, .requestReset 0 ['b'], .reset 1 0, .tombstone 0]

def after (s : State) (ops : List Op) : State := (run (step sumHash) s ops).getD s

theorem initial_copyStart (k : DocKey) : Initial (copyStart k) :=
  ⟨rfl, rfl, rfl, rfl, fun _ => ⟨rfl, rfl⟩⟩

theorem run_copyOps : run (step sumHash) (copyStart movedKey) (copyOps movedKey) =
    some (after (copyStart movedKey) (copyOps movedKey)) := by rfl

theorem handover_leaves_system_copy :
    (after (copyStart movedKey) (copyOps movedKey)).written = [⟨1, movedKey, false⟩] ∧
    (∀ w ∈ (after (copyStart movedKey) (copyOps movedKey)).written,
      isSystemCollection w.key.collection = false) ∧
    ∀ n, ∀ d ∈ ((after (copyStart movedKey) (copyOps movedKey)).nodes n).tombstones,
      isSystemCollection d.1.collection = false := by
  refine ⟨by decide, handover_leaves_system (initial_copyStart movedKey) run_copyOps ?_⟩
  repeat apply meets_cons trivial rfl
  apply meets_cons ?_ rfl
  · repeat apply meets_cons trivial rfl
    trivial
  · intro p hp current _ mine _ k hk hsystem
    cases hp
    have hordinary : isSystemCollection movedKey.collection = false := by decide
    rw [List.mem_singleton.mp hk, hordinary] at hsystem
    cases hsystem

/-- A copy pass writes the source's registrations over those of the destination, and a reset deletes
the destination's. -/
theorem registrations_taken :
    (leaving .copy).validate = .ok () ∧ (leaving .finalizing).validate = .ok () ∧
    run (step sumHash) (copyStart registrations) (copyOps registrations) =
      some (after (copyStart registrations) (copyOps registrations)) ∧
    (after (copyStart registrations) (copyOps registrations)).written =
      [⟨1, registrations, false⟩] ∧
    run (step sumHash) resetStart resetOps = some (after resetStart resetOps) ∧
    (after resetStart resetOps).written = [⟨1, registrations, true⟩] ∧
    ¬∀ (s t : State) (ops : List Op), Initial s → run (step sumHash) s ops = some t →
      ∀ w ∈ t.written, isSystemCollection w.key.collection = false := by
  have hwritten : (after (copyStart registrations) (copyOps registrations)).written =
    [⟨1, registrations, false⟩] := by
    decide
  refine ⟨by decide, by decide, rfl, hwritten, rfl, by decide, fun hclaim => ?_⟩
  have hordinary := hclaim (copyStart registrations)
    (after (copyStart registrations) (copyOps registrations))
    (copyOps registrations) (initial_copyStart registrations) rfl ⟨1, registrations, false⟩
    (by rw [hwritten]; exact List.mem_singleton_self _)
  revert hordinary
  decide

end Registrations

end DewDB.SystemCollections
