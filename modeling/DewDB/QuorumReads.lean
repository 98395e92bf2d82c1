import DewDB.HandoverGate

/-!
# Quorum reads during a handover

A node that answers a quorum read samples the commit index of its group, confirms that it leads,
waits until it has applied the index, and only then asks its own view whether the key is its own.
The two groups confirm nothing to each other.
-/
namespace DewDB.Handover

open GroupLog ShardGroup HandoverPlan TransitionSystem

variable {K V : Type}

/-- A read under way: the index with the epoch it was sampled in. `seen` is what was committed for
the key when the read began and `view` what the node knew of the plan when it sampled; no step
depends on either. -/
structure Read (K V : Type) where
  side : Side
  node : Nat
  key : K
  index : Option (Nat × Nat)
  confirmed : Bool
  owned : Bool
  seen : List (Entry K V)
  view : View

structure Answer (K V : Type) where
  key : K
  value : Option V
  seen : List (Entry K V)

structure Served (K V : Type) where
  handover : State K V
  reads : List (Read K V)
  answers : List (Answer K V)

inductive ReadLabel (K V : Type) where
  | handover (l : Label K V)
  | begin (side : Side) (n : Nat) (k : K)
  | sample (i : Nat)
  | confirm (i : Nat)
  | own (i : Nat)
  | answer (i : Nat)

section Step

variable [DecidableEq K]

/-- The client writes of a key in the first `u` entries of the source's log. -/
def sourceWrites (s : State K V) (u : Nat) (k : K) : List (Entry K V) :=
  (s.src.log.take u).filter fun e => e.key = k ∧ e.origin ≠ .cleanup

def destinationWrites (s : State K V) (u : Nat) (k : K) : List (Entry K V) :=
  (s.dst.log.take u).filter fun e => e.key = k ∧ e.origin = .client

/-- The committed client writes of a key, in the order of the handover: the source's, then the
destination's. What is acknowledged with `Majority` is committed. -/
def history (s : State K V) (k : K) : List (Entry K V) :=
  sourceWrites s s.src.committed k ++ destinationWrites s s.dst.committed k

def Served.setRead (s : Served K V) (i : Nat) (r : Read K V) : Served K V :=
  { s with reads := s.reads.set i r }

variable [DecidableEq V] (c : Layout K)

def readStep (s : Served K V) : ReadLabel K V → Option (Served K V)
  | .handover l => (step c s.handover l).map fun h => { s with handover := h }
  | .begin side n k =>
    if n ∈ (s.handover.group side).led ∧ (side = .source → n ∈ c.members) then
      let r : Read K V := ⟨side, n, k, none, false, false, history s.handover k, .owner⟩
      some { s with reads := s.reads ++ [r] }
    else none
  -- a node that does not lead when it samples is not confirmed afterwards
  | .sample i =>
    s.reads[i]?.bind fun r =>
      let g := s.handover.group r.side
      if r.index = none ∧ r.node = g.leader then
        some (s.setRead i { r with index := some (g.committed, g.epoch), view := g.view r.node })
      else none
  | .confirm i =>
    s.reads[i]?.bind fun r => r.index.bind fun index =>
      let g := s.handover.group r.side
      if index.2 = g.epoch ∧ index.1 ≤ g.applied r.node then
        some (s.setRead i { r with confirmed := true })
      else none
  | .own i =>
    s.reads[i]?.bind fun r =>
      if r.confirmed ∧ owns c r.side ((s.handover.group r.side).view r.node) r.key then
        some (s.setRead i { r with owned := true })
      else none
  | .answer i =>
    s.reads[i]?.bind fun r =>
      if r.owned then
        let value := (s.handover.group r.side).read r.node r.key
        some { s with answers := s.answers ++ [⟨r.key, value, r.seen⟩] }
      else none

end Step

/-- Besides being calm: the destination takes client writes, and the source deletes what it handed
over, only after every node of the source has adopted the flip; from when the target ring is
published, only source nodes that have adopted the final phase take client writes; no late batch
overwrites a client's write; and a node that answers owned the key when it sampled and still owns it
when it reads. -/
def Fenced [DecidableEq K] (c : Layout K) (s : Served K V) : ReadLabel K V → Prop
  | .handover l => Calm c s.handover l ∧
    match l with
    | .write (.accept .destination _ _ _) =>
      ∀ n ∈ c.members, (s.handover.src.view n).isOver
    | .write (.accept .source n _ _) =>
      s.handover.plan.isOver → View.finalizing.rank ≤ (s.handover.src.view n).rank
    | .cleanup _ _ => ∀ n ∈ c.members, (s.handover.src.view n).isOver
    | .batch (.append i) =>
      ∀ b ∈ s.handover.admitted[i]?, ∀ batch ∈ s.handover.batches[b]?,
        c.target = s.handover.dst.leader → ∀ d ∈ batch.docs,
          ∀ e ∈ s.handover.dst.log, e.key = d.1 → e.origin ≠ .client
    | _ => True
  | .own i => ∀ r ∈ s.reads[i]?, owns c r.side r.view r.key
  | .answer i =>
    ∀ r ∈ s.reads[i]?, owns c r.side ((s.handover.group r.side).view r.node) r.key
  | _ => True

/-- A client's write is accepted in one group only while no node of the other one owns the key. A
node that owns no key answers no quorum read of it and accepts no write. -/
def Exclusive [DecidableEq K] (c : Layout K) (s : Served K V) : ReadLabel K V → Prop
  | .handover (.write (.accept .source _ k _)) =>
    ∀ n, owns c .destination (s.handover.dst.view n) k = false
  | .handover (.write (.accept .destination _ k _)) =>
    ∀ n ∈ c.members, owns c .source (s.handover.src.view n) k = false
  | _ => True

/-- The answer is the last write of a prefix of the history that has everything committed before the
read began. -/
def Fresh [DecidableEq K] (s : State K V) (a : Answer K V) : Prop :=
  ∃ h, a.seen <+: h ∧ h <+: history s a.key ∧ a.value = lookup h a.key

section Fence

variable {c : Layout K} {s s' : State K V}

/-- Every source node has adopted the flip, which has been published. -/
def AllFlipped (c : Layout K) (s : State K V) : Prop :=
  s.plan.isOver ∧ ∀ n ∈ c.members, (s.src.view n).isOver

structure Fence (c : Layout K) (s : State K V) : Prop where
  accepted : ∀ w ∈ s.writes, w.side = .destination → c.moves w.key ∧ AllFlipped c s
  clients : ∀ e, e ∈ s.dst.log ∨ e ∈ s.dst.ever → e.origin = .client →
    c.moves e.key ∧ AllFlipped c s
  order : s.dst.log.Pairwise fun e e' => e.key = e'.key → e.origin = .client → e'.origin = .client
  cleanups : ∀ e, e ∈ s.src.log ∨ e ∈ s.src.ever → e.origin = .cleanup →
    c.moves e.key ∧ AllFlipped c s

theorem Fence.frame (hf : Fence c s) (hsrc : s'.src = s.src) (hdst : s'.dst = s.dst)
    (hwrites : s'.writes = s.writes) (hover : s.plan.isOver → s'.plan.isOver) : Fence c s' := by
  have hflip : AllFlipped c s → AllFlipped c s' := fun h => ⟨hover h.1, hsrc ▸ h.2⟩
  refine ⟨?_, ?_, hdst ▸ hf.order, ?_⟩
  · rw [hwrites]
    exact fun w hw hside => (hf.accepted w hw hside).imp_right hflip
  · rw [hdst]
    exact fun e he ho => (hf.clients e he ho).imp_right hflip
  · rw [hsrc]
    exact fun e he ho => (hf.cleanups e he ho).imp_right hflip

theorem AllFlipped.of_views {g : ShardGroup K V View} (h : AllFlipped c s) (hsrc : s'.src = g)
    (hplan : s'.plan = s.plan) (hviews : ∀ n, (s.src.view n).rank ≤ (g.view n).rank) :
    AllFlipped c s' :=
  ⟨hplan ▸ h.1, fun n hn => by rw [hsrc]; exact View.over_of_rank (hviews n) (h.2 n hn)⟩

variable [DecidableEq K]

theorem Fence.advances {ts td : List (Entry K V)} (hf : Fence c s) (hs : Guarded c s)
    (hsrc : Advances s.src s'.src ts) (hdst : Advances s.dst s'.dst td)
    (hflip : AllFlipped c s → AllFlipped c s')
    (hwrites : ∀ w ∈ s'.writes, w.side = .destination →
      (∃ w₀ ∈ s.writes, w₀.side = .destination ∧ w₀.key = w.key) ∨ c.moves w.key ∧ AllFlipped c s')
    (hclients : ∀ e, e ∈ td ∨ e ∈ s'.dst.ever → e.origin = .client →
      e ∈ s.dst.ever ∨ c.moves e.key ∧ AllFlipped c s')
    (horder : ∀ e' ∈ td, e'.origin ≠ .client → ∀ e, e ∈ s.dst.log ∨ e ∈ td → e.key = e'.key →
      e.origin ≠ .client)
    (hcleanups : ∀ e, e ∈ ts ∨ e ∈ s'.src.ever → e.origin = .cleanup →
      e ∈ s.src.ever ∨ c.moves e.key ∧ AllFlipped c s') : Fence c s' where
  accepted w hw hside := by
    rcases hwrites w hw hside with ⟨w₀, hw₀, hside₀, hkey⟩ | h
    · obtain ⟨hmoves, hall⟩ := hf.accepted w₀ hw₀ hside₀
      exact ⟨hkey ▸ hmoves, hflip hall⟩
    · exact h
  clients e he ho := by
    have hold : e ∈ s.dst.log ∨ e ∈ s.dst.ever ∨ c.moves e.key ∧ AllFlipped c s' := by
      rcases he with he | he
      · rcases hdst.mem_log hs.dst he with he | he
        · exact .inl he
        · exact .inr (hclients e (.inl he) ho)
      · exact .inr (hclients e (.inr he) ho)
    rcases hold with he | he | h
    · exact (hf.clients e (.inl he) ho).imp_right hflip
    · exact (hf.clients e (.inr he) ho).imp_right hflip
    · exact h
  order := by
    obtain ⟨keep, -, hlog⟩ := hdst.exists_keep hs.dst
    rw [hlog, List.pairwise_append]
    refine ⟨hf.order.sublist (List.take_sublist _ _), ?_, ?_⟩
    · refine List.pairwise_of_forall_mem_list fun e he e' he' hkey ho => ?_
      exact Decidable.byContradiction fun ho' => horder e' he' ho' e (.inr he) hkey ho
    · intro e he e' he' hkey ho
      exact Decidable.byContradiction fun ho' =>
        horder e' he' ho' e (.inl (List.mem_of_mem_take he)) hkey ho
  cleanups e he ho := by
    have hold : e ∈ s.src.log ∨ e ∈ s.src.ever ∨ c.moves e.key ∧ AllFlipped c s' := by
      rcases he with he | he
      · rcases hsrc.mem_log hs.source.wf he with he | he
        · exact .inl he
        · exact .inr (hcleanups e (.inl he) ho)
      · exact .inr (hcleanups e (.inr he) ho)
    rcases hold with he | he | h
    · exact (hf.cleanups e (.inl he) ho).imp_right hflip
    · exact (hf.cleanups e (.inr he) ho).imp_right hflip
    · exact h

theorem Fence.append_destination (hf : Fence c s) (hs : Guarded c s) {n : Nat}
    {es : List (Entry K V)} (hes : ∀ e ∈ es, e.origin = .handover)
    (hfree : n = s.dst.leader → ∀ e' ∈ es, ∀ e ∈ s.dst.log, e.key = e'.key → e.origin ≠ .client)
    (hsrc : s'.src = s.src) (hdst : s'.dst = s.dst.appendAt n es) (hwrites : s'.writes = s.writes)
    (hplan : s'.plan = s.plan) : Fence c s' := by
  obtain ⟨-, ha⟩ := appendAt_spec s.dst n es hs.dst
  have hnew : ∀ e ∈ es, e.origin ≠ .client := fun e he => by simp [hes e he]
  refine hf.advances hs (.of_same hsrc) (hdst ▸ ha)
    (fun h => ⟨hplan ▸ h.1, hsrc ▸ h.2⟩)
    (fun w hw hside => .inl ⟨w, hwrites ▸ hw, hside, rfl⟩) ?_ ?_ ?_
  · rintro e (he | he) ho
    · exact absurd ho (hnew e (mem_of_mem_ite he).2)
    · rw [hdst] at he
      rcases List.mem_append.mp he with he | he
      · exact .inl he
      · exact absurd ho (hnew e he)
  · rintro e' he' - e (he | he) hkey
    · obtain ⟨hn, he'⟩ := mem_of_mem_ite he'
      exact hfree hn e' he' e he hkey
    · exact hnew e (mem_of_mem_ite he).2
  · rintro e (he | he) -
    · cases he
    · exact .inl (hsrc ▸ he)

theorem Fence.group_source [DecidableEq V] (hf : Fence c s) (hs : Guarded c s) {a : GroupAct K V}
    {g : ShardGroup K V View} (h : groupStep s.src a = some g) : Fence c { s with src := g } := by
  obtain ⟨tail, -, ha, hview, hever, htail⟩ := groupStep_spec h hs.source.wf
  refine hf.advances hs ha (.of_same rfl)
    (fun h => h.of_views rfl rfl fun n => Nat.le_of_eq (by rw [hview]))
    (fun w hw hside => .inl ⟨w, hw, hside, rfl⟩)
    (fun e he _ => .inl (he.resolve_left List.not_mem_nil)) (by simp) ?_
  rintro e (he | he) -
  · obtain ⟨-, -, -, hmem⟩ := htail (List.ne_nil_of_mem he)
    exact .inl (hmem e he)
  · exact .inl (hever ▸ he)

/-- A leader change at the destination brings nothing of the handover back over a client's write. -/
theorem Fence.group_destination [DecidableEq V] (hf : Fence c s) (hs : Guarded c s)
    {a : GroupAct K V} {g : ShardGroup K V View} (h : groupStep s.dst a = some g)
    (hcalm : Calm c s (.group .destination a)) : Fence c { s with dst := g } := by
  obtain ⟨tail, -, ha, -, hever, htail⟩ := groupStep_spec h hs.dst
  refine hf.advances hs (.of_same rfl) ha (fun h => ⟨h.1, h.2⟩)
    (fun w hw hside => .inl ⟨w, hw, hside, rfl⟩) ?_ ?_ (fun e he _ =>
      .inl (he.resolve_left List.not_mem_nil))
  · rintro e (he | he) -
    · obtain ⟨-, -, -, hmem⟩ := htail (List.ne_nil_of_mem he)
      exact .inl (hmem e he)
    · exact .inl (hever ▸ he)
  · intro e' he' ho' e he hkey ho
    obtain ⟨n, keep, rfl, hmem⟩ := htail (List.ne_nil_of_mem he')
    have hclient := hf.clients e (he.imp_right (hmem e)) ho
    have hscanned := (hs.completed (hs.handed hclient.2.1).1).1
    exact ho' (hcalm hscanned e' he' (hkey ▸ hclient.1))

theorem Fence.adopt (hf : Fence c s) (hs : Guarded c s) {side : Side} {n : Nat} {v : View}
    {g : ShardGroup K V View} (h : adoptStep s.plan (s.group side) n v = some g) :
    Fence c (s.setGroup side g) := by
  cases side with
  | source =>
    obtain ⟨-, ha, hever, -⟩ := adoptStep_spec h hs.source.wf hs.source.views
    exact hf.advances hs ha (.of_same rfl) (fun hall => hall.of_views rfl rfl (adoptStep_view h))
      (fun w hw hside => .inl ⟨w, hw, hside, rfl⟩) (fun e he _ =>
        .inl (he.resolve_left List.not_mem_nil)) (by simp)
      (fun e he _ => .inl (by simpa [State.setGroup, State.group, hever] using he))
  | destination =>
    obtain ⟨-, ha, hever, -⟩ := adoptStep_spec h hs.dst hs.dstViews
    exact hf.advances hs (.of_same rfl) ha (fun hall => ⟨hall.1, hall.2⟩)
      (fun w hw hside => .inl ⟨w, hw, hside, rfl⟩)
      (fun e he _ => .inl (by simpa [State.setGroup, State.group, hever] using he)) (by simp)
      (fun e he _ => .inl (he.resolve_left List.not_mem_nil))

theorem Fence.write (hf : Fence c s) (hs : Guarded c s) {a : WriteAct K V}
    (h : writeStep c s a = some s')
    (hfence : ∀ n k v, a = .accept .destination n k v → ∀ m ∈ c.members, (s.src.view m).isOver) :
    Fence c s' := by
  cases a with
  | accept side n k v =>
    simp only [writeStep, Option.ite_none_right_eq_some, Option.some.injEq] at h
    obtain ⟨⟨-, hacc⟩, rfl⟩ := h
    refine hf.advances hs (.of_same rfl) (.of_same rfl) (fun hall => ⟨hall.1, hall.2⟩) ?_
      (fun e he _ => .inl (he.resolve_left List.not_mem_nil))
        (by simp) (fun e he _ => .inl (he.resolve_left List.not_mem_nil))
    intro w hw hside
    rcases List.mem_append.mp hw with hw | hw
    · exact .inl ⟨w, hw, hside, rfl⟩
    · obtain rfl := List.mem_singleton.mp hw
      simp only at hside
      subst hside
      simp only [accepts, owns, Bool.and_eq_true] at hacc
      exact .inr ⟨hacc.1.1, View.over_of_rank (hs.dstViews n) hacc.1.2, hfence n k v rfl⟩
  | release i =>
    simp only [writeStep, Option.bind_eq_some_iff, Option.some.injEq] at h
    obtain ⟨w, hw, rfl⟩ := h
    refine hf.advances hs (.of_same rfl) (.of_same rfl) (fun hall => ⟨hall.1, hall.2⟩) ?_
      (fun e he _ => .inl (he.resolve_left List.not_mem_nil))
        (by simp) (fun e he _ => .inl (he.resolve_left List.not_mem_nil))
    intro w' hw' hside
    rcases List.mem_or_eq_of_mem_set hw' with hw' | rfl
    · exact .inl ⟨w', hw', hside, rfl⟩
    · exact .inl ⟨w, List.mem_of_getElem? hw, hside, rfl⟩
  | append i =>
    simp only [writeStep, Option.bind_eq_some_iff, Option.ite_none_right_eq_some,
      Option.some.injEq] at h
    obtain ⟨w, hw, -, rfl⟩ := h
    have hmem := List.mem_of_getElem? hw
    have hold : ∀ w' ∈ s.writes.set i { w with appended := true }, w'.side = .destination →
        ∃ w₀ ∈ s.writes, w₀.side = .destination ∧ w₀.key = w'.key := by
      intro w' hw' hside
      rcases List.mem_or_eq_of_mem_set hw' with hw' | rfl
      · exact ⟨w', hw', hside, rfl⟩
      · exact ⟨w, hmem, hside, rfl⟩
    obtain ⟨side, node, key, value, gated, appended⟩ := w
    cases side with
    | source =>
      obtain ⟨-, ha⟩ := appendAt_spec s.src node [⟨key, value, .client⟩] hs.source.wf
      refine hf.advances hs ha (.of_same rfl) (fun hall => ⟨hall.1, hall.2⟩)
        (fun w' hw' hside => .inl (hold w' hw' hside)) (fun e he _ =>
          .inl (he.resolve_left List.not_mem_nil))
        (by simp) ?_
      rintro e (he | he) ho
      · obtain rfl := List.mem_singleton.mp (mem_of_mem_ite he).2
        cases ho
      · rcases List.mem_append.mp he with he | he
        · exact .inl he
        · obtain rfl := List.mem_singleton.mp he
          cases ho
    | destination =>
      have hacc := hf.accepted _ hmem rfl
      obtain ⟨-, ha⟩ := appendAt_spec s.dst node [⟨key, value, .client⟩] hs.dst
      refine hf.advances hs (.of_same rfl) ha (fun hall => ⟨hall.1, hall.2⟩)
        (fun w' hw' hside => .inl (hold w' hw' hside)) ?_ ?_ (fun e he _ =>
          .inl (he.resolve_left List.not_mem_nil))
      · rintro e (he | he) -
        · rw [List.mem_singleton.mp (mem_of_mem_ite he).2]
          exact .inr ⟨hacc.1, hacc.2.1, hacc.2.2⟩
        · rcases List.mem_append.mp he with he | he
          · exact .inl he
          · rw [List.mem_singleton.mp he]
            exact .inr ⟨hacc.1, hacc.2.1, hacc.2.2⟩
      · intro e' he' ho'
        rw [List.mem_singleton.mp (mem_of_mem_ite he').2] at ho'
        exact absurd rfl ho'

theorem Fence.cleanup (hf : Fence c s) (hs : Guarded c s) {n : Nat} {k : K} (hk : c.moves k)
    (hview : (s.src.view n).isOver) (hall : ∀ m ∈ c.members, (s.src.view m).isOver) :
    Fence c { s with src := s.src.appendAt n [⟨k, none, .cleanup⟩] } := by
  have hover : s.plan.isOver := View.over_of_rank (hs.source.views n) hview
  obtain ⟨-, ha⟩ := appendAt_spec s.src n [⟨k, none, .cleanup⟩] hs.source.wf
  refine hf.advances hs ha (.of_same rfl) (fun hall => ⟨hall.1, hall.2⟩)
    (fun w hw hside => .inl ⟨w, hw, hside, rfl⟩)
    (fun e he _ => .inl (he.resolve_left List.not_mem_nil)) (by simp) ?_
  rintro e (he | he) -
  · rw [List.mem_singleton.mp (mem_of_mem_ite he).2]
    exact .inr ⟨hk, hover, hall⟩
  · rcases List.mem_append.mp he with he | he
    · exact .inl he
    · rw [List.mem_singleton.mp he]
      exact .inr ⟨hk, hover, hall⟩

theorem Fence.batch (hf : Fence c s) (hs : Guarded c s) {a : BatchAct}
    (h : batchStep c s a = some s')
    (hfence : ∀ i, a = .append i → ∀ b ∈ s.admitted[i]?, ∀ batch ∈ s.batches[b]?,
      c.target = s.dst.leader → ∀ d ∈ batch.docs, ∀ e ∈ s.dst.log, e.key = d.1 →
        e.origin ≠ .client) : Fence c s' := by
  cases a with
  | check b =>
    simp only [batchStep, Option.bind_eq_some_iff, Option.ite_none_right_eq_some,
      Option.some.injEq] at h
    obtain ⟨batch, -, -, rfl⟩ := h
    exact hf.frame rfl rfl rfl id
  | append i =>
    simp only [batchStep, Option.bind_eq_some_iff, Option.some.injEq] at h
    obtain ⟨b, hi, batch, hbatch, rfl⟩ := h
    refine hf.append_destination hs (fun e he => ?_) (fun hn e' he' e he hkey => ?_) rfl rfl rfl rfl
    · obtain ⟨d, -, rfl⟩ := List.mem_map.mp he
      rfl
    · obtain ⟨d, hd, rfl⟩ := List.mem_map.mp he'
      exact hfence i rfl b hi batch hbatch hn d hd e he hkey
  | met i =>
    simp only [batchStep, Option.bind_eq_some_iff, Option.ite_none_right_eq_some,
      Option.some.injEq] at h
    obtain ⟨w, -, -, rfl⟩ := h
    exact hf.frame rfl rfl rfl id

theorem Fence.no_client (hf : Fence c s) (hs : Guarded c s) (hopen : s.completed = false)
    {e : Entry K V} (he : e ∈ s.dst.log) : e.origin ≠ .client := by
  intro ho
  have := (hs.handed (hf.clients e (.inl he) ho).2.1).1
  rw [hopen] at this
  cases this

theorem Fence.reset_step (hf : Fence c s) (hs : Guarded c s) {a : ResetAct K}
    (h : resetStep c s a = some s') (hcalm : Calm c s (.reset a)) : Fence c s' := by
  cases a with
  | scan keys =>
    simp only [resetStep, Option.ite_none_right_eq_some, Option.some.injEq] at h
    obtain ⟨-, rfl⟩ := h
    exact hf.frame rfl rfl rfl id
  | tombstone =>
    simp only [resetStep, Option.bind_eq_some_iff, Option.ite_none_right_eq_some,
      Option.some.injEq] at h
    obtain ⟨r, hr, k, hk, -, rfl⟩ := h
    exact hf.append_destination hs (by simp)
      (fun _ e' _ e he _ => hf.no_client hs (hs.reset r hr).open_ he) rfl rfl rfl rfl
  | met =>
    simp only [resetStep, Option.bind_eq_some_iff, Option.ite_none_right_eq_some,
      Option.some.injEq] at h
    obtain ⟨r, -, w, -, -, rfl⟩ := h
    exact hf.frame rfl rfl rfl id
  | complete =>
    simp only [resetStep, Option.bind_eq_some_iff, Option.ite_none_right_eq_some,
      Option.some.injEq] at h
    obtain ⟨r, -, -, rfl⟩ := h
    exact hf.frame rfl rfl rfl id
  | drop =>
    simp only [resetStep, Option.bind_eq_some_iff, Option.some.injEq] at h
    obtain ⟨r, -, rfl⟩ := h
    exact hf.frame rfl rfl rfl id
  | orphan i =>
    simp only [resetStep, Option.bind_eq_some_iff, Option.some.injEq] at h
    obtain ⟨k, -, rfl⟩ := h
    exact hf.append_destination hs (by simp)
      (fun hn e' _ e he _ => hf.no_client hs (hcalm hn) he) rfl rfl rfl rfl

end Fence

end DewDB.Handover
