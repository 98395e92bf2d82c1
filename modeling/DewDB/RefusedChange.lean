import DewDB.SchemaChange

/-!
# Refused changes

Most checks of a request come before anything is recorded, so a refusal there leaves no trace. The
write concern of a drop is read after the catalogue has been emptied, and a router records a change
that every group has refused, unless one of them does not hold the collection. What is recorded
then, gossip spreads and reconciliation carries out.
-/
namespace DewDB.SchemaChange

open ReplicationMeta (NodeId)
open Concern Vote StorageEntry ClusterMeta RouterForward
open CatalogMerge hiding supersedes_iff not_supersedes_self
open DurableView (CatalogUpdate Recorded recorded_of_collection applyTo_of_not_moved)

variable {ι κ V H : Type}

section Verdicts

/-- How far a request comes at a node: refused before anything is recorded, recorded with nothing to
append, or recorded with an append to make. -/
inductive Verdict where
  | refused (status : ℕ)
  | recorded (status : ℕ)
  | appending (done : ℕ)

namespace Node

variable (n : Node V H) (r : Request) (e : Circumstances)

/-- What a handler does once its checks have passed that need the collection's directory. -/
def verdictOf (found : Log V H → Verdict) : Verdict :=
  if !n.leading then .refused 403
  else if (parseWriteConcern r.w).isNone then .refused 400
  else if !e.readable then .refused 500
  else ((n.collections r.collection).map found).getD (.refused 404)

def verdict : Verdict :=
  match collectionPath r.collection with
  | some status => .refused status
  | none =>
    match r.change with
    | .dropCollection =>
      if !n.leading then .refused 403
      else if n.finalizing then .refused 503
      else if !e.readable then .refused 500
      else if !n.present r.collection then .recorded 200
      else if (parseWriteConcern r.w).isNone then .recorded 400
      else .appending 200
    | .createIndex name field =>
      if !n.leading then .refused 403
      else if !validIndexName name || !validFieldPath field then .refused 400
      else n.verdictOf r e fun col =>
        match specNamed col.activeIndexSpecs name with
        | some current => if current.field ≠ field then .refused 409 else .recorded 200
        | none => if maxIndexesPerCollection ≤ col.activeIndexSpecs.length then .refused 409
            else .appending 201
    | .dropIndex name => n.verdictOf r e fun col =>
        if (specNamed col.activeIndexSpecs name).isNone then .recorded 200 else .appending 200
    | .setTtl ttlSecs => if ttlSecs = 0 then .refused 400 else n.verdictOf r e fun _ =>
        .appending 200
    | .deleteTtl => n.verdictOf r e fun col => if col.activeTtlSecs.isNone then .recorded 200
        else .appending 200

end Node

def Request.entry (r : Request) (ts : ℕ) : LogEntry V H :=
  match r.change with
  | .dropCollection => .drop ts
  | .createIndex name field => .index (.create ⟨name, field⟩) ts
  | .dropIndex name => .index (.drop name) ts
  | .setTtl ttlSecs => .ttl (some ttlSecs) ts
  | .deleteTtl => .ttl none ts

def Verdict.carryOut (n : Node V H) (r : Request) (e : Circumstances) : Verdict → Node V H × ℕ
  | .refused status => (n, status)
  | .recorded status => (n.record r.update, status)
  | .appending done => Node.answer done ((n.record r.update).localEntry r.collection r.entry e.fate)

variable {n n' : Node V H} {r : Request} {e : Circumstances}

section Handlers

variable (n : Node V H) (c : CollectionName) (w : Option (List Char)) (e : Circumstances)

theorem dropCollection_eq (hpath : collectionPath c = none) : n.dropCollection c w e =
    (n.verdict ⟨c, .dropCollection, w⟩ e).carryOut n ⟨c, .dropCollection, w⟩ e := by
  rw [Node.verdict, hpath, Node.dropCollection]
  dsimp only
  split_ifs with hl hf hr hp hw
  · rfl
  · rfl
  · rfl
  · rfl
  · rw [Option.isNone_iff_eq_none.mp hw]
    rfl
  · obtain ⟨wc, hwc⟩ := Option.ne_none_iff_exists'.mp (mt Option.isNone_iff_eq_none.mpr hw)
    rw [hwc]
    rfl

/-- A handler that reads the collection after its checks is carried out by what it finds there. -/
theorem verdictOf_carryOut (r : Request) (found : Log V H → Verdict) (run : Log V H → Node V H × ℕ)
    (hfound : ∀ col, n.collections r.collection = some col → run col = (found col).carryOut n r e) :
    (n.verdictOf r e found).carryOut n r e =
      if !n.leading then (n, 403)
      else
        match parseWriteConcern r.w with
        | none => (n, 400)
        | some _ =>
          if !e.readable then (n, 500)
          else
            match n.collections r.collection with
            | none => (n, 404)
            | some col => run col := by
  unfold Node.verdictOf
  cases n.leading with
  | false => rfl
  | true =>
    cases parseWriteConcern r.w with
    | none => rfl
    | some wc =>
      cases e.readable with
      | false => rfl
      | true =>
        cases hc : n.collections r.collection with
        | none => rfl
        | some col => exact (hfound col hc).symm

theorem createIndex_eq (hpath : collectionPath c = none) (name field : String) :
    n.createIndex c w e name field =
    (n.verdict ⟨c, .createIndex name field, w⟩ e).carryOut n ⟨c, .createIndex name field, w⟩ e := by
  rw [Node.verdict, hpath, Node.createIndex]
  dsimp only
  cases hl : n.leading with
  | false => rfl
  | true =>
    by_cases hname : validIndexName name = true
    · by_cases hfield : validFieldPath field = true
      · rw [hname, hfield]
        have h := verdictOf_carryOut n e ⟨c, .createIndex name field, w⟩
          (fun col => match specNamed col.activeIndexSpecs name with
            | some current => if current.field ≠ field then .refused 409 else .recorded 200
            | none => if maxIndexesPerCollection ≤ col.activeIndexSpecs.length then .refused 409
                else .appending 201)
          (fun col => match specNamed col.activeIndexSpecs name with
            | some current => if current.field ≠ field then (n, 409) else
                (n.record (.index c (.create ⟨name, field⟩)), 200)
            | none => if maxIndexesPerCollection ≤ col.activeIndexSpecs.length then (n, 409) else
                Node.answer 201 ((n.record (.index c (.create ⟨name, field⟩))).localIndexChange c
                  (.create ⟨name, field⟩) e.fate)) (by
            intro col _
            cases specNamed col.activeIndexSpecs name with
            | some current =>
              by_cases hsame : current.field = field
              · simp [hsame, Verdict.carryOut, Request.update]
              · simp [hsame, Verdict.carryOut]
            | none =>
              dsimp only
              split_ifs <;> rfl)
        rw [hl] at h
        exact h.symm
      · simp [hname, hfield, Verdict.carryOut]
    · simp [hname, Verdict.carryOut]

theorem dropIndex_eq (hpath : collectionPath c = none) (name : String) : n.dropIndex c w e name =
    (n.verdict ⟨c, .dropIndex name, w⟩ e).carryOut n ⟨c, .dropIndex name, w⟩ e := by
  rw [Node.verdict, hpath, Node.dropIndex]
  refine (verdictOf_carryOut n e ⟨c, .dropIndex name, w⟩ _ (fun col =>
    if (specNamed col.activeIndexSpecs name).isNone then (n.record (.index c (.drop name)), 200)
    else Node.answer 200 ((n.record (.index c (.drop name))).localIndexChange c
      (.drop name) e.fate)) ?_).symm
  intro col _
  split_ifs <;> rfl

theorem setTtl_eq (hpath : collectionPath c = none) (ttlSecs : ℕ) : n.setTtl c w e ttlSecs =
    (n.verdict ⟨c, .setTtl ttlSecs, w⟩ e).carryOut n ⟨c, .setTtl ttlSecs, w⟩ e := by
  rw [Node.verdict, hpath, Node.setTtl]
  by_cases hzero : ttlSecs = 0
  · simp [hzero, Verdict.carryOut]
  · rw [if_neg hzero]
    dsimp only
    rw [if_neg hzero]
    refine Eq.trans ?_ (verdictOf_carryOut n e ⟨c, .setTtl ttlSecs, w⟩ _ (fun col =>
      Node.answer 200 ((n.record (.ttl c (some ttlSecs))).localTtlChange c (some ttlSecs) e.fate))
      fun _ _ => rfl).symm
    cases n.collections c <;> rfl

theorem deleteTtl_eq (hpath : collectionPath c = none) : n.deleteTtl c w e =
    (n.verdict ⟨c, .deleteTtl, w⟩ e).carryOut n ⟨c, .deleteTtl, w⟩ e := by
  rw [Node.verdict, hpath, Node.deleteTtl]
  refine (verdictOf_carryOut n e ⟨c, .deleteTtl, w⟩ _ (fun col =>
    if col.activeTtlSecs.isNone then (n.record (.ttl c none), 200)
    else Node.answer 200 ((n.record (.ttl c none)).localTtlChange c none e.fate)) ?_).symm
  intro col _
  split_ifs <;> rfl

end Handlers

theorem handle_eq (n : Node V H) (r : Request) (e : Circumstances) :
    n.handle r e = (n.verdict r e).carryOut n r e := by
  obtain ⟨c, change, w⟩ := r
  unfold Node.handle
  cases hpath : collectionPath c with
  | some status => rw [Node.verdict, hpath]; rfl
  | none =>
    cases change with
    | dropCollection => exact dropCollection_eq n c w e hpath
    | createIndex name field => exact createIndex_eq n c w e hpath name field
    | dropIndex name => exact dropIndex_eq n c w e hpath name
    | setTtl ttlSecs => exact setTtl_eq n c w e hpath ttlSecs
    | deleteTtl => exact deleteTtl_eq n c w e hpath

end Verdicts

section Records

variable {v : ClusterMetadata} {nodeId : NodeId} {r : Request}

theorem putSpec_twice (spec : IndexSpec) (specs : List IndexSpec) :
    putSpec spec (putSpec spec specs) = putSpec spec specs := by
  induction specs with
  | nil => simp [putSpec]
  | cons s specs ih =>
    by_cases h : s.name = spec.name
    · simp [putSpec, h]
    · simp [putSpec, h, ih]

theorem applyTo_twice (change : IndexChange) (specs : List IndexSpec) :
    change.applyTo (change.applyTo specs) = change.applyTo specs := by
  cases change with
  | create spec => exact putSpec_twice spec specs
  | drop name => simp [IndexChange.applyTo]

theorem recordIndexChange_twice (c : CollectionName) (change : IndexChange) :
    ((v.recordIndexChange nodeId c change).1.recordIndexChange nodeId c change).2 = false := by
  have hcases : v.recordIndexChange nodeId c change = (v, false) ∨
      ∃ version specs ttlSecs, v.recordIndexChange nodeId c change =
        ({ v with indexCatalog :=
          v.indexCatalog.insert c ⟨version, nodeId, change.applyTo specs, ttlSecs⟩ }, true) := by
    unfold ClusterMetadata.recordIndexChange
    dsimp only
    split_ifs
    · exact .inl rfl
    · exact .inl rfl
    · exact .inl rfl
    · exact .inr ⟨_, _, _, rfl⟩
  rcases hcases with h | ⟨version, specs, ttlSecs, h⟩
  · rw [h, h]
  · rw [h]
    simp [ClusterMetadata.recordIndexChange, applyTo_twice]

theorem recordTtlChange_twice (c : CollectionName) (ttlSecs : Option ℕ) :
    ((v.recordTtlChange nodeId c ttlSecs).1.recordTtlChange nodeId c ttlSecs).2 = false := by
  have hcases : v.recordTtlChange nodeId c ttlSecs = (v, false) ∨
      ∃ version specs, v.recordTtlChange nodeId c ttlSecs =
        ({ v with indexCatalog := v.indexCatalog.insert c ⟨version, nodeId, specs, ttlSecs⟩ },
          true) := by
    unfold ClusterMetadata.recordTtlChange
    dsimp only
    split_ifs
    · exact .inl rfl
    · exact .inl rfl
    · exact .inr ⟨_, _, rfl⟩
  rcases hcases with h | ⟨version, specs, h⟩
  · rw [h, h]
  · rw [h]
    simp [ClusterMetadata.recordTtlChange]

theorem forgetCollectionIndexes_twice (c : CollectionName) :
    ((v.forgetCollectionIndexes nodeId c).1.forgetCollectionIndexes nodeId c).2 = false := by
  have hcases : v.forgetCollectionIndexes nodeId c = (v, false) ∨
      ∃ version, v.forgetCollectionIndexes nodeId c =
        ({ v with indexCatalog := v.indexCatalog.insert c ⟨version, nodeId, [], none⟩ }, true) := by
    unfold ClusterMetadata.forgetCollectionIndexes
    split
    · split_ifs
      · exact .inl rfl
      · exact .inr ⟨_, rfl⟩
    · exact .inl rfl
  rcases hcases with h | ⟨version, h⟩
  · rw [h, h]
  · rw [h]
    simp [ClusterMetadata.forgetCollectionIndexes]

theorem update_twice (r : Request) : (r.update.applyTo nodeId (r.update.applyTo nodeId v).1).1 =
    (r.update.applyTo nodeId v).1 := by
  apply applyTo_of_not_moved
  obtain ⟨c, change, w⟩ := r
  cases change with
  | dropCollection => exact forgetCollectionIndexes_twice c
  | createIndex name field => exact recordIndexChange_twice c _
  | dropIndex name => exact recordIndexChange_twice c _
  | setTtl ttlSecs => exact recordTtlChange_twice c _
  | deleteTtl => exact recordTtlChange_twice c _

theorem update_collection (r : Request) : r.update.collection? = some r.collection := by
  unfold Request.update
  cases r.change <;> rfl

theorem nextVersion_ne (version : ℕ) : nextVersion version ≠ version := by
  unfold nextVersion
  intro h
  have hlt : version < 2 ^ 64 := h ▸ Nat.mod_lt _ (by positivity)
  by_cases htop : version + 1 < 2 ^ 64
  · rw [Nat.mod_eq_of_lt htop] at h
    omega
  · obtain rfl : version = 2 ^ 64 - 1 := by omega
    norm_num at h

theorem update_eq_iff : (r.update.applyTo nodeId v).1 = v ↔
    (r.update.applyTo nodeId v).2 = false := by
  refine ⟨fun hsame => ?_, applyTo_of_not_moved⟩
  rcases @recorded_of_collection nodeId v _ _ (update_collection r) with h | ⟨e, hver, -, h⟩
  · rw [h]
  · have hget : v.indexCatalog[r.collection]? = some e := by
      have hcat := congrArg ClusterMetadata.indexCatalog (h ▸ hsame)
      rw [← hcat]
      exact Std.ExtTreeMap.getElem?_insert_self
    rw [hget] at hver
    exact absurd hver.symm (nextVersion_ne e.version)

end Records

section Order

variable {n n' n'' : Node V H} {r : Request} {e : Circumstances}

/-- What a node can become while it handles a request any number of times. -/
structure Later (r : Request) (n n' : Node V H) : Prop where
  nodeId : n'.nodeId = n.nodeId
  leading : n'.leading = n.leading
  view : n'.view = n.view ∨ n'.view = (n.record r.update).view
  logs : ∀ c l, n.collections c = some l → ∃ l', n'.collections c = some l' ∧
    l'.committed = l.committed ∧ l.entries <+: l'.entries

theorem Later.refl (r : Request) (n : Node V H) : Later r n n :=
  ⟨rfl, rfl, .inl rfl, fun _ l h => ⟨l, h, rfl, List.prefix_refl _⟩⟩

theorem record_view (n : Node V H) (r : Request) :
    (n.record r.update).view = (r.update.applyTo n.nodeId n.view).1 := rfl

theorem Later.record_view (h : Later r n n') :
    (n'.record r.update).view = (n.record r.update).view := by
  rw [SchemaChange.record_view, SchemaChange.record_view, h.nodeId]
  rcases h.view with hv | hv
  · rw [hv]
  · rw [hv, SchemaChange.record_view, update_twice]

theorem Later.trans (h : Later r n n') (h' : Later r n' n'') : Later r n n'' where
  nodeId := h'.nodeId.trans h.nodeId
  leading := h'.leading.trans h.leading
  view := by
    rcases h'.view with hv | hv
    · rw [hv]
      exact h.view
    · rw [hv]
      exact .inr h.record_view
  logs c l hl := by
    obtain ⟨l', hl', hcommitted, hprefix⟩ := h.logs c l hl
    obtain ⟨l'', hl'', hcommitted', hprefix'⟩ := h'.logs c l' hl'
    exact ⟨l'', hl'', hcommitted'.trans hcommitted, hprefix.trans hprefix'⟩

theorem Later.antisymm (h : Later r n n') (h' : Later r n' n) : n' = n := by
  have hview : n'.view = n.view := by
    rcases h.view with hv | hv
    · exact hv
    · rcases h'.view with hv' | hv'
      · exact hv'.symm
      · rw [hv', h.record_view, hv]
  have hcollections : n'.collections = n.collections := by
    funext c
    cases hc : n.collections c with
    | some l =>
      obtain ⟨l', hl', hcommitted, hprefix⟩ := h.logs c l hc
      obtain ⟨l'', hl'', -, hprefix'⟩ := h'.logs c l' hl'
      obtain rfl : l = l'' := Option.some.inj (hc.symm.trans hl'')
      have hentries := hprefix.eq_of_length_le hprefix'.length_le
      obtain ⟨entries, committed⟩ := l'
      obtain ⟨entries', committed'⟩ := l
      dsimp only at hcommitted hentries
      rw [hl', hcommitted, hentries]
    | none =>
      cases hc' : n'.collections c with
      | none => rfl
      | some l' =>
        obtain ⟨l, hl, -⟩ := h'.logs c l' hc'
        cases hc.symm.trans hl
  obtain ⟨nodeId, leading, view, collections⟩ := n
  obtain ⟨nodeId', leading', view', collections'⟩ := n'
  obtain rfl : nodeId' = nodeId := h.nodeId
  obtain rfl : leading' = leading := h.leading
  obtain rfl : view' = view := hview
  obtain rfl : collections' = collections := hcollections
  rfl

theorem later_record (n : Node V H) (r : Request) : Later r n (n.record r.update) :=
  ⟨rfl, rfl, .inr rfl, fun _ l h => ⟨l, h, rfl, List.prefix_refl _⟩⟩

theorem later_append (n : Node V H) (r : Request) (c : CollectionName) (entry : LogEntry V H) :
    Later r n (n.append c entry) where
  nodeId := rfl
  leading := rfl
  view := .inl rfl
  logs k l hl := by
    by_cases hk : k = c
    · subst hk
      refine ⟨l.append entry, ?_, rfl, List.prefix_append _ _⟩
      simp [Node.append, hl]
    · exact ⟨l, by simp [Node.append, hk, hl], rfl, List.prefix_refl _⟩

theorem append_ne (n : Node V H) (c : CollectionName) (entry : LogEntry V H) :
    n.append c entry ≠ n := by
  intro h
  have hc := congrFun (congrArg Node.collections h) c
  simp only [Node.append, Function.update_self] at hc
  have hentries := congrArg (fun l => (l.map Log.entries).getD []) hc
  rw [← hc] at hentries
  simp [Log.append] at hentries

theorem answer_fst (done : ℕ) (p : Node V H × Except ℕ Bool) : (Node.answer done p).1 = p.1 := by
  obtain ⟨n, _ | met⟩ := p <;> rfl

theorem localEntry_fst (n : Node V H) (c : CollectionName) (entry : ℕ → LogEntry V H)
    (fate : Fate) :
    (n.localEntry c entry fate).1 = fate.ts?.elim n fun ts => n.append c (entry ts) := by
  cases fate <;> rfl

/-- The node is left as it was: the catalogue has the change already, and no entry is appended. -/
def Verdict.Leaves (n : Node V H) (r : Request) (e : Circumstances) : Verdict → Prop
  | .refused _ => True
  | .recorded _ => (r.update.applyTo n.nodeId n.view).2 = false
  | .appending _ => (r.update.applyTo n.nodeId n.view).2 = false ∧ e.fate.ts? = none

theorem record_eq_iff : n.record r.update = n ↔ (r.update.applyTo n.nodeId n.view).2 = false := by
  rw [← update_eq_iff]
  constructor
  · exact fun h => congrArg Node.view h
  · intro h
    rw [Node.record, h]

theorem later_handle (n : Node V H) (r : Request) (e : Circumstances) : Later r n
    (n.handle r e).1 := by
  rw [handle_eq]
  cases n.verdict r e with
  | refused status => exact .refl r n
  | recorded status => exact later_record n r
  | appending done =>
    rw [Verdict.carryOut, answer_fst, localEntry_fst]
    cases e.fate.ts? with
    | none => exact later_record n r
    | some ts => exact (later_record n r).trans (later_append _ r _ _)

theorem handle_fst_eq_iff : (n.handle r e).1 = n ↔ (n.verdict r e).Leaves n r e := by
  rw [handle_eq]
  cases n.verdict r e with
  | refused status => exact iff_of_true rfl trivial
  | recorded status => exact record_eq_iff
  | appending done =>
    rw [Verdict.carryOut, answer_fst, localEntry_fst, Verdict.Leaves]
    cases e.fate.ts? with
    | none => simpa using record_eq_iff
    | some ts =>
      refine iff_of_false (fun h => ?_) (by simp)
      -- An entry that is appended is not taken back.
      have hback : Later r ((n.record r.update).append r.collection (r.entry ts))
        (n.record r.update) := by
        have h' : (n.record r.update).append r.collection (r.entry ts) = n := h
        rw [h']
        exact later_record n r
      exact append_ne _ _ _ ((later_append _ r _ _).antisymm hback)

end Order

section Groups

variable [DecidableEq ι] {r : Request} {shards shards' : ι → Node V H} {group : Candidates ι}
  {groups : List (Candidates ι)}

def Fate.status (done : ℕ) : Fate → ℕ
  | .stopped unavailable | .failed _ unavailable => Node.failureStatus unavailable
  | .staged _ met => if met then done else 202

def Verdict.status (e : Circumstances) : Verdict → ℕ
  | .refused status | .recorded status => status
  | .appending done => e.fate.status done

theorem handle_snd (n : Node V H) (r : Request) (e : Circumstances) :
    (n.handle r e).2 = (n.verdict r e).status e := by
  rw [handle_eq]
  cases n.verdict r e with
  | refused status => rfl
  | recorded status => rfl
  | appending done =>
    rw [Verdict.carryOut, Verdict.status]
    cases e.fate <;> rfl

/-- No node is changed that is asked for a group; the candidates after the answer are not asked. -/
def LeavesGroup (r : Request) (shards : ι → Node V H) : Candidates ι → Prop
  | [] => True
  | (_, .unreachable) :: rest => LeavesGroup r shards rest
  | (i, .reached e answered) :: rest =>
    ((shards i).verdict r e).Leaves (shards i) r e ∧
      ((answered && authoritativeWriteStatus (((shards i).verdict r e).status e)) = false →
        LeavesGroup r shards rest)

/-- What the group answers, of the nodes as they are before the request. -/
def groupAnswer (r : Request) (shards : ι → Node V H) : Candidates ι → Option ℕ
  | [] => none
  | (_, .unreachable) :: rest => groupAnswer r shards rest
  | (i, .reached e answered) :: rest =>
    let status := ((shards i).verdict r e).status e
    if answered && authoritativeWriteStatus status then some status else groupAnswer r shards rest

theorem later_update {i : ι} {n : Node V H} (h : Later r (shards i) n) (j : ι) :
    Later r (shards j) (Function.update shards i n j) := by
  by_cases hj : j = i
  · subst hj
    rwa [Function.update_self]
  · rw [Function.update_of_ne hj]
    exact .refl r _

theorem askGroup_later (r : Request) (shards : ι → Node V H) (group : Candidates ι) (j : ι) :
    Later r (shards j) ((askGroup r shards group).1 j) := by
  induction group generalizing shards with
  | nil => exact .refl r _
  | cons candidate rest ih =>
    obtain ⟨i, _ | ⟨e, answered⟩⟩ := candidate
    · exact ih shards
    · have hhead := later_update (later_handle (shards i) r e) j
      rw [askGroup]
      dsimp only
      split
      · exact hhead
      · exact hhead.trans (ih _)

theorem fanoutToOwners_later (r : Request) (shards : ι → Node V H)
    (groups : List (Candidates ι)) (j : ι) :
    Later r (shards j) ((fanoutToOwners r shards groups).1 j) := by
  induction groups generalizing shards with
  | nil => exact .refl r _
  | cons group groups ih => exact (askGroup_later r shards group j).trans (ih _)

omit [DecidableEq ι] in
theorem eq_of_later (h : ∀ j, Later r (shards j) (shards' j))
    (h' : ∀ j, Later r (shards' j) (shards j)) : shards' = shards :=
  funext fun j => (h j).antisymm (h' j)

theorem askGroup_fst_eq_iff :
    (askGroup r shards group).1 = shards ↔ LeavesGroup r shards group := by
  induction group with
  | nil => exact iff_of_true rfl trivial
  | cons candidate rest ih =>
    obtain ⟨i, _ | ⟨e, answered⟩⟩ := candidate
    · exact ih
    · rw [LeavesGroup, ← handle_fst_eq_iff, ← handle_snd, askGroup]
      dsimp only
      split
      · next hstop =>
        rw [hstop, Function.update_eq_self_iff]
        simp
      · next hgo =>
        rw [Bool.eq_false_iff.mpr hgo]
        constructor
        · intro h
          have hsame : Function.update shards i ((shards i).handle r e).1 = shards :=
            eq_of_later (later_update (later_handle (shards i) r e)) fun j => by
              have hrest := askGroup_later r (Function.update shards i
                ((shards i).handle r e).1) rest j
              rwa [h] at hrest
          rw [hsame] at h
          exact ⟨Function.update_eq_self_iff.mp hsame, fun _ => ih.mp h⟩
        · rintro ⟨hhead, hrest⟩
          rw [hhead, Function.update_eq_self]
          exact ih.mpr (hrest rfl)

theorem askGroup_snd (h : LeavesGroup r shards group) :
    (askGroup r shards group).2 = groupAnswer r shards group := by
  induction group with
  | nil => rfl
  | cons candidate rest ih =>
    obtain ⟨i, _ | ⟨e, answered⟩⟩ := candidate
    · exact ih h
    · obtain ⟨hhead, hrest⟩ := h
      rw [askGroup, groupAnswer, ← handle_snd]
      dsimp only
      rw [handle_fst_eq_iff.mpr hhead, Function.update_eq_self]
      rw [← handle_snd] at hrest
      split
      · rfl
      · next hgo => exact ih (hrest (Bool.eq_false_iff.mpr hgo))

theorem fanoutToOwners_fst_eq_iff :
    (fanoutToOwners r shards groups).1 = shards ↔ ∀ group ∈ groups, LeavesGroup r shards group := by
  induction groups with
  | nil => exact iff_of_true rfl (by simp)
  | cons group groups ih =>
    rw [fanoutToOwners, List.forall_mem_cons]
    constructor
    · intro h
      have hsame : (askGroup r shards group).1 = shards :=
        eq_of_later (askGroup_later r shards group) fun j => by
          have hrest := fanoutToOwners_later r (askGroup r shards group).1 groups j
          rwa [show (fanoutToOwners r (askGroup r shards group).1 groups).1 = shards from h]
            at hrest
      have hrest : (fanoutToOwners r (askGroup r shards group).1 groups).1 = shards := h
      rw [hsame] at hrest
      exact ⟨askGroup_fst_eq_iff.mp hsame, ih.mp hrest⟩
    · rintro ⟨hhead, hrest⟩
      change (fanoutToOwners r (askGroup r shards group).1 groups).1 = shards
      rw [askGroup_fst_eq_iff.mpr hhead]
      exact ih.mpr hrest

theorem fanoutToOwners_snd (h : ∀ group ∈ groups, LeavesGroup r shards group) :
    (fanoutToOwners r shards groups).2 = groups.map (groupAnswer r shards) := by
  induction groups with
  | nil => rfl
  | cons group groups ih =>
    obtain ⟨hhead, hrest⟩ := List.forall_mem_cons.mp h
    rw [List.map_cons, ← askGroup_snd hhead, ← ih hrest]
    change _ :: (fanoutToOwners r (askGroup r shards group).1 groups).2 = _
    rw [askGroup_fst_eq_iff.mpr hhead]

end Groups

section Refusals

variable {results : List (Option ℕ)}

theorem not_clientError_appending {e : Circumstances} {done : ℕ} (hdone : done < 400) :
    isClientError ((Verdict.appending done).status e) = false := by
  unfold Verdict.status Fate.status
  dsimp only
  cases e.fate with
  | stopped unavailable => cases unavailable <;> rfl
  | failed ts unavailable => cases unavailable <;> rfl
  | staged ts met =>
    cases met with
    | true => simp [isClientError]; omega
    | false => rfl

/-- What a handler can come to that reads the collection after its checks. -/
theorem verdictOf_cases (n : Node V H) (r : Request) (e : Circumstances)
    (found : Log V H → Verdict) :
    (∃ status, n.verdictOf r e found = .refused status) ∨ ∃ col,
      n.verdictOf r e found = found col := by
  unfold Node.verdictOf
  split_ifs
  · exact .inl ⟨_, rfl⟩
  · exact .inl ⟨_, rfl⟩
  · exact .inl ⟨_, rfl⟩
  · cases n.collections r.collection with
    | none => exact .inl ⟨_, rfl⟩
    | some col => exact .inr ⟨col, rfl⟩

theorem verdict_cases (n : Node V H) (r : Request) (e : Circumstances)
    (hchange : r.change ≠ .dropCollection) :
    (∃ status, n.verdict r e = .refused status) ∨ n.verdict r e = .recorded 200 ∨
      ∃ done < 400, n.verdict r e = .appending done := by
  have hfound {found : Log V H → Verdict} (hcol : ∀ col, (∃ status, found col = .refused status) ∨
      found col = .recorded 200 ∨ ∃ done < 400, found col = .appending done) :
      (∃ status, n.verdictOf r e found = .refused status) ∨ n.verdictOf r e found = .recorded 200 ∨
        ∃ done < 400, n.verdictOf r e found = .appending done := by
    rcases verdictOf_cases n r e found with h | ⟨col, h⟩
    · exact .inl h
    · rw [h]
      exact hcol col
  unfold Node.verdict
  cases collectionPath r.collection with
  | some status => exact .inl ⟨status, rfl⟩
  | none =>
    dsimp only
    split
    · next h => exact absurd h hchange
    · split_ifs
      · exact .inl ⟨_, rfl⟩
      · exact .inl ⟨_, rfl⟩
      · refine hfound fun col => ?_
        split
        · split_ifs
          · exact .inl ⟨_, rfl⟩
          · exact .inr (.inl rfl)
        · split_ifs
          · exact .inl ⟨_, rfl⟩
          · exact .inr (.inr ⟨_, by omega, rfl⟩)
    · refine hfound fun col => ?_
      split_ifs
      · exact .inr (.inl rfl)
      · exact .inr (.inr ⟨_, by omega, rfl⟩)
    · split_ifs
      · exact .inl ⟨_, rfl⟩
      · exact hfound fun col => .inr (.inr ⟨_, by omega, rfl⟩)
    · refine hfound fun col => ?_
      split_ifs
      · exact .inr (.inl rfl)
      · exact .inr (.inr ⟨_, by omega, rfl⟩)

/-- A drop of a collection that is there, whose write concern cannot be read. -/
structure LateRefusal (n : Node V H) (r : Request) : Prop where
  change : r.change = .dropCollection
  path : collectionPath r.collection = none
  leading : n.leading = true
  present : n.present r.collection = true
  concern : parseWriteConcern r.w = none

/-- Of the refusals at a node only this one comes after the catalogue has been changed. -/
theorem verdict_of_refusal {n : Node V H} {r : Request} {e : Circumstances}
    (h : isClientError ((n.verdict r e).status e) = true) :
    (∃ status, n.verdict r e = .refused status) ∧ ¬ LateRefusal n r ∨
      n.verdict r e = .recorded 400 ∧ LateRefusal n r := by
  by_cases hchange : r.change = .dropCollection
  · unfold Node.verdict at h ⊢
    cases hpath : collectionPath r.collection with
    | some status =>
      refine .inl ⟨⟨status, rfl⟩, fun hlate => ?_⟩
      rw [hlate.path] at hpath
      cases hpath
    | none =>
      rw [hpath, hchange] at h
      rw [hchange]
      dsimp only at h ⊢
      split_ifs at h ⊢ with hl hf hr hp hw
      · refine .inl ⟨⟨403, rfl⟩, fun hlate => ?_⟩
        simp [hlate.leading] at hl
      · cases h
      · cases h
      · cases h
      · exact .inr ⟨rfl, hchange, hpath, by simpa using hl, by simpa using hp,
          Option.isNone_iff_eq_none.mp hw⟩
      · rw [not_clientError_appending (by omega)] at h
        cases h
  · rcases verdict_cases n r e hchange with hv | hv | ⟨done, hdone, hv⟩
    · exact .inl ⟨hv, fun hlate => hchange hlate.change⟩
    · rw [hv] at h
      cases h
    · rw [hv, not_clientError_appending hdone] at h
      cases h

theorem countStatus_eq_zero {p : ℕ → Bool} (h : (Answer.groups results).refused = true)
    (hp : ∀ s, isClientError s = true → p s = false) : countStatus p results = 0 := by
  simp only [Answer.refused, Bool.and_eq_true, List.all_eq_true, Option.any_eq_true] at h
  rw [countStatus, List.countP_eq_zero]
  intro s hs
  obtain ⟨status, rfl, herr⟩ := h.2 s hs
  simp [hp status herr]

theorem done_eq_zero (h : (Answer.groups results).refused = true) :
    countStatus (fun s => s < 300 && s != 202) results = 0 :=
  countStatus_eq_zero h fun s hs => by
    simp only [isClientError, Bool.and_eq_true, decide_eq_true_eq] at hs
    simp
    omega

theorem pending_eq_zero (h : (Answer.groups results).refused = true) :
    countStatus (fun s => s == 202) results = 0 :=
  countStatus_eq_zero h fun s hs => by
    simp only [isClientError, Bool.and_eq_true, decide_eq_true_eq] at hs
    simp
    omega

/-- Of a change that all groups refuse, the router takes note unless a group does not hold the
collection; of a drop always. -/
theorem routerRecords_iff {r : Request} (h : (Answer.groups results).refused = true) :
    r.routerRecords results = true ↔ r.change = .dropCollection ∨ some 404 ∉ results := by
  have hne : 0 < results.length := by
    simp only [Answer.refused, Bool.and_eq_true, Bool.not_eq_true', List.isEmpty_eq_false_iff] at h
    exact List.length_pos_of_ne_nil h.1
  have habsent : 0 < countStatus (fun s => s == 404) results ↔ some 404 ∈ results := by
    rw [countStatus, List.countP_pos_iff]
    constructor
    · rintro ⟨s, hs, hs'⟩
      obtain ⟨status, rfl, heq⟩ := (Option.any_eq_true _ _).mp hs'
      exact (beq_iff_eq.mp heq) ▸ hs
    · exact fun hmem => ⟨some 404, hmem, rfl⟩
  have hchange (create : Bool) : changeStatus create results ≠ 404 ↔ some 404 ∉ results := by
    rw [← habsent, changeStatus, done_eq_zero h, pending_eq_zero h]
    by_cases hpos : 0 < countStatus (fun s => s == 404) results
    · simp [hpos]
    · simp only [hpos, and_false, if_false, not_false_eq_true, iff_true]
      split_ifs <;> simp
  have hdrop : dropStatus results = 207 := by
    rw [dropStatus, done_eq_zero h, pending_eq_zero h]
    rw [if_neg (by omega), if_neg (by omega)]
  unfold Request.routerRecords
  cases r.change with
  | dropCollection => simp [hdrop, isSuccess]
  | createIndex name field => simpa using hchange true
  | dropIndex name => simpa using hchange false
  | setTtl ttlSecs => simpa using hchange false
  | deleteTtl => simpa using hchange false

end Refusals

section Effect

variable [DecidableEq ι] [DecidableEq κ]

/-- Nothing is changed by a request that is refused. A node refuses no drop of a catalogued
collection for its write concern. Of the nodes that a router asks none is changed, and neither is
the router, which takes note of a drop in any case and of another change where no group answers that
it does not hold the collection. -/
def Target.Leaves (w : Cluster ι κ V H) (r : Request) : Target ι κ → Prop
  | .shard i _ => LateRefusal (w.shards i) r →
    (r.update.applyTo (w.shards i).nodeId (w.shards i).view).2 = false
  | .router k groups => r.routerRefusal = none →
    (∀ group ∈ groups, LeavesGroup r w.shards group) ∧
      ((r.update.applyTo (w.routers k).nodeId (w.routers k).view).2 = false ∨
        r.change ≠ .dropCollection ∧ some 404 ∈ groups.map (groupAnswer r w.shards))

variable {w : Cluster ι κ V H} {r : Request} {target : Target ι κ}

omit [DecidableEq ι] in
theorem recordRouter_eq_iff {k : κ} : Function.update w.routers k
    ((w.routers k).record r.update) = w.routers ↔
    (r.update.applyTo (w.routers k).nodeId (w.routers k).view).2 = false := by
  rw [Function.update_eq_self_iff, ← update_eq_iff]
  constructor
  · exact fun h => congrArg Router.view h
  · intro h
    rw [Router.record, h]

/-- A refused request leaves the cluster as it was just if the condition holds. -/
theorem serve_fst_eq_iff (h : (w.serve r target).2.refused = true) :
    (w.serve r target).1 = w ↔ target.Leaves w r := by
  cases target with
  | shard i e =>
    have hnode : (w.serve r (.shard i e)).1 = w ↔
      ((w.shards i).verdict r e).Leaves (w.shards i) r e := by
      rw [← handle_fst_eq_iff]
      constructor
      · exact fun hsame => Function.update_eq_self_iff.mp (congrArg Cluster.shards hsame)
      · intro hsame
        change { w with shards := Function.update w.shards i ((w.shards i).handle r e).1 } = w
        rw [hsame, Function.update_eq_self]
    have hstatus : isClientError ((w.shards i).handle r e).2 = true := h
    rw [handle_snd] at hstatus
    rw [hnode, Target.Leaves]
    rcases verdict_of_refusal hstatus with ⟨⟨status, hv⟩, hlate⟩ | ⟨hv, hlate⟩
    · rw [hv]
      exact iff_of_true trivial fun h => absurd h hlate
    · rw [hv]
      exact ⟨fun hsame _ => hsame, fun hsame => hsame hlate⟩
  | router k groups =>
    unfold Target.Leaves
    unfold Cluster.serve at h ⊢
    cases hrefusal : r.routerRefusal with
    | some status => exact iff_of_true rfl (by simp)
    | none =>
      simp only [hrefusal, true_imp_iff] at h ⊢
      have hrecords := routerRecords_iff (r := r) h
      have hrouters : (if r.routerRecords (fanoutToOwners r w.shards groups).2 then
          Function.update w.routers k ((w.routers k).record r.update) else w.routers) = w.routers ↔
          (r.update.applyTo (w.routers k).nodeId (w.routers k).view).2 = false ∨
            r.change ≠ .dropCollection ∧ some 404 ∈ (fanoutToOwners r w.shards groups).2 := by
        split
        · next hrec =>
          rw [recordRouter_eq_iff]
          refine ⟨.inl, fun hor => hor.resolve_right fun hnot => ?_⟩
          exact (hrecords.mp hrec).elim hnot.1 fun h => h hnot.2
        · next hrec =>
          rw [hrecords, not_or, not_not] at hrec
          exact iff_of_true rfl (.inr hrec)
      constructor
      · intro hsame
        have hshards : (fanoutToOwners r w.shards groups).1 = w.shards :=
          congrArg Cluster.shards hsame
        have hall := fanoutToOwners_fst_eq_iff.mp hshards
        rw [← fanoutToOwners_snd hall]
        exact ⟨hall, hrouters.mp (congrArg Cluster.routers hsame)⟩
      · rintro ⟨hall, hrouter⟩
        rw [← fanoutToOwners_snd hall] at hrouter
        rw [hrouters.mpr hrouter, fanoutToOwners_fst_eq_iff.mpr hall]

/-- A refused change of a schema has no effect, after any number of rounds, just if neither a node
that was asked nor the router has recorded it. -/
theorem refused_change_no_effect (fingerprint : IndexCatalog → ℕ)
    (h : (w.serve r target).2.refused = true) :
    (∀ rounds, runRounds fingerprint (w.serve r target).1 rounds = runRounds fingerprint w rounds) ↔
      target.Leaves w r := by
  rw [← serve_fst_eq_iff h]
  constructor
  · exact fun hall => hall []
  · intro hsame rounds
    rw [hsame]

end Effect

section Pair

def users : CollectionName := "users".toList

def byAge : IndexSpec := ⟨"by_age", "age"⟩

def usersView : ClusterMetadata :=
  ⟨1, ['a'], false, [], [], none, none, (∅ : IndexCatalog).insert users ⟨1, ['a'], [byAge], none⟩⟩

/-- Two groups that hold the collection with one index, and a router. -/
def pair : Cluster (Fin 2) Unit Unit Unit where
  shards i := ⟨[['a'], ['b']][i], true, usersView, fun c =>
    if c = users then some ⟨[.put false "k" () 0 none, .index (.create byAge) 0], 2⟩ else none⟩
  routers _ := ⟨['r'], usersView⟩

def badDrop : Request := ⟨users, .dropCollection, some "quorum".toList⟩

def redefinition : Request := ⟨users, .createIndex "by_age" "name", none⟩

def calm : Circumstances := ⟨true, .staged 7 true⟩

def both : Target (Fin 2) Unit := .router () [[(0, .reached calm true)], [(1, .reached calm true)]]

/-- The second group's leader hears of a catalogue and brings its log into line. -/
def spread (source : Fin 2 ⊕ Unit) : List (Round (Fin 2) Unit) :=
  [.gossip (.inl 1) [source] [], .reconcile 1 [.staged 8 true], .commit 1 users 3]

def indexesAt (w : Cluster (Fin 2) Unit Unit Unit) (i : Fin 2) : Option (List IndexSpec) :=
  ((w.shards i).collections users).map fun l => l.settled.indexes

/-- A drop that its leader refuses takes the indexes of the other group, and a definition that both
groups refuse replaces theirs. -/
theorem refused_changes_spread :
    (pair.serve badDrop (.shard 0 calm)).2 = .node 400 ∧
    indexesAt (runRounds (fun _ => 0) pair (spread (.inl 0))) 1 = some [byAge] ∧
    indexesAt (runRounds (fun _ => 0) (pair.serve badDrop (.shard 0 calm)).1 (spread (.inl 0))) 1 =
      some [] ∧
    (pair.serve redefinition both).2 = .groups [some 409, some 409] ∧
    indexesAt (runRounds (fun _ => 0) pair (spread (.inr ()))) 1 = some [byAge] ∧
    indexesAt (runRounds (fun _ => 0) (pair.serve redefinition both).1 (spread (.inr ()))) 1 =
      some [⟨"by_age", "name"⟩] := by
  decide +kernel

/-- The same definition, refused by a leader that it was sent to directly. -/
theorem refused_change_no_effect_redefinition :
    (pair.serve redefinition (.shard 0 calm)).2.refused = true ∧
    ∀ rounds, runRounds (fun _ => 0) (pair.serve redefinition (.shard 0 calm)).1 rounds =
      runRounds (fun _ => 0) pair rounds := by
  have h : (pair.serve redefinition (.shard 0 calm)).2.refused = true := by decide
  exact ⟨h, (refused_change_no_effect (fun _ => 0) h).mpr fun hlate =>
    absurd hlate.change (by decide)⟩

end Pair

end DewDB.SchemaChange
