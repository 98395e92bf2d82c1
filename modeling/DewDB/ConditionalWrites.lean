import DewDB.WritePipeline

/-!
# Conditional writes lose no update

While no request is dropped under its own blocking append, what a request read under its stripes
stays the newest state of its keys until its last frame is appended. A conditional write is then
appended on exactly the version it named, and a patch on the document it merged.
-/
namespace DewDB.ConditionalWrites

open TransitionSystem Precondition StagedOverlay WritePipeline

variable {K V : Type} [DecidableEq K] {hash : K → Nat} {merge : V → V → V}

section Stripes

omit [DecidableEq K] in
theorem keyStripe_mem_stripes_of_reads {op : Op K V} {k : K} (h : k ∈ op.reads) :
    keyStripe hash k ∈ op.stripes hash := by
  cases op with
  | write key value expireAt pre =>
    simp only [Op.reads] at h
    split at h
    · cases h
    · simp_all [Op.stripes]
  | patch key doc expireAt pre =>
    simp only [Op.reads] at h
    split at h <;> simp_all [Op.stripes]
  | sweep candidates =>
    simp only [Op.reads, List.mem_map] at h
    obtain ⟨c, hc, rfl⟩ := h
    simp only [Op.stripes, List.mem_dedup, List.mem_insertionSort, List.mem_map]
    exact ⟨c, hc, rfl⟩
  | batch items => cases h
  | dropAll => cases h
  | unkeyed => cases h

/-- A request locks the stripe of every key its frames touch; a drop locks them all. -/
theorem keyStripe_mem_stripes_of_touches {op : Op K V} {got : List (Option (IndexEntry V))}
    {cs : List (Change K V)} {c : Change K V} {k : K} (hcs : op.changes merge got = some cs)
    (hc : c ∈ cs) (hk : c.touches k = true) : keyStripe hash k ∈ op.stripes hash := by
  cases op with
  | write key value expireAt pre =>
    simp only [Op.changes] at hcs
    split at hcs
    · cases hcs
    · cases value <;> cases hcs <;> simp_all [Op.stripes, Change.touches]
  | patch key doc expireAt pre =>
    simp only [Op.changes] at hcs
    split at hcs
    · cases hcs
    · obtain ⟨cur, -, rfl⟩ := Option.map_eq_some_iff.mp hcs
      simp_all [Op.stripes, Change.touches]
  | batch items =>
    cases hcs
    obtain ⟨i, hi, rfl⟩ := List.mem_map.mp hc
    obtain rfl : i.1 = k := by simpa [Change.touches] using hk
    simp only [Op.stripes, List.mem_dedup, List.mem_insertionSort, List.mem_map]
    exact ⟨i, hi, rfl⟩
  | sweep candidates =>
    simp only [Op.changes] at hcs
    split at hcs
    · cases hcs
    · cases hcs
      obtain ⟨i, hi, rfl⟩ := List.mem_map.mp hc
      obtain rfl : i.1.1 = k := by simpa [Change.touches] using hk
      have hmem := (List.of_mem_zip (List.mem_filter.mp hi).1).1
      simp only [Op.stripes, List.mem_dedup, List.mem_insertionSort, List.mem_map]
      exact ⟨i.1, hmem, rfl⟩
  | dropAll =>
    simpa [Op.stripes, keyStripe] using Nat.mod_lt (hash k) (by decide : 0 < keyLockStripes)
  | unkeyed =>
    cases hcs
    obtain rfl := List.mem_singleton.mp hc
    cases hk

end Stripes

omit [DecidableEq K] in
theorem changes_singleton {op : Op K V} {got : List (Option (IndexEntry V))}
    {cs : List (Change K V)} (hop : op.condition.isSome) (hcs : op.changes merge got = some cs) :
    ∃ c, cs = [c] := by
  cases op with
  | write key value expireAt pre =>
    simp only [Op.changes] at hcs
    split at hcs
    · cases hcs
    · cases value <;> exact ⟨_, (Option.some.inj hcs).symm⟩
  | patch key doc expireAt pre =>
    simp only [Op.changes] at hcs
    split at hcs
    · cases hcs
    · obtain ⟨cur, -, rfl⟩ := Option.map_eq_some_iff.mp hcs
      exact ⟨_, rfl⟩
  | batch items => cases hop
  | sweep candidates => cases hop
  | dropAll => cases hop
  | unkeyed => cases hop

def Covered (hash : K → Nat) (q : Request K V) : Prop := ∀ x ∈ q.op.stripes hash, x ∈ q.held

def RequestOk (hash : K → Nat) (merge : V → V → V) (log pending : List (Frame K V))
    (q : Request K V) : Prop :=
  match q.stage with
  | .locking left => ∀ x ∈ q.op.stripes hash, x ∈ q.held ∨ x ∈ left
  | .reading left got =>
    Covered hash q ∧ ∃ seen, q.op.reads = seen ++ left ∧ got = seen.map (newest log)
  | .indexing k left got =>
    Covered hash q ∧ (∃ seen, q.op.reads = seen ++ k :: left ∧ got = seen.map (newest log)) ∧
      overlay pending k = none
  | .appending _ left =>
    left ≠ [] → Covered hash q ∧ ∃ got sent, q.op.changes merge got = some (sent ++ left) ∧
      (sent = [] → got = q.op.reads.map (newest log))
  | .finished => True

/-- An append of a single document was decided on the log right before it. -/
structure AppendedOk (merge : V → V → V) (a : Appended K V) : Prop where
  decided : a.op.condition.isSome →
    a.op.changes merge (a.op.reads.map (newest a.before)) = some [a.frame.change]
  rising : a.before.Pairwise fun f g => f.lsn < g.lsn
  above : ∀ f ∈ a.before, f.lsn < a.frame.lsn

structure Guarded (hash : K → Nat) (merge : V → V → V) (s : State K V) : Prop where
  published : ∃ c, s.log = c ++ s.pending ∧ s.index = replay (fun _ => none) c ∧
    ∀ f ∈ c, f.lsn ≤ s.appliedLsn
  rising : s.log.Pairwise fun a b => a.lsn < b.lsn
  below : ∀ f ∈ s.log, f.lsn ≤ s.nextLsn
  apart : ∀ (i j : Nat) (p q : Request K V), s.requests[i]? = some p →
    s.requests[j]? = some q → i ≠ j → ∀ x ∈ p.held, x ∉ q.held
  requests : ∀ (i : Nat) q, s.requests[i]? = some q → RequestOk hash merge s.log s.pending q
  history : ∀ a ∈ s.appended, AppendedOk merge a
  issued : s.appended.Pairwise fun a b => a.frame.lsn < b.frame.lsn
  issuedBelow : ∀ a ∈ s.appended, a.frame.lsn ≤ s.nextLsn
  stints : ∀ a ∈ s.appended, a.stint ≤ s.stint ∧
    (a.stint = s.stint → a.before ++ [a.frame] <+: s.log)
  kept : s.appended.Pairwise fun a b => a.stint = b.stint → a.before ++ [a.frame] <+: b.before

/-- What a request knows outlives changes to keys whose stripes it does not hold. -/
theorem RequestOk.stable {log log' pending pending' : List (Frame K V)} {q : Request K V}
    (h : RequestOk hash merge log pending q)
    (hnewest : ∀ k, keyStripe hash k ∈ q.held → newest log' k = newest log k)
    (hoverlay : ∀ k, keyStripe hash k ∈ q.held → overlay pending k = none →
      overlay pending' k = none) :
    RequestOk hash merge log' pending' q := by
  obtain ⟨op, held, stage⟩ := q
  have hmap : ∀ ks : List K, (∀ k ∈ ks, keyStripe hash k ∈ held) →
      ks.map (newest log) = ks.map (newest log') :=
    fun ks hks => List.map_congr_left fun k hk => (hnewest k (hks k hk)).symm
  cases stage with
  | locking left => exact h
  | reading left got =>
    obtain ⟨hcov, seen, hreads, rfl⟩ := h
    refine ⟨hcov, seen, hreads, hmap seen fun k hk => hcov _ (keyStripe_mem_stripes_of_reads ?_)⟩
    rw [hreads]
    exact List.mem_append_left _ hk
  | indexing k left got =>
    obtain ⟨hcov, ⟨seen, hreads, rfl⟩, hnone⟩ := h
    have hheld : ∀ k' ∈ op.reads, keyStripe hash k' ∈ held :=
      fun k' hk' => hcov _ (keyStripe_mem_stripes_of_reads hk')
    refine ⟨hcov, ⟨seen, hreads, hmap seen fun k' hk' => hheld k' ?_⟩,
      hoverlay k (hheld k ?_) hnone⟩
    · rw [hreads]
      exact List.mem_append_left _ hk'
    · rw [hreads]
      simp
  | appending term left =>
    intro hleft
    obtain ⟨hcov, got, sent, hcs, hgot⟩ := h hleft
    refine ⟨hcov, got, sent, hcs, fun hsent => ?_⟩
    rw [hgot hsent]
    exact hmap _ fun k hk => hcov _ (keyStripe_mem_stripes_of_reads hk)
  | finished => trivial

/-- A request may change its stage, give locks up, or take a stripe nobody holds. -/
theorem Guarded.setRequest {s : State K V} (hinv : Guarded hash merge s) {r : Nat}
    {q q' : Request K V}
    (hq : s.requests[r]? = some q) (hok : RequestOk hash merge s.log s.pending q')
    (hheld : ∀ x ∈ q'.held, x ∈ q.held ∨ ∀ o ∈ s.requests, x ∉ o.held) :
    Guarded hash merge (s.setRequest r q') := by
  have hget : ∀ (i : Nat) p, (s.requests.set r q')[i]? = some p →
      (i = r ∧ p = q') ∨ (i ≠ r ∧ s.requests[i]? = some p) := by
    intro i p hp
    rw [List.getElem?_set] at hp
    by_cases hi : r = i
    · rw [if_pos hi] at hp
      split at hp
      · exact .inl ⟨hi.symm, (Option.some.inj hp).symm⟩
      · cases hp
    · rw [if_neg hi] at hp
      exact .inr ⟨fun h => hi h.symm, hp⟩
  -- the only holders that changed are `q'` against the others
  have hnew : ∀ (i : Nat) p, i ≠ r → s.requests[i]? = some p → ∀ x ∈ q'.held, x ∉ p.held := by
    intro i p hi hp x hx
    rcases hheld x hx with hx | hx
    · exact hinv.apart r i q p hq hp (Ne.symm hi) x hx
    · exact hx p (List.mem_of_getElem? hp)
  refine ⟨hinv.published, hinv.rising, hinv.below, ?_, ?_, hinv.history, hinv.issued,
    hinv.issuedBelow, hinv.stints, hinv.kept⟩
  · intro i j p p' hp hp' hij x hx hx'
    rcases hget i p hp with ⟨rfl, rfl⟩ | ⟨hi, hpi⟩
    · rcases hget j p' hp' with ⟨rfl, -⟩ | ⟨hj, hpj⟩
      · exact hij rfl
      · exact hnew j p' hj hpj x hx hx'
    · rcases hget j p' hp' with ⟨rfl, rfl⟩ | ⟨hj, hpj⟩
      · exact hnew i p hi hpi x hx' hx
      · exact hinv.apart i j p p' hpi hpj hij x hx hx'
  · intro i p hp
    rcases hget i p hp with ⟨rfl, rfl⟩ | ⟨hi, hp⟩
    · exact hok
    · exact hinv.requests i p hp

theorem Guarded.ended {s : State K V} (hinv : Guarded hash merge s) {r : Nat} {q : Request K V}
    (hq : s.requests[r]? = some q) : Guarded hash merge (s.setRequest r q.ended) :=
  hinv.setRequest hq trivial (by simp [Request.ended])

/-- The staged frames below the first lookup of `k` decide it, else the index does. -/
theorem Guarded.newest_eq {s : State K V} (hinv : Guarded hash merge s) (k : K) :
    newest s.log k = (overlay s.pending k).getD (s.index k) := by
  obtain ⟨c, hlog, hindex, -⟩ := hinv.published
  rw [hlog, newest_append, hindex]
  rfl

theorem Guarded.append {s : State K V} (hinv : Guarded hash merge s) {r : Nat} {q : Request K V}
    (hq : s.requests[r]? = some q) {term : Nat} {c : Change K V} {left : List (Change K V)}
    (hstage : q.stage = .appending term (c :: left)) :
    Guarded hash merge
      ((s.appendFrame q.op term c).setRequest r { q with stage := .appending term left }) := by
  have hok := hinv.requests r q hq
  simp only [RequestOk, hstage] at hok
  obtain ⟨hcov, got, sent, hcs, hgot⟩ := hok (List.cons_ne_nil _ _)
  have hsent : q.op.changes merge got = some ((sent ++ [c]) ++ left) := by
    rw [List.append_assoc]
    exact hcs
  have hset : Guarded hash merge (s.setRequest r { q with stage := .appending term left }) :=
    hinv.setRequest hq (fun _ => ⟨hcov, got, sent ++ [c], hsent, by simp⟩) fun x hx => .inl hx
  have hr : (s.setRequest r { q with stage := .appending term left }).requests[r]? =
      some { q with stage := .appending term left } := by
    have := (List.getElem?_eq_some_iff.mp hq).1
    simp [State.setRequest, this]
  have hlt : ∀ f ∈ s.log, f.lsn < s.nextLsn + 1 := fun f hf => Nat.lt_succ_of_le (hinv.below f hf)
  have happ : ∀ a ∈ s.appended, a.frame.lsn < s.nextLsn + 1 :=
    fun a ha => Nat.lt_succ_of_le (hinv.issuedBelow a ha)
  refine ⟨?_, ?_, ?_, hset.apart, ?_, ?_, ?_, ?_, ?_, ?_⟩
  · obtain ⟨d, hlog, hindex, hd⟩ := hinv.published
    refine ⟨d, ?_, hindex, hd⟩
    simp [State.setRequest, State.appendFrame, hlog]
  · exact List.pairwise_append.mpr ⟨hinv.rising, List.pairwise_singleton _ _,
      fun f hf g hg => List.mem_singleton.mp hg ▸ hlt f hf⟩
  · intro f hf
    rcases List.mem_append.mp hf with hf | hf
    · exact (hlt f hf).le
    · rw [List.mem_singleton.mp hf]
      exact le_rfl
  · intro i p hp
    by_cases hi : i = r
    · subst hi
      obtain rfl := Option.some.inj (hr.symm.trans hp)
      exact fun _ => ⟨hcov, got, sent ++ [c], hsent, by simp⟩
    · -- the other requests hold none of the stripes of the keys touched
      have huntouched : ∀ k, keyStripe hash k ∈ p.held → c.touches k = false := by
        intro k hk
        by_contra hc
        have hmem := hcov _ (keyStripe_mem_stripes_of_touches (c := c) hcs (by simp)
          (by simpa using hc))
        exact hset.apart i r p _ hp hr hi _ hk hmem
      refine (hset.requests i p hp).stable (fun k hk => ?_) (fun k hk hnone => ?_)
      · exact newest_concat_of_untouched (huntouched k hk)
      · have hres : (Frame.mk (s.nextLsn + 1) term c).resolve k = none :=
          resolve_eq_none_iff.mpr (huntouched k hk)
        change overlay (s.pending ++ [_]) k = none
        rw [overlay_concat, hres]
        exact hnone
  · intro a ha
    rcases List.mem_append.mp ha with ha | ha
    · exact hinv.history a ha
    · obtain rfl := List.mem_singleton.mp ha
      refine ⟨fun hcond => ?_, hinv.rising, hlt⟩
      -- a single-document write has one frame, so nothing was sent before it
      have hone : sent = [] ∧ left = [] := by
        obtain ⟨d, hd⟩ := changes_singleton hcond hcs
        cases sent with
        | nil => exact ⟨rfl, by simpa using (List.cons.inj hd).2⟩
        | cons e sent => simp at hd
      obtain ⟨rfl, rfl⟩ := hone
      rw [hgot rfl] at hcs
      exact hcs
  · exact List.pairwise_append.mpr ⟨hinv.issued, List.pairwise_singleton _ _,
      fun a ha b hb => List.mem_singleton.mp hb ▸ happ a ha⟩
  · intro a ha
    rcases List.mem_append.mp ha with ha | ha
    · exact (happ a ha).le
    · rw [List.mem_singleton.mp ha]
      exact le_rfl
  · intro a ha
    rcases List.mem_append.mp ha with ha | ha
    · exact ⟨(hinv.stints a ha).1,
        fun h => ((hinv.stints a ha).2 h).trans (List.prefix_append _ _)⟩
    · rw [List.mem_singleton.mp ha]
      exact ⟨le_rfl, fun _ => List.prefix_rfl⟩
  · exact List.pairwise_append.mpr ⟨hinv.kept, List.pairwise_singleton _ _,
      fun a ha b hb => List.mem_singleton.mp hb ▸ fun h => (hinv.stints a ha).2 h⟩

/-- Commits publish the staged frames up to the watermark, and no key's newest state changes. -/
theorem Guarded.applyCommitted {s : State K V} (hinv : Guarded hash merge s) (lsn : Nat) :
    Guarded hash merge (s.applyCommitted lsn) := by
  obtain ⟨c, hlog, hindex, hc⟩ := hinv.published
  have hrising : s.pending.Pairwise fun a b => a.lsn < b.lsn :=
    (List.pairwise_append.mp (hlog ▸ hinv.rising)).2.1
  refine ⟨⟨c ++ s.pending.filter (fun f => f.lsn ≤ lsn), ?_, ?_, ?_⟩, hinv.rising, hinv.below,
    hinv.apart, fun i q hq => ?_, hinv.history, hinv.issued, hinv.issuedBelow, hinv.stints,
    hinv.kept⟩
  · change s.log = _ ++ s.pending.filter (fun f => lsn < f.lsn)
    rw [List.append_assoc, split_at_lsn hrising, hlog]
  · change replay s.index _ = _
    rw [hindex, replay_append]
  · intro f hf
    change f.lsn ≤ max s.appliedLsn lsn
    rcases List.mem_append.mp hf with hf | hf
    · exact (hc f hf).trans (le_max_left _ _)
    · exact (of_decide_eq_true (List.mem_filter.mp hf).2).trans (le_max_right _ _)
  · refine (hinv.requests i q hq).stable (fun _ _ => rfl) fun k _ hnone => ?_
    rw [overlay_eq_none_iff] at hnone ⊢
    exact fun f hf => hnone f (List.mem_filter.mp hf).1

/-- A frame of another leader, while no request has read what it cuts or overwrites. -/
theorem Guarded.receiveFrame {s : State K V} (hinv : Guarded hash merge s) {prev : Nat}
    {f : Frame K V} (happlied : s.appliedLsn ≤ prev) (hprev : prev < f.lsn)
    (hidle : ∀ q ∈ s.requests, q.stage.deciding = false) :
    Guarded hash merge (s.receiveFrame prev f) := by
  obtain ⟨c, hlog, hindex, hc⟩ := hinv.published
  refine ⟨⟨c, ?_, hindex, hc⟩, ?_, ?_, hinv.apart, fun i q hq => ?_, hinv.history, hinv.issued,
    ?_, ?_, hinv.kept⟩
  · change s.log.filter _ ++ [f] = c ++ (s.pending.filter _ ++ [f])
    rw [hlog, List.filter_append, List.filter_eq_self.mpr, List.append_assoc]
    exact fun g hg => by simpa using (hc g hg).trans happlied
  · refine List.pairwise_append.mpr ⟨hinv.rising.filter _, List.pairwise_singleton _ _,
      fun g hg g' hg' => ?_⟩
    have := of_decide_eq_true (List.mem_filter.mp hg).2
    rw [List.mem_singleton.mp hg']
    omega
  · intro g hg
    change g.lsn ≤ max s.nextLsn f.lsn
    rcases List.mem_append.mp hg with hg | hg
    · exact (hinv.below g (List.mem_filter.mp hg).1).trans (le_max_left _ _)
    · rw [List.mem_singleton.mp hg]
      exact le_max_right _ _
  · have hok := hinv.requests i q hq
    have hstage := hidle q (List.mem_of_getElem? hq)
    obtain ⟨op, held, stage⟩ := q
    cases stage with
    | locking left => exact hok
    | reading left got => cases hstage
    | indexing k left got => cases hstage
    | appending term left =>
      exact fun hleft => absurd (by simpa [Stage.deciding] using hstage) hleft
    | finished => trivial
  · exact fun a ha => (hinv.issuedBelow a ha).trans (le_max_left _ _)
  · intro a ha
    have := (hinv.stints a ha).1
    change a.stint ≤ s.stint + 1 ∧ (a.stint = s.stint + 1 → _)
    exact ⟨by omega, fun h => by omega⟩

theorem requestOk_enter {log pending : List (Frame K V)} {op : Op K V} {held left : List Nat}
    (h : ∀ x ∈ op.stripes hash, x ∈ held ∨ x ∈ left) :
    RequestOk hash merge log pending ⟨op, held, enter op left⟩ := by
  cases left with
  | nil => exact ⟨fun x hx => by simpa using h x hx, [], rfl, rfl⟩
  | cons y left => exact h

theorem Guarded.requestStep {s s' : State K V} (hinv : Guarded hash merge s) {r : Nat}
    {q : Request K V} (hq : s.requests[r]? = some q) {l : Label K V} (hl : l.request = some r)
    (hok : Uninterrupted s l = true) (h : requestStep merge s r q l = some s') :
    Guarded hash merge s' := by
  have hreq := hinv.requests r q hq
  cases l with
  | arrive op => cases hl
  | commit lsn => cases hl
  | takeLsn => cases hl
  | receive prev f => cases hl
  | lock r' =>
    simp only [WritePipeline.requestStep] at h
    split at h
    · rename_i x left hstage
      simp only [RequestOk, hstage] at hreq
      split at h
      · cases h
      · rename_i hfree
        cases h
        refine hinv.setRequest hq (requestOk_enter fun y hy => ?_) fun y hy => ?_
        · have := hreq y hy
          simp only [List.mem_cons] at this ⊢
          tauto
        · rcases List.mem_cons.mp hy with rfl | hy
          · exact .inr fun o ho hmem => hfree (List.any_eq_true.mpr ⟨o, ho, by simpa using hmem⟩)
          · exact .inl hy
    · cases h
  | scan r' =>
    simp only [WritePipeline.requestStep] at h
    split at h
    · rename_i k left got hstage
      simp only [RequestOk, hstage] at hreq
      obtain ⟨hcov, seen, hreads, rfl⟩ := hreq
      split at h
      · rename_i current hcur
        cases h
        refine hinv.setRequest hq ⟨hcov, seen ++ [k], by simp [hreads], ?_⟩ fun y hy => .inl hy
        simp [hinv.newest_eq k, hcur]
      · rename_i hnone
        cases h
        exact hinv.setRequest hq ⟨hcov, ⟨seen, hreads, rfl⟩, hnone⟩ fun y hy => .inl hy
    · cases h
  | lookup r' =>
    simp only [WritePipeline.requestStep] at h
    split at h
    · rename_i k left got hstage
      simp only [RequestOk, hstage] at hreq
      obtain ⟨hcov, ⟨seen, hreads, rfl⟩, hnone⟩ := hreq
      cases h
      refine hinv.setRequest hq ⟨hcov, seen ++ [k], by simp [hreads], ?_⟩ fun y hy => .inl hy
      simp [hinv.newest_eq k, hnone]
    · cases h
  | judge r' term =>
    simp only [WritePipeline.requestStep] at h
    split at h
    · rename_i got hstage
      simp only [RequestOk, hstage] at hreq
      obtain ⟨hcov, seen, hreads, rfl⟩ := hreq
      split at h
      · rename_i cs hcs
        cases h
        refine hinv.setRequest hq (fun _ => ⟨hcov, _, [], hcs, fun _ => ?_⟩) fun y hy => .inl hy
        rw [hreads, List.append_nil]
      · cases h
        exact hinv.ended hq
    · cases h
  | append r' =>
    simp only [WritePipeline.requestStep] at h
    split at h
    · rename_i term c left hstage
      cases h
      exact hinv.append hq hstage
    · cases h
  | finish r' =>
    simp only [WritePipeline.requestStep] at h
    split at h
    · cases h
      exact hinv.ended hq
    · cases h
  | fail r' =>
    cases h
    exact hinv.ended hq
  | cancel r' =>
    simp only [WritePipeline.requestStep] at h
    obtain rfl : r' = r := Option.some.inj hl
    split at h
    · rename_i term left hstage
      cases h
      -- the guards go only when nothing is left to append
      have hleft : left = [] := by
        simpa [Uninterrupted, hq, hstage, Stage.blocking] using hok
      refine hinv.setRequest hq ?_ (by simp)
      simp only [RequestOk, hstage]
      exact fun h => absurd hleft h
    · cases h
      exact hinv.ended hq

theorem Guarded.arrive {s : State K V} (hinv : Guarded hash merge s) (op : Op K V) :
    Guarded hash merge
      { s with requests := s.requests ++ [⟨op, [], enter op (op.stripes hash)⟩] } := by
  have hget : ∀ (i : Nat) p, (s.requests ++ [⟨op, [], enter op (op.stripes hash)⟩])[i]? = some p →
      s.requests[i]? = some p ∨ p = ⟨op, [], enter op (op.stripes hash)⟩ := by
    intro i p hp
    rcases Nat.lt_or_ge i s.requests.length with hi | hi
    · exact .inl (by rwa [List.getElem?_append_left hi] at hp)
    · rw [List.getElem?_append_right hi] at hp
      exact .inr (List.mem_singleton.mp (List.mem_of_getElem? hp))
  refine ⟨hinv.published, hinv.rising, hinv.below, ?_, ?_, hinv.history, hinv.issued,
    hinv.issuedBelow, hinv.stints, hinv.kept⟩
  · intro i j p q hp hq hij x hx hx'
    rcases hget i p hp with hpi | rfl
    · rcases hget j q hq with hqj | rfl
      · exact hinv.apart i j p q hpi hqj hij x hx hx'
      · cases hx'
    · cases hx
  · intro i p hp
    rcases hget i p hp with hpi | rfl
    · exact hinv.requests i p hpi
    · exact requestOk_enter fun x hx => .inr hx

theorem Guarded.step {s s' : State K V} (hinv : Guarded hash merge s) {l : Label K V}
    (hok : Uninterrupted s l = true) (h : step hash merge s l = some s') :
    Guarded hash merge s' := by
  have hreq : ∀ r, l.request = some r →
      (s.requests[r]?.bind fun q => WritePipeline.requestStep merge s r q l) = some s' →
      Guarded hash merge s' := by
    intro r hr hs
    obtain ⟨q, hq, hs⟩ := Option.bind_eq_some_iff.mp hs
    exact hinv.requestStep hq hr hok hs
  cases l with
  | arrive op =>
    cases h
    exact hinv.arrive op
  | commit lsn =>
    cases h
    exact hinv.applyCommitted lsn
  | takeLsn =>
    cases h
    exact ⟨hinv.published, hinv.rising, fun f hf => (hinv.below f hf).trans (Nat.le_succ _),
      hinv.apart, hinv.requests, hinv.history, hinv.issued,
      fun a ha => (hinv.issuedBelow a ha).trans (Nat.le_succ _), hinv.stints, hinv.kept⟩
  | receive prev f =>
    simp only [WritePipeline.step] at h
    split at h
    · rename_i hle
      cases h
      refine hinv.receiveFrame hle.1 hle.2 fun q hq => ?_
      simpa using List.all_eq_true.mp hok q hq
    · cases h
  | lock r => exact hreq r rfl h
  | scan r => exact hreq r rfl h
  | lookup r => exact hreq r rfl h
  | judge r term => exact hreq r rfl h
  | append r => exact hreq r rfl h
  | finish r => exact hreq r rfl h
  | fail r => exact hreq r rfl h
  | cancel r => exact hreq r rfl h

theorem Opened.guarded {s : State K V} (h : Opened s) : Guarded hash merge s where
  published := h.published
  rising := h.rising
  below := h.below
  apart := by simp [h.requests]
  requests := by simp [h.requests]
  history := by simp [h.appended]
  issued := by simp [h.appended]
  issuedBelow := by simp [h.appended]
  stints := by simp [h.appended]
  kept := by simp [h.appended]

/-- A conditional write was let through by the version right below it in the log. -/
theorem AppendedOk.holds {a : Appended K V} (h : AppendedOk merge a) {k : K} {pre : Preconditions}
    (hop : a.op.condition = some (k, pre)) :
    pre.holds ((newest a.before k).map IndexEntry.version) = true := by
  have hdec := h.decided (by simp [hop])
  by_cases hempty : pre.isEmpty = true
  · exact holds_of_isEmpty hempty _
  · obtain ⟨op, before, frame, stint⟩ := a
    cases op with
    | write key value expireAt pre' =>
      cases hop
      by_contra hno
      simp [Op.changes, Op.reads, hempty, hno] at hdec
    | patch key doc expireAt pre' =>
      cases hop
      by_contra hno
      simp [Op.changes, Op.reads, hempty, hno] at hdec
    | batch items => cases hop
    | sweep candidates => cases hop
    | dropAll => cases hop
    | unkeyed => cases hop

theorem AppendedOk.merged {a : Appended K V} (h : AppendedOk merge a) {k : K} {doc : V}
    {expireAt : Option Nat} {pre : Preconditions} (hop : a.op = .patch k doc expireAt pre) :
    ∃ cur, newest a.before k = some cur ∧
      a.frame.change = .put k (merge cur.value doc) (expireAt.or cur.expireAt) := by
  have hdec := h.decided (by simp [hop, Op.condition])
  rw [hop] at hdec
  simp only [Op.changes, Op.reads, List.map_cons, List.head?_cons, Option.join_some] at hdec
  split at hdec
  · cases hdec
  · obtain ⟨cur, hcur, hput⟩ := Option.map_eq_some_iff.mp hdec
    refine ⟨cur, hcur, ?_⟩
    rw [← List.singleton_inj.mp hput]
    cases expireAt <;> simp [hcur]

theorem AppendedOk.touches {a : Appended K V} (h : AppendedOk merge a) {k : K}
    {pre : Preconditions} (hop : a.op.condition = some (k, pre)) :
    a.frame.change.touches k = true := by
  have hdec := h.decided (by simp [hop])
  obtain ⟨op, before, frame, stint⟩ := a
  cases op with
  | write key value expireAt pre' =>
    cases hop
    simp only [Op.changes] at hdec
    split at hdec
    · cases hdec
    · cases value <;> simp [← List.singleton_inj.mp (Option.some.inj hdec), Change.touches]
  | patch key doc expireAt pre' =>
    obtain ⟨cur, -, hput⟩ :=
      h.merged (a := ⟨.patch key doc expireAt pre', before, frame, stint⟩) rfl
    cases hop
    simp only at hput
    simp [hput, Change.touches]
  | batch items => cases hop
  | sweep candidates => cases hop
  | dropAll => cases hop
  | unkeyed => cases hop

/-- A writer that named the version a frame of its key already replaced is not appended above it. -/
theorem AppendedOk.exclusive {a b : Appended K V} (ha : AppendedOk merge a)
    (hb : AppendedOk merge b)
    (hab : a.frame ∈ b.before) {k : K} {v : Version} {pre pre' : Preconditions}
    (hopa : a.op.condition = some (k, pre)) (hopb : b.op.condition = some (k, pre'))
    (hma : pre.ifMatch = some (.exactly v)) (hmb : pre'.ifMatch = some (.exactly v)) : False := by
  obtain ⟨e, he, hev⟩ := Option.map_eq_some_iff.mp (eq_of_holds_ifMatch hma (ha.holds hopa))
  obtain ⟨e', he', hev'⟩ := Option.map_eq_some_iff.mp (eq_of_holds_ifMatch hmb (hb.holds hopb))
  -- `v` is below `a` and, since `a` touches the key, not below it either
  obtain ⟨f, hf, hlsn⟩ := exists_lsn_of_newest he
  have hbelow := ha.above f hf
  have habove := lsn_le_newest hb.rising hab (ha.touches hopa) he'
  rw [hev] at hlsn
  rw [hev'] at habove
  omega

/-- What the conditions of a collection's writes promise their clients. -/
structure NoLostUpdate (merge : V → V → V) (s : State K V) : Prop where
  inLog : ∀ a ∈ s.appended, a.stint = s.stint → a.before ++ [a.frame] <+: s.log
  judged : ∀ a ∈ s.appended, ∀ k pre, a.op.condition = some (k, pre) →
    pre.holds ((newest a.before k).map IndexEntry.version) = true
  matched : ∀ a ∈ s.appended, ∀ k pre v, a.op.condition = some (k, pre) →
    pre.ifMatch = some (.exactly v) → (newest a.before k).map IndexEntry.version = some v
  absent : ∀ a ∈ s.appended, ∀ k pre, a.op.condition = some (k, pre) →
    pre.ifNoneMatch = some .any → newest a.before k = none
  merged : ∀ a ∈ s.appended, ∀ k doc expireAt pre, a.op = .patch k doc expireAt pre →
    ∃ cur, newest a.before k = some cur ∧
      a.frame.change = .put k (merge cur.value doc) (expireAt.or cur.expireAt)
  exclusive : s.appended.Pairwise fun a b => a.stint = b.stint ∨ a.frame ∈ b.before →
    ∀ k v pre pre', a.op.condition = some (k, pre) → b.op.condition = some (k, pre') →
      pre.ifMatch = some (.exactly v) → pre'.ifMatch ≠ some (.exactly v)
  unique : (s.appended.map fun a => a.frame.version).Nodup

theorem Guarded.noLostUpdate {s : State K V} (hinv : Guarded hash merge s) :
    NoLostUpdate merge s where
  inLog a ha := (hinv.stints a ha).2
  judged a ha _ _ hop := (hinv.history a ha).holds hop
  matched a ha _ _ _ hop hm := eq_of_holds_ifMatch hm ((hinv.history a ha).holds hop)
  absent a ha _ _ hop hm := by
    simpa using none_of_holds_ifNoneMatch hm ((hinv.history a ha).holds hop)
  merged a ha _ _ _ _ hop := (hinv.history a ha).merged hop
  exclusive := by
    refine hinv.kept.imp_of_mem fun {a b} ha hb hkept hor k v pre pre' hopa hopb hma hmb => ?_
    have hmem : a.frame ∈ b.before := by
      rcases hor with hstint | hmem
      · exact (hkept hstint).subset (by simp)
      · exact hmem
    exact (hinv.history a ha).exclusive (hinv.history b hb) hmem hopa hopb hma hmb
  unique := by
    refine List.pairwise_map.mpr (hinv.issued.imp fun {a b} hlt heq => ?_)
    simp only [Frame.version, Version.mk.injEq] at heq
    omega

/-- In every run in which no request is dropped under its own append, no conditional write loses an
update. -/
theorem no_lost_update {s s' : State K V} {labels : List (Label K V)} (hopen : Opened s)
    (hrun : run (step hash merge) s labels = some s')
    (hok : Meets (step hash merge) (fun t l => Uninterrupted t l = true) s labels) :
    NoLostUpdate merge s' :=
  (run_invariant_of_meets (fun _ _ _ hinv hl hs => Guarded.step hinv hl hs) hrun hok
    (Opened.guarded hopen)).noLostUpdate

/-- A collection that holds one document, committed at version 1.1. -/
def oneDocument : State Nat Nat where
  index := replay (fun _ => none) [⟨1, 1, .put 0 5 none⟩]
  pending := []
  log := [⟨1, 1, .put 0 5 none⟩]
  appliedLsn := 1
  nextLsn := 1
  requests := []
  stint := 0
  appended := []

theorem oneDocument_opened : Opened oneDocument where
  published := ⟨[⟨1, 1, .put 0 5 none⟩], by decide, rfl, by decide⟩
  rising := by decide
  below := by decide
  requests := rfl
  appended := rfl

/-- A put of the document under `If-Match: "1.1"`. -/
def putAtFirst (value : Nat) :
    Op Nat Nat := .write 0 (some value) none ⟨some (.exactly ⟨1, 1⟩), none⟩

def decideWrite (r : Nat) : List (Label Nat Nat) := [.lock r, .scan r, .lookup r, .judge r 1]

/-- Two writers race on version 1.1: the second waits for the first one's stripe and is refused. -/
theorem no_lost_update_race :
    ∃ s, run (step id fun _ doc => doc) oneDocument
        ([Label.arrive (putAtFirst 6), .arrive (putAtFirst 7)] ++ decideWrite 0 ++
          [Label.append 0, .finish 0, .lock 1, .scan 1, .judge 1 1]) = some s ∧
      s.appended.map Appended.op = [putAtFirst 6] ∧ NoLostUpdate (fun _ doc => doc) s := by
  have hout : (run (step id fun _ doc => doc) oneDocument
      ([Label.arrive (putAtFirst 6), .arrive (putAtFirst 7)] ++ decideWrite 0 ++
        [Label.append 0, .finish 0, .lock 1, .scan 1, .judge 1 1])).any (fun s =>
          decide (s.appended.map Appended.op = [putAtFirst 6])) = true := by
    decide
  obtain ⟨s, hrun, hs⟩ := (Option.any_eq_true _ _).mp hout
  exact ⟨s, hrun, of_decide_eq_true hs, no_lost_update oneDocument_opened hrun (by decide)⟩

/-- The first writer's client goes away while its append waits on the blocking pool: the second
writer gets the stripe, finds version 1.1 still newest, and both are appended. -/
theorem update_lost :
    ∃ s, Opened oneDocument ∧ run (step id fun _ doc => doc) oneDocument
        ([Label.arrive (putAtFirst 6), .arrive (putAtFirst 7)] ++ decideWrite 0 ++
          [Label.cancel 0] ++
          decideWrite 1 ++ [Label.append 1, .append 0]) = some s ∧
      s.appended.map Appended.op = [putAtFirst 7, putAtFirst 6] ∧
      ¬ NoLostUpdate (fun _ doc => doc) s := by
  have hout : (run (step id fun _ doc => doc) oneDocument
      ([Label.arrive (putAtFirst 6), .arrive (putAtFirst 7)] ++ decideWrite 0 ++ [Label.cancel 0] ++
        decideWrite 1 ++ [Label.append 1, .append 0])).any (fun s =>
          decide (s.appended.map Appended.op = [putAtFirst 7, putAtFirst 6]) &&
          decide (s.appended.map Appended.stint = [0, 0])) = true := by
    decide
  obtain ⟨s, hrun, hs⟩ := (Option.any_eq_true _ _).mp hout
  simp only [Bool.and_eq_true, decide_eq_true_eq] at hs
  refine ⟨s, oneDocument_opened, hrun, hs.1, fun hno => ?_⟩
  obtain ⟨a, b, hab⟩ : ∃ a b, s.appended = [a, b] := List.length_eq_two.mp (by
    simpa using congrArg List.length hs.1)
  have hex := hno.exclusive
  simp only [hab, List.map_cons, List.map_nil, List.cons.injEq, and_true] at hs hex
  have hpair := (List.pairwise_cons.mp hex).1 b (by simp) (.inl (by rw [hs.2.1, hs.2.2]))
  exact hpair 0 ⟨1, 1⟩ _ _ (by rw [hs.1.1]; rfl) (by rw [hs.1.2]; rfl) rfl rfl

end DewDB.ConditionalWrites
