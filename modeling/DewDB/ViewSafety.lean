import Mathlib.Data.Fin.VecNotation
import Mathlib.Data.Fintype.Basic
import DewDB.ViewQuorums

/-!
# When view-derived quorums meet

The majorities of two voter sets meet just when the sets overlap, so the nodes of a group decide
together throughout a run just when each node, before it counts a new set, has it overlap the sets
in use elsewhere. Sets that differ by one node at most do.
-/
namespace DewDB.ViewQuorums

open Endpoint TokenRing ClusterView QuorumConfig MajorityOverlap TransitionSystem Vote

variable {ι : Type} {g : ι → NodeConfig} {w : ι → Node} {i : ι} {n n' : Node} {c c' : Configuration}
  {cfg : NodeConfig} {v : ClusterMetadata}

section Counting

def Lone (c : Configuration) : Prop := c.outgoing = none ∧ c.voters ≠ []

theorem lone_simple {voters : List Url} (h : voters ≠ []) : Lone (simple voters) := by
  refine ⟨rfl, fun hnil => h ?_⟩
  have hkeys : keys voters = ∅ := by
    rw [← keys_canonical, show canonical voters = [] from hnil]
    rfl
  simpa [keys] using hkeys

theorem Lone.hasQuorum_iff (h : Lone c) {A : List Url} :
    c.hasQuorum A = true ↔ IsMajority (keys c.voters) (keys A) := by
  have hkeys : keys c.voters ≠ ∅ := by simpa [keys] using h.2
  rw [hasQuorum_halves]
  simp only [Configuration.halves, h.1, Option.toList_none, List.mem_singleton, forall_eq]
  exact halfHasQuorum_keys.trans (or_iff_right hkeys)

theorem exists_granted (voters : List Url) (S : Finset Url) :
    ∃ A : List Url, keys A = keys voters ∩ S := by
  refine ⟨voters.filter fun u => nodeKey u ∈ S, ?_⟩
  ext k
  simp only [mem_keys, List.mem_filter, decide_eq_true_eq, Finset.mem_inter]
  constructor
  · rintro ⟨u, ⟨hu, hS⟩, rfl⟩
    exact ⟨⟨u, hu, rfl⟩, hS⟩
  · rintro ⟨⟨u, hu, rfl⟩, hS⟩
    exact ⟨u, ⟨hu, hS⟩, rfl⟩

theorem meets_iff_overlapping (h : Lone c) (h' : Lone c') : c.Meets c' ↔ Overlapping c c' := by
  constructor
  · intro hmeets
    refine overlap_iff.mpr fun S T hS hT => ?_
    obtain ⟨A, hA⟩ := exists_granted c.voters S
    obtain ⟨B, hB⟩ := exists_granted c'.voters T
    have hqA : c.hasQuorum A = true := by
      rw [h.hasQuorum_iff, hA, IsMajority, ← Finset.inter_assoc, Finset.inter_self]
      exact hS
    have hqB : c'.hasQuorum B = true := by
      rw [h'.hasQuorum_iff, hB, IsMajority, ← Finset.inter_assoc, Finset.inter_self]
      exact hT
    obtain ⟨x, hx, y, hy, hxy⟩ := hmeets A B hqA hqB
    have hxS : nodeKey x ∈ keys c.voters ∩ S := hA ▸ mem_keys.mpr ⟨x, hx, rfl⟩
    have hyT : nodeKey y ∈ keys c'.voters ∩ T := hB ▸ mem_keys.mpr ⟨y, hy, rfl⟩
    rw [sameEndpoint_iff] at hxy
    exact ⟨nodeKey x, Finset.mem_inter.mpr ⟨(Finset.mem_inter.mp hxS).2,
      hxy ▸ (Finset.mem_inter.mp hyT).2⟩⟩
  · exact Configuration.meets_of_overlap (by simp [Configuration.halves])
      (by simp [Configuration.halves]) h.2 h'.2

theorem Overlapping.symm (h : Overlapping c c') : Overlapping c' c := MajorityOverlap.Overlap.symm h

end Counting

section Counted

theorem own_mem_configuredVoters (cfg : NodeConfig) :
    nodeKey cfg.ownUrl ∈ keys (configuredVoters cfg) := by
  rw [configuredVoters, keys_canonicalOnto]
  simp [keys]

theorem own_mem_viewVotingSet (cfg : NodeConfig) (v : ClusterMetadata) :
    nodeKey cfg.ownUrl ∈ keys (viewVotingSet cfg v) := by
  unfold viewVotingSet
  dsimp only
  split_ifs with hseed hown
  · exact own_mem_configuredVoters cfg
  · obtain ⟨u, hu, hsame⟩ := List.any_eq_true.mp hown
    exact mem_keys.mpr ⟨u, hu, sameEndpoint_iff.mp hsame⟩
  · exact own_mem_configuredVoters cfg

theorem lone_quorumConfig (cfg : NodeConfig) (v : ClusterMetadata) : Lone (quorumConfig cfg v) := by
  apply lone_simple
  intro hnil
  have h := own_mem_viewVotingSet cfg v
  simp [hnil, keys] at h

theorem lone_replicationQuorum (own : Url) (replicas : List Url) :
    Lone (replicationQuorum own replicas) := by
  apply lone_simple
  intro hnil
  have h : nodeKey own ∈ keys (canonicalOnto [own] replicas) := by
    rw [keys_canonicalOnto]
    simp [keys]
  simp [hnil, keys] at h

theorem keys_promoted (cfg : NodeConfig) (v : ClusterMetadata) :
    keys (replicationQuorum cfg.ownUrl (votingPeers cfg v)).voters =
      keys (quorumConfig cfg v).voters := by
  have hmembers : keys (quorumConfig cfg v).members = keys (viewVotingSet cfg v) := by
    have hvoters : keys (canonical (viewVotingSet cfg v)) = keys (viewVotingSet cfg v) :=
      keys_canonical _
    rw [Configuration.members, keys_canonicalOnto]
    simpa [quorumConfig, simple, keys] using hvoters
  have hown := own_mem_viewVotingSet cfg v
  show keys (canonical _) = keys (canonical _)
  rw [keys_canonical, keys_canonical, keys_canonicalOnto, ← hmembers]
  rw [← hmembers] at hown
  ext k
  simp only [Finset.mem_union, mem_keys, List.mem_singleton, exists_eq_left, votingPeers,
    List.mem_filter, Bool.not_eq_true', ← Bool.not_eq_true, sameEndpoint_iff]
  constructor
  · rintro (rfl | ⟨u, ⟨hu, -⟩, rfl⟩)
    · exact mem_keys.mp hown
    · exact ⟨u, hu, rfl⟩
  · rintro ⟨u, hu, rfl⟩
    by_cases hsame : nodeKey u = nodeKey cfg.ownUrl
    · exact .inl hsame.symm
    · exact .inr ⟨u, ⟨hu, hsame⟩, rfl⟩

theorem mem_electionQuorums : c ∈ electionQuorums cfg n ↔ n.up = true ∧
    ((∃ v, n.campaign = some v ∧ c = quorumConfig cfg v) ∨
      n.isLeader = false ∧ inQuorum cfg n.view = true ∧ c = quorumConfig cfg n.view) := by
  unfold electionQuorums
  by_cases hup : n.up = true
  · simp only [hup, if_true, List.mem_append, List.mem_map, Option.mem_toList, true_and]
    refine or_congr ⟨?_, ?_⟩ ?_
    · rintro ⟨v, hv, rfl⟩
      exact ⟨v, hv, rfl⟩
    · rintro ⟨v, hv, rfl⟩
      exact ⟨v, hv, rfl⟩
    · split_ifs with hstands
      · simp only [Bool.and_eq_true, Bool.not_eq_true'] at hstands
        simp [hstands]
      · simp only [Bool.and_eq_true, Bool.not_eq_true', not_and] at hstands
        simp only [List.not_mem_nil, false_iff, not_and]
        exact fun hleader hin => absurd hin (hstands hleader)
  · simp [hup]

theorem mem_commitQuorums : c ∈ commitQuorums cfg n ↔
    n.up = true ∧ n.isLeader = true ∧ c = replicationQuorum cfg.ownUrl n.replicas := by
  unfold commitQuorums
  split_ifs with h
  · simp only [Bool.and_eq_true] at h
    simp [h]
  · simp only [Bool.and_eq_true, not_and] at h
    simp only [List.not_mem_nil, false_iff, not_and]
    exact fun hup hleader => absurd hleader (h hup)

theorem lone_of_mem_electionQuorums (h : c ∈ electionQuorums cfg n) : Lone c := by
  obtain ⟨-, ⟨v, -, rfl⟩ | ⟨-, -, rfl⟩⟩ := mem_electionQuorums.mp h
  · exact lone_quorumConfig cfg v
  · exact lone_quorumConfig cfg n.view

theorem lone_of_mem_commitQuorums (h : c ∈ commitQuorums cfg n) : Lone c := by
  obtain ⟨-, -, rfl⟩ := mem_commitQuorums.mp h
  exact lone_replicationQuorum _ _

theorem lone_of_mem_quorums (h : c ∈ electionQuorums cfg n ++ commitQuorums cfg n) : Lone c :=
  (List.mem_append.mp h).elim lone_of_mem_electionQuorums lone_of_mem_commitQuorums

end Counted

section Steps

theorem QuorumsMeet.mayElect (h : QuorumsMeet g w) (hc : c ∈ electionQuorums (g i) (w i)) :
    MayElect g w i c := by
  intro j hj c' hc'
  exact (meets_iff_overlapping (lone_of_mem_electionQuorums hc) (lone_of_mem_quorums hc')).mp
    (h i j (Ne.symm hj) c hc c' hc')

theorem QuorumsMeet.mayCommit (h : QuorumsMeet g w) (hc : c ∈ commitQuorums (g i) (w i)) :
    MayCommit g w i c := by
  intro j hj c' hc'
  exact (meets_iff_overlapping (lone_of_mem_electionQuorums hc') (lone_of_mem_commitQuorums hc)).mp
    (h j i hj c' hc' c (List.mem_append_right _ hc))

theorem QuorumsMeet.mayCommit_promoted (h : QuorumsMeet g w)
    (hc : quorumConfig (g i) v ∈ electionQuorums (g i) (w i)) :
    MayCommit g w i (replicationQuorum (g i).ownUrl (votingPeers (g i) v)) := by
  intro j hj c' hc'
  have hover : Overlapping c' (quorumConfig (g i) v) :=
    (h.mayElect hc j hj c' (List.mem_append_left _ hc')).symm
  unfold Overlapping
  rw [keys_promoted]
  exact hover

variable [DecidableEq ι]

/-- Where one node changes, the quorums go on meeting just if what it now counts overlaps the rest.
-/
theorem QuorumsMeet.update_iff (h : QuorumsMeet g w) :
    QuorumsMeet g (Function.update w i n') ↔
      (∀ c ∈ electionQuorums (g i) n', MayElect g w i c) ∧
        ∀ c ∈ commitQuorums (g i) n', MayCommit g w i c := by
  constructor
  · intro h'
    constructor
    · intro c hc j hj c' hc'
      have hmeets := h' i j (Ne.symm hj) c (by simpa using hc) c'
        (by simpa [Function.update_of_ne hj] using hc')
      exact (meets_iff_overlapping (lone_of_mem_electionQuorums hc)
        (lone_of_mem_quorums hc')).mp hmeets
    · intro c hc j hj c' hc'
      have hmeets := h' j i hj c' (by simpa [Function.update_of_ne hj] using hc') c
        (by simpa using Or.inr hc)
      exact (meets_iff_overlapping (lone_of_mem_electionQuorums hc')
        (lone_of_mem_commitQuorums hc)).mp hmeets
  · rintro ⟨helect, hcommit⟩ a b hab c hc c' hc'
    refine (meets_iff_overlapping (lone_of_mem_electionQuorums hc) (lone_of_mem_quorums hc')).mpr ?_
    by_cases ha : a = i
    · subst ha
      rw [Function.update_self] at hc
      rw [Function.update_of_ne (Ne.symm hab)] at hc'
      exact helect c hc b (Ne.symm hab) c' hc'
    · rw [Function.update_of_ne ha] at hc
      by_cases hb : b = i
      · subst hb
        rw [Function.update_self] at hc'
        rcases List.mem_append.mp hc' with hc' | hc'
        · exact (helect c' hc' a ha c (List.mem_append_left _ hc)).symm
        · exact hcommit c' hc' a ha c hc
      · rw [Function.update_of_ne hb] at hc'
        exact (meets_iff_overlapping (lone_of_mem_electionQuorums hc) (lone_of_mem_quorums hc')).mp
          (h a b hab c hc c' hc')

theorem step_iff (h : QuorumsMeet g w) {label : ι × Op} {w' : ι → Node}
    (hstep : step g w label = some w') : QuorumsMeet g w' ↔ Careful g w label := by
  obtain ⟨i, op⟩ := label
  obtain ⟨n', hn', rfl⟩ := Option.map_eq_some_iff.mp hstep
  rw [h.update_iff]
  simp only [mem_electionQuorums, mem_commitQuorums]
  cases op with
  | boot viewSaved metaSaved =>
    have hboot : boot (g i) (w i) viewSaved metaSaved = some n' := hn'
    obtain ⟨-, hboot⟩ := Option.ite_none_left_eq_some.mp hboot
    obtain ⟨v, hv, rfl⟩ := Option.map_eq_some_iff.mp hboot
    cases hleads : leadsAtBoot (g i) (w i).hasMeta with
    | true => simp [Careful, hv, hleads]
    | false => simp [Careful, hv, hleads]
  | crash =>
    obtain rfl := Option.some.inj hn'
    simp [Careful]
  | offer incoming saved =>
    have hoffer : offer (w i) incoming saved = some n' := hn'
    obtain ⟨hup, hoffer⟩ := Option.ite_none_right_eq_some.mp hoffer
    obtain rfl := Option.some.inj hoffer
    dsimp only
    constructor
    · rintro ⟨helect, -⟩ hadopts hleader hin
      have hview : adopt (w i).view incoming = incoming := if_pos hadopts
      exact helect _ ⟨hup, .inr ⟨hleader, by rwa [hview], by rw [hview]⟩⟩
    · intro hcareful
      refine ⟨?_, ?_⟩
      · rintro c ⟨-, hcampaign | ⟨hleader, hin, rfl⟩⟩
        · exact h.mayElect (mem_electionQuorums.mpr ⟨hup, .inl hcampaign⟩)
        · by_cases hadopts : adopts (w i).view incoming = true
          · have hview : adopt (w i).view incoming = incoming := if_pos hadopts
            rw [hview] at hin ⊢
            exact hcareful hadopts hleader hin
          · have hview : adopt (w i).view incoming = (w i).view := if_neg hadopts
            rw [hview] at hin ⊢
            exact h.mayElect (mem_electionQuorums.mpr ⟨hup, .inr ⟨hleader, hin, rfl⟩⟩)
      · exact fun c hc => h.mayCommit (mem_commitQuorums.mpr hc)
  | stand =>
    have hstand : stand (g i) (w i) = some n' := hn'
    obtain ⟨hguard, hstand⟩ := Option.ite_none_right_eq_some.mp hstand
    simp only [Bool.and_eq_true, Bool.not_eq_true'] at hguard
    obtain ⟨⟨hup, hleader⟩, hin⟩ := hguard
    obtain rfl := Option.some.inj hstand
    have hown : quorumConfig (g i) (w i).view ∈ electionQuorums (g i) (w i) :=
      mem_electionQuorums.mpr ⟨hup, .inr ⟨hleader, hin, rfl⟩⟩
    refine iff_of_true ⟨?_, ?_⟩ trivial
    · rintro c ⟨-, ⟨v, hv, rfl⟩ | ⟨-, -, rfl⟩⟩
      · obtain rfl := Option.some.inj hv
        exact h.mayElect hown
      · exact h.mayElect hown
    · exact fun c hc => h.mayCommit (mem_commitQuorums.mpr hc)
  | giveUp =>
    obtain rfl := Option.some.inj hn'
    refine iff_of_true ⟨?_, ?_⟩ trivial
    · rintro c ⟨hup, ⟨v, hv, -⟩ | hstands⟩
      · cases hv
      · exact h.mayElect (mem_electionQuorums.mpr ⟨hup, .inr hstands⟩)
    · exact fun c hc => h.mayCommit (mem_commitQuorums.mpr hc)
  | promote =>
    have hpromote : becomeLeader (g i) (w i) = some n' := hn'
    obtain ⟨hguard, hpromote⟩ := Option.ite_none_right_eq_some.mp hpromote
    simp only [Bool.and_eq_true, Bool.not_eq_true'] at hguard
    obtain ⟨⟨⟨hup, hleader⟩, -⟩, hin⟩ := hguard
    obtain rfl := Option.some.inj hpromote
    refine iff_of_true ⟨?_, ?_⟩ trivial
    · rintro c ⟨-, ⟨v, hv, -⟩ | ⟨hfalse, -⟩⟩
      · cases hv
      · cases hfalse
    · rintro c ⟨-, -, rfl⟩
      exact h.mayCommit_promoted (mem_electionQuorums.mpr ⟨hup, .inr ⟨hleader, hin, rfl⟩⟩)
  | stepDown =>
    obtain rfl := Option.some.inj hn'
    dsimp only
    constructor
    · rintro ⟨helect, -⟩ hup - hin
      exact helect _ ⟨hup, .inr ⟨rfl, hin, rfl⟩⟩
    · intro hcareful
      refine ⟨?_, fun c hc => absurd hc.2.1 (by simp)⟩
      rintro c ⟨hup, hcampaign | ⟨-, hin, rfl⟩⟩
      · exact h.mayElect (mem_electionQuorums.mpr ⟨hup, .inl hcampaign⟩)
      · cases hleader : (w i).isLeader with
        | true => exact hcareful hup hleader hin
        | false => exact h.mayElect (mem_electionQuorums.mpr ⟨hup, .inr ⟨hleader, hin, rfl⟩⟩)

end Steps

/-- Where voters vote once in a term, two elections that the quorums decide have one winner. -/
theorem QuorumsMeet.one_leader (h : QuorumsMeet g w) : OneLeader g w := by
  intro vote hvote i j c hc c' hc' A B hA hB hi hj
  by_contra hne
  obtain ⟨x, hx, y, hy, hxy⟩ := h i j hne c hc c' (List.mem_append_left _ hc') A B hA hB
  exact hne ((hi x hx).symm.trans ((hvote x y hxy).trans (hj y hy)))

/-- A voter of the new leader holds what the quorum of the other one does. -/
theorem QuorumsMeet.commits_kept (h : QuorumsMeet g w) : CommitsKept g w := by
  intro tail hsame i j hne c hc c' hc' A B hA hB mine entry hgrants hholds
  obtain ⟨x, hx, y, hy, hxy⟩ := h i j hne c hc c' (List.mem_append_right _ hc') A B hA hB
  have hle := hholds y hy
  have hgrant := hgrants x hx
  rw [hsame x y hxy] at hgrant
  rw [LogTail.le_iff] at hle hgrant ⊢
  omega

/-- From nodes that are down: majorities in use at one time meet throughout a run just if every set
that a node starts to count overlaps those in use at the other nodes. -/
theorem quorums_meet_iff [DecidableEq ι] (g : ι → NodeConfig) {w₀ w : ι → Node}
    {labels : List (ι × Op)} (h₀ : ∀ i, (w₀ i).up = false)
    (hrun : run (step g) w₀ labels = some w) :
    Meets (step g) (Careful g) w₀ labels ↔
      ∀ k w', run (step g) w₀ (labels.take k) = some w' → QuorumsMeet g w' := by
  have hdown : QuorumsMeet g w₀ := by
    intro i j _ c hc
    simp [electionQuorums, h₀ i] at hc
  exact meets_iff_throughout (fun _ _ _ h hstep => step_iff h hstep) hrun hdown

section Gradual

theorem Near.overlap {V W : Finset Url} (h : Near V W) : Overlap V W := by
  have hV := Finset.card_inter_add_card_sdiff V W
  have hW := Finset.card_inter_add_card_sdiff W V
  rw [Finset.inter_comm W V] at hW
  unfold Near at h
  unfold Overlap
  omega

theorem keys_groupVoters (v : ClusterMetadata) (own : Url) :
    keys (groupVoters v own) = groupNodes v own := by
  have hnodes : groupNodes v own =
      keys (v.votingShards.filter fun u => sharesGroup v own u) := by
    rw [groupNodes, ClusterMetadata.votingShards, List.filter_map, List.filter_filter]
    congr 2
    apply List.filter_congr
    intro m _
    rw [Function.comp_apply, Bool.and_comm]
  rw [hnodes, groupVoters]
  cases hgroup : v.shardGroup own with
  | some group =>
    congr 1
    apply List.filter_congr
    intro u _
    simp [sharesGroup, hgroup]
  | none =>
    cases hknown : v.groupsKnown with
    | true => simp [sharesGroup, hgroup, hknown]
    | false => simp [sharesGroup, hgroup, hknown]

/-- The voters that a node counts are those that the view or the file has decide. -/
theorem keys_quorumConfig (cfg : NodeConfig) (v : ClusterMetadata) :
    keys (quorumConfig cfg v).voters = deciding cfg v := by
  have hfile : keys (configuredVoters cfg) = fileNodes cfg := by
    rw [configuredVoters, keys_canonicalOnto, fileNodes]
    ext k
    simp [keys]
  have hown : (groupVoters v cfg.ownUrl).any (fun u => sameEndpoint u cfg.ownUrl) = true ↔
      nodeKey cfg.ownUrl ∈ groupNodes v cfg.ownUrl := by
    rw [← keys_groupVoters, mem_keys, List.any_eq_true]
    simp only [sameEndpoint_iff]
  show keys (canonical _) = _
  rw [keys_canonical, viewVotingSet, deciding]
  dsimp only
  cases hseeded : v.seeded with
  | true => simpa using hfile
  | false =>
    by_cases hmem : nodeKey cfg.ownUrl ∈ groupNodes v cfg.ownUrl
    · rw [if_neg Bool.false_ne_true, if_pos (hown.mpr hmem), if_pos ⟨rfl, hmem⟩]
      exact keys_groupVoters v cfg.ownUrl
    · rw [if_neg Bool.false_ne_true, if_neg (mt hown.mp hmem), if_neg (fun h => hmem h.2)]
      exact hfile

theorem keys_replicationQuorum (own : Url) (replicas : List Url) :
    keys (replicationQuorum own replicas).voters = keys (own :: replicas) := by
  show keys (canonical _) = _
  rw [keys_canonical, keys_canonicalOnto]
  ext k
  simp [keys]

theorem keys_mem_electors (h : c ∈ electionQuorums cfg n) : keys c.voters ∈ electors cfg n := by
  obtain ⟨hup, ⟨v, hv, rfl⟩ | ⟨hleader, hin, rfl⟩⟩ := mem_electionQuorums.mp h
  · simp [electors, hup, hv, keys_quorumConfig]
  · simp [electors, hup, hleader, hin, keys_quorumConfig]

theorem keys_mem_committers (h : c ∈ commitQuorums cfg n) : keys c.voters ∈ committers cfg n := by
  obtain ⟨hup, hleader, rfl⟩ := mem_commitQuorums.mp h
  simp [committers, hup, hleader, keys_replicationQuorum]

theorem NearAll.mayElect (h : NearAll g w i (deciding (g i) v)) : MayElect g w i
    (quorumConfig (g i) v) := by
  intro j hj c' hc'
  have hmem : keys c'.voters ∈ electors (g j) (w j) ++ committers (g j) (w j) := by
    rcases List.mem_append.mp hc' with hc' | hc'
    · exact List.mem_append_left _ (keys_mem_electors hc')
    · exact List.mem_append_right _ (keys_mem_committers hc')
  unfold Overlapping
  rw [keys_quorumConfig]
  exact (h j hj _ hmem).overlap

theorem NearElectors.mayCommit {replicas : List Url}
    (h : NearElectors g w i (keys ((g i).ownUrl :: replicas))) :
    MayCommit g w i (replicationQuorum (g i).ownUrl replicas) := by
  intro j hj c' hc'
  unfold Overlapping
  rw [keys_replicationQuorum]
  exact (h j hj _ (keys_mem_electors hc')).overlap

theorem Gradual.careful {label : ι × Op} (h : Gradual g w label) : Careful g w label := by
  obtain ⟨i, op⟩ := label
  cases op with
  | boot viewSaved metaSaved =>
    intro v hv
    have hboot := h v hv
    split_ifs at hboot ⊢ with hleads
    · exact hboot.mayCommit
    · exact fun hin => (hboot hin).mayElect
  | offer incoming saved => exact fun hadopts hleader hin => (h hadopts hleader hin).mayElect
  | stepDown => exact fun hup hleader hin => (h hup hleader hin).mayElect
  | crash | stand | giveUp | promote => trivial

end Gradual

section Decide

variable [Fintype ι] [DecidableEq ι]

instance (g : ι → NodeConfig) (w : ι → Node) (i : ι) (V : Finset Url) : Decidable
    (NearAll g w i V) :=
  inferInstanceAs (Decidable (∀ j, j ≠ i →
    ∀ W ∈ electors (g j) (w j) ++ committers (g j) (w j), Near V W))

instance (g : ι → NodeConfig) (w : ι → Node) (i : ι) (V : Finset Url) : Decidable
    (NearElectors g w i V) :=
  inferInstanceAs (Decidable (∀ j, j ≠ i → ∀ W ∈ electors (g j) (w j), Near W V))

instance (g : ι → NodeConfig) (w : ι → Node) : ∀ label, Decidable (Gradual g w label)
  | (i, .boot _ _) => inferInstanceAs (Decidable (∀ v ∈ loadClusterView (g i) (w i).stored,
      if leadsAtBoot (g i) (w i).hasMeta then NearElectors g w i
        (keys ((g i).ownUrl :: (g i).replicas))
      else inQuorum (g i) v = true → NearAll g w i (deciding (g i) v)))
  | (i, .offer incoming _) => inferInstanceAs (Decidable (adopts (w i).view incoming = true →
      (w i).isLeader = false → inQuorum (g i) incoming = true →
        NearAll g w i (deciding (g i) incoming)))
  | (i, .stepDown) => inferInstanceAs (Decidable ((w i).up = true → (w i).isLeader = true →
      inQuorum (g i) (w i).view = true → NearAll g w i (deciding (g i) (w i).view)))
  | (_, .crash) | (_, .stand) | (_, .giveUp) | (_, .promote) => isTrue trivial

end Decide

def fourNodes : Fin 4 → NodeConfig :=
  ![⟨['1'], ['a'], .shard, some .primary, false, none, [['b'], ['c']], [['b'], ['c']], [], none⟩,
    ⟨['2'], ['b'], .shard, some .replica, false, none, [], [['a'], ['c']], [], none⟩,
    ⟨['3'], ['c'], .shard, some .replica, false, none, [], [['a'], ['b']], [], none⟩,
    ⟨['4'], ['d'], .shard, some .replica, false, none, [], [['a'], ['b'], ['c']], [], none⟩]

def ringOf (replicas : List Url) : HashRing := ⟨8, [⟨['a'], replicas⟩]⟩

/-- All four may vote; the ring has `a`, `b` and `c` in the group. -/
def firstRing : ClusterMetadata :=
  (seedFromConfig (fourNodes 3)).withRing ['1'] (ringOf [['b'], ['c']])

def withFirstRing : Fin 4 → Node :=
  fun _ => ⟨false, firstRing, some firstRing, true, false, [], none⟩

def bootAll : List (Fin 4 × Op) := [0, 1, 2, 3].map fun i => (i, .boot true true)

/-- The ring no longer has `c` in the group. -/
def dropReplica : ClusterMetadata := firstRing.withRing ['1'] (ringOf [['b']])

/-- Node `a` leads by the first ring when `b` adopts the other one. -/
def dropUnderLeader : List (Fin 4 × Op) :=
  [(0, Op.boot true true), (1, .boot true true), (2, .boot true true), (0, .stand), (0, .promote),
    (1, .offer dropReplica true)]

/-- The ring has `d` in place of `c`. -/
def swapReplica : ClusterMetadata := firstRing.withRing ['1'] (ringOf [['b'], ['d']])

end DewDB.ViewQuorums
