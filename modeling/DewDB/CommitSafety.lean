import DewDB.ReplicationCommits

/-!
# Commit safety

What a leader reports as committed is in the log of every leader elected in a later term, and no two
nodes ever publish different frames of a collection at one LSN.
-/
namespace DewDB.CommitSafety

open TransitionSystem CollectionLog Replication ReplicationSim
open LogReplication hiding Initial

variable {ι β : Type} {g : Cluster ι} {a : Machine ι β} {w : World ι β}

theorem exists_sim [DecidableEq ι] [DecidableEq β]
    (h : Reachable (· = initialWorld g) (step g) w) : ∃ a, Sim g a w :=
  h.invariant (I := fun w => ∃ a, Sim g a w) (fun _ h => h ▸ ⟨_, sim_initial g⟩)
    fun _ _ _ ⟨_, hsim⟩ h => (sim_step hsim h).imp fun _ ⟨_, _, hsim'⟩ => hsim'

theorem leader_isSome_of_commit (hsim : Sim g a w) {cm : Commit _ (Frame β)}
    (hcm : cm ∈ a.commits) : (a.leader cm.term).isSome := by
  obtain ⟨hp, ⟨e, he, -⟩, -⟩ := hsim.inv.commits cm hcm
  by_contra hnone
  have hnil := hsim.inv.leadNone cm.term (by simpa using hnone) cm.key
  rw [hnil] at hp
  simp [List.prefix_nil.mp hp] at he

theorem commit_prefix_won (hsim : Sim g a w) {cm : Commit _ (Frame β)} (hcm : cm ∈ a.commits)
    {x : Won ι β} (hx : x ∈ w.won) (hlt : cm.term < x.term) : cm.entries <+: x.logs cm.key := by
  obtain ⟨-, hlead, hlogs⟩ := hsim.records.won x hx
  obtain ⟨ext, hext, hterm⟩ := hlogs cm.key
  have hp := hsim.inv.leader_completeness (groupQuorum_inter g) hcm hlt.le (by simp [hlead])
  obtain ⟨hcp, -, -⟩ := hsim.inv.commits cm hcm
  rw [hext] at hp
  rcases List.prefix_or_prefix_of_prefix hp (List.prefix_append _ ext) with h | ⟨r, hr⟩
  · exact h
  -- What the winner appended since is of its own term, which is later than the commit's.
  · cases r with
    | nil => simp [← hr]
    | cons f r =>
      obtain ⟨s, hs⟩ := hp
      rw [← hr, List.append_assoc, List.append_cancel_left_eq] at hs
      have hf : f.term = x.term := hterm f (by rw [← hs]; simp)
      have := hsim.inv.leadTerm cm.term cm.key f (hcp.subset (by rw [← hr]; simp))
      simp only [stamped_term] at this
      omega

theorem committed_frame_unique (hsim : Sim g a w) {cm cm' : Commit _ (Frame β)}
    (hcm : cm ∈ a.commits) (hcm' : cm' ∈ a.commits) (hkey : cm.key = cm'.key)
    (hle : cm.term ≤ cm'.term) {f f' : Frame β} (hf : f ∈ cm.entries) (hf' : f' ∈ cm'.entries)
    (hlsn : f.lsn = f'.lsn) : f = f' := by
  have hlead := leader_isSome_of_commit hsim hcm'
  have hp := hsim.inv.leader_completeness (groupQuorum_inter g) hcm hle hlead
  have hp' := hsim.inv.leader_completeness (groupQuorum_inter g) hcm' le_rfl hlead
  rw [hkey] at hp
  exact eq_of_lsn_eq (hsim.inv.leadOk cm'.term cm'.key).wellFormed (hp.subset hf)
    (hp'.subset hf') hlsn

/-- In every reachable world the frames that a leader reported as committed are a prefix of the log
of every winner of a later term and of every node that leads a later term now, and frames published
anywhere at one LSN of a collection are the same frame. -/
theorem commit_safety [DecidableEq ι] [DecidableEq β] (g : Cluster ι) {w : World ι β}
    (h : Reachable (· = initialWorld g) (step g) w) :
    (∀ r ∈ w.reports, ∀ x ∈ w.won, r.term < x.term → r.frames <+: x.logs r.collection) ∧
    (∀ r ∈ w.reports, ∀ i, (w.nodes i).isLeader = true → r.term ≤ (w.nodes i).term →
      r.frames <+: ((w.nodes i).cols r.collection).frames) ∧
    ∀ c f f', (c, f) ∈ w.published → (c, f') ∈ w.published → f.lsn = f'.lsn → f = f' := by
  obtain ⟨a, hsim⟩ := exists_sim h
  refine ⟨fun r hr x hx hlt => ?_, fun r hr i hl hle => ?_, fun c f f' hf hf' hlsn => ?_⟩
  · rcases hsim.records.reports r hr with hnil | ⟨cm, hcm, hkey, ht, hp⟩
    · simp [hnil]
    · exact hp.trans (hkey ▸ commit_prefix_won hsim hcm hx (by omega))
  · rcases hsim.records.reports r hr with hnil | ⟨cm, hcm, hkey, ht, hp⟩
    · simp [hnil]
    · have hlead : (a.leader (w.nodes i).term).isSome := by simp [(hsim.nodes i).leader hl]
      have := hsim.inv.leader_completeness (groupQuorum_inter g) hcm (by omega) hlead
      rw [hsim.leaderLog_eq hl, hkey] at this
      exact hp.trans this
  · obtain ⟨cm, hcm, hkey, hfm⟩ := hsim.records.published _ hf
    obtain ⟨cm', hcm', hkey', hfm'⟩ := hsim.records.published _ hf'
    rcases Nat.le_total cm.term cm'.term with hle | hle
    · exact committed_frame_unique hsim hcm hcm' (hkey.trans hkey'.symm) hle hfm hfm' hlsn
    · exact (committed_frame_unique hsim hcm' hcm
        (hkey'.trans hkey.symm) hle hfm' hfm hlsn.symm).symm

/-- Three nodes, of which `a` boots as primary. -/
def threeMembers : Cluster (Fin 3) where
  toNodeGroup := Election.threeNodes
  primary := some 0
  member := 0
  member_voter := by decide

/-- Node `a` commits a frame with `b`, goes down, and `b` wins term 1 with the vote of `c`. -/
def commitThenFailover : List (Label (Fin 3) ℕ) :=
  [.append 0 ['d'] 7, .noteAppend 0 ['d'] 1, .send 0 ['d'] 0 1, .deliver 1 0 1,
    .ack 0 1 ['b'] ['d'] 1 1, .crash 0 (fun _ => 1), .sample 1, .stand 1, .vote 2 0 false,
    .countVote 1 2 ['c'], .becomeLeader 1]

theorem commit_safety_failover :
    ∃ w : World (Fin 3) ℕ,
      run (step threeMembers) (initialWorld threeMembers) commitThenFailover = some w ∧
      w.reports.map Report.frames = [[⟨0, 1, 0, 0, 7⟩]] ∧ w.won.map Won.term = [1] ∧
      ∀ x ∈ w.won, [⟨0, 1, 0, 0, 7⟩] <+: x.logs ['d'] := by
  have hout : (run (step threeMembers) (initialWorld threeMembers) commitThenFailover).any (fun w =>
      decide (w.reports.map (fun r => (r.term, r.collection, r.frames)) =
        [(0, ['d'], [⟨0, 1, 0, 0, 7⟩])]) && decide (w.won.map Won.term = [1])) = true := by
    decide
  obtain ⟨w, hrun, hw⟩ := (Option.any_eq_true _ _).mp hout
  simp only [Bool.and_eq_true, decide_eq_true_eq] at hw
  obtain ⟨hreports, hwon⟩ := hw
  obtain ⟨r, hr, hrest⟩ := List.map_eq_singleton_iff.mp hreports
  simp only [Prod.mk.injEq] at hrest
  obtain ⟨ht, hc, hf⟩ := hrest
  refine ⟨w, hrun, by simp [hr, hf], hwon, fun x hx => ?_⟩
  have hxt : x.term = 1 := by
    have : x.term ∈ w.won.map Won.term := List.mem_map_of_mem hx
    simpa [hwon] using this
  have := (commit_safety threeMembers ⟨_, commitThenFailover, rfl, hrun⟩).1 r
    (by simp [hr]) x hx (by omega)
  rwa [hf, hc] at this

end DewDB.CommitSafety
