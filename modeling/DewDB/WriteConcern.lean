import DewDB.QuorumKeys

/-!
# Write concerns

How many acknowledgements a write needs before its client hears success. A count is one of nodes
that hold the frame, the leader among them; a majority is decided by the configuration in force.
-/
namespace DewDB.Concern

open Endpoint QuorumConfig MajorityOverlap

inductive WriteConcern where
  | local'
  | majority
  | all
  | n (acks : ℕ)

/-- `str::parse::<usize>`. -/
def parseUsize (s : List Char) : Option ℕ :=
  let digits := match s with
    | '+' :: rest => rest
    | _ => s
  if digits.isEmpty || !digits.all Char.isDigit then none
  else
    let n := digits.foldl (fun n c => 10 * n + (c.toNat - '0'.toNat)) 0
    if n < 2 ^ 64 then some n else none

def parseWriteConcern : Option (List Char) → Option WriteConcern
  | none => some .local'
  | some s =>
    if s = ['1'] then some .local'
    else if s = "majority".toList then some .majority
    else if s = "all".toList then some .all
    else (parseUsize s).map .n

def requiredAcks (wc : WriteConcern) (replicaCount : ℕ) : ℕ :=
  let total := 1 + replicaCount
  match wc with
  | .local' => 1
  | .majority => total / 2 + 1
  | .all => total
  | .n acks => min (max acks 1) total

inductive WriteQuorum where
  | count (n : ℕ)
  | majority (config : Configuration)

def writeQuorum (wc : WriteConcern) (config : Configuration) : WriteQuorum :=
  match wc with
  | .majority => .majority config
  | other => .count (requiredAcks other (config.members.length - 1))

def WriteQuorum.met (q : WriteQuorum) (holders : List Url) : Bool :=
  match q with
  | .count n => decide (n ≤ holders.length)
  | .majority config => config.hasQuorum holders

theorem keys_members (config : Configuration) :
    keys config.members = keys (config.voters ++ config.outgoing.getD []) := by
  rw [Configuration.members, keys_canonicalOnto]
  simp [keys]

theorem keys_subset_members {config : Configuration} {half : List Url} (h : half ∈ config.halves) :
    keys half ⊆ keys config.members := by
  rw [keys_members]
  intro k hk
  obtain ⟨u, hu, rfl⟩ := mem_keys.mp hk
  refine mem_keys.mpr ⟨u, List.mem_append.mpr ?_, rfl⟩
  rcases List.mem_cons.mp h with rfl | h
  · exact .inl hu
  · exact .inr (by rwa [Option.getD_eq_iff.mpr (.inl (Option.mem_toList.mp h))])

theorem hasQuorum_of_keys {config : Configuration} {holders : List Url}
    (h : keys config.members ⊆ keys holders) : config.hasQuorum holders = true := by
  apply hasQuorum_halves.mpr
  intro half hhalf
  rw [halfHasQuorum_keys]
  by_cases hempty : keys half = ∅
  · exact .inl hempty
  · right
    have hpos : 0 < (keys half).card :=
      Finset.card_pos.mpr (Finset.nonempty_iff_ne_empty.mpr hempty)
    rw [IsMajority, Finset.inter_eq_left.mpr ((keys_subset_members hhalf).trans h)]
    omega

theorem keys_of_met_all {config : Configuration} {holders : List Url}
    (hmet : (writeQuorum .all config).met holders = true) (hnodup : (holders.map nodeKey).Nodup)
    (hmembers : ∀ u ∈ holders, config.contains u = true) : keys config.members ⊆ keys holders := by
  have hlen : config.members.length ≤ holders.length := by
    simp only [writeQuorum, WriteQuorum.met, requiredAcks, decide_eq_true_eq] at hmet
    omega
  have hcard : (keys holders).card = holders.length := by
    rw [keys, List.toFinset_card_of_nodup hnodup, List.length_map]
  have hsub : keys holders ⊆ keys config.members := by
    intro k hk
    obtain ⟨u, hu, rfl⟩ := mem_keys.mp hk
    obtain ⟨m, hm, hmu⟩ := List.any_eq_true.mp (hmembers u hu)
    exact mem_keys.mpr ⟨m, hm, sameEndpoint_iff.mp hmu⟩
  have hle : (keys config.members).card ≤ (keys holders).card := by
    have := List.toFinset_card_le (config.members.map nodeKey)
    rw [List.length_map] at this
    rw [hcard, keys]
    omega
  rw [Finset.eq_of_subset_of_card_le hsub hle]

end DewDB.Concern
