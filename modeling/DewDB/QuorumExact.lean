import DewDB.LeaderProgress
import DewDB.QuorumKeys
import Mathlib.Order.Bounds.Defs

/-!
# How exact the quorum LSN is

Each half looks up what its nodes hold under the first spelling that it has of them, while a quorum
counts a node under any. Where the first spellings tell all that counts, the quorum LSN is the
greatest LSN that a quorum holds. Acknowledgements are recorded under the spelling a frame was sent
to, so a node that the two halves spell differently is short in one of them.
-/
namespace DewDB.QuorumConfig

open Endpoint LeaderProgress Majority

variable {c : Configuration} {held held' : Url → ℕ} {half : List Url} {lsn : ℕ}

def Configuration.holding (c : Configuration) (held : Url → ℕ) (lsn : ℕ) : List Url :=
  (c.voters ++ c.outgoing.getD []).filter fun v => lsn ≤ held v

/-- Where the voters that hold an LSN are a quorum, so are those that hold it under the first
spelling that a half has of them. -/
def Configuration.FirstSpellingsTell (c : Configuration) (held : Url → ℕ) : Prop :=
  ∀ lsn, c.hasQuorum (c.holding held lsn) = true →
    ∀ half ∈ c.halves, halfHasQuorum half ((distinct half).filter fun v => lsn ≤ held v) = true

theorem mem_holding {v : Url} :
    v ∈ c.holding held lsn ↔ (∃ half ∈ c.halves, v ∈ half) ∧ lsn ≤ held v := by
  have hmem : v ∈ c.voters ++ c.outgoing.getD [] ↔ ∃ half ∈ c.halves, v ∈ half := by
    cases hout : c.outgoing <;> simp [Configuration.halves, hout]
  rw [Configuration.holding, List.mem_filter, hmem, decide_eq_true_eq]

theorem halfHasQuorum_mono {granted granted' : List Url} (hsub : ∀ v ∈ granted, v ∈ granted')
    (h : halfHasQuorum half granted = true) : halfHasQuorum half granted' = true := by
  rw [halfHasQuorum_iff] at h ⊢
  refine h.imp_right (.mono fun v _ hany => ?_)
  obtain ⟨g, hg, hsame⟩ := List.any_eq_true.mp hany
  exact List.any_eq_true.mpr ⟨g, hsub g hg, hsame⟩

theorem eq_of_mem_distinct {u v : Url} (hu : u ∈ distinct half) (hv : v ∈ distinct half)
    (h : sameEndpoint u v = true) : u = v :=
  List.inj_on_of_nodup_map (nodup_distinct half) hu hv (sameEndpoint_iff.mp h)

theorem halfHasQuorum_kept (hne : half ≠ []) (p : Url → Bool) :
    halfHasQuorum half ((distinct half).filter p) = true ↔ HasMajority (distinct half) p := by
  have hd : distinct half ≠ [] := fun h => hne (distinct_eq_nil.mp h)
  have hany : ∀ v ∈ distinct half, ((distinct half).filter p).any (fun g => sameEndpoint g v) =
    true ↔ p v = true := by
    intro v hv
    rw [List.any_eq_true]
    constructor
    · rintro ⟨g, hg, hsame⟩
      obtain ⟨hmem, hp⟩ := List.mem_filter.mp hg
      rwa [eq_of_mem_distinct hmem hv hsame] at hp
    · intro hp
      exact ⟨v, List.mem_filter.mpr ⟨hv, hp⟩, sameEndpoint_refl v⟩
  rw [halfHasQuorum_iff, or_iff_right hd]
  constructor
  · exact .mono fun v hv => (hany v hv).mp
  · exact .mono fun v hv => (hany v hv).mpr

theorem le_halfQuorumLsn_iff (hne : half ≠ []) : lsn ≤ halfQuorumLsn half held ↔
    HasMajority (distinct half) fun v => decide (lsn ≤ held v) := by
  have hd : distinct half ≠ [] := fun h => hne (distinct_eq_nil.mp h)
  have hpos : 0 < (distinct half).length := List.length_pos_iff.mpr hd
  constructor
  · intro hle
    refine ((halfQuorumLsn_spec half held).resolve_left hd).mono fun v _ hv => ?_
    rw [decide_eq_true_eq] at hv ⊢
    exact Nat.le_trans hle hv
  · intro hmaj
    have hk : majority (distinct half).length - 1 <
      (sortedDown ((distinct half).map held)).length := by
      rw [length_sortedDown, List.length_map, majority]
      omega
    have hval : halfQuorumLsn half held =
        (sortedDown ((distinct half).map held))[majority (distinct half).length - 1] := by
      simp [halfQuorumLsn, hd, List.getD_eq_getElem?_getD, List.getElem?_eq_getElem hk]
    rw [hval]
    apply le_sortedDown_of_countP hk
    rw [List.countP_map]
    simpa [HasMajority, majority, Function.comp_def] using hmaj

theorem le_quorumLsn_iff (hne : ∀ half ∈ c.halves, half ≠ []) : lsn ≤ c.quorumLsn held ↔
    ∀ half ∈ c.halves, halfHasQuorum half ((distinct half).filter fun v =>
      lsn ≤ held v) = true := by
  have hhalf : ∀ half ∈ c.halves, (lsn ≤ halfQuorumLsn half held ↔
      halfHasQuorum half ((distinct half).filter fun v => lsn ≤ held v) = true) := by
    intro half hmem
    rw [le_halfQuorumLsn_iff (hne half hmem), halfHasQuorum_kept (hne half hmem)]
  have hmin : lsn ≤ c.quorumLsn held ↔ ∀ half ∈ c.halves, lsn ≤ halfQuorumLsn half held := by
    cases hout : c.outgoing with
    | none => simp [Configuration.quorumLsn, Configuration.halves, hout]
    | some old => simp [Configuration.quorumLsn, Configuration.halves, hout]
  rw [hmin]
  constructor
  · exact fun h half hmem => (hhalf half hmem).mp (h half hmem)
  · exact fun h half hmem => (hhalf half hmem).mpr (h half hmem)

theorem quorumLsn_mono (hne : ∀ half ∈ c.halves, half ≠ []) : Monotone c.quorumLsn := by
  intro held held' hle
  apply (le_quorumLsn_iff hne).mpr
  intro half hmem
  have hquorum := (@le_quorumLsn_iff _ held _ hne).mp (Nat.le_refl _) half hmem
  apply halfHasQuorum_mono _ hquorum
  intro v hv
  obtain ⟨hv, hheld⟩ := List.mem_filter.mp hv
  rw [decide_eq_true_eq] at hheld
  exact List.mem_filter.mpr ⟨hv, by simpa using Nat.le_trans hheld (hle v)⟩

theorem quorumLsn_held (hne : ∀ half ∈ c.halves, half ≠ []) :
    c.hasQuorum (c.holding held (c.quorumLsn held)) = true := by
  apply hasQuorum_halves.mpr
  intro half hmem
  have hquorum := (@le_quorumLsn_iff _ held _ hne).mp (Nat.le_refl _) half hmem
  apply halfHasQuorum_mono _ hquorum
  intro v hv
  obtain ⟨hv, hheld⟩ := List.mem_filter.mp hv
  exact mem_holding.mpr ⟨⟨half, hmem, mem_of_mem_distinct hv⟩, by simpa using hheld⟩

/-- First spellings tell where what a node holds does not depend on its spelling. -/
theorem firstSpellingsTell_of_same (hsame : ∀ u v, sameEndpoint u v = true → held u = held v) :
    c.FirstSpellingsTell held := by
  intro lsn hquorum half hmem
  have hhalf := hasQuorum_halves.mp hquorum half hmem
  rw [halfHasQuorum_iff] at hhalf ⊢
  refine hhalf.imp_right (.mono fun v hv hany => ?_)
  obtain ⟨g, hg, hgv⟩ := List.any_eq_true.mp hany
  have hheld := (mem_holding.mp hg).2
  rw [hsame g v hgv] at hheld
  exact List.any_eq_true.mpr ⟨v, List.mem_filter.mpr ⟨hv, by simpa using hheld⟩,
    sameEndpoint_refl v⟩

/-- The quorum LSN is the greatest that a quorum of the voters holds, and grows with what they hold,
exactly where the first spellings tell. -/
theorem quorumLsn_greatest_iff (c : Configuration) (held : Url → ℕ)
    (hne : ∀ half ∈ c.halves, half ≠ []) :
    (IsGreatest {lsn | c.hasQuorum (c.holding held lsn) = true} (c.quorumLsn held) ∧
      Monotone c.quorumLsn) ↔ c.FirstSpellingsTell held := by
  constructor
  · rintro ⟨⟨-, hupper⟩, -⟩ lsn hquorum
    exact (le_quorumLsn_iff hne).mp (hupper hquorum)
  · intro htell
    refine ⟨⟨quorumLsn_held hne, fun lsn hquorum => ?_⟩, quorumLsn_mono hne⟩
    exact (le_quorumLsn_iff hne).mpr (htell lsn hquorum)

/-- A joint configuration of three nodes and two of them. -/
theorem quorumLsn_greatest_joint :
    IsGreatest {lsn | (Configuration.mk [['a'], ['b'], ['c']] (some [['b'], ['c']])).hasQuorum
      ((Configuration.mk [['a'], ['b'], ['c']] (some [['b'], ['c']])).holding
        (fun v => if nodeKey v = ['b'] then 4 else 7) lsn) = true}
      ((Configuration.mk [['a'], ['b'], ['c']] (some [['b'], ['c']])).quorumLsn
        fun v => if nodeKey v = ['b'] then 4 else 7) :=
  ((quorumLsn_greatest_iff ⟨[['a'], ['b'], ['c']], some [['b'], ['c']]⟩
    (fun v => if nodeKey v = ['b'] then 4 else 7) (by decide)).mpr
      (firstSpellingsTell_of_same fun u v h => by simp only [sameEndpoint_iff.mp h])).1

/-- The leader `l` and one replica, which the new half spells `a` and the old half `A`. The replica
has acknowledged LSN 5, as `a`. Both nodes hold it, and the quorum LSN is 0. -/
theorem quorumLsn_misses_respelled :
    ¬IsGreatest {lsn | (Configuration.mk [['l'], ['a']] (some [['l'], ['A']])).hasQuorum
      ((Configuration.mk [['l'], ['a']] (some [['l'], ['A']])).holding
        ((Progress.new.observeAck ['a'] ['c'] 5).heldBy ['c'] ['l'] 5) lsn) = true}
      ((Configuration.mk [['l'], ['a']] (some [['l'], ['A']])).quorumLsn
        ((Progress.new.observeAck ['a'] ['c'] 5).heldBy ['c'] ['l'] 5)) := by
  rintro ⟨-, hupper⟩
  have hheld : (Configuration.mk [['l'], ['a']] (some [['l'], ['A']])).hasQuorum
      ((Configuration.mk [['l'], ['a']] (some [['l'], ['A']])).holding
        ((Progress.new.observeAck ['a'] ['c'] 5).heldBy ['c'] ['l'] 5) 5) = true := by decide
  have hzero : (Configuration.mk [['l'], ['a']] (some [['l'], ['A']])).quorumLsn
      ((Progress.new.observeAck ['a'] ['c'] 5).heldBy ['c'] ['l'] 5) = 0 := by decide
  have hle := hupper hheld
  rw [hzero] at hle
  cases hle

end DewDB.QuorumConfig
