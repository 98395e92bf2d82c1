import DewDB.Endpoint
import DewDB.Majority

/-!
# Quorum arithmetic over a configuration

A decision needs a majority of each half of a joint configuration. `hasQuorum_inter` and
`quorumLsn_spec` are the two facts the elections and the commit rule rest on.
-/
namespace DewDB.QuorumConfig

open Endpoint Majority

structure Configuration where
  voters : List Url
  outgoing : Option (List Url)
  deriving DecidableEq

/-- Drops an entry that names a node `seen` or an earlier entry already names. -/
def distinctAfter (seen : List Url) : List Url → List Url
  | [] => []
  | v :: vs =>
    if seen.any (fun w => sameEndpoint w v) then distinctAfter (seen ++ [v]) vs
    else v :: distinctAfter (seen ++ [v]) vs

/-- The physical nodes a voter slice names, first spelling of each kept. -/
def distinct (voters : List Url) : List Url := distinctAfter [] voters

def voterCount (voters : List Url) : ℕ := (distinct voters).length

def majority (clusterSize : ℕ) : ℕ := clusterSize / 2 + 1

def halfQuorumLsn (voters : List Url) (held : Url → ℕ) : ℕ :=
  let lsns := (distinct voters).map held
  if lsns.isEmpty then 0 else (sortedDown lsns).getD (majority lsns.length - 1) 0

def halfHasQuorum (voters granted : List Url) : Bool :=
  let total := voterCount voters
  if total = 0 then true
  else
    let count := (distinct voters).countP fun v => granted.any fun g => sameEndpoint g v
    decide (majority total ≤ count)

/-- Appends the entries of a list that name no node of `out` yet. -/
def canonicalOnto (out : List Url) : List Url → List Url
  | [] => out
  | url :: urls =>
    if out.any (fun u => sameEndpoint u url) then canonicalOnto out urls
    else canonicalOnto (out ++ [url]) urls

def canonical (voters : List Url) : List Url := canonicalOnto [] voters

def simple (voters : List Url) : Configuration := ⟨canonical voters, none⟩

def joint (outgoing voters : List Url) : Configuration :=
  ⟨canonical voters, some (canonical outgoing)⟩

def Configuration.members (c : Configuration) : List Url :=
  canonicalOnto [] (c.voters ++ c.outgoing.getD [])

def Configuration.contains (c : Configuration) (url : Url) : Bool :=
  c.members.any fun m => sameEndpoint m url

def Configuration.hasQuorum (c : Configuration) (granted : List Url) : Bool :=
  halfHasQuorum c.voters granted &&
    match c.outgoing with
    | some old => halfHasQuorum old granted
    | none => true

def Configuration.quorumLsn (c : Configuration) (held : Url → ℕ) : ℕ :=
  let new := halfQuorumLsn c.voters held
  match c.outgoing with
  | some old => min new (halfQuorumLsn old held)
  | none => new

/-- A majority of each half, by a predicate on the nodes the halves name. Both halves may be empty,
and then every predicate passes; a configuration with a member has no such pass. -/
def Configuration.Quorum (c : Configuration) (p : Url → Bool) : Prop :=
  (distinct c.voters = [] ∨ HasMajority (distinct c.voters) p) ∧
    ∀ old, c.outgoing = some old → distinct old = [] ∨ HasMajority (distinct old) p

theorem distinctAfter_sublist (seen voters : List Url) :
    (distinctAfter seen voters).Sublist voters := by
  induction voters generalizing seen with
  | nil => simp [distinctAfter]
  | cons v vs ih =>
    simp only [distinctAfter]
    split
    · exact (ih _).trans (List.sublist_cons_self v vs)
    · exact (ih _).cons_cons v

theorem distinct_eq_nil {voters : List Url} : distinct voters = [] ↔ voters = [] := by
  cases voters with
  | nil => simp [distinct, distinctAfter]
  | cons v vs => simp [distinct, distinctAfter]

theorem mem_of_mem_distinct {voters : List Url} {v : Url} (h : v ∈ distinct voters) : v ∈ voters :=
  (distinctAfter_sublist [] voters).subset h

theorem any_canonicalOnto {out urls : List Url} {url : Url} :
    (canonicalOnto out urls).any (fun m => sameEndpoint m url) = true ↔
      out.any (fun m => sameEndpoint m url) = true ∨
        urls.any (fun m => sameEndpoint m url) = true := by
  induction urls generalizing out with
  | nil => simp [canonicalOnto]
  | cons v vs ih =>
    simp only [canonicalOnto, List.any_cons, Bool.or_eq_true]
    split
    next hdup =>
      rw [ih]
      constructor
      · rintro (h | h)
        · exact .inl h
        · exact .inr (.inr h)
      · rintro (h | h | h)
        · exact .inl h
        · obtain ⟨w, hw, hwv⟩ := List.any_eq_true.mp hdup
          exact .inl (List.any_eq_true.mpr ⟨w, hw, sameEndpoint_trans hwv h⟩)
        · exact .inr h
    next => simp [ih, or_assoc]

theorem contains_iff {c : Configuration} {url : Url} :
    c.contains url = true ↔
      ∃ m, (m ∈ c.voters ∨ m ∈ c.outgoing.getD []) ∧ sameEndpoint m url = true := by
  simp only [Configuration.contains, Configuration.members, any_canonicalOnto]
  simp [or_and_right, exists_or]

theorem halfHasQuorum_iff {voters granted : List Url} :
    halfHasQuorum voters granted = true ↔
      distinct voters = [] ∨
        HasMajority (distinct voters) fun v => granted.any fun g => sameEndpoint g v := by
  unfold halfHasQuorum voterCount
  by_cases h : distinct voters = []
  · simp [h]
  · have : (distinct voters).length ≠ 0 := by simpa using h
    simp only [this, if_false, h, false_or, HasMajority, majority]
    exact decide_eq_true_iff

theorem hasQuorum_iff {c : Configuration} {granted : List Url} :
    c.hasQuorum granted = true ↔
      c.Quorum fun v => granted.any fun g => sameEndpoint g v := by
  cases hout : c.outgoing with
  | none => simp [Configuration.hasQuorum, Configuration.Quorum, hout, halfHasQuorum_iff]
  | some old => simp [Configuration.hasQuorum, Configuration.Quorum, hout, halfHasQuorum_iff]

theorem Configuration.Quorum.inter {c : Configuration} {p q : Url → Bool} {url : Url}
    (hmem : c.contains url = true) (hp : c.Quorum p) (hq : c.Quorum q) :
    ∃ v, (v ∈ c.voters ∨ v ∈ c.outgoing.getD []) ∧ p v = true ∧ q v = true := by
  have half : ∀ voters : List Url, voters ≠ [] →
      (distinct voters = [] ∨ HasMajority (distinct voters) p) →
      (distinct voters = [] ∨ HasMajority (distinct voters) q) →
      ∃ v ∈ voters, p v = true ∧ q v = true := by
    intro voters hne hpv hqv
    have hd : distinct voters ≠ [] := fun h => hne (distinct_eq_nil.mp h)
    obtain ⟨v, hv, hvpq⟩ := (hpv.resolve_left hd).inter (hqv.resolve_left hd)
    exact ⟨v, mem_of_mem_distinct hv, hvpq⟩
  obtain ⟨m, hm | hm, -⟩ := contains_iff.mp hmem
  · obtain ⟨v, hv, h⟩ := half c.voters (List.ne_nil_of_mem hm) hp.1 hq.1
    exact ⟨v, .inl hv, h⟩
  · cases hout : c.outgoing with
    | none => simp [hout] at hm
    | some old =>
      have hm' : m ∈ old := by simpa [hout] using hm
      obtain ⟨v, hv, h⟩ := half old (List.ne_nil_of_mem hm') (hp.2 old hout) (hq.2 old hout)
      exact ⟨v, .inr (by simpa using hv), h⟩

theorem Configuration.Quorum.mono {c : Configuration} {p q : Url → Bool}
    (h : ∀ v, p v = true → q v = true) (hp : c.Quorum p) : c.Quorum q :=
  ⟨hp.1.imp_right (.mono fun v _ => h v), fun old hold => (hp.2 old hold).imp_right
    (.mono fun v _ => h v)⟩

theorem halfQuorumLsn_spec (voters : List Url) (held : Url → ℕ) :
    distinct voters = [] ∨
      HasMajority (distinct voters) fun v => decide (halfQuorumLsn voters held ≤ held v) := by
  by_cases hd : distinct voters = []
  · exact .inl hd
  · right
    have hpos : 0 < (distinct voters).length := List.length_pos_iff.mpr hd
    have hk : majority (distinct voters).length - 1 <
        (sortedDown ((distinct voters).map held)).length := by
      simp only [length_sortedDown, List.length_map, majority]
      omega
    have hcount := succ_le_countP_sortedDown hk
    have hval : halfQuorumLsn voters held =
        (sortedDown ((distinct voters).map held))[majority (distinct voters).length - 1] := by
      simp [halfQuorumLsn, hd, List.getD_eq_getElem?_getD, List.getElem?_eq_getElem hk]
    rw [List.countP_map] at hcount
    simp only [HasMajority, hval]
    simpa [majority, Function.comp_def] using hcount

theorem quorumLsn_spec (c : Configuration) (held : Url → ℕ) :
    c.Quorum fun v => decide (c.quorumLsn held ≤ held v) := by
  have hle : c.quorumLsn held ≤ halfQuorumLsn c.voters held := by
    cases hout : c.outgoing <;> simp [Configuration.quorumLsn, hout]
  have hmono : ∀ {a b : ℕ}, a ≤ b → ∀ v : Url,
      decide (b ≤ held v) = true → decide (a ≤ held v) = true := by
    intro a b hab v hv
    simp only [decide_eq_true_eq] at hv ⊢
    omega
  refine ⟨(halfQuorumLsn_spec c.voters held).imp_right (.mono fun v _ => hmono hle v), ?_⟩
  intro old hout
  have hle' : c.quorumLsn held ≤ halfQuorumLsn old held := by
    simp [Configuration.quorumLsn, hout]
  exact (halfQuorumLsn_spec old held).imp_right (.mono fun v _ => hmono hle' v)

theorem halfQuorumLsn_mem (voters : List Url) (held : Url → ℕ) :
    halfQuorumLsn voters held = 0 ∨ ∃ v ∈ voters, held v = halfQuorumLsn voters held := by
  unfold halfQuorumLsn
  dsimp only
  split_ifs with hempty
  · exact .inl rfl
  · generalize majority ((distinct voters).map held).length - 1 = k
    rw [List.getD_eq_getElem?_getD]
    cases hget : (sortedDown ((distinct voters).map held))[k]? with
    | none => exact .inl rfl
    | some n =>
      have hmem : n ∈ (distinct voters).map held :=
        (List.mem_insertionSort _).mp (List.mem_of_getElem? hget)
      obtain ⟨v, hv, rfl⟩ := List.mem_map.mp hmem
      exact .inr ⟨v, mem_of_mem_distinct hv, rfl⟩

theorem quorumLsn_mem (c : Configuration) (held : Url → ℕ) :
    c.quorumLsn held = 0 ∨
      ∃ v, (v ∈ c.voters ∨ v ∈ c.outgoing.getD []) ∧ held v = c.quorumLsn held := by
  have hnew := halfQuorumLsn_mem c.voters held
  cases hout : c.outgoing with
  | none =>
    simp only [Configuration.quorumLsn, hout]
    exact hnew.imp_right fun ⟨v, hv, h⟩ => ⟨v, .inl hv, h⟩
  | some old =>
    have hold := halfQuorumLsn_mem old held
    simp only [Configuration.quorumLsn, hout, Option.getD_some]
    rcases Nat.le_total (halfQuorumLsn c.voters held) (halfQuorumLsn old held) with h | h
    · rw [Nat.min_eq_left h]
      exact hnew.imp_right fun ⟨v, hv, h⟩ => ⟨v, .inl hv, h⟩
    · rw [Nat.min_eq_right h]
      exact hold.imp_right fun ⟨v, hv, h⟩ => ⟨v, .inr hv, h⟩

end DewDB.QuorumConfig
