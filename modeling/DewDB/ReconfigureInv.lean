import DewDB.Reconfigure

/-!
# One change at a time

Every log is a chain: each entry follows the one before it as a change allows, and was appended when
all before it had committed. Neighbours in the chain, and two successors of one entry, share a half,
so their quorums meet.
-/
namespace DewDB.Reconfigure

open Endpoint Majority QuorumConfig MajorityOverlap TransitionSystem

variable {ι : Type} {g : ShardGroup ι} {w : World ι} {i : ι} {n : ConfigNode}

def Peopled (c : Configuration) : Prop := ∀ half ∈ c.halves, half ≠ []

/-- How a configuration may follow another: the joint entry keeps the voters as its outgoing half,
and the entry that ends it names the nodes of its incoming half. -/
def Follows (c c' : Configuration) : Prop :=
  Peopled c' ∧
    ((c.outgoing = none ∧ ∃ old, c'.outgoing = some old ∧ keys old = keys c.voters) ∨
      (c.outgoing.isSome = true ∧ c'.outgoing = none ∧ keys c'.voters = keys c.voters))

theorem voters_mem_halves (c : Configuration) : c.voters ∈ c.halves := by
  simp [Configuration.halves]

theorem outgoing_mem_halves {c : Configuration} {old : List Url} (h : c.outgoing = some old) :
    old ∈ c.halves := by
  simp [Configuration.halves, h]

theorem Follows.shared {c c' : Configuration} (h : Follows c c') :
    ∃ half ∈ c'.halves, half ≠ [] ∧ keys half = keys c.voters := by
  obtain ⟨hpeopled, ⟨-, old, hold, hkeys⟩ | ⟨-, -, hkeys⟩⟩ := h
  · exact ⟨old, outgoing_mem_halves hold, hpeopled old (outgoing_mem_halves hold), hkeys⟩
  · exact ⟨c'.voters, voters_mem_halves c', hpeopled _ (voters_mem_halves c'), hkeys⟩

theorem meets_of_shared {c c' : Configuration} {half half' : List Url} (h : half ∈ c.halves)
    (h' : half' ∈ c'.halves) (hne : half ≠ []) (hne' : half' ≠ [])
    (hkeys : keys half = keys half') : c.Meets c' :=
  Configuration.meets_of_overlap h h' hne hne' (hkeys ▸ Overlap.refl _)

theorem Peopled.meets_self {c : Configuration} (h : Peopled c) : c.Meets c :=
  meets_of_shared (voters_mem_halves c) (voters_mem_halves c) (h _ (voters_mem_halves c))
    (h _ (voters_mem_halves c)) rfl

theorem Follows.meets {c c' : Configuration} (hc : Peopled c) (h : Follows c c') : c.Meets c' := by
  obtain ⟨half, hmem, hne, hkeys⟩ := h.shared
  exact meets_of_shared (voters_mem_halves c) hmem (hc _ (voters_mem_halves c)) hne hkeys.symm

theorem Follows.meets_sibling {c c₁ c₂ : Configuration} (h₁ : Follows c c₁) (h₂ : Follows c c₂) :
    c₁.Meets c₂ := by
  obtain ⟨half₁, hmem₁, hne₁, hkeys₁⟩ := h₁.shared
  obtain ⟨half₂, hmem₂, hne₂, hkeys₂⟩ := h₂.shared
  exact meets_of_shared hmem₁ hmem₂ hne₁ hne₂ (hkeys₁.trans hkeys₂.symm)

def IsCommitted (w : World ι) (p : ConfigLog) : Prop := p = [] ∨ ∃ q ∈ w.committed, p <+: q

/-- Each entry follows what is below it, all of which had committed. -/
def Chained (g : ShardGroup ι) (w : World ι) (log : ConfigLog) : Prop :=
  ∀ p e, p ++ [e] <+: log → Follows (configOf g p) e.config ∧ IsCommitted w p

theorem Chained.nil : Chained g w [] := by
  intro p e h
  simp at h

theorem Chained.shorten {log log' : ConfigLog} (h : Chained g w log) (hp : log' <+: log) :
    Chained g w log' :=
  fun p e hpe => h p e (hpe.trans hp)

theorem Chained.append {log : ConfigLog} {e : ConfigEntry} (h : Chained g w log)
    (hfollows : Follows (configOf g log) e.config) (hcommitted : IsCommitted w log) :
    Chained g w (log ++ [e]) := by
  intro p e' hpe
  by_cases hlen : (p ++ [e']).length ≤ log.length
  · exact h p e' (List.prefix_of_prefix_length_le hpe (List.prefix_append log [e]) hlen)
  · have heq : p ++ [e'] = log ++ [e] := hpe.eq_of_length_le (by simp at hlen ⊢; omega)
    obtain ⟨rfl, he⟩ := List.append_inj' heq rfl
    obtain rfl : e' = e := by simpa using he
    exact ⟨hfollows, hcommitted⟩

theorem Chained.dropLast {log : ConfigLog} (h : Chained g w log) : IsCommitted w log.dropLast := by
  cases hlog : log.getLast? with
  | none =>
    rw [List.getLast?_eq_none_iff] at hlog
    exact .inl (by simp [hlog])
  | some e =>
    have hsplit : log.dropLast ++ [e] = log := List.dropLast_append_getLast? e hlog
    exact (h log.dropLast e (by rw [hsplit])).2

theorem configOf_append (g : ShardGroup ι) (p : ConfigLog) (e : ConfigEntry) :
    configOf g (p ++ [e]) = e.config := by
  simp [configOf]

theorem Chained.follows {log : ConfigLog} (h : Chained g w log) (hne : log ≠ []) :
    Follows (configOf g log.dropLast) (configOf g log) := by
  obtain ⟨e, hlast⟩ := Option.ne_none_iff_exists'.mp (mt List.getLast?_eq_none_iff.mp hne)
  have hsplit : log.dropLast ++ [e] = log := List.dropLast_append_getLast? e hlast
  have hfollows := (h log.dropLast e (by rw [hsplit])).1
  rwa [← configOf_append g log.dropLast e, hsplit] at hfollows

theorem Chained.peopled {log : ConfigLog} (h : Chained g w log) : Peopled (configOf g log) := by
  by_cases hne : log = []
  · subst hne
    have hvoters : canonical g.voters ≠ [] := by
      intro hnil
      have hkeys := keys_canonical g.voters
      rw [hnil] at hkeys
      exact g.voters_ne (by simpa [keys] using hkeys.symm)
    intro half hhalf
    obtain rfl : half = canonical g.voters := by
      simpa [configOf, Configuration.halves, simple] using hhalf
    exact hvoters
  · exact (h.follows hne).1

/-- Two logs, each holding all but the newest entry of the other, are at most one entry apart. -/
theorem dropLast_cases {p q : ConfigLog} (hp : p.dropLast <+: q) (hq : q.dropLast <+: p) :
    p = q ∨ (p ≠ [] ∧ p.dropLast = q) ∨ (q ≠ [] ∧ q.dropLast = p) ∨
      (p ≠ [] ∧ q ≠ [] ∧ p.dropLast = q.dropLast) := by
  have hlp := hp.length_le
  have hlq := hq.length_le
  simp only [List.length_dropLast] at hlp hlq
  by_cases hpn : p = []
  · subst hpn
    by_cases hqn : q = []
    · exact .inl hqn.symm
    · exact .inr (.inr (.inl ⟨hqn, List.prefix_nil.mp hq⟩))
  · have hppos : 0 < p.length := List.length_pos_iff.mpr hpn
    by_cases hqn : q = []
    · subst hqn
      exact .inr (.inl ⟨hpn, List.prefix_nil.mp hp⟩)
    · have hqpos : 0 < q.length := List.length_pos_iff.mpr hqn
      rcases Nat.lt_trichotomy p.length q.length with hlt | heq | hgt
      · refine .inr (.inr (.inl ⟨hqn, hq.eq_of_length ?_⟩))
        simp only [List.length_dropLast]
        omega
      · refine .inr (.inr (.inr ⟨hpn, hqn, ?_⟩))
        have hpre : p.dropLast <+: q.dropLast :=
          List.prefix_of_prefix_length_le hp (List.dropLast_prefix q) (by simp; omega)
        exact hpre.eq_of_length (by simp; omega)
      · refine .inr (.inl ⟨hpn, hp.eq_of_length ?_⟩)
        simp only [List.length_dropLast]
        omega

/-- Configurations of two logs, each holding all but the newest entry of the other. -/
theorem Chained.meets {p q : ConfigLog} (hp : Chained g w p) (hq : Chained g w q)
    (hpq : p.dropLast <+: q) (hqp : q.dropLast <+: p) : (configOf g p).Meets (configOf g q) := by
  rcases dropLast_cases hpq hqp with rfl | ⟨hne, heq⟩ | ⟨hne, heq⟩ | ⟨hpne, hqne, heq⟩
  · exact hp.peopled.meets_self
  · have hfollows : Follows (configOf g q) (configOf g p) := by
      rw [← heq]
      exact hp.follows hne
    exact (hfollows.meets hq.peopled).symm
  · have hfollows : Follows (configOf g p) (configOf g q) := by
      rw [← heq]
      exact hq.follows hne
    exact hfollows.meets hp.peopled
  · have hfollows : Follows (configOf g p.dropLast) (configOf g q) := by
      rw [heq]
      exact hq.follows hqne
    exact (hp.follows hpne).meets_sibling hfollows

end DewDB.Reconfigure
