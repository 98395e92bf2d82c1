import DewDB.LogReplication

/-!
# Leader completeness

What a quorum held in the term it was made in is in the log of every later leader. The invariant
says that every prefix of a log that ends in an entry of term `t` is a prefix of the log of the
leader of `t`, and that a node drops a prefix it once held only when some leader since then lacked
it.
-/
namespace DewDB.LogReplication

open Stamped

variable {V κ E : Type*} [Stamped E]

theorem WellFormed.of_isPrefix {p lg : List E} (h : WellFormed lg) (hp : p <+: lg) : WellFormed p :=
  h.sublist hp.sublist

theorem WellFormed.append_singleton {lg : List E} {e : E} (h : WellFormed lg)
    (he : ∀ x ∈ lg, pos x < pos e ∧ term x ≤ term e) : WellFormed (lg ++ [e]) := by
  refine List.pairwise_append.mpr ⟨h, by simp, fun a ha b hb => ?_⟩
  obtain rfl := List.mem_singleton.mp hb
  exact he a ha

/-- No entry of a well-formed log is of a later term, or further on, than its last one. -/
theorem WellFormed.le_last {p : List E} {e x : E} (h : WellFormed (p ++ [e])) (hx : x ∈ p ++ [e]) :
    term x ≤ term e ∧ pos x ≤ pos e := by
  rcases List.mem_append.mp hx with hx | hx
  · have := (List.pairwise_append.mp h).2.2 x hx e (by simp)
    exact ⟨this.2, this.1.le⟩
  · obtain rfl := List.mem_singleton.mp hx
    exact ⟨le_rfl, le_rfl⟩

/-- Of two prefixes of one log the one that ends further on contains the other. -/
theorem WellFormed.prefix_of_pos_le {lg p q : List E} {x y : E} (h : WellFormed lg)
    (hp : p ++ [x] <+: lg) (hq : q ++ [y] <+: lg) (hle : pos x ≤ pos y) :
    p ++ [x] <+: q ++ [y] := by
  rcases List.prefix_or_prefix_of_prefix hp hq with hpq | hqp
  · exact hpq
  · rcases List.prefix_concat_iff.mp hqp with heq | hqp'
    · rw [heq]
    · have hy : y ∈ p := hqp'.subset (by simp)
      have := (List.pairwise_append.mp (h.of_isPrefix hp)).2.2 y hy x (by simp)
      omega

theorem WellFormed.pos_lt_of_term_lt {lg : List E} {x y : E} (h : WellFormed lg)
    (hx : x ∈ lg) (hy : y ∈ lg) (hlt : term x < term y) : pos x < pos y := by
  obtain ⟨p, r, rfl⟩ := List.append_of_mem hy
  obtain ⟨-, hyr, hp⟩ := List.pairwise_append.mp h
  rcases List.mem_append.mp hx with hx | hx
  · exact (hp x hx y (by simp)).1
  · rcases List.mem_cons.mp hx with rfl | hx
    · omega
    · have := (List.pairwise_cons.mp hyr).1 x hx
      omega

omit [Stamped E] in
theorem exists_concat_of_getLast? {lg : List E} {e : E} (h : e ∈ lg.getLast?) :
    ∃ p, lg = p ++ [e] := by
  obtain ⟨p, hp⟩ := List.getLast?_eq_some_iff.mp h
  exact ⟨p, hp⟩

section Invariant

variable (s : State V κ E)

/-- Every prefix of the log is one that the leader of its last entry's term had. -/
def Matches (k : κ) (lg : List E) : Prop :=
  ∀ p e, p ++ [e] <+: lg → p ++ [e] <+: s.leaderLog (term e) k

structure Grounded (k : κ) (lg : List E) : Prop where
  wellFormed : WellFormed lg
  matched : Matches s k lg

/-- Every leader of a term in `[a, b)` has `p`. -/
def KeptThrough (k : κ) (p : List E) (a b : ℕ) : Prop :=
  ∀ w, a ≤ w → w < b → (s.leader w).isSome → p <+: s.leaderLog w k

/-- A snapshot is well formed, and its node still has what every leader since then had. -/
structure HeldOk (h : Snapshot V κ E) : Prop where
  grounded : ∀ k, Grounded s k (h.logs k)
  terms : ∀ k, ∀ e ∈ h.logs k, term e ≤ h.term
  le : h.term ≤ s.term h.node
  retained : ∀ k p, p <+: h.logs k → KeptThrough s k p h.term (s.term h.node + 1) →
    p <+: s.log h.node k

/-- A ballot was cast for a standing candidate whose sample is as fresh as the voter's logs, and the
voter then had what every leader since an earlier snapshot had. -/
structure BallotOk (b : Ballot V κ E) : Prop where
  grounded : ∀ k, Grounded s k (b.logs k)
  le : b.term ≤ s.term b.voter
  candidacy : ∃ cd ∈ s.candidacies, cd.node = b.candidate ∧ cd.term = b.term ∧
    ∀ k, TailLe (b.logs k) (cd.sample.logs k)
  early : s.leader b.term = none → b.early
  retained : b.early → ∀ h ∈ s.held, h.node = b.voter → h.term < b.term → ∀ k p, p <+: h.logs k →
    KeptThrough s k p h.term b.term → p <+: b.logs k

/-- The leader `c` of term `t` was elected by early votes, and started with what every leader since
an earlier snapshot of its own had. -/
structure ElectedOk (Quorum : Set V → Prop) (t : ℕ) (c : V) : Prop where
  stood : ∃ cd ∈ s.candidacies, cd.node = c ∧ cd.term = t
  quorum : Quorum {v | v = c ∨ ∃ b ∈ s.votes, b.voter = v ∧ b.term = t ∧ b.candidate = c ∧ b.early}
  retained : ∀ h ∈ s.held, h.node = c → h.term < t → ∀ k p, p <+: h.logs k →
    KeptThrough s k p h.term t → p <+: s.leaderLog t k

/-- The logs of the nodes and of the leaders, and how a leader's own log stands to its term's. -/
structure LogsOk : Prop where
  leadNone : ∀ t, s.leader t = none → ∀ k, s.leaderLog t k = []
  leadLe : ∀ t v, s.leader t = some v → t ≤ s.term v
  leadLog : ∀ v, s.leader (s.term v) = some v → s.log v = s.leaderLog (s.term v)
  leadOk : ∀ t k, Grounded s k (s.leaderLog t k)
  leadTerm : ∀ t k, ∀ e ∈ s.leaderLog t k, term e ≤ t
  logOk : ∀ v k, Grounded s k (s.log v k)
  logTerm : ∀ v k, ∀ e ∈ s.log v k, term e ≤ s.term v

structure Inv (Quorum : Set V → Prop) : Prop extends LogsOk s where
  held : ∀ h ∈ s.held, HeldOk s h
  candidacies : ∀ cd ∈ s.candidacies, cd.sample ∈ s.held ∧ cd.sample.node = cd.node ∧
    cd.sample.term < cd.term ∧ cd.term ≤ s.term cd.node
  standOnce : ∀ cd ∈ s.candidacies, ∀ cd' ∈ s.candidacies, cd.node = cd'.node →
    cd.term = cd'.term → cd = cd'
  votes : ∀ b ∈ s.votes, BallotOk s b
  voteOnce : ∀ b ∈ s.votes, ∀ b' ∈ s.votes, b.voter = b'.voter → b.term = b'.term →
    b.candidate = b'.candidate
  voteStood : ∀ b ∈ s.votes, ∀ cd ∈ s.candidacies, cd.node = b.voter → cd.term = b.term →
    b.candidate = b.voter
  elected : ∀ t c, 0 < t → s.leader t = some c → ElectedOk s Quorum t c
  commits : ∀ c ∈ s.commits, c.entries <+: s.leaderLog c.term c.key ∧
    (∃ e ∈ c.entries.getLast?, term e = c.term) ∧ Quorum (s.holders c.term c.key c.entries)

end Invariant

section Completeness

variable {s : State V κ E} {Quorum : Set V → Prop}

/-- The freshness test carries a prefix of the leader of `t` from the voter's log to the
candidate's, given that every leader between `t` and the candidate's last entry has the prefix. -/
theorem prefix_of_tailLe {k : κ} {p : List E} {t u : ℕ} {vlog slog : List E}
    (hnone : ∀ w, s.leader w = none → s.leaderLog w k = [])
    (hlead : ∀ w, WellFormed (s.leaderLog w k))
    (hvlog : Grounded s k vlog) (hslog : Grounded s k slog) (hterms : ∀ e ∈ slog, term e < u)
    (hlast : ∃ e ∈ p.getLast?, term e = t) (hp : p <+: vlog) (hkept : KeptThrough s k p t u)
    (hfresh : TailLe vlog slog) : p <+: slog := by
  obtain ⟨e, he, rfl⟩ := hlast
  obtain ⟨p, rfl⟩ := exists_concat_of_getLast? he
  have hne : vlog ≠ [] := by
    rintro rfl
    simp at hp
  obtain ⟨x, hx⟩ := Option.ne_none_iff_exists'.mp (mt List.getLast?_eq_none_iff.mp hne)
  obtain ⟨y, hy, hxy⟩ := hfresh x hx
  obtain ⟨vs, rfl⟩ := exists_concat_of_getLast? hx
  obtain ⟨ss, rfl⟩ := exists_concat_of_getLast? hy
  have hvl := hvlog.matched vs x List.prefix_rfl
  have hsl := hslog.matched ss y List.prefix_rfl
  have hex : term e ≤ term x := (hvlog.wellFormed.le_last (hp.subset (by simp))).1
  have hyu : term y < u := hterms y (by simp)
  have hsome : (s.leader (term y)).isSome := by
    by_contra hno
    have := hnone (term y) (by simpa using hno)
    simp [this] at hsl
  rcases hxy with hlt | ⟨heq, hpos⟩
  -- The candidate's last entry is of a later term, whose leader has the prefix.
  · have hpl := hkept (term y) (by omega) hyu hsome
    rcases List.prefix_or_prefix_of_prefix hpl hsl with h | h
    · exact h
    · have hy' : y ∈ p ++ [e] := h.subset (by simp)
      have := ((hlead (term y)).of_isPrefix hpl).le_last hy'
      omega
  -- Both logs end in one term, so the longer one has the shorter.
  · rw [heq] at hvl
    exact hp.trans ((hlead (term y)).prefix_of_pos_le hvl hsl hpos)

/-- What a quorum held in the term of its last entry is in the log of every later leader. -/
theorem Inv.prefix_of_quorum (hinv : Inv s Quorum)
    (hinter : ∀ A B, Quorum A → Quorum B → (A ∩ B).Nonempty) {t u : ℕ} {k : κ} {p : List E}
    (hp : p <+: s.leaderLog t k) (hlast : ∃ e ∈ p.getLast?, term e = t)
    (hheld : Quorum (s.holders t k p)) (htu : t ≤ u) (hlead : (s.leader u).isSome) :
    p <+: s.leaderLog u k := by
  induction u using Nat.strong_induction_on with
  | _ u ih =>
    rcases Nat.eq_or_lt_of_le htu with rfl | hlt
    · exact hp
    have hkept : KeptThrough s k p t u := fun w htw hwu hw => ih w hwu htw hw
    obtain ⟨c, hc⟩ := Option.isSome_iff_exists.mp hlead
    have hel := hinv.elected u c (by omega) hc
    obtain ⟨v, ⟨h, hh, rfl, rfl, hph⟩, hv⟩ := hinter _ _ hheld hel.quorum
    rcases hv with hv | ⟨b, hb, hbv, hbt, hbc, hearly⟩
    -- The new leader held the prefix itself.
    · exact hel.retained h hh hv hlt k p hph hkept
    -- Another voter held it, and voted for a candidate whose sample is as fresh.
    · have hbok := hinv.votes b hb
      have hpv : p <+: b.logs k :=
        hbok.retained hearly h hh hbv.symm (hbt ▸ hlt) k p hph (hbt ▸ hkept)
      obtain ⟨cd, hcd, hcdc, hcdt, hfresh⟩ := hbok.candidacy
      obtain ⟨hs, hsn, hst, -⟩ := hinv.candidacies cd hcd
      have hsok := hinv.held _ hs
      have hps : p <+: cd.sample.logs k := by
        refine prefix_of_tailLe (u := u) (fun w hw => hinv.leadNone w hw k)
          (fun w => (hinv.leadOk w k).wellFormed) (hbok.grounded k) (hsok.grounded k)
          (fun e he => ?_) hlast hpv hkept (hfresh k)
        have := hsok.terms k e he
        omega
      have hst' : h.term ≤ cd.sample.term := by
        obtain ⟨e, he, het⟩ := hlast
        have := hsok.terms k e (hps.subset (List.mem_of_getLast? he))
        omega
      exact hel.retained _ hs (by rw [hsn, hcdc, hbc]) (by omega) k p hps
        fun w hw hwu => hkept w (by omega) hwu

theorem Inv.leader_completeness (hinv : Inv s Quorum)
    (hinter : ∀ A B, Quorum A → Quorum B → (A ∩ B).Nonempty) {c : Commit κ E}
    (hc : c ∈ s.commits) {u : ℕ} (htu : c.term ≤ u) (hlead : (s.leader u).isSome) :
    c.entries <+: s.leaderLog u c.key := by
  obtain ⟨hp, hlast, hq⟩ := hinv.commits c hc
  exact hinv.prefix_of_quorum hinter hp hlast hq htu hlead

/-- A node that collects a quorum of votes in a term that has a leader is that leader. -/
theorem Inv.winner_unique (hinv : Inv s Quorum)
    (hinter : ∀ A B, Quorum A → Quorum B → (A ∩ B).Nonempty) {t : ℕ} {c c' : V} (ht : 0 < t)
    (hc : s.leader t = some c) (hstood : ∃ cd ∈ s.candidacies, cd.node = c' ∧ cd.term = t)
    (hquorum : Quorum (s.supporters c' t)) : c' = c := by
  have hel := hinv.elected t c ht hc
  obtain ⟨cd, hcd, rfl, hcdt⟩ := hel.stood
  obtain ⟨cd', hcd', rfl, hcdt'⟩ := hstood
  obtain ⟨v, hv, hv'⟩ := hinter _ _ hel.quorum hquorum
  rcases hv with rfl | ⟨b, hb, rfl, hbt, hbc, -⟩
  · rcases hv' with h | ⟨b', hb', hbv', hbt', hbc'⟩
    · exact h.symm
    · rw [← hbc', ← hbv']
      exact hinv.voteStood b' hb' cd hcd hbv'.symm (by omega)
  · rcases hv' with h | ⟨b', hb', hbv', hbt', hbc'⟩
    · rw [← hbc, ← h]
      exact (hinv.voteStood b hb cd' hcd' h.symm (by omega)).symm
    · rw [← hbc, ← hbc']
      exact hinv.voteOnce b' hb' b hb hbv' (by omega)

end Completeness

end DewDB.LogReplication
