import DewDB.LeaderCompleteness

/-!
# The invariant along the steps

Leaders and their logs only grow, terms only rise, and a node's log keeps what the leaders in
between have. Every record made before a step stays good for these reasons alone, so each step only
has to answer for the records it adds.
-/
namespace DewDB.LogReplication

open Stamped

variable {V κ E : Type*} [Stamped E] {s s' : State V κ E} {Quorum : Set V → Prop}

structure Advance (s s' : State V κ E) : Prop where
  leader : ∀ t v, s.leader t = some v → s'.leader t = some v
  leaderLog : ∀ t k, s.leaderLog t k <+: s'.leaderLog t k
  fresh : ∀ t k, (s.leader t).isSome →
    ∃ ext, s'.leaderLog t k = s.leaderLog t k ++ ext ∧ ∀ e ∈ ext, Stamped.term e = t
  term : ∀ v, s.term v ≤ s'.term v
  retained : ∀ v k p, p <+: s.log v k →
    KeptThrough s' k p (s.term v) (s'.term v + 1) → p <+: s'.log v k

theorem Matches.advance {k : κ} {lg : List E} (h : Matches s k lg) (ha : Advance s s') :
    Matches s' k lg :=
  fun p e hpe => (h p e hpe).trans (ha.leaderLog _ k)

theorem Grounded.advance {k : κ} {lg : List E} (h : Grounded s k lg) (ha : Advance s s') :
    Grounded s' k lg :=
  ⟨h.wellFormed, h.matched.advance ha⟩

theorem Grounded.of_isPrefix {k : κ} {p lg : List E} (h : Grounded s k lg) (hp : p <+: lg) :
    Grounded s k p :=
  ⟨h.wellFormed.of_isPrefix hp, fun q e hq => h.matched q e (hq.trans hp)⟩

/-- A leader gains only entries of its own term, so a prefix of an older log that the leader has now
it had before. -/
theorem KeptThrough.of_advance {k : κ} {p lg : List E} {a b : ℕ} (h : KeptThrough s' k p a b)
    (ha : Advance s s') (hm : Matches s k lg) (hp : p <+: lg) : KeptThrough s k p a b := by
  intro w haw hwb hw
  obtain ⟨v, hv⟩ := Option.isSome_iff_exists.mp hw
  have hp' := h w haw hwb (by simp [ha.leader w v hv])
  obtain ⟨ext, hext, hterm⟩ := ha.fresh w k hw
  rw [hext] at hp'
  rcases List.prefix_or_prefix_of_prefix hp' (List.prefix_append (s.leaderLog w k) ext) with h | h
  · exact h
  · obtain ⟨q, rfl⟩ := h
    have hq : q <+: ext := (List.prefix_append_right_inj _).mp hp'
    rcases List.eq_nil_or_concat q with rfl | ⟨q', e, rfl⟩
    · simp
    · have hew : Stamped.term e = w := hterm e (hq.subset (by simp))
      have := hm (s.leaderLog w k ++ q') e (by simpa using hp)
      simpa [hew] using this

theorem HeldOk.advance {h : Snapshot V κ E} (hok : HeldOk s h) (ha : Advance s s') :
    HeldOk s' h where
  grounded k := (hok.grounded k).advance ha
  terms := hok.terms
  le := hok.le.trans (ha.term _)
  retained k p hp hkept := by
    have hold := hkept.of_advance ha (hok.grounded k).matched hp
    have hterm := ha.term h.node
    have hle := hok.le
    refine ha.retained _ k p (hok.retained k p hp fun w haw hwb => hold w haw (by omega)) ?_
    exact fun w haw hwb => hkept w (by omega) hwb

theorem heldOk_snapshot (hinv : Inv s Quorum) (v : V) : HeldOk s (s.snapshot v) where
  grounded := hinv.logOk v
  terms := hinv.logTerm v
  le := le_rfl
  retained _ _ hp _ := hp

theorem BallotOk.advance {b : Ballot V κ E} (hok : BallotOk s b) (ha : Advance s s')
    (hinv : Inv s Quorum) (hcand : s.candidacies ⊆ s'.candidacies)
    (hheld : ∀ h ∈ s'.held, h ∈ s.held ∨ s.term h.node ≤ h.term) : BallotOk s' b where
  grounded k := (hok.grounded k).advance ha
  le := hok.le.trans (ha.term _)
  candidacy := by
    obtain ⟨cd, hcd, h⟩ := hok.candidacy
    exact ⟨cd, hcand hcd, h⟩
  early hnone := by
    refine hok.early ?_
    by_contra hne
    obtain ⟨v, hv⟩ := Option.ne_none_iff_exists'.mp hne
    simp [ha.leader _ v hv] at hnone
  retained hearly h hh hv hlt k p hp hkept := by
    rcases hheld h hh with hold | hnew
    · exact hok.retained hearly h hold hv hlt k p hp
        (hkept.of_advance ha ((hinv.held h hold).grounded k).matched hp)
    · have := hok.le
      rw [hv] at hnew
      omega

theorem ElectedOk.advance {t : ℕ} {c : V}
    (hmono : ∀ A B : Set V, A ⊆ B → Quorum A → Quorum B) (hok : ElectedOk s Quorum t c)
    (ha : Advance s s') (hinv : Inv s Quorum) (hlead : s.leader t = some c)
    (hcand : s.candidacies ⊆ s'.candidacies) (hvotes : s.votes ⊆ s'.votes)
    (hheld : ∀ h ∈ s'.held, h ∈ s.held ∨ s.term h.node ≤ h.term) : ElectedOk s' Quorum t c where
  stood := by
    obtain ⟨cd, hcd, h⟩ := hok.stood
    exact ⟨cd, hcand hcd, h⟩
  quorum := by
    refine hmono _ _ ?_ hok.quorum
    rintro v (h | ⟨b, hb, h⟩)
    · exact .inl h
    · exact .inr ⟨b, hvotes hb, h⟩
  retained h hh hv hlt k p hp hkept := by
    rcases hheld h hh with hold | hnew
    · exact (hok.retained h hold hv hlt k p hp
        (hkept.of_advance ha ((hinv.held h hold).grounded k).matched hp)).trans (ha.leaderLog t k)
    · have := hinv.leadLe t c hlead
      rw [hv] at hnew
      omega

omit [Stamped E] in
theorem holders_mono {t : ℕ} {k : κ} {p : List E} (h : s.held ⊆ s'.held) :
    s.holders t k p ⊆ s'.holders t k p := by
  rintro v ⟨h', hh', hv⟩
  exact ⟨h', h hh', hv⟩

theorem commits_advance (hmono : ∀ A B : Set V, A ⊆ B → Quorum A → Quorum B) (ha : Advance s s')
    (hheld : s.held ⊆ s'.held) {c : Commit κ E}
    (hok : c.entries <+: s.leaderLog c.term c.key ∧
      (∃ e ∈ c.entries.getLast?, Stamped.term e = c.term) ∧
      Quorum (s.holders c.term c.key c.entries)) :
    c.entries <+: s'.leaderLog c.term c.key ∧
      (∃ e ∈ c.entries.getLast?, Stamped.term e = c.term) ∧
      Quorum (s'.holders c.term c.key c.entries) :=
  ⟨hok.1.trans (ha.leaderLog _ _), hok.2.1, hmono _ _ (holders_mono hheld) hok.2.2⟩

theorem Advance.of_term (hlead : s'.leader = s.leader) (hlog' : s'.leaderLog = s.leaderLog)
    (hlog : s'.log = s.log) (hterm : ∀ v, s.term v ≤ s'.term v) : Advance s s' where
  leader t v h := by rw [hlead]; exact h
  leaderLog t k := by rw [hlog']
  fresh t k _ := ⟨[], by simp [hlog'], by simp⟩
  term := hterm
  retained v k p hp _ := by rw [hlog]; exact hp

theorem LogsOk.of_term (hok : LogsOk s) (hlead : s'.leader = s.leader)
    (hlog' : s'.leaderLog = s.leaderLog) (hlog : s'.log = s.log)
    (hterm : ∀ v, s.term v ≤ s'.term v) : LogsOk s' := by
  have ha := Advance.of_term hlead hlog' hlog hterm
  refine ⟨fun t ht k => ?_, fun t v hv => ?_, fun v hv => ?_, fun t k => ?_, fun t k => ?_,
    fun v k => ?_, fun v k e he => ?_⟩
  · rw [hlog']
    exact hok.leadNone t (hlead ▸ ht) k
  · rw [hlead] at hv
    exact (hok.leadLe t v hv).trans (hterm v)
  · rw [hlead] at hv
    have heq : s'.term v = s.term v := le_antisymm (hok.leadLe _ v hv) (hterm v)
    rw [heq] at hv ⊢
    rw [hlog, hlog']
    exact hok.leadLog v hv
  · rw [hlog']
    exact (hok.leadOk t k).advance ha
  · rw [hlog']
    exact hok.leadTerm t k
  · rw [hlog]
    exact (hok.logOk v k).advance ha
  · rw [hlog] at he
    exact (hok.logTerm v k e he).trans (hterm v)

section Steps

variable (hmono : ∀ A B : Set V, A ⊆ B → Quorum A → Quorum B)
include hmono

theorem Inv.of_advance (hinv : Inv s Quorum) (ha : Advance s s') (hlogs : LogsOk s')
    (hsub : s.held ⊆ s'.held)
    (hheld : ∀ h ∈ s'.held, h ∈ s.held ∨ (HeldOk s' h ∧ s.term h.node ≤ h.term))
    (hcand : s'.candidacies = s.candidacies) (hvotes : s'.votes = s.votes)
    (hlead : ∀ t c, 0 < t → s'.leader t = some c → s.leader t = some c ∨ ElectedOk s' Quorum t c)
    (hcommits : ∀ c ∈ s'.commits, c ∈ s.commits ∨
      (c.entries <+: s'.leaderLog c.term c.key ∧
        (∃ e ∈ c.entries.getLast?, Stamped.term e = c.term) ∧
        Quorum (s'.holders c.term c.key c.entries))) : Inv s' Quorum := by
  have hheld' : ∀ h ∈ s'.held, h ∈ s.held ∨ s.term h.node ≤ h.term :=
    fun h hh => (hheld h hh).imp_right And.right
  refine { hlogs with
    held := fun h hh => ?_
    candidacies := fun cd hcd => ?_
    standOnce := hcand ▸ hinv.standOnce
    votes := fun b hb => ?_
    voteOnce := hvotes ▸ hinv.voteOnce
    voteStood := by rw [hcand, hvotes]; exact hinv.voteStood
    elected := fun t c ht hc => ?_
    commits := fun c hc => ?_ }
  · rcases hheld h hh with hold | hnew
    · exact (hinv.held h hold).advance ha
    · exact hnew.1
  · obtain ⟨h, hn, hlt, hle⟩ := hinv.candidacies cd (hcand ▸ hcd)
    exact ⟨hsub h, hn, hlt, hle.trans (ha.term _)⟩
  · exact (hinv.votes b (hvotes ▸ hb)).advance ha hinv hcand.ge hheld'
  · rcases hlead t c ht hc with hold | hnew
    · exact (hinv.elected t c ht hold).advance hmono ha hinv hold hcand.ge hvotes.ge hheld'
    · exact hnew
  · rcases hcommits c hc with hold | hnew
    · exact commits_advance hmono ha hsub (hinv.commits c hold)
    · exact hnew

variable [DecidableEq V]

theorem Inv.raise (hinv : Inv s Quorum) {v : V} {t : ℕ} (h : s.term v ≤ t) :
    Inv (s.raise v t) Quorum := by
  have hterm : ∀ u, s.term u ≤ (s.raise v t).term u := by
    intro u
    by_cases hu : u = v
    · subst hu
      simpa [State.raise] using h
    · simp [State.raise, hu]
  exact hinv.of_advance hmono (.of_term rfl rfl rfl hterm)
    (hinv.toLogsOk.of_term rfl rfl rfl hterm) le_rfl (fun h hh => .inl hh) rfl rfl
    (fun t c _ hc => .inl hc) (fun c hc => .inl hc)

omit [DecidableEq V] in
theorem Inv.hold (hinv : Inv s Quorum) (v : V) : Inv (s.hold v) Quorum := by
  have ha : Advance s (s.hold v) := .of_term rfl rfl rfl fun _ => le_rfl
  refine hinv.of_advance hmono ha (hinv.toLogsOk.of_term rfl rfl rfl fun _ => le_rfl)
    (Set.subset_insert _ _) (fun h hh => ?_) rfl rfl (fun t c _ hc => .inl hc) (fun c hc => .inl hc)
  rcases hh with rfl | hh
  · exact .inr ⟨(heldOk_snapshot hinv v).advance ha, le_rfl⟩
  · exact .inl hh

omit [DecidableEq V] in
theorem Inv.commit (hinv : Inv s Quorum) {c : Commit κ E}
    (hpfx : c.entries <+: s.leaderLog c.term c.key)
    (hterm : ∃ e ∈ c.entries.getLast?, Stamped.term e = c.term)
    (hquorum : Quorum (s.holders c.term c.key c.entries)) : Inv (s.commit c) Quorum := by
  refine hinv.of_advance hmono (.of_term rfl rfl rfl fun _ => le_rfl)
    (hinv.toLogsOk.of_term rfl rfl rfl fun _ => le_rfl) le_rfl (fun h hh => .inl hh) rfl rfl
    (fun t c _ hc => .inl hc) (fun d hd => ?_)
  rcases hd with rfl | hd
  · exact .inr ⟨hpfx, hterm, hquorum⟩
  · exact .inl hd

theorem Inv.stand (hinv : Inv s Quorum) {v : V} {t : ℕ} {sample : Snapshot V κ E}
    (hlt : s.term v < t) (hheld : sample ∈ s.held) (hnode : sample.node = v) :
    Inv (s.stand v t sample) Quorum := by
  have hterm : ∀ u, s.term u ≤ (s.stand v t sample).term u := by
    intro u
    by_cases hu : u = v
    · subst hu
      simpa [State.stand] using hlt.le
    · simp [State.stand, hu]
  have ha : Advance s (s.stand v t sample) := .of_term rfl rfl rfl hterm
  have hsub : s.candidacies ⊆ (s.stand v t sample).candidacies := Set.subset_insert _ _
  have hlogs : LogsOk (s.stand v t sample) := hinv.toLogsOk.of_term rfl rfl rfl hterm
  refine { hlogs with
    held := fun h hh => (hinv.held h hh).advance ha
    candidacies := fun cd hcd => ?_
    standOnce := fun cd hcd cd' hcd' hn ht => ?_
    votes := fun b hb => (hinv.votes b hb).advance ha hinv hsub fun h hh => .inl hh
    voteOnce := hinv.voteOnce
    voteStood := fun b hb cd hcd hn ht => ?_
    elected := fun t c ht hc => (hinv.elected t c ht hc).advance hmono ha hinv hc hsub le_rfl
      fun h hh => .inl hh
    commits := fun c hc => commits_advance hmono ha le_rfl (hinv.commits c hc) }
  · rcases hcd with rfl | hcd
    · refine ⟨hheld, hnode, ?_, by simp [State.stand]⟩
      have := (hinv.held sample hheld).le
      rw [hnode] at this
      exact this.trans_lt hlt
    · obtain ⟨h, hn, hst, hle⟩ := hinv.candidacies cd hcd
      exact ⟨h, hn, hst, hle.trans (hterm _)⟩
  -- An older candidacy of the node is of a lower term.
  · have hold : ∀ d ∈ s.candidacies, d.node = v → d.term ≠ t := by
      intro d hd hdn hdt
      have := (hinv.candidacies d hd).2.2.2
      rw [hdn] at this
      omega
    rcases hcd with rfl | hcd <;> rcases hcd' with rfl | hcd'
    · rfl
    · exact absurd ht.symm (hold cd' hcd' hn.symm)
    · exact absurd ht (hold cd hcd hn)
    · exact hinv.standOnce cd hcd cd' hcd' hn ht
  · rcases hcd with rfl | hcd
    · have hle := (hinv.votes b hb).le
      have hn' : v = b.voter := hn
      have ht' : t = b.term := ht
      rw [← hn'] at hle
      omega
    · exact hinv.voteStood b hb cd hcd hn ht

theorem Inv.vote (hinv : Inv s Quorum) {v : V} {t : ℕ} {c : V} {cd : Candidacy V κ E}
    (hle : s.term v ≤ t) (hcd : cd ∈ s.candidacies) (hc : cd.node = c) (ht : cd.term = t)
    (honce : ∀ b ∈ s.votes, b.voter = v → b.term = t → b.candidate = c)
    (hstood : ∀ d ∈ s.candidacies, d.node = v → d.term = t → c = v)
    (hfresh : ∀ k, TailLe (s.log v k) (cd.sample.logs k)) : Inv (s.vote v t c) Quorum := by
  have hterm : ∀ u, s.term u ≤ (s.vote v t c).term u := by
    intro u
    by_cases hu : u = v
    · subst hu
      simpa [State.vote] using hle
    · simp [State.vote, hu]
  have ha : Advance s (s.vote v t c) := .of_term rfl rfl rfl hterm
  have hlogs : LogsOk (s.vote v t c) := hinv.toLogsOk.of_term rfl rfl rfl hterm
  refine { hlogs with
    held := fun h hh => (hinv.held h hh).advance ha
    candidacies := fun d hd => ?_
    standOnce := hinv.standOnce
    votes := fun b hb => ?_
    voteOnce := fun b hb b' hb' hv hbt => ?_
    voteStood := fun b hb d hd hn hdt => ?_
    elected := fun u d hu hd => (hinv.elected u d hu hd).advance hmono ha hinv hd le_rfl
      (Set.subset_insert _ _) fun h hh => .inl hh
    commits := fun d hd => commits_advance hmono ha le_rfl (hinv.commits d hd) }
  · obtain ⟨h, hn, hst, hdle⟩ := hinv.candidacies d hd
    exact ⟨h, hn, hst, hdle.trans (hterm _)⟩
  · rcases hb with rfl | hb
    · refine ⟨fun k => (hinv.logOk v k).advance ha, by simp [State.vote],
        ⟨cd, hcd, hc, ht, hfresh⟩, fun h => h, ?_⟩
      -- The term had no leader, so the leaders up to it are those before it.
      intro hearly h hh hv hlt k p hp hkept
      have hv' : h.node = v := hv
      have hret := (hinv.held h hh).retained k p hp ?_
      · rw [hv'] at hret
        exact hret
      · intro w hw hwt hws
        rw [hv'] at hwt
        rcases Nat.lt_or_eq_of_le (show w ≤ t by omega) with hlt' | rfl
        · exact hkept w hw hlt' hws
        · have hnone : s.leader w = none := hearly
          simp [hnone] at hws
    · exact (hinv.votes b hb).advance ha hinv le_rfl fun h hh => .inl hh
  · rcases hb with rfl | hb <;> rcases hb' with rfl | hb'
    · rfl
    · exact (honce b' hb' hv.symm hbt.symm).symm
    · exact honce b hb hv hbt
    · exact hinv.voteOnce b hb b' hb' hv hbt
  · rcases hb with rfl | hb
    · exact hstood d hd hn hdt
    · exact hinv.voteStood b hb d hd hn hdt

omit [DecidableEq V] in
theorem Inv.win (hinv : Inv s Quorum) {c : V} {cd : Candidacy V κ E} (hcd : cd ∈ s.candidacies)
    (hc : cd.node = c) (ht : cd.term = s.term c) (hnone : s.leader (s.term c) = none)
    (hquorum : Quorum (s.supporters c (s.term c))) : Inv (s.win c) Quorum := by
  have hat : (s.win c).leader (s.term c) = some c := by simp [State.win]
  have hne : ∀ t, t ≠ s.term c → (s.win c).leader t = s.leader t ∧
      (s.win c).leaderLog t = s.leaderLog t := fun t h => by simp [State.win, h]
  have hnew : (s.win c).leaderLog (s.term c) = s.log c := by simp [State.win]
  have hnot : ∀ t, (s.leader t).isSome → t ≠ s.term c := by
    rintro t h rfl
    simp [hnone] at h
  have ha : Advance s (s.win c) := by
    refine ⟨fun t v hv => ?_, fun t k => ?_, fun t k h => ?_, fun _ => le_rfl, fun v k p hp _ => hp⟩
    · rw [(hne t (hnot t (by simp [hv]))).1, hv]
    · by_cases h : t = s.term c
      · rw [h, hinv.leadNone _ hnone k]
        exact List.nil_prefix
      · rw [(hne t h).2]
    · exact ⟨[], by simp [(hne t (hnot t h)).2], by simp⟩
  refine hinv.of_advance hmono ha ⟨fun t h k => ?_, fun t v h => ?_, fun v h => ?_, fun t k => ?_,
    fun t k => ?_, fun v k => (hinv.logOk v k).advance ha, hinv.logTerm⟩ le_rfl
    (fun h hh => .inl hh) rfl rfl (fun t v ht' hv => ?_) (fun c hc => .inl hc)
  · have htc : t ≠ s.term c := by
      rintro rfl
      simp [hat] at h
    rw [(hne t htc).1] at h
    rw [(hne t htc).2]
    exact hinv.leadNone t h k
  · by_cases htc : t = s.term c
    · subst htc
      obtain rfl : c = v := by simpa [hat] using h
      exact le_rfl
    · rw [(hne t htc).1] at h
      exact hinv.leadLe t v h
  · by_cases htc : s.term v = s.term c
    · have h' : (s.win c).leader (s.term v) = some v := h
      rw [htc, hat] at h'
      obtain rfl := Option.some.inj h'
      exact hnew.symm
    · have h' : (s.win c).leader (s.term v) = some v := h
      rw [(hne _ htc).1] at h'
      exact (hinv.leadLog v h').trans (hne _ htc).2.symm
  · by_cases htc : t = s.term c
    · rw [htc, hnew]
      exact (hinv.logOk c k).advance ha
    · rw [(hne t htc).2]
      exact (hinv.leadOk t k).advance ha
  · by_cases htc : t = s.term c
    · rw [htc, hnew]
      exact hinv.logTerm c k
    · rw [(hne t htc).2]
      exact hinv.leadTerm t k
  · by_cases htc : t = s.term c
    · subst htc
      obtain rfl : c = v := by simpa [hat] using hv
      refine .inr ⟨⟨cd, hcd, hc, ht⟩, hmono _ _ ?_ hquorum, fun h hh hn hlt k p hp hkept => ?_⟩
      · rintro u (rfl | ⟨b, hb, hbv, hbt, hbc⟩)
        · exact .inl rfl
        · exact .inr ⟨b, hb, hbv, hbt, hbc, (hinv.votes b hb).early (hbt ▸ hnone)⟩
      · rw [hnew]
        have hkept' := hkept.of_advance ha ((hinv.held h hh).grounded k).matched hp
        have hret := (hinv.held h hh).retained k p hp fun w hw hwc hws => by
          rw [hn] at hwc
          exact hkept' w hw (lt_of_le_of_ne (by omega) (hnot w hws)) hws
        rwa [hn] at hret
    · rw [(hne t htc).1] at hv
      exact .inl hv

variable [DecidableEq κ]

theorem Inv.append (hinv : Inv s Quorum) {v : V} {k : κ} {e : E}
    (hlead : s.leader (s.term v) = some v) (hterm : Stamped.term e = s.term v)
    (hpos : ∀ x ∈ s.log v k, pos x < pos e) : Inv (s.append v k e) Quorum := by
  have hown : s.log v = s.leaderLog (s.term v) := hinv.leadLog v hlead
  have hlogs : ∀ u j, (s.append v k e).log u j = s.log u j ∨
      (u = v ∧ j = k ∧ (s.append v k e).log u j = s.log v k ++ [e]) := by
    intro u j
    by_cases hu : u = v
    · subst hu
      by_cases hj : j = k
      · subst hj
        exact .inr ⟨rfl, rfl, by simp [State.append, State.setLog]⟩
      · exact .inl (by simp [State.append, State.setLog, hj])
    · exact .inl (by simp [State.append, State.setLog, hu])
  have hleads : ∀ t j, (s.append v k e).leaderLog t j = s.leaderLog t j ∨
      (t = s.term v ∧ j = k ∧ (s.append v k e).leaderLog t j = s.leaderLog t j ++ [e]) := by
    intro t j
    by_cases ht : t = s.term v
    · subst ht
      by_cases hj : j = k
      · subst hj
        exact .inr ⟨rfl, rfl, by simp [State.append]⟩
      · exact .inl (by simp [State.append, hj])
    · exact .inl (by simp [State.append, ht])
  have ha : Advance s (s.append v k e) := by
    refine ⟨fun _ _ h => h, fun t j => ?_, fun t j _ => ?_, fun _ => le_rfl, fun u j p hp _ => ?_⟩
    · rcases hleads t j with h | ⟨-, -, h⟩ <;> simp [h]
    · rcases hleads t j with h | ⟨rfl, -, h⟩
      · exact ⟨[], by simp [h], by simp⟩
      · exact ⟨[e], h, by simpa using hterm⟩
    · rcases hlogs u j with h | ⟨rfl, rfl, h⟩
      · rwa [h]
      · rw [h]
        exact hp.trans (List.prefix_append _ _)
  -- The extended log, as the node's and as its term's.
  have hext : Grounded (s.append v k e) k (s.log v k ++ [e]) := by
    refine ⟨(hinv.logOk v k).wellFormed.append_singleton fun x hx => ⟨hpos x hx, ?_⟩, ?_⟩
    · rw [hterm]
      exact hinv.logTerm v k x hx
    · intro p x hpx
      rcases List.prefix_concat_iff.mp hpx with heq | hold
      · obtain ⟨rfl, rfl⟩ : p = s.log v k ∧ x = e := by simpa using heq
        rw [hterm, hown]
        simp [State.append]
      · exact ((hinv.logOk v k).advance ha).matched p x hold
  refine hinv.of_advance hmono ha ⟨fun t h j => ?_, hinv.leadLe, fun u h => ?_, fun t j => ?_,
    fun t j x hx => ?_, fun u j => ?_, fun u j x hx => ?_⟩ le_rfl (fun h hh => .inl hh) rfl rfl
    (fun t c _ hc => .inl hc) (fun c hc => .inl hc)
  · have h' : s.leader t = none := h
    rcases hleads t j with heq | ⟨rfl, -, -⟩
    · rw [heq]
      exact hinv.leadNone t h' j
    · simp [hlead] at h'
  · have h' : s.leader (s.term u) = some u := h
    funext j
    change (s.append v k e).log u j = (s.append v k e).leaderLog (s.term u) j
    have hold : s.log u j = s.leaderLog (s.term u) j := congrFun (hinv.leadLog u h') j
    by_cases hu : u = v
    · subst hu
      by_cases hj : j = k
      · subst hj
        simp [State.append, State.setLog, hold]
      · simpa [State.append, State.setLog, hj] using hold
    · have htu : s.term u ≠ s.term v := by
        intro heq
        rw [heq, hlead] at h'
        exact hu (Option.some.inj h').symm
      simpa [State.append, State.setLog, hu, htu] using hold
  · rcases hleads t j with heq | ⟨rfl, rfl, heq⟩
    · rw [heq]
      exact (hinv.leadOk t j).advance ha
    · rw [heq, ← hown]
      exact hext
  · rcases hleads t j with heq | ⟨rfl, rfl, heq⟩
    · exact hinv.leadTerm t j x (heq ▸ hx)
    · rw [heq] at hx
      rcases List.mem_append.mp hx with hx | hx
      · exact hinv.leadTerm _ _ x hx
      · obtain rfl := List.mem_singleton.mp hx
        exact hterm.le
  · rcases hlogs u j with heq | ⟨rfl, rfl, heq⟩
    · rw [heq]
      exact (hinv.logOk u j).advance ha
    · rw [heq]
      exact hext
  · rcases hlogs u j with heq | ⟨rfl, rfl, heq⟩
    · exact hinv.logTerm u j x (heq ▸ hx)
    · rw [heq] at hx
      rcases List.mem_append.mp hx with hx | hx
      · exact hinv.logTerm _ _ x hx
      · obtain rfl := List.mem_singleton.mp hx
        exact hterm.le

theorem Inv.receive (hinv : Inv s Quorum) {v : V} {t : ℕ} {k : κ} {lg : List E}
    (hle : s.term v ≤ t) (hlead : (s.leader t).isSome) (hpfx : lg <+: s.leaderLog t k)
    (hkeep : ∀ p, p <+: s.log v k → p <+: s.leaderLog t k → p <+: lg) :
    Inv (s.receive v t k lg) Quorum := by
  have hlogs : ∀ u j, (s.receive v t k lg).log u j = s.log u j ∨
      (u = v ∧ j = k ∧ (s.receive v t k lg).log u j = lg) := by
    intro u j
    by_cases hu : u = v
    · subst hu
      by_cases hj : j = k
      · subst hj
        exact .inr ⟨rfl, rfl, by simp [State.receive, State.setLog]⟩
      · exact .inl (by simp [State.receive, State.setLog, hj])
    · exact .inl (by simp [State.receive, State.setLog, hu])
  have hself : (s.receive v t k lg).term v = t := by simp [State.receive]
  have hterm : ∀ u, s.term u ≤ (s.receive v t k lg).term u := by
    intro u
    by_cases hu : u = v
    · subst hu
      rwa [hself]
    · simp [State.receive, hu]
  have ha : Advance s (s.receive v t k lg) := by
    refine ⟨fun _ _ h => h, fun t j => List.prefix_rfl, fun t j _ => ⟨[], by simp [State.receive],
      by simp⟩, hterm, fun u j p hp hkept => ?_⟩
    rcases hlogs u j with h | ⟨rfl, rfl, h⟩
    · rwa [h]
    · rw [h]
      exact hkeep p hp (hkept t (by omega) (by omega) hlead)
  refine hinv.of_advance hmono ha ⟨hinv.leadNone, fun u w h => ?_, fun u h => ?_, fun u j => ?_,
    hinv.leadTerm, fun u j => ?_, fun u j x hx => ?_⟩ le_rfl (fun h hh => .inl hh) rfl rfl
    (fun t c _ hc => .inl hc) (fun c hc => .inl hc)
  · exact (hinv.leadLe u w h).trans (hterm w)
  · have h' : s.leader ((s.receive v t k lg).term u) = some u := h
    have heq : (s.receive v t k lg).term u = s.term u := le_antisymm (hinv.leadLe _ u h') (hterm u)
    rw [heq] at h' ⊢
    have hown := hinv.leadLog u h'
    funext j
    rcases hlogs u j with hj | ⟨rfl, rfl, hj⟩
    · rw [hj]
      exact congrFun hown j
    -- A leader that takes entries of its own term loses nothing.
    · rw [hj]
      have ht : s.term u = t := heq.symm.trans hself
      have hfull : s.log u j <+: lg := hkeep _ List.prefix_rfl (by rw [hown, ht])
      have hback : lg <+: s.log u j := by rw [hown, ht]; exact hpfx
      change lg = s.leaderLog (s.term u) j
      rw [← hown]
      exact hback.eq_of_length (le_antisymm hback.length_le hfull.length_le)
  · exact (hinv.leadOk u j).advance ha
  · rcases hlogs u j with hj | ⟨rfl, rfl, hj⟩
    · rw [hj]
      exact (hinv.logOk u j).advance ha
    · rw [hj]
      exact ((hinv.leadOk t j).of_isPrefix hpfx).advance ha
  · rcases hlogs u j with hj | ⟨rfl, rfl, hj⟩
    · exact (hinv.logTerm u j x (hj ▸ hx)).trans (hterm u)
    · rw [hself]
      exact hinv.leadTerm t _ x (hpfx.subset (hj ▸ hx))

theorem Inv.step (hinv : Inv s Quorum) (h : Step Quorum s s') : Inv s' Quorum := by
  cases h with
  | raise v t h => exact hinv.raise hmono h
  | hold v => exact hinv.hold hmono v
  | stand v t sample hlt hheld hnode => exact hinv.stand hmono hlt hheld hnode
  | vote v t c cd hle hcd hc ht honce hstood hfresh =>
    exact hinv.vote hmono hle hcd hc ht honce hstood hfresh
  | win c cd hcd hc ht hnone hquorum => exact hinv.win hmono hcd hc ht hnone hquorum
  | append v k e hlead hterm hpos => exact hinv.append hmono hlead hterm hpos
  | receive v t k lg hle hlead hpfx hkeep => exact hinv.receive hmono hle hlead hpfx hkeep
  | commit c hpfx hterm hquorum => exact hinv.commit hmono hpfx hterm hquorum

end Steps

theorem inv_initial (h : Initial s) : Inv s Quorum := by
  have hground : ∀ k, Grounded s k [] :=
    fun k => ⟨List.Pairwise.nil, fun p e hpe => by simp at hpe⟩
  refine ⟨⟨fun t _ k => h.leaderLog t k, fun t v hv => ?_, fun v _ => ?_, fun t k => ?_,
    fun t k => ?_, fun v k => ?_, fun v k => ?_⟩, by simp [h.held], by simp [h.candidacies],
    by simp [h.candidacies], by simp [h.votes], by simp [h.votes], by simp [h.votes],
    fun t c ht hc => ?_, by simp [h.commits]⟩
  · by_contra hlt
    have := h.leader t (by omega)
    simp [hv] at this
  · funext k
    rw [h.log, h.leaderLog]
  · rw [h.leaderLog]
    exact hground k
  · simp [h.leaderLog]
  · rw [h.log]
    exact hground k
  · simp [h.log]
  · simp [h.leader t ht] at hc

end DewDB.LogReplication
