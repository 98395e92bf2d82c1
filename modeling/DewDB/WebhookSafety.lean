import DewDB.WebhookInvariant

/-!
# The log and the streams of a webhook

The log grows by positions and registrations, and a new leader drops what was not settled. The
position of an acknowledged batch has everything below it acknowledged, counted as a gap or passed
before.
-/
namespace DewDB.Webhook

open Changefeed JsonValue

variable {ι N : Type} [Number N] [DecidableEq N] {s t : State ι N}

section Logs

omit [Number N] [DecidableEq N] in
theorem split_concat {α : Type} {as front back : List α} {a b : α}
    (h : as ++ [a] = front ++ b :: back) :
    (front = as ∧ b = a) ∨ ∃ rest, as = front ++ b :: rest := by
  rcases List.eq_nil_or_concat back with rfl | ⟨rest, c, rfl⟩
  · obtain ⟨hfront, hb⟩ := List.append_inj' h rfl
    exact .inl ⟨hfront.symm, (List.singleton_inj.mp hb).symm⟩
  · rw [List.concat_eq_append, ← List.cons_append, ← List.append_assoc] at h
    exact .inr ⟨rest, (List.append_inj' h rfl).1⟩

theorem Inv.append (h : Inv s) {entry : Entry N} (hentry : s.EntryOk s.entries entry)
    (hpositions : (positions (s.entries ++ [entry])).Pairwise (· ≤ ·))
    (hsinces : (sinces (s.entries ++ [entry])).Pairwise (· ≤ ·))
    (hopened : ∀ i x, s.opened = some i → s.senders i = some x → s.inForce x.node = true →
      x.stage.streams = true → ({ s with entries := s.entries ++ [entry] } : State ι N).Current x)
    (hadmin : ∀ n, s.administering = some n → s.inForce n = true → ∀ a ∈ (s.nodes n).admin,
      a.subscription = none → registered (s.entries ++ [entry]) = none) :
    Inv { s with entries := s.entries ++ [entry] } := by
  have hcommitted : ({ s with entries := s.entries ++ [entry] } : State ι N).committed =
    s.committed :=
    List.take_append_of_le_length h.settled
  have hg : Grows s { s with entries := s.entries ++ [entry] } := by
    constructor
    · exact Nat.le_refl _
    · exact fun e he => .inl he
    · intro lsn hpassed
      rw [State.Passed, hcommitted]
      exact hpassed
    · exact fun _ hl => hl
    · exact fun _ hg => hg
    · exact Nat.le_refl _
  constructor
  · exact h.events
  · rw [List.length_append]
    exact h.settled.trans (Nat.le_add_right _ _)
  · exact hpositions
  · exact hsinces
  · intro front b back hsplit
    rcases split_concat hsplit with ⟨rfl, rfl⟩ | ⟨rest, hrest⟩
    · exact hg.entryOk hentry
    · exact hg.entryOk (h.entries front b rest hrest)
  · exact fun n => hg.nodeOk (h.nodes n)
  · exact fun i x hx => hg.senderOk (h.senders i x hx)
  · exact hopened
  · exact hadmin

theorem Inv.settle (h : Inv s) (hlt : s.settled < s.entries.length) :
    Inv { s with settled := s.settled + 1 } := by
  have hstart : s.committed <+: ({ s with settled := s.settled + 1 } : State ι N).committed :=
    List.take_prefix_take_left (Nat.le_succ _)
  have hg : Grows s { s with settled := s.settled + 1 } := by
    constructor
    · exact Nat.le_refl _
    · exact fun e he => .inl he
    · exact fun lsn => passed_of_start hstart h.positionsUp h.sincesUp fun _ hg => hg
    · exact fun _ hl => hl
    · exact fun _ hg => hg
    · exact Nat.le_succ _
  exact h.frame hg h.events rfl hlt (fun _ => .inl rfl) (fun _ _ hx =>
    .inl hx) h.opened h.administering

theorem Inv.elect [DecidableEq ι] (h : Inv s) (n : ι) {keep : ℕ} (hkeep : s.settled ≤ keep)
    (hle : keep ≤ s.entries.length) :
    Inv (s.elect n keep) := by
  have hstart : s.entries.take keep <+: s.entries := List.take_prefix _ _
  have hcommitted : (s.elect n keep).committed = s.committed := by
    have htake : (s.entries.take keep).take s.settled = s.entries.take s.settled := by
      rw [List.take_take, Nat.min_eq_left hkeep]
    exact htake
  have hg : Grows s (s.elect n keep) := by
    constructor
    · exact Nat.le_refl _
    · exact fun e he => .inl he
    · intro lsn hpassed
      rw [State.Passed, hcommitted]
      exact hpassed
    · exact fun _ hl => hl
    · exact fun _ hg => hg
    · exact Nat.le_refl _
  constructor
  · exact h.events
  · exact hkeep.trans (List.length_take_of_le hle).ge
  · exact h.positionsUp.sublist (positions_start hstart).sublist
  · exact h.sincesUp.sublist (sinces_start hstart).sublist
  · intro front entry back hsplit
    have hall : s.entries = front ++ entry :: (back ++ s.entries.drop keep) := by
      rw [← List.cons_append, ← List.append_assoc]
      exact (List.take_append_drop keep s.entries).symm.trans (congrArg (· ++ _) hsplit)
    exact hg.entryOk (h.entries front entry _ hall)
  · intro m
    by_cases hmn : m = n
    · subst hmn
      obtain ⟨happlied, hfloor, hposition, hprogress, hheld, hsaved, hadmin⟩ :=
        hg.nodeOk (h.nodes m)
      have hnode : (s.elect m keep).nodes m = { s.nodes m with leads := some (s.term + 1) } :=
        Function.update_self _ _ _
      rw [hnode]
      exact ⟨happlied, hfloor, hposition, hprogress, hheld, hsaved, hadmin⟩
    · have hnode : (s.elect n keep).nodes m = s.nodes m := Function.update_of_ne hmn _ _
      rw [hnode]
      exact hg.nodeOk (h.nodes m)
  · exact fun i x hx => hg.senderOk (h.senders i x hx)
  · intro i x hopened
    cases hopened
  · intro m hadministering
    cases hadministering

end Logs

section Registrations

theorem Inv.safe_of_seen (h : Inv s) {progress : ℕ} (hprogress : progress ≤ s.settled)
    {r : Subscription N}
    (hr : catalogue (s.entries.take progress) = some (some r)) : s.Safe r.delivery.position := by
  obtain ⟨front, back, hsplit⟩ := split_catalogue hr
  have hall : s.entries = front ++ .registrations
    (some r) :: (back ++ s.entries.drop progress) := by
    rw [← List.cons_append, ← List.append_assoc, ← hsplit, List.take_append_drop]
  obtain ⟨-, hwithin, hpassed⟩ := h.entries front _ _ hall r rfl
  have hstart : s.entries.take progress <+: s.committed := List.take_prefix_take_left hprogress
  have hmem : r.since ∈ sinces s.committed := by
    apply (sinces_start hstart).subset
    rw [hsplit, sinces]
    exact List.mem_filterMap.mpr ⟨_, List.mem_append_right _ List.mem_cons_self, rfl⟩
  have hsinces : (sinces s.committed).Pairwise (· ≤ ·) :=
    h.sincesUp.sublist (sinces_start (List.take_prefix _ _)).sublist
  refine ⟨hwithin, fun lsn hle => ?_⟩
  rcases hpassed lsn hle with hpassed | hsince
  · exact hpassed
  · exact .inr (.inr (hsince.trans (le_lastOf hsinces hmem)))

theorem Inv.reconciled (h : Inv s) (n : ι) :
    ∀ sub ∈ reconcileRegistrations (s.seen n) (s.nodes n).held, s.Safe sub.delivery.position := by
  intro sub hsub
  unfold reconcileRegistrations at hsub
  cases hcat : catalogue (s.seen n) with
  | none =>
    rw [hcat] at hsub
    exact (h.nodes n).held sub hsub
  | some wanted =>
    rw [hcat] at hsub
    obtain ⟨r, rfl, hr⟩ := Option.map_eq_some_iff.mp hsub
    have hsafe := h.safe_of_seen (h.nodes n).progress hcat
    cases hheld : (s.nodes n).held with
    | none =>
      rw [hheld] at hr
      exact hr ▸ hsafe
    | some old =>
      have hold : s.Safe old.delivery.position := (h.nodes n).held old hheld
      rw [hheld] at hr
      dsimp only at hr
      split_ifs at hr
      · exact hr ▸ hold
      · rw [← hr]
        dsimp only
        rcases Nat.le_total r.delivery.position old.delivery.position with hle | hle
        · rwa [Nat.max_eq_right hle]
        · rwa [Nat.max_eq_left hle]

omit [Number N] [DecidableEq N] in
theorem reconcile_none {entries : List (Entry N)} {held : Option (Subscription N)}
    (h : reconcileRegistrations entries held = none) : registered entries = none := by
  unfold reconcileRegistrations at h
  rw [registered]
  cases hcat : catalogue entries with
  | none => rfl
  | some wanted =>
    rw [hcat] at h
    rw [Option.join_some]
    exact Option.map_eq_none_iff.mp h

end Registrations

section Bounds

omit [Number N] [DecidableEq N] in
theorem lastOf_lsn {events : List (ChangeEvent (Json N))} {e : ChangeEvent (Json N)}
    (h : events.Pairwise fun e d => e.lsn < d.lsn) (he : e ∈ events) :
    e.lsn ≤ lastOf (events.map ChangeEvent.lsn) :=
  le_lastOf ((List.pairwise_map.mpr h).imp fun hlt => hlt.le) (List.mem_map_of_mem he)

theorem Inv.le_watermark (h : Inv s) {e : ChangeEvent (Json N)} (he : e ∈ s.events) :
    e.lsn ≤ s.watermark :=
  lastOf_lsn h.events he

omit [Number N] [DecidableEq N] in
theorem State.Safe.of_le {p q : ℕ} (h : s.Safe q) (hle : p ≤ q) : s.Safe p :=
  ⟨hle.trans h.within, fun lsn hlsn => h.passed lsn (hlsn.trans hle)⟩

omit [Number N] [DecidableEq N] in
theorem State.Safe.max {p q : ℕ} (hp : s.Safe p) (hq : s.Safe q) : s.Safe (max p q) := by
  rcases Nat.le_total p q with hle | hle
  · rwa [Nat.max_eq_right hle]
  · rwa [Nat.max_eq_left hle]

theorem Inv.safe_seen (h : Inv s) (n : ι) : s.Safe (replicatedPosition (s.seen n)) := by
  constructor
  · apply lastOf_le
    intro p hp
    have hstart : s.seen n <+: s.entries := List.take_prefix _ _
    obtain ⟨entry, hentry, heq⟩ := List.mem_filterMap.mp ((positions_start hstart).subset hp)
    cases entry with
    | registrations held => cases heq
    | position q =>
      obtain rfl := Option.some.inj heq
      obtain ⟨front, back, hsplit⟩ := List.append_of_mem hentry
      exact (h.entries front _ back hsplit).1
  · intro lsn hle
    have hstart : s.seen n <+: s.committed := List.take_prefix_take_left (h.nodes n).progress
    have hup : (positions s.committed).Pairwise (· ≤ ·) :=
      h.positionsUp.sublist (positions_start (List.take_prefix _ _)).sublist
    exact .inl (hle.trans (lastOf_start (positions_start hstart) hup))

omit [Number N] [DecidableEq N] in
theorem seen_of_force {n : ι} (hforce : s.inForce n = true) (hpending : s.pending n = false) :
    s.seen n = s.entries := by
  rw [State.pending, hforce, Bool.true_and, bne_eq_false_iff_eq] at hpending
  rw [State.seen, hpending, List.take_length]

end Bounds

section Streams

variable {x : Sender ι N}

omit [Number N] [DecidableEq N] in
theorem lastOf_batch {events : List (ChangeEvent (Json N))} (h : events ≠ []) :
    ∃ e ∈ events, e.lsn = lastOf (events.map ChangeEvent.lsn) :=
  List.mem_map.mp (lastOf_mem (List.map_eq_nil_iff.not.mpr h))

theorem State.Safe.stream {position : ℕ} (h : s.Safe position) {x : Sender ι N}
    (hcursor : x.cursor = position)
    (hqueue : x.queue = []) (hbatch : x.batch = []) : s.Stream x := by
  refine ⟨hcursor ▸ h.within, ?_, ?_, fun e _ hle _ => .inl (h.passed e.lsn (hcursor ▸ hle))⟩
  · rw [hqueue, hbatch]
    exact nofun
  · rw [hqueue, hbatch]
    exact List.Pairwise.nil

theorem State.Stream.read (h : s.Stream x)
    (hevents : s.events.Pairwise fun e d => e.lsn < d.lsn) {through : ℕ}
    (hempty : x.queue = []) (hlt : x.cursor < through) (hwithin : through ≤ s.watermark) :
    s.Stream { x with
      cursor := through
      queue := s.changes x.cursor through } := by
  have hmem : ∀ e, e ∈ s.changes x.cursor through ↔
    e ∈ s.events ∧ x.cursor < e.lsn ∧ e.lsn ≤ through := by
    intro e
    simp [State.changes]
  obtain ⟨-, hbelow, hordered, hkept⟩ := h
  rw [hempty, List.append_nil] at hbelow hordered hkept
  refine ⟨hwithin, fun e he => ?_, ?_, fun e he hle hadmits => ?_⟩
  · rcases List.mem_append.mp he with he | he
    · exact (hbelow e he).trans hlt.le
    · exact ((hmem e).mp he).2.2
  · apply List.pairwise_append.mpr
    refine ⟨hordered, hevents.filter _, fun e he d hd => ?_⟩
    exact (hbelow e he).trans_lt ((hmem d).mp hd).2.1
  · rcases Nat.lt_or_ge x.cursor e.lsn with hnew | hold
    · exact .inr (.inr (List.mem_append_right _ ((hmem e).mpr ⟨he, hnew, hle⟩)))
    · exact (hkept e he hold hadmits).imp_right (Or.imp_right (List.mem_append_left _))

theorem State.Stream.take (h : s.Stream x) {e : ChangeEvent (Json N)}
    {rest : List (ChangeEvent (Json N))} (hqueue : x.queue = e :: rest) :
    s.Stream { x with
      queue := rest
      batch := if x.filter.admits e then x.batch ++ [e] else x.batch } := by
  obtain ⟨hwithin, hbelow, hordered, hkept⟩ := h
  rw [hqueue] at hbelow hordered hkept
  have hsub : ((if x.filter.admits e then x.batch ++ [e] else x.batch) ++ rest).Sublist
    (x.batch ++ e :: rest) := by
    split_ifs
    · rw [List.append_assoc]
      exact List.Sublist.refl _
    · exact (List.sublist_cons_self e rest).append_left x.batch
  refine ⟨hwithin, fun d hd => hbelow d (hsub.subset hd), hordered.sublist hsub,
    fun d hd hle hadmits => ?_⟩
  rcases hkept d hd hle hadmits with hpassed | hacked | hin
  · exact .inl hpassed
  · exact .inr (.inl hacked)
  · refine .inr (.inr ?_)
    dsimp only
    split_ifs with hadmit
    · rwa [List.append_assoc]
    · rcases List.mem_append.mp hin with hin | hin
      · exact List.mem_append_left rest hin
      · rcases List.mem_cons.mp hin with rfl | hin
        · exact absurd hadmits hadmit
        · exact List.mem_append_right _ hin

theorem State.Stream.release (h : s.Stream x) (hacked : ∀ e ∈ x.batch, e.lsn ∈ s.acked)
    {y : Sender ι N}
    (hcursor : y.cursor = x.cursor) (hfilter : y.filter = x.filter) (hqueue : y.queue = x.queue)
    (hbatch : y.batch = []) :
    s.Stream y := by
  have hsub : (y.batch ++ y.queue).Sublist (x.batch ++ x.queue) := by
    rw [hbatch, hqueue]
    exact List.sublist_append_right _ _
  refine ⟨hcursor ▸ h.within, fun e he => hcursor ▸ h.below e (hsub.subset he),
    h.ordered.sublist hsub, ?_⟩
  intro e he hle hadmits
  rw [hcursor] at hle
  rw [hfilter] at hadmits
  rcases h.kept e he hle hadmits with hpassed | hacked' | hin
  · exact .inl hpassed
  · exact .inr (.inl hacked')
  · rcases List.mem_append.mp hin with hin | hin
    · exact .inr (.inl (hacked e hin))
    · exact .inr (.inr (List.mem_append_right _ (hqueue ▸ hin)))

/-- The position of an acknowledged batch passes nothing that is not covered, when the stream has
the filter that is registered. -/
theorem Inv.entryOk_position (h : Inv s) (hstream : s.Stream x) (hne : x.batch ≠ [])
    (hacked : ∀ e ∈ x.batch, e.lsn ∈ s.acked)
    (hfilter : ∀ r, registered s.entries = some r → r.filter = x.filter) :
    s.EntryOk s.entries (.position (lastOf (x.batch.map ChangeEvent.lsn))) := by
  obtain ⟨last, hlast, hlsn⟩ := lastOf_batch hne
  have hcursor : lastOf (x.batch.map ChangeEvent.lsn) ≤ x.cursor :=
    hlsn ▸ hstream.below last (List.mem_append_left _ hlast)
  have hstart : s.committed <+: s.entries := List.take_prefix _ _
  refine ⟨hcursor.trans hstream.within, fun r hr e he hsince hpassed hle hadmits => ?_⟩
  rw [hfilter r hr] at hadmits
  rcases hstream.kept e he (hle.trans hcursor) hadmits with (hold | hgap | hold) | hin | hin
  · have hle' := lastOf_start (positions_start hstart) h.positionsUp
    exact absurd (hold.trans hle') (Nat.not_le.mpr hpassed)
  · exact .inr hgap
  · have hle' := lastOf_start (sinces_start hstart) h.sincesUp
    rw [lastOf_sinces hr] at hle'
    exact absurd (hold.trans hle') (Nat.not_le.mpr hsince)
  · exact .inl hin
  · rcases List.mem_append.mp hin with hin | hin
    · exact .inl (hacked e hin)
    · have hlt := (List.pairwise_append.mp hstream.ordered).2.2 last hlast e hin
      rw [hlsn] at hlt
      exact absurd hle (Nat.not_le.mpr hlt)

end Streams

end DewDB.Webhook
