import DewDB.TransitionSystem
import DewDB.WebhookSafety

/-!
# A webhook is delivered at least once

Each step keeps the invariant, as long as writes to the log are made by who is in charge and the
feed hands a stream all that it moves over.
-/
namespace DewDB.Webhook

open Changefeed JsonValue TransitionSystem

variable {ι N : Type} [Number N] [DecidableEq N] {s t : State ι N}

section Senders

variable {i : ℕ} {x : Sender ι N}

omit [Number N] [DecidableEq N] in
theorem inForce_note [DecidableEq ι] (s : State ι N) (n m : ι) (change : Delivery → Delivery) :
    (s.setNode n ((s.nodes n).note change)).inForce m = s.inForce m := by
  rw [State.inForce, State.inForce, State.setNode]
  dsimp only
  by_cases hmn : m = n
  · rw [hmn, Function.update_self]
    rfl
  · rw [Function.update_of_ne hmn]

omit [Number N] [DecidableEq N] in
theorem note_id (node : Node N) : node.note id = node := by
  simp [Node.note]

omit [Number N] [DecidableEq N] in
theorem note_note (node : Node N) (change change' : Delivery → Delivery) :
    (node.note change).note change' = node.note fun d => change' (change d) := by
  simp [Node.note, Function.comp_def]

theorem Inv.setIdle (h : Inv s) {y : Sender ι N}
    (hstage : y.stage = .opening ∨ y.stage = .returned) : Inv (s.setSender i y) := by
  apply h.setSender
  · rcases hstage with hstage | hstage <;> (rw [State.SenderOk, hstage]; trivial)
  · intro _ _ hstreams
    rcases hstage with hstage | hstage <;> (rw [hstage] at hstreams; cases hstreams)

theorem senderOk_reading {y : Sender ι N} (hstage : y.stage = .reading) (h : s.Stream y) :
    s.SenderOk y := by
  rw [State.SenderOk, hstage]
  exact h

theorem Inv.setStream (h : Inv s) (hx : s.senders i = some x) (hstreams : x.stage.streams = true)
    {y : Sender ι N}
    (hnode : y.node = x.node) (hok : s.SenderOk y) (hcurrent : s.Current x → s.Current y) :
    Inv (s.setSender i y) :=
  h.setSender hok fun hi hforce _ => hcurrent (h.opened i x hi hx (hnode ▸ hforce) hstreams)

theorem Inv.peek (h : Inv s) {sub : Subscription N} (hsub : (s.nodes x.node).held = some sub) :
    Inv (s.setSender i { x with stage := .chosen sub }) :=
  h.setSender ((h.nodes x.node).held sub hsub) fun _ _ hstreams => by cases hstreams

theorem Inv.openAt [DecidableEq ι] (h : Inv s) (hx : s.senders i = some x) {sub : Subscription N}
    (hstage : x.stage = .chosen sub)
    (hpending : s.pending x.node = false) (lastAppended : ℕ) :
    Inv (s.openAt i x sub lastAppended) := by
  have hsub : s.Safe sub.delivery.position := by
    have hok := h.senders i x hx
    rwa [State.SenderOk, hstage] at hok
  obtain ⟨position, hposition⟩ :
      ∃ p, p = max sub.delivery.position (replicatedPosition (s.seen x.node)) := ⟨_, rfl⟩
  have hsafe : s.Safe position := hposition ▸ hsub.max (h.safe_seen x.node)
  have hnoted : ∃ change : Delivery → Delivery, (if sub.delivery.position < position then
      (s.nodes x.node).note fun d => { d with position := max d.position position }
        else s.nodes x.node) =
        (s.nodes x.node).note change ∧ ∀ r ∈ (s.nodes x.node).held,
          s.Safe (change r.delivery).position := by
    split_ifs
    · exact ⟨_, rfl, fun r hr => ((h.nodes x.node).held r hr).max hsafe⟩
    · exact ⟨id, (note_id _).symm, fun r hr => (h.nodes x.node).held r hr⟩
  obtain ⟨change, hnote, hchange⟩ := hnoted
  have hopening : ∀ change' : Delivery → Delivery, ∀ s' : State ι N, Inv s' → s'.nodes = s.nodes →
      (∀ r ∈ (s.nodes x.node).held, s'.Safe (change' r.delivery).position) →
      Inv ((s'.setSender i { x with stage := .opening }).setNode x.node
        ((s.nodes x.node).note change')) := by
    intro change' s' h' hnodes hr
    rw [← hnodes] at hr ⊢
    exact (h'.setIdle (i := i) (.inl rfl)).note x.node fun r hr' => by
      obtain ⟨hwithin, hpassed⟩ := hr r hr'
      exact ⟨hwithin, hpassed⟩
  unfold State.openAt
  dsimp only
  rw [← hposition, hnote]
  by_cases hahead : (s.nodes x.node).feed.position < position
  · rw [if_pos hahead]
    split_ifs
    · exact hopening change s h rfl hchange
    · rw [note_note]
      exact hopening _ s h rfl fun _ _ => hsafe.of_le hahead.le
  · rw [if_neg hahead]
    by_cases hbelow : position < (s.nodes x.node).feed.resumeFloor
    · rw [if_pos hbelow, note_note]
      obtain ⟨missed, hmissed⟩ : ∃ missed, missed = if (s.nodes x.node).held.isSome then
          (position, (s.nodes x.node).feed.resumeFloor) :: s.missed else s.missed := ⟨_, rfl⟩
      rw [← hmissed]
      have hsub : ∀ g ∈ s.missed, g ∈ missed := by
        intro g hg
        rw [hmissed]
        split_ifs
        · exact List.mem_cons_of_mem _ hg
        · exact hg
      apply hopening _ { s with missed } (h.setMissed hsub) rfl
      intro r hr
      rw [hr, Option.isSome_some, if_pos rfl] at hmissed
      refine ⟨(h.nodes x.node).floor, fun lsn hle => ?_⟩
      rcases Nat.lt_or_ge position lsn with hlt | hge
      · exact .inr (.inl ⟨(position, (s.nodes x.node).feed.resumeFloor),
          hmissed ▸ List.mem_cons_self, hlt, hle⟩)
      · rcases hsafe.passed lsn hge with hpassed | ⟨g, hg, hin⟩ | hold
        · exact .inl hpassed
        · exact .inr (.inl ⟨g, hsub g hg, hin⟩)
        · exact .inr (.inr hold)
    · rw [if_neg hbelow]
      have hnode := h.note x.node hchange
      have hstart : (s.setNode x.node ((s.nodes x.node).note change)).Safe position :=
        ⟨hsafe.within, hsafe.passed⟩
      have hstream : (s.setNode x.node ((s.nodes x.node).note change)).Stream { x with
          stage := .reading
          filter := sub.filter
          cursor := position
          queue := []
          batch := []
          ended := false } := hstart.stream rfl rfl rfl
      cases hforce : s.inForce x.node with
      | true =>
        have hopened := hnode.setOpened (i := i) fun y hy hstreams => by
          obtain rfl := Option.some.inj (hx.symm.trans hy)
          rw [hstage] at hstreams
          cases hstreams
        have hlog : replicatedPosition s.entries ≤ position := by
          rw [hposition, seen_of_force hforce hpending]
          exact Nat.le_max_right _ _
        exact hopened.setSender (i := i) ⟨hstream.within, hstream.below,
          hstream.ordered, hstream.kept⟩
          fun _ _ _ => ⟨hlog, fun e he => absurd he List.not_mem_nil, fun hne => absurd rfl hne⟩
      | false =>
        apply hnode.setSender (i := i) (senderOk_reading (by rfl) hstream)
        intro _ hin
        rw [inForce_note, hforce] at hin
        cases hin

theorem Inv.read (h : Inv s) (hx : s.senders i = some x) (hstage : x.stage = .reading)
    (hempty : x.queue = [])
    {through : ℕ} (hlt : x.cursor < through) (hwithin : through ≤ (s.nodes x.node).feed.position)
    {lost : List ℕ} (hlost : ∀ e ∈ s.changes x.cursor through, e.lsn ∉ lost) :
    Inv (s.setSender i { x with
      cursor := through
      queue := (s.changes x.cursor through).filter fun e => !lost.contains e.lsn }) := by
  have hall : ((s.changes x.cursor through).filter fun e => !lost.contains e.lsn) =
    s.changes x.cursor through := by
    rw [List.filter_eq_self]
    intro e he
    simpa using hlost e he
  have hok := h.senders i x hx
  rw [State.SenderOk, hstage] at hok
  rw [hall]
  apply h.setStream hx (by rw [hstage]; rfl) (by rfl)
  · exact senderOk_reading hstage
      (hok.read h.events hempty hlt (hwithin.trans (h.nodes x.node).position))
  · rintro ⟨hcursor, -, hbatch⟩
    refine ⟨hcursor.trans hlt.le, fun e he => ?_, hbatch⟩
    have hin : x.cursor < e.lsn ∧ e.lsn ≤ through := by simpa using (List.mem_filter.mp he).2
    exact hcursor.trans hin.1.le

theorem Inv.take (h : Inv s) (hx : s.senders i = some x) (hstage : x.stage = .reading)
    {e : ChangeEvent (Json N)} {rest : List (ChangeEvent (Json N))} (hqueue : x.queue = e :: rest) :
    Inv (s.setSender i { x with
      queue := rest
      batch := if x.filter.admits e then x.batch ++ [e] else x.batch }) := by
  have hok := h.senders i x hx
  rw [State.SenderOk, hstage] at hok
  apply h.setStream hx (by rw [hstage]; rfl) (by rfl)
  · exact senderOk_reading hstage (hok.take hqueue)
  · rintro ⟨hcursor, hin, hbatch⟩
    rw [hqueue] at hin
    refine ⟨hcursor, fun d hd => hin d (List.mem_cons_of_mem e hd), fun hne => ?_⟩
    dsimp only at hne ⊢
    split_ifs at hne ⊢
    · rw [List.map_append, List.map_singleton, lastOf_concat]
      exact hin e List.mem_cons_self
    · exact hbatch hne

theorem Inv.close (h : Inv s) (hx : s.senders i = some x) (hstage : x.stage = .reading)
    (hne : x.batch ≠ [])
    (ended : Bool) : Inv (s.setSender i { x with
      stage := .posting
      ended }) := by
  have hok := h.senders i x hx
  rw [State.SenderOk, hstage] at hok
  apply h.setStream hx (by rw [hstage]; rfl) (by rfl)
  · exact ⟨⟨hok.within, hok.below, hok.ordered, hok.kept⟩, hne⟩
  · exact fun hcurrent => ⟨hcurrent.cursor, hcurrent.queue, hcurrent.batch⟩

theorem Inv.posted [DecidableEq ι] (h : Inv s) (hx : s.senders i = some x)
    (hstage : x.stage = .posting) (outcome : Outcome) : Inv (s.posted i x outcome) := by
  cases outcome with
  | success =>
    have hok := h.senders i x hx
    rw [State.SenderOk, hstage] at hok
    obtain ⟨hstream, hne⟩ := hok
    have hacked := h.setAcked (x.batch.map ChangeEvent.lsn)
    have hg : Grows s { s with acked := x.batch.map ChangeEvent.lsn ++ s.acked } :=
      .of_same rfl rfl rfl (fun _ hl => List.mem_append_right _ hl) (fun _ hg => hg)
    obtain ⟨hwithin, hbelow, hordered, hkept⟩ := hg.stream hstream
    apply hacked.setStream (i := i) (x := x) hx (by rw [hstage]; rfl) (by rfl)
    · refine ⟨⟨hwithin, hbelow, hordered, hkept⟩, hne, fun e he => ?_⟩
      exact List.mem_append_left _ (List.mem_map_of_mem he)
    · exact fun hcurrent => ⟨hcurrent.cursor, hcurrent.queue, hcurrent.batch⟩
  | gone => exact (h.note x.node fun r hr => (h.nodes x.node).held r hr).setIdle (.inr rfl)
  | failed error => exact h.note x.node fun r hr => (h.nodes x.node).held r hr

theorem Inv.checked [DecidableEq ι] (h : Inv s) (hx : s.senders i = some x)
    (hstage : x.stage = .acknowledged) : Inv (s.checked i x) := by
  have hok := h.senders i x hx
  rw [State.SenderOk, hstage] at hok
  obtain ⟨hstream, hne, hacked⟩ := hok
  have hnote := @Inv.note _ _ _ _ _ _ h x.node fun d => { d with
    attempts := d.attempts + 1
    delivered := d.delivered + x.batch.length
    failures := 0
    lastError := none
    position := lastOf (x.batch.map ChangeEvent.lsn) }
  unfold State.checked
  dsimp only
  by_cases hseen : lastOf (x.batch.map ChangeEvent.lsn) ≤ replicatedPosition (s.seen x.node)
  · rw [if_pos hseen]
    have hnode := hnote fun _ _ => (h.safe_seen x.node).of_le hseen
    cases hended : x.ended with
    | true => exact hnode.setIdle (.inl rfl)
    | false =>
      obtain ⟨hwithin, hbelow, hordered, hkept⟩ := hstream.release hacked (y := { x with
        stage := .reading
        batch := [] }) rfl rfl rfl rfl
      apply hnode.setStream (i := i) hx (by rw [hstage]; rfl) (by rfl)
      · exact ⟨hwithin, hbelow, hordered, hkept⟩
      · exact fun hcurrent => ⟨hcurrent.cursor, hcurrent.queue, fun hne => absurd rfl hne⟩
  · rw [if_neg hseen]
    split_ifs
    · exact h.setIdle (.inr rfl)
    · apply h.setStream hx (by rw [hstage]; rfl) (by rfl)
      · exact ⟨⟨hstream.within, hstream.below, hstream.ordered, hstream.kept⟩, hne, hacked⟩
      · exact fun hcurrent => ⟨hcurrent.cursor, hcurrent.queue, hcurrent.batch⟩

/-- The sender in charge writes a position with the filter that is registered. -/
theorem Inv.write [DecidableEq ι] (h : Inv s) (hx : s.senders i = some x)
    (hstage : x.stage = .writing)
    (hcharge : s.inForce x.node = true →
      s.opened = some i ∧ ∀ r, registered s.entries = some r → r.filter = x.filter) :
    Inv ((s.append x.node (.position (lastOf (x.batch.map ChangeEvent.lsn)))).setSender i { x with
      stage := if x.aborted then .returned else .acknowledged }) := by
  have hok := h.senders i x hx
  rw [State.SenderOk, hstage] at hok
  obtain ⟨hstream, hne, hacked⟩ := hok
  obtain ⟨last, hlast, hlsn⟩ := lastOf_batch hne
  have hafter : ∀ s', Inv s' → s'.senders i = some x → Inv (s'.setSender i { x with
      stage := if x.aborted then .returned else .acknowledged }) := by
    intro s' h' hx'
    have hok' := h'.senders i x hx'
    rw [State.SenderOk, hstage] at hok'
    obtain ⟨hstream', -, hacked'⟩ := hok'
    split_ifs
    · exact h'.setIdle (.inr rfl)
    · apply h'.setStream hx' (by rw [hstage]; rfl) (by rfl)
      · exact ⟨⟨hstream'.within, hstream'.below, hstream'.ordered, hstream'.kept⟩, hne, hacked'⟩
      · exact fun hcurrent => ⟨hcurrent.cursor, hcurrent.queue, hcurrent.batch⟩
  cases hforce : s.inForce x.node with
  | false =>
    rw [State.append, hforce, if_neg Bool.false_ne_true]
    exact hafter s h hx
  | true =>
    obtain ⟨hopened, hfilter⟩ := hcharge hforce
    have hcurrent := h.opened i x hopened hx hforce (by rw [hstage]; rfl)
    rw [State.append, hforce, if_pos rfl]
    refine hafter { s with entries := _ } ?_ hx
    apply h.append (h.entryOk_position hstream hne hacked hfilter)
    · rw [positions_concat]
      exact pairwise_concat h.positionsUp (hcurrent.batch hne)
    · rw [sinces_position]
      exact h.sincesUp
    · intro j y hj hy _ _
      obtain rfl : i = j := Option.some.inj (hopened.symm.trans hj)
      obtain rfl := Option.some.inj (hx.symm.trans hy)
      have hposition : replicatedPosition
        (s.entries ++ [Entry.position (lastOf (x.batch.map ChangeEvent.lsn))]) =
          lastOf (x.batch.map ChangeEvent.lsn) := by
        rw [replicatedPosition, positions_concat, lastOf_concat]
      constructor
      · dsimp only
        rw [hposition, ← hlsn]
        exact hstream.below last (List.mem_append_left _ hlast)
      · intro e he
        dsimp only
        rw [hposition, ← hlsn]
        exact ((List.pairwise_append.mp hstream.ordered).2.2 last hlast e he).le
      · exact fun _ => hposition.le
    · rw [registered_position]
      exact h.administering

theorem Inv.abort [DecidableEq ι] (h : Inv s) (hx : s.senders i = some x) :
    Inv (s.setSender i { x with
      aborted := true
      stage := match x.stage with
        | .writing => .writing
        | _ => .returned }) := by
  cases hstage : x.stage with
  | writing =>
    have hok := h.senders i x hx
    rw [State.SenderOk, hstage] at hok
    obtain ⟨hstream, hne, hacked⟩ := hok
    apply h.setStream hx (by rw [hstage]; rfl) (by rfl)
    · exact ⟨⟨hstream.within, hstream.below, hstream.ordered, hstream.kept⟩, hne, hacked⟩
    · exact fun hcurrent => ⟨hcurrent.cursor, hcurrent.queue, hcurrent.batch⟩
  | _ => exact h.setIdle (.inr rfl)

theorem senderStep_inv [DecidableEq ι] {batchMaxEvents : ℕ} {label : Label ι N} (h : Inv s)
    (hx : s.senders i = some x) (hlabel : label.sender? = some i) (hok : Undisturbed s label)
    (hstep : senderStep batchMaxEvents s i x label = some t) : Inv t := by
  cases label with
  | peek j =>
    unfold senderStep at hstep
    dsimp only at hstep
    split at hstep
    · next sub hstage hheld => exact Option.some.inj hstep ▸ h.peek hheld
    · cases hstep
  | subscribe j lastAppended =>
    unfold senderStep at hstep
    dsimp only at hstep
    split at hstep
    · next sub hstage =>
      split_ifs at hstep with hpending
      · exact Option.some.inj hstep ▸ h.setIdle (.inl rfl)
      · exact Option.some.inj hstep ▸ h.openAt hx hstage
          (Bool.not_eq_true _ ▸ hpending) lastAppended
    · cases hstep
  | read j through lost =>
    obtain rfl := Option.some.inj hlabel
    unfold senderStep at hstep
    dsimp only at hstep
    split at hstep
    · next hstage hqueue =>
      split_ifs at hstep with hguard
      exact Option.some.inj hstep ▸ h.read hx hstage hqueue hguard.2.1 hguard.2.2 (hok x hx)
    · cases hstep
  | take j =>
    unfold senderStep at hstep
    dsimp only at hstep
    split at hstep
    · next e rest hstage hqueue =>
      by_cases hroom : x.batch = [] ∨ x.batch.length < batchMaxEvents
      · rw [if_pos hroom] at hstep
        exact Option.some.inj hstep ▸ h.take hx hstage hqueue
      · rw [if_neg hroom] at hstep
        cases hstep
    · cases hstep
  | close j ended =>
    unfold senderStep at hstep
    dsimp only at hstep
    split at hstep
    · next e rest hstage hbatch =>
      split_ifs at hstep
      exact Option.some.inj hstep ▸ h.close hx hstage (hbatch ▸ List.cons_ne_nil e rest) ended
    · cases hstep
  | lapse j =>
    unfold senderStep at hstep
    dsimp only at hstep
    split at hstep
    · exact Option.some.inj hstep ▸ h.setIdle (.inl rfl)
    · cases hstep
  | post j outcome =>
    unfold senderStep at hstep
    dsimp only at hstep
    split at hstep
    · next hstage =>
      split_ifs at hstep
      exact Option.some.inj hstep ▸ h.posted hx hstage outcome
    · cases hstep
  | check j =>
    unfold senderStep at hstep
    dsimp only at hstep
    split at hstep
    · next hstage => exact Option.some.inj hstep ▸ h.checked hx hstage
    · cases hstep
  | write j =>
    obtain rfl := Option.some.inj hlabel
    unfold senderStep at hstep
    dsimp only at hstep
    split at hstep
    · next hstage => exact Option.some.inj hstep ▸ h.write hx hstage (hok x hx)
    · cases hstep
  | revoke j =>
    unfold senderStep at hstep
    dsimp only at hstep
    split at hstep
    all_goals first
      | exact Option.some.inj hstep ▸ (h.note x.node fun r hr =>
          (h.nodes x.node).held r hr).setIdle (.inr rfl)
      | cases hstep
  | giveUp j =>
    unfold senderStep at hstep
    dsimp only at hstep
    split at hstep
    · split_ifs at hstep
      exact Option.some.inj hstep ▸ h.setIdle (.inr rfl)
    · split_ifs at hstep
      exact Option.some.inj hstep ▸ h.setIdle (.inr rfl)
    · split_ifs at hstep
      exact Option.some.inj hstep ▸ h.setIdle (.inr rfl)
    · cases hstep
  | _ => cases hstep

end Senders

section Nodes

variable [DecidableEq ι]

/-- A node that is changed in what the log and the administration do not depend on. -/
theorem Inv.setSame (h : Inv s) {n : ι} {node : Node N} (hok : s.NodeOk node)
    (hleads : node.leads = some s.term → (s.nodes n).leads = some s.term)
    (hadmin : node.admin = (s.nodes n).admin) : Inv (s.setNode n node) := by
  apply h.setNode hok hleads
  intro hread hforce a ha
  rw [hadmin] at ha
  exact h.administering n hread (beq_iff_eq.mpr (hleads hforce)) a ha

omit [DecidableEq ι] in
theorem Inv.commit (h : Inv s) {e : ChangeEvent (Json N)} (hnew : s.watermark < e.lsn) :
    Inv { s with events := s.events ++ [e] } := by
  have hwatermark : ({ s with events := s.events ++ [e] } : State ι N).watermark = e.lsn := by
    rw [State.watermark, List.map_append, List.map_singleton, lastOf_concat]
  have hg : Grows s { s with events := s.events ++ [e] } := by
    constructor
    · rw [hwatermark]
      exact hnew.le
    · intro d hd
      rcases List.mem_append.mp hd with hd | hd
      · exact .inl hd
      · exact .inr (List.mem_singleton.mp hd ▸ hnew)
    · exact fun _ hpassed => hpassed
    · exact fun _ hl => hl
    · exact fun _ hg => hg
    · exact Nat.le_refl _
  apply h.frame hg _ rfl h.settled (fun _ => .inl rfl) (fun _ _ hx =>
    .inl hx) h.opened h.administering
  apply List.pairwise_append.mpr
  refine ⟨h.events, List.pairwise_singleton _ _, fun d hd e' he' => ?_⟩
  rw [List.mem_singleton.mp he']
  exact (h.le_watermark hd).trans_lt hnew

theorem Inv.restart (h : Inv s) (n : ι) {applied progress : ℕ} (happlied : applied ≤ s.watermark)
    (hprogress : progress ≤ s.settled) : Inv (s.restart n applied progress) := by
  have hnode : Inv (s.setNode n ⟨none, applied, ⟨applied, applied⟩, progress, (s.nodes n).saved,
    (s.nodes n).saved, none,
      none⟩) := by
    apply h.setNode
    · refine ⟨happlied, happlied, happlied, hprogress, (h.nodes n).saved, (h.nodes n).saved, ?_⟩
      intro a ha
      cases ha
    · intro hleads
      cases hleads
    · intro hadministering hleads
      cases hleads
  have hg : Grows (s.setNode n ⟨none, applied, ⟨applied, applied⟩, progress, (s.nodes n).saved,
    (s.nodes n).saved, none,
      none⟩) (s.restart n applied progress) :=
        .of_same rfl rfl rfl (fun _ hl => hl) (fun _ hg => hg)
  apply hnode.frame hg hnode.events rfl hnode.settled (fun _ => .inl rfl)
  · intro i x hx
    obtain ⟨y, hy, rfl⟩ := Option.map_eq_some_iff.mp hx
    split_ifs
    · exact .inr trivial
    · exact .inl hy
  · intro i x hi hx hforce hstreams
    obtain ⟨y, hy, rfl⟩ := Option.map_eq_some_iff.mp hx
    by_cases hyn : y.node = n
    · rw [if_pos hyn] at hstreams
      cases hstreams
    · rw [if_neg hyn] at hforce hstreams ⊢
      exact hnode.opened i y hi hy hforce hstreams
  · exact hnode.administering

/-- The registrations are read when the node that is in force has seen the whole log. -/
theorem Inv.administer (h : Inv s) (n : ι) (hpending : s.pending n = false) (op : AdminOp N) :
    Inv (s.administer n op) := by
  have hheld := h.reconciled n
  have hnone : (s.nodes n).leads = some s.term →
      reconcileRegistrations (s.seen n) (s.nodes n).held = none → registered s.entries = none := by
    intro hleads hnone
    have hseen := seen_of_force (beq_iff_eq.mpr hleads) hpending
    exact hseen ▸ reconcile_none hnone
  have hok : s.NodeOk { s.nodes n with
      held := reconcileRegistrations (s.seen n) (s.nodes n).held
      admin := some ⟨op, reconcileRegistrations (s.seen n) (s.nodes n).held,
        (s.nodes n).applied⟩ } := by
    obtain ⟨happlied, hfloor, hposition, hprogress, -, hsaved, -⟩ := h.nodes n
    refine ⟨happlied, hfloor, hposition, hprogress, hheld, hsaved, fun a ha => ?_⟩
    obtain rfl := Option.some.inj ha
    exact ⟨happlied, hheld⟩
  have hnode := h.setNode hok (fun hleads => hleads) fun _ hleads a ha hsub => by
    obtain rfl := Option.some.inj ha
    exact hnone hleads hsub
  have hg : Grows (s.setNode n { s.nodes n with
      held := reconcileRegistrations (s.seen n) (s.nodes n).held
      admin := some ⟨op, reconcileRegistrations (s.seen n) (s.nodes n).held, (s.nodes n).applied⟩ })
      (s.administer n op) := .of_same rfl rfl rfl (fun _ hl => hl) (fun _ hg => hg)
  apply hnode.frame hg hnode.events rfl hnode.settled (fun _ => .inl rfl)
    (fun _ _ hx => .inl hx) hnode.opened
  intro m hm hforce a ha hsub
  by_cases hmn : m = n
  · subst hmn
    have hself : (s.administer m op).nodes m = { s.nodes m with
        held := reconcileRegistrations (s.seen m) (s.nodes m).held
        admin := some ⟨op, reconcileRegistrations (s.seen m) (s.nodes m).held,
          (s.nodes m).applied⟩ } :=
      Function.update_self _ _ _
    rw [State.inForce, hself, beq_iff_eq] at hforce
    rw [hself] at ha
    obtain rfl := Option.some.inj ha
    exact hnone hforce hsub
  · have hother : (s.administer n op).nodes m = s.nodes m := Function.update_of_ne hmn _ _
    rw [State.inForce, hother] at hforce
    rw [hother] at ha
    have hread : (if s.inForce n then some n else s.administering) = some m := hm
    split_ifs at hread
    · exact absurd (Option.some.inj hread).symm hmn
    · exact h.administering m hread hforce a ha hsub

omit [DecidableEq ι] in
/-- The registration that is written keeps a position that is safe, and begins at the watermark when
there was none. -/
theorem Inv.entryOk_registrations (h : Inv s) {n : ι} {a : Administration N}
    (ha : (s.nodes n).admin = some a)
    (hnone : a.subscription = none → registered s.entries = none) :
    s.EntryOk s.entries (a.entry s.sinceNow) := by
  have hsince : s.sinceNow ≤ s.watermark := by
    rw [State.sinceNow]
    cases hr : registered s.entries with
    | none => exact Nat.le_refl _
    | some r =>
      obtain ⟨front, back, hsplit⟩ := split_catalogue (Option.join_eq_some_iff.mp hr)
      exact (h.entries front _ back hsplit r rfl).1
  obtain ⟨hposition, hsafe⟩ := (h.nodes n).admin a ha
  unfold Administration.entry
  cases hop : a.op with
  | remove => exact nofun
  | other =>
    intro r hr
    obtain ⟨sub, hsub, rfl⟩ := Option.map_eq_some_iff.mp hr
    obtain ⟨hwithin, hpassed⟩ := hsafe sub hsub
    exact ⟨hsince, hwithin, fun lsn hle => .inl (hpassed lsn hle)⟩
  | replace generation filter =>
    intro r hr
    obtain rfl := Option.some.inj hr
    cases hsub : a.subscription with
    | some sub =>
      obtain ⟨hwithin, hpassed⟩ := hsafe sub hsub
      exact ⟨hsince, hwithin, fun lsn hle => .inl (hpassed lsn hle)⟩
    | none =>
      refine ⟨hsince, hposition, fun lsn hle => .inr ?_⟩
      have hnow : s.sinceNow = s.watermark := by rw [State.sinceNow, hnone hsub, Option.elim_none]
      dsimp only
      rw [hnow]
      exact (show lsn ≤ a.position from hle).trans hposition

omit [DecidableEq ι] in
theorem Inv.sinces_entry (h : Inv s) (a : Administration N) :
    (sinces (s.entries ++ [a.entry s.sinceNow])).Pairwise (· ≤ ·) := by
  have hle : lastOf (sinces s.entries) ≤ s.sinceNow := by
    rw [State.sinceNow]
    cases hr : registered s.entries with
    | some r => exact (lastOf_sinces hr).le
    | none =>
      apply lastOf_le
      intro since hmem
      obtain ⟨entry, hentry, heq⟩ := List.mem_filterMap.mp hmem
      cases entry with
      | position p => cases heq
      | registrations held =>
        obtain ⟨r, hheld, rfl⟩ := Option.map_eq_some_iff.mp heq
        obtain ⟨front, back, hsplit⟩ := List.append_of_mem hentry
        exact (h.entries front _ back hsplit r hheld).1
  unfold Administration.entry
  cases a.op with
  | remove =>
    rw [sinces_registrations]
    exact (List.append_nil _).symm ▸ h.sincesUp
  | other =>
    dsimp only
    rw [sinces_registrations]
    cases a.subscription with
    | none => exact (List.append_nil _).symm ▸ h.sincesUp
    | some sub => exact pairwise_concat h.sincesUp hle
  | replace generation filter =>
    dsimp only
    rw [sinces_registrations]
    exact pairwise_concat h.sincesUp hle

omit [Number N] [DecidableEq N] [DecidableEq ι] in
theorem positions_entry (entries : List (Entry N)) (a : Administration N) (since : ℕ) :
    positions (entries ++ [a.entry since]) = positions entries := by
  unfold Administration.entry
  cases a.op <;> exact positions_registrations _ _

theorem Inv.register (h : Inv s) {n : ι} {a : Administration N} (ha : (s.nodes n).admin = some a)
    (hcharge : s.inForce n = true → s.administering = some n) : Inv (s.register n a) := by
  have hok : s.NodeOk { s.nodes n with admin := none } := by
    obtain ⟨happlied, hfloor, hposition, hprogress, hheld, hsaved, -⟩ := h.nodes n
    refine ⟨happlied, hfloor, hposition, hprogress, hheld, hsaved, fun _ hadmin => ?_⟩
    cases hadmin
  have hnode := h.setNode hok (fun hleads => hleads) fun _ _ _ hadmin => by cases hadmin
  have hsame : (s.setNode n { s.nodes n with admin := none }).inForce n = s.inForce n := by
    rw [State.inForce, State.setNode]
    dsimp only
    rw [Function.update_self]
    rfl
  unfold State.register
  rw [State.append, hsame]
  cases hforce : s.inForce n with
  | false => exact hnode
  | true =>
    have hread := hcharge hforce
    have hentry := h.entryOk_registrations ha (h.administering n hread hforce a ha)
    obtain ⟨s', hs'⟩ : ∃ s',
      s' = { s.setNode n { s.nodes n with admin := none } with administering := none } := ⟨_, rfl⟩
    have hg : Grows s s' := hs' ▸ .of_same rfl rfl rfl (fun _ hl => hl) (fun _ hg => hg)
    have hidle : Inv s' := by
      have hgrows : Grows (s.setNode n { s.nodes n with admin := none }) s' :=
        hs' ▸ .of_same rfl rfl rfl (fun _ hl => hl) (fun _ hg => hg)
      rw [hs'] at hgrows ⊢
      exact hnode.frame hgrows hnode.events rfl hnode.settled (fun _ => .inl rfl)
        (fun _ _ hx => .inl hx) hnode.opened fun _ hadministering => by cases hadministering
    have hentries : s'.entries = s.entries := by rw [hs']; rfl
    have happend : Inv { s' with entries := s'.entries ++ [a.entry s.sinceNow] } := by
      apply hidle.append
      · rw [hentries]
        exact hg.entryOk hentry
      · rw [positions_entry]
        exact hidle.positionsUp
      · rw [hentries]
        exact h.sinces_entry a
      · intro i x hi hx hforce' hstreams
        obtain ⟨hcursor, hqueue, hbatch⟩ := hidle.opened i x hi hx hforce' hstreams
        have hsame : replicatedPosition (s'.entries ++ [a.entry s.sinceNow]) =
          replicatedPosition s'.entries := by
          rw [replicatedPosition, positions_entry, ← replicatedPosition]
        exact ⟨hsame ▸ hcursor, fun e he => hsame ▸ hqueue e he, fun hne => hsame ▸ hbatch hne⟩
      · rw [hs']
        intro _ hadministering
        cases hadministering
    rw [hs'] at happend
    exact happend

theorem nodeStep_inv {label : Label ι N} (h : Inv s) (hok : Undisturbed s label)
    (hstep : nodeStep s label = some t) : Inv t := by
  cases label with
  | commit e =>
    unfold nodeStep at hstep
    dsimp only at hstep
    split_ifs at hstep with hnew
    exact Option.some.inj hstep ▸ h.commit hnew
  | apply n applied position =>
    unfold nodeStep at hstep
    dsimp only at hstep
    split_ifs at hstep with hguard
    obtain ⟨-, hfloor, -, hprogress, hheld, hsaved, hadmin⟩ := h.nodes n
    obtain rfl := Option.some.inj hstep
    exact h.setSame ⟨hguard.2.1, hfloor, hguard.2.2.2.trans hguard.2.1, hprogress, hheld,
      hsaved, hadmin⟩ (fun hleads => hleads) rfl
  | evict n floor =>
    unfold nodeStep at hstep
    dsimp only at hstep
    split_ifs at hstep with hguard
    obtain ⟨happlied, -, hposition, hprogress, hheld, hsaved, hadmin⟩ := h.nodes n
    obtain rfl := Option.some.inj hstep
    exact h.setSame ⟨happlied, hguard.2, max_le hposition hguard.2, hprogress, hheld,
      hsaved, hadmin⟩ (fun hleads => hleads) rfl
  | restart n applied progress =>
    unfold nodeStep at hstep
    dsimp only at hstep
    split_ifs at hstep with hguard
    exact Option.some.inj hstep ▸ h.restart n hguard.1 hguard.2
  | elect n keep =>
    unfold nodeStep at hstep
    dsimp only at hstep
    split_ifs at hstep with hguard
    exact Option.some.inj hstep ▸ h.elect n hguard.1 hguard.2
  | stepDown n =>
    obtain ⟨happlied, hfloor, hposition, hprogress, hheld, hsaved, hadmin⟩ := h.nodes n
    obtain rfl := Option.some.inj hstep
    exact h.setSame ⟨happlied, hfloor, hposition, hprogress, hheld, hsaved, hadmin⟩ nofun rfl
  | settle =>
    unfold nodeStep at hstep
    dsimp only at hstep
    split_ifs at hstep with hlt
    exact Option.some.inj hstep ▸ h.settle hlt
  | absorb n progress =>
    unfold nodeStep at hstep
    dsimp only at hstep
    split_ifs at hstep with hguard
    obtain ⟨happlied, hfloor, hposition, -, hheld, hsaved, hadmin⟩ := h.nodes n
    obtain rfl := Option.some.inj hstep
    exact h.setSame ⟨happlied, hfloor, hposition, hguard.2, hheld, hsaved, hadmin⟩
      (fun hleads => hleads) rfl
  | reconcile n =>
    obtain rfl := Option.some.inj hstep
    exact h.setSame ((h.nodes n).withHeld (h.reconciled n)) (fun hleads => hleads) rfl
  | flush n =>
    obtain ⟨happlied, hfloor, hposition, hprogress, hheld, -, hadmin⟩ := h.nodes n
    obtain rfl := Option.some.inj hstep
    exact h.setSame ⟨happlied, hfloor, hposition, hprogress, hheld, hheld, hadmin⟩
      (fun hleads => hleads) rfl
  | administer n op =>
    unfold nodeStep at hstep
    dsimp only at hstep
    split_ifs at hstep with hguard
    exact Option.some.inj hstep ▸ h.administer n hguard.2 op
  | register n =>
    obtain ⟨a, ha, heq⟩ := Option.map_eq_some_iff.mp hstep
    exact heq ▸ h.register ha hok
  | spawn n i =>
    unfold nodeStep at hstep
    dsimp only at hstep
    split at hstep
    · split_ifs at hstep
      obtain ⟨happlied, hfloor, hposition, hprogress, hheld, hsaved, hadmin⟩ := h.nodes n
      have hnode : Inv (s.setNode n { s.nodes n with sender := some i }) := by
        exact h.setSame ⟨happlied, hfloor, hposition, hprogress, hheld, hsaved, hadmin⟩
          (fun hleads => hleads) rfl
      exact Option.some.inj hstep ▸ hnode.setIdle (.inl rfl)
    · cases hstep
  | abort n =>
    unfold nodeStep at hstep
    dsimp only at hstep
    split at hstep
    · cases hstep
    · next i hi =>
      obtain ⟨x, hx, heq⟩ := Option.map_eq_some_iff.mp hstep
      obtain ⟨happlied, hfloor, hposition, hprogress, hheld, hsaved, hadmin⟩ := h.nodes n
      have hnode : Inv (s.setNode n { s.nodes n with sender := none }) := by
        exact h.setSame ⟨happlied, hfloor, hposition, hprogress, hheld, hsaved, hadmin⟩
          (fun hleads => hleads) rfl
      exact heq ▸ hnode.abort hx
  | _ => cases hstep

end Nodes

section Runs

variable [DecidableEq ι] {batchMaxEvents : ℕ} {label : Label ι N}

theorem step_inv (h : Inv s) (hok : Undisturbed s label)
    (hstep : step batchMaxEvents s label = some t) : Inv t := by
  unfold step at hstep
  split at hstep
  · next i hlabel =>
    obtain ⟨x, hx, hsender⟩ := Option.bind_eq_some_iff.mp hstep
    exact senderStep_inv h hx hlabel hok hsender
  · exact nodeStep_inv h hok hstep

omit [DecidableEq ι] in
theorem fresh_inv : Inv (.fresh : State ι N) := by
  constructor
  · exact List.Pairwise.nil
  · exact Nat.le_refl 0
  · exact List.Pairwise.nil
  · exact List.Pairwise.nil
  · intro front entry back hsplit
    exact absurd hsplit.symm (by simp [State.fresh])
  · intro n
    constructor
    · exact Nat.le_refl 0
    · exact Nat.le_refl 0
    · exact Nat.le_refl 0
    · exact Nat.le_refl 0
    · intro sub hsub
      cases hsub
    · intro sub hsub
      cases hsub
    · intro a ha
      cases ha
  · intro i x hx
    cases hx
  · intro i x hi
    cases hi
  · intro n hn
    cases hn

omit [DecidableEq ι] in
theorem Inv.atLeastOnce (h : Inv s) : AtLeastOnce s := by
  have hstart : s.committed <+: s.entries := List.take_prefix _ _
  constructor
  · intro front p back hsplit
    have hall : s.entries = front ++ .position p :: (back ++ s.entries.drop s.settled) := by
      rw [← List.cons_append, ← List.append_assoc, ← hsplit]
      exact (List.take_append_drop _ _).symm
    exact (h.entries front _ _ hall).2
  · exact h.positionsUp.sublist (positions_start hstart).sublist

/-- In a run in which the log is written only by who is in charge, with the filter that is
registered, and in which the feed hands a stream all that it moves over, the position passes no
event that is not acknowledged or counted as a gap, and never decreases. -/
theorem webhook_at_least_once {labels : List (Label ι N)}
    (hrun : run (step batchMaxEvents) .fresh labels = some s)
    (hok : Meets (step batchMaxEvents) Undisturbed .fresh labels) : AtLeastOnce s :=
  (run_invariant_of_meets (fun _ _ _ h hok hstep =>
    step_inv h hok hstep) hrun hok fresh_inv).atLeastOnce

def everyChange : CdcFilter ℤ := ⟨none, none⟩

def inserts : CdcFilter ℤ := ⟨none, some [.insert]⟩

def change (lsn : ℕ) (op : ChangeOp) : ChangeEvent (Json ℤ) := ⟨lsn, op, "k", none⟩

def registering (filter : CdcFilter ℤ) : List (Label Bool ℤ) :=
  [.elect true 0, .administer true (.replace 1 filter), .register true, .settle, .absorb true 1,
    .reconcile true]

/-- A sender reads what was committed, posts it and gets to the write of the position. -/
def delivering (n : Bool) (i through : ℕ) : List (Label Bool ℤ) :=
  [.spawn n i, .peek i, .subscribe i 0, .read i through [], .take i, .close i false,
    .post i .success, .check i]

/-- A change is delivered and its position written. Another node is elected, whose feed has dropped
the second change: its sender counts a gap, delivers the third and writes the next position. -/
def takenOver : List (Label Bool ℤ) :=
  registering everyChange ++ [Label.commit (change 1 .insert), .apply true 1 1] ++
    delivering true 0 1 ++
    [Label.write 0, .settle, .commit (change 2 .insert), .commit (change 3 .delete), .elect false 2,
      .absorb false 2,
      .reconcile false, .apply false 3 3, .evict false 2, .spawn false 1, .peek 1,
      .subscribe 1 0, .peek 1,
      .subscribe 1 0, .read 1 3 [], .take 1, .close 1 false, .post 1 .success, .check 1,
      .write 1, .settle]

/-- The webhook is registered again for all changes while a sender reads inserts; it posts the
second change and not the first. -/
def refiltered : List (Label Bool ℤ) :=
  registering inserts ++ [Label.spawn true 0, .peek 0, .subscribe 0 0,
    .administer true (.replace 2 everyChange),
    .register true, .settle, .absorb true 2, .reconcile true, .commit (change 1 .delete),
    .commit (change 2 .insert),
    .apply true 2 2, .read 0 2 [], .take 0, .take 0, .close 0 false, .post 0 .success, .check 0,
    .write 0, .settle]

/-- A leader is about to write a position when another one is elected and writes a later one. It is
elected again and goes on with its write. -/
def outrun : List (Label Bool ℤ) :=
  registering everyChange ++ [Label.absorb false 1, .reconcile false, .commit (change 1 .insert),
    .apply true 1 1,
    .apply false 1 1] ++ delivering true 0 1 ++ [Label.elect false 1, .commit (change 2 .insert),
      .apply false 2 2,
    .spawn false 1, .peek 1, .subscribe 1 0, .read 1 2 [], .take 1, .take 1, .close 1 false,
    .post 1 .success, .check 1, .write 1, .settle, .elect true 2, .write 0, .settle]

/-- The conditions on a step, for filters without a document filter. -/
def calm (s : State Bool ℤ) : Label Bool ℤ → Bool
  | .write i => (s.senders i).all fun x => !s.inForce x.node || s.opened == some i &&
      (registered s.entries).all fun r => r.filter.doc.isNone && x.filter.doc.isNone &&
        r.filter.ops == x.filter.ops
  | .register n => !s.inForce n || s.administering == some n
  | .read _ _ lost => lost.isEmpty
  | _ => true

theorem undisturbed_of_calm (s : State Bool ℤ) (label : Label Bool ℤ) (h : calm s label = true) :
    Undisturbed s label := by
  cases label with
  | write i =>
    intro x hx hforce
    simp only [calm, hx, Option.all_some, hforce, Bool.not_true, Bool.false_or, Bool.and_eq_true,
      beq_iff_eq] at h
    refine ⟨h.1, fun r hr => ?_⟩
    simp only [hr, Option.all_some, Bool.and_eq_true, Option.isNone_iff_eq_none, beq_iff_eq] at h
    obtain ⟨-, ⟨hr, hx⟩, hops⟩ := h
    cases hrf : r.filter
    cases hxf : x.filter
    simp_all
  | register n =>
    intro hforce
    simpa [calm, hforce] using h
  | read i through lost =>
    intro x _ e _
    rw [List.isEmpty_iff.mp h]
    exact List.not_mem_nil
  | _ => trivial

theorem webhook_at_least_once_one :
    ∃ s, run (step 64) .fresh takenOver = some s ∧ positions s.committed = [1, 3] ∧
      s.missed = [(1, 2)] ∧ AtLeastOnce s := by
  have hlast : (run (step 64) .fresh takenOver).any (fun s =>
      decide (positions s.committed = [1, 3] ∧ s.missed = [(1, 2)])) = true := by decide
  obtain ⟨s, hs, hout⟩ := (Option.any_eq_true _ _).mp hlast
  have hcalm : Meets (step 64) (fun s label => calm s label = true) .fresh takenOver := by
    decide
  exact ⟨s, hs, (of_decide_eq_true hout).1, (of_decide_eq_true hout).2,
    webhook_at_least_once hs (meets_imp undisturbed_of_calm hcalm)⟩

/-- A stream keeps its filter when the webhook is registered again. A sender that outlives its
leadership writes a position below the one that was written since. -/
theorem webhook_passes_unsent :
    (∃ s, run (step 64) .fresh refiltered = some s ∧ ¬ s.PassedCovered s.committed) ∧
      ∃ s, run (step 64) .fresh outrun = some s ∧ positions s.committed = [2, 1] ∧
        ¬ AtLeastOnce s := by
  constructor
  · obtain ⟨s, hs⟩ : ∃ s, run (step 64) .fresh refiltered = some s :=
      Option.isSome_iff_exists.mp (by decide)
    have hlog : (run (step 64) .fresh refiltered).map (fun s =>
      (s.events, s.committed, s.acked, s.missed)) =
        some ([change 1 .delete, change 2 .insert],
          [.registrations (some ⟨1, inserts, .startingAt 0, 0⟩),
          .registrations (some ⟨2, everyChange, .startingAt 0, 0⟩), .position 2], [2], []) := by rfl
    rw [hs] at hlog
    obtain ⟨hevents, hcommitted, hacked, hmissed⟩ : s.events = _ ∧ s.committed = _ ∧ s.acked = _ ∧
      s.missed = _ := by
      simpa using hlog
    refine ⟨s, hs, fun h => ?_⟩
    have hcovered := h [.registrations (some ⟨1, inserts, .startingAt 0, 0⟩),
      .registrations (some ⟨2, everyChange, .startingAt 0, 0⟩)] 2 [] hcommitted _ rfl
        (change 1 .delete)
      (hevents ▸ List.mem_cons_self) Nat.one_pos Nat.one_pos (Nat.le_succ 1) rfl
    rw [State.Covered, hacked, hmissed] at hcovered
    simp [change] at hcovered
  · obtain ⟨s, hs⟩ : ∃ s, run (step 64) .fresh outrun = some s :=
      Option.isSome_iff_exists.mp (by decide)
    have hpositions : (run (step 64) .fresh outrun).map (fun s => positions s.committed) =
      some [2, 1] := by
      decide
    rw [hs] at hpositions
    have htwo : positions s.committed = [2, 1] := Option.some.inj hpositions
    refine ⟨s, hs, htwo, fun h => ?_⟩
    have hascending := h.ascending
    rw [htwo] at hascending
    simp at hascending

end Runs

end DewDB.Webhook
