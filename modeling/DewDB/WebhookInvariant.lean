import Mathlib.Data.List.Induction
import DewDB.WebhookDelivery

/-!
# What holds while a webhook is delivered

Every position that a node has, or has saved, is passed: up to it every LSN is below the replicated
position, was counted as a gap, or is from before the registration. A stream holds what it has moved
over and the filter admits, until it is acknowledged.
-/
namespace DewDB.Webhook

open Changefeed JsonValue

section Numbers

theorem lastOf_concat (ps : List ℕ) (p : ℕ) : lastOf (ps ++ [p]) = p := by
  rw [lastOf, List.getLast?_concat, Option.getD_some]

theorem le_lastOf {ps : List ℕ} (h : ps.Pairwise (· ≤ ·)) {p : ℕ} (hp : p ∈ ps) :
    p ≤ lastOf ps := by
  induction ps using List.reverseRecOn with
  | nil => cases hp
  | append_singleton ps q ih =>
    rw [lastOf_concat]
    rcases List.mem_append.mp hp with hp | hp
    · exact (List.pairwise_append.mp h).2.2 p hp q List.mem_cons_self
    · exact (List.mem_singleton.mp hp).le

theorem lastOf_mem {ps : List ℕ} (h : ps ≠ []) : lastOf ps ∈ ps := by
  rw [lastOf, List.getLast?_eq_getLast_of_ne_nil h, Option.getD_some]
  exact List.getLast_mem h

theorem lastOf_start {ps qs : List ℕ} (h : ps <+: qs) (hqs : qs.Pairwise (· ≤ ·)) :
    lastOf ps ≤ lastOf qs := by
  by_cases hne : ps = []
  · rw [hne]
    exact Nat.zero_le _
  · exact le_lastOf hqs (h.subset (lastOf_mem hne))

theorem lastOf_le {ps : List ℕ} {bound : ℕ} (h : ∀ p ∈ ps, p ≤ bound) : lastOf ps ≤ bound := by
  by_cases hne : ps = []
  · rw [hne]
    exact Nat.zero_le _
  · exact h _ (lastOf_mem hne)

theorem pairwise_concat {ps : List ℕ} (h : ps.Pairwise (· ≤ ·)) {p : ℕ} (hp : lastOf ps ≤ p) :
    (ps ++ [p]).Pairwise (· ≤ ·) := by
  apply List.pairwise_append.mpr
  refine ⟨h, List.pairwise_singleton _ _, fun q hq p' hp' => ?_⟩
  rw [List.mem_singleton.mp hp']
  exact (le_lastOf h hq).trans hp

end Numbers

section Logs

variable {N : Type} {entries : List (Entry N)}

theorem positions_concat (entries : List (Entry N)) (p : ℕ) :
    positions (entries ++ [Entry.position p]) = positions entries ++ [p] := by
  rw [positions, List.filterMap_append]
  rfl

theorem positions_registrations (entries : List (Entry N)) (held : Option (Subscription N)) :
    positions (entries ++ [Entry.registrations held]) = positions entries := by
  rw [positions, List.filterMap_append]
  exact List.append_nil _

theorem sinces_position (entries : List (Entry N)) (p : ℕ) :
    sinces (entries ++ [Entry.position p]) = sinces entries := by
  rw [sinces, List.filterMap_append]
  exact List.append_nil _

theorem sinces_registrations (entries : List (Entry N)) (held : Option (Subscription N)) :
    sinces (entries ++ [Entry.registrations held]) = sinces entries ++
      (held.map Subscription.since).toList := by
  rw [sinces, List.filterMap_append]
  cases held <;> rfl

theorem registered_position (entries : List (Entry N)) (p : ℕ) :
    registered (entries ++ [Entry.position p]) = registered entries := by
  rw [registered, catalogue, List.filterMap_append]
  exact congrArg (fun l => (List.getLast? l).join) (List.append_nil _)

theorem registered_registrations (entries : List (Entry N)) (held : Option (Subscription N)) :
    registered (entries ++ [Entry.registrations held]) = held := by
  have hlast : (entries ++ [Entry.registrations held]).filterMap Entry.registrations? =
      entries.filterMap Entry.registrations? ++ [held] := by
    rw [List.filterMap_append]
    rfl
  rw [registered, catalogue, hlast, List.getLast?_concat, Option.join_some]

theorem lastOf_sinces {r : Subscription N} (h : registered entries = some r) : lastOf
    (sinces entries) = r.since := by
  induction entries using List.reverseRecOn with
  | nil => cases h
  | append_singleton entries entry ih =>
    cases entry with
    | position p =>
      rw [registered_position] at h
      rw [sinces_position]
      exact ih h
    | registrations held =>
      rw [registered_registrations] at h
      rw [sinces_registrations, h]
      exact lastOf_concat _ _

theorem positions_start {entries' : List (Entry N)} (h : entries <+: entries') :
    positions entries <+: positions entries' := h.filterMap _

theorem sinces_start {entries' : List (Entry N)} (h : entries <+: entries') :
    sinces entries <+: sinces entries' :=
  h.filterMap _

theorem split_catalogue {held : Option (Subscription N)} (h : catalogue entries = some held) :
    ∃ front back, entries = front ++ .registrations held :: back := by
  obtain ⟨entry, hentry, heq⟩ := List.mem_filterMap.mp (List.mem_of_getLast? h)
  cases entry with
  | position p => cases heq
  | registrations held' =>
    obtain rfl := Option.some.inj heq
    exact List.append_of_mem hentry

end Logs

section Invariant

variable {ι N : Type}

namespace State

variable (s : State ι N)

def Passed (lsn : ℕ) : Prop :=
  lsn ≤ replicatedPosition s.committed ∨ (∃ g ∈ s.missed, g.1 < lsn ∧ lsn ≤ g.2) ∨
    lsn ≤ lastOf (sinces s.committed)

structure Safe (position : ℕ) : Prop where
  within : position ≤ s.watermark
  passed : ∀ lsn ≤ position, s.Passed lsn

def EntryOk [Number N] [DecidableEq N] (front : List (Entry N)) : Entry N → Prop
  | .position p => p ≤ s.watermark ∧ ∀ r, registered front = some r →
      ∀ e ∈ s.events, r.since < e.lsn → replicatedPosition front < e.lsn → e.lsn ≤ p →
        r.filter.admits e = true → s.Covered e.lsn
  | .registrations held => ∀ r ∈ held, r.since ≤ s.watermark ∧ r.delivery.position ≤ s.watermark ∧
      ∀ lsn ≤ r.delivery.position, s.Passed lsn ∨ lsn ≤ r.since

structure NodeOk (node : Node N) : Prop where
  applied : node.applied ≤ s.watermark
  floor : node.feed.resumeFloor ≤ s.watermark
  position : node.feed.position ≤ s.watermark
  progress : node.progress ≤ s.settled
  held : ∀ sub ∈ node.held, s.Safe sub.delivery.position
  saved : ∀ sub ∈ node.saved, s.Safe sub.delivery.position
  admin : ∀ a ∈ node.admin, a.position ≤ s.watermark ∧ ∀ sub ∈ a.subscription,
    s.Safe sub.delivery.position

/-- What a stream has moved over is in its hands unless nothing is owed for it or it is
acknowledged. -/
structure Stream [Number N] [DecidableEq N] (x : Sender ι N) : Prop where
  within : x.cursor ≤ s.watermark
  below : ∀ e ∈ x.batch ++ x.queue, e.lsn ≤ x.cursor
  ordered : (x.batch ++ x.queue).Pairwise fun e d => e.lsn < d.lsn
  kept : ∀ e ∈ s.events, e.lsn ≤ x.cursor → x.filter.admits e = true →
    s.Passed e.lsn ∨ e.lsn ∈ s.acked ∨ e ∈ x.batch ++ x.queue

def SenderOk [Number N] [DecidableEq N] (x : Sender ι N) : Prop :=
  match x.stage with
  | .opening | .returned => True
  | .chosen sub => s.Safe sub.delivery.position
  | .reading => s.Stream x
  | .posting => s.Stream x ∧ x.batch ≠ []
  | .acknowledged | .writing => s.Stream x ∧ x.batch ≠ [] ∧ ∀ e ∈ x.batch, e.lsn ∈ s.acked

/-- No position of the log is above what the stream is yet to write. -/
structure Current (x : Sender ι N) : Prop where
  cursor : replicatedPosition s.entries ≤ x.cursor
  queue : ∀ e ∈ x.queue, replicatedPosition s.entries ≤ e.lsn
  batch : x.batch ≠ [] → replicatedPosition s.entries ≤ lastOf (x.batch.map ChangeEvent.lsn)

end State

def Stage.streams : Stage N → Bool
  | .reading | .posting | .acknowledged | .writing => true
  | _ => false

variable [DecidableEq ι]

structure Inv [Number N] [DecidableEq N] (s : State ι N) : Prop where
  events : s.events.Pairwise fun e d => e.lsn < d.lsn
  settled : s.settled ≤ s.entries.length
  positionsUp : (positions s.entries).Pairwise (· ≤ ·)
  sincesUp : (sinces s.entries).Pairwise (· ≤ ·)
  entries : ∀ front entry back, s.entries = front ++ entry :: back → s.EntryOk front entry
  nodes : ∀ n, s.NodeOk (s.nodes n)
  senders : ∀ i x, s.senders i = some x → s.SenderOk x
  opened : ∀ i x, s.opened = some i → s.senders i = some x → s.inForce x.node = true →
    x.stage.streams = true → s.Current x
  administering : ∀ n, s.administering = some n → s.inForce n = true → ∀ a ∈ (s.nodes n).admin,
    a.subscription = none → registered s.entries = none

structure Grows (s t : State ι N) : Prop where
  watermark : s.watermark ≤ t.watermark
  events : ∀ e ∈ t.events, e ∈ s.events ∨ s.watermark < e.lsn
  passed : ∀ lsn, s.Passed lsn → t.Passed lsn
  acked : ∀ lsn ∈ s.acked, lsn ∈ t.acked
  missed : ∀ g ∈ s.missed, g ∈ t.missed
  settled : s.settled ≤ t.settled

end Invariant

section Growth

variable {ι N : Type} {s t : State ι N}

namespace Grows

variable (h : Grows s t)

include h

theorem covered {lsn : ℕ} (hc : s.Covered lsn) : t.Covered lsn := by
  rcases hc with hacked | ⟨g, hg, hin⟩
  · exact .inl (h.acked lsn hacked)
  · exact .inr ⟨g, h.missed g hg, hin⟩

theorem safe {position : ℕ} (hs : s.Safe position) : t.Safe position :=
  ⟨hs.within.trans h.watermark, fun lsn hle => h.passed lsn (hs.passed lsn hle)⟩

theorem entryOk [Number N] [DecidableEq N] {front : List (Entry N)} {entry : Entry N}
    (hs : s.EntryOk front entry) : t.EntryOk front entry := by
  cases entry with
  | position p =>
    obtain ⟨hp, hcovered⟩ := hs
    refine ⟨hp.trans h.watermark, fun r hr e he hsince hlast hle hadmits => ?_⟩
    rcases h.events e he with he | hnew
    · exact h.covered (hcovered r hr e he hsince hlast hle hadmits)
    · exact absurd (hle.trans hp) (Nat.not_le.mpr hnew)
  | registrations held =>
    intro r hr
    obtain ⟨hsince, hposition, hpassed⟩ := hs r hr
    exact ⟨hsince.trans h.watermark, hposition.trans h.watermark,
      fun lsn hle => (hpassed lsn hle).imp_left (h.passed lsn)⟩

theorem nodeOk {node : Node N} (hs : s.NodeOk node) : t.NodeOk node := by
  constructor
  · exact hs.applied.trans h.watermark
  · exact hs.floor.trans h.watermark
  · exact hs.position.trans h.watermark
  · exact hs.progress.trans h.settled
  · exact fun sub hsub => h.safe (hs.held sub hsub)
  · exact fun sub hsub => h.safe (hs.saved sub hsub)
  · intro a ha
    obtain ⟨hposition, hsub⟩ := hs.admin a ha
    exact ⟨hposition.trans h.watermark, fun sub hs => h.safe (hsub sub hs)⟩

theorem stream [Number N] [DecidableEq N] {x : Sender ι N} (hs : s.Stream x) : t.Stream x := by
  refine ⟨hs.within.trans h.watermark, hs.below, hs.ordered, fun e he hle hadmits => ?_⟩
  rcases h.events e he with he | hnew
  · exact (hs.kept e he hle hadmits).imp (h.passed _) (Or.imp_left (h.acked _))
  · exact absurd (hle.trans hs.within) (Nat.not_le.mpr hnew)

theorem senderOk [Number N] [DecidableEq N] {x : Sender ι N} (hs : s.SenderOk x) :
    t.SenderOk x := by
  unfold State.SenderOk at hs ⊢
  cases hstage : x.stage with
  | opening => trivial
  | returned => trivial
  | chosen sub => exact h.safe (by simpa only [hstage] using hs)
  | reading => exact h.stream (by simpa only [hstage] using hs)
  | posting =>
    rw [hstage] at hs
    exact ⟨h.stream hs.1, hs.2⟩
  | acknowledged =>
    rw [hstage] at hs
    exact ⟨h.stream hs.1, hs.2.1, fun e he => h.acked _ (hs.2.2 e he)⟩
  | writing =>
    rw [hstage] at hs
    exact ⟨h.stream hs.1, hs.2.1, fun e he => h.acked _ (hs.2.2 e he)⟩

end Grows

theorem passed_of_start (hstart : s.committed <+: t.committed)
    (hpositions : (positions t.entries).Pairwise (· ≤ ·))
    (hsinces : (sinces t.entries).Pairwise (· ≤ ·))
    (hmissed : ∀ g ∈ s.missed, g ∈ t.missed) {lsn : ℕ} (h : s.Passed lsn) : t.Passed lsn := by
  have htake : t.committed <+: t.entries := List.take_prefix _ _
  have hp : replicatedPosition s.committed ≤ replicatedPosition t.committed :=
    lastOf_start (positions_start hstart) (hpositions.sublist (positions_start htake).sublist)
  have hs : lastOf (sinces s.committed) ≤ lastOf (sinces t.committed) :=
    lastOf_start (sinces_start hstart) (hsinces.sublist (sinces_start htake).sublist)
  rcases h with hle | ⟨g, hg, hin⟩ | hle
  · exact .inl (hle.trans hp)
  · exact .inr (.inl ⟨g, hmissed g hg, hin⟩)
  · exact .inr (.inr (hle.trans hs))

theorem Grows.of_same (hevents : t.events = s.events) (hentries : t.entries = s.entries)
    (hsettled : t.settled = s.settled)
    (hacked : ∀ lsn ∈ s.acked, lsn ∈ t.acked) (hmissed : ∀ g ∈ s.missed, g ∈ t.missed) :
    Grows s t := by
  have hcommitted : t.committed = s.committed := by
    rw [State.committed, hentries, hsettled, ← State.committed]
  constructor
  · rw [State.watermark, State.watermark, hevents]
  · intro e he
    exact .inl (hevents ▸ he)
  · intro lsn h
    rw [State.Passed, hcommitted]
    rcases h with hle | ⟨g, hg, hin⟩ | hle
    · exact .inl hle
    · exact .inr (.inl ⟨g, hmissed g hg, hin⟩)
    · exact .inr (.inr hle)
  · exact hacked
  · exact hmissed
  · exact hsettled.ge

theorem State.NodeOk.withHeld {node : Node N} (h : s.NodeOk node) {held : Option (Subscription N)}
    (hheld : ∀ sub ∈ held, s.Safe sub.delivery.position) : s.NodeOk { node with held } := by
  obtain ⟨happlied, hfloor, hposition, hprogress, -, hsaved, hadmin⟩ := h
  exact ⟨happlied, hfloor, hposition, hprogress, hheld, hsaved, hadmin⟩

theorem State.NodeOk.note {node : Node N} (h : s.NodeOk node) {change : Delivery → Delivery}
    (hchange : ∀ sub ∈ node.held, s.Safe (change sub.delivery).position) :
    s.NodeOk (node.note change) := by
  apply h.withHeld
  intro sub hsub
  obtain ⟨old, hold, rfl⟩ := Option.map_eq_some_iff.mp hsub
  exact hchange old hold

end Growth

section Frames

variable {ι N : Type} [Number N] [DecidableEq N] {s t : State ι N}

theorem Inv.frame (h : Inv s) (hg : Grows s t)
    (hevents : t.events.Pairwise fun e d => e.lsn < d.lsn)
    (hentries : t.entries = s.entries) (hsettled : t.settled ≤ s.entries.length)
    (hnodes : ∀ n, t.nodes n = s.nodes n ∨ t.NodeOk (t.nodes n))
    (hsenders : ∀ i x, t.senders i = some x → s.senders i = some x ∨ t.SenderOk x)
    (hopened : ∀ i x, t.opened = some i → t.senders i = some x → t.inForce x.node = true →
      x.stage.streams = true → s.Current x)
    (hadmin : ∀ n, t.administering = some n → t.inForce n = true → ∀ a ∈ (t.nodes n).admin,
      a.subscription = none → registered s.entries = none) : Inv t := by
  constructor
  · exact hevents
  · rwa [hentries]
  · rw [hentries]
    exact h.positionsUp
  · rw [hentries]
    exact h.sincesUp
  · intro front entry back hsplit
    exact hg.entryOk (h.entries front entry back (hentries ▸ hsplit))
  · intro n
    rcases hnodes n with hsame | hok
    · rw [hsame]
      exact hg.nodeOk (h.nodes n)
    · exact hok
  · intro i x hx
    rcases hsenders i x hx with hsame | hok
    · exact hg.senderOk (h.senders i x hsame)
    · exact hok
  · intro i x hi hx hforce hstreams
    obtain ⟨hcursor, hqueue, hbatch⟩ := hopened i x hi hx hforce hstreams
    rw [← hentries] at hcursor hqueue hbatch
    exact ⟨hcursor, hqueue, hbatch⟩
  · rw [hentries]
    exact hadmin

/-- Nothing that the invariant speaks of depends on one node but the node itself. -/
theorem Inv.setNode [DecidableEq ι] (h : Inv s) {n : ι} {node : Node N} (hok : s.NodeOk node)
    (hleads : node.leads = some s.term → (s.nodes n).leads = some s.term)
    (hadmin : s.administering = some n → node.leads = some s.term →
      ∀ a ∈ node.admin, a.subscription = none →
      registered s.entries = none) : Inv (s.setNode n node) := by
  have hg : Grows s (s.setNode n node) := .of_same rfl rfl rfl (fun _ hl => hl) (fun _ hg => hg)
  have hforce : ∀ m, (s.setNode n node).inForce m = true → s.inForce m = true := by
    intro m hm
    rw [State.inForce, State.setNode] at hm
    dsimp only at hm
    by_cases hmn : m = n
    · rw [hmn, Function.update_self] at hm
      rw [hmn, State.inForce, hleads (beq_iff_eq.mp hm), beq_self_eq_true]
    · rwa [Function.update_of_ne hmn] at hm
  apply h.frame hg h.events rfl h.settled
  · intro m
    by_cases hmn : m = n
    · right
      rw [hmn, State.setNode]
      dsimp only
      rw [Function.update_self]
      exact hg.nodeOk hok
    · exact .inl (Function.update_of_ne hmn _ _)
  · exact fun i x hx => .inl hx
  · exact fun i x hi hx hf hstreams => h.opened i x hi hx (hforce _ hf) hstreams
  · intro m hm hf a ha
    by_cases hmn : m = n
    · subst hmn
      have hnode : (s.setNode m node).nodes m = node := Function.update_self _ _ _
      rw [State.inForce, hnode, beq_iff_eq] at hf
      rw [hnode] at ha
      exact hadmin hm hf a ha
    · have hnode : (s.setNode n node).nodes m = s.nodes m := Function.update_of_ne hmn _ _
      rw [hnode] at ha
      exact h.administering m hm (hforce m hf) a ha

theorem Inv.setSender (h : Inv s) {i : ℕ} {x : Sender ι N} (hok : s.SenderOk x)
    (hcurrent : s.opened = some i → s.inForce x.node = true → x.stage.streams = true →
      s.Current x) :
    Inv (s.setSender i x) := by
  have hg : Grows s (s.setSender i x) := .of_same rfl rfl rfl (fun _ hl => hl) (fun _ hg => hg)
  apply h.frame hg h.events rfl h.settled (fun _ => .inl rfl)
  · intro j y hy
    by_cases hji : j = i
    · rw [hji, State.setSender] at hy
      dsimp only at hy
      rw [Function.update_self] at hy
      exact .inr (hg.senderOk (Option.some.inj hy ▸ hok))
    · exact .inl ((Function.update_of_ne hji _ _).symm.trans hy)
  · intro j y hj hy hforce hstreams
    by_cases hji : j = i
    · rw [hji, State.setSender] at hy
      dsimp only at hy
      rw [Function.update_self] at hy
      obtain rfl := Option.some.inj hy
      exact hcurrent (hji ▸ hj) hforce hstreams
    · exact h.opened j y hj ((Function.update_of_ne hji _ _).symm.trans hy) hforce hstreams
  · exact h.administering

theorem Inv.setOpened (h : Inv s) {i : ℕ}
    (hcurrent : ∀ x, s.senders i = some x → x.stage.streams = true → s.Current x) :
    Inv { s with opened := some i } := by
  have hg : Grows s { s with opened := some i } :=
    .of_same rfl rfl rfl (fun _ hl => hl) (fun _ hg => hg)
  apply h.frame hg h.events rfl h.settled (fun _ => .inl rfl)
    (fun _ _ hx => .inl hx) _ h.administering
  intro j x hj hx _ hstreams
  obtain rfl := Option.some.inj hj
  exact hcurrent x hx hstreams

theorem Inv.setAcked (h : Inv s) (lsns : List ℕ) : Inv { s with acked := lsns ++ s.acked } := by
  have hg : Grows s { s with acked := lsns ++ s.acked } :=
    .of_same rfl rfl rfl (fun _ hl => List.mem_append_right lsns hl) (fun _ hg => hg)
  exact h.frame hg h.events rfl h.settled (fun _ => .inl rfl)
    (fun _ _ hx => .inl hx) h.opened h.administering

theorem Inv.setMissed (h : Inv s) {missed : List (ℕ × ℕ)} (hmissed : ∀ g ∈ s.missed, g ∈ missed) :
    Inv { s with missed } := by
  have hg : Grows s { s with missed } := .of_same rfl rfl rfl (fun _ hl => hl) hmissed
  exact h.frame hg h.events rfl h.settled (fun _ => .inl rfl)
    (fun _ _ hx => .inl hx) h.opened h.administering

theorem Inv.note [DecidableEq ι] (h : Inv s) (n : ι) {change : Delivery → Delivery}
    (hchange : ∀ sub ∈ (s.nodes n).held, s.Safe (change sub.delivery).position) :
    Inv (s.setNode n ((s.nodes n).note change)) :=
  h.setNode ((h.nodes n).note hchange) (fun hleads => hleads) fun hread hleads a ha =>
    h.administering n hread (beq_iff_eq.mpr hleads) a ha

end Frames

end DewDB.Webhook
