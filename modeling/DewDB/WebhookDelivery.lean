import Mathlib.Logic.Function.Basic
import DewDB.Changefeed
import DewDB.QueryFilter

/-!
# The delivery of a webhook

One webhook of one collection, on all nodes of a shard group. The registration and the delivery
position are entries of the group's `_webhooks` log. A node that leads runs a sender, which reads
the changefeed of the collection from the position, posts batches and writes the position of a batch
to the log once the endpoint has acknowledged it.

The log is that of the leader in force; what a node appends that is not in force never gets into it.
`acked` and `missed` record what the endpoint has acknowledged and what has been counted as a gap.
-/
namespace DewDB.Webhook

open Changefeed JsonValue QueryFilter

section Registrations

structure CdcFilter (N : Type) where
  doc : Option (QueryFilter.Filter N)
  ops : Option (List ChangeOp)

/-- A document filter governs the events that carry a document and nothing else. -/
def CdcFilter.admits {N : Type} [Number N] [DecidableEq N] (f : CdcFilter N)
    (event : ChangeEvent (Json N)) : Bool :=
  if !f.ops.all fun ops => ops.contains event.op then false
  else
    match event.value, f.doc with
    | some value, some doc => doc.matches value
    | _, _ => true

structure Delivery where
  position : ℕ
  delivered : ℕ
  attempts : ℕ
  failures : ℕ
  gaps : ℕ
  lastError : Option String
  disabled : Option String

def Delivery.startingAt (position : ℕ) : Delivery := ⟨position, 0, 0, 0, 0, none, none⟩

/-- A registration. `since` is the watermark of the collection when the webhook was first
registered. -/
structure Subscription (N : Type) where
  generation : ℕ
  filter : CdcFilter N
  delivery : Delivery
  since : ℕ

/-- An entry of the `_webhooks` log: a delivery position, or the registrations, of which `held` is
that of the webhook. -/
inductive Entry (N : Type) where
  | position (p : ℕ)
  | registrations (held : Option (Subscription N))

variable {N : Type}

def Entry.position? : Entry N → Option ℕ
  | .position p => some p
  | .registrations _ => none

def Entry.registrations? : Entry N → Option (Option (Subscription N))
  | .position _ => none
  | .registrations held => some held

def Entry.since? : Entry N → Option ℕ
  | .position _ => none
  | .registrations held => held.map Subscription.since

def lastOf (ps : List ℕ) : ℕ := ps.getLast?.getD 0

def positions (entries : List (Entry N)) : List ℕ := entries.filterMap Entry.position?

def sinces (entries : List (Entry N)) : List ℕ := entries.filterMap Entry.since?

def replicatedPosition (entries : List (Entry N)) : ℕ := lastOf (positions entries)

def catalogue (entries : List (Entry N)) : Option (Option (Subscription N)) :=
  (entries.filterMap Entry.registrations?).getLast?

def registered (entries : List (Entry N)) : Option (Subscription N) := (catalogue entries).join

/-- `reconcile_registrations`. -/
def reconcileRegistrations (entries : List (Entry N)) (held : Option (Subscription N)) : Option
    (Subscription N) :=
  match catalogue entries with
  | none => held
  | some wanted => wanted.map fun subscription =>
    match held with
    | none => subscription
    | some old =>
      if old.generation = subscription.generation
        then { subscription with delivery := old.delivery }
      else { subscription with delivery := { subscription.delivery with
          position := max subscription.delivery.position old.delivery.position } }

end Registrations

section States

/-- What an administration request does to the webhook; `other` is a request for another webhook,
which writes this one as the leader holds it. -/
inductive AdminOp (N : Type) where
  | replace (generation : ℕ) (filter : CdcFilter N)
  | remove
  | other

/-- A request that has read the registrations and the applied LSN and has not yet written. -/
structure Administration (N : Type) where
  op : AdminOp N
  subscription : Option (Subscription N)
  position : ℕ

structure Window where
  resumeFloor : ℕ
  position : ℕ

structure Node (N : Type) where
  leads : Option ℕ
  applied : ℕ
  feed : Window
  progress : ℕ
  held : Option (Subscription N)
  saved : Option (Subscription N)
  admin : Option (Administration N)
  sender : Option ℕ

inductive Stage (N : Type) where
  | opening
  | chosen (subscription : Subscription N)
  | reading
  | posting
  | acknowledged
  | writing
  | returned

structure Sender (ι N : Type) where
  node : ι
  stage : Stage N
  aborted : Bool
  filter : CdcFilter N
  cursor : ℕ
  queue : List (ChangeEvent (Json N))
  batch : List (ChangeEvent (Json N))
  ended : Bool

structure State (ι N : Type) where
  events : List (ChangeEvent (Json N))
  entries : List (Entry N)
  settled : ℕ
  term : ℕ
  nodes : ι → Node N
  senders : ℕ → Option (Sender ι N)
  /-- The sender that opened last under the leadership under way. -/
  opened : Option ℕ
  /-- The node whose administration read the registrations last under it, until it writes. -/
  administering : Option ι
  acked : List ℕ
  missed : List (ℕ × ℕ)

variable {ι N : Type} [DecidableEq ι]

namespace Node

variable (node : Node N)

def fresh : Node N := ⟨none, 0, ⟨0, 0⟩, 0, none, none, none, none⟩

def note (change : Delivery → Delivery) : Node N := { node with
  held := node.held.map fun s => { s with delivery := change s.delivery } }

def deliverable : Bool := node.held.any fun s => s.delivery.disabled.isNone

end Node

namespace State

variable (s : State ι N)

def fresh : State ι N := ⟨[], [], 0, 0, fun _ => .fresh, fun _ => none, none, none, [], []⟩

def watermark : ℕ := lastOf (s.events.map ChangeEvent.lsn)

def committed : List (Entry N) := s.entries.take s.settled

def seen (n : ι) : List (Entry N) := s.entries.take (s.nodes n).progress

def inForce (n : ι) : Bool := (s.nodes n).leads == some s.term

/-- `pending_len` of the log at a node in force. -/
def pending (n : ι) : Bool := s.inForce n && (s.nodes n).progress != s.entries.length

def setNode (n : ι) (node : Node N) : State ι N :=
  { s with nodes := Function.update s.nodes n node }

def setSender (i : ℕ) (x : Sender ι N) : State ι N :=
  { s with senders := Function.update s.senders i (some x) }

/-- `local_write` to the log. -/
def append (n : ι) (entry : Entry N) : State ι N :=
  if s.inForce n then { s with entries := s.entries ++ [entry] } else s

end State

end States

section Steps

inductive Outcome where
  | success
  | gone
  | failed (error : String)

inductive Label (ι N : Type) where
  | commit (e : ChangeEvent (Json N))
  | apply (n : ι) (applied position : ℕ)
  | evict (n : ι) (floor : ℕ)
  | restart (n : ι) (applied progress : ℕ)
  | elect (n : ι) (keep : ℕ)
  | stepDown (n : ι)
  | settle
  | absorb (n : ι) (progress : ℕ)
  | reconcile (n : ι)
  | flush (n : ι)
  | administer (n : ι) (op : AdminOp N)
  | register (n : ι)
  | spawn (n : ι) (i : ℕ)
  | abort (n : ι)
  | peek (i : ℕ)
  | subscribe (i lastAppended : ℕ)
  | read (i through : ℕ) (lost : List ℕ)
  | take (i : ℕ)
  | close (i : ℕ) (ended : Bool)
  | lapse (i : ℕ)
  | post (i : ℕ) (outcome : Outcome)
  | check (i : ℕ)
  | write (i : ℕ)
  | revoke (i : ℕ)
  | giveUp (i : ℕ)

variable {ι N : Type} [DecidableEq ι]

def goneMessage : String := "the endpoint answered 410; register it again to resume"

def revokedMessage : String :=
  "the credential this subscription was registered with is no longer accepted; register it again"

/-- The entry that `commit_registration` writes. A replaced registration keeps its position but
loses whatever stopped it. -/
def Administration.entry (a : Administration N) (since : ℕ) : Entry N :=
  match a.op with
  | .replace generation filter =>
    let delivery := (a.subscription.map Subscription.delivery).getD (.startingAt a.position)
    .registrations (some ⟨generation, filter, { delivery with
      disabled := none
      lastError := none
      failures := 0 }, since⟩)
  | .remove => .registrations none
  | .other => .registrations (a.subscription.map fun sub => { sub with since })

namespace State

variable (s : State ι N)

/-- `since` of a registration that is written now. -/
def sinceNow : ℕ := (registered s.entries).elim s.watermark Subscription.since

def restart (n : ι) (applied progress : ℕ) : State ι N :=
  let saved := (s.nodes n).saved
  { s.setNode n ⟨none, applied, ⟨applied, applied⟩, progress, saved, saved, none, none⟩ with
    senders := fun i => (s.senders i).map fun x => if x.node = n
      then { x with stage := .returned } else x }

/-- A new leader has what a majority holds and some of what was appended after it. The group has one
log, so what a deposed leader appended past `keep` does not come back. -/
def elect (n : ι) (keep : ℕ) : State ι N :=
  { s.setNode n { s.nodes n with leads := some (s.term + 1) } with
    term := s.term + 1
    entries := s.entries.take keep
    opened := none
    administering := none }

/-- `commit_registration` up to the write. -/
def administer (n : ι) (op : AdminOp N) : State ι N :=
  let held := reconcileRegistrations (s.seen n) (s.nodes n).held
  { s.setNode n { s.nodes n with
      held
      admin := some ⟨op, held, (s.nodes n).applied⟩ } with
    administering := if s.inForce n then some n else s.administering }

def register (n : ι) (a : Administration N) : State ι N :=
  { (s.setNode n { s.nodes n with admin := none }).append n (a.entry s.sinceNow) with
    administering := if s.inForce n then none else s.administering }

/-- `open` of a subscription that it has looked up. -/
def openAt (i : ℕ) (x : Sender ι N) (sub : Subscription N) (lastAppended : ℕ) : State ι N :=
  let node := s.nodes x.node
  let position := max sub.delivery.position (replicatedPosition (s.seen x.node))
  let noted := if sub.delivery.position < position then
      node.note fun d => { d with position := max d.position position } else node
  let again := s.setSender i { x with stage := .opening }
  if node.feed.position < position then
    if position ≤ lastAppended then again.setNode x.node noted
    else again.setNode x.node (noted.note fun d => { d with
        gaps := d.gaps + 1
        position := node.feed.position
        lastError := some s!"position was above the log; resumed at {node.feed.position}" })
  else if position < node.feed.resumeFloor then
    { again.setNode x.node (noted.note fun d => { d with
        gaps := d.gaps + 1
        position := node.feed.resumeFloor
        lastError := some s!"fell behind the change buffer; resumed at {node.feed.resumeFloor}" })
          with
      missed := if node.held.isSome then (position, node.feed.resumeFloor) :: s.missed
        else s.missed }
  else
    { (s.setNode x.node noted).setSender i { x with
        stage := .reading
        filter := sub.filter
        cursor := position
        queue := []
        batch := []
        ended := false } with
      opened := if s.inForce x.node then some i else s.opened }

def changes (cursor through : ℕ) : List (ChangeEvent (Json N)) :=
  s.events.filter fun e => cursor < e.lsn && e.lsn ≤ through

/-- What comes after an attempt of `post_until_acknowledged`. -/
def posted (i : ℕ) (x : Sender ι N) : Outcome → State ι N
  | .success => { s.setSender i { x with stage := .acknowledged } with
      acked := x.batch.map ChangeEvent.lsn ++ s.acked }
  | .gone => (s.setNode x.node ((s.nodes x.node).note fun d => { d with
      attempts := d.attempts + 1
      disabled := some goneMessage })).setSender i { x with stage := .returned }
  | .failed error => s.setNode x.node ((s.nodes x.node).note fun d => { d with
      attempts := d.attempts + 1
      failures := d.failures + 1
      lastError := some error })

/-- A turn of `commit_position` up to the write, and what comes after it. -/
def checked (i : ℕ) (x : Sender ι N) : State ι N :=
  let node := s.nodes x.node
  let position := lastOf (x.batch.map ChangeEvent.lsn)
  if position ≤ replicatedPosition (s.seen x.node) then
    (s.setNode x.node (node.note fun d => { d with
        attempts := d.attempts + 1
        delivered := d.delivered + x.batch.length
        failures := 0
        lastError := none
        position })).setSender i { x with
      stage := if x.ended then .opening else .reading
      batch := [] }
  else if node.leads.isNone then s.setSender i { x with stage := .returned }
  else s.setSender i { x with stage := .writing }

end State

def senderStep [Number N] [DecidableEq N] (batchMaxEvents : ℕ) (s : State ι N) (i : ℕ)
    (x : Sender ι N) : Label ι N → Option (State ι N)
  | .peek _ =>
    match x.stage, (s.nodes x.node).held with
    | .opening, some sub => some (s.setSender i { x with stage := .chosen sub })
    | _, _ => none
  | .subscribe _ lastAppended =>
    match x.stage with
    | .chosen sub => if s.pending x.node then some (s.setSender i { x with stage := .opening })
        else some (s.openAt i x sub lastAppended)
    | _ => none
  | .read _ through lost =>
    match x.stage, x.queue with
    | .reading, [] =>
      let feed := (s.nodes x.node).feed
      if feed.resumeFloor ≤ x.cursor ∧ x.cursor < through ∧ through ≤ feed.position then
        some (s.setSender i { x with
          cursor := through
          queue := (s.changes x.cursor through).filter fun e => !lost.contains e.lsn })
      else none
    | _, _ => none
  | .take _ =>
    match x.stage, x.queue with
    | .reading, e :: rest =>
      if x.batch = [] ∨ x.batch.length < batchMaxEvents then
        some (s.setSender i { x with
          queue := rest
          batch := if x.filter.admits e then x.batch ++ [e] else x.batch })
      else none
    | _, _ => none
  | .close _ ended =>
    match x.stage, x.batch with
    | .reading, _ :: _ => if ended ∧ x.queue ≠ [] then none else some (s.setSender i { x with
        stage := .posting
        ended })
    | _, _ => none
  | .lapse _ =>
    match x.stage, x.batch, x.queue with
    | .reading, [], [] => some (s.setSender i { x with stage := .opening })
    | _, _, _ => none
  | .post _ outcome =>
    match x.stage with
    | .posting => if (s.nodes x.node).held.isSome ∧ (s.nodes x.node).leads.isSome
        then some (s.posted i x outcome)
        else none
    | _ => none
  | .check _ =>
    match x.stage with
    | .acknowledged => some (s.checked i x)
    | _ => none
  | .write _ =>
    match x.stage with
    | .writing => some ((s.append x.node
        (.position (lastOf (x.batch.map ChangeEvent.lsn)))).setSender i { x with
        stage := if x.aborted then .returned else .acknowledged })
    | _ => none
  | .revoke _ =>
    match x.stage with
    | .opening | .posting =>
      some ((s.setNode x.node ((s.nodes x.node).note fun d =>
        { d with disabled := some revokedMessage })).setSender i { x with stage := .returned })
    | _ => none
  | .giveUp _ =>
    match x.stage with
    | .opening | .reading | .posting =>
      if (s.nodes x.node).leads.isNone ∨ !(s.nodes x.node).deliverable then
        some (s.setSender i { x with stage := .returned })
      else none
    | _ => none
  | _ => none

def Label.sender? : Label ι N → Option ℕ
  | .peek i | .subscribe i _ | .read i _ _ | .take i | .close i _ | .lapse i | .post i _ | .check
      i | .write i | .revoke i
  | .giveUp i => some i
  | _ => none

def nodeStep (s : State ι N) : Label ι N → Option (State ι N)
  | .commit e => if s.watermark < e.lsn then some { s with events := s.events ++ [e] } else none
  | .apply n applied position =>
    let node := s.nodes n
    if node.applied ≤ applied ∧ applied ≤ s.watermark ∧ node.feed.position ≤ position ∧
      position ≤ applied then
      some (s.setNode n { node with
        applied
        feed := { node.feed with position } })
    else none
  | .evict n floor =>
    let node := s.nodes n
    if node.feed.resumeFloor ≤ floor ∧ floor ≤ s.watermark then
      some (s.setNode n { node with feed := ⟨floor, max node.feed.position floor⟩ })
    else none
  | .restart n applied progress =>
    if applied ≤ s.watermark ∧ progress ≤ s.settled
      then some (s.restart n applied progress) else none
  | .elect n keep => if s.settled ≤ keep ∧ keep ≤ s.entries.length
      then some (s.elect n keep) else none
  | .stepDown n => some (s.setNode n { s.nodes n with leads := none })
  | .settle => if s.settled < s.entries.length
      then some { s with settled := s.settled + 1 } else none
  | .absorb n progress =>
    if (s.nodes n).progress ≤ progress ∧ progress ≤ s.settled then
      some (s.setNode n { s.nodes n with progress })
    else none
  | .reconcile n =>
    some (s.setNode n { s.nodes n with held := reconcileRegistrations (s.seen n) (s.nodes n).held })
  | .flush n => some (s.setNode n { s.nodes n with saved := (s.nodes n).held })
  | .administer n op =>
    if (s.nodes n).leads.isSome ∧ s.pending n = false then some (s.administer n op) else none
  | .register n => (s.nodes n).admin.map fun a => s.register n a
  | .spawn n i =>
    let node := s.nodes n
    match node.held, s.senders i, node.sender with
    | some sub, none, none =>
      if node.leads.isSome ∧ node.deliverable then
        some ((s.setNode n { node with sender := some i }).setSender i
          ⟨n, .opening, false, sub.filter, 0, [], [], false⟩)
      else none
    | _, _, _ => none
  | .abort n =>
    match (s.nodes n).sender with
    | none => none
    | some i => (s.senders i).map fun x =>
      -- a write under way is in a thread that goes on
      (s.setNode n { s.nodes n with sender := none }).setSender i { x with
        aborted := true
        stage := match x.stage with
          | .writing => .writing
          | _ => .returned }
  | _ => none

/-- `none` where the label is not enabled. -/
def step [Number N] [DecidableEq N] (batchMaxEvents : ℕ) (s : State ι N) (label : Label ι N) :
    Option (State ι N) :=
  match label.sender? with
  | some i => (s.senders i).bind fun x => senderStep batchMaxEvents s i x label
  | none => nodeStep s label

end Steps

section Promise

variable {ι N : Type}

/-- The event was in a batch that the endpoint acknowledged, or was counted as a gap. -/
def State.Covered (s : State ι N) (lsn : ℕ) : Prop :=
  lsn ∈ s.acked ∨ ∃ g ∈ s.missed, g.1 < lsn ∧ lsn ≤ g.2

/-- Every event that a position of the log passed, which the registration in force admits and which
was committed after the webhook was registered. -/
def State.PassedCovered [Number N] [DecidableEq N] (s : State ι N)
    (entries : List (Entry N)) : Prop :=
  ∀ front p back, entries = front ++ .position p :: back → ∀ r, registered front = some r →
    ∀ e ∈ s.events, r.since < e.lsn → replicatedPosition front < e.lsn → e.lsn ≤ p →
      r.filter.admits e = true → s.Covered e.lsn

/-- The position passes no event that is not covered, and never decreases. -/
structure AtLeastOnce [Number N] [DecidableEq N] (s : State ι N) : Prop where
  passed : s.PassedCovered s.committed
  ascending : (positions s.committed).Pairwise (· ≤ ·)

/-- What a write to the log and a read of the feed must be for that: the write is by the sender that
opened last, or the administration that read last, under the leadership under way; a sender writes
with the filter that is registered; a stream is handed every change that it moves over. -/
def Undisturbed (s : State ι N) : Label ι N → Prop
  | .write i => ∀ x, s.senders i = some x → s.inForce x.node = true →
      s.opened = some i ∧ ∀ r, registered s.entries = some r → r.filter = x.filter
  | .register n => s.inForce n = true → s.administering = some n
  | .read i through lost => ∀ x, s.senders i = some x →
      ∀ e ∈ s.changes x.cursor through, e.lsn ∉ lost
  | _ => True

end Promise

end DewDB.Webhook
