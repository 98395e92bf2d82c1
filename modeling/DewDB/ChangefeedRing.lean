import Mathlib.Data.List.TakeWhile
import DewDB.Changefeed
import DewDB.TransitionSystem

/-!
# One publisher

`log` is every change that was committed while the feed was watched. The publisher hands them over
in batches in the order of their LSNs. What did not resolve is noted as a gap, behind the events
that did; and commits of which no event was built are noted as a gap as well. What a subscriber has
been handed is to be all of the log between its start and its cursor.
-/
namespace DewDB.Changefeed

open TransitionSystem

variable {V : Type}

/-- `gap` is the second half of a publication that is not done yet. -/
structure State (V : Type) where
  feed : Feed V
  log : List (PendingChange V)
  gap : Option ℕ
  deriving DecidableEq

inductive Op (V : Type) where
  | publish (changes : List (PendingChange V)) (through : ℕ)
  | noteGap
  | skip (changes : List (PendingChange V)) (through : ℕ)
  | subscribe (after : Option ℕ) (applied : ℕ) (lapsed : Bool)
  | pin (applied : ℕ) (lapsed : Bool)
  | unpin
  | read (i readBatch : ℕ)
  | detach (i : ℕ)
  | close

def Ascending (changes : List (PendingChange V)) : Prop := changes.Pairwise fun c d => c.lsn < d.lsn

instance (changes : List (PendingChange V)) : Decidable (Ascending changes) :=
  inferInstanceAs (Decidable (List.Pairwise _ _))

def Follows (s : State V) (changes : List (PendingChange V)) (through : ℕ) : Prop :=
  s.gap = none ∧ Ascending (s.log ++ changes) ∧ ∀ c ∈ changes, 0 < c.lsn ∧ c.lsn ≤ through

instance (s : State V) (changes : List (PendingChange V)) (through : ℕ) : Decidable
    (Follows s changes through) :=
  inferInstanceAs (Decidable (_ ∧ _ ∧ _))

def State.withRing (s : State V) (ring : Ring V) : State V :=
  { s with feed := { s.feed with ring := ring } }

def step (s : State V) : Op V → Option (State V)
  | .publish changes through =>
    if Follows s changes through then
      some { s.withRing (s.feed.ring.publish s.feed.bufferEvents (resolvedEvents changes) through)
        with
        log := s.log ++ changes
        gap := if unresolvedGap changes = 0 then none else some (unresolvedGap changes) }
    else none
  | .noteGap => s.gap.map fun g => { s.withRing (s.feed.ring.noteGap g) with gap := none }
  | .skip changes through =>
    if Follows s changes through then
      some { s.withRing (s.feed.ring.noteGap through) with log := s.log ++ changes }
    else none
  | .subscribe after applied lapsed =>
      some { s with feed := (s.feed.subscribe after applied lapsed).1 }
  | .pin applied lapsed => some { s with feed := s.feed.pinFrom applied lapsed }
  | .unpin => some { s with feed := s.feed.unpin }
  | .read i readBatch => if 0 < readBatch then some { s with feed := s.feed.nextBatch i readBatch }
      else none
  | .detach i => some { s with feed := s.feed.detach i }
  | .close => some (s.withRing s.feed.ring.close)

section Logs

variable {log : List (PendingChange V)} {c : PendingChange V} {e : ChangeEvent V}

theorem event?_lsn (h : c.event? = some e) : e.lsn = c.lsn := by
  cases c with
  | wrote lsn op key doc =>
    obtain ⟨value, -, rfl⟩ := Option.map_eq_some_iff.mp h
    rfl
  | gone lsn key =>
    cases h
    rfl
  | dropped lsn =>
    cases h
    rfl

theorem mem_resolvedEvents : e ∈ resolvedEvents log ↔ ∃ c ∈ log, c.event? = some e :=
  List.mem_filterMap

theorem resolvedEvents_append (as bs : List (PendingChange V)) :
    resolvedEvents (as ++ bs) = resolvedEvents as ++ resolvedEvents bs := List.filterMap_append

theorem Ascending.resolved (h : Ascending log) :
    (resolvedEvents log).Pairwise fun e d => e.lsn < d.lsn := by
  refine List.Pairwise.filterMap _ ?_ h
  intro c d hlt e he g hg
  rw [event?_lsn he, event?_lsn hg]
  exact hlt

theorem Ascending.split {as bs : List (PendingChange V)} (h : Ascending (as ++ bs)) :
    ∀ a ∈ as, ∀ b ∈ bs, a.lsn < b.lsn := (List.pairwise_append.mp h).2.2

theorem le_unresolvedGap (hc : c ∈ log) (hnone : c.event? = none) : c.lsn ≤ unresolvedGap log := by
  have hmax : ∀ (cs : List (PendingChange V)) (n : ℕ), n ≤ cs.foldl (fun gap c => max gap c.lsn) n ∧
      ∀ d ∈ cs, d.lsn ≤ cs.foldl (fun gap c => max gap c.lsn) n := by
    intro cs
    induction cs with
    | nil => exact fun n => ⟨Nat.le_refl _, by simp⟩
    | cons a cs ih =>
      intro n
      obtain ⟨hle, hall⟩ := ih (max n a.lsn)
      refine ⟨by simp only [List.foldl_cons]; omega, fun d hd => ?_⟩
      rcases List.mem_cons.mp hd with rfl | hd
      · simp only [List.foldl_cons]
        omega
      · exact hall d hd
  exact (hmax _ 0).2 c (List.mem_filter.mpr ⟨hc, by simp [hnone]⟩)

end Logs

/-- The events are the newest of the log, and all of it above the floor. -/
structure RingOk (r : Ring V) (log : List (PendingChange V)) (gap : Option ℕ) : Prop where
  suffix : r.events <:+ resolvedEvents log
  held : ∀ e ∈ resolvedEvents log, r.resumeFloor < e.lsn → e ∈ r.events
  unresolved : ∀ c ∈ log, c.event? = none → r.resumeFloor < c.lsn →
    gap ≠ none ∧ ∀ e ∈ resolvedEvents log, e.lsn < c.lsn
  noted : ∀ g, gap = some g → ∀ c ∈ log, c.lsn ≤ g
  reached : ∀ c ∈ log, c.lsn ≤ r.position

/-- What a subscriber was handed is the log between its start and its cursor. -/
structure SubOk (sub : Subscription V) (log : List (PendingChange V)) : Prop where
  start_le : sub.start ≤ sub.cursor
  at_change : sub.cursor = sub.start ∨ ∃ c ∈ log, c.lsn = sub.cursor
  received : sub.received = (resolvedEvents log).filter fun e =>
    sub.start < e.lsn ∧ e.lsn ≤ sub.cursor
  resolved : ∀ c ∈ log, sub.start < c.lsn → c.lsn ≤ sub.cursor → c.event? ≠ none
  undelivered : sub.delivered = false → sub.received = []

structure FeedInv (s : State V) : Prop where
  ascending : Ascending s.log
  ring : s.feed.ring.closed = false → RingOk s.feed.ring s.log s.gap
  emptied : s.feed.ring.closed = true → s.feed.ring.events = []
  subs : ∀ sub ∈ s.feed.subs, SubOk sub s.log

section Publishing

variable {r : Ring V} {log : List (PendingChange V)}

/-- The events are the newest of a list of events, and all of it above the floor. -/
def Held (r : Ring V) (all : List (ChangeEvent V)) : Prop :=
  r.events <:+ all ∧ ∀ e ∈ all, r.resumeFloor < e.lsn → e ∈ r.events

theorem Held.push {all : List (ChangeEvent V)} {e : ChangeEvent V} (n : ℕ) (h : Held r all) :
    Held (r.push n e) (all ++ [e]) := by
  obtain ⟨⟨pre, hall⟩, hheld⟩ := h
  have hnew : ∀ floor, r.resumeFloor ≤ floor → ∀ d ∈ all ++ [e], floor < d.lsn →
    d ∈ r.events ++ [e] := by
    intro floor hle d hd hlt
    rcases List.mem_append.mp hd with hd | hd
    · exact List.mem_append_left _ (hheld d hd (Nat.lt_of_le_of_lt hle hlt))
    · exact List.mem_append_right _ hd
  unfold Ring.push
  split
  · cases hevents : r.events with
    | nil =>
      refine ⟨List.nil_suffix, fun d hd hlt => ?_⟩
      have hd := hnew _ (Nat.le_max_left _ _) d hd hlt
      rw [hevents, List.nil_append, List.mem_singleton] at hd
      subst hd
      exact absurd hlt (Nat.not_lt.mpr (Nat.le_max_right _ _))
    | cons gone rest =>
      refine ⟨⟨pre ++ [gone], by rw [← hall, hevents]; simp⟩, fun d hd hlt => ?_⟩
      have hd := hnew _ (Nat.le_max_left _ _) d hd hlt
      rw [hevents, List.cons_append] at hd
      rcases List.mem_cons.mp hd with rfl | hd
      · exact absurd hlt (Nat.not_lt.mpr (Nat.le_max_right _ _))
      · exact hd
  · exact ⟨⟨pre, by rw [← List.append_assoc, hall]⟩, hnew _ (Nat.le_refl _)⟩

theorem Held.pushAll {all events : List (ChangeEvent V)} (n : ℕ) (h : Held r all) :
    Held (events.foldl (Ring.push n) r) (all ++ events) := by
  induction events generalizing r all with
  | nil => simpa using h
  | cons e events ih =>
    have hsplit : all ++ e :: events = (all ++ [e]) ++ events := by simp
    rw [hsplit]
    exact ih (h.push n)

theorem push_keeps (n : ℕ) (r : Ring V) (e : ChangeEvent V) :
    r.resumeFloor ≤ (r.push n e).resumeFloor ∧ (r.push n e).position = r.position ∧
      (r.push n e).closed = r.closed := by
  unfold Ring.push
  split
  · split
    · exact ⟨Nat.le_max_left _ _, rfl, rfl⟩
    · exact ⟨Nat.le_max_left _ _, rfl, rfl⟩
  · exact ⟨Nat.le_refl _, rfl, rfl⟩

theorem pushAll_keeps (n : ℕ) (r : Ring V) (events : List (ChangeEvent V)) :
    r.resumeFloor ≤ (events.foldl (Ring.push n) r).resumeFloor ∧
      (events.foldl (Ring.push n) r).position = r.position ∧
        (events.foldl (Ring.push n) r).closed = r.closed := by
  induction events generalizing r with
  | nil => exact ⟨Nat.le_refl _, rfl, rfl⟩
  | cons e events ih =>
    obtain ⟨hfloor, hpos, hclosed⟩ := push_keeps n r e
    obtain ⟨hfloor', hpos', hclosed'⟩ := ih (r.push n e)
    exact ⟨Nat.le_trans hfloor hfloor', hpos'.trans hpos, hclosed'.trans hclosed⟩

def GapLast (changes : List (PendingChange V)) : Prop :=
  changes.Pairwise fun c d => c.event? = none → d.event? = none

instance [DecidableEq V] (changes : List (PendingChange V)) : Decidable (GapLast changes) :=
  inferInstanceAs (Decidable (List.Pairwise _ _))

theorem unresolvedGap_zero {changes : List (PendingChange V)} (h : ∀ c ∈ changes, c.event? ≠ none) :
    unresolvedGap changes = 0 := by
  have hnil : changes.filter (fun c => c.event?.isNone) = [] :=
    List.filter_eq_nil_iff.mpr fun c hc => by simpa using h c hc
  rw [unresolvedGap, hnil]
  rfl

theorem GapLast.lt {changes : List (PendingChange V)} (h : GapLast changes)
    (hasc : Ascending changes)
    {c d : PendingChange V} (hc : c ∈ changes) (hd : d ∈ changes) (hnone : c.event? = none)
    (hsome : d.event? ≠ none) : d.lsn < c.lsn := by
  obtain ⟨as, bs, rfl⟩ := List.append_of_mem hc
  rcases List.mem_append.mp hd with hd | hd
  · exact hasc.split d hd c List.mem_cons_self
  · rcases List.mem_cons.mp hd with rfl | hd
    · exact absurd hnone hsome
    · have hafter := (List.pairwise_append.mp h).2.1
      exact absurd ((List.pairwise_cons.mp hafter).1 d hd hnone) hsome

theorem RingOk.publish {gap : Option ℕ} {changes : List (PendingChange V)} {through n : ℕ}
    (h : RingOk r log none) (hclosed : r.closed = false) (hasc : Ascending (log ++ changes))
    (hle : ∀ c ∈ changes, 0 < c.lsn ∧ c.lsn ≤ through) (hlast : GapLast changes)
    (hgap : gap = if unresolvedGap changes = 0 then none else some (unresolvedGap changes)) :
    RingOk (r.publish n (resolvedEvents changes) through) (log ++ changes) gap := by
  have hheld : Held ((resolvedEvents changes).foldl (Ring.push n) r)
    (resolvedEvents log ++ resolvedEvents changes) :=
    Held.pushAll n ⟨h.suffix, h.held⟩
  rw [← resolvedEvents_append] at hheld
  obtain ⟨hfloor, hpos, -⟩ := pushAll_keeps n r (resolvedEvents changes)
  have hchanges : Ascending changes := (List.pairwise_append.mp hasc).2.1
  -- Whatever resolved is older than a change of the batch that did not.
  have holder : ∀ c ∈ changes, c.event? = none → ∀ d ∈ log ++ changes, d.event? ≠ none →
    d.lsn < c.lsn := by
    intro c hc hnone d hd hsome
    rcases List.mem_append.mp hd with hd | hd
    · exact hasc.split d hd c hc
    · exact hlast.lt hchanges hc hd hnone hsome
  have hpublish : r.publish n (resolvedEvents changes) through =
      { (resolvedEvents changes).foldl (Ring.push n) r with
        position := max ((resolvedEvents changes).foldl (Ring.push n) r).position through } := by
    simp only [Ring.publish, hclosed, Bool.false_eq_true, if_false]
  rw [hpublish]
  refine ⟨hheld.1, hheld.2, fun c hc hnone hlt => ?_, fun g hg c hc => ?_, fun c hc => ?_⟩
  · rcases List.mem_append.mp hc with hc | hc
    · exact absurd rfl (h.unresolved c hc hnone (Nat.lt_of_le_of_lt hfloor hlt)).1
    · refine ⟨?_, fun e he => ?_⟩
      · have hpos := (hle c hc).1
        have := le_unresolvedGap hc hnone
        rw [hgap, if_neg (by omega)]
        simp
      · obtain ⟨d, hd, hde⟩ := mem_resolvedEvents.mp he
        rw [event?_lsn hde]
        exact holder c hc hnone d hd (by simp [hde])
  · rw [hg] at hgap
    by_cases hzero : unresolvedGap changes = 0
    · rw [if_pos hzero] at hgap
      cases hgap
    rw [if_neg hzero] at hgap
    obtain rfl := Option.some.inj hgap
    have hsome : ∃ d ∈ changes, d.event? = none := by
      by_contra hno
      exact hzero (unresolvedGap_zero fun d hd hnone => hno ⟨d, hd, hnone⟩)
    obtain ⟨d, hd, hdnone⟩ := hsome
    have hdle := le_unresolvedGap hd hdnone
    by_cases hcnone : c.event? = none
    · rcases List.mem_append.mp hc with hc | hc
      · have := hasc.split c hc d hd
        omega
      · exact le_unresolvedGap hc hcnone
    · have := holder d hd hdnone c hc hcnone
      omega
  · simp only [hpos]
    rcases List.mem_append.mp hc with hc | hc
    · have := h.reached c hc
      omega
    · have := (hle c hc).2
      omega

/-- Behind a floor that nothing of the log is above the ring may be empty. -/
theorem RingOk.emptied {gap : Option ℕ} {floor position : ℕ} {closed : Bool}
    (hfloor : ∀ c ∈ log, c.lsn ≤ floor)
    (hpos : ∀ c ∈ log, c.lsn ≤ position) (hnoted : ∀ g, gap = some g → ∀ c ∈ log, c.lsn ≤ g) :
    RingOk ⟨[], floor, position, closed⟩ log gap := by
  refine ⟨List.nil_suffix, fun e he hlt => ?_, fun c hc hnone hlt => ?_, hnoted, hpos⟩
  · obtain ⟨c, hc, hce⟩ := mem_resolvedEvents.mp he
    have := hfloor c hc
    rw [event?_lsn hce] at hlt
    simp only at hlt
    omega
  · have := hfloor c hc
    simp only at hlt
    omega

theorem RingOk.noteGap {g : ℕ} (h : RingOk r log (some g)) (hclosed : r.closed = false) :
    RingOk (r.noteGap g) log none := by
  simp only [Ring.noteGap, hclosed, Bool.false_eq_true, if_false]
  refine RingOk.emptied (fun c hc => ?_) (fun c hc => ?_) (by simp)
  · have := h.noted g rfl c hc
    omega
  · have := h.reached c hc
    omega

theorem RingOk.skip {changes : List (PendingChange V)} {through : ℕ} (h : RingOk r log none)
    (hclosed : r.closed = false) (hle : ∀ c ∈ changes, c.lsn ≤ through)
    (hbuffered : ∀ e ∈ r.events, e.lsn ≤ through) : RingOk (r.noteGap through)
    (log ++ changes) none := by
  simp only [Ring.noteGap, hclosed, Bool.false_eq_true, if_false]
  refine RingOk.emptied (fun c hc => ?_) (fun c hc => ?_) (by simp)
  · rcases List.mem_append.mp hc with hc | hc
    · by_contra hlt
      have hfloor : r.resumeFloor < c.lsn := by omega
      cases hevent : c.event? with
      | none => exact (h.unresolved c hc hevent hfloor).1 rfl
      | some e =>
        have heq := event?_lsn hevent
        have := hbuffered e (h.held e (mem_resolvedEvents.mpr ⟨c, hc, hevent⟩) (heq ▸ hfloor))
        omega
    · have := hle c hc
      omega
  · rcases List.mem_append.mp hc with hc | hc
    · have := h.reached c hc
      omega
    · have := hle c hc
      omega

theorem RingOk.catchUp {gap : Option ℕ} (h : RingOk r log gap) (applied : ℕ) : RingOk
    (r.catchUp applied) log gap := by
  unfold Ring.catchUp
  split
  · next hlt =>
    refine RingOk.emptied (fun c hc => ?_) (fun c hc => ?_) h.noted
    · have := h.reached c hc
      omega
    · have := h.reached c hc
      omega
  · exact h

end Publishing

section Reading

variable {r : Ring V} {log changes : List (PendingChange V)} {sub : Subscription V} {gap : Option ℕ}

theorem SubOk.grow (h : SubOk sub log) (hasc : Ascending (log ++ changes)) : SubOk sub
    (log ++ changes) := by
  have hnew : ∀ c ∈ changes, ¬(sub.start < c.lsn ∧ c.lsn ≤ sub.cursor) := by
    intro c hc hin
    rcases h.at_change with heq | ⟨d, hd, heq⟩
    · omega
    · have := hasc.split d hd c hc
      omega
  refine ⟨h.start_le, h.at_change.imp_right fun ⟨c, hc, heq⟩ =>
    ⟨c, List.mem_append_left _ hc, heq⟩, ?_, ?_, h.undelivered⟩
  · have hnone : (resolvedEvents changes).filter (fun e =>
      sub.start < e.lsn ∧ e.lsn ≤ sub.cursor) = [] := by
      refine List.filter_eq_nil_iff.mpr fun e he => ?_
      obtain ⟨c, hc, hce⟩ := mem_resolvedEvents.mp he
      rw [event?_lsn hce, decide_eq_true_eq]
      exact hnew c hc
    rw [resolvedEvents_append, List.filter_append, hnone, List.append_nil, h.received]
  · intro c hc hlt hle
    rcases List.mem_append.mp hc with hc | hc
    · exact h.resolved c hc hlt hle
    · exact absurd ⟨hlt, hle⟩ (hnew c hc)

/-- What a cursor above the floor still has to read is the rest of the log. -/
theorem RingOk.rest (h : RingOk r log gap) (hasc : Ascending log) {cursor : ℕ}
    (hfloor : r.resumeFloor ≤ cursor) :
    ∃ P, resolvedEvents log = P ++ r.events.dropWhile (fun e => e.lsn ≤ cursor) ∧ ∀ e ∈ P,
      e.lsn ≤ cursor := by
  obtain ⟨A, hA⟩ := h.suffix
  refine ⟨A ++ r.events.takeWhile (fun e => e.lsn ≤ cursor), ?_, fun e he => ?_⟩
  · rw [List.append_assoc, List.takeWhile_append_dropWhile, hA]
  · rcases List.mem_append.mp he with he | he
    · by_contra hlt
      have hmem : e ∈ r.events :=
        h.held e (hA ▸ List.mem_append_left _ he) (by omega)
      have hresolved := hasc.resolved
      rw [← hA] at hresolved
      exact Nat.lt_irrefl _ ((List.pairwise_append.mp hresolved).2.2 e he e hmem)
    · have := List.mem_takeWhile_imp he
      simpa using this

theorem dropWhile_above {events : List (ChangeEvent V)}
    (hasc : events.Pairwise fun e d => e.lsn < d.lsn)
    (cursor : ℕ) : ∀ e ∈ events.dropWhile (fun e => e.lsn ≤ cursor), cursor < e.lsn := by
  induction events with
  | nil => simp
  | cons d events ih =>
    rw [List.dropWhile_cons]
    split
    · exact ih (List.pairwise_cons.mp hasc).2
    · next hlt =>
      have hlt : cursor < d.lsn := by simpa using hlt
      intro e he
      rcases List.mem_cons.mp he with rfl | he
      · exact hlt
      · exact Nat.lt_trans hlt ((List.pairwise_cons.mp hasc).1 e he)

theorem SubOk.handed (h : SubOk sub log) (hring : RingOk r log gap) (hasc : Ascending log)
    (hfloor : r.resumeFloor ≤ sub.cursor) {batch rest : List (ChangeEvent V)} {z : ChangeEvent V}
    (hbatch : r.events.dropWhile (fun e => e.lsn ≤ sub.cursor) = (batch ++ [z]) ++ rest) :
    SubOk { sub with
      delivered := true
      cursor := z.lsn
      received := sub.received ++ (batch ++ [z]) } log := by
  obtain ⟨P, hP, hle⟩ := hring.rest hasc hfloor
  have hresolved := hasc.resolved
  have hevents : r.events.Pairwise fun e d => e.lsn < d.lsn :=
    hresolved.sublist hring.suffix.sublist
  have habove := dropWhile_above hevents sub.cursor
  rw [hP, hbatch] at hresolved
  have hlater : ∀ e ∈ rest, z.lsn < e.lsn := fun e he =>
    (List.pairwise_append.mp (List.pairwise_append.mp hresolved).2.1).2.2 z (by simp) e he
  have hupto : ∀ e ∈ batch ++ [z], e.lsn ≤ z.lsn := by
    intro e he
    rcases List.mem_append.mp he with he | he
    · have hpair := (List.pairwise_append.mp (List.pairwise_append.mp hresolved).2.1).1
      exact Nat.le_of_lt ((List.pairwise_append.mp hpair).2.2 e he z (List.mem_singleton_self z))
    · rw [List.mem_singleton.mp he]
  have hnext : ∀ e ∈ batch ++ [z], sub.cursor < e.lsn := fun e he =>
    habove e (hbatch ▸ List.mem_append_left _ he)
  have hz : sub.cursor < z.lsn := hnext z (by simp)
  have hzmem : z ∈ resolvedEvents log := by
    rw [hP, hbatch]
    simp
  refine ⟨Nat.le_of_lt (Nat.lt_of_le_of_lt h.start_le hz), ?_, ?_, fun c hc hlt hcz => ?_, by simp⟩
  · obtain ⟨c, hc, hce⟩ := mem_resolvedEvents.mp hzmem
    exact .inr ⟨c, hc, (event?_lsn hce).symm⟩
  · have hfirst : sub.received = P.filter fun e => sub.start < e.lsn ∧ e.lsn ≤ sub.cursor := by
      have hnone : (r.events.dropWhile fun e => e.lsn ≤ sub.cursor).filter
          (fun e => sub.start < e.lsn ∧ e.lsn ≤ sub.cursor) = [] := by
        refine List.filter_eq_nil_iff.mpr fun e he => ?_
        have := habove e he
        simp only [decide_eq_true_eq]
        omega
      rw [h.received, hP, List.filter_append, hnone, List.append_nil]
    have hold : P.filter (fun e => sub.start < e.lsn ∧ e.lsn ≤ sub.cursor) =
        P.filter fun e => sub.start < e.lsn ∧ e.lsn ≤ z.lsn := by
      refine List.filter_congr fun e he => ?_
      have := hle e he
      simp only [decide_eq_decide]
      omega
    have hbatched : (batch ++ [z]).filter (fun e => sub.start < e.lsn ∧ e.lsn ≤ z.lsn) =
      batch ++ [z] := by
      refine List.filter_eq_self.mpr fun e he => ?_
      have hle := hupto e he
      have hlt := hnext e he
      have := h.start_le
      simp only [decide_eq_true_eq]
      omega
    have hrest : rest.filter (fun e => sub.start < e.lsn ∧ e.lsn ≤ z.lsn) = [] := by
      refine List.filter_eq_nil_iff.mpr fun e he => ?_
      have := hlater e he
      simp only [decide_eq_true_eq]
      omega
    simp only [hP, hbatch]
    rw [List.filter_append, List.filter_append, hbatched, hrest, List.append_nil, hfirst, hold]
  · -- An unresolved change above the floor is above everything that resolved.
    intro hnone
    by_cases hold : c.lsn ≤ sub.cursor
    · exact h.resolved c hc hlt hold hnone
    · have := (hring.unresolved c hc hnone (by omega)).2 z hzmem
      simp only at hcz
      omega

theorem SubOk.next (h : SubOk sub log) (hring : r.events = [] ∨ RingOk r log gap)
    (hasc : Ascending log) (n : ℕ) : SubOk (sub.next r n) log := by
  unfold Subscription.next Ring.readFrom
  by_cases hfloor : sub.cursor < r.resumeFloor
  · rw [if_pos hfloor]
    cases hstrict : sub.strict || sub.delivered with
    | true => exact ⟨h.start_le, h.at_change, h.received, h.resolved, h.undelivered⟩
    | false =>
      obtain ⟨-, hdelivered⟩ := Bool.or_eq_false_iff.mp hstrict
      simp only [Bool.false_eq_true, if_false]
      refine ⟨Nat.le_refl _, .inl rfl, ?_, fun c _ hlt hle => ?_, h.undelivered⟩
      · refine (h.undelivered hdelivered).trans (List.filter_eq_nil_iff.mpr fun e _ => ?_).symm
        simp only [decide_eq_true_eq]
        omega
      · simp only at hlt hle
        omega
  · rw [if_neg hfloor]
    cases hbatch : (r.events.dropWhile fun e => e.lsn ≤ sub.cursor).take n with
    | nil => cases r.closed <;> exact ⟨h.start_le, h.at_change, h.received, h.resolved,
        h.undelivered⟩
    | cons e batch =>
      obtain ⟨front, z, hz⟩ : ∃ front z, e :: batch = front ++ [z] :=
        ⟨_, _, (List.dropLast_append_getLast (List.cons_ne_nil e batch)).symm⟩
      have hsplit : (r.events.dropWhile fun e => e.lsn ≤ sub.cursor) =
          (front ++ [z]) ++ (r.events.dropWhile fun e => e.lsn ≤ sub.cursor).drop n := by
        rw [← hz, ← hbatch, List.take_append_drop]
      have hring : RingOk r log gap := by
        refine hring.resolve_left fun hnil => ?_
        simp [hnil] at hbatch
      have hhanded := h.handed hring hasc (Nat.le_of_not_lt hfloor) hsplit
      simp only [hz, List.getLast?_append, List.getLast?_singleton, Option.some_or, Option.map_some,
        Option.getD_some]
      exact hhanded

/-- As long as something of the log is left, a read does not come back empty. -/
theorem RingOk.read_not_empty (h : RingOk r log none) (hasc : Ascending log) {cursor n : ℕ}
    {c : PendingChange V}
    (hc : c ∈ log) (hlt : cursor < c.lsn) (hn : 0 < n) (strict : Bool) :
    r.readFrom cursor strict n ≠ .empty := by
  unfold Ring.readFrom
  by_cases hfloor : cursor < r.resumeFloor
  · rw [if_pos hfloor]
    cases strict <;> simp
  · rw [if_neg hfloor]
    have hsome : ∃ e, c.event? = some e := by
      cases hevent : c.event? with
      | none => exact absurd rfl (h.unresolved c hc hevent (by omega)).1
      | some e => exact ⟨e, rfl⟩
    obtain ⟨e, he⟩ := hsome
    have heq := event?_lsn he
    obtain ⟨P, hP, hle⟩ := h.rest hasc (Nat.le_of_not_lt hfloor)
    have hmem : e ∈ resolvedEvents log := mem_resolvedEvents.mpr ⟨c, hc, he⟩
    rw [hP] at hmem
    rcases List.mem_append.mp hmem with hmem | hmem
    · have := hle e hmem
      omega
    · obtain ⟨m, rfl⟩ : ∃ m, n = m + 1 := ⟨n - 1, by omega⟩
      cases hrest : r.events.dropWhile fun e => e.lsn ≤ cursor with
      | nil => simp [hrest] at hmem
      | cons d ds => simp

end Reading

end DewDB.Changefeed
