import DewDB.ChangefeedRing

/-!
# What subscribers are handed

In a run in which nothing that resolved stands behind something that did not, and a skipped commit
is above what is buffered, no subscriber misses a change that it is not told of. Otherwise noting
the gap clears events above the floor it leaves, and a subscriber that resumes from that floor
misses them.
-/
namespace DewDB.Changefeed

open TransitionSystem

variable {V : Type} {s t : State V}

def Orderly (s : State V) : Op V → Prop
  | .publish changes _ => GapLast changes
  | .skip _ through => ∀ e ∈ s.feed.ring.events, e.lsn ≤ through
  | _ => True

instance [DecidableEq V] (s : State V) : ∀ op : Op V, Decidable (Orderly s op)
  | .publish changes _ => inferInstanceAs (Decidable (GapLast changes))
  | .skip _ through => inferInstanceAs (Decidable (∀ e ∈ s.feed.ring.events, e.lsn ≤ through))
  | .noteGap => isTrue trivial
  | .subscribe _ _ _ => isTrue trivial
  | .pin _ _ => isTrue trivial
  | .unpin => isTrue trivial
  | .read _ _ => isTrue trivial
  | .detach _ => isTrue trivial
  | .close => isTrue trivial

section Steps

theorem mem_modify {α : Type} {g : α → α} {as : List α} {i : ℕ} {b : α} (h : b ∈ as.modify i g) :
    ∃ a ∈ as, b = a ∨ b = g a := by
  obtain ⟨j, hj, rfl⟩ := List.getElem_of_mem h
  rw [List.getElem_modify]
  have hj' : j < as.length := by simpa using hj
  refine ⟨as[j], List.getElem_mem hj', ?_⟩
  split
  · exact .inr rfl
  · exact .inl rfl

theorem publish_closed (r : Ring V) (n : ℕ) (events : List (ChangeEvent V)) (through : ℕ) :
    (r.publish n events through).closed = r.closed := by
  unfold Ring.publish
  split
  · rfl
  · exact (pushAll_keeps n r events).2.2

theorem noteGap_closed (r : Ring V) (through : ℕ) : (r.noteGap through).closed = r.closed := by
  unfold Ring.noteGap
  split <;> rfl

theorem catchUp_closed (r : Ring V) (applied : ℕ) : (r.catchUp applied).closed = r.closed := by
  unfold Ring.catchUp
  split <;> rfl

theorem subOk_attached (log : List (PendingChange V)) (cursor : ℕ) (strict : Bool) :
    SubOk ⟨cursor, strict, false, true, none, cursor, []⟩ log := by
  refine ⟨Nat.le_refl _, .inl rfl, (List.filter_eq_nil_iff.mpr fun e _ => ?_).symm,
    fun c _ hlt hle => ?_, fun _ => rfl⟩
  · simp only [decide_eq_true_eq]
    omega
  · simp only at hlt hle
    omega

theorem FeedInv.caughtUp (h : FeedInv s) (applied : ℕ) (woken : Bool) :
    FeedInv (s.withRing (if woken then s.feed.ring.catchUp applied else s.feed.ring)) := by
  cases woken with
  | false => exact h
  | true =>
    refine ⟨h.ascending, fun hopen => ?_, fun hclosed => ?_, h.subs⟩
    · have hopen : (s.feed.ring.catchUp applied).closed = false := hopen
      rw [catchUp_closed] at hopen
      exact (h.ring hopen).catchUp applied
    · have hclosed : (s.feed.ring.catchUp applied).closed = true := hclosed
      rw [catchUp_closed] at hclosed
      simp only [State.withRing, if_true, Ring.catchUp]
      split
      · rfl
      · exact h.emptied hclosed

theorem FeedInv.subscribe (h : FeedInv s) (after : Option ℕ) (applied : ℕ) (lapsed : Bool) :
    FeedInv { s with feed := (s.feed.subscribe after applied lapsed).1 } := by
  have hcaught := h.caughtUp applied (s.feed.quiet lapsed)
  have hattach : ∀ cursor strict, FeedInv { s with feed :=
      { s.feed with
        ring := if s.feed.quiet lapsed then s.feed.ring.catchUp applied else s.feed.ring
        subs := s.feed.subs ++ [⟨cursor, strict, false, true, none, cursor, []⟩] } } := by
    intro cursor strict
    refine ⟨hcaught.ascending, hcaught.ring, hcaught.emptied, fun sub hsub => ?_⟩
    rcases List.mem_append.mp hsub with hsub | hsub
    · exact hcaught.subs sub hsub
    · rw [List.mem_singleton.mp hsub]
      exact subOk_attached s.log cursor strict
  unfold Feed.subscribe
  split
  · exact h
  split
  · exact h
  dsimp only
  generalize (if s.feed.quiet lapsed then s.feed.ring.catchUp applied else s.feed.ring) = ring
    at hcaught hattach ⊢
  cases after with
  | none => exact hattach _ _
  | some a =>
    dsimp only
    split
    · exact hcaught
    · split
      · exact hcaught
      · exact hattach _ _

theorem FeedInv.read (h : FeedInv s) (i n : ℕ) : FeedInv
    { s with feed := s.feed.nextBatch i n } := by
  refine ⟨h.ascending, h.ring, h.emptied, fun sub hsub => ?_⟩
  obtain ⟨sub', hsub', rfl | rfl⟩ := mem_modify hsub
  · exact h.subs _ hsub'
  · have hok := h.subs sub' hsub'
    split
    · cases hclosed : s.feed.ring.closed with
      | false => exact hok.next (.inr (h.ring hclosed)) h.ascending n
      | true =>
        have hring : s.feed.ring.events = [] ∨ RingOk s.feed.ring s.log none :=
          .inl (h.emptied hclosed)
        exact hok.next hring h.ascending n
    · exact hok

theorem FeedInv.withRing (h : FeedInv s) {ring : Ring V} {changes : List (PendingChange V)}
    {gap : Option ℕ}
    (hasc : Ascending (s.log ++ changes)) (hclosed : ring.closed = s.feed.ring.closed)
    (hring : s.feed.ring.closed = false → RingOk ring (s.log ++ changes) gap)
    (hempty : s.feed.ring.closed = true → ring = s.feed.ring) :
    FeedInv { s.withRing ring with
      log := s.log ++ changes
      gap := gap } := by
  refine ⟨hasc, fun hopen => hring (hclosed ▸ hopen), fun hshut => ?_, fun sub hsub =>
    (h.subs sub hsub).grow hasc⟩
  have hshut : s.feed.ring.closed = true := hclosed ▸ hshut
  have hevents : ring.events = [] := by
    rw [hempty hshut]
    exact h.emptied hshut
  exact hevents

theorem step_inv (h : FeedInv s) {op : Op V} (hok : Orderly s op) (hstep : step s op = some t) :
    FeedInv t := by
  cases op with
  | publish changes through =>
    simp only [step] at hstep
    split at hstep
    · next hfollows =>
      cases hstep
      obtain ⟨hgap, hasc, hle⟩ := hfollows
      refine h.withRing hasc (publish_closed _ _ _ _) (fun hopen => ?_) fun hshut => ?_
      · have hring := h.ring hopen
        rw [hgap] at hring
        exact hring.publish hopen hasc hle hok rfl
      · simp only [Ring.publish, hshut, if_true]
    · cases hstep
  | noteGap =>
    obtain ⟨g, hg, rfl⟩ := Option.map_eq_some_iff.mp hstep
    have hnoted : FeedInv { s.withRing (s.feed.ring.noteGap g) with
        log := s.log ++ []
        gap := none } := by
      refine h.withRing (by simpa using h.ascending) (noteGap_closed _ _) (fun hopen => ?_)
        fun hshut => ?_
      · have hring := h.ring hopen
        rw [hg] at hring
        simpa using hring.noteGap hopen
      · simp only [Ring.noteGap, hshut, if_true]
    rw [List.append_nil] at hnoted
    exact hnoted
  | skip changes through =>
    simp only [step] at hstep
    split at hstep
    · next hfollows =>
      cases hstep
      obtain ⟨hgap, hasc, hle⟩ := hfollows
      refine h.withRing hasc (noteGap_closed _ _) (fun hopen => ?_) fun hshut => ?_
      · have hring := h.ring hopen
        rw [hgap] at hring
        have hgap : (s.withRing (s.feed.ring.noteGap through)).gap = none := hgap
        rw [hgap]
        exact hring.skip hopen (fun c hc => (hle c hc).2) hok
      · simp only [Ring.noteGap, hshut, if_true]
    · cases hstep
  | subscribe after applied lapsed =>
    cases hstep
    exact h.subscribe after applied lapsed
  | pin applied lapsed =>
    cases hstep
    have hcaught := h.caughtUp applied (s.feed.quiet lapsed)
    exact ⟨hcaught.ascending, hcaught.ring, hcaught.emptied, hcaught.subs⟩
  | unpin =>
    cases hstep
    exact ⟨h.ascending, h.ring, h.emptied, h.subs⟩
  | read i n =>
    simp only [step] at hstep
    split at hstep
    · cases hstep
      exact h.read i n
    · cases hstep
  | detach i =>
    cases hstep
    refine ⟨h.ascending, h.ring, h.emptied, fun sub hsub => ?_⟩
    obtain ⟨sub', hsub', rfl | rfl⟩ := mem_modify hsub
    · exact h.subs _ hsub'
    · have hok := h.subs sub' hsub'
      exact ⟨hok.start_le, hok.at_change, hok.received, hok.resolved, hok.undelivered⟩
  | close =>
    cases hstep
    exact ⟨h.ascending, fun hopen => (by cases hopen), fun _ => rfl, h.subs⟩

def State.fresh (bufferEvents maxSubscribers position : ℕ) : State V :=
  ⟨.new bufferEvents maxSubscribers position, [], none⟩

theorem fresh_inv (bufferEvents maxSubscribers position : ℕ) :
    FeedInv (State.fresh bufferEvents maxSubscribers position : State V) := by
  refine ⟨List.Pairwise.nil, fun _ => ?_, fun _ => rfl, fun sub hsub =>
    absurd hsub List.not_mem_nil⟩
  exact RingOk.emptied (by simp [State.fresh]) (by simp [State.fresh]) (by simp [State.fresh])

end Steps

section Delivery

/-- Nothing between the start of a subscriber and its cursor is missing, and a read comes back empty
only when nothing is left. -/
structure Delivers (s : State V) (sub : Subscription V) : Prop where
  ordered : sub.received.Pairwise fun e d => e.lsn < d.lsn
  exact : sub.received = (resolvedEvents s.log).filter fun e =>
    sub.start < e.lsn ∧ e.lsn ≤ sub.cursor
  complete : ∀ c ∈ s.log, sub.start < c.lsn → c.lsn ≤ sub.cursor → c.event? ≠ none
  told : s.gap = none → ∀ c ∈ s.log, sub.cursor < c.lsn → ∀ n, 0 < n →
    s.feed.ring.readFrom sub.cursor (sub.strict || sub.delivered) n ≠ .empty

theorem FeedInv.delivers (h : FeedInv s) {sub : Subscription V} (hsub : sub ∈ s.feed.subs) :
    Delivers s sub := by
  have hok := h.subs sub hsub
  refine ⟨?_, hok.received, hok.resolved, fun hgap c hc hlt n hn => ?_⟩
  · rw [hok.received]
    exact h.ascending.resolved.sublist List.filter_sublist
  · cases hclosed : s.feed.ring.closed with
    | false =>
      have hring := h.ring hclosed
      rw [hgap] at hring
      exact hring.read_not_empty h.ascending hc hlt hn _
    | true =>
      unfold Ring.readFrom
      rw [h.emptied hclosed, hclosed]
      split
      · split <;> simp
      · simp

/-- Without a publication that leaves a gap in front of what resolved, and without a gap below what
is buffered, every subscriber is handed the changes behind its position, or told that it has missed
some. -/
theorem feed_delivers {bufferEvents maxSubscribers position : ℕ} {ops : List (Op V)}
    (hrun : run step (State.fresh bufferEvents maxSubscribers position) ops = some s)
    (hok : Meets step Orderly (State.fresh bufferEvents maxSubscribers position) ops) :
    ∀ sub ∈ s.feed.subs, Delivers s sub := fun _ hsub =>
  (run_invariant_of_meets (fun _ _ _ h hok hstep => step_inv h hok hstep) hrun hok
    (fresh_inv bufferEvents maxSubscribers position)).delivers hsub

theorem next_start {sub : Subscription V} (h : sub.strict = true) (r : Ring V) (n : ℕ) :
    (sub.next r n).strict = true ∧ (sub.next r n).start = sub.start := by
  obtain ⟨cursor, strict, delivered, attached, ended, start, received⟩ := sub
  obtain rfl : strict = true := h
  unfold Subscription.next Ring.readFrom
  rw [Bool.true_or, if_pos rfl]
  split_ifs
  · exact ⟨rfl, rfl⟩
  all_goals
    dsimp only
    cases (r.events.dropWhile fun e => e.lsn ≤ cursor).take n with
    | nil => exact ⟨rfl, rfl⟩
    | cons e batch => exact ⟨rfl, rfl⟩

/-- Subscriber `i` started at the position `a`, which it named. -/
def Named (s : State V) (i a : ℕ) : Prop := ∃ sub ∈ s.feed.subs[i]?,
  sub.strict = true ∧ sub.start = a

theorem subscribe_subs (f : Feed V) (after : Option ℕ) (applied : ℕ) (lapsed : Bool) :
    f.subs <+: (f.subscribe after applied lapsed).1.subs := by
  unfold Feed.subscribe
  split_ifs
  · exact List.prefix_refl _
  · exact List.prefix_refl _
  all_goals
    cases after with
    | none => exact List.prefix_append _ _
    | some a =>
      dsimp only
      split_ifs
      · exact List.prefix_refl _
      · exact List.prefix_refl _
      · exact List.prefix_append _ _

theorem Named.onSub {i a : ℕ} (h : Named s i a) (j : ℕ) {g : Subscription V → Subscription V}
    (hg : ∀ sub, sub.strict = true → (g sub).strict = true ∧ (g sub).start = sub.start) :
    Named { s with feed := s.feed.onSub j g } i a := by
  obtain ⟨sub, hsub, hstrict, hstart⟩ := h
  simp only [Named, Feed.onSub, List.getElem?_modify, Option.mem_def.mp hsub, Option.map_eq_map,
    Option.map_some]
  by_cases hij : j = i
  · rw [if_pos hij]
    exact ⟨g sub, rfl, (hg sub hstrict).1, (hg sub hstrict).2.trans hstart⟩
  · rw [if_neg hij]
    exact ⟨sub, rfl, hstrict, hstart⟩

theorem Named.step {i a : ℕ} {op : Op V} (h : Named s i a) (hstep : step s op = some t) :
    Named t i a := by
  cases op with
  | publish changes through =>
    obtain ⟨-, rfl⟩ := Option.ite_none_right_eq_some.mp hstep |>.imp_right Option.some.inj
    exact h
  | noteGap =>
    obtain ⟨g, -, rfl⟩ := Option.map_eq_some_iff.mp hstep
    exact h
  | skip changes through =>
    obtain ⟨-, rfl⟩ := Option.ite_none_right_eq_some.mp hstep |>.imp_right Option.some.inj
    exact h
  | subscribe after applied lapsed =>
    cases hstep
    obtain ⟨sub, hsub, hnamed⟩ := h
    obtain ⟨new, hnew⟩ := subscribe_subs s.feed after applied lapsed
    refine ⟨sub, ?_, hnamed⟩
    rw [← hnew, List.getElem?_append_left (List.getElem?_eq_some_iff.mp hsub).1]
    exact hsub
  | pin applied lapsed =>
    cases hstep
    exact h
  | unpin =>
    cases hstep
    exact h
  | read j n =>
    obtain ⟨-, rfl⟩ := Option.ite_none_right_eq_some.mp hstep |>.imp_right Option.some.inj
    apply h.onSub
    intro sub hstrict
    split_ifs
    · exact next_start hstrict _ _
    · exact ⟨hstrict, rfl⟩
  | detach j =>
    cases hstep
    exact h.onSub j fun sub hstrict => ⟨hstrict, rfl⟩
  | close =>
    cases hstep
    exact h

theorem subscribe_taken {f : Feed V} {a applied : ℕ} {lapsed : Bool}
    (htaken : (f.subscribe (some a) applied lapsed).2.isNone = true) :
    (f.subscribe (some a) applied lapsed).1.subs = f.subs ++
      [⟨a, true, false, true, none, a, []⟩] := by
  revert htaken
  unfold Feed.subscribe
  dsimp only
  split_ifs
  all_goals
    intro htaken
    first
    | rfl
    | cases htaken

/-- A subscriber that names a position and is taken has it for its start, in every state that
follows. -/
theorem start_named {a applied : ℕ} {lapsed : Bool} {ops : List (Op V)}
    (htaken : (s.feed.subscribe (some a) applied lapsed).2.isNone = true)
    (hrun : run step s (.subscribe (some a) applied lapsed :: ops) = some t) :
    Named t s.feed.subs.length a := by
  obtain ⟨u, hu, hrest⟩ := run_cons.mp hrun
  cases hu
  apply run_invariant (I := fun v => Named v s.feed.subs.length a) (fun _ _ _ h hstep =>
    h.step hstep) hrest
  refine ⟨⟨a, true, false, true, none, a, []⟩, ?_, rfl, rfl⟩
  rw [subscribe_taken htaken]
  exact List.getElem?_concat_length

/-- The last of a batch cannot be read; a subscriber is told, resumes, and reads on. -/
def gapLastOps : List (Op Bool) :=
  [.subscribe (some 4) 4 true, .publish [.wrote 5 .insert "a" (some true),
    .wrote 6 .insert "b" none] 6, .read 0 256,
    .noteGap, .read 0 256, .subscribe (some 6) 6 false,
    .publish [.wrote 7 .insert "c" (some true)] 7, .read 1 256]

/-- The first of a batch cannot be read; a subscriber is told, resumes where it is told to, and
reads on. -/
def gapFirstOps : List (Op Bool) :=
  [.subscribe (some 4) 4 true, .publish [.wrote 5 .insert "a" none,
    .wrote 6 .insert "b" (some true)] 6, .noteGap,
    .read 0 256, .subscribe (some 5) 6 false,
    .publish [.wrote 7 .insert "c" (some true)] 7, .read 1 256]

def afterFeed (ops : List (Op Bool)) : State Bool :=
  (run step (State.fresh 16 4 4) ops).getD (State.fresh 16 4 4)

theorem feed_delivers_gap_last : (afterFeed gapLastOps).feed.subs.length = 2 ∧
    ∀ sub ∈ (afterFeed gapLastOps).feed.subs, Delivers (afterFeed gapLastOps) sub := by
  have hrun : run step (State.fresh 16 4 4) gapLastOps = some (afterFeed gapLastOps) := by decide
  exact ⟨by decide, feed_delivers hrun (by decide)⟩

/-- The second subscriber started behind LSN 5 and was handed LSN 7 only. -/
theorem feed_loses_behind_gap : run step (State.fresh 16 4 4) gapFirstOps = some
    (afterFeed gapFirstOps) ∧
    ∃ sub ∈ (afterFeed gapFirstOps).feed.subs, sub.start = 5 ∧ sub.ended = none ∧
      ¬Delivers (afterFeed gapFirstOps) sub := by
  refine ⟨by decide, ⟨7, true, true, true, none, 5, [⟨7, .insert, "c", some true⟩]⟩, by decide, rfl,
    rfl, fun h => ?_⟩
  exact absurd h.exact (by decide)

end Delivery

end DewDB.Changefeed
