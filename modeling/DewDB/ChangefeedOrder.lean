import DewDB.ChangefeedTasks

/-!
# The order of publication

Tasks that publish in the order in which they applied deliver every committed change. When a later
task publishes first, a subscriber reads its change and then never sees the earlier one.
-/
namespace DewDB.Changefeed

open TransitionSystem

variable {V : Type}

section Clients

variable {s t : Shared V}

theorem TasksInv.withFeed (h : TasksInv s) {feed : Feed V}
    (hfeed : FeedInv { s.inner with feed := feed })
    (hposition : feed.ring.position ≤ max feed.ring.resumeFloor s.accounted)
    (hdormant : feed.ring.closed = false → ∀ c ∈ s.unrecorded, c.lsn ≤ feed.ring.resumeFloor ∨
      (feed.subscribers = 0 ∧ feed.pins = 0) ∧ feed.ring.position < c.lsn)
    (hsubs : ∀ sub ∈ feed.subs, ∀ c ∈ s.unrecorded, ¬(sub.start < c.lsn ∧ c.lsn ≤ sub.cursor)) :
    TasksInv { s with inner := { s.inner with feed := feed } } :=
  ⟨hfeed, h.ascending, h.bounded, h.told, h.cover, h.accounted_le, h.old, h.through_le, h.batches,
    h.above, h.order, h.gap, h.rest, h.built, hposition, hdormant, hsubs⟩

theorem TasksInv.attached_covered (h : TasksInv s) {sub : Subscription V}
    (hsub : sub ∈ s.inner.feed.subs)
    (hattached : sub.attached = true) (hopen : s.inner.feed.ring.closed = false) :
    Covered s s.inner.feed.ring.resumeFloor := by
  intro c hc
  rcases h.dormant hopen c hc with hle | ⟨⟨hnobody, -⟩, -⟩
  · exact hle
  · exact absurd hattached (List.countP_eq_zero.mp hnobody sub hsub)

theorem subscribers_onSub (f : Feed V) (i : ℕ) {g : Subscription V → Subscription V}
    (hg : ∀ sub, (g sub).attached = true → sub.attached = true) (h : f.subscribers = 0) :
    (f.onSub i g).subscribers = 0 := by
  unfold Feed.subscribers at h ⊢
  rw [List.countP_eq_zero] at h ⊢
  intro sub hsub
  obtain ⟨sub', hsub', rfl | rfl⟩ := mem_modify hsub
  · exact h _ hsub'
  · exact fun hattached => h sub' hsub' (hg sub' hattached)

theorem next_attached (sub : Subscription V) (r : Ring V) (n : ℕ) :
    (sub.next r n).attached = sub.attached := by
  unfold Subscription.next
  split <;> rfl

theorem next_interval {sub : Subscription V} {r : Ring V} {lsn n : ℕ}
    (hsub : ¬(sub.start < lsn ∧ lsn ≤ sub.cursor)) (hfloor : r.events = [] ∨ lsn ≤ r.resumeFloor) :
    ¬((sub.next r n).start < lsn ∧ lsn ≤ (sub.next r n).cursor) := by
  unfold Subscription.next Ring.readFrom
  by_cases hlt : sub.cursor < r.resumeFloor
  · rw [if_pos hlt]
    cases sub.strict || sub.delivered with
    | true => exact hsub
    | false =>
      simp only [Bool.false_eq_true, if_false]
      omega
  · rw [if_neg hlt]
    cases hbatch : (r.events.dropWhile fun e => e.lsn ≤ sub.cursor).take n with
    | nil => cases r.closed <;> exact hsub
    | cons e batch =>
      have hle : lsn ≤ r.resumeFloor := by
        refine hfloor.resolve_left fun hnil => ?_
        simp [hnil] at hbatch
      simp only
      omega

theorem TasksInv.woken (h : TasksInv s) {applied : ℕ} {lapsed : Bool}
    (hwakes : Wakes s applied lapsed) (hopen : s.inner.feed.ring.closed = false) :
    Covered s (if s.inner.feed.quiet lapsed then s.inner.feed.ring.catchUp applied else
      s.inner.feed.ring).resumeFloor := by
  intro c hc
  have hdormant := h.dormant hopen c hc
  rcases hwakes with hcovered | ⟨hquiet, hcovered⟩
  · have hle := hcovered c hc
    split
    · unfold Ring.catchUp
      split
      · simp only
        omega
      · exact hle
    · exact hle
  · have hle := hcovered c hc
    rw [if_pos hquiet]
    unfold Ring.catchUp
    split
    · exact hle
    · omega

theorem catchUp_position {r : Ring V} {accounted : ℕ}
    (h : r.position ≤ max r.resumeFloor accounted) (applied : ℕ) (woken : Bool) :
    (if woken then r.catchUp applied else r).position ≤
      max (if woken then r.catchUp applied else r).resumeFloor accounted := by
  cases woken with
  | false => exact h
  | true =>
    simp only [if_true, Ring.catchUp]
    split
    · simp only
      omega
    · exact h

theorem TasksInv.subscribe (h : TasksInv s) (after : Option ℕ) {applied : ℕ} {lapsed : Bool}
    (hwakes : Wakes s applied lapsed) :
    TasksInv { s with inner :=
      { s.inner with feed := (s.inner.feed.subscribe after applied lapsed).1 } } := by
  have hfeed := h.feed.subscribe after applied lapsed
  unfold Feed.subscribe at hfeed ⊢
  cases hclosed : s.inner.feed.ring.closed with
  | true =>
    simp only [if_true]
    exact h
  | false =>
    have hcovered := h.woken hwakes hclosed
    have hposition := catchUp_position h.position applied (s.inner.feed.quiet lapsed)
    simp only [hclosed, Bool.false_eq_true, if_false] at hfeed ⊢
    generalize (if s.inner.feed.quiet lapsed then s.inner.feed.ring.catchUp applied
      else s.inner.feed.ring) = ring at *
    split at hfeed
    · next hmany =>
      rw [if_pos hmany]
      exact h
    · next hmany =>
      rw [if_neg hmany]
      have hattach : ∀ (cursor : ℕ) (strict : Bool), ∀ sub ∈ s.inner.feed.subs ++
          [(⟨cursor, strict, false, true, none, cursor, []⟩ : Subscription V)], ∀ c ∈ s.unrecorded,
          ¬(sub.start < c.lsn ∧ c.lsn ≤ sub.cursor) := by
        intro cursor strict sub hsub c hc
        rcases List.mem_append.mp hsub with hsub | hsub
        · exact h.subs sub hsub c hc
        · rw [List.mem_singleton.mp hsub]
          simp only
          omega
      cases after with
      | none => exact h.withFeed hfeed hposition (fun _ =>
          hcovered.dormant (Nat.le_refl _)) (hattach _ _)
      | some a =>
        dsimp only at hfeed ⊢
        split
        · next hahead =>
          rw [if_pos hahead] at hfeed
          exact h.withFeed hfeed hposition (fun _ => hcovered.dormant (Nat.le_refl _)) h.subs
        · next hahead =>
          rw [if_neg hahead] at hfeed
          split
          · next hbelow =>
            rw [if_pos hbelow] at hfeed
            exact h.withFeed hfeed hposition (fun _ => hcovered.dormant (Nat.le_refl _)) h.subs
          · next hbelow =>
            rw [if_neg hbelow] at hfeed
            exact h.withFeed hfeed hposition (fun _ =>
              hcovered.dormant (Nat.le_refl _)) (hattach _ _)

theorem TasksInv.client (h : TasksInv s) {op : Op V} (hop : op.isClient = true)
    (hok : InOrder s (.client op))
    {inner : State V} (hstep : step s.inner op = some inner) :
    TasksInv { s with inner := inner } := by
  have horderly : Orderly s.inner op := by
    cases op with
    | publish changes through => cases hop
    | skip changes through => cases hop
    | _ => trivial
  have hfeed := step_inv h.feed horderly hstep
  cases op with
  | publish changes through => cases hop
  | noteGap => cases hop
  | skip changes through => cases hop
  | subscribe after applied lapsed =>
    cases hstep
    exact h.subscribe after hok
  | pin applied lapsed =>
    cases hstep
    refine h.withFeed hfeed (catchUp_position h.position applied _) (fun hopen => ?_) h.subs
    refine Covered.dormant (h.woken hok ?_) (Nat.le_refl _)
    simp only [Feed.pinFrom] at hopen
    split at hopen
    · exact catchUp_closed _ applied ▸ hopen
    · exact hopen
  | unpin =>
    cases hstep
    refine h.withFeed hfeed h.position (fun hopen c hc => ?_) h.subs
    refine (h.dormant hopen c hc).imp_right fun ⟨⟨hsubs, hpins⟩, hlt⟩ => ⟨⟨hsubs, ?_⟩, hlt⟩
    simp only [Feed.unpin, hpins]
  | read i n =>
    simp only [step] at hstep
    split at hstep
    · cases hstep
      refine h.withFeed hfeed h.position (fun hopen c hc => ?_) fun sub hsub c hc => ?_
      · refine (h.dormant hopen c hc).imp_right fun ⟨⟨hsubs, hpins⟩, hlt⟩ => ⟨⟨?_, hpins⟩, hlt⟩
        refine subscribers_onSub _ i (fun sub hattached => ?_) hsubs
        split at hattached
        · exact next_attached sub _ _ ▸ hattached
        · exact hattached
      · obtain ⟨sub', hsub', rfl | rfl⟩ := mem_modify hsub
        · exact h.subs _ hsub' c hc
        · split
          · next hattached =>
            refine next_interval (h.subs sub' hsub' c hc) ?_
            cases hclosed : s.inner.feed.ring.closed with
            | true => exact .inl (h.feed.emptied hclosed)
            | false => exact .inr (h.attached_covered hsub'
                (Bool.and_eq_true_iff.mp hattached).1 hclosed c hc)
          · exact h.subs sub' hsub' c hc
    · cases hstep
  | detach i =>
    cases hstep
    refine h.withFeed hfeed h.position (fun hopen c hc => ?_) fun sub hsub c hc => ?_
    · refine (h.dormant hopen c hc).imp_right fun ⟨⟨hsubs, hpins⟩, hlt⟩ => ⟨⟨?_, hpins⟩, hlt⟩
      exact subscribers_onSub _ i (fun sub hattached => (by cases hattached)) hsubs
    · obtain ⟨sub', hsub', rfl | rfl⟩ := mem_modify hsub
      · exact h.subs _ hsub' c hc
      · exact h.subs sub' hsub' c hc
  | close =>
    cases hstep
    exact h.withFeed hfeed h.position (fun hopen => (by cases hopen)) h.subs

end Clients

section Delivery

variable {s t : Shared V}

theorem taskStep_inv (h : TasksInv s) {op : TaskOp V} (hok : InOrder s op)
    (hstep : taskStep s op = some t) : TasksInv t := by
  cases op with
  | apply changes through watched =>
    simp only [taskStep] at hstep
    split at hstep
    · next hif =>
      cases hstep
      exact h.apply watched hif.1 hif.2
    · cases hstep
  | publish i =>
    obtain ⟨rfl, hcovered, hlast⟩ := hok
    obtain ⟨task, htask, hstep⟩ := Option.bind_eq_some_iff.mp hstep
    split at hstep
    · next hif =>
      cases hstep
      obtain ⟨rest, htasks⟩ : ∃ rest, s.tasks = task :: rest := by
        rw [← List.head?_eq_getElem?] at htask
        exact ⟨_, List.eq_cons_of_mem_head? htask⟩
      exact h.publish htasks hif.1 hif.2 hcovered (hlast task htask)
    · cases hstep
  | noteGap i =>
    obtain rfl : i = 0 := hok
    obtain ⟨task, htask, hstep⟩ := Option.bind_eq_some_iff.mp hstep
    obtain ⟨g, hg, rfl⟩ := Option.map_eq_some_iff.mp hstep
    obtain ⟨rest, htasks⟩ : ∃ rest, s.tasks = task :: rest := by
      rw [← List.head?_eq_getElem?] at htask
      exact ⟨_, List.eq_cons_of_mem_head? htask⟩
    exact h.noteGap htasks hg
  | finish i lapsed =>
    obtain ⟨rfl, hbuffered⟩ := hok
    obtain ⟨task, htask, hstep⟩ := Option.bind_eq_some_iff.mp hstep
    split at hstep
    · cases hstep
    · next hwatched =>
      cases hstep
      obtain ⟨rest, htasks⟩ : ∃ rest, s.tasks = task :: rest := by
        rw [← List.head?_eq_getElem?] at htask
        exact ⟨_, List.eq_cons_of_mem_head? htask⟩
      exact h.finish htasks (Bool.not_eq_true _ ▸ hwatched) (hbuffered task htask) lapsed
  | client op =>
    simp only [taskStep] at hstep
    split at hstep
    · next hop =>
      obtain ⟨inner, hinner, rfl⟩ := Option.map_eq_some_iff.mp hstep
      exact h.client hop hok hinner
    · cases hstep

theorem sharedFresh_inv (bufferEvents maxSubscribers position : ℕ) :
    TasksInv (Shared.fresh bufferEvents maxSubscribers position : Shared V) := by
  refine ⟨fresh_inv bufferEvents maxSubscribers position, List.Pairwise.nil, ?_, ?_, ?_,
    Nat.le_refl _, ?_, ?_, ?_, ?_,
    List.Pairwise.nil, rfl, ?_, ?_, Nat.le_max_left _ _, ?_, ?_⟩ <;>
      simp [Shared.fresh, State.fresh, Feed.new]

/-- Every committed change between the start of a subscriber and its cursor was handed to it, once
and in order; and once every task is through, an attached subscriber that has something left to read
or to be told does not wait. -/
structure TaskDelivers (s : Shared V) (sub : Subscription V) : Prop where
  ordered : sub.received.Pairwise fun e d => e.lsn < d.lsn
  exact : sub.received = (resolvedEvents s.committed).filter fun e =>
    sub.start < e.lsn ∧ e.lsn ≤ sub.cursor
  complete : ∀ c ∈ s.committed, sub.start < c.lsn → c.lsn ≤ sub.cursor → c.event? ≠ none
  told : sub.attached = true → s.tasks = [] → ∀ c ∈ s.committed, sub.cursor < c.lsn → ∀ n, 0 < n →
    s.inner.feed.ring.readFrom sub.cursor (sub.strict || sub.delivered) n ≠ .empty

/-- Inside the interval of a subscriber the committed changes are those the feed was told of. -/
theorem TasksInv.within (h : TasksInv s) {sub : Subscription V} (hsub : sub ∈ s.inner.feed.subs)
    {c : PendingChange V}
    (hc : c ∈ s.committed) (hlt : sub.start < c.lsn) (hle : c.lsn ≤ sub.cursor) :
    c ∈ s.inner.log := by
  rcases h.cover c hc with hlog | hmissed | ⟨task, htask, hnone, hct⟩
  · exact hlog
  · exact absurd ⟨hlt, hle⟩ (h.subs sub hsub c hmissed)
  · have habove := h.above task htask hnone c hct
    rcases (h.feed.subs sub hsub).at_change with heq | ⟨d, hd, heq⟩
    · omega
    · have := h.old d (List.mem_append_left _ hd)
      omega

theorem TasksInv.delivers (h : TasksInv s) {sub : Subscription V} (hsub : sub ∈ s.inner.feed.subs) :
    TaskDelivers s sub := by
  have hdelivers := h.feed.delivers hsub
  have hsame : (resolvedEvents s.inner.log).filter (fun e =>
    sub.start < e.lsn ∧ e.lsn ≤ sub.cursor) =
      (resolvedEvents s.committed).filter fun e => sub.start < e.lsn ∧ e.lsn ≤ sub.cursor := by
    have : Std.Antisymm fun e d : ChangeEvent V => e.lsn < d.lsn :=
      ⟨fun _ _ hed hde => absurd hed (Nat.lt_asymm hde)⟩
    have : Std.Irrefl fun e d : ChangeEvent V => e.lsn < d.lsn := ⟨fun _ => Nat.lt_irrefl _⟩
    refine List.Pairwise.eq_of_mem_iff (h.feed.ascending.resolved.sublist List.filter_sublist)
      (h.ascending.resolved.sublist List.filter_sublist) fun e => ?_
    simp only [List.mem_filter, mem_resolvedEvents, decide_eq_true_eq]
    constructor
    · rintro ⟨⟨c, hc, hce⟩, hin⟩
      exact ⟨⟨c, h.told c hc, hce⟩, hin⟩
    · rintro ⟨⟨c, hc, hce⟩, hin⟩
      refine ⟨⟨c, ?_, hce⟩, hin⟩
      rw [event?_lsn hce] at hin
      exact h.within hsub hc hin.1 hin.2
  refine ⟨hdelivers.ordered, hdelivers.exact.trans hsame,
    fun c hc hlt hle => hdelivers.complete c (h.within hsub hc hlt hle) hlt hle,
    fun hattached htasks c hc hlt n hn => ?_⟩
  rcases h.cover c hc with hlog | hmissed | ⟨task, htask, -⟩
  · have hgap : s.inner.gap = none := by
      rw [h.gap, htasks]
      rfl
    exact hdelivers.told hgap c hlog hlt n hn
  · cases hclosed : s.inner.feed.ring.closed with
    | true =>
      unfold Ring.readFrom
      rw [h.feed.emptied hclosed, hclosed]
      split
      · split <;> simp
      · simp
    | false =>
      have hfloor := h.attached_covered hsub hattached hclosed c hmissed
      unfold Ring.readFrom
      rw [if_pos (by omega)]
      split <;> simp
  · rw [htasks] at htask
    cases htask

/-- Tasks that publish in the order in which they applied, and wake a feed with a watermark above
what it was not told of, deliver every committed change to every subscriber, or tell it that it has
missed some. -/
theorem tasks_deliver {bufferEvents maxSubscribers position : ℕ} {ops : List (TaskOp V)}
    (hrun : run taskStep (Shared.fresh bufferEvents maxSubscribers position) ops = some s)
    (hok : Meets taskStep InOrder (Shared.fresh bufferEvents maxSubscribers position) ops) :
    ∀ sub ∈ s.inner.feed.subs, TaskDelivers s sub := fun _ hsub =>
  (run_invariant_of_meets (fun _ _ _ h hok hstep => taskStep_inv h hok hstep) hrun hok
    (sharedFresh_inv bufferEvents maxSubscribers position)).delivers hsub

def inOrderOps : List (TaskOp Bool) :=
  [.client (.subscribe (some 4) 4 true), .apply [.wrote 5 .insert "a" (some true)] 5 true,
    .apply [.gone 6 "a"] 6 true, .publish 0, .client (.read 0 256), .publish 0,
    .client (.read 0 256)]

/-- The second task publishes first, and the subscriber reads in between. -/
def overtakenOps : List (TaskOp Bool) :=
  [.client (.subscribe (some 4) 4 true), .apply [.wrote 5 .insert "a" (some true)] 5 true,
    .apply [.gone 6 "a"] 6 true, .publish 1, .client (.read 0 256), .publish 0,
    .client (.read 0 256)]

def afterTasks (ops : List (TaskOp Bool)) : Shared Bool :=
  (run taskStep (Shared.fresh 16 4 4) ops).getD (Shared.fresh 16 4 4)

theorem tasks_deliver_in_order : (afterTasks inOrderOps).inner.feed.subs.length = 1 ∧
    ∀ sub ∈ (afterTasks inOrderOps).inner.feed.subs, TaskDelivers (afterTasks inOrderOps) sub := by
  have hrun : run taskStep (Shared.fresh 16 4 4) inOrderOps = some (afterTasks inOrderOps) := by
    decide
  exact ⟨by decide, tasks_deliver hrun (by decide)⟩

/-- The subscriber was handed the delete and never the insert before it. -/
theorem tasks_lose_overtaken : run taskStep (Shared.fresh 16 4 4) overtakenOps = some
    (afterTasks overtakenOps) ∧
    ∃ sub ∈ (afterTasks overtakenOps).inner.feed.subs, sub.attached = true ∧ sub.ended = none ∧
      ¬TaskDelivers (afterTasks overtakenOps) sub := by
  refine ⟨by decide, ⟨6, true, true, true, none, 4, [⟨6, .delete, "a", none⟩]⟩, by decide, rfl,
    rfl, fun h => ?_⟩
  exact absurd h.exact (by decide)

end Delivery

end DewDB.Changefeed
