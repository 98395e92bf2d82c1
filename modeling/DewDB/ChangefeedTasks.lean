import Mathlib.Data.List.Sort
import DewDB.ChangefeedRun

/-!
# Several tasks that apply commits

A task takes what is committed under the lock of the collection and publishes it after the lock is
gone, so the feed may see the batches in another order. A task that found nobody listening builds no
events; at its end it notes a gap if somebody listens by then, and otherwise leaves no trace in the
feed.
-/
namespace DewDB.Changefeed

open TransitionSystem

variable {V : Type}

/-- A batch that was applied and is not published yet; `noting` is the gap it has still to note. -/
structure Task (V : Type) where
  changes : List (PendingChange V)
  through : ℕ
  watched : Bool
  noting : Option ℕ
  deriving DecidableEq

/-- `inner.log` is what the feed was told of, `unrecorded` what it was not told of, and `committed`
everything that was applied. The tasks are in the order in which they applied. -/
structure Shared (V : Type) where
  inner : State V
  tasks : List (Task V)
  watermark : ℕ
  accounted : ℕ
  committed : List (PendingChange V)
  unrecorded : List (PendingChange V)
  deriving DecidableEq

def Op.isClient : Op V → Bool
  | .publish _ _ => false
  | .noteGap => false
  | .skip _ _ => false
  | _ => true

inductive TaskOp (V : Type) where
  | apply (changes : List (PendingChange V)) (through : ℕ) (watched : Bool)
  | publish (i : ℕ)
  | noteGap (i : ℕ)
  | finish (i : ℕ) (lapsed : Bool)
  | client (op : Op V)

namespace Shared

variable (s : Shared V)

def publish (i : ℕ) (task : Task V) : Shared V :=
  let ring := s.inner.feed.ring.publish s.inner.feed.bufferEvents
    (resolvedEvents task.changes) task.through
  let gap := if unresolvedGap task.changes = 0 then none else some (unresolvedGap task.changes)
  { s with
    inner := { s.inner.withRing ring with
      log := s.inner.log ++ task.changes
      gap := gap }
    tasks := if gap = none then s.tasks.eraseIdx i else s.tasks.set i { task with noting := gap }
    accounted := max s.accounted task.through }

def noteGap (i g : ℕ) : Shared V := { s with
  inner := { s.inner.withRing (s.inner.feed.ring.noteGap g) with gap := none }
  tasks := s.tasks.eraseIdx i }

def finish (i : ℕ) (task : Task V) (lapsed : Bool) : Shared V :=
  let s := { s with
    tasks := s.tasks.eraseIdx i
    accounted := max s.accounted task.through }
  if s.inner.feed.active lapsed then { s with
    inner := { s.inner.withRing (s.inner.feed.ring.noteGap task.through) with
      log := s.inner.log ++ task.changes } }
  else { s with unrecorded := s.unrecorded ++ task.changes }

end Shared

def taskStep (s : Shared V) : TaskOp V → Option (Shared V)
  | .apply changes through watched =>
    if Ascending changes ∧ ∀ c ∈ changes, s.watermark < c.lsn ∧ c.lsn ≤ through then
      some { s with
        tasks := s.tasks ++ [⟨changes, through, watched, none⟩]
        watermark := max s.watermark through
        committed := s.committed ++ changes }
    else none
  | .publish i =>
    (s.tasks[i]?).bind fun task => if task.watched ∧ task.noting = none
      then some (s.publish i task) else none
  | .noteGap i => (s.tasks[i]?).bind fun task => task.noting.map fun g => s.noteGap i g
  | .finish i lapsed =>
    (s.tasks[i]?).bind fun task => if task.watched then none else some (s.finish i task lapsed)
  | .client op => if op.isClient then (step s.inner op).map fun inner =>
      { s with inner := inner } else none

def Covered (s : Shared V) (floor : ℕ) : Prop := ∀ c ∈ s.unrecorded, c.lsn ≤ floor

instance (s : Shared V) (floor : ℕ) : Decidable (Covered s floor) :=
  inferInstanceAs (Decidable (∀ c ∈ s.unrecorded, _))

/-- The feed is woken with a watermark above what it was not told of. -/
def Wakes (s : Shared V) (applied : ℕ) (lapsed : Bool) : Prop :=
  Covered s s.inner.feed.ring.resumeFloor ∨
    s.inner.feed.quiet lapsed = true ∧ Covered s (max s.inner.feed.ring.resumeFloor applied)

instance (s : Shared V) (applied : ℕ) (lapsed : Bool) : Decidable (Wakes s applied lapsed) :=
  inferInstanceAs (Decidable (_ ∨ _ ∧ _))

/-- What the tasks keep to: the one that applied first publishes first, and ends its publication
before the next one starts. -/
def InOrder (s : Shared V) : TaskOp V → Prop
  | .apply _ _ _ => True
  | .publish i => i = 0 ∧ Covered s s.inner.feed.ring.resumeFloor ∧ ∀ task ∈ s.tasks[i]?,
      GapLast task.changes
  | .noteGap i => i = 0
  | .finish i _ => i = 0 ∧ ∀ task ∈ s.tasks[i]?, ∀ e ∈ s.inner.feed.ring.events,
      e.lsn ≤ task.through
  | .client (.subscribe _ applied lapsed) => Wakes s applied lapsed
  | .client (.pin applied lapsed) => Wakes s applied lapsed
  | .client _ => True

instance [DecidableEq V] (s : Shared V) : ∀ op : TaskOp V, Decidable (InOrder s op)
  | .apply _ _ _ => isTrue trivial
  | .publish _ => inferInstanceAs (Decidable (_ ∧ _ ∧ _))
  | .noteGap i => inferInstanceAs (Decidable (i = 0))
  | .finish _ _ => inferInstanceAs (Decidable (_ ∧ _))
  | .client (.subscribe _ applied lapsed) => inferInstanceAs (Decidable (Wakes s applied lapsed))
  | .client (.pin applied lapsed) => inferInstanceAs (Decidable (Wakes s applied lapsed))
  | .client .unpin => isTrue trivial
  | .client (.read _ _) => isTrue trivial
  | .client (.detach _) => isTrue trivial
  | .client .close => isTrue trivial
  | .client (.publish _ _) => isTrue trivial
  | .client .noteGap => isTrue trivial
  | .client (.skip _ _) => isTrue trivial

def Shared.fresh (bufferEvents maxSubscribers position : ℕ) : Shared V :=
  ⟨State.fresh bufferEvents maxSubscribers position, [], position, position, [], []⟩

structure TasksInv (s : Shared V) : Prop where
  feed : FeedInv s.inner
  ascending : Ascending s.committed
  bounded : ∀ c ∈ s.committed, c.lsn ≤ s.watermark
  told : ∀ c ∈ s.inner.log, c ∈ s.committed
  cover : ∀ c ∈ s.committed, c ∈ s.inner.log ∨ c ∈ s.unrecorded ∨
    ∃ task ∈ s.tasks, task.noting = none ∧ c ∈ task.changes
  accounted_le : s.accounted ≤ s.watermark
  old : ∀ c ∈ s.inner.log ++ s.unrecorded, c.lsn ≤ s.accounted
  through_le : ∀ task ∈ s.tasks, task.through ≤ s.watermark
  batches : ∀ task ∈ s.tasks, Ascending task.changes ∧ ∀ c ∈ task.changes,
    0 < c.lsn ∧ c.lsn ≤ task.through ∧ c ∈ s.committed
  above : ∀ task ∈ s.tasks, task.noting = none → ∀ c ∈ task.changes, s.accounted < c.lsn
  order : s.tasks.Pairwise fun t u => ∀ c ∈ u.changes, t.through < c.lsn
  gap : s.inner.gap = (s.tasks.head?.bind Task.noting)
  rest : ∀ task ∈ s.tasks.tail, task.noting = none
  built : ∀ task ∈ s.tasks, task.watched = false → task.noting = none
  position : s.inner.feed.ring.position ≤ max s.inner.feed.ring.resumeFloor s.accounted
  dormant : s.inner.feed.ring.closed = false → ∀ c ∈ s.unrecorded,
    c.lsn ≤ s.inner.feed.ring.resumeFloor ∨
    (s.inner.feed.subscribers = 0 ∧ s.inner.feed.pins = 0) ∧ s.inner.feed.ring.position < c.lsn
  subs : ∀ sub ∈ s.inner.feed.subs, ∀ c ∈ s.unrecorded, ¬(sub.start < c.lsn ∧ c.lsn ≤ sub.cursor)

section Tasks

variable {s t : Shared V} {task : Task V} {rest : List (Task V)}

theorem TasksInv.follows (h : TasksInv s) (htasks : s.tasks = task :: rest)
    (hnone : task.noting = none) : Follows s.inner task.changes task.through := by
  have hmem : task ∈ s.tasks := htasks ▸ List.mem_cons_self
  obtain ⟨hasc, hbounds⟩ := h.batches task hmem
  refine ⟨?_, ?_, fun c hc => ⟨(hbounds c hc).1, (hbounds c hc).2.1⟩⟩
  · rw [h.gap, htasks]
    exact hnone
  · refine List.pairwise_append.mpr ⟨h.feed.ascending, hasc, fun d hd c hc => ?_⟩
    have hle := h.old d (List.mem_append_left _ hd)
    have hlt := h.above task hmem hnone c hc
    omega

theorem TasksInv.above_rest (h : TasksInv s) (htasks : s.tasks = task :: rest) :
    ∀ u ∈ rest, ∀ c ∈ u.changes, max s.accounted task.through < c.lsn := by
  intro u hu c hc
  have hmem : u ∈ s.tasks := htasks ▸ List.mem_cons_of_mem _ hu
  have horder := h.order
  rw [htasks] at horder
  have hthrough := (List.pairwise_cons.mp horder).1 u hu c hc
  have htail := h.rest
  rw [htasks, List.tail_cons] at htail
  have hlt := h.above u hmem (htail u hu) c hc
  omega

theorem publish_floor (r : Ring V) (n : ℕ) (events : List (ChangeEvent V)) (through : ℕ) :
    r.resumeFloor ≤ (r.publish n events through).resumeFloor ∧
      (r.publish n events through).position ≤ max r.position through := by
  unfold Ring.publish
  split
  · exact ⟨Nat.le_refl _, Nat.le_max_left _ _⟩
  · obtain ⟨hfloor, hpos, -⟩ := pushAll_keeps n r events
    refine ⟨hfloor, ?_⟩
    simp only [hpos]
    exact Nat.le_refl _

theorem noteGap_position {r : Ring V} {accounted : ℕ} (h : r.position ≤ max r.resumeFloor accounted)
    (through : ℕ) :
    (r.noteGap through).position ≤ max (r.noteGap through).resumeFloor accounted := by
  unfold Ring.noteGap
  split
  · exact h
  · simp only
    omega

theorem noteGap_dormant {r : Ring V} {unrecorded : List (PendingChange V)} {P : Prop}
    (h : ∀ c ∈ unrecorded, c.lsn ≤ r.resumeFloor ∨ P ∧ r.position < c.lsn) (through : ℕ) :
    ∀ c ∈ unrecorded, c.lsn ≤ (r.noteGap through).resumeFloor ∨
      P ∧ (r.noteGap through).position < c.lsn := by
  intro c hc
  unfold Ring.noteGap
  split
  · exact h c hc
  · simp only
    rcases h c hc with hle | ⟨hp, hlt⟩
    · exact .inl (by omega)
    · by_cases hle : c.lsn ≤ through
      · exact .inl (by omega)
      · exact .inr ⟨hp, by omega⟩

/-- What is left behind the first task, once its changes are accounted for. -/
theorem TasksInv.retire (h : TasksInv s) (htasks : s.tasks = task :: rest) {t : Shared V}
    (noting : Option ℕ)
    (hfeed : FeedInv t.inner)
    (htaskst : t.tasks = rest ∨ t.tasks = { task with noting := noting } :: rest)
    (hgap : t.inner.gap = t.tasks.head?.bind Task.noting)
    (hbuilt : task.watched = false → t.tasks = rest) (hnoting : t.tasks ≠ rest → noting ≠ none)
    (hcommitted : t.committed = s.committed) (hwatermark : t.watermark = s.watermark)
    (haccounted : t.accounted = max s.accounted task.through)
    (hlog : t.inner.log ++ t.unrecorded = s.inner.log ++ task.changes ++ s.unrecorded ∨
      t.inner.log ++ t.unrecorded = s.inner.log ++ (s.unrecorded ++ task.changes))
    (htold : ∀ c ∈ t.inner.log, c ∈ s.inner.log ∨ c ∈ task.changes)
    (hposition : t.inner.feed.ring.position ≤ max t.inner.feed.ring.resumeFloor t.accounted)
    (hdormant : t.inner.feed.ring.closed = false → ∀ c ∈ t.unrecorded,
      c.lsn ≤ t.inner.feed.ring.resumeFloor ∨
      (t.inner.feed.subscribers = 0 ∧ t.inner.feed.pins = 0) ∧ t.inner.feed.ring.position < c.lsn)
    (hsubs : ∀ sub ∈ t.inner.feed.subs, ∀ c ∈ t.unrecorded,
      ¬(sub.start < c.lsn ∧ c.lsn ≤ sub.cursor)) :
    TasksInv t := by
  have hhead : task ∈ s.tasks := htasks ▸ List.mem_cons_self
  have hrest : ∀ u ∈ rest, u ∈ s.tasks := fun u hu => htasks ▸ List.mem_cons_of_mem _ hu
  have htail := h.rest
  rw [htasks, List.tail_cons] at htail
  have hmem : ∀ u ∈ t.tasks, u ∈ rest ∨ u = { task with noting := noting } ∧ noting ≠ none := by
    intro u hu
    rcases htaskst with heq | heq
    · exact .inl (heq ▸ hu)
    · have hne : t.tasks ≠ rest := by
        rw [heq]
        intro hcons
        exact absurd (congrArg List.length hcons) (by simp)
      rw [heq] at hu
      rcases List.mem_cons.mp hu with rfl | hu
      · exact .inr ⟨rfl, hnoting hne⟩
      · exact .inl hu
  have hall : ∀ c, c ∈ t.inner.log ++ t.unrecorded ↔
    c ∈ s.inner.log ++ s.unrecorded ∨ c ∈ task.changes := by
    intro c
    rcases hlog with heq | heq <;> rw [heq] <;> simp only [List.mem_append] <;> tauto
  have hthrough := (h.batches task hhead).2
  refine ⟨hfeed, hcommitted ▸ h.ascending, by rw [hcommitted, hwatermark]; exact h.bounded,
    fun c hc => ?_,
    fun c hc => ?_, ?_, fun c hc => ?_, fun u hu => ?_, fun u hu => ?_, fun u hu hunoting c hc =>
      ?_, ?_, hgap, ?_,
    fun u hu hwatched => ?_, hposition, hdormant, hsubs⟩
  · rw [hcommitted]
    rcases htold c hc with hc | hc
    · exact h.told c hc
    · exact (hthrough c hc).2.2
  · rw [hcommitted] at hc
    have hold : c ∈ t.inner.log ++ t.unrecorded → c ∈ t.inner.log ∨ c ∈ t.unrecorded ∨
        ∃ u ∈ t.tasks, u.noting = none ∧ c ∈ u.changes := by
      intro hin
      rcases List.mem_append.mp hin with hin | hin
      · exact .inl hin
      · exact .inr (.inl hin)
    rcases h.cover c hc with hc | hc | ⟨u, hu, hunone, hcu⟩
    · exact hold ((hall c).mpr (.inl (List.mem_append_left _ hc)))
    · exact hold ((hall c).mpr (.inl (List.mem_append_right _ hc)))
    · rw [htasks] at hu
      rcases List.mem_cons.mp hu with rfl | hu
      · exact hold ((hall c).mpr (.inr hcu))
      · refine .inr (.inr ⟨u, ?_, hunone, hcu⟩)
        rcases htaskst with heq | heq
        · exact heq ▸ hu
        · exact heq ▸ List.mem_cons_of_mem _ hu
  · rw [haccounted, hwatermark]
    exact Nat.max_le.mpr ⟨h.accounted_le, h.through_le task hhead⟩
  · rw [haccounted]
    rcases (hall c).mp hc with hc | hc
    · have := h.old c hc
      omega
    · have := (hthrough c hc).2.1
      omega
  · rw [hwatermark]
    rcases hmem u hu with hu | ⟨rfl, -⟩
    · exact h.through_le u (hrest u hu)
    · exact h.through_le task hhead
  · rw [hcommitted]
    rcases hmem u hu with hu | ⟨rfl, -⟩
    · exact h.batches u (hrest u hu)
    · exact h.batches task hhead
  · rw [haccounted]
    rcases hmem u hu with hu | ⟨rfl, hne⟩
    · exact h.above_rest htasks u hu c hc
    · exact absurd hunoting hne
  · have horder := h.order
    rw [htasks] at horder
    rcases htaskst with heq | heq
    · rw [heq]
      exact (List.pairwise_cons.mp horder).2
    · rw [heq]
      exact List.pairwise_cons.mpr ⟨(List.pairwise_cons.mp horder).1,
        (List.pairwise_cons.mp horder).2⟩
  · intro u hu
    rcases htaskst with heq | heq
    · rw [heq] at hu
      exact htail u (List.mem_of_mem_tail hu)
    · rw [heq] at hu
      exact htail u hu
  · rcases hmem u hu with hu | ⟨rfl, hne⟩
    · exact h.built u (hrest u hu) hwatched
    · have heq : t.tasks = rest := hbuilt hwatched
      rcases htaskst with hrest' | hcons
      · rw [heq] at hu
        exact htail _ hu
      · rw [heq] at hcons
        exact absurd (congrArg List.length hcons) (by simp)

theorem Covered.dormant {floor floor' position : ℕ} {P : Prop} (h : Covered s floor)
    (hle : floor ≤ floor') : ∀ c ∈ s.unrecorded, c.lsn ≤ floor' ∨ P ∧ position < c.lsn :=
  fun c hc => .inl (Nat.le_trans (h c hc) hle)

theorem TasksInv.publish (h : TasksInv s) (htasks : s.tasks = task :: rest)
    (hwatched : task.watched = true)
    (hnone : task.noting = none) (hcovered : Covered s s.inner.feed.ring.resumeFloor)
    (hlast : GapLast task.changes) : TasksInv (s.publish 0 task) := by
  have hstep : step s.inner (.publish task.changes task.through) = some
    (s.publish 0 task).inner := by
    rw [step, if_pos (h.follows htasks hnone)]
    rfl
  have hop : Orderly s.inner (.publish task.changes task.through) := hlast
  have hfeed := step_inv h.feed hop hstep
  obtain ⟨hfloor, hpos⟩ := publish_floor s.inner.feed.ring s.inner.feed.bufferEvents
    (resolvedEvents task.changes) task.through
  have hposition := h.position
  have htaskst : (s.publish 0 task).tasks = if unresolvedGap task.changes = 0 then rest
      else { task with noting := some (unresolvedGap task.changes) } :: rest := by
    by_cases hzero : unresolvedGap task.changes = 0
    · simp only [Shared.publish, hzero, if_true, htasks, List.eraseIdx_cons_zero]
    · simp only [Shared.publish, hzero, if_false, htasks, reduceCtorEq, List.set_cons_zero]
  have htail := h.rest
  rw [htasks, List.tail_cons] at htail
  refine h.retire htasks (some (unresolvedGap task.changes)) hfeed ?_ ?_ (fun hw => ?_)
    (fun _ => by simp)
    rfl rfl rfl (.inl rfl) (fun c hc => List.mem_append.mp hc) ?_ ?_ h.subs
  · rw [htaskst]
    split
    · exact .inl rfl
    · exact .inr rfl
  · rw [htaskst]
    have hgap : (s.publish 0 task).inner.gap =
      if unresolvedGap task.changes = 0 then none else some (unresolvedGap task.changes) := rfl
    rw [hgap]
    split
    · cases hrest : rest with
      | nil => rfl
      | cons u us => exact (htail u (hrest ▸ List.mem_cons_self)).symm
    · rfl
  · rw [hwatched] at hw
    cases hw
  · have hle : (s.publish 0 task).inner.feed.ring.position ≤
      max s.inner.feed.ring.position task.through := hpos
    have hge : s.inner.feed.ring.resumeFloor ≤ (s.publish 0 task).inner.feed.ring.resumeFloor :=
      hfloor
    have hacc : (s.publish 0 task).accounted = max s.accounted task.through := rfl
    omega
  · exact fun _ => hcovered.dormant hfloor

theorem TasksInv.noteGap (h : TasksInv s) (htasks : s.tasks = task :: rest) {g : ℕ}
    (hg : task.noting = some g) : TasksInv (s.noteGap 0 g) := by
  have hgap : s.inner.gap = some g := by
    rw [h.gap, htasks]
    exact hg
  have hstep : step s.inner .noteGap = some (s.noteGap 0 g).inner := by
    rw [step, hgap]
    rfl
  have hop : Orderly s.inner .noteGap := trivial
  have hfeed := step_inv h.feed hop hstep
  have htaskst : (s.noteGap 0 g).tasks = rest := by
    simp only [Shared.noteGap, htasks, List.eraseIdx_cons_zero]
  have htail := h.rest
  rw [htasks, List.tail_cons] at htail
  have hrest : ∀ u ∈ rest, u ∈ s.tasks := fun u hu => htasks ▸ List.mem_cons_of_mem _ hu
  have horder := h.order
  rw [htasks] at horder
  refine ⟨hfeed, h.ascending, h.bounded, h.told, fun c hc => ?_, h.accounted_le, h.old, ?_, ?_, ?_,
    ?_, ?_, ?_, ?_, ?_, ?_, h.subs⟩
  · rcases h.cover c hc with hc | hc | ⟨u, hu, hunone, hcu⟩
    · exact .inl hc
    · exact .inr (.inl hc)
    · rw [htasks] at hu
      rcases List.mem_cons.mp hu with rfl | hu
      · rw [hg] at hunone
        cases hunone
      · exact .inr (.inr ⟨u, htaskst ▸ hu, hunone, hcu⟩)
  · rw [htaskst]
    exact fun u hu => h.through_le u (hrest u hu)
  · rw [htaskst]
    exact fun u hu => h.batches u (hrest u hu)
  · rw [htaskst]
    exact fun u hu => h.above u (hrest u hu)
  · rw [htaskst]
    exact (List.pairwise_cons.mp horder).2
  · rw [htaskst]
    have hnone : (s.noteGap 0 g).inner.gap = none := rfl
    rw [hnone]
    cases hr : rest with
    | nil => rfl
    | cons u us => exact (htail u (hr ▸ List.mem_cons_self)).symm
  · rw [htaskst]
    exact fun u hu => htail u (List.mem_of_mem_tail hu)
  · rw [htaskst]
    exact fun u hu => h.built u (hrest u hu)
  · exact noteGap_position h.position g
  · exact fun hopen => noteGap_dormant (h.dormant (noteGap_closed _ _ ▸ hopen)) g

theorem not_active {f : Feed V} {lapsed : Bool} (h : f.active lapsed = false) :
    f.subscribers = 0 ∧ f.pins = 0 := by
  simp only [Feed.active, Bool.or_eq_false_iff, decide_eq_false_iff_not] at h
  omega

theorem TasksInv.finish (h : TasksInv s) (htasks : s.tasks = task :: rest)
    (hwatched : task.watched = false)
    (hbuffered : ∀ e ∈ s.inner.feed.ring.events, e.lsn ≤ task.through) (lapsed : Bool) :
    TasksInv (s.finish 0 task lapsed) := by
  have hmem : task ∈ s.tasks := htasks ▸ List.mem_cons_self
  have hnone := h.built task hmem hwatched
  have htail := h.rest
  rw [htasks, List.tail_cons] at htail
  have hgap : s.inner.gap = rest.head?.bind Task.noting := by
    rw [h.gap, htasks]
    refine hnone.trans ?_
    cases hr : rest with
    | nil => rfl
    | cons u us => exact (htail u (hr ▸ List.mem_cons_self)).symm
  have herase : s.tasks.eraseIdx 0 = rest := by rw [htasks, List.eraseIdx_cons_zero]
  unfold Shared.finish
  dsimp only
  rw [herase]
  split
  · have hstep : step s.inner (.skip task.changes task.through) =
        some { s.inner.withRing (s.inner.feed.ring.noteGap task.through) with log :=
          s.inner.log ++ task.changes } := by
      rw [step, if_pos (h.follows htasks hnone)]
    have hop : Orderly s.inner (.skip task.changes task.through) := hbuffered
    have hposition : s.inner.feed.ring.position ≤ max s.inner.feed.ring.resumeFloor
      (max s.accounted task.through) := by
      have := h.position
      omega
    refine h.retire htasks none (step_inv h.feed hop hstep) (.inl rfl) hgap (fun _ => rfl)
      (fun hne => absurd rfl hne) rfl rfl rfl (.inl rfl) (fun c hc => List.mem_append.mp hc)
      (noteGap_position hposition _) (fun hopen => ?_) h.subs
    exact noteGap_dormant (h.dormant (noteGap_closed _ _ ▸ hopen)) _
  · next hactive =>
    have hquiet := not_active (Bool.not_eq_true _ ▸ hactive)
    have habove := h.above task hmem hnone
    refine h.retire htasks none h.feed (.inl rfl) hgap (fun _ => rfl)
      (fun hne => absurd rfl hne) rfl rfl
      rfl (.inr rfl) (fun c hc => .inl hc) ?_ (fun hopen c hc => ?_) fun sub hsub c hc => ?_
    · have := h.position
      simp only
      omega
    · rcases List.mem_append.mp hc with hc | hc
      · exact h.dormant hopen c hc
      · by_cases hle : c.lsn ≤ s.inner.feed.ring.resumeFloor
        · exact .inl hle
        · have hlt := habove c hc
          have hpos := h.position
          exact .inr ⟨hquiet, by simp only; omega⟩
    · rcases List.mem_append.mp hc with hc | hc
      · exact h.subs sub hsub c hc
      · rintro ⟨hlt, hle⟩
        have hnew := habove c hc
        rcases (h.feed.subs sub hsub).at_change with heq | ⟨d, hd, heq⟩
        · omega
        · have := h.old d (List.mem_append_left _ hd)
          omega

theorem TasksInv.apply (h : TasksInv s) {changes : List (PendingChange V)} {through : ℕ}
    (watched : Bool)
    (hasc : Ascending changes) (hle : ∀ c ∈ changes, s.watermark < c.lsn ∧ c.lsn ≤ through) :
    TasksInv { s with
      tasks := s.tasks ++ [⟨changes, through, watched, none⟩]
      watermark := max s.watermark through
      committed := s.committed ++ changes } := by
  refine ⟨h.feed, ?_, fun c hc => ?_, fun c hc => List.mem_append_left _ (h.told c hc),
    fun c hc => ?_,
    Nat.le_trans h.accounted_le (Nat.le_max_left _ _), h.old, fun u hu => ?_, fun u hu => ?_,
    fun u hu hnone c hc => ?_, ?_, ?_, fun u hu => ?_, fun u hu hw => ?_, h.position,
    h.dormant, h.subs⟩
  · refine List.pairwise_append.mpr ⟨h.ascending, hasc, fun d hd c hc => ?_⟩
    exact Nat.lt_of_le_of_lt (h.bounded d hd) (hle c hc).1
  · simp only
    rcases List.mem_append.mp hc with hc | hc
    · have := h.bounded c hc
      omega
    · have := (hle c hc).2
      omega
  · rcases List.mem_append.mp hc with hc | hc
    · rcases h.cover c hc with hc | hc | ⟨u, hu, hnone, hcu⟩
      · exact .inl hc
      · exact .inr (.inl hc)
      · exact .inr (.inr ⟨u, List.mem_append_left _ hu, hnone, hcu⟩)
    · exact .inr (.inr ⟨_, List.mem_append_right _ (List.mem_singleton_self _), rfl, hc⟩)
  · simp only
    rcases List.mem_append.mp hu with hu | hu
    · have := h.through_le u hu
      omega
    · rw [List.mem_singleton.mp hu]
      exact Nat.le_max_right _ _
  · rcases List.mem_append.mp hu with hu | hu
    · obtain ⟨huasc, hbounds⟩ := h.batches u hu
      exact ⟨huasc, fun c hc => ⟨(hbounds c hc).1, (hbounds c hc).2.1,
        List.mem_append_left _ (hbounds c hc).2.2⟩⟩
    · rw [List.mem_singleton.mp hu]
      refine ⟨hasc, fun c hc => ⟨?_, (hle c hc).2, List.mem_append_right _ hc⟩⟩
      exact Nat.lt_of_le_of_lt (Nat.zero_le _) (hle c hc).1
  · rcases List.mem_append.mp hu with hu | hu
    · exact h.above u hu hnone c hc
    · rw [List.mem_singleton.mp hu] at hc
      exact Nat.lt_of_le_of_lt h.accounted_le (hle c hc).1
  · refine List.pairwise_append.mpr ⟨h.order, List.pairwise_singleton _ _, fun u hu v hv c hc => ?_⟩
    rw [List.mem_singleton.mp hv] at hc
    exact Nat.lt_of_le_of_lt (h.through_le u hu) (hle c hc).1
  · rw [h.gap]
    cases s.tasks <;> rfl
  · cases htasks : s.tasks with
    | nil =>
      simp [htasks] at hu
    | cons v vs =>
      simp only [htasks, List.cons_append, List.tail_cons] at hu
      rcases List.mem_append.mp hu with hu | hu
      · exact h.rest u (by rw [htasks]; exact hu)
      · rw [List.mem_singleton.mp hu]
  · rcases List.mem_append.mp hu with hu | hu
    · exact h.built u hu hw
    · rw [List.mem_singleton.mp hu]

end Tasks

end DewDB.Changefeed
