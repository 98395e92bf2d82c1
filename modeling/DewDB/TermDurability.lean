import DewDB.ElectionSafety

/-!
# Durability of an acknowledged term

`replicate_handler` raises its term in memory, tries to save it and answers whatever the save
returned. The answer is backed by the disk exactly as far as `replication.meta` held the term
already or the save went through, and what is on disk bounds every answer after a restart.
-/
namespace DewDB.TermDurability

open ReplicationMeta Vote Election ElectionSafety TransitionSystem

variable {ι : Type} {g : NodeGroup ι} {granted : List (Grant ι)} {i : ι} {n : Node} {o : Outcome}

/-- `replication.meta` itself, not only its staging file, holds a record of term `t` or later. -/
def FileHolds (d : Disk) (t : ℕ) : Prop :=
  ∃ m, d.file = some (.whole m) ∧ t ≤ m.term

instance (d : Disk) (t : ℕ) : Decidable (FileHolds d t) :=
  match h : d.file with
  | some (.whole m) => decidable_of_iff (t ≤ m.term) (by simp [FileHolds, h])
  | some .torn => isFalse (by simp [FileHolds, h])
  | none => isFalse (by simp [FileHolds, h])

/-- What can be read is in `replication.meta` itself: no failed save left the only record staged. -/
def Settled (d : Disk) : Prop :=
  d = ⟨none, none⟩ ∨ FileHolds d 0

instance (d : Disk) : Decidable (Settled d) := inferInstanceAs (Decidable (_ ∨ _))

/-- A task keeps to terms that are durable: a request at or below the memory's term finds its term
in `replication.meta`, and the adoption save of a higher one is not lost. -/
def TaskDurable (d : Disk) (term : ℕ) (fault : Option Fault) : Task → Prop
  | .checked t => term < t ∨ FileHolds d t
  | .persist r true => FileHolds d r.term ∨ (fault = none ∧ Settled d)
  | _ => True

instance (d : Disk) (term : ℕ) (fault : Option Fault) : ∀ t, Decidable (TaskDurable d term fault t)
  | .checked _ => inferInstanceAs (Decidable (_ ∨ _))
  | .persist _ true => inferInstanceAs (Decidable (_ ∨ _))
  | .persist _ false => isTrue trivial
  | .append _ => isTrue trivial
  | .recordStepDown => isTrue trivial

def AdoptionDurable (w : World ι) (label : ι × Action ι) : Prop :=
  match label.2, (w.nodes label.1).mem with
  | .task k fault, some m =>
    ∀ t ∈ m.tasks[k]?, TaskDurable (w.nodes label.1).disk m.term fault t
  | _, _ => True

instance (w : World ι) (label : ι × Action ι) : Decidable (AdoptionDurable w label) := by
  unfold AdoptionDurable
  split <;> infer_instance

theorem FileHolds.load {d : Disk} {t : ℕ} (h : FileHolds d t) :
    ∃ m, load d = .ok (some m) ∧ t ≤ m.term := by
  obtain ⟨m, hfile, ht⟩ := h
  exact ⟨m, by simp [ReplicationMeta.load, hfile], ht⟩

theorem FileHolds.save {d : Disk} {t : ℕ} (h : FileHolds d t) (r : Meta) (fault : Option Fault) :
    FileHolds (save r fault d).1 t := by
  obtain ⟨m, hfile, ht⟩ := h
  have hload : ReplicationMeta.load d = .ok (some m) := by simp [ReplicationMeta.load, hfile]
  rcases save_cases r fault d with ⟨e, -, -, hs⟩ | hs | ⟨hprev, hs⟩
  · rw [hs]
    exact ⟨m, hfile, ht⟩
  · rw [hs]
    exact ⟨m, hfile, ht⟩
  · have hle : m.term ≤ r.term := by
      rcases hprev with hnone | ⟨e, he, hle⟩
      · simp [hload] at hnone
      · obtain rfl : m = e := by simpa [hload] using he
        exact hle.term_le
    rw [hs]
    cases fault with
    | none => exact ⟨r, rfl, ht.trans hle⟩
    | some f => cases f <;> exact ⟨m, hfile, ht⟩

/-- The adoption save of the condition leaves the term in `replication.meta`. -/
theorem fileHolds_adoption {d : Disk} {r : Meta} {fault : Option Fault}
    (h : FileHolds d r.term ∨ (fault = none ∧ Settled d)) :
    FileHolds (save r fault d).1 r.term := by
  rcases h with h | ⟨rfl, rfl | ⟨m, hfile, -⟩⟩
  · exact h.save r fault
  · exact ⟨r, by simp [save, ReplicationMeta.load, writeAtomic], le_rfl⟩
  · have hload : ReplicationMeta.load d = .ok (some m) := by simp [ReplicationMeta.load, hfile]
    by_cases hle : r.term ≤ m.term
    · exact FileHolds.save ⟨m, hfile, hle⟩ r none
    · refine ⟨r, ?_, le_rfl⟩
      have hlt : ¬ r.term < m.term := by omega
      have hne : ¬ r.term = m.term := by omega
      simp [save, hload, hlt, hne, writeAtomic]

inductive NewTask (n : Node) (m : Memory) (a : Action ι) (o : Outcome) : Task → Prop where
  | checked {t : ℕ} : m.term ≤ t → NewTask n m a o (.checked t)
  | adopting {k : ℕ} {fault : Option Fault} {t : ℕ} : a = .task k fault →
      m.tasks[k]? = some (.checked t) → NewTask n m a o (.persist ⟨t, false, none⟩ true)
  | current {k : ℕ} {fault : Option Fault} {t : ℕ} : a = .task k fault →
      m.tasks[k]? = some (.checked t) → ¬ m.term < t → o.node.disk = n.disk →
      NewTask n m a o (.append t)
  | adopted {k : ℕ} {fault : Option Fault} {r : Meta} : a = .task k fault →
      m.tasks[k]? = some (.persist r true) → o.node.disk = (save r fault n.disk).1 →
      NewTask n m a o (.append r.term)
  | record {r : Meta} : NewTask n m a o (.persist r false)
  | stepDown : NewTask n m a o .recordStepDown

def TasksFrom (n : Node) (a : Action ι) (o : Outcome) : Prop :=
  ∀ m', o.node.mem = some m' → m'.tasks = [] ∨
    ∃ m, n.mem = some m ∧ ∀ task ∈ m'.tasks, task ∈ m.tasks ∨ NewTask n m a o task

theorem tasksFrom_kept {disk disk' : Disk} {m m' : Memory} {a : Action ι}
    {grant : Option (NodeId × ℕ)} {won applied : Option ℕ} (h : m'.tasks = m.tasks) :
    TasksFrom ⟨disk, some m⟩ a ⟨⟨disk', some m'⟩, grant, won, applied⟩ := by
  rintro _ ⟨⟩
  exact .inr ⟨m, rfl, fun task ht => .inl (h ▸ ht)⟩

theorem tasksFrom_added {disk disk' : Disk} {m m' : Memory} {a : Action ι}
    {grant : Option (NodeId × ℕ)} {won applied : Option ℕ} {tasks : List Task} {task : Task}
    (h : m'.tasks = tasks ++ [task]) (hsub : ∀ t ∈ tasks, t ∈ m.tasks)
    (hnew : NewTask ⟨disk, some m⟩ m a ⟨⟨disk', some m'⟩, grant, won, applied⟩ task) :
    TasksFrom ⟨disk, some m⟩ a ⟨⟨disk', some m'⟩, grant, won, applied⟩ := by
  rintro _ ⟨⟩
  refine .inr ⟨m, rfl, fun t ht => ?_⟩
  rw [h] at ht
  rcases List.mem_append.mp ht with ht | ht
  · exact .inl (hsub t ht)
  · obtain rfl := List.mem_singleton.mp ht
    exact .inr hnew

theorem tasksFrom_runTask {disk : Disk} {m : Memory} {k : ℕ} {fault : Option Fault} {t : Task}
    (ht : m.tasks[k]? = some t) :
    TasksFrom ⟨disk, some m⟩ (.task k fault : Action ι)
      (runTask disk m t (m.tasks.eraseIdx k) fault) := by
  have hsub : ∀ t ∈ m.tasks.eraseIdx k, t ∈ m.tasks := fun _ h => List.mem_of_mem_eraseIdx h
  cases t with
  | checked term =>
    unfold runTask
    dsimp only
    split_ifs with hlt
    · exact tasksFrom_added rfl hsub (.adopting rfl ht)
    · exact tasksFrom_added rfl hsub (.current rfl ht hlt rfl)
  | persist r answering =>
    cases answering with
    | true => exact tasksFrom_added rfl hsub (.adopted rfl ht rfl)
    | false =>
      rintro _ ⟨⟩
      exact .inr ⟨m, rfl, fun t ht => .inl (hsub t ht)⟩
  | append term =>
    rintro _ ⟨⟩
    exact .inr ⟨m, rfl, fun t ht => .inl (hsub t ht)⟩
  | recordStepDown => exact tasksFrom_added rfl hsub .record

theorem tasksFrom_act [DecidableEq ι] {a : Action ι} (h : act g granted i n a = some o) :
    TasksFrom n a o := by
  obtain ⟨disk, mem⟩ := n
  cases mem with
  | none =>
    cases a with
    | boot fault =>
      simp only [act, boot] at h
      split at h
      · obtain rfl := Option.some.inj h
        rintro _ ⟨⟩
        exact .inl rfl
      · simp at h
    | _ => simp [act] at h
  | some m =>
    cases a with
    | boot fault => simp [act, boot] at h
    | crash =>
      obtain rfl := Option.some.inj h
      intro m' hm'
      simp [Outcome.quiet] at hm'
    | beginCampaign =>
      simp only [act, Option.bind_some, beginCampaign] at h
      split_ifs at h
      obtain rfl := Option.some.inj h
      exact tasksFrom_kept rfl
    | stand fault =>
      simp only [act, Option.bind_some, stand] at h
      split_ifs at h
      all_goals
        obtain rfl := Option.some.inj h
        exact tasksFrom_kept rfl
    | voteRequest req myLogs mySummary mustWithhold fault =>
      simp only [act, Option.bind_some, voteHandler] at h
      split_ifs at h
      all_goals
        obtain rfl := Option.some.inj h
        exact tasksFrom_kept rfl
    | voteReply voter peer =>
      simp only [act, Option.bind_some, voteReply] at h
      split at h
      · split_ifs at h
        obtain rfl := Option.some.inj h
        exact tasksFrom_kept rfl
      · simp at h
    | becomeLeader =>
      simp only [act, Option.bind_some, becomeLeader] at h
      split at h
      · split_ifs at h
        · obtain rfl := Option.some.inj h
          exact tasksFrom_added rfl (fun _ h => h) .record
        · obtain rfl := Option.some.inj h
          exact tasksFrom_kept rfl
      · simp at h
    | giveUp =>
      simp only [act, Option.bind_some, giveUp] at h
      split_ifs at h
      obtain rfl := Option.some.inj h
      exact tasksFrom_kept rfl
    | demote newTerm =>
      simp only [act, Option.bind_some, demote] at h
      split_ifs at h
      obtain rfl := Option.some.inj h
      exact tasksFrom_added rfl (fun _ h => h) .record
    | heartbeat theirTerm =>
      simp only [act, Option.bind_some, heartbeat] at h
      split_ifs at h
      obtain rfl := Option.some.inj h
      exact tasksFrom_added rfl (fun _ h => h) .record
    | stepDown =>
      simp only [act, Option.bind_some, Election.stepDown] at h
      split_ifs at h
      obtain rfl := Option.some.inj h
      exact tasksFrom_added rfl (fun _ h => h) .stepDown
    | replicate term =>
      simp only [act, Option.bind_some, replicate] at h
      split_ifs at h with hterm
      obtain rfl := Option.some.inj h
      exact tasksFrom_added rfl (fun _ h => h) (.checked hterm.2)
    | task k fault =>
      obtain ⟨t, ht, rfl⟩ : ∃ t, m.tasks[k]? = some t ∧
          runTask disk m t (m.tasks.eraseIdx k) fault = o := by
        simpa [act, Option.map_eq_some_iff] using h
      exact tasksFrom_runTask ht

theorem FileHolds.saved {d d' : Disk} {t : ℕ} (h : FileHolds d t) (hs : Saved d d') :
    FileHolds d' t := by
  rcases hs with rfl | ⟨r, fault, rfl⟩
  · exact h
  · exact h.save r fault

/-- Every `applied` answer, given or about to be given, is for a term in `replication.meta`. -/
structure AnswersDurable (w : World ι) : Prop where
  applied : ∀ i t, (i, t) ∈ w.applied → FileHolds (w.nodes i).disk t
  pending : ∀ i m t, (w.nodes i).mem = some m → Task.append t ∈ m.tasks →
    FileHolds (w.nodes i).disk t

theorem answersDurable_initial {w : World ι} (h : Initial w) : AnswersDurable w := by
  obtain ⟨hdown, -, -, happlied⟩ := h
  refine ⟨by simp [happlied], fun i m t hm => ?_⟩
  simp [hdown i] at hm

theorem adoptionDurable_task {w : World ι} {a : Action ι} {k : ℕ}
    {fault : Option Fault} {m : Memory}
    {t : Task} (hok : AdoptionDurable w (i, a)) (ha : a = .task k fault)
    (hm : (w.nodes i).mem = some m) (ht : m.tasks[k]? = some t) :
    TaskDurable (w.nodes i).disk m.term fault t := by
  subst ha
  simp only [AdoptionDurable, hm] at hok
  exact hok t ht

theorem answersDurable_step [DecidableEq ι] {w w' : World ι} {label : ι × Action ι}
    (hw : AnswersDurable w) (hok : AdoptionDurable w label) (h : step g w label = some w') :
    AnswersDurable w' := by
  obtain ⟨j, a⟩ := label
  obtain ⟨o, ho, rfl⟩ := step_eq_some.mp h
  have hspec := act_spec ho
  have hfile : ∀ k t, FileHolds (w.nodes k).disk t → FileHolds ((w.record j o).nodes k).disk t := by
    intro k t hk
    by_cases hkj : k = j
    · subst hkj
      simpa [World.record] using hk.saved hspec.saved
    · simpa [World.record, hkj] using hk
  refine ⟨fun k t hk => ?_, fun k m' t hm' ht => ?_⟩
  · rcases List.mem_append.mp hk with hnew | hold
    · obtain ⟨happ, rfl⟩ : o.applied = some t ∧ j = k := by simpa using hnew
      obtain ⟨m, hm, hmem⟩ := hspec.applied t happ
      exact hfile j t (hw.pending j m t hm hmem)
    · exact hfile k t (hw.applied k t hold)
  · by_cases hkj : k = j
    · subst hkj
      have hm'' : o.node.mem = some m' := by simpa [World.record] using hm'
      rcases tasksFrom_act ho m' hm'' with hnil | ⟨m, hm, hfrom⟩
      · simp [hnil] at ht
      · rcases hfrom _ ht with hold | hnew
        · exact hfile k t (hw.pending k m t hm hold)
        · cases hnew with
          | current ha htask hlt _ =>
            have hdur := adoptionDurable_task hok ha hm htask
            exact hfile k t (hdur.resolve_left hlt)
          | adopted ha htask hdisk =>
            have hadopt := fileHolds_adoption (adoptionDurable_task hok ha hm htask)
            simpa [World.record, hdisk] using hadopt
    · have hm'' : (w.nodes k).mem = some m' := by simpa [World.record, hkj] using hm'
      exact hfile k t (hw.pending k m' t hm'' ht)

/-- The term a task works for, if it is part of `replicate_handler`. -/
def Task.forTerm : Task → Option ℕ
  | .checked t => some t
  | .persist r true => some r.term
  | .append t => some t
  | _ => none

/-- Node `i` forgets nothing below term `t`: not on disk, not in memory, not in a handler. -/
structure AtLeast (w : World ι) (i : ι) (t : ℕ) : Prop where
  disk : Remembers (w.nodes i).disk t none
  term : ∀ m, (w.nodes i).mem = some m → t ≤ m.term
  tasks : ∀ m, (w.nodes i).mem = some m → ∀ task ∈ m.tasks, ∀ u, Task.forTerm task = some u → t ≤ u

/-- What a node at least at term `t` answers from then on. -/
structure AnswersAtLeast (w w' : World ι) (i : ι) (t : ℕ) : Prop where
  atLeast : AtLeast w' i t
  applied : ∃ new, w'.applied = new ++ w.applied ∧ ∀ u, (i, u) ∈ new → t ≤ u
  granted : ∃ new, w'.granted = new ++ w.granted ∧ ∀ gr ∈ new, gr.voter = i → t ≤ gr.term

theorem holds_atLeast {w : World ι} {t : ℕ} (h : AtLeast w i t) : Holds (w.nodes i) t none := by
  refine ⟨h.disk, fun m hm => ?_⟩
  rcases Nat.lt_or_eq_of_le (h.term m hm) with hlt | heq
  · exact .inl hlt
  · exact .inr ⟨heq, .inl rfl⟩

theorem atLeast_step [DecidableEq ι] {w w' : World ι} {label : ι × Action ι} {t : ℕ}
    (hw : AtLeast w i t) (h : step g w label = some w') : AtLeast w' i t := by
  obtain ⟨j, a⟩ := label
  obtain ⟨o, ho, rfl⟩ := step_eq_some.mp h
  by_cases hij : i = j
  · subst hij
    have hself : (w.record i o).nodes i = o.node := by simp [World.record]
    have hholds := (act_spec ho).holds (holds_atLeast hw)
    refine ⟨by rw [hself]; exact hholds.1, fun m hm => ?_, fun m' hm' task htask u hu => ?_⟩
    · rw [hself] at hm
      exact (hholds.2 m hm).term_le
    · rw [hself] at hm'
      rcases tasksFrom_act ho m' hm' with hnil | ⟨m, hm, hfrom⟩
      · simp [hnil] at htask
      · have hold := hw.tasks m hm
        rcases hfrom task htask with hin | hnew
        · exact hold task hin u hu
        · cases hnew with
          | checked hle =>
            obtain rfl := Option.some.inj hu
            exact (hw.term m hm).trans hle
          | adopting _ hk =>
            obtain rfl := Option.some.inj hu
            exact hold _ (List.mem_of_getElem? hk) _ rfl
          | current _ hk _ _ =>
            obtain rfl := Option.some.inj hu
            exact hold _ (List.mem_of_getElem? hk) _ rfl
          | adopted _ hk _ =>
            obtain rfl := Option.some.inj hu
            exact hold _ (List.mem_of_getElem? hk) _ rfl
          | record => simp [Task.forTerm] at hu
          | stepDown => simp [Task.forTerm] at hu
  · have hother : (w.record j o).nodes i = w.nodes i := by simp [World.record, hij]
    exact ⟨by rw [hother]; exact hw.disk, by rw [hother]; exact hw.term,
      by rw [hother]; exact hw.tasks⟩

theorem answersAtLeast_step [DecidableEq ι] {w₀ w w' : World ι} {label : ι × Action ι} {t : ℕ}
    (hinv : Inv g w) (hw : AnswersAtLeast w₀ w i t) (h : step g w label = some w') :
    AnswersAtLeast w₀ w' i t := by
  have hat' := atLeast_step hw.atLeast h
  obtain ⟨j, a⟩ := label
  obtain ⟨o, ho, rfl⟩ := step_eq_some.mp h
  have hspec := act_spec ho
  obtain ⟨apps, happs, hle⟩ := hw.applied
  obtain ⟨grs, hgrs, hgle⟩ := hw.granted
  refine ⟨hat', ⟨(o.applied.map fun t => (j, t)).toList ++ apps, ?_, fun u hu => ?_⟩,
    ⟨(o.granted.map fun p => ⟨j, p.1, p.2⟩).toList ++ grs, ?_, fun gr hgr hv => ?_⟩⟩
  · simp [World.record, happs]
  · rcases List.mem_append.mp hu with hnew | hold
    · obtain ⟨happ, rfl⟩ : o.applied = some u ∧ j = i := by simpa using hnew
      obtain ⟨m, hm, hmem⟩ := hspec.applied u happ
      exact hw.atLeast.tasks m hm _ hmem u rfl
    · exact hle u hold
  · simp [World.record, hgrs]
  · rcases List.mem_append.mp hgr with hnew | hold
    · obtain ⟨⟨c, u⟩, hct, rfl⟩ : ∃ p, o.granted = some p ∧ (⟨j, p.1, p.2⟩ : Grant ι) = gr := by
        simpa using hnew
      obtain ⟨-, m, hm, rfl, -⟩ := hspec.grant (hinv.voteDurable j) c u hct
      have hj : j = i := hv
      subst hj
      exact hat'.term m (by simpa [World.record] using hm)
    · exact hgle gr hold hv

theorem answersAtLeast_run [DecidableEq ι] {w w' : World ι} {labels : List (ι × Action ι)} {t : ℕ}
    (hinv : Inv g w) (hw : AtLeast w i t) (h : run (step g) w labels = some w') :
    AnswersAtLeast w w' i t := by
  have hrefl : AnswersAtLeast w w i t :=
    ⟨hw, ⟨[], by simp, by simp⟩, ⟨[], by simp, by simp⟩⟩
  exact (run_invariant (I := fun v => Inv g v ∧ AnswersAtLeast w v i t)
    (fun _ _ _ hI hstep => ⟨inv_step hI.1 hstep, answersAtLeast_step hI.1 hI.2 hstep⟩) h
    ⟨hinv, hrefl⟩).2

/-- Where each step keeps to durable terms, an `applied` answer is for a durable term, and after a
crash the node answers no frame and grants no vote of a lower one. -/
theorem applied_term_durable [DecidableEq ι] (g : NodeGroup ι) {w₀ w : World ι}
    {labels : List (ι × Action ι)} (hinit : Initial w₀) (hrun : run (step g) w₀ labels = some w)
    (hok : Meets (step g) AdoptionDurable w₀ labels) {i : ι} {t : ℕ} (ht : (i, t) ∈ w.applied) :
    (∃ m, load (w.nodes i).disk = .ok (some m) ∧ t ≤ m.term) ∧
    ∀ w₁ w₂ labels', step g w (i, .crash) = some w₁ → run (step g) w₁ labels' = some w₂ →
      (∃ new, w₂.applied = new ++ w₁.applied ∧ ∀ u, (i, u) ∈ new → t ≤ u) ∧
      ∃ new, w₂.granted = new ++ w₁.granted ∧ ∀ gr ∈ new, gr.voter = i → t ≤ gr.term := by
  have hdur : AnswersDurable w := run_invariant_of_meets
    (fun _ _ _ hw hok hstep => answersDurable_step hw hok hstep) hrun hok
    (answersDurable_initial hinit)
  obtain ⟨m, hload, hle⟩ := (hdur.applied i t ht).load
  refine ⟨⟨m, hload, hle⟩, fun w₁ w₂ labels' hcrash hrest => ?_⟩
  have hinv : Inv g w := run_invariant (fun _ _ _ => inv_step) hrun (inv_initial hinit)
  have hat : AtLeast w₁ i t := by
    obtain ⟨o, ho, rfl⟩ := step_eq_some.mp hcrash
    obtain ⟨m', hm', rfl⟩ : ∃ m', (w.nodes i).mem = some m' ∧
        Outcome.quiet ⟨(w.nodes i).disk, none⟩ = o := by
      simpa [act, Option.map_eq_some_iff] using ho
    have hr : Remembers (w.nodes i).disk t none := by
      refine (remembers_of_load hload).of_pairLe ?_
      rcases Nat.lt_or_eq_of_le hle with hlt | heq
      · exact .inl hlt
      · exact .inr ⟨heq, .inl rfl⟩
    constructor <;> simp [World.record, Outcome.quiet, hr]
  have hans := answersAtLeast_run (inv_step hinv hcrash) hat hrest
  exact ⟨hans.applied, hans.granted⟩

section Saved

def Action.fault : Action ι → Option Fault
  | .boot fault => fault
  | .stand fault => fault
  | .voteRequest _ _ _ _ fault => fault
  | .task _ fault => fault
  | _ => none

def Task.record : Task → Option Meta
  | .persist r _ => some r
  | _ => none

def NoneOutstanding (w : World ι) (label : ι × Action ι) : Prop :=
  ∀ k fault t m, label.2 = .task k fault → (w.nodes label.1).mem = some m →
    m.tasks[k]? = some (.checked t) → ∀ task ∈ m.tasks, Task.record task = none

/-- The term in memory is in `replication.meta`, or a save that has it is outstanding. -/
structure Kept (n : Node) : Prop where
  settled : Settled n.disk
  term : ∀ m, n.mem = some m →
    FileHolds n.disk m.term ∨ ∃ task ∈ m.tasks, ∃ r ∈ Task.record task, m.term ≤ r.term

theorem FileHolds.mono {d : Disk} {t u : ℕ} (h : FileHolds d t) (hle : u ≤ t) : FileHolds d u := by
  obtain ⟨m, hfile, ht⟩ := h
  exact ⟨m, hfile, hle.trans ht⟩

theorem FileHolds.settled {d : Disk} {t : ℕ} (h : FileHolds d t) : Settled d :=
  .inr (h.mono (Nat.zero_le t))

theorem Settled.save {d : Disk} (h : Settled d) (r : Meta) : FileHolds (save r none d).1 r.term :=
  fileHolds_adoption (.inr ⟨rfl, h⟩)

theorem Kept.same {disk : Disk} {m m' : Memory} (h : Kept ⟨disk, some m⟩) (hterm : m'.term = m.term)
    (htasks : ∀ task ∈ m.tasks, (Task.record task).isSome = true → task ∈ m'.tasks) :
    Kept ⟨disk, some m'⟩ := by
  refine ⟨h.settled, fun _ hm => ?_⟩
  obtain rfl := Option.some.inj hm
  rw [hterm]
  refine (h.term m rfl).imp_right fun hsave => ?_
  obtain ⟨task, htask, r, hr, hle⟩ := hsave
  exact ⟨task, htasks task htask (Option.isSome_of_mem hr), r, hr, hle⟩

theorem Kept.append {disk : Disk} {m m' : Memory} {tasks : List Task} (h : Kept ⟨disk, some m⟩)
    (hterm : m'.term = m.term) (htasks : m'.tasks = m.tasks ++ tasks) : Kept ⟨disk, some m'⟩ :=
  h.same hterm fun _ htask _ => htasks ▸ List.mem_append_left _ htask

theorem Kept.raise {disk : Disk} {m' : Memory} {tasks : List Task} {r : Meta} {answering : Bool}
    (h : Settled disk) (hterm : m'.term = r.term)
    (htasks : m'.tasks = tasks ++ [.persist r answering]) : Kept ⟨disk, some m'⟩ := by
  refine ⟨h, fun _ hm => .inr ⟨.persist r answering, ?_, r, rfl, ?_⟩⟩
  · rw [← Option.some.inj hm, htasks]
    exact List.mem_append_right _ (List.mem_singleton_self _)
  · exact (Option.some.inj hm ▸ hterm).le

theorem Kept.save {disk : Disk} {m m' : Memory} (h : Kept ⟨disk, some m⟩) (r : Meta)
    (hterm : m'.term = r.term ∨ m'.term = m.term) (htasks : m'.tasks = m.tasks) :
    Kept ⟨(save r none disk).1, some m'⟩ := by
  refine ⟨(h.settled.save r).settled, fun _ hm => ?_⟩
  obtain rfl := Option.some.inj hm
  rcases hterm with hterm | hterm
  · exact .inl (hterm ▸ h.settled.save r)
  · rw [hterm, htasks]
    exact (h.term m rfl).imp_left fun hfile => hfile.save r none

theorem mem_eraseIdx_or {tasks : List Task} {k : ℕ} {t task : Task} (ht : tasks[k]? = some t)
    (h : task ∈ tasks) : task = t ∨ task ∈ tasks.eraseIdx k := by
  obtain ⟨j, hj⟩ := List.mem_iff_getElem?.mp h
  by_cases hjk : j = k
  · subst hjk
    exact .inl (Option.some.inj (hj.symm.trans ht))
  · exact .inr (List.mem_eraseIdx_iff_getElem?.mpr ⟨j, hjk, hj⟩)

theorem Kept.runTask {disk : Disk} {m : Memory} {k : ℕ} {t : Task} (h : Kept ⟨disk, some m⟩)
    (ht : m.tasks[k]? = some t) :
    Kept (Election.runTask disk m t (m.tasks.eraseIdx k) none).node := by
  have hrest : Task.record t = none → ∀ task ∈ m.tasks, (Task.record task).isSome →
    task ∈ m.tasks.eraseIdx k := by
    intro hnone task htask hsome
    rcases mem_eraseIdx_or ht htask with rfl | hin
    · simp [hnone] at hsome
    · exact hin
  cases t with
  | checked term =>
    unfold Election.runTask
    dsimp only
    split_ifs
    · exact Kept.raise h.settled rfl rfl
    · exact h.same rfl fun task htask hsome => List.mem_append_left _ (hrest rfl task htask hsome)
  | persist r answering =>
    refine ⟨(h.settled.save r).settled, fun m' hm => ?_⟩
    obtain rfl := Option.some.inj hm
    rcases h.term m rfl with hfile | ⟨task, htask, r', hr', hle⟩
    · exact .inl (hfile.save r none)
    · rcases mem_eraseIdx_or ht htask with rfl | hin
      · obtain rfl := Option.some.inj hr'
        exact .inl ((h.settled.save r).mono hle)
      · refine .inr ⟨task, ?_, r', hr', hle⟩
        cases answering with
        | true => exact List.mem_append_left _ hin
        | false => exact hin
  | append term => exact h.same rfl (hrest rfl)
  | recordStepDown =>
    exact h.same rfl fun task htask hsome => List.mem_append_left _ (hrest rfl task htask hsome)

theorem Kept.act [DecidableEq ι] {a : Action ι} (h : Kept n) (hfault : Action.fault a = none)
    (hact : act g granted i n a = some o) : Kept o.node := by
  obtain ⟨disk, mem⟩ := n
  cases mem with
  | none =>
    cases a with
    | boot fault =>
      obtain rfl : fault = none := hfault
      simp only [Election.act, boot] at hact
      split at hact
      · obtain rfl := Option.some.inj hact
        refine ⟨(h.settled.save _).settled, fun m hm => .inl ?_⟩
        obtain rfl := Option.some.inj hm
        exact h.settled.save _
      · simp at hact
    | _ => simp [Election.act] at hact
  | some m =>
    cases a with
    | boot fault => simp [Election.act, boot] at hact
    | crash =>
      obtain rfl := Option.some.inj hact
      exact ⟨h.settled, fun m' hm' => by simp [Outcome.quiet] at hm'⟩
    | beginCampaign =>
      simp only [Election.act, Option.bind_some, beginCampaign] at hact
      split_ifs at hact
      obtain rfl := Option.some.inj hact
      exact h.same rfl fun _ htask _ => htask
    | stand fault =>
      obtain rfl : fault = none := hfault
      simp only [Election.act, Option.bind_some, stand] at hact
      split_ifs at hact
      · obtain rfl := Option.some.inj hact
        exact h.save _ (.inl rfl) rfl
      · obtain rfl := Option.some.inj hact
        exact h.save _ (.inr rfl) rfl
    | voteRequest req myLogs mySummary mustWithhold fault =>
      obtain rfl : fault = none := hfault
      simp only [Election.act, Option.bind_some, voteHandler] at hact
      split_ifs at hact with hmember hchanged hsaved hgranted hsaved hgranted
      · obtain rfl := Option.some.inj hact
        exact h.save _ (.inl rfl) rfl
      · obtain rfl := Option.some.inj hact
        exact h.save _ (.inl rfl) rfl
      · obtain rfl := Option.some.inj hact
        exact h.save _ (.inr rfl) rfl
      · obtain rfl := Option.some.inj hact
        exact h.same (not_not.mp (not_or.mp hchanged).1) fun _ htask _ => htask
      · obtain rfl := Option.some.inj hact
        exact h.same (not_not.mp (not_or.mp hchanged).1) fun _ htask _ => htask
      · exact absurd rfl hsaved
    | voteReply voter peer =>
      simp only [Election.act, Option.bind_some, voteReply] at hact
      split at hact
      · split_ifs at hact
        obtain rfl := Option.some.inj hact
        exact h.same rfl fun _ htask _ => htask
      · simp at hact
    | becomeLeader =>
      simp only [Election.act, Option.bind_some, becomeLeader] at hact
      split at hact
      · split_ifs at hact
        · obtain rfl := Option.some.inj hact
          exact h.append rfl rfl
        · obtain rfl := Option.some.inj hact
          exact h.same rfl fun _ htask _ => htask
      · simp at hact
    | giveUp =>
      simp only [Election.act, Option.bind_some, giveUp] at hact
      split_ifs at hact
      obtain rfl := Option.some.inj hact
      exact h.same rfl fun _ htask _ => htask
    | demote newTerm =>
      simp only [Election.act, Option.bind_some, demote] at hact
      split_ifs at hact
      obtain rfl := Option.some.inj hact
      exact Kept.raise h.settled rfl rfl
    | heartbeat theirTerm =>
      simp only [Election.act, Option.bind_some, heartbeat] at hact
      split_ifs at hact
      obtain rfl := Option.some.inj hact
      exact Kept.raise h.settled rfl rfl
    | stepDown =>
      simp only [Election.act, Option.bind_some, Election.stepDown] at hact
      split_ifs at hact
      obtain rfl := Option.some.inj hact
      exact h.append rfl rfl
    | replicate term =>
      simp only [Election.act, Option.bind_some, replicate] at hact
      split_ifs at hact
      obtain rfl := Option.some.inj hact
      exact h.append rfl rfl
    | task k fault =>
      obtain rfl : fault = none := hfault
      obtain ⟨t, ht, rfl⟩ : ∃ t, m.tasks[k]? = some t ∧
          Election.runTask disk m t (m.tasks.eraseIdx k) none = o := by
        simpa [Election.act, Option.map_eq_some_iff] using hact
      exact h.runTask ht

theorem Kept.adoptionDurable {w : World ι} {label : ι × Action ι} (h : Kept (w.nodes label.1))
    (hfault : Action.fault label.2 = none) (hnone : NoneOutstanding w label) :
    AdoptionDurable w label := by
  obtain ⟨i, a⟩ := label
  unfold AdoptionDurable
  split
  · next k fault m ha hm =>
    obtain rfl : a = .task k fault := ha
    obtain rfl : fault = none := hfault
    intro t ht
    cases t with
    | checked t =>
      refine (Nat.lt_or_ge m.term t).imp_right fun hle => ?_
      refine ((h.term m hm).resolve_right fun hsave => ?_).mono hle
      obtain ⟨task, htask, r, hr, -⟩ := hsave
      have := hnone k none t m rfl hm ht task htask
      simp [this] at hr
    | persist r answering =>
      cases answering with
      | true => exact .inr ⟨rfl, h.settled⟩
      | false => trivial
    | append t => trivial
    | recordStepDown => trivial
  · trivial

/-- A run in which every save goes through, and none is outstanding when a term check runs, meets
the condition, when it starts from what an earlier save left or from empty directories. -/
theorem adoptionDurable_of_saved [DecidableEq ι] {w₀ w : World ι} {labels : List (ι × Action ι)}
    (hinit : Initial w₀) (hsettled : ∀ i, Settled (w₀.nodes i).disk)
    (hrun : run (step g) w₀ labels = some w)
    (hok : Meets (step g) (fun w label => Action.fault label.2 = none ∧
      NoneOutstanding w label) w₀ labels) :
    Meets (step g) AdoptionDurable w₀ labels := by
  apply meets_of_run (I := fun w => ∀ i, Kept (w.nodes i)) _ hrun hok
  · intro i
    exact ⟨hsettled i, fun m hm => by simp [hinit.1 i] at hm⟩
  · intro w label w' hkept hok hstep
    refine ⟨(hkept label.1).adoptionDurable hok.1 hok.2, fun i => ?_⟩
    obtain ⟨j, a⟩ := label
    obtain ⟨o, ho, rfl⟩ := step_eq_some.mp hstep
    by_cases hij : i = j
    · subst hij
      simpa [World.record] using (hkept i).act hok.1 ho
    · simpa [World.record, hij] using hkept i

end Saved

/-- Node `a` answers a frame of term 5; every save goes through. -/
def durableAdoption : List (Fin 3 × Action (Fin 3)) :=
  [(0, .boot none), (0, .replicate 5), (0, .task 0 none), (0, .task 0 none), (0, .task 0 none)]

theorem applied_term_durable_five :
    ∃ w, run (step threeNodes) freshWorld durableAdoption = some w ∧ ((0 : Fin 3), 5) ∈ w.applied ∧
      ∃ m, load (w.nodes 0).disk = .ok (some m) ∧ 5 ≤ m.term := by
  have happlied : (run (step threeNodes) freshWorld durableAdoption).map World.applied =
      some [(0, 5)] := by decide
  obtain ⟨w, hrun, hw⟩ := Option.map_eq_some_iff.mp happlied
  have hmem : ((0 : Fin 3), 5) ∈ w.applied := by simp [hw]
  exact ⟨w, hrun, hmem, (applied_term_durable threeNodes ⟨fun _ => rfl, rfl, rfl, rfl⟩ hrun
    (by decide) hmem).1⟩

/-- The adoption save of term 5 fails, the frame is answered all the same, and after a crash the
node answers a frame of term 1 and votes in term 2. -/
def lostAdoption : List (Fin 3 × Action (Fin 3)) :=
  [(0, .boot none), (0, .replicate 5), (0, .task 0 none), (0, .task 0 (some .create)),
    (0, .task 0 none), (0, .crash), (0, .boot none),
    (0, .replicate 1), (0, .task 0 none), (0, .task 0 none), (0, .task 0 none),
    (0, .voteRequest ⟨2, ['b'], 0, 0, [], some ['b']⟩ [] ⟨0, 0⟩ false none)]

theorem applied_term_lost :
    (¬ ∀ w : World (Fin 3), Reachable Initial (step threeNodes) w → ∀ i t, (i, t) ∈ w.applied →
      ∃ m, load (w.nodes i).disk = .ok (some m) ∧ t ≤ m.term) ∧
    ∃ w, run (step threeNodes) freshWorld lostAdoption = some w ∧
      w.applied = [(0, 1), (0, 5)] ∧ w.granted = [⟨0, ['b'], 2⟩] := by
  have hlast : (run (step threeNodes) freshWorld lostAdoption).map
      (fun w => (w.applied, w.granted, load (w.nodes 0).disk)) =
      some ([(0, 1), (0, 5)], [⟨0, ['b'], 2⟩], .ok (some ⟨2, false, some ['b']⟩)) := by decide
  obtain ⟨w, hrun, hw⟩ := Option.map_eq_some_iff.mp hlast
  simp only [Prod.mk.injEq] at hw
  refine ⟨fun hall => ?_, w, hrun, hw.1, hw.2.1⟩
  obtain ⟨m, hm, hle⟩ := hall w ⟨freshWorld, lostAdoption, ⟨fun _ => rfl, rfl, rfl, rfl⟩, hrun⟩ 0 5
    (by simp [hw.1])
  rw [hw.2.2] at hm
  obtain rfl : (⟨2, false, some ['b']⟩ : Meta) = m := by simpa using hm
  simp at hle

end DewDB.TermDurability
