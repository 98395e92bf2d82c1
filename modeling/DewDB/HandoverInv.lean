import DewDB.Handover

/-!
# What holds throughout a calm handover

From the first final pass on the source's moved keys stay as they are, and what reaches the
destination is what they are. A step is calm if it keeps to that: no write is staged past what a
final pass or a reset looks at, and none of a moved key is appended behind it.
-/
namespace DewDB.Handover

open GroupLog ShardGroup HandoverPlan

variable {K V : Type} [DecidableEq K]

/-- The step appends no moved key behind a final pass at the source or a reset at the destination,
and neither of the two starts over one that is staged. -/
def Calm (c : Layout K) (s : State K V) : Label K V → Prop
  | .group .source (.elect _ _ tail) =>
    s.frozen.isSome → ∀ e ∈ tail, c.moves e.key → e.origin = .cleanup
  | .group .destination (.elect _ _ tail) =>
    s.scanned → ∀ e ∈ tail, c.moves e.key → e.origin = .client
  | .write (.append i) =>
    ∀ w ∈ s.writes[i]?, w.side = .source → w.node = s.src.leader → c.moves w.key → s.frozen = none
  | .push (.plan j _) =>
    ∀ p ∈ s.pushes[j]?, p.phase = .finalizing →
      ∀ e ∈ s.src.log.drop (s.src.applied p.node), c.moves e.key → e.origin = .cleanup
  | .reset (.scan _) =>
    ∀ e ∈ s.dst.log.drop (s.dst.applied c.target), c.moves e.key = false
  | .reset (.orphan _) => c.target = s.dst.leader → s.completed = false
  | .batch (.append i) =>
    ∀ b ∈ s.admitted[i]?, ∀ batch ∈ s.batches[b]?, c.target = s.dst.leader →
      batch.phase = .copy → s.scanned = false
  | _ => True

/-- The source's value of a moved key, as it was when the first final pass was planned. -/
def final (s : State K V) (k : K) : Option V :=
  lookup (s.src.log.take (s.frozen.getD 0)) k

def Settled (g : ShardGroup K V View) (k : K) (v : Option V) : Prop :=
  Pinned g k (fun x => x = none ∨ x = v)
    (fun e => e.origin = .client ∨ e.value = none ∨ e.value = v)

def Copied (g : ShardGroup K V View) (k : K) (v : Option V) : Prop :=
  Pinned g k (· = v) (fun e => e.origin = .client ∨ e.value = v)

theorem Settled.copied {g : ShardGroup K V View} {k : K} (h : Settled g k none) :
    Copied g k none := by
  obtain ⟨u, hle, hP, hQ⟩ := h
  exact ⟨u, hle, by simpa using hP, fun e he hk => by simpa using hQ e he hk⟩

def Stage.isPlanned : Stage → Bool
  | .starting => false
  | .gated => false
  | _ => true

def InFlight (s : State K V) (p : Push K V) (k : K) : Prop :=
  ∃ b batch, p.waiting = some b ∧ s.batches[b]? = some batch ∧ batch.phase = .finalizing ∧
    k ∈ batch.docs.map Prod.fst

structure FinalPass (c : Layout K) (s : State K V) (p : Push K V) : Prop where
  frozen : s.frozen.isSome
  caught : ∀ e ∈ (s.src.log.take (s.frozen.getD 0)).drop (s.src.applied p.node),
    c.moves e.key = false
  docs : ∀ d ∈ p.docs, final s d.1 = some d.2
  ready : p.stage = .copying ∨ p.stage = .finished → s.completed
  left : s.plan.isOver = false → ∀ k, c.moves k → final s k ≠ none →
    k ∈ p.left ∨ k ∈ p.docs.map Prod.fst ∨ InFlight s p k ∨
      s.completed ∧ Copied s.dst k (final s k)
  done : p.stage = .finished → p.left = [] ∧ p.docs = [] ∧ p.waiting = none

structure PushOk (c : Layout K) (s : State K V) (p : Push K V) : Prop where
  left : ∀ k ∈ p.left, c.moves k
  docs : ∀ d ∈ p.docs, c.moves d.1
  final : p.phase = .finalizing → p.stage.isPlanned → FinalPass c s p

def BatchOk (c : Layout K) (s : State K V) (b : MigrateBatch K V) : Prop :=
  (∀ d ∈ b.docs, c.moves d.1) ∧
    (b.phase = .finalizing → s.completed ∧ ∀ d ∈ b.docs, final s d.1 = some d.2)

def WrittenOk (s : State K V) (w : Written) : Prop :=
  ∃ batch, s.batches[w.batch]? = some batch ∧ (batch.phase = .finalizing → ∀ d ∈ batch.docs,
    Held s.dst d.1 (· = final s d.1) (fun e => e.origin = .client ∨ e.value = final s d.1)
      w.epoch w.upTo ∧ (w.met → Copied s.dst d.1 (final s d.1)))

structure ResetOk (c : Layout K) (s : State K V) (r : Reset K) : Prop where
  open_ : s.completed = false
  scanned : s.scanned
  moved : ∀ k ∈ r.left, c.moves k
  settled : ∀ k, c.moves k → k ∈ r.left ∨ Settled s.dst k (final s k)
  waiting : ∀ w, r.waiting = some w → ∀ k, r.left.head? = some k →
    Held s.dst k (fun x => x = none ∨ x = final s k)
      (fun e => e.origin = .client ∨ e.value = none ∨ e.value = final s k) w.1 w.2

structure SourceOk (c : Layout K) (s : State K V) : Prop where
  wf : s.src.Wf
  views : ∀ n, (s.src.view n).rank ≤ s.plan.rank
  cleaned : ∀ e, e ∈ s.src.log ∨ e ∈ s.src.ever → e.origin = .cleanup →
    e.value = none ∧ s.plan.isOver
  before : ∀ u, s.frozen = some u → u ≤ s.src.committed ∧
    ∀ e ∈ s.src.log.take u, c.moves e.key → e.origin ≠ .cleanup
  behind : ∀ u, s.frozen = some u → ∀ e ∈ s.src.log.drop u, c.moves e.key → e.origin = .cleanup

structure Guarded (c : Layout K) (s : State K V) : Prop where
  source : SourceOk c s
  dst : s.dst.Wf
  dstViews : ∀ n, (s.dst.view n).rank ≤ s.plan.rank
  sent : s.resetSent → s.frozen.isSome
  scanned : s.scanned → s.frozen.isSome
  completed : s.completed → s.scanned ∧ ∀ k, c.moves k → Settled s.dst k (final s k)
  pushes : ∀ p ∈ s.pushes, PushOk c s p
  batches : ∀ b ∈ s.batches, BatchOk c s b
  written : ∀ w ∈ s.written, WrittenOk s w
  reset : ∀ r, s.reset = some r → ResetOk c s r
  handed : s.plan.isOver → s.completed ∧ ∀ k, c.moves k → Copied s.dst k (final s k)

/-- What any calm step does to the parts that facts about a handover rest on. -/
structure Drift (c : Layout K) (s s' : State K V) : Prop where
  src : ∃ tail, Advances s.src s'.src tail
  dst : ∃ tail, Advances s.dst s'.dst tail ∧ ∀ e ∈ tail, c.moves e.key →
    (s.scanned → e.origin = .client ∨ e.value = none ∨ e.value = final s e.key) ∧
    (s.completed → e.origin = .client ∨ e.value = final s e.key)
  frozen : s.frozen.isSome → s'.frozen = s.frozen
  batches : s.batches <+: s'.batches
  completed : s.completed → s'.completed
  scanned : s.scanned → s'.scanned
  isOver : s.plan.isOver → s'.plan.isOver

namespace Drift

variable {c : Layout K} {s s' : State K V}

theorem take_eq (h : Drift c s s') (hs : Guarded c s) {u : Nat} (hu : s.frozen = some u) :
    s'.src.log.take u = s.src.log.take u := by
  obtain ⟨tail, ha⟩ := h.src
  exact ha.take_eq hs.source.wf (hs.source.before u hu).1

theorem final_eq (h : Drift c s s') (hs : Guarded c s) (hf : s.frozen.isSome) :
    final s' = final s := by
  obtain ⟨u, hu⟩ := Option.isSome_iff_exists.mp hf
  funext k
  rw [final, final, h.frozen hf, hu, Option.getD_some, h.take_eq hs hu]

theorem frozen_isSome (h : Drift c s s') (hf : s.frozen.isSome) : s'.frozen.isSome := by
  rw [h.frozen hf]
  exact hf

theorem settled (h : Drift c s s') (hs : Guarded c s) (hscanned : s.scanned) {k : K}
    (hk : c.moves k) (hsettled : Settled s.dst k (final s k)) : Settled s'.dst k (final s' k) := by
  obtain ⟨tail, ha, htail⟩ := h.dst
  rw [h.final_eq hs (hs.scanned hscanned)]
  refine hsettled.advances hs.dst ha fun e he hek => ?_
  subst hek
  exact (htail e he hk).1 hscanned

theorem copied (h : Drift c s s') (hs : Guarded c s) (hcompleted : s.completed) {k : K}
    (hk : c.moves k) (hcopied : Copied s.dst k (final s k)) : Copied s'.dst k (final s' k) := by
  obtain ⟨tail, ha, htail⟩ := h.dst
  rw [h.final_eq hs (hs.scanned (hs.completed hcompleted).1)]
  refine hcopied.advances hs.dst ha fun e he hek => ?_
  subst hek
  exact (htail e he hk).2 hcompleted

theorem getElem?_batches (h : Drift c s s') {b : Nat} {batch : MigrateBatch K V}
    (hb : s.batches[b]? = some batch) : s'.batches[b]? = some batch := by
  obtain ⟨rest, hrest⟩ := h.batches
  rw [← hrest, List.getElem?_append_left (List.getElem?_eq_some_iff.mp hb).1]
  exact hb

theorem inFlight (h : Drift c s s') {p : Push K V} {k : K} (hk : InFlight s p k) :
    InFlight s' p k := by
  obtain ⟨b, batch, hwait, hb, hphase, hmem⟩ := hk
  exact ⟨b, batch, hwait, h.getElem?_batches hb, hphase, hmem⟩

end Drift

section Frame

variable {c : Layout K} {s s' : State K V}

theorem Guarded.frozen_of_completed (hs : Guarded c s) (h : s.completed) : s.frozen.isSome :=
  hs.scanned (hs.completed h).1

theorem FinalPass.drift {p : Push K V} (hp : FinalPass c s p) (hs : Guarded c s)
    (h : Drift c s s') : FinalPass c s' p where
  frozen := h.frozen_isSome hp.frozen
  caught e he := by
    obtain ⟨tail, ha⟩ := h.src
    obtain ⟨u, hu⟩ := Option.isSome_iff_exists.mp hp.frozen
    have hcaught := hp.caught
    rw [h.frozen hp.frozen, hu, Option.getD_some, h.take_eq hs hu] at he
    rw [hu, Option.getD_some] at hcaught
    exact hcaught e (List.drop_subset_drop_left _ (ha.applied _) he)
  docs d hd := by
    rw [h.final_eq hs hp.frozen]
    exact hp.docs d hd
  ready hstage := h.completed (hp.ready hstage)
  left hover k hk hne := by
    have hover' : s.plan.isOver = false :=
      Bool.eq_false_iff.mpr fun ho => by simp [h.isOver ho] at hover
    rw [h.final_eq hs hp.frozen] at hne
    rcases hp.left hover' k hk hne with hk' | hk' | hk' | ⟨hcompleted, hk'⟩
    · exact .inl hk'
    · exact .inr (.inl hk')
    · exact .inr (.inr (.inl (h.inFlight hk')))
    · exact .inr (.inr (.inr ⟨h.completed hcompleted, h.copied hs hcompleted hk hk'⟩))
  done := hp.done

theorem PushOk.drift {p : Push K V} (hp : PushOk c s p) (hs : Guarded c s) (h : Drift c s s') :
    PushOk c s' p :=
  ⟨hp.left, hp.docs, fun hphase hstage => (hp.final hphase hstage).drift hs h⟩

theorem BatchOk.drift {b : MigrateBatch K V} (hb : BatchOk c s b) (hs : Guarded c s)
    (h : Drift c s s') : BatchOk c s' b := by
  refine ⟨hb.1, fun hphase => ?_⟩
  obtain ⟨hcompleted, hdocs⟩ := hb.2 hphase
  rw [h.final_eq hs (hs.frozen_of_completed hcompleted)]
  exact ⟨h.completed hcompleted, hdocs⟩

theorem WrittenOk.drift {w : Written} (hw : WrittenOk s w) (hs : Guarded c s) (h : Drift c s s') :
    WrittenOk s' w := by
  obtain ⟨batch, hbatch, hfinal⟩ := hw
  refine ⟨batch, h.getElem?_batches hbatch, fun hphase d hd => ?_⟩
  obtain ⟨hmoves, hready⟩ := hs.batches batch (List.mem_of_getElem? hbatch)
  have hcompleted := (hready hphase).1
  obtain ⟨hheld, hmet⟩ := hfinal hphase d hd
  obtain ⟨tail, ha, htail⟩ := h.dst
  refine ⟨?_, fun hm => h.copied hs hcompleted (hmoves d hd) (hmet hm)⟩
  rw [h.final_eq hs (hs.frozen_of_completed hcompleted)]
  refine hheld.advances ha fun e he hek => ?_
  rw [← hek]
  exact (htail e he (hek ▸ hmoves d hd)).2 hcompleted

theorem ResetOk.drift {r : Reset K} (hr : ResetOk c s r) (hs : Guarded c s) (h : Drift c s s')
    (hopen : s'.completed = false) : ResetOk c s' r where
  open_ := hopen
  scanned := h.scanned hr.scanned
  moved := hr.moved
  settled k hk := (hr.settled k hk).imp_right fun hset => h.settled hs hr.scanned hk hset
  waiting w hw k hk := by
    obtain ⟨tail, ha, htail⟩ := h.dst
    rw [h.final_eq hs (hs.scanned hr.scanned)]
    refine (hr.waiting w hw k hk).advances ha fun e he hek => ?_
    rw [← hek]
    exact (htail e he (hek ▸ hr.moved k (List.mem_of_mem_head? hk))).1 hr.scanned

end Frame

end DewDB.Handover
