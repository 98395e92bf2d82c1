import Mathlib.Algebra.BigOperators.Group.List.Basic
import Mathlib.Tactic.Ring

/-!
# The budget of a peer

Requests to a peer share its slots. One whose last request failed in transport gets one request at a
time, a probe, after a while that grows with each probe that fails. A request that was made before
the peer went away may be answered while a probe is out. It resets the record of the peer with the
mark of the probe, and a failure that follows makes the peer unreachable without the mark.
-/
namespace DewDB.PeerBudget

/-- `probe_backoff`, in milliseconds. -/
def probeBackoff (failures : ℕ) : ℕ := min (100 * 2 ^ min (failures - 1) 16) 2000

structure Health where
  unreachable : Bool
  failures : ℕ
  retryAt : Option ℕ
  probing : Bool
  deriving DecidableEq

/-- `Health::default`. -/
def Health.fresh : Health := ⟨false, 0, none, false⟩

inductive Admission where
  | normal
  | probe
  | skip
  deriving DecidableEq

def Health.admission (h : Health) (now : ℕ) : Admission × Health :=
  if !h.unreachable then (.normal, h)
  else if h.probing || h.retryAt.any (now < ·) then (.skip, h)
  else (.probe, { h with probing := true })

structure Slot where
  permit : Bool
  probe : Bool
  deriving DecidableEq

def Health.settle (h : Health) (probe : Bool) (now : ℕ) (answered : Bool) : Health :=
  let h :=
    if answered then .fresh
    else if probe || !h.unreachable then
      let failures := min (h.failures + 1) (2 ^ 32 - 1)
      { h with unreachable := true, failures, retryAt := some (now + probeBackoff failures) }
    else h
  if probe then { h with probing := false } else h

/-- Where a request is: before `acquire` asks, waiting for a change of the peer, waiting for a
permit, with one and before `acquire` asks again, out, or settled. -/
inductive Phase where
  | asking
  | waiting
  | queued
  | holding
  | out (slot : Slot)
  | settled (slot : Slot)
  | gone
  deriving DecidableEq

/-- A request waits for an unreachable peer if a write waits for it. -/
structure Request where
  waits : Bool
  phase : Phase
  deriving DecidableEq

inductive Action where
  | ask
  | wake
  | grant
  | reask
  | settle (answered : Bool)
  | release
  | drop
  | giveUp

/-- One step of a request: what becomes of the peer's health, of its free permits and of the
request. -/
def move (h : Health) (free now : ℕ) (waits : Bool) : Phase → Action → Option (Health × ℕ × Phase)
  | .asking, .ask =>
    match h.admission now with
    | (.normal, h) => some (h, free, .queued)
    | (.probe, h) => some (h, free, .out ⟨false, true⟩)
    | (.skip, h) => some (h, free, if waits then .waiting else .gone)
  | .waiting, .wake => some (h, free, .asking)
  | .waiting, .giveUp => some (h, free, .gone)
  | .queued, .grant => if 0 < free then some (h, free - 1, .holding) else none
  | .queued, .giveUp => some (h, free, .gone)
  | .holding, .reask =>
    match h.admission now with
    | (.normal, h) => some (h, free, .out ⟨true, false⟩)
    | (.probe, h) => some (h, free, .out ⟨true, true⟩)
    -- The permit goes out of scope with the round of the loop.
    | (.skip, h) => some (h, free + 1, if waits then .asking else .gone)
  | .out slot, .settle answered =>
    some (h.settle slot.probe now answered, free, .settled { slot with probe := false })
  | .settled slot, .release => some (h, free + slot.permit.toNat,
      .settled { slot with permit := false })
  | .settled slot, .drop | .out slot, .drop =>
    some (if slot.probe then { h with probing := false } else h, free + slot.permit.toNat, .gone)
  | _, _ => none

structure Budget where
  now : ℕ
  health : Health
  free : ℕ
  requests : List Request
  deriving DecidableEq

inductive Event where
  | tick (elapsed : ℕ)
  | come (waits : Bool)
  | act (i : ℕ) (action : Action)

def Budget.start (perPeer : ℕ) : Budget := ⟨0, .fresh, max perPeer 1, []⟩

def Budget.step (b : Budget) : Event → Option Budget
  | .tick elapsed => some { b with now := b.now + elapsed }
  | .come waits => some { b with requests := b.requests ++ [⟨waits, .asking⟩] }
  | .act i action => do
    let r ← b.requests[i]?
    let (health, free, phase) ← move b.health b.free b.now r.waits r.phase action
    return { b with health, free, requests := b.requests.set i { r with phase } }

def Budget.run (b : Budget) (events : List Event) : Option Budget := events.foldlM Budget.step b

/-- One for a slot that has the probe: `settle` takes it. -/
def Phase.probes : Phase → ℕ
  | .out slot | .settled slot => slot.probe.toNat
  | _ => 0

def Phase.permits : Phase → ℕ
  | .holding => 1
  | .out slot | .settled slot => slot.permit.toNat
  | _ => 0

def Budget.probes (b : Budget) : ℕ := (b.requests.map fun r => r.phase.probes).sum

def Budget.held (b : Budget) : ℕ := (b.requests.map fun r => r.phase.permits).sum

/-- While the peer is unreachable, at most one probe is out, and it is marked if and only if one is.
-/
def Budget.Sound (b : Budget) : Prop :=
  b.health.unreachable = true → b.probes ≤ 1 ∧ (b.health.probing = true ↔ b.probes = 1)

/-- The event is not the failure of a request that is no probe, at a peer that is held to be
reachable while a probe is out. -/
def Budget.Clean (b : Budget) (e : Event) : Prop :=
  ∀ i r slot, e = .act i (.settle false) → b.requests[i]? = some r → r.phase = .out slot →
    slot.probe = false → b.health.unreachable = false → b.probes = 0

def SoundRun (b : Budget) : List Event → Prop
  | [] => b.Sound
  | e :: es => b.Sound ∧ ∀ b', b.step e = some b' → SoundRun b' es

def CleanRun (b : Budget) : List Event → Prop
  | [] => True
  | e :: es => b.Clean e ∧ ∀ b', b.step e = some b' → CleanRun b' es

section Moves

variable {h h' : Health} {free free' now : ℕ} {waits : Bool} {p p' : Phase} {action : Action}

/-- What a move does to the health of the peer and to the number of probes of its request. -/
inductive Effect (h : Health) (now : ℕ) (p p' : Phase) (action : Action) : Health → Prop where
  | still (hp : p'.probes = p.probes) (hs : ∀ answered, action ≠ .settle answered) :
      Effect h now p p' action h
  | probe (hu : h.unreachable = true) (hn : h.probing = false) (hp : p.probes = 0)
      (hp' : p'.probes = 1)
    (hs : ∀ answered, action ≠ .settle answered) :
    Effect h now p p' action { h with probing := true }
  | settle (slot : Slot) (answered : Bool) (hp : p = .out slot) (hp' : p'.probes = 0)
    (hs : action = .settle answered) : Effect h now p p' action (h.settle slot.probe now answered)
  | drop (hp : p.probes = 1) (hp' : p'.probes = 0) (hs : ∀ answered, action ≠ .settle answered) :
    Effect h now p p' action { h with probing := false }

theorem admission_cases (h : Health) (now : ℕ) :
    h.admission now = (.normal, h) ∧ h.unreachable = false ∨ h.admission now = (.skip, h) ∨
      h.admission now = (.probe, { h with probing := true }) ∧ h.unreachable = true ∧
        h.probing = false := by
  unfold Health.admission
  cases hu : h.unreachable with
  | false => exact .inl ⟨rfl, rfl⟩
  | true =>
    cases hp : h.probing with
    | true => exact .inr (.inl rfl)
    | false =>
      cases h.retryAt.any (now < ·) with
      | true => exact .inr (.inl rfl)
      | false => exact .inr (.inr ⟨rfl, rfl, rfl⟩)

theorem effect_of_admission {a : Admission} (ha : h.admission now = (a, h')) (hp : p.probes = 0)
    (hp' : p'.probes = if a = .probe then 1 else 0) (hs : ∀ answered, action ≠ .settle answered) :
    Effect h now p p' action h' := by
  rcases admission_cases h now with ⟨hc, -⟩ | hc | ⟨hc, hu, hn⟩
  all_goals
    rw [hc, Prod.mk.injEq] at ha
    obtain ⟨rfl, rfl⟩ := ha
  · exact .still (by simp [hp, hp']) hs
  · exact .still (by simp [hp, hp']) hs
  · exact .probe hu hn hp (by simp [hp']) hs

theorem effect_of_drop {slot : Slot} (hp : p.probes = slot.probe.toNat) :
    Effect h now p .gone .drop (if slot.probe then { h with probing := false } else h) := by
  cases hs : slot.probe with
  | true => exact .drop (by simp [hp, hs]) rfl (by simp)
  | false => exact .still (by rw [hp, hs]; rfl) (by simp)

theorem effect_of_move (hm : move h free now waits p action = some (h', free', p')) :
    Effect h now p p' action h' ∧ free' + p'.permits = free + p.permits := by
  cases p with
  | asking =>
    cases action with
    | ask =>
      simp only [move] at hm
      cases ha : h.admission now with
      | mk a h'' =>
        simp only [ha] at hm
        cases a with
        | normal | probe =>
          simp only [Option.some.injEq, Prod.mk.injEq] at hm
          obtain ⟨rfl, rfl, rfl⟩ := hm
          exact ⟨effect_of_admission ha rfl rfl (by simp), rfl⟩
        | skip =>
          simp only [Option.some.injEq, Prod.mk.injEq] at hm
          obtain ⟨rfl, rfl, rfl⟩ := hm
          cases waits with
          | true | false => exact ⟨effect_of_admission ha rfl rfl (by simp), rfl⟩
    | _ => simp [move] at hm
  | waiting =>
    cases action with
    | wake | giveUp =>
      simp only [move, Option.some.injEq, Prod.mk.injEq] at hm
      obtain ⟨rfl, rfl, rfl⟩ := hm
      exact ⟨.still rfl (by simp), rfl⟩
    | _ => simp [move] at hm
  | queued =>
    cases action with
    | grant =>
      simp only [move, Option.ite_none_right_eq_some, Option.some.injEq, Prod.mk.injEq] at hm
      obtain ⟨hf, rfl, rfl, rfl⟩ := hm
      exact ⟨.still rfl (by simp), Nat.sub_add_cancel hf⟩
    | giveUp =>
      simp only [move, Option.some.injEq, Prod.mk.injEq] at hm
      obtain ⟨rfl, rfl, rfl⟩ := hm
      exact ⟨.still rfl (by simp), rfl⟩
    | _ => simp [move] at hm
  | holding =>
    cases action with
    | reask =>
      simp only [move] at hm
      cases ha : h.admission now with
      | mk a h'' =>
        simp only [ha] at hm
        cases a with
        | normal | probe =>
          simp only [Option.some.injEq, Prod.mk.injEq] at hm
          obtain ⟨rfl, rfl, rfl⟩ := hm
          exact ⟨effect_of_admission ha rfl rfl (by simp), rfl⟩
        | skip =>
          simp only [Option.some.injEq, Prod.mk.injEq] at hm
          obtain ⟨rfl, rfl, rfl⟩ := hm
          cases waits with
          | true | false => exact ⟨effect_of_admission ha rfl rfl (by simp), rfl⟩
    | _ => simp [move] at hm
  | out slot =>
    cases action with
    | settle answered =>
      simp only [move, Option.some.injEq, Prod.mk.injEq] at hm
      obtain ⟨rfl, rfl, rfl⟩ := hm
      exact ⟨.settle slot answered rfl rfl rfl, rfl⟩
    | drop =>
      simp only [move, Option.some.injEq, Prod.mk.injEq] at hm
      obtain ⟨rfl, rfl, rfl⟩ := hm
      exact ⟨effect_of_drop rfl, rfl⟩
    | _ => simp [move] at hm
  | settled slot =>
    cases action with
    | release =>
      simp only [move, Option.some.injEq, Prod.mk.injEq] at hm
      obtain ⟨rfl, rfl, rfl⟩ := hm
      exact ⟨.still rfl (by simp), rfl⟩
    | drop =>
      simp only [move, Option.some.injEq, Prod.mk.injEq] at hm
      obtain ⟨rfl, rfl, rfl⟩ := hm
      exact ⟨effect_of_drop rfl, rfl⟩
    | _ => simp [move] at hm
  | gone => cases action <;> simp [move] at hm

theorem Health.settle_probe (h : Health) (now : ℕ) (answered : Bool) :
    (h.settle true now answered).probing = false := rfl

theorem Health.settle_answered (h : Health) (now : ℕ) : h.settle false now true = .fresh := rfl

theorem Health.settle_of_unreachable (hu : h.unreachable = true) :
    h.settle false now false = h := by
  simp [Health.settle, hu]

theorem Health.settle_of_reachable (now : ℕ) (hu : h.unreachable = false) :
    (h.settle false now false).unreachable = true ∧
      (h.settle false now false).probing = h.probing := by
  simp [Health.settle, hu]

theorem Health.probing_of_settle {answered : Bool}
    (hm : (h.settle false now answered).probing = true) : h.probing = true := by
  cases answered with
  | true => simp [Health.settle_answered, Health.fresh] at hm
  | false =>
    cases hu : h.unreachable with
    | true => rwa [Health.settle_of_unreachable hu] at hm
    | false => rwa [(Health.settle_of_reachable _ hu).2] at hm

theorem admission_of_due (hu : h.unreachable = true) (hn : h.probing = false)
    (hd : ∀ due ∈ h.retryAt, due ≤ now) :
    h.admission now = (.probe, { h with probing := true }) := by
  have ha : h.retryAt.any (now < ·) = false := by
    cases hr : h.retryAt with
    | none => rfl
    | some due => simpa using hd due (by rw [hr]; rfl)
  simp [Health.admission, hu, hn, ha]

end Moves

theorem sum_map_set {α : Type} (f : α → ℕ) (y : α) {x : α} : ∀ {l : List α}
    {i : ℕ}, l[i]? = some x → ((l.set i y).map f).sum + f x = (l.map f).sum + f y
  | a :: l, 0, hx => by
    simp only [List.getElem?_cons_zero, Option.some.injEq] at hx
    simp only [hx, List.set_cons_zero, List.map_cons, List.sum_cons]
    omega
  | a :: l, i + 1, hx => by
    have ih := sum_map_set f y (by simpa using hx : l[i]? = some x)
    simp only [List.set_cons_succ, List.map_cons, List.sum_cons]
    omega

section Steps

variable {b b' : Budget} {e : Event}

theorem step_act {i : ℕ} {action : Action} (hs : b.step (.act i action) = some b') :
    ∃ r p', b.requests[i]? = some r ∧ Effect b.health b.now r.phase p' action b'.health ∧
      b'.probes + r.phase.probes = b.probes + p'.probes ∧ b'.free + b'.held = b.free + b.held := by
  simp only [Budget.step, Option.bind_eq_bind, Option.bind_eq_some_iff, Option.pure_def] at hs
  obtain ⟨r, hr, ⟨h', free', p'⟩, hm, hb⟩ := hs
  obtain ⟨he, hf⟩ := effect_of_move hm
  simp only [Option.some.injEq] at hb
  subst hb
  refine ⟨r, p', hr, he, ?_, ?_⟩
  · exact sum_map_set (fun r => r.phase.probes) { r with phase := p' } hr
  · have hsum := sum_map_set (fun r => r.phase.permits) { r with phase := p' } hr
    simp only [Budget.held] at hsum ⊢
    omega

/-- No more than one probe is out. The mark stands for one, and an unreachable peer with one has it.
-/
structure Inv (b : Budget) : Prop where
  one : b.probes ≤ 1
  marked : b.health.probing = true → b.health.unreachable = true ∧ b.probes = 1
  mark : b.health.unreachable = true → b.probes = 1 → b.health.probing = true

theorem Inv.sound (hi : Inv b) :
    b.Sound := fun hu => ⟨hi.one, fun hp => (hi.marked hp).2, hi.mark hu⟩

theorem Inv.of_eq (hi : Inv b) (hh : b'.health = b.health)
    (hp : b'.probes = b.probes) : Inv b' where
  one := hp ▸ hi.one
  marked hm := by rw [hh, hp]; exact hi.marked (hh ▸ hm)
  mark hu h1 := by rw [hh]; exact hi.mark (hh ▸ hu) (hp ▸ h1)

theorem Inv.of_none (hp : b'.probes = 0) (hm : b'.health.probing = false) : Inv b' where
  one := by omega
  marked h := by simp [hm] at h
  mark _ h := by omega

theorem Inv.step (hi : Inv b) (hc : b.Clean e) (hs : b.step e = some b') : Inv b' := by
  cases e with
  | tick elapsed =>
    simp only [Budget.step, Option.some.injEq] at hs
    exact hi.of_eq (by rw [← hs]) (by rw [← hs]; rfl)
  | come waits =>
    simp only [Budget.step, Option.some.injEq] at hs
    exact hi.of_eq (by rw [← hs]) (by rw [← hs]; simp [Budget.probes, Phase.probes])
  | act i action =>
    obtain ⟨r, p', hr, he, hp, -⟩ := step_act hs
    have hone := hi.one
    generalize hh : b'.health = h' at he
    cases he with
    | still hp' _ => exact hi.of_eq hh (by omega)
    | probe hu hn hp0 hp1 _ =>
      -- An unmarked unreachable peer has no probe out: this one is the first.
      have h0 : b.probes ≠ 1 := fun h1 => by simp [hi.mark hu h1] at hn
      have h1 : b'.probes = 1 := by omega
      exact ⟨by omega, fun _ => ⟨by rw [hh]; exact hu, h1⟩, fun _ _ => by rw [hh]⟩
    | drop hp1 hp0 _ => exact .of_none (by omega) (by rw [hh])
    | settle slot answered hout hp0 hact =>
      cases hprobe : slot.probe with
      | true =>
        have hp1 : r.phase.probes = 1 := by rw [hout]; simp [Phase.probes, hprobe]
        exact .of_none (by omega) (by rw [hh, hprobe]; rfl)
      | false =>
        have hp1 : r.phase.probes = 0 := by rw [hout]; simp [Phase.probes, hprobe]
        rw [hprobe] at hh
        cases answered with
        | true =>
          rw [Health.settle_answered] at hh
          exact ⟨by omega, by simp [hh, Health.fresh], by simp [hh, Health.fresh]⟩
        | false =>
          cases hu : b.health.unreachable with
          | true =>
            rw [Health.settle_of_unreachable hu] at hh
            exact hi.of_eq hh (by omega)
          | false =>
            -- The failure takes the mark with it unless no probe is out.
            have h0 : b.probes = 0 := hc i r slot (by rw [hact]) hr hout hprobe hu
            have hm : b.health.probing = false := by
              by_contra hm
              simp [(hi.marked (by simpa using hm)).1] at hu
            exact .of_none (by omega) (by rw [hh, (Health.settle_of_reachable _ hu).2, hm])

/-- A failure that is not clean leaves an unreachable peer with a probe that is not marked. -/
theorem Inv.not_sound_of_not_clean (hi : Inv b) (hc : ¬ b.Clean e) :
    ∃ b', b.step e = some b' ∧ ¬ b'.Sound := by
  simp only [Budget.Clean, not_forall, exists_prop] at hc
  obtain ⟨i, r, slot, rfl, hr, hout, hprobe, hu, hp⟩ := hc
  have hs : (b.step (.act i (.settle false))).isSome := by simp [Budget.step, hr, hout, move]
  obtain ⟨b', hs⟩ := Option.isSome_iff_exists.mp hs
  refine ⟨b', hs, fun hsound => ?_⟩
  have hm : b.health.probing = false := by
    by_contra hm
    simp [(hi.marked (by simpa using hm)).1] at hu
  obtain ⟨r', p', hr', he, hpp, -⟩ := step_act hs
  obtain rfl : r = r' := by rw [hr] at hr'; exact Option.some.inj hr'
  generalize hh : b'.health = h' at he
  cases he with
  | still _ ha | probe _ _ _ _ ha | drop _ _ ha => exact ha false rfl
  | settle slot' answered hout' hp0 hact =>
    obtain rfl : slot = slot' := by rw [hout] at hout'; exact Phase.out.inj hout'
    obtain rfl : false = answered := Action.settle.inj hact
    have hq : r.phase.probes = 0 := by rw [hout]; simp [Phase.probes, hprobe]
    obtain ⟨hu', hm'⟩ := Health.settle_of_reachable b.now hu
    rw [hprobe] at hh
    obtain ⟨hone, hmark⟩ := hsound (by rw [hh, hu'])
    rw [hh, hm', hm] at hmark
    have h1 : b'.probes ≠ 1 := fun h1 => by simpa using hmark.mpr h1
    omega

theorem marked_step (hi : b.health.probing = true → 0 < b.probes) (hs : b.step e = some b') :
    b'.health.probing = true → 0 < b'.probes := by
  cases e with
  | tick elapsed | come waits =>
    simp only [Budget.step, Option.some.injEq] at hs
    subst hs
    simpa [Budget.probes, Phase.probes] using hi
  | act i action =>
    obtain ⟨r, p', hr, he, hp, -⟩ := step_act hs
    generalize hh : b'.health = h' at he
    cases he with
    | still hp' _ =>
      intro hm
      have := hi hm
      omega
    | probe _ _ hp0 hp1 _ => omega
    | drop _ _ _ => simp
    | settle slot answered hout hp0 hact =>
      cases hprobe : slot.probe with
      | true => simp [Health.settle_probe]
      | false =>
        have hq : r.phase.probes = 0 := by rw [hout]; simp [Phase.probes, hprobe]
        intro hm
        have := hi (Health.probing_of_settle hm)
        omega

theorem permits_step (hs : b.step e = some b') : b'.free + b'.held = b.free + b.held := by
  cases e with
  | tick elapsed | come waits =>
    simp only [Budget.step, Option.some.injEq] at hs
    subst hs
    simp [Budget.held, Phase.permits]
  | act i action =>
    obtain ⟨r, p', hr, he, hp, hf⟩ := step_act hs
    exact hf

theorem inv_start (perPeer : ℕ) : Inv (.start perPeer) where
  one := Nat.zero_le 1
  marked hm := by simp [Budget.start, Health.fresh] at hm
  mark hu := by simp [Budget.start, Health.fresh] at hu

theorem sound_of_clean : ∀ {es : List Event} {b : Budget}, Inv b → CleanRun b es → SoundRun b es
  | [], _, hi, _ => hi.sound
  | _ :: _, _, hi, hc => ⟨hi.sound, fun b' hs => sound_of_clean (hi.step hc.1 hs) (hc.2 b' hs)⟩

theorem SoundRun.head {es : List Event} (hr : SoundRun b es) : b.Sound := by
  cases es with
  | nil => exact hr
  | cons e es => exact hr.1

theorem clean_of_sound : ∀ {es : List Event} {b : Budget}, Inv b → SoundRun b es → CleanRun b es
  | [], _, _, _ => trivial
  | e :: _, b, hi, hr => by
    have hc : b.Clean e := by
      by_contra hc
      obtain ⟨b', hs, hn⟩ := hi.not_sound_of_not_clean hc
      exact hn (hr.2 b' hs).head
    exact ⟨hc, fun b' hs => clean_of_sound (hi.step hc hs) (hr.2 b' hs)⟩

theorem run_induction (P : Budget → Prop) (hstep : ∀ b e b', P b → b.step e = some b' → P b') :
    ∀ {es : List Event} {b b' : Budget}, P b → b.run es = some b' → P b'
  | [], b, b', hp, hr => by
    obtain rfl : b = b' := by simpa [Budget.run] using hr
    exact hp
  | e :: es, b, b', hp, hr => by
    simp only [Budget.run, List.foldlM_cons, Option.bind_eq_bind, Option.bind_eq_some_iff] at hr
    obtain ⟨b₁, hs, hr⟩ := hr
    exact run_induction P hstep (hstep b e b₁ hp hs) hr

/-- The budget of a peer over every run. It is sound in each state if and only if each failure of a
request that is no probe finds the peer unreachable or no probe out. In every run the mark stands
for a probe that is out, a peer without one is due a probe, and no permit is lost or returned twice.
-/
theorem sound_iff_clean (perPeer : ℕ) (es : List Event) :
    (SoundRun (.start perPeer) es ↔ CleanRun (.start perPeer) es) ∧
      ∀ b, (Budget.start perPeer).run es = some b →
        (b.health.probing = true → 0 < b.probes) ∧
          (b.health.unreachable = true → b.probes = 0 → ∀ now,
            (∀ due ∈ b.health.retryAt, due ≤ now) → (b.health.admission now).1 = .probe) ∧
          b.free + b.held = max perPeer 1 := by
  refine ⟨⟨clean_of_sound (inv_start perPeer), sound_of_clean (inv_start perPeer)⟩, fun b hr => ?_⟩
  have hm : b.health.probing = true → 0 < b.probes :=
    run_induction (fun b => b.health.probing = true → 0 < b.probes) (fun _ _ _ => marked_step)
      (by simp [Budget.start, Health.fresh]) hr
  have hp : b.free + b.held = max perPeer 1 :=
    run_induction (fun b => b.free + b.held = max perPeer 1)
      (fun _ _ _ hi hs => (permits_step hs).trans hi) (by simp [Budget.start, Budget.held]) hr
  refine ⟨hm, fun hu h0 now hd => ?_, hp⟩
  have hn : b.health.probing = false := by
    by_contra hn
    have := hm (by simpa using hn)
    omega
  rw [admission_of_due hu hn hd]

end Steps

/-- The request 0 is answered under the probe, the request 1 fails after it, and a second probe goes
out. -/
def lateAnswer : List Event :=
  [.come false, .come false, .come false, .act 0 .ask, .act 0 .grant, .act 0 .reask, .act 1 .ask,
    .act 1 .grant,
    .act 1 .reask, .act 2 .ask, .act 2 .grant, .act 2 .reask, .act 0 (.settle false),
    .tick 100, .come false,
    .act 3 .ask, .act 1 (.settle true), .act 2 (.settle false), .tick 100, .come false, .act 4 .ask]

theorem two_probes_out :
    ∃ b, (Budget.start 3).run lateAnswer = some b ∧ b.health.unreachable = true ∧ b.probes = 2 :=
  ⟨((Budget.start 3).run lateAnswer).get (by decide), by decide⟩

end DewDB.PeerBudget
