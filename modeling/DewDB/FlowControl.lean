import DewDB.SortedMap
import DewDB.TransitionSystem

/-!
# Flow control

A leader admits a client write only while the frames that are staged and those that are reserved
stay within a bound. Admission holds one lock while it samples the staged frames and takes its
reservation, and dropping a reservation takes that lock. A request's appends run on a blocking
thread. The request waits for them before it drops its reservation; when its client goes away the
reservation is dropped with it, and the appends run on.
-/
namespace DewDB.FlowControl

open TransitionSystem

structure Config where
  maxUncommittedFrames : ℕ
  replicated : Bool

inductive Refusal where
  | backlog (inFlight : ℕ)
  | tooWide (frames : ℕ)

/-- What `admit_write` answers before it takes the lock: no bound applies, or the width alone
exceeds it. -/
def unsampled (cfg : Config) (frames : ℕ) : Option (Except Refusal (Option ℕ)) :=
  if cfg.maxUncommittedFrames = 0 ∨ cfg.replicated = false then some (.ok none)
  else if cfg.maxUncommittedFrames < frames then some (.error (.tooWide frames))
  else none

def sampled (cfg : Config) (frames pending held : ℕ) : Except Refusal (Option ℕ) :=
  if cfg.maxUncommittedFrames < pending + held + frames then .error (.backlog (pending + held))
  else .ok (some frames)

/-- A request before its appends, during them with the frames that are left, and past them. -/
inductive Progress where
  | waiting
  | appending (left : ℕ)
  | over
  deriving DecidableEq

structure Request where
  frames : ℕ
  progress : Progress
  reserved : Bool

/-- An admission that holds the lock, with the staged frames it has counted. -/
structure Admission where
  id : ℕ
  frames : ℕ
  pending : ℕ

/-- One collection. `pending` tells for each staged LSN whether an admitted request wrote the frame,
and `held` is the collection's count of reserved frames. -/
structure State where
  pending : SortedMap ℕ Bool
  held : ℕ
  admitting : Option Admission
  requests : SortedMap ℕ Request

inductive Op where
  | arrive (id frames : ℕ)
  | reserve
  | spawn (id left : ℕ)
  | stage (id lsn : ℕ)
  | fail (id : ℕ)
  | release (id : ℕ)
  | cancel (id : ℕ)
  -- A frame that no client write is admitted for.
  | stageOther (lsn : ℕ)
  | applyCommitted (lsn : ℕ)
  | truncate (lsn : ℕ)

namespace State

variable (s : State)

def setRequest (id : ℕ) (r : Request) : State := { s with requests := s.requests.insert id r }

/-- `FrameReservation::drop`. -/
def giveBack (id : ℕ) (r : Request) (progress : Progress) : State :=
  { s with
    held := s.held - r.frames
    requests := s.requests.insert id ⟨r.frames, progress, false⟩ }

end State

/-- `left` frames at most are appended: a sweep skips those that no longer qualify. -/
def step (cfg : Config) (s : State) : Op → Option State
  | .arrive id frames =>
    if s.admitting ≠ none ∨ s.requests.get? id ≠ none then none
    else match unsampled cfg frames with
      | some (.error _) => some s
      | some (.ok reserved) => some (s.setRequest id ⟨frames, .waiting, reserved.isSome⟩)
      | none => some { s with admitting := some ⟨id, frames, s.pending.size⟩ }
  | .reserve =>
    match s.admitting with
    | none => none
    | some a =>
      match sampled cfg a.frames a.pending s.held with
      | .error _ => some { s with admitting := none }
      | .ok reserved => some { s with
          held := s.held + a.frames
          admitting := none
          requests := s.requests.insert a.id ⟨a.frames, .waiting, reserved.isSome⟩ }
  | .spawn id left =>
    match s.requests.get? id with
    | some ⟨frames, .waiting, reserved⟩ =>
      if left ≤ frames then some (s.setRequest id ⟨frames, .appending left, reserved⟩) else none
    | _ => none
  | .stage id lsn =>
    match s.requests.get? id with
    | some ⟨frames, .appending (left + 1), reserved⟩ => some { s with
        pending := s.pending.insert lsn true
        requests := s.requests.insert id ⟨frames, .appending left, reserved⟩ }
    | _ => none
  | .fail id =>
    match s.requests.get? id with
    | some ⟨frames, .appending _, reserved⟩ =>
        some (s.setRequest id ⟨frames, .appending 0, reserved⟩)
    | _ => none
  | .release id =>
    match s.requests.get? id with
    | some ⟨frames, progress, true⟩ =>
      -- Every exit of a write path comes before its appends have begun or after they have ended.
      if s.admitting = none ∧ (progress = .waiting ∨ progress = .appending 0) then
        some (s.giveBack id ⟨frames, progress, true⟩ .over)
      else none
    | _ => none
  | .cancel id =>
    match s.requests.get? id with
    | some ⟨frames, progress, true⟩ =>
      if s.admitting = none then
        some (s.giveBack id ⟨frames, progress, true⟩ (if progress = .waiting then .over
          else progress))
      else none
    | _ => none
  | .stageOther lsn => some { s with pending := s.pending.insert lsn false }
  | .applyCommitted lsn => some { s with pending := s.pending.filterKeys fun n => lsn < n }
  | .truncate lsn => some { s with pending := s.pending.filterKeys fun n => n ≤ lsn }

def State.staged (s : State) : ℕ := s.pending.total fun admitted => if admitted then 1 else 0

/-- The frames that are reserved for a request and not yet appended. -/
def Request.unappended (r : Request) : ℕ :=
  if r.reserved then
    match r.progress with
    | .waiting => r.frames
    | .appending left => left
    | .over => 0
  else 0

def Request.width (r : Request) : ℕ := if r.reserved then r.frames else 0

def Request.Appending (r : Request) : Prop := ∃ left, r.progress = .appending (left + 1)

def Request.MayAppend (r : Request) : Prop := r.progress = .waiting ∨ r.Appending

/-- The bound holds, a request has its reservation for as long as it may append and none once it is
over, and the count of reserved frames is that of the reservations, so that it is zero without any.
-/
structure WithinBound (cfg : Config) (s : State) : Prop where
  bounded : s.staged + s.requests.total Request.unappended ≤ cfg.maxUncommittedFrames
  covered : ∀ id r, s.requests.get? id = some r → r.MayAppend → r.reserved = true
  released : ∀ id r, s.requests.get? id = some r → r.progress = .over → r.reserved = false
  counted : s.held = s.requests.total Request.width
  emptied : (∀ id r, s.requests.get? id = some r → r.reserved = false) → s.held = 0

def Undisturbed (s : State) : Op → Prop
  | .cancel id => ∀ r, s.requests.get? id = some r → ¬r.Appending
  | _ => True

/-- Nothing is reserved yet, and what is staged from before is within the bound. -/
def Initial (cfg : Config) (s : State) : Prop :=
  s.staged ≤ cfg.maxUncommittedFrames ∧ s.held = 0 ∧ s.admitting = none ∧ s.requests = .empty

/-- What every step keeps: the bound, and while an admission holds the lock, that its sample and the
reserved frames cover all that is staged or still to be appended. -/
structure Inv (cfg : Config) (s : State) : Prop where
  bounded : s.staged + s.requests.total Request.unappended ≤ cfg.maxUncommittedFrames
  covered : ∀ id r, s.requests.get? id = some r → r.MayAppend → r.reserved = true
  released : ∀ id r, s.requests.get? id = some r → r.progress = .over → r.reserved = false
  narrow : ∀ id r left, s.requests.get? id = some r → r.progress = .appending left → left ≤ r.frames
  counted : s.held = s.requests.total Request.width
  locked : ∀ a, s.admitting = some a → s.requests.get? a.id = none ∧
    s.staged + s.requests.total Request.unappended ≤ a.pending + s.held

section Counts

variable {cfg : Config} {s t : State} {id : ℕ} {r : Request}

theorem Inv.withinBound (h : Inv cfg s) : WithinBound cfg s := by
  refine ⟨h.bounded, h.covered, h.released, h.counted, fun hnone => ?_⟩
  rw [h.counted]
  apply SortedMap.total_eq_zero
  intro id r hr
  rw [Request.width, hnone id r hr]
  rfl

theorem staged_le_size (s : State) : s.staged ≤ s.pending.size := by
  rw [← SortedMap.total_one, State.staged]
  apply SortedMap.total_mono
  intro lsn admitted _
  split <;> omega

theorem Inv.unappended_le (h : Inv cfg s) : s.requests.total Request.unappended ≤ s.held := by
  rw [h.counted]
  apply SortedMap.total_mono
  intro id r hr
  unfold Request.unappended Request.width
  split
  · split
    · exact Nat.le_refl _
    · next left hleft => exact h.narrow id r left hr hleft
    · exact Nat.zero_le _
  · exact Nat.le_refl _

theorem staged_insert_true (s : State) (lsn : ℕ) :
    { s with pending := s.pending.insert lsn true }.staged ≤ s.staged + 1 := by
  have htotal := SortedMap.total_insert (fun admitted => if admitted then 1
    else 0) s.pending lsn true
  simp only [State.staged, if_true] at htotal ⊢
  omega

theorem staged_insert_false (s : State) (lsn : ℕ) :
    { s with pending := s.pending.insert lsn false }.staged ≤ s.staged := by
  have htotal := SortedMap.total_insert (fun admitted => if admitted then 1
    else 0) s.pending lsn false
  simp only [State.staged, Bool.false_eq_true, if_false] at htotal ⊢
  omega

theorem staged_filterKeys (s : State) (p : ℕ → Bool) :
    { s with pending := s.pending.filterKeys p }.staged ≤ s.staged := by
  have htotal := SortedMap.total_filterKeys (fun admitted => if admitted then 1 else 0) s.pending p
  simp only [State.staged]
  omega

theorem Inv.drain (h : Inv cfg s) (hstaged : t.staged ≤ s.staged) (hheld : t.held = s.held)
    (hlock : t.admitting = s.admitting) (hrequests : t.requests = s.requests) : Inv cfg t := by
  have hbounded := h.bounded
  constructor
  · rw [hrequests]
    omega
  · rw [hrequests]
    exact h.covered
  · rw [hrequests]
    exact h.released
  · rw [hrequests]
    exact h.narrow
  · rw [hrequests, hheld]
    exact h.counted
  · intro a ha
    obtain ⟨hnew, hsample⟩ := h.locked a (hlock ▸ ha)
    rw [hrequests, hheld]
    exact ⟨hnew, by omega⟩

/-- A step of one request: `r` becomes `r'`, and it moves at most as many frames into the log as it
has fewer left to append. -/
theorem Inv.move (h : Inv cfg s) (hr : s.requests.get? id = some r) {r' : Request}
    (hrequests : t.requests = s.requests.insert id r')
    (hframes : t.staged + r'.unappended ≤ s.staged + r.unappended)
    (hcovered : r'.MayAppend → r'.reserved = true)
    (hover : r'.progress = .over → r'.reserved = false)
    (hnarrow : ∀ left, r'.progress = .appending left → left ≤ r'.frames)
    (hheld : t.held + r.width = s.held + r'.width) (hlock : t.admitting = s.admitting)
    (hfree : t.held = s.held ∨ s.admitting = none) : Inv cfg t := by
  have hunappended := SortedMap.total_replace Request.unappended hr r'
  have hwidth := SortedMap.total_replace Request.width hr r'
  have hbounded := h.bounded
  have hcounted := h.counted
  constructor
  · rw [hrequests]
    omega
  · intro i q hq happending
    rw [hrequests, SortedMap.get?_insert] at hq
    split at hq
    · cases hq
      exact hcovered happending
    · exact h.covered i q hq happending
  · intro i q hq hprogress
    rw [hrequests, SortedMap.get?_insert] at hq
    split at hq
    · cases hq
      exact hover hprogress
    · exact h.released i q hq hprogress
  · intro i q left hq hprogress
    rw [hrequests, SortedMap.get?_insert] at hq
    split at hq
    · cases hq
      exact hnarrow left hprogress
    · exact h.narrow i q left hq hprogress
  · rw [hrequests]
    omega
  · intro a ha
    rw [hlock] at ha
    obtain ⟨hnew, hsample⟩ := h.locked a ha
    have hne : a.id ≠ id := by
      intro heq
      rw [heq, hr] at hnew
      cases hnew
    rw [hrequests, SortedMap.get?_insert, if_neg hne]
    refine ⟨hnew, ?_⟩
    rcases hfree with hsame | hnone
    · omega
    · rw [hnone] at ha
      cases ha

theorem Inv.giveBack (h : Inv cfg s) {frames : ℕ} {progress progress' : Progress}
    (hr : s.requests.get? id = some ⟨frames, progress, true⟩)
    (hidle : ¬(Request.mk frames progress' false).MayAppend)
    (hnarrow : ∀ left, progress' = .appending left → left ≤ frames)
    (hunlocked : s.admitting = none) :
    Inv cfg (s.giveBack id ⟨frames, progress, true⟩ progress') := by
  have hwidth : frames ≤ s.held := by
    have htotal := SortedMap.total_replace Request.width hr ⟨frames, .over, false⟩
    have hcounted := h.counted
    simp only [Request.width, if_true, Bool.false_eq_true, if_false] at htotal
    omega
  refine h.move hr rfl ?_ (fun hmay => (hidle hmay).elim) (fun _ => rfl) hnarrow ?_ rfl
    (.inr hunlocked)
  · exact Nat.add_le_add_left (Nat.zero_le _) s.staged
  · simp only [State.giveBack, Request.width, if_true, Bool.false_eq_true, if_false]
    omega

theorem Inv.reserve (h : Inv cfg s) {frames : ℕ} (hnew : s.requests.get? id = none)
    (hrequests : t.requests = s.requests.insert id ⟨frames, .waiting, true⟩)
    (hpending : t.pending = s.pending)
    (hheld : t.held = s.held + frames) (hlock : t.admitting = none)
    (hroom : s.staged + s.requests.total Request.unappended + frames ≤ cfg.maxUncommittedFrames) :
    Inv cfg t := by
  have hunappended := SortedMap.total_add Request.unappended hnew ⟨frames, .waiting, true⟩
  have hwidth := SortedMap.total_add Request.width hnew ⟨frames, .waiting, true⟩
  have hstaged : t.staged = s.staged := by rw [State.staged, hpending, State.staged]
  simp only [Request.unappended, Request.width, if_true] at hunappended hwidth
  have hcounted := h.counted
  constructor
  · rw [hrequests]
    omega
  · intro i q hq happending
    rw [hrequests, SortedMap.get?_insert] at hq
    split at hq
    · cases hq
      rfl
    · exact h.covered i q hq happending
  · intro i q hq hprogress
    rw [hrequests, SortedMap.get?_insert] at hq
    split at hq
    · cases hq
      cases hprogress
    · exact h.released i q hq hprogress
  · intro i q left hq hprogress
    rw [hrequests, SortedMap.get?_insert] at hq
    split at hq
    · cases hq
      cases hprogress
    · exact h.narrow i q left hq hprogress
  · rw [hrequests]
    omega
  · intro a ha
    rw [hlock] at ha
    cases ha

theorem Inv.arrive (hon : 0 < cfg.maxUncommittedFrames ∧ cfg.replicated = true) (h : Inv cfg s)
    {frames : ℕ} (hstep : step cfg s (.arrive id frames) = some t) : Inv cfg t := by
  have hbounded := h.bounded
  simp only [step] at hstep
  split at hstep
  · cases hstep
  · next hfree =>
    have hunsampled : unsampled cfg frames =
        if cfg.maxUncommittedFrames < frames then some (.error (.tooWide frames)) else none := by
      rw [unsampled, if_neg]
      simp only [hon.2, Bool.true_eq_false, or_false]
      omega
    rw [hunsampled] at hstep
    split at hstep
    · cases hstep
      exact h
    · next hnone =>
      split at hnone
      · cases hnone
      · cases hnone
    · cases hstep
      refine ⟨hbounded, h.covered, h.released, h.narrow, h.counted, fun a ha => ?_⟩
      obtain rfl := Option.some.inj ha
      have hsize := staged_le_size s
      have hle := h.unappended_le
      refine ⟨by simpa using fun hne => hfree (.inr hne), ?_⟩
      exact Nat.add_le_add hsize hle

theorem Inv.admit (h : Inv cfg s) (hstep : step cfg s .reserve = some t) : Inv cfg t := by
  have hbounded := h.bounded
  simp only [step] at hstep
  split at hstep
  · cases hstep
  · next a ha =>
    obtain ⟨hnew, hsample⟩ := h.locked a ha
    split at hstep
    · cases hstep
      exact ⟨hbounded, h.covered, h.released, h.narrow, h.counted, fun a ha => nomatch ha⟩
    · next reserved hsampled =>
      unfold sampled at hsampled
      split at hsampled
      · cases hsampled
      · cases hsampled
        cases hstep
        exact h.reserve hnew rfl rfl rfl rfl (by omega)

theorem Inv.spawn (h : Inv cfg s) {left : ℕ} (hstep : step cfg s (.spawn id left) = some t) :
    Inv cfg t := by
  simp only [step] at hstep
  split at hstep
  · next frames reserved hr =>
    split at hstep
    · next hle =>
      cases hstep
      have hreserved : reserved = true := h.covered id _ hr (.inl rfl)
      subst hreserved
      refine h.move hr rfl ?_ (fun _ => rfl) nofun ?_ rfl rfl (.inl rfl)
      · exact Nat.add_le_add_left hle s.staged
      · intro n hn
        cases hn
        exact hle
    · cases hstep
  · cases hstep

theorem Inv.stage (h : Inv cfg s) {lsn : ℕ} (hstep : step cfg s (.stage id lsn) = some t) :
    Inv cfg t := by
  simp only [step] at hstep
  split at hstep
  · next frames left reserved hr =>
    cases hstep
    have hreserved : reserved = true := h.covered id _ hr (.inr ⟨left, rfl⟩)
    have hnarrow : left + 1 ≤ frames := h.narrow id _ (left + 1) hr rfl
    subst hreserved
    refine h.move hr rfl ?_ (fun _ => rfl) nofun ?_ rfl rfl (.inl rfl)
    · have hinsert := staged_insert_true s lsn
      simp only [Request.unappended, State.staged, if_true] at hinsert ⊢
      omega
    · intro n hn
      cases hn
      dsimp only
      omega
  · cases hstep

theorem Inv.fail (h : Inv cfg s) (hstep : step cfg s (.fail id) = some t) : Inv cfg t := by
  simp only [step] at hstep
  split at hstep
  · next frames left reserved hr =>
    cases hstep
    refine h.move hr rfl ?_ ?_ nofun ?_ rfl rfl (.inl rfl)
    · apply Nat.add_le_add_left
      simp only [Request.unappended]
      split
      · exact Nat.zero_le _
      · exact Nat.le_refl _
    · rintro (hwaiting | ⟨n, hn⟩)
      · cases hwaiting
      · cases hn
    · intro n hn
      cases hn
      exact Nat.zero_le _
  · cases hstep

theorem Inv.cancel (h : Inv cfg s) (hok : Undisturbed s (.cancel id))
    (hstep : step cfg s (.cancel id) = some t) : Inv cfg t := by
  simp only [step] at hstep
  split at hstep
  · next frames progress hr =>
    split at hstep
    · next hunlocked =>
      cases hstep
      have hidle := hok _ hr
      refine h.giveBack hr ?_ ?_ hunlocked
      · rintro (hwaiting | ⟨n, hn⟩)
        · dsimp only at hwaiting
          split at hwaiting
          · cases hwaiting
          · next hne => exact (hne hwaiting).elim
        · dsimp only at hn
          split at hn
          · cases hn
          · exact (hidle ⟨n, hn⟩).elim
      · intro n hn
        split at hn
        · cases hn
        · exact h.narrow id _ n hr hn
    · cases hstep
  · cases hstep

theorem step_inv (hon : 0 < cfg.maxUncommittedFrames ∧ cfg.replicated = true)
    (h : Inv cfg s) {op : Op}
    (hok : Undisturbed s op) (hstep : step cfg s op = some t) : Inv cfg t := by
  cases op with
  | arrive id frames => exact h.arrive hon hstep
  | reserve => exact h.admit hstep
  | spawn id left => exact h.spawn hstep
  | stage id lsn => exact h.stage hstep
  | fail id => exact h.fail hstep
  | release id =>
    simp only [step] at hstep
    split at hstep
    · next frames progress hr =>
      split at hstep
      · next hguard =>
        cases hstep
        refine h.giveBack hr ?_ nofun hguard.1
        rintro (hwaiting | ⟨n, hn⟩)
        · cases hwaiting
        · cases hn
      · cases hstep
    · cases hstep
  | cancel id => exact h.cancel hok hstep
  | stageOther lsn =>
    cases hstep
    exact h.drain (staged_insert_false s lsn) rfl rfl rfl
  | applyCommitted lsn =>
    cases hstep
    exact h.drain (staged_filterKeys s _) rfl rfl rfl
  | truncate lsn =>
    cases hstep
    exact h.drain (staged_filterKeys s _) rfl rfl rfl

/-- A request that is dropped in the middle of its appends has frames that nothing accounts for. -/
theorem uncovered_of_disturbed {op : Op} (hbad : ¬Undisturbed s op)
    (hstep : step cfg s op = some t) : ¬WithinBound cfg t := by
  cases op with
  | cancel id =>
    simp only [Undisturbed, not_forall, not_not] at hbad
    obtain ⟨⟨frames, progress, reserved⟩, hr, left, hleft⟩ := hbad
    obtain rfl : progress = .appending (left + 1) := hleft
    simp only [step, hr] at hstep
    split at hstep
    · next heq =>
      cases heq
      split at hstep
      · cases hstep
        intro hwithin
        have hreserved := hwithin.covered id ⟨frames, .appending (left + 1), false⟩
          (by rw [State.giveBack, SortedMap.get?_insert, if_pos rfl, if_neg nofun])
            (.inr ⟨left, rfl⟩)
        cases hreserved
      · cases hstep
    · cases hstep
  | _ => exact (hbad trivial).elim

theorem Initial.inv (h : Initial cfg s) : Inv cfg s := by
  obtain ⟨hstaged, hheld, hunlocked, hempty⟩ := h
  have hnone : ∀ id, s.requests.get? id = none := by
    intro id
    rw [hempty]
    rfl
  constructor
  · rw [hempty]
    exact hstaged
  · exact fun id r hr => nomatch (hnone id).symm.trans hr
  · exact fun id r hr => nomatch (hnone id).symm.trans hr
  · exact fun id r left hr => nomatch (hnone id).symm.trans hr
  · rw [hheld, hempty]
    rfl
  · exact fun a ha => nomatch hunlocked.symm.trans ha

/-- On a replicated node with a bound, every state of a run is within it, with each reservation held
until its frames are staged or given up and released once, exactly when no request of the run is
dropped while it has frames left to append. -/
theorem within_bound_iff {ops : List Op}
    (hon : 0 < cfg.maxUncommittedFrames ∧ cfg.replicated = true)
    (hinit : Initial cfg s) (hrun : run (step cfg) s ops = some t) :
    (∀ k u, run (step cfg) s (ops.take k) = some u → WithinBound cfg u) ↔
      Meets (step cfg) Undisturbed s ops := by
  have hstep : ∀ s op s', Inv cfg s → step cfg s op = some s' →
    (WithinBound cfg s' ↔ Undisturbed s op) := by
    intro s op s' h hs'
    constructor
    · intro hwithin
      by_contra hbad
      exact uncovered_of_disturbed hbad hs' hwithin
    · intro hok
      exact (step_inv hon h hok hs').withinBound
  have hkeep : ∀ s op s', Inv cfg s → step cfg s op = some s' → WithinBound cfg s' →
    Inv cfg s' := by
    intro s op s' h hs' hwithin
    exact step_inv hon h ((hstep s op s' h hs').mp hwithin) hs'
  exact (meets_iff_throughout_of (fun _ h => h.withinBound) hstep hkeep hrun hinit.inv).symm

end Counts

section Runs

def boundOfTwo : Config := ⟨2, true⟩

def quiet : State := ⟨.empty, 0, none, .empty⟩

theorem initial_quiet : Initial boundOfTwo quiet := ⟨by decide, rfl, rfl, rfl⟩

/-- A bulk write of two documents, and a write that the bound refuses beside it and admits after a
commit. -/
def patientOps : List Op :=
  [.arrive 0 2, .reserve, .spawn 0 2, .stage 0 1, .arrive 1 1, .reserve, .stage 0 2, .release 0,
    .applyCommitted 1, .arrive 1 1, .reserve, .spawn 1 1, .stage 1 3, .release 1]

/-- The client of the bulk write goes away after its first frame, and another bulk write is
admitted. -/
def cancelledOps : List Op :=
  [.arrive 0 2, .reserve, .spawn 0 2, .cancel 0, .arrive 1 2, .reserve, .spawn 1 2, .stage 1 1,
    .stage 1 2, .release 1, .stage 0 3, .stage 0 4]

def afterFlow (ops : List Op) : State := (run (step boundOfTwo) quiet ops).getD quiet

theorem run_patientOps : run (step boundOfTwo) quiet patientOps = some
    (afterFlow patientOps) := by rfl

theorem within_bound_patient : run (step boundOfTwo) quiet patientOps = some
    (afterFlow patientOps) ∧
    ∀ k u, run (step boundOfTwo) quiet (patientOps.take k) = some u → WithinBound boundOfTwo u := by
  refine ⟨run_patientOps, (within_bound_iff (by decide) initial_quiet run_patientOps).mpr ?_⟩
  repeat apply meets_cons trivial rfl
  trivial

/-- Four frames of admitted writes are staged under a bound of two. -/
theorem bound_exceeded : run (step boundOfTwo) quiet cancelledOps = some (afterFlow cancelledOps) ∧
    (afterFlow cancelledOps).staged = 4 ∧
    ¬∀ k u, run (step boundOfTwo) quiet (cancelledOps.take k) = some u →
      WithinBound boundOfTwo u := by
  refine ⟨rfl, rfl, fun hwithin => ?_⟩
  have hbounded : 4 ≤ 2 := (hwithin cancelledOps.length (afterFlow cancelledOps) rfl).bounded
  omega

end Runs

end DewDB.FlowControl
