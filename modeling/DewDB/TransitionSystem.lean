import Mathlib.Algebra.Ring.Nat
import Mathlib.Data.List.Basic

/-!
# Runs of a partial transition function

A system is a function `step` that takes a state and a label to the next state, or to `none` when
the label is not enabled. Invariants of a run are proved from what one step preserves; a condition
on the steps of a run is carried along with it.
-/
namespace DewDB.TransitionSystem

instance (priority := 2000) instNeZeroThree : NeZero (3 : ℕ) := ⟨Nat.succ_ne_zero 2⟩

instance (priority := 2000) instNeZeroFive : NeZero (5 : ℕ) := ⟨Nat.succ_ne_zero 4⟩

variable {σ α : Type*} {step : σ → α → Option σ}

/-- Takes the labels in order; `none` as soon as one of them is not enabled. -/
def run (step : σ → α → Option σ) : σ → List α → Option σ
  | s, [] => some s
  | s, a :: as => (step s a).bind fun s' => run step s' as

/-- Every step that the labels take from `s` meets `ok`. -/
def Meets (step : σ → α → Option σ) (ok : σ → α → Prop) : σ → List α → Prop
  | _, [] => True
  | s, a :: as => ok s a ∧ ∀ s', step s a = some s' → Meets step ok s' as

def trace (step : σ → α → Option σ) : σ → List α → List σ
  | s, [] => [s]
  | s, a :: as => s :: (step s a).elim [] fun s' => trace step s' as

/-- Some run from an initial state ends in `s`. -/
def Reachable (init : σ → Prop) (step : σ → α → Option σ) (s : σ) : Prop :=
  ∃ s₀ as, init s₀ ∧ run step s₀ as = some s

theorem run_nil {s s' : σ} : run step s [] = some s' ↔ s = s' := Option.some_inj

theorem run_cons {s s'' : σ} {a : α} {as : List α} :
    run step s (a :: as) = some s'' ↔ ∃ s', step s a = some s' ∧ run step s' as = some s'' :=
  Option.bind_eq_some_iff

theorem run_singleton {s s' : σ} {a : α} (h : step s a = some s') : run step s [a] = some s' :=
  run_cons.mpr ⟨s', h, run_nil.mpr rfl⟩

theorem trace_cons {s s' : σ} {a : α} {as : List α} (h : step s a = some s') :
    trace step s (a :: as) = s :: trace step s' as := by
  have hfirst : trace step s (a :: as) = s :: (step s a).elim [] fun t => trace step t as := rfl
  rw [hfirst, h, Option.elim_some]

theorem run_append {s s'' : σ} {as bs : List α} :
    run step s (as ++ bs) = some s'' ↔
      ∃ s', run step s as = some s' ∧ run step s' bs = some s'' := by
  induction as generalizing s with
  | nil => simp only [List.nil_append, run_nil, exists_eq_left']
  | cons a as ih =>
    simp only [List.cons_append, run_cons, ih]
    constructor
    · rintro ⟨s₁, h₁, s₂, h₂, h₃⟩
      exact ⟨s₂, ⟨s₁, h₁, h₂⟩, h₃⟩
    · rintro ⟨s₂, ⟨s₁, h₁, h₂⟩, h₃⟩
      exact ⟨s₁, h₁, s₂, h₂, h₃⟩

theorem run_invariant_of_meets {ok : σ → α → Prop} {I : σ → Prop}
    (hstep : ∀ s a s', I s → ok s a → step s a = some s' → I s') {s s' : σ} {as : List α}
    (hrun : run step s as = some s') (hok : Meets step ok s as) (hs : I s) : I s' := by
  induction as generalizing s with
  | nil =>
    obtain rfl := run_nil.mp hrun
    exact hs
  | cons a as ih =>
    obtain ⟨t, ht, hrest⟩ := run_cons.mp hrun
    exact ih hrest (hok.2 t ht) (hstep s a t hs hok.1 ht)

theorem meets_of_run {ok P : σ → α → Prop} {I : σ → Prop}
    (hstep : ∀ s a s', I s → ok s a → step s a = some s' → P s a ∧ I s') {s s' : σ} {as : List α}
    (hrun : run step s as = some s') (hok : Meets step ok s as) (hs : I s) : Meets step P s as := by
  induction as generalizing s with
  | nil => trivial
  | cons a as ih =>
    obtain ⟨t, ht, hrest⟩ := run_cons.mp hrun
    obtain ⟨hP, hI⟩ := hstep s a t hs hok.1 ht
    refine ⟨hP, fun t' ht' => ?_⟩
    obtain rfl : t = t' := Option.some.inj (ht.symm.trans ht')
    exact ih hrest (hok.2 t ht) hI

/-- The run rule for an invariant that speaks of the states that the run has passed. -/
theorem run_invariant_trace {ok : σ → α → Prop} {I : List σ → σ → Prop}
    (hstep : ∀ seen s a s', I seen s → ok s a → step s a = some s' → I (seen ++ [s']) s')
    {s s' : σ} {as : List α}
    (hrun : run step s as = some s') (hok : Meets step ok s as) {seen : List σ}
    (hs : I (seen ++ [s]) s) : I (seen ++ trace step s as) s' := by
  induction as generalizing s seen with
  | nil =>
    obtain rfl := run_nil.mp hrun
    exact hs
  | cons a as ih =>
    obtain ⟨t, ht, hrest⟩ := run_cons.mp hrun
    have htrace := ih hrest (hok.2 t ht) (hstep _ s a t hs hok.1 ht)
    rwa [trace_cons ht, ← List.singleton_append, ← List.append_assoc]

/-- Deciding the condition along a run by taking its steps. -/
instance decidableMeets {ok : σ → α → Prop} [∀ s a, Decidable (ok s a)] :
    ∀ (s : σ) (as : List α), Decidable (Meets step ok s as)
  | _, [] => isTrue trivial
  | s, a :: as =>
    match h : step s a with
    | none => decidable_of_iff (ok s a) ⟨fun hok =>
        ⟨hok, fun s' hs' => by simp [h] at hs'⟩, And.left⟩
    | some s' =>
      let _ : Decidable (Meets step ok s' as) := decidableMeets s' as
      decidable_of_iff (ok s a ∧ Meets step ok s' as)
        ⟨fun hok => ⟨hok.1, fun t ht => Option.some.inj (h.symm.trans ht) ▸ hok.2⟩,
          fun hok => ⟨hok.1, hok.2 s' h⟩⟩

theorem meets_append {ok : σ → α → Prop} {s s' : σ} {as bs : List α} (has : Meets step ok s as)
    (hrun : run step s as = some s') (hbs : Meets step ok s' bs) : Meets step ok s (as ++ bs) := by
  induction as generalizing s with
  | nil =>
    obtain rfl := run_nil.mp hrun
    exact hbs
  | cons a as ih =>
    obtain ⟨t, ht, hrest⟩ := run_cons.mp hrun
    refine ⟨has.1, fun t' ht' => ?_⟩
    obtain rfl : t = t' := Option.some.inj (ht.symm.trans ht')
    exact ih (has.2 t ht) hrest

theorem meets_cons {ok : σ → α → Prop} {s s' : σ} {a : α} {as : List α} (hok : ok s a)
    (hstep : step s a = some s') (h : Meets step ok s' as) : Meets step ok s (a :: as) :=
  ⟨hok, fun _ ht => Option.some.inj (hstep.symm.trans ht) ▸ h⟩

theorem meets_prefix {ok : σ → α → Prop} {s : σ} {as bs : List α} (h : Meets step ok s (as ++ bs)) :
    Meets step ok s as := by
  induction as generalizing s with
  | nil => trivial
  | cons a as ih => exact ⟨h.1, fun s' hs' => ih (h.2 s' hs')⟩

theorem meets_of_append {ok : σ → α → Prop} {s s' : σ} {as bs : List α}
    (h : Meets step ok s (as ++ bs)) (hrun : run step s as = some s') : Meets step ok s' bs := by
  induction as generalizing s with
  | nil =>
    obtain rfl := run_nil.mp hrun
    exact h
  | cons a as ih =>
    obtain ⟨t, ht, hrest⟩ := run_cons.mp hrun
    exact ih (h.2 t ht) hrest

theorem meets_and {ok ok' : σ → α → Prop} {s : σ} {as : List α} (h : Meets step ok s as)
    (h' : Meets step ok' s as) : Meets step (fun s a => ok s a ∧ ok' s a) s as := by
  induction as generalizing s with
  | nil => trivial
  | cons a as ih => exact ⟨⟨h.1, h'.1⟩, fun s' hs' => ih (h.2 s' hs') (h'.2 s' hs')⟩

theorem meets_imp {ok ok' : σ → α → Prop} (himp : ∀ s a, ok s a → ok' s a) {s : σ} {as : List α}
    (h : Meets step ok s as) : Meets step ok' s as := by
  induction as generalizing s with
  | nil => trivial
  | cons a as ih => exact ⟨himp s a h.1, fun s' hs' => ih (h.2 s' hs')⟩

theorem meets_true {s : σ} {as : List α} : Meets step (fun _ _ => True) s as := by
  induction as generalizing s with
  | nil => trivial
  | cons a as ih => exact ⟨trivial, fun _ _ => ih⟩

/-- Where a step keeps `I` just if it meets the condition, a run keeps it throughout just if all its
steps do. -/
theorem meets_iff_throughout {ok : σ → α → Prop} {I : σ → Prop}
    (hstep : ∀ s a s', I s → step s a = some s' → (I s' ↔ ok s a)) {s s' : σ} {as : List α}
    (hrun : run step s as = some s') (hs : I s) :
    Meets step ok s as ↔ ∀ k t, run step s (as.take k) = some t → I t := by
  induction as generalizing s with
  | nil =>
    refine ⟨fun _ k t ht => ?_, fun _ => trivial⟩
    rw [List.take_nil] at ht
    obtain rfl := run_nil.mp ht
    exact hs
  | cons a as ih =>
    obtain ⟨u, hu, hrest⟩ := run_cons.mp hrun
    constructor
    · intro hok k t ht
      have hIu : I u := (hstep s a u hs hu).mpr hok.1
      cases k with
      | zero =>
        obtain rfl := run_nil.mp ht
        exact hs
      | succ k =>
        obtain ⟨u', hu', ht⟩ := run_cons.mp (List.take_succ_cons ▸ ht)
        obtain rfl : u = u' := Option.some.inj (hu.symm.trans hu')
        exact (ih hrest hIu).mp (hok.2 u hu) k t ht
    · intro hI
      have hIu : I u := hI 1 u (run_singleton hu)
      refine ⟨(hstep s a u hs hu).mp hIu, fun u' hu' => ?_⟩
      obtain rfl : u = u' := Option.some.inj (hu.symm.trans hu')
      refine (ih hrest hIu).mpr fun k t ht => hI (k + 1) t ?_
      rw [List.take_succ_cons]
      exact run_cons.mpr ⟨u, hu, ht⟩

/-- The rule for a part `P` of an invariant: where `I` holds, a step keeps `P` just if it meets the
condition, and what keeps `P` keeps `I`. -/
theorem meets_iff_throughout_of {ok : σ → α → Prop} {I P : σ → Prop} (hIP : ∀ s, I s → P s)
    (hstep : ∀ s a s', I s → step s a = some s' → (P s' ↔ ok s a))
    (hkeep : ∀ s a s', I s → step s a = some s' → P s' → I s') {s s' : σ} {as : List α}
    (hrun : run step s as = some s') (hs : I s) :
    Meets step ok s as ↔ ∀ k t, run step s (as.take k) = some t → P t := by
  have hstep' : ∀ s a s', I s → step s a = some s' → (I s' ↔ ok s a) := fun s a s' hI h =>
    ⟨fun hI' => (hstep s a s' hI h).mp (hIP s' hI'), fun hok =>
      hkeep s a s' hI h ((hstep s a s' hI h).mpr hok)⟩
  refine ⟨fun hok k t ht => hIP t ((meets_iff_throughout hstep' hrun hs).mp hok k t ht), fun hP =>
    ?_⟩
  induction as generalizing s with
  | nil => trivial
  | cons a as ih =>
    obtain ⟨u, hu, hrest⟩ := run_cons.mp hrun
    have hPu : P u := hP 1 u (run_singleton hu)
    refine ⟨(hstep s a u hs hu).mp hPu, fun u' hu' => ?_⟩
    obtain rfl : u = u' := Option.some.inj (hu.symm.trans hu')
    refine ih hrest (hkeep s a u hs hu hPu) fun k t ht => hP (k + 1) t ?_
    rw [List.take_succ_cons]
    exact run_cons.mpr ⟨u, hu, ht⟩

theorem run_invariant {I : σ → Prop} (hstep : ∀ s a s', I s → step s a = some s' → I s')
    {s s' : σ} {as : List α} (hrun : run step s as = some s') (hs : I s) : I s' :=
  run_invariant_of_meets (fun s a s' hI _ => hstep s a s' hI) hrun meets_true hs

theorem Reachable.invariant {init : σ → Prop} {I : σ → Prop} (hinit : ∀ s, init s → I s)
    (hstep : ∀ s a s', I s → step s a = some s' → I s') {s : σ} (h : Reachable init step s) :
    I s := by
  obtain ⟨s₀, as, h₀, hrun⟩ := h
  exact run_invariant hstep hrun (hinit s₀ h₀)

end DewDB.TransitionSystem
