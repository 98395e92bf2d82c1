import Mathlib.Data.List.Induction
import Mathlib.Logic.Function.Basic
import DewDB.Precondition

/-!
# The index and the staged frames over it

A collection publishes committed frames in its index and keeps the ones above the watermark staged.
A key is looked up in the staged frames first, newest first, and in the index if none touches it.
-/
namespace DewDB.StagedOverlay

open Precondition

variable {K V : Type}

structure IndexEntry (V : Type) where
  version : Version
  value : V
  expireAt : Option Nat

/-- What a log entry does to the keys. `nothing` is a barrier or an entry of the collection's own.
-/
inductive Change (K V : Type) where
  | put (key : K) (value : V) (expireAt : Option Nat)
  | remove (key : K)
  | clear
  | nothing
  deriving DecidableEq

structure Frame (K V : Type) where
  lsn : Nat
  term : Nat
  change : Change K V
  deriving DecidableEq

abbrev Index (K V : Type) := K → Option (IndexEntry V)

def Frame.version (f : Frame K V) : Version := ⟨f.term, f.lsn⟩

def Change.touches [DecidableEq K] (c : Change K V) (k : K) : Bool :=
  match c with
  | .put key _ _ => key == k
  | .remove key => key == k
  | .clear => true
  | .nothing => false

/-- What a frame leaves for `k`: nothing if it does not touch it, else the entry or its absence. -/
def Frame.resolve [DecidableEq K] (f : Frame K V) (k : K) : Option (Option (IndexEntry V)) :=
  match f.change with
  | .put key value expireAt => if key = k then some (some ⟨f.version, value, expireAt⟩) else none
  | .remove key => if key = k then some none else none
  | .clear => some none
  | .nothing => none

/-- The newest staged effect on `k`. -/
def overlay [DecidableEq K] (pending : List (Frame K V)) (k : K) : Option (Option (IndexEntry V)) :=
  pending.reverse.findSome? fun f => f.resolve k

def applyFrame [DecidableEq K] (index : Index K V) (f : Frame K V) : Index K V :=
  match f.change with
  | .put key value expireAt => Function.update index key (some ⟨f.version, value, expireAt⟩)
  | .remove key => Function.update index key none
  | .clear => fun _ => none
  | .nothing => index

def replay [DecidableEq K] (index : Index K V) (frames : List (Frame K V)) : Index K V :=
  frames.foldl applyFrame index

/-- The entry a whole log leaves for `k`. -/
def newest [DecidableEq K] (log : List (Frame K V)) (k : K) : Option (IndexEntry V) :=
  replay (fun _ => none) log k

theorem split_at_lsn {frames : List (Frame K V)} (h : frames.Pairwise fun a b => a.lsn < b.lsn)
    (lsn : Nat) :
    frames.filter (fun f => f.lsn ≤ lsn) ++ frames.filter (fun f => lsn < f.lsn) = frames := by
  induction frames with
  | nil => rfl
  | cons f frames ih =>
    obtain ⟨hf, hrest⟩ := List.pairwise_cons.mp h
    by_cases hle : f.lsn ≤ lsn
    · have hlt : ¬ lsn < f.lsn := by omega
      simp [hle, hlt, ih hrest]
    · -- nothing above the watermark is followed by anything below it
      have hlow : frames.filter (fun g => g.lsn ≤ lsn) = [] :=
        List.filter_eq_nil_iff.mpr fun g hg => by
          have := hf g hg
          simp only [decide_eq_true_eq]
          omega
      have hrest' := ih hrest
      rw [hlow, List.nil_append] at hrest'
      have hlt : lsn < f.lsn := by omega
      simp [hle, hlt, hlow, hrest']

section Lookup

variable [DecidableEq K]

theorem resolve_eq_none_iff {f : Frame K V} {k : K} :
    f.resolve k = none ↔ f.change.touches k = false := by
  obtain ⟨lsn, term, change⟩ := f
  cases change <;> simp [Frame.resolve, Change.touches]

theorem applyFrame_apply (index : Index K V) (f : Frame K V) (k : K) :
    applyFrame index f k = (f.resolve k).getD (index k) := by
  obtain ⟨lsn, term, change⟩ := f
  cases change with
  | put key value expireAt =>
    by_cases h : key = k
    · simp [applyFrame, Frame.resolve, h]
    · simp [applyFrame, Frame.resolve, h, Function.update_of_ne (Ne.symm h)]
  | remove key =>
    by_cases h : key = k
    · simp [applyFrame, Frame.resolve, h]
    · simp [applyFrame, Frame.resolve, h, Function.update_of_ne (Ne.symm h)]
  | clear => rfl
  | nothing => rfl

theorem replay_append (index : Index K V) (a b : List (Frame K V)) :
    replay index (a ++ b) = replay (replay index a) b :=
  List.foldl_append

theorem overlay_concat (pending : List (Frame K V)) (f : Frame K V) (k : K) :
    overlay (pending ++ [f]) k = (f.resolve k).or (overlay pending k) := by
  simp only [overlay, List.reverse_append, List.reverse_singleton, List.singleton_append,
    List.findSome?_cons]
  cases f.resolve k <;> rfl

/-- Looking through the staged frames first finds what committing them all would publish. -/
theorem replay_apply (index : Index K V) (pending : List (Frame K V)) (k : K) :
    replay index pending k = (overlay pending k).getD (index k) := by
  induction pending using List.reverseRecOn with
  | nil => rfl
  | append_singleton pending f ih =>
    rw [replay_append, overlay_concat]
    change applyFrame (replay index pending) f k = _
    rw [applyFrame_apply, ih]
    cases f.resolve k <;> rfl

theorem newest_append (a b : List (Frame K V)) (k : K) :
    newest (a ++ b) k = (overlay b k).getD (newest a k) := by
  rw [newest, replay_append, replay_apply]
  rfl

theorem newest_concat (log : List (Frame K V)) (f : Frame K V) (k : K) :
    newest (log ++ [f]) k = (f.resolve k).getD (newest log k) := by
  rw [newest, replay_append]
  exact applyFrame_apply _ f k

theorem newest_concat_of_untouched {log : List (Frame K V)} {f : Frame K V} {k : K}
    (h : f.change.touches k = false) : newest (log ++ [f]) k = newest log k := by
  rw [newest_concat, resolve_eq_none_iff.mpr h]
  rfl

theorem resolve_lsn {f : Frame K V} {k : K} {e : IndexEntry V} (h : f.resolve k = some (some e)) :
    e.version.lsn = f.lsn := by
  obtain ⟨lsn, term, change⟩ := f
  cases change with
  | put key value expireAt =>
    simp only [Frame.resolve] at h
    split at h
    · cases h
      rfl
    · cases h
  | remove key =>
    simp only [Frame.resolve] at h
    split at h <;> cases h
  | clear => cases h
  | nothing => cases h

theorem exists_lsn_of_newest {log : List (Frame K V)} {k : K} {e : IndexEntry V}
    (h : newest log k = some e) : ∃ f ∈ log, f.lsn = e.version.lsn := by
  induction log using List.reverseRecOn with
  | nil => cases h
  | append_singleton log f ih =>
    rw [newest_concat] at h
    cases hf : f.resolve k with
    | none =>
      rw [hf] at h
      obtain ⟨g, hg, hlsn⟩ := ih h
      exact ⟨g, List.mem_append_left _ hg, hlsn⟩
    | some r =>
      rw [hf, Option.getD_some] at h
      subst h
      exact ⟨f, by simp, (resolve_lsn hf).symm⟩

/-- In a log of rising LSNs no frame that touches a key is above the key's newest entry. -/
theorem lsn_le_newest {log : List (Frame K V)} {k : K} {e : IndexEntry V} {f : Frame K V}
    (hsorted : log.Pairwise fun a b => a.lsn < b.lsn) (hf : f ∈ log)
    (htouch : f.change.touches k = true) (h : newest log k = some e) : f.lsn ≤ e.version.lsn := by
  induction log using List.reverseRecOn with
  | nil => cases hf
  | append_singleton log g ih =>
    obtain ⟨hlog, -, hlt⟩ := List.pairwise_append.mp hsorted
    have hlt : ∀ a ∈ log, a.lsn < g.lsn := fun a ha => hlt a ha g (by simp)
    rw [newest_concat] at h
    cases hg : g.resolve k with
    | none =>
      rw [hg] at h
      have hmem : f ∈ log := by
        rcases List.mem_append.mp hf with hf | hf
        · exact hf
        · rw [List.mem_singleton.mp hf] at htouch
          rw [resolve_eq_none_iff.mp hg] at htouch
          cases htouch
      exact ih hlog hmem h
    | some r =>
      rw [hg, Option.getD_some] at h
      subst h
      rw [resolve_lsn hg]
      rcases List.mem_append.mp hf with hf | hf
      · exact (hlt f hf).le
      · rw [List.mem_singleton.mp hf]

theorem overlay_eq_none_iff {pending : List (Frame K V)} {k : K} :
    overlay pending k = none ↔ ∀ f ∈ pending, f.change.touches k = false := by
  simp [overlay, List.findSome?_eq_none_iff, resolve_eq_none_iff]

end Lookup

end DewDB.StagedOverlay
