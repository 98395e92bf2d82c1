import Mathlib.Data.List.Induction
import Mathlib.Data.List.TakeDrop
import Mathlib.Logic.Function.Basic

/-!
# The log of a replication group

One log stands for a group: the one its leader holds, with the committed prefix that no leader
change removes. Every node has applied a prefix of it. A fact about a key is pinned at a committed
position when it holds there and what follows keeps to it.
-/
namespace DewDB.GroupLog

variable {K V : Type}

/-- Who wrote an entry: a client, the copy or the reset of a handover, or the cleanup after it. -/
inductive Origin where
  | client
  | handover
  | cleanup
  deriving DecidableEq

structure Entry (K V : Type) where
  key : K
  value : Option V
  origin : Origin
  deriving DecidableEq

/-- What a log leaves for `k`. -/
def lookup [DecidableEq K] (log : List (Entry K V)) (k : K) : Option V :=
  log.foldl (fun v e => if e.key = k then e.value else v) none

/-- `led` are the nodes that ever led, any of which may still take itself for the leader; `ever`
keeps the entries that any of them has appended, also the ones a leader change left out. -/
structure ShardGroup (K V : Type) (φ : Type) where
  log : List (Entry K V)
  committed : Nat
  applied : Nat → Nat
  leader : Nat
  led : List Nat
  epoch : Nat
  view : Nat → φ
  ever : List (Entry K V)

namespace ShardGroup

variable {φ : Type}

def read [DecidableEq K] (g : ShardGroup K V φ) (n : Nat) (k : K) : Option V :=
  lookup (g.log.take (g.applied n)) k

/-- The node appends to its own log, which is the group's if it leads the group. -/
def appendAt (g : ShardGroup K V φ) (n : Nat) (es : List (Entry K V)) : ShardGroup K V φ :=
  { g with log := if n = g.leader then g.log ++ es else g.log, ever := g.ever ++ es }

/-- The leader learns that a majority holds the first `c` entries, and applies them. -/
def commit (g : ShardGroup K V φ) (c : Nat) : Option (ShardGroup K V φ) :=
  if g.committed ≤ c ∧ c ≤ g.log.length then
    some { g with committed := c, applied := Function.update g.applied g.leader c }
  else none

def learn (g : ShardGroup K V φ) (n c : Nat) : Option (ShardGroup K V φ) :=
  if g.applied n ≤ c ∧ c ≤ g.committed then
    some { g with applied := Function.update g.applied n c }
  else none

/-- A new leader holds all that is committed, a part of the rest, and uncommitted entries of its
own. -/
def elect [DecidableEq K] [DecidableEq V] (g : ShardGroup K V φ) (n keep : Nat)
    (tail : List (Entry K V)) : Option (ShardGroup K V φ) :=
  if g.committed ≤ keep ∧ ∀ e ∈ tail, e ∈ g.ever then
    some { g with log := g.log.take keep ++ tail, leader := n, led :=
      n :: g.led, epoch := g.epoch + 1 }
  else none

end ShardGroup

section Lookup

variable [DecidableEq K]

theorem lookup_concat (log : List (Entry K V)) (e : Entry K V) (k : K) :
    lookup (log ++ [e]) k = if e.key = k then e.value else lookup log k := by
  simp [lookup]

theorem lookup_append_of_forall {a b : List (Entry K V)} {k : K} (h : ∀ e ∈ b, e.key ≠ k) :
    lookup (a ++ b) k = lookup a k := by
  induction b using List.reverseRecOn with
  | nil => simp
  | append_singleton b e ih =>
    rw [← List.append_assoc, lookup_concat, if_neg (h e (by simp))]
    exact ih fun e' he' => h e' (List.mem_append_left _ he')

theorem lookup_filter {log : List (Entry K V)} {k : K} {p : Entry K V → Bool}
    (h : ∀ e ∈ log, e.key = k → p e) : lookup (log.filter p) k = lookup log k := by
  induction log using List.reverseRecOn with
  | nil => rfl
  | append_singleton log e ih =>
    have hrest : lookup (log.filter p) k = lookup log k :=
      ih fun e' he' => h e' (List.mem_append_left _ he')
    by_cases he : e.key = k
    · have hp : p e = true := h e (by simp) he
      simp only [List.filter_append, List.filter_cons, hp, if_true, List.filter_nil, lookup_concat,
        if_pos he]
    · rw [lookup_concat, if_neg he, List.filter_append, lookup_append_of_forall, hrest]
      intro e' he'
      rw [List.mem_singleton.mp (List.mem_filter.mp he').1]
      exact he

theorem lookup_append_cases (a b : List (Entry K V)) (k : K) :
    lookup (a ++ b) k = lookup a k ∨ ∃ e ∈ b, e.key = k ∧ lookup (a ++ b) k = e.value := by
  induction b using List.reverseRecOn with
  | nil => exact .inl (by simp)
  | append_singleton b e ih =>
    rw [← List.append_assoc, lookup_concat]
    by_cases he : e.key = k
    · rw [if_pos he]
      exact .inr ⟨e, by simp, he, rfl⟩
    · rw [if_neg he]
      rcases ih with ih | ⟨e', he', hk, hv⟩
      · exact .inl ih
      · exact .inr ⟨e', List.mem_append_left _ he', hk, hv⟩

theorem lookup_append_eq {a b : List (Entry K V)} {k : K} {v : Option V} (ha : lookup a k = v)
    (hb : ∀ e ∈ b, e.key = k → e.value = v) : lookup (a ++ b) k = v := by
  rcases lookup_append_cases a b k with h | ⟨e, he, hk, h⟩
  · rw [h, ha]
  · rw [h, hb e he hk]

theorem lookup_append_eq_of_mem {a b : List (Entry K V)} {k : K} {v : Option V}
    (hb : ∀ e ∈ b, e.key = k → e.value = v) (hmem : ∃ e ∈ b, e.key = k) :
    lookup (a ++ b) k = v := by
  obtain ⟨e, he, hek⟩ := hmem
  obtain ⟨l, r, rfl⟩ := List.append_of_mem he
  have hsplit : a ++ (l ++ e :: r) = (a ++ l ++ [e]) ++ r := by simp
  rw [hsplit]
  refine lookup_append_eq ?_ fun e' he' => hb e' (by simp [he'])
  rw [lookup_concat, if_pos hek]
  exact hb e he hek

theorem lookup_append_of_mem {a b : List (Entry K V)} {k : K} (h : ∃ e ∈ b, e.key = k) :
    lookup (a ++ b) k = lookup b k := by
  induction b using List.reverseRecOn with
  | nil => simp at h
  | append_singleton b e ih =>
    rw [← List.append_assoc, lookup_concat, lookup_concat]
    by_cases he : e.key = k
    · rw [if_pos he, if_pos he]
    · rw [if_neg he, if_neg he]
      obtain ⟨e', he', hk⟩ := h
      rcases List.mem_append.mp he' with he' | he'
      · exact ih ⟨e', he', hk⟩
      · rw [List.mem_singleton.mp he'] at hk
        exact absurd hk he

theorem exists_key_of_lookup {log : List (Entry K V)} {k : K} {v : V} (h : lookup log k = some v) :
    k ∈ log.map Entry.key := by
  rcases lookup_append_cases [] log k with h' | ⟨e, he, rfl, -⟩
  · rw [List.nil_append, h] at h'
    cases h'
  · exact List.mem_map_of_mem he

end Lookup

section Advance

variable {φ : Type} {g g' : ShardGroup K V φ} {tail : List (Entry K V)}

namespace ShardGroup

/-- Nodes apply what is committed, and what is committed is in the log. -/
structure Wf (g : ShardGroup K V φ) : Prop where
  committed : g.committed ≤ g.log.length
  applied : ∀ n, g.applied n ≤ g.committed

/-- The log keeps what is committed and gains `tail`; only a leader change takes anything off it. -/
structure Advances (g g' : ShardGroup K V φ) (tail : List (Entry K V)) : Prop where
  committed : g.committed ≤ g'.committed
  applied : ∀ n, g.applied n ≤ g'.applied n
  log : (g'.epoch = g.epoch ∧ g'.log = g.log ++ tail) ∨
    (g'.epoch = g.epoch + 1 ∧ ∃ keep, g.committed ≤ keep ∧ g'.log = g.log.take keep ++ tail)

theorem Advances.of_eq (hlog : g'.log = g.log) (hcommitted : g'.committed = g.committed)
    (happlied : g'.applied = g.applied) (hepoch : g'.epoch = g.epoch) : Advances g g' [] :=
  ⟨by omega, fun n => by simp [happlied], .inl ⟨hepoch, by rw [hlog, List.append_nil]⟩⟩

theorem Advances.of_same (h : g' = g) : Advances g g' [] :=
  .of_eq (by rw [h]) (by rw [h]) (by rw [h]) (by rw [h])

theorem Wf.of_eq (h : g.Wf) (hlog : g'.log = g.log) (hcommitted : g'.committed = g.committed)
    (happlied : g'.applied = g.applied) : g'.Wf :=
  ⟨by rw [hlog, hcommitted]; exact h.committed, by rw [happlied, hcommitted]; exact h.applied⟩

theorem commit_spec {u : Nat} (h : g.commit u = some g') (hg : g.Wf) :
    g'.Wf ∧ Advances g g' [] := by
  simp only [commit, Option.ite_none_right_eq_some, Option.some.injEq] at h
  obtain ⟨⟨hle, hlen⟩, rfl⟩ := h
  have happlied : ∀ n, g.applied n ≤ Function.update g.applied g.leader u n ∧
      Function.update g.applied g.leader u n ≤ u := by
    intro n
    have := hg.applied n
    by_cases hn : n = g.leader
    · subst hn
      simp only [Function.update_self]
      omega
    · simp only [Function.update_of_ne hn]
      omega
  exact ⟨⟨hlen, fun n => (happlied n).2⟩, hle, fun n => (happlied n).1, .inl ⟨rfl, by simp⟩⟩

theorem learn_spec {n u : Nat} (h : g.learn n u = some g') (hg : g.Wf) :
    g'.Wf ∧ Advances g g' [] := by
  simp only [learn, Option.ite_none_right_eq_some, Option.some.injEq] at h
  obtain ⟨⟨hle, hcommitted⟩, rfl⟩ := h
  have happlied : ∀ m, g.applied m ≤ Function.update g.applied n u m ∧
      Function.update g.applied n u m ≤ g.committed := by
    intro m
    have := hg.applied m
    by_cases hm : m = n
    · subst hm
      simp only [Function.update_self]
      omega
    · simp only [Function.update_of_ne hm]
      omega
  exact ⟨⟨hg.committed, fun m => (happlied m).2⟩, Nat.le_refl _, fun m => (happlied m).1,
    .inl ⟨rfl, by simp⟩⟩

theorem elect_spec [DecidableEq K] [DecidableEq V] {n keep : Nat}
    (h : g.elect n keep tail = some g') (hg : g.Wf) :
    g'.Wf ∧ Advances g g' tail ∧ ∀ e ∈ tail, e ∈ g.ever := by
  simp only [elect, Option.ite_none_right_eq_some, Option.some.injEq] at h
  obtain ⟨⟨hkeep, hever⟩, rfl⟩ := h
  refine ⟨⟨?_, hg.applied⟩, ⟨Nat.le_refl _, fun _ => Nat.le_refl _, .inr ⟨rfl, keep, hkeep, rfl⟩⟩,
    hever⟩
  have := hg.committed
  simp only [List.length_append, List.length_take]
  omega

theorem appendAt_spec (g : ShardGroup K V φ) (n : Nat) (es : List (Entry K V)) (hg : g.Wf) :
    (g.appendAt n es).Wf ∧ Advances g (g.appendAt n es) (if n = g.leader then es else []) := by
  by_cases hn : n = g.leader
  · refine ⟨⟨?_, hg.applied⟩, Nat.le_refl _, fun _ => Nat.le_refl _,
      .inl ⟨rfl, by simp [appendAt, hn]⟩⟩
    have := hg.committed
    simp only [appendAt, if_pos hn, List.length_append]
    omega
  · refine ⟨⟨?_, hg.applied⟩, Nat.le_refl _, fun _ => Nat.le_refl _,
      .inl ⟨rfl, by simp [appendAt, hn]⟩⟩
    simp only [appendAt, if_neg hn]
    exact hg.committed

theorem Advances.exists_keep (h : Advances g g' tail) (hg : g.Wf) :
    ∃ keep, g.committed ≤ keep ∧ g'.log = g.log.take keep ++ tail := by
  rcases h.log with ⟨-, hlog⟩ | ⟨-, hkeep⟩
  · exact ⟨g.log.length, hg.committed, by rw [hlog, List.take_length]⟩
  · exact hkeep

theorem Advances.take_eq (h : Advances g g' tail) (hg : g.Wf) {u : Nat} (hle : u ≤ g.committed) :
    g'.log.take u = g.log.take u := by
  obtain ⟨keep, hkeep, hlog⟩ := h.exists_keep hg
  have hlen : u ≤ (g.log.take keep).length := by
    have := hg.committed
    rw [List.length_take]
    omega
  rw [hlog, List.take_append_of_le_length hlen, List.take_take]
  congr 1
  omega

theorem Advances.mem_drop (h : Advances g g' tail) (hg : g.Wf) {u : Nat} (hle : u ≤ g.committed)
    {e : Entry K V} (he : e ∈ g'.log.drop u) : e ∈ g.log.drop u ∨ e ∈ tail := by
  obtain ⟨keep, hkeep, hlog⟩ := h.exists_keep hg
  have hlen : u ≤ (g.log.take keep).length := by
    have := hg.committed
    rw [List.length_take]
    omega
  rw [hlog, List.drop_append_of_le_length hlen] at he
  rcases List.mem_append.mp he with he | he
  · rw [List.drop_take] at he
    exact .inl (List.mem_of_mem_take he)
  · exact .inr he

theorem Advances.mem_log (h : Advances g g' tail) (hg : g.Wf) {e : Entry K V} (he : e ∈ g'.log) :
    e ∈ g.log ∨ e ∈ tail := by
  have := h.mem_drop hg (Nat.zero_le _) (e := e)
  simpa using this (by simpa using he)

end ShardGroup

open ShardGroup

variable [DecidableEq K] {k : K} {P : Option V → Prop} {Q : Entry K V → Prop}

/-- At a position up to `bound` the key has a value that meets `P`, and every later entry of it
meets `Q`. -/
def PinnedBy (g : ShardGroup K V φ) (bound : Nat) (k : K) (P : Option V → Prop)
    (Q : Entry K V → Prop) : Prop :=
  ∃ u ≤ bound, P (lookup (g.log.take u) k) ∧ ∀ e ∈ g.log.drop u, e.key = k → Q e

def Pinned (g : ShardGroup K V φ) (k : K) (P : Option V → Prop) (Q : Entry K V → Prop) : Prop :=
  PinnedBy g g.committed k P Q

theorem PinnedBy.advances {bound : Nat} (h : PinnedBy g bound k P Q) (hbound : bound ≤ g.committed)
    (hg : g.Wf) (ha : Advances g g' tail) (htail : ∀ e ∈ tail, e.key = k → Q e) :
    PinnedBy g' bound k P Q := by
  obtain ⟨u, hle, hP, hQ⟩ := h
  have hu : u ≤ g.committed := Nat.le_trans hle hbound
  refine ⟨u, hle, ?_, fun e he hk => ?_⟩
  · rw [ha.take_eq hg hu]
    exact hP
  · rcases ha.mem_drop hg hu he with he | he
    · exact hQ e he hk
    · exact htail e he hk

theorem Pinned.advances (h : Pinned g k P Q) (hg : g.Wf) (ha : Advances g g' tail)
    (htail : ∀ e ∈ tail, e.key = k → Q e) : Pinned g' k P Q := by
  obtain ⟨u, hle, hpinned⟩ := PinnedBy.advances h (Nat.le_refl _) hg ha htail
  exact ⟨u, Nat.le_trans hle ha.committed, hpinned⟩

/-- The same at a position of one leader's log, committed or not, as long as it leads. -/
def Held (g : ShardGroup K V φ) (k : K) (P : Option V → Prop) (Q : Entry K V → Prop)
    (epoch upTo : Nat) : Prop :=
  epoch ≤ g.epoch ∧ (epoch = g.epoch → upTo ≤ g.log.length ∧ P (lookup (g.log.take upTo) k) ∧
    ∀ e ∈ g.log.drop upTo, e.key = k → Q e)

theorem Held.advances {epoch upTo : Nat} (h : Held g k P Q epoch upTo) (ha : Advances g g' tail)
    (htail : ∀ e ∈ tail, e.key = k → Q e) : Held g' k P Q epoch upTo := by
  rcases ha.log with ⟨hepoch, hlog⟩ | ⟨hepoch, -⟩
  · refine ⟨hepoch ▸ h.1, fun he => ?_⟩
    obtain ⟨hlen, hP, hQ⟩ := h.2 (he.trans hepoch)
    rw [hlog, List.take_append_of_le_length hlen, List.drop_append_of_le_length hlen]
    refine ⟨?_, hP, fun e he hk => ?_⟩
    · rw [List.length_append]
      omega
    · rcases List.mem_append.mp he with he | he
      · exact hQ e he hk
      · exact htail e he hk
  · have := h.1
    exact ⟨by omega, fun he => absurd he (by omega)⟩

theorem Held.pinned {epoch upTo : Nat} (h : Held g k P Q epoch upTo) (hepoch : epoch = g.epoch)
    (hcommitted : upTo ≤ g.committed) : Pinned g k P Q :=
  ⟨upTo, hcommitted, (h.2 hepoch).2⟩

/-- A value pinned where no later entry changes it is what every longer prefix of the log leaves. -/
theorem PinnedBy.lookup_eq {v : Option V} {u : Nat} (h : PinnedBy g u k (· = v) Q)
    (hQ : ∀ e ∈ g.log.take u, e.key = k → Q e → e.value = v) : lookup (g.log.take u) k = v := by
  obtain ⟨u₀, hle, hv, hlater⟩ := h
  have hsplit : g.log.take u = g.log.take u₀ ++ (g.log.drop u₀).take (u - u₀) := by
    rw [← List.take_add]
    congr 1
    omega
  rw [hsplit] at hQ ⊢
  exact lookup_append_eq hv fun e he hk =>
    hQ e (List.mem_append_right _ he) hk (hlater e (List.mem_of_mem_take he) hk)

end Advance

end DewDB.GroupLog
