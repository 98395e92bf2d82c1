import DewDB.InstallSafety
import DewDB.PeerRecovery

/-!
# When a recovery from a peer moves backwards

The checks compare tails and watermarks. That the snapshot has the frames which the node has
published is not among them: `apply_committed` raises the watermark whether the log has the position
or not. A failed swap is undone by renames that can fail as well, and the directory is opened again
with the watermark in its files.
-/
namespace DewDB.PeerRecovery

open CollectionInstall CollectionLog Endpoint QuorumConfig Vote

variable {β : Type}

theorem le_refl (t : LogTail) : t.le t = true := LogTail.le_iff.mpr (.inr ⟨rfl, Nat.le_refl _⟩)

theorem Kept.refl (col : Collection β) : Kept col col := ⟨le_refl _, fun _ hf hle => ⟨hf, hle⟩⟩

namespace Env

variable (env : Env β)

/-- The log of the snapshot takes the place of the node's: nothing that a late append wrote is newer
than its tail, it has what the node has published, and nothing was published behind the watermark
that was read. -/
structure Covers (col : Collection β) : Prop where
  late : (lastAppended (env.now.getD .empty)).le (lastAppended col) = true
  holds : ∀ f ∈ (env.now.getD .empty).frames, f.lsn ≤ (env.now.getD .empty).applied → f ∈ col.frames
  read : ∀ f ∈ (env.now.getD .empty).frames, f.lsn ≤ (env.now.getD .empty).applied →
    f.lsn ≤ max col.applied env.localApplied

def ReachesSwap : Prop :=
  env.io .release = .ok ∧ (env.old = none ∨ env.io .clearOld = .ok) ∧ env.io .mark = .ok ∧
    (env.now.isSome → env.io .backup = .ok)

/-- The removal of the staging directory takes the marker with it. -/
def Unmarked : Prop := env.cleanup = .ok ∨ env.cleanup = .partway false

/-- The rename of the old directory back succeeds, or the marker goes. -/
def PutBack (pc : Pc) : Prop := env.now.isSome ∧ env.io pc = .ok ∨ env.Unmarked

def Saved : Prop := ∀ col, env.now = some col → col.applied ≤ env.saved

/-- The calls in front of the swap succeed, the swap and the opening. -/
def Installs : Prop :=
  env.ReachesSwap ∧ env.io (.swap env.now.isSome) = .ok ∧ env.io (.opening env.now.isSome) = .ok

def Undone : Prop :=
  if env.io (.swap env.now.isSome) = .ok then
    if env.io (.moveBad env.now.isSome) = .ok then env.PutBack (.undo env.now.isSome)
    else env.io (.removeBad env.now.isSome) = .ok
  else env.PutBack .restore

/-- Of the calls of an install that succeed and fail, those that leave the collection in order. -/
structure Orderly (col : Collection β) : Prop where
  covers : env.Installs → env.Covers col
  saved : ¬env.Installs → env.Saved
  undone : env.ReachesSwap → ¬env.Installs → env.Undone

end Env

section Install

variable {env : Env β} {staged : Collection β} {io : Pc → Label} {n : ℕ} {s : State (Copy β)}

theorem installing_step (h : s.pc ≠ .idle) :
    installing io (n + 1) s = installing io n (s.call (fun _ => true) (io s.pc)) := if_neg h

theorem installing_idle (h : s.pc = .idle) : installing io n s = s := by
  cases n with
  | zero => rfl
  | succ n => exact if_pos h

def Env.atSwap (env : Env β) (staged : Collection β) : State (Copy β) :=
  ⟨⟨none, env.liveDir, some ⟨.whole (.peer staged), true⟩⟩, .swap env.now.isSome, [], [], []⟩

theorem liveDir_eq_none (h : env.now = none) : env.liveDir = none := by rw [Env.liveDir, h]; rfl

theorem liveDir_eq_some {col : Collection β} (h : env.now = some col) :
    env.liveDir = some ⟨.whole (.own (env.reopened col)), false⟩ := by rw [Env.liveDir, h]; rfl

theorem heldDir_eq_none (h : env.now = none) : env.heldDir = none := by rw [Env.heldDir, h]; rfl

theorem heldDir_eq_some {col : Collection β} (h : env.now = some col) :
    env.heldDir = some ⟨.whole (.own col), false⟩ := by rw [Env.heldDir, h]; rfl

theorem reopened_eq_iff {col : Collection β} :
    env.reopened col = col ↔ col.applied ≤ env.saved := by
  constructor
  · intro h
    have : min env.saved col.applied = col.applied := congrArg Collection.applied h
    omega
  · intro h
    rw [Env.reopened, Nat.min_eq_right h]

/-- The released directory opens as what it was exactly when its watermark is in the files. -/
theorem live_eq_held_iff : env.liveDir.map Dir.contents = env.heldDir.map Dir.contents ↔
    env.Saved := by
  cases hnow : env.now with
  | none =>
    rw [liveDir_eq_none hnow, heldDir_eq_none hnow]
    refine iff_of_true rfl fun col hcol => ?_
    rw [hnow] at hcol
    cases hcol
  | some col =>
    rw [liveDir_eq_some hnow, heldDir_eq_some hnow]
    constructor
    · intro heq col' hcol'
      obtain rfl := Option.some.inj (hnow.symm.trans hcol')
      have hsame : env.reopened col = col := Copy.own.inj (Contents.whole.inj (Option.some.inj heq))
      exact reopened_eq_iff.mp hsame
    · intro hsaved
      rw [reopened_eq_iff.mpr (hsaved col hnow)]

/-- The directory that the calls in front of the swap leave when one of them fails. -/
structure Early (env : Env β) (s : State (Copy β)) : Prop where
  opened : s.opened = []
  live : s.root.live = env.liveDir
  old : env.now = none → env.old = none → s.root.old = none
  tmp : env.now = none → stagedInstallReady s.root.tmp = false

theorem marking_cases (env : Env β) (staged : Collection β) (k : ℕ) :
    let s : State (Copy β) :=
      ⟨⟨env.liveDir, none, some ⟨.whole (.peer staged), false⟩⟩, .mark, [], [], []⟩
    (¬(env.io .mark = .ok ∧ (env.now.isSome → env.io .backup = .ok)) ∧
      Early env (installing env.io (k + 2) s)) ∨
      ((env.io .mark = .ok ∧ (env.now.isSome → env.io .backup = .ok)) ∧
        ∃ j, installing env.io (k + 2) s = installing env.io (k + j) (env.atSwap staged)) := by
  intro s
  rw [installing_step Pc.noConfusion]
  by_cases hmark : env.io .mark = .ok
  · cases hnow : env.now with
    | none =>
      have hlive := liveDir_eq_none hnow
      refine .inr ⟨⟨hmark, nofun⟩, 1, ?_⟩
      congr 1
      simp [s, State.call, State.goto, State.setTmp, marked, hmark, hlive, hnow, Env.atSwap]
    | some col =>
      have hlive := liveDir_eq_some hnow
      have hcall : s.call (fun _ => true) (env.io .mark) =
          ⟨⟨env.liveDir, none, some ⟨.whole (.peer staged), true⟩⟩, .backup, [], [], []⟩ := by
        simp [s, State.call, State.goto, State.setTmp, marked, hmark, hlive]
      rw [hcall, installing_step Pc.noConfusion]
      by_cases hbackup : env.io .backup = .ok
      · refine .inr ⟨⟨hmark, fun _ => hbackup⟩, 0, ?_⟩
        congr 1
        simp [State.call, State.goto, State.setOld, State.setLive, hbackup, hnow, Env.atSwap]
      · left
        have hidle : (⟨⟨env.liveDir, none, some ⟨.whole (.peer staged), true⟩⟩,
          .backup, [], [], []⟩ :
            State (Copy β)).call (fun _ => true) (env.io .backup) =
            ⟨⟨env.liveDir, none, some ⟨.whole (.peer staged), true⟩⟩, .idle, [], [], []⟩ := by
          simp [State.call, State.goto, hbackup]
        rw [hidle, installing_idle rfl]
        refine ⟨fun h => hbackup (h.2 rfl), rfl, rfl, fun _ _ => rfl, fun h => ?_⟩
        rw [hnow] at h
        cases h
  · left
    have hidle : s.call (fun _ => true) (env.io .mark) = { s with pc := .idle } := by
      simp [s, State.call, State.goto, hmark]
    rw [hidle, installing_idle rfl]
    exact ⟨fun h => hmark h.1, rfl, rfl, fun _ _ => rfl, fun _ => rfl⟩

theorem install_cases (env : Env β) (staged : Collection β) :
    (¬env.ReachesSwap ∧ Early env (env.install staged)) ∨
      (env.ReachesSwap ∧ ∃ k, env.install staged = installing env.io (k + 5)
        (env.atSwap staged)) := by
  rw [Env.install, installing_step Pc.noConfusion]
  by_cases hrelease : env.io .release = .ok
  · have hcall : (start ⟨env.liveDir, env.old, some ⟨.whole (.peer staged), false⟩⟩).call
      (fun _ => true)
        (env.io .release) =
        ⟨⟨env.liveDir, env.old, some ⟨.whole (.peer staged), false⟩⟩, .clearOld, [], [], []⟩ := by
      simp [start, State.call, State.goto, hrelease]
    rw [start] at hcall
    rw [start, hcall, installing_step Pc.noConfusion]
    by_cases hclear : env.old = none ∨ env.io .clearOld = .ok
    · have hmark : (⟨⟨env.liveDir, env.old, some ⟨.whole (.peer staged), false⟩⟩,
        .clearOld, [], [], []⟩ :
          State (Copy β)).call (fun _ => true) (env.io .clearOld) =
          ⟨⟨env.liveDir, none, some ⟨.whole (.peer staged), false⟩⟩, .mark, [], [], []⟩ := by
        rcases hclear with hnone | hok
        · simp [State.call, State.goto, hnone]
        · cases hold : env.old <;> simp [State.call, State.goto, State.setOld, removed, hok]
      rw [hmark]
      rcases marking_cases env staged 5 with ⟨hnot, hearly⟩ | ⟨hyes, j, hj⟩
      · exact .inl ⟨fun h => hnot ⟨h.2.2.1, h.2.2.2⟩, hearly⟩
      · refine .inr ⟨⟨hrelease, hclear, hyes⟩, j, ?_⟩
        rw [hj, Nat.add_comm]
    · left
      obtain ⟨hsome, hfail⟩ := not_or.mp hclear
      obtain ⟨d, hd⟩ := Option.ne_none_iff_exists'.mp hsome
      have hidle : (⟨⟨env.liveDir, env.old, some ⟨.whole (.peer staged), false⟩⟩,
        .clearOld, [], [], []⟩ :
          State (Copy β)).call (fun _ => true) (env.io .clearOld) =
          ⟨⟨env.liveDir, removed env.old (env.io .clearOld), some ⟨.whole (.peer staged), false⟩⟩,
            .idle, [], [], []⟩ := by
        simp [State.call, State.goto, State.setOld, hd, hfail]
      rw [hidle, installing_idle rfl]
      exact ⟨fun h => hclear h.2.1, rfl, rfl, fun _ hnone => absurd hnone hsome, fun _ => rfl⟩
  · left
    have hidle : (start ⟨env.liveDir, env.old, some ⟨.whole (.peer staged), false⟩⟩).call
      (fun _ => true)
        (env.io .release) =
        ⟨⟨env.liveDir, env.old, some ⟨.whole (.peer staged), false⟩⟩, .idle, [], [], []⟩ := by
      simp [start, State.call, State.goto, hrelease]
    rw [start] at hidle
    rw [start, hidle, installing_idle rfl]
    exact ⟨fun h => hrelease h.1, rfl, rfl, fun _ hnone => hnone, fun _ => rfl⟩

def Env.dropStaging (env : Env β) (r : Root (Copy β)) : Root (Copy β) :=
  { r with tmp := removed r.tmp env.cleanup }

theorem not_own {c : Contents (Copy β)}
    (hc : c = .whole (.peer staged) ∨ c = .part (.peer staged)) :
    some c ≠ env.heldDir.map Dir.contents := by
  intro heq
  cases hnow : env.now with
  | none =>
    rw [heldDir_eq_none hnow] at heq
    cases heq
  | some col =>
    rw [heldDir_eq_some hnow] at heq
    rcases hc with rfl | rfl
    · cases heq
    · cases heq

/-- After an install that fails, a lookup finds the node's directory if it was put back, and else
what the peer has sent or a part of that. -/
structure Fails (env : Env β) (staged : Collection β) (back : Prop)
    (found : Option (Contents (Copy β))) : Prop where
  own : back → found = env.liveDir.map Dir.contents
  lost : ¬back → ∃ c, (c = .whole (.peer staged) ∨ c = .part (.peer staged)) ∧ found = some c

section Fails

variable {back back' : Prop} {found : Option (Contents (Copy β))}

theorem Fails.of_back (hback : back) (h : found = env.liveDir.map Dir.contents) :
    Fails env staged back found :=
  ⟨fun _ => h, fun hnot => absurd hback hnot⟩

theorem Fails.congr (h : Fails env staged back found) (hiff : back ↔ back') :
    Fails env staged back' found :=
  ⟨fun hback => h.own (hiff.mpr hback), fun hnot => h.lost fun hback => hnot (hiff.mp hback)⟩

theorem Fails.found_iff (h : Fails env staged back found) :
    found = env.heldDir.map Dir.contents ↔ env.Saved ∧ back := by
  by_cases hback : back
  · rw [h.own hback, live_eq_held_iff, and_iff_left hback]
  · obtain ⟨c, hc, hfound⟩ := h.lost hback
    rw [hfound]
    exact iff_of_false (not_own hc) fun hboth => hback hboth.2

end Fails

theorem removed_none (out : Label) : removed (none : Option (Dir (Copy β))) out = none := by
  cases out <;> rfl

/-- A removal that fails leaves something of the directory, and the marker unless it went first. -/
theorem removed_peer (staged : Collection β) {out : Label} (h : out ≠ .ok) :
    ∃ d, removed (some ⟨.whole (Copy.peer staged), true⟩) out = some d ∧
      (d.contents = .whole (Copy.peer staged) ∨ d.contents = .part (Copy.peer staged)) ∧
      (out ≠ .partway false → d.marker = true) := by
  cases out with
  | ok => exact absurd rfl h
  | partway m =>
    refine ⟨_, rfl, .inr rfl, fun hm => ?_⟩
    cases m with
    | true => rfl
    | false => exact absurd rfl hm
  | fail => exact ⟨_, rfl, .inl rfl, fun _ => rfl⟩
  | crash => exact ⟨_, rfl, .inl rfl, fun _ => rfl⟩
  | boot => exact ⟨_, rfl, .inl rfl, fun _ => rfl⟩
  | lookup => exact ⟨_, rfl, .inl rfl, fun _ => rfl⟩

theorem settles_marked (env : Env β) (staged : Collection β) :
    Fails env staged env.Unmarked
      (settles (env.dropStaging ⟨none, env.liveDir, some ⟨.whole (.peer staged), true⟩⟩)) := by
  unfold Env.Unmarked Env.dropStaging
  by_cases hok : env.cleanup = .ok
  · rw [hok]
    exact .of_back (.inl rfl) rfl
  · obtain ⟨d, hd, hpeer, hmarked⟩ := removed_peer staged hok
    by_cases hpart : env.cleanup = .partway false
    · rw [hpart]
      exact .of_back (.inr rfl) rfl
    · simp only [hd, settles, stagedInstallReady, Option.any_some, hmarked hpart, if_true,
        Option.map_some]
      exact ⟨fun hback => absurd hback (not_or.mpr ⟨hok, hpart⟩), fun _ => ⟨d.contents, hpeer, rfl⟩⟩

/-- The staged directory is live and the old one, if there is one, in the backup. -/
def Env.atOpening (env : Env β) (staged : Collection β) : State (Copy β) :=
  ⟨⟨some ⟨.whole (.peer staged), true⟩, env.liveDir, none⟩, .opening env.now.isSome, [], [], []⟩

theorem installing_swap (k : ℕ) (hswap : env.io (.swap env.now.isSome) = .ok) :
    installing env.io (k + 5) (env.atSwap staged) = installing env.io (k + 4)
      (env.atOpening staged) := by
  rw [installing_step Pc.noConfusion]
  congr 1
  simp [Env.atSwap, Env.atOpening, State.call, State.goto, State.setLive, State.setTmp, hswap]

theorem swap_installed (env : Env β) (staged : Collection β) (k : ℕ)
    (hswap : env.io (.swap env.now.isSome) = .ok) (hopen : env.io (.opening env.now.isSome) = .ok) :
    (installing env.io (k + 5) (env.atSwap staged)).opened ≠ [] ∧
      settles (env.dropStaging (installing env.io (k + 5) (env.atSwap staged)).root) =
        some (.whole (.peer staged)) := by
  have hcall : (env.atOpening staged).call (fun _ => true) (env.io (.opening env.now.isSome)) =
      ⟨⟨some ⟨.whole (.peer staged), true⟩, env.liveDir, none⟩, .unmark,
        [.whole (.peer staged)], [], []⟩ := by
    simp [Env.atOpening, State.call, State.goto, hopen]
  rw [installing_swap k hswap, installing_step Pc.noConfusion]
  have hpc : (env.atOpening staged).pc = .opening env.now.isSome := rfl
  rw [hpc, hcall, installing_step Pc.noConfusion,
    installing_step (by simp [State.call, State.goto]),
    installing_idle (by simp [State.call, State.goto])]
  constructor
  · by_cases hunmark : env.io .unmark = .ok
    · simp [State.call, State.goto, State.setLive, State.setOld, hunmark]
    · simp [State.call, State.goto, State.setOld, hunmark]
  · by_cases hunmark : env.io .unmark = .ok
    · simp [State.call, State.goto, State.setLive, State.setOld, hunmark, settles,
        Env.dropStaging, marked]
    · simp [State.call, State.goto, State.setOld, hunmark, settles, Env.dropStaging]

theorem installing_refused (k : ℕ) (hswap : env.io (.swap env.now.isSome) = .ok)
    (hopen : env.io (.opening env.now.isSome) ≠ .ok) :
    installing env.io (k + 5) (env.atSwap staged) = installing env.io (k + 3)
      ⟨⟨some ⟨.whole (.peer staged), true⟩, env.liveDir, none⟩, .moveBad env.now.isSome, [],
        [.whole (.peer staged)], []⟩ := by
  rw [installing_swap k hswap, installing_step Pc.noConfusion]
  congr 1
  simp [Env.atOpening, State.call, State.goto, hopen]

theorem settles_restored (env : Env β) (tmp : Option (Dir (Copy β))) (h : env.now.isSome) :
    settles (env.dropStaging ⟨env.liveDir, none, tmp⟩) = env.liveDir.map Dir.contents := by
  obtain ⟨col, hcol⟩ := Option.isSome_iff_exists.mp h
  rw [liveDir_eq_some hcol]
  rfl

theorem swap_moved (env : Env β) (staged : Collection β) (k : ℕ)
    (hswap : env.io (.swap env.now.isSome) = .ok)
    (hopen : env.io (.opening env.now.isSome) ≠ .ok)
    (hmove : env.io (.moveBad env.now.isSome) = .ok) :
    (installing env.io (k + 5) (env.atSwap staged)).opened = [] ∧
      Fails env staged (env.PutBack (.undo env.now.isSome))
        (settles (env.dropStaging (installing env.io (k + 5) (env.atSwap staged)).root)) := by
  rw [installing_refused k hswap hopen, installing_step Pc.noConfusion]
  have hcall : (⟨⟨some ⟨.whole (.peer staged), true⟩, env.liveDir, none⟩,
    .moveBad env.now.isSome, [],
      [.whole (.peer staged)], []⟩ : State (Copy β)).call (fun _ => true)
        (env.io (.moveBad env.now.isSome)) =
      ⟨⟨none, env.liveDir, some ⟨.whole (.peer staged), true⟩⟩, .undo env.now.isSome, [],
        [.whole (.peer staged)], []⟩ := by
    simp [State.call, State.goto, State.setTmp, State.setLive, hmove]
  rw [hcall, installing_step Pc.noConfusion]
  by_cases hundo : env.now.isSome ∧ env.io (.undo env.now.isSome) = .ok
  · have hback : (⟨⟨none, env.liveDir, some ⟨.whole (.peer staged), true⟩⟩,
      .undo env.now.isSome, [],
        [.whole (.peer staged)], []⟩ : State (Copy β)).call (fun _ => true)
          (env.io (.undo env.now.isSome)) =
        ⟨⟨env.liveDir, none, some ⟨.whole (.peer staged), true⟩⟩, .idle, [],
          [.whole (.peer staged)], []⟩ := by
      simp only [State.call, State.goto, State.setOld, State.setLive, Option.isNone_none, and_true]
      rw [if_pos hundo]
    rw [hback, installing_idle rfl]
    exact ⟨rfl, .of_back (.inl hundo) (settles_restored env _ hundo.1)⟩
  · have hstay : (⟨⟨none, env.liveDir, some ⟨.whole (.peer staged), true⟩⟩,
      .undo env.now.isSome, [],
        [.whole (.peer staged)], []⟩ : State (Copy β)).call (fun _ => true)
          (env.io (.undo env.now.isSome)) =
        ⟨⟨none, env.liveDir, some ⟨.whole (.peer staged), true⟩⟩, .idle, [],
          [.whole (.peer staged)], []⟩ := by
      simp only [State.call, State.goto, Option.isNone_none, and_true]
      rw [if_neg hundo]
    rw [hstay, installing_idle rfl]
    exact ⟨rfl, (settles_marked env staged).congr ⟨.inr, fun h => h.resolve_left hundo⟩⟩

theorem swap_stuck (env : Env β) (staged : Collection β) (k : ℕ)
    (hswap : env.io (.swap env.now.isSome) = .ok)
    (hopen : env.io (.opening env.now.isSome) ≠ .ok)
    (hmove : env.io (.moveBad env.now.isSome) ≠ .ok) :
    (installing env.io (k + 5) (env.atSwap staged)).opened = [] ∧
      Fails env staged (env.io (.removeBad env.now.isSome) = .ok)
        (settles (env.dropStaging (installing env.io (k + 5) (env.atSwap staged)).root)) := by
  rw [installing_refused k hswap hopen, installing_step Pc.noConfusion]
  have hcall : (⟨⟨some ⟨.whole (.peer staged), true⟩, env.liveDir, none⟩,
    .moveBad env.now.isSome, [],
      [.whole (.peer staged)], []⟩ : State (Copy β)).call (fun _ => true)
        (env.io (.moveBad env.now.isSome)) =
      ⟨⟨some ⟨.whole (.peer staged), true⟩, env.liveDir, none⟩, .removeBad env.now.isSome, [],
        [.whole (.peer staged)], []⟩ := by
    simp [State.call, State.goto, hmove]
  rw [hcall, installing_step Pc.noConfusion]
  have hremove : (⟨⟨some ⟨.whole (.peer staged), true⟩, env.liveDir, none⟩,
    .removeBad env.now.isSome, [],
      [.whole (.peer staged)], []⟩ : State (Copy β)).call (fun _ => true)
        (env.io (.removeBad env.now.isSome)) =
      ⟨⟨removed (some ⟨.whole (.peer staged), true⟩) (env.io (.removeBad env.now.isSome)),
        env.liveDir, none⟩, .undo env.now.isSome, [], [.whole (.peer staged)], []⟩ := by
    simp [State.call, State.goto, State.setLive]
  rw [hremove, installing_step Pc.noConfusion]
  by_cases hok : env.io (.removeBad env.now.isSome) = .ok
  · rw [hok]
    simp only [State.call, State.goto, State.setOld, State.setLive, removed,
      Option.isNone_none, and_true]
    split
    · next hundo =>
      rw [installing_idle rfl]
      exact ⟨rfl, .of_back trivial (settles_restored env _ hundo.1)⟩
    · rw [installing_idle rfl]
      refine ⟨rfl, .of_back trivial ?_⟩
      simp [settles, Env.dropStaging, stagedInstallReady, removed_none]
  · obtain ⟨d, hd, hpeer, -⟩ := removed_peer staged hok
    rw [hd]
    simp only [State.call, State.goto, Option.isNone_some, Bool.false_eq_true, and_false, if_false]
    rw [installing_idle rfl]
    exact ⟨rfl, fun hback => absurd hback hok, fun _ => ⟨d.contents, hpeer, rfl⟩⟩

theorem swap_failed (env : Env β) (staged : Collection β) (k : ℕ)
    (hswap : env.io (.swap env.now.isSome) ≠ .ok) :
    (installing env.io (k + 5) (env.atSwap staged)).opened = [] ∧
      Fails env staged (env.PutBack .restore)
        (settles (env.dropStaging (installing env.io (k + 5) (env.atSwap staged)).root)) := by
  rw [installing_step Pc.noConfusion]
  have hcall : (env.atSwap staged).call (fun _ => true) (env.io (.swap env.now.isSome)) =
      ⟨⟨none, env.liveDir, some ⟨.whole (.peer staged), true⟩⟩,
        if env.now.isSome then .restore else .idle, [], [], []⟩ := by
    simp [Env.atSwap, State.call, State.goto, hswap]
  have hpc : (env.atSwap staged).pc = .swap env.now.isSome := rfl
  rw [hpc, hcall]
  by_cases hold : env.now.isSome = true
  · rw [if_pos hold, installing_step Pc.noConfusion]
    by_cases hrestore : env.io .restore = .ok
    · have hback : (⟨⟨none, env.liveDir, some ⟨.whole (.peer staged), true⟩⟩,
        .restore, [], [], []⟩ :
          State (Copy β)).call (fun _ => true) (env.io .restore) =
          ⟨⟨env.liveDir, none, some ⟨.whole (.peer staged), true⟩⟩, .idle, [], [], []⟩ := by
        simp [State.call, State.goto, State.setOld, State.setLive, hrestore]
      rw [hback, installing_idle rfl]
      exact ⟨rfl, .of_back (.inl ⟨hold, hrestore⟩) (settles_restored env _ hold)⟩
    · have hstay : (⟨⟨none, env.liveDir, some ⟨.whole (.peer staged), true⟩⟩,
        .restore, [], [], []⟩ :
          State (Copy β)).call (fun _ => true) (env.io .restore) =
          ⟨⟨none, env.liveDir, some ⟨.whole (.peer staged), true⟩⟩, .idle, [], [], []⟩ := by
        simp [State.call, State.goto, hrestore]
      rw [hstay, installing_idle rfl]
      exact ⟨rfl, (settles_marked env staged).congr ⟨.inr, fun h => h.resolve_left fun h =>
        hrestore h.2⟩⟩
  · rw [if_neg hold, installing_idle rfl]
    exact ⟨rfl, (settles_marked env staged).congr ⟨.inr, fun h => h.resolve_left fun h => hold h.1⟩⟩

end Install

section Fetch

variable {env : Env β} {peer : Url} {name : CollectionName} {offered : LogTail} {term : ℕ}
  {staged : Collection β}

theorem prepare_eq {d : Staged β} {localTail : LogTail} {localApplied : ℕ}
    {persist saveIndex : Except String Unit}
    (h : prepareElectionSnapshot d localTail localApplied offered term persist
      saveIndex = .ok staged) :
    ∃ col, d.opened = .ok col ∧ staged = col.applyCommitted localApplied := by
  unfold prepareElectionSnapshot at h
  cases hvalid : validateStagedSnapshot d 0 with
  | error e =>
    rw [hvalid] at h
    cases h
  | ok u =>
    cases hopened : d.opened with
    | error e =>
      rw [hvalid, hopened] at h
      cases h
    | ok col =>
      rw [hvalid, hopened] at h
      refine ⟨col, rfl, ?_⟩
      simp only [bind, Except.bind] at h
      split at h
      · cases h
      · split at h
        · rcases persist with e | u
          · cases h
          · dsimp only at h
            split at h
            · cases h
            · rcases saveIndex with e | u
              · cases h
              · exact (Except.ok.inj h).symm
        · next hle =>
          have hle : localApplied ≤ col.applied := Nat.le_of_not_lt hle
          rw [Collection.applyCommitted, Nat.max_eq_left hle]
          exact (Except.ok.inj h).symm

theorem allowed_ok (h : env.allowed peer name term = .ok ()) : env.lookup = .ok () := by
  unfold Env.allowed at h
  split_ifs at h
  exact h

/-- A transfer that succeeds is the peer's stream; one that fails leaves nothing that could be
installed. -/
theorem download_cases (env : Env β) :
    (∀ d, env.download.1 = .ok d → env.received = .ok d) ∧
      (stagedInstallReady env.tmp = false → stagedInstallReady env.download.2 = false) := by
  have hdropped : stagedInstallReady env.dropped = false := by
    unfold Env.dropped
    cases env.remains <;> rfl
  unfold Env.download
  split
  · exact ⟨nofun, id⟩
  · split
    · exact ⟨nofun, id⟩
    · split
      · exact ⟨nofun, removed_not_ready⟩
      · split
        · exact ⟨nofun, fun _ => rfl⟩
        · exact ⟨fun _ => id, fun _ => hdropped⟩

/-- What is to be installed was received, and its watermark is no lower than the one that was read.
-/
theorem fetch_some (h : (env.fetch peer name offered term).1 = .ok (some staged)) :
    env.lookup = .ok () ∧ ∃ d col, env.received = .ok d ∧ d.opened = .ok col ∧
      staged = col.applyCommitted env.localApplied := by
  unfold Env.fetch at h
  split at h
  · cases h
  · next hallowed =>
    refine ⟨allowed_ok hallowed, ?_⟩
    split at h
    · cases h
    · split at h
      · cases h
      · next d tmp hdownload =>
        split at h
        · cases h
        · cases hprepare : prepareElectionSnapshot d env.localTail env.localApplied offered term
              env.persist env.saveIndex with
          | error e =>
            rw [hprepare] at h
            cases h
          | ok c =>
            rw [hprepare] at h
            obtain rfl : c = staged := Option.some.inj (Except.ok.inj h)
            obtain ⟨col, hopened, heq⟩ := prepare_eq hprepare
            have hreceived := (download_cases env).1 d (by rw [hdownload])
            exact ⟨d, col, hreceived, hopened, heq⟩

/-- The staging directory is as it was, or has no install to finish if it had none. -/
theorem fetch_tmp (env : Env β) (peer : Url) (name : CollectionName)
    (offered : LogTail) (term : ℕ) :
    (env.fetch peer name offered term).2 = env.tmp ∨
      env.lookup = .ok () ∧
        (stagedInstallReady env.tmp = false →
          stagedInstallReady (env.fetch peer name offered term).2 = false) := by
  have hdown := (download_cases env).2
  unfold Env.fetch
  split
  · exact .inl rfl
  · next hallowed =>
    split
    · exact .inl rfl
    · refine .inr ⟨allowed_ok hallowed, fun hready => ?_⟩
      have hready := hdown hready
      split
      · next hdownload => rwa [hdownload] at hready
      · next hdownload =>
        rw [hdownload] at hready
        split
        · exact hready
        · exact hready

theorem now_none (h : env.now = none) : env.live = none := by
  unfold Env.now after at h
  split at h
  · exact h
  · cases h

theorem fetch_settles (env : Env β) (peer : Url) (name : CollectionName)
    (offered : LogTail) (term : ℕ) :
    settles ⟨env.heldDir, env.old, (env.fetch peer name offered term).2⟩ = env.undisturbed := by
  rcases fetch_tmp env peer name offered term with heq | ⟨hlookup, htmp⟩
  · rw [heq]
    rfl
  · cases hnow : env.now with
    | some col =>
      rw [Env.undisturbed, heldDir_eq_some hnow]
      rfl
    | none =>
      obtain ⟨-, hready⟩ := env.found hlookup (now_none hnow)
      rw [Env.undisturbed, heldDir_eq_none hnow]
      simp [settles, hready, htmp hready]

end Fetch

section Ends

variable {env : Env β} {peer : Url} {name : CollectionName} {offered : LogTail} {term : ℕ}
  {staged col : Collection β}

/-- With a collection to install a lookup would have found the node's own, or nothing. -/
theorem undisturbed_eq (h : env.lookup = .ok ()) :
    env.undisturbed = env.heldDir.map Dir.contents := by
  cases hnow : env.now with
  | some col =>
    rw [Env.undisturbed, heldDir_eq_some hnow]
    rfl
  | none =>
    obtain ⟨hold, hready⟩ := env.found h (now_none hnow)
    rw [Env.undisturbed, heldDir_eq_none hnow, hold]
    simp [settles, hready]

theorem held_undisturbed (h : env.lookup = .ok ()) :
    held env.undisturbed = env.now.getD .empty := by
  rw [undisturbed_eq h]
  cases hnow : env.now with
  | some col => rw [heldDir_eq_some hnow]; rfl
  | none => rw [heldDir_eq_none hnow]; rfl

/-- The collection that is installed keeps what the node's had exactly when the snapshot covers it.
-/
theorem kept_iff : Kept (env.now.getD .empty)
    (col.applyCommitted env.localApplied) ↔ env.Covers col := by
  constructor
  · intro h
    exact ⟨h.tail, fun f hf hle => (h.committed f hf hle).1, fun f hf hle =>
      (h.committed f hf hle).2⟩
  · intro h
    exact ⟨h.late, fun f hf hle => ⟨h.holds f hf hle, h.read f hf hle⟩⟩

theorem neverBack_error {e : String} {found found' : Option (Contents (Copy β))} :
    NeverBack (.error e) found found' ↔ found' = found := by
  constructor
  · intro h
    exact h.alone e rfl
  · rintro rfl
    exact ⟨Kept.refl _, fun _ _ => rfl⟩

theorem neverBack_ok {found found' : Option (Contents (Copy β))} :
    NeverBack (.ok ()) found found' ↔ Kept (held found) (held found') :=
  ⟨NeverBack.kept, fun h => ⟨h, nofun⟩⟩

/-- An install that stops in front of the swap has moved nothing that a lookup looks at. -/
theorem Early.settles {s : State (Copy β)} (h : Early env s) (hlookup : env.lookup = .ok ()) :
    settles (env.dropStaging s.root) = env.liveDir.map Dir.contents := by
  rw [CollectionInstall.settles, Env.dropStaging, h.live]
  cases hnow : env.now with
  | some col =>
    rw [liveDir_eq_some hnow]
    rfl
  | none =>
    have hold := h.old hnow (env.found hlookup (now_none hnow)).1
    have hready := @removed_not_ready _ _ env.cleanup (h.tmp hnow)
    rw [liveDir_eq_none hnow]
    simp [hold, hready]

theorem install_fails (env : Env β) (staged : Collection β) (k : ℕ)
    (hnot : ¬(env.io (.swap env.now.isSome) = .ok ∧ env.io (.opening env.now.isSome) = .ok)) :
    (installing env.io (k + 5) (env.atSwap staged)).opened = [] ∧
      Fails env staged env.Undone
        (settles (env.dropStaging (installing env.io (k + 5) (env.atSwap staged)).root)) := by
  unfold Env.Undone
  by_cases hswap : env.io (.swap env.now.isSome) = .ok
  · rw [if_pos hswap]
    have hopen : env.io (.opening env.now.isSome) ≠ .ok := fun hopen => hnot ⟨hswap, hopen⟩
    by_cases hmove : env.io (.moveBad env.now.isSome) = .ok
    · rw [if_pos hmove]
      exact swap_moved env staged k hswap hopen hmove
    · rw [if_neg hmove]
      exact swap_stuck env staged k hswap hopen hmove
  · rw [if_neg hswap]
    exact swap_failed env staged k hswap

/-- The answer of the install is an error exactly when nothing was opened. -/
theorem install_neverBack_iff (hlookup : env.lookup = .ok ()) :
    NeverBack (if (env.install (col.applyCommitted env.localApplied)).opened.isEmpty
      then .error env.ioError
        else .ok ())
      env.undisturbed (settles
        (env.dropStaging (env.install (col.applyCommitted env.localApplied)).root)) ↔
    env.Orderly col := by
  rcases install_cases env (col.applyCommitted env.localApplied)
    with ⟨hnot, hearly⟩ | ⟨hreach, k, hk⟩
  · rw [hearly.opened, List.isEmpty_nil, if_pos rfl, neverBack_error, hearly.settles hlookup,
      undisturbed_eq hlookup, live_eq_held_iff]
    constructor
    · intro hsaved
      exact ⟨fun h => absurd h.1 hnot, fun _ => hsaved, fun h => absurd h hnot⟩
    · intro h
      exact h.saved fun hinstalls => hnot hinstalls.1
  rw [hk]
  by_cases hdone : env.io (.swap env.now.isSome) = .ok ∧ env.io (.opening env.now.isSome) = .ok
  · have hinstalls : env.Installs := ⟨hreach, hdone⟩
    obtain ⟨hopened, hsettles⟩ :=
      swap_installed env (col.applyCommitted env.localApplied) k hdone.1 hdone.2
    rw [hsettles, if_neg (by simpa using hopened), neverBack_ok, held_undisturbed hlookup]
    constructor
    · intro hkept
      exact ⟨fun _ => kept_iff.mp hkept, fun h => absurd hinstalls h, fun _ h => absurd hinstalls h⟩
    · intro h
      exact kept_iff.mpr (h.covers hinstalls)
  · have hinstalls : ¬env.Installs := fun h => hdone h.2
    obtain ⟨hopened, hfails⟩ := install_fails env (col.applyCommitted env.localApplied) k hdone
    rw [hopened, List.isEmpty_nil, if_pos rfl, neverBack_error, undisturbed_eq hlookup,
      hfails.found_iff]
    constructor
    · rintro ⟨hsaved, hundone⟩
      exact ⟨fun h => absurd h hinstalls, fun _ => hsaved, fun _ _ => hundone⟩
    · intro h
      exact ⟨h.saved hinstalls, h.undone hreach hinstalls⟩

end Ends

def Env.Prepared (env : Env β) (peer : Url) (name : CollectionName) (offered : LogTail)
    (term : ℕ) : Prop :=
  ∃ staged, (env.fetch peer name offered term).1 = .ok (some staged)

/-- For every state of the node and the peer and every outcome of the calls: the recovery does not
move the collection backwards, and leaves it alone where it fails, exactly when a snapshot that
passes the checks covers the node's log, or an install that fails is undone and finds the watermark
in the files. -/
theorem peer_recovery_iff (env : Env β) (peer : Url) (name : CollectionName)
    (offered : LogTail) (term : ℕ) :
    NeverBack (env.recoverFromPeer peer name offered term).1 env.undisturbed
      (settles (env.recoverFromPeer peer name offered term).2) ↔
    (env.Prepared peer name offered term →
      ∀ d col, env.received = .ok d → d.opened = .ok col → env.Orderly col) := by
  have hsettles := fetch_settles env peer name offered term
  rcases hfetch : env.fetch peer name offered term with ⟨e | _ | staged, tmp⟩
  · rw [hfetch] at hsettles
    have hnot : ¬env.Prepared peer name offered term := by
      rintro ⟨staged, h⟩
      rw [hfetch] at h
      cases h
    rw [Env.recoverFromPeer, hfetch, neverBack_error]
    exact iff_of_true hsettles fun h => absurd h hnot
  · rw [hfetch] at hsettles
    have hnot : ¬env.Prepared peer name offered term := by
      rintro ⟨staged, h⟩
      rw [hfetch] at h
      cases h
    rw [Env.recoverFromPeer, hfetch, neverBack_ok]
    dsimp only at hsettles ⊢
    rw [hsettles]
    exact iff_of_true (Kept.refl _) fun h => absurd h hnot
  · have hsome : (env.fetch peer name offered term).1 = .ok (some staged) := by rw [hfetch]
    obtain ⟨hlookup, d, col, hreceived, hopened, rfl⟩ := fetch_some hsome
    rw [Env.recoverFromPeer, hfetch]
    refine (install_neverBack_iff hlookup).trans ⟨fun h _ d' col' hd' hcol' => ?_, fun h => ?_⟩
    · obtain rfl := Except.ok.inj (hreceived.symm.trans hd')
      obtain rfl := Except.ok.inj (hopened.symm.trans hcol')
      exact h
    · exact h ⟨_, hsome⟩ d col hreceived hopened

section Lost

def voter : Url := ['p']

/-- Frame 1 is committed here. The peer, which never had it, has frame 2 of a later term. -/
def missingFrame : Env ℕ where
  hasDatabase := true
  atCall := ⟨false, 2, simple [voter], false⟩
  atStart := ⟨false, 2, simple [voter], false⟩
  atEnd := ⟨false, 2, simple [voter], false⟩
  lookup := .ok ()
  live := some ⟨[⟨1, 1, 0, 0, 10⟩], 1, 1, 1⟩
  saved := 1
  old := none
  tmp := none
  found := nofun
  response := .ok ⟨200, "200 OK"⟩
  wipe := .ok
  create := .ok ()
  received := .ok ⟨.ok 2, .ok 0, .ok ⟨[⟨2, 2, 0, 0, 20⟩], 2, 2, 0⟩⟩
  remains := none
  meanwhile := []
  since := []
  persist := .ok ()
  saveIndex := .ok ()
  io := fun _ => .ok
  ioError := ""
  cleanup := .ok

/-- The watermark is raised to 1 in a log that starts at 2, which is then taken to have the
position. -/
theorem committed_frame_lost :
    ¬NeverBack (missingFrame.recoverFromPeer voter ['c'] ⟨2, 2⟩ 2).1 missingFrame.undisturbed
      (settles (missingFrame.recoverFromPeer voter ['c'] ⟨2, 2⟩ 2).2) := by
  intro h
  have hfound : settles (missingFrame.recoverFromPeer voter ['c'] ⟨2, 2⟩ 2).2 =
      some (.whole (.peer ⟨[⟨2, 2, 0, 0, 20⟩], 2, 2, 1⟩)) := by rfl
  have hframe := (h.kept.committed ⟨1, 1, 0, 0, 10⟩ List.mem_cons_self (Nat.le_refl 1)).1
  rw [hfound] at hframe
  simp [held, Copy.collection] at hframe

end Lost

end DewDB.PeerRecovery
