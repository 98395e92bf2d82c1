import DewDB.CollectionHandle

/-!
# Bulk writes

The documents of a bulk write are appended one by one, under the key locks of them all. The append
lock is taken for each of them, so that commits, writes to other keys, another leader's frames and
an install that releases the handle come in between. An append that fails ends the batch with an
error, and the frames that the earlier ones wrote stay in the log, staged.
-/
namespace DewDB.BulkWrites

open CollectionLog WalFile StorageEntry Recovery LastTouch CollectionHandle

variable {V H : Type}

structure Doc (V : Type) where
  key : String
  value : V
  ts : Option ℕ
  expireAt : Option ℕ

/-- What `put_with_expiry` and `migration_put` append. -/
def Doc.entry (d : Doc V) (migration : Bool) (clock : ℕ) : LogEntry V H :=
  .put migration d.key d.value (if migration then d.ts.getD clock else clock) d.expireAt

/-- A document with what comes before its append, the clock it is stamped by and how the append
fares. -/
structure Turn (V H : Type) where
  before : List (Step V H)
  doc : Doc V
  clock : ℕ
  io : Attempt

structure Written where
  key : String
  version : ℕ × ℕ
  deriving DecidableEq

/-- The append that ended a batch: the handle it was made on, the one it left, and the documents
that had been staged by then. -/
structure Failure (V H : Type) where
  before : Handle V H
  after : Handle V H
  written : List Written
  deriving DecidableEq

structure PendingWrite where
  version : ℕ × ℕ
  existed : Bool
  deriving DecidableEq

inductive BatchError (V H : Type) where
  | notLeading
  | append (failure : Failure V H)
  | commit
  deriving DecidableEq

/-- A key repeated inside the batch is replaced by its second write. -/
def existed (present : String → Bool) (batched : List String) : List String → List Bool
  | [] => []
  | key :: keys => (batched.contains key || present key) :: existed present (key :: batched) keys

variable [Encoded (LogEntry V H)]

/-- The loop of `local_write_batch_inner`. -/
def putAll (limits : Limits) (migration : Bool) (term : ℕ) :
    Handle V H → List Written → List (Turn V H) → Except (Failure V H) (Handle V H × List Written)
  | h, out, [] => .ok (h, out)
  | h, out, turn :: turns =>
    let h := steps limits h turn.before
    match h.append limits (turn.doc.entry migration turn.clock) term turn.io with
    | .error t => .error ⟨h, t, out⟩
    | .ok (t, version) => putAll limits migration term t (out ++ [⟨turn.doc.key, version⟩]) turns

/-- `term` is what `append_term` answers, and `synced` how the group commit ends. -/
def localWriteBatchInner (limits : Limits) (term : Option ℕ) (migration : Bool) (h : Handle V H)
    (turns : List (Turn V H)) (synced : Bool) : Except (BatchError V H)
    (Handle V H × List PendingWrite) :=
  match term with
  | none => .error .notLeading
  | some term =>
    let existed := existed h.log.coll.existsIncludingStaged [] (turns.map fun turn => turn.doc.key)
    match putAll limits migration term h [] turns with
    | .error failure => .error (.append failure)
    | .ok (h, out) =>
      if synced then
        .ok ({ h with log := h.log.syncWal synced },
          List.zipWith (fun w e => ⟨w.version, e⟩) out existed)
      else .error .commit

def Shows (h : Handle V H) (w : Written) : Prop :=
  (h.log.coll.index.get w.key).map IndexEntry.version = some w.version

instance (h : Handle V H) (w : Written) : Decidable (Shows h w) :=
  inferInstanceAs (Decidable (_ = _))

def IsStaged (h : Handle V H) (w : Written) : Prop :=
  ∃ q ∈ h.log.coll.pending, ∃ e, resolve q w.key = some (some e) ∧ e.version = w.version

instance (h : Handle V H) (w : Written) : Decidable (IsStaged h w) :=
  decidable_of_iff (∃ q ∈ h.log.coll.pending,
    (resolve q w.key).join.map IndexEntry.version = some w.version)
    (by simp only [IsStaged, Option.map_eq_some_iff, Option.join_eq_some_iff])

def Left (h : Handle V H) (w : Written) : Prop := Shows h w ∨ IsStaged h w

instance (h : Handle V H) (w : Written) : Decidable (Left h w) :=
  inferInstanceAs (Decidable (_ ∨ _))

/-- No document of the failed batch is visible in any later state. -/
def LeavesNothing (limits : Limits) (f : Failure V H) : Prop :=
  ∀ later : List (Step V H), (∀ a ∈ later, Further a) →
    ∀ w ∈ f.written, ¬Shows (steps limits f.after later) w

section Documents

omit [Encoded (LogEntry V H)] in
theorem self_mem_stageAt (q : Spot (LogEntry V H)) (qs : List (Spot (LogEntry V H))) :
    q ∈ stageAt q qs := by
  induction qs with
  | nil => exact List.mem_singleton_self q
  | cons p qs ih =>
    unfold stageAt
    split
    · exact List.mem_cons_self
    · split
      · exact List.mem_cons_self
      · exact List.mem_cons_of_mem p ih

omit [Encoded (LogEntry V H)] in
theorem mem_stageAt_of_ne {p q : Spot (LogEntry V H)}
    {qs : List (Spot (LogEntry V H))} (hp : p ∈ qs)
    (hne : p.frame.lsn ≠ q.frame.lsn) : p ∈ stageAt q qs := by
  induction qs with
  | nil => cases hp
  | cons r qs ih =>
    unfold stageAt
    rcases List.mem_cons.mp hp with rfl | hp
    · split
      · exact List.mem_cons_of_mem q List.mem_cons_self
      · split
        · next heq => exact absurd heq.symm hne
        · exact List.mem_cons_self
    · split
      · exact List.mem_cons_of_mem q (List.mem_cons_of_mem r hp)
      · split
        · exact List.mem_cons_of_mem q hp
        · exact List.mem_cons_of_mem r (ih hp)

variable {h t : Handle V H} {w : Written} (limits : Limits)

theorem left_iff : Left h w ↔ ∃ e, Holds h w.key e ∧ e.version = w.version := by
  constructor
  · rintro (hshow | ⟨q, hq, e, he, hversion⟩)
    · obtain ⟨e, hget, hversion⟩ := Option.map_eq_some_iff.mp hshow
      exact ⟨e, .inl hget, hversion⟩
    · exact ⟨e, .inr ⟨q, hq, he⟩, hversion⟩
  · rintro ⟨e, hget | ⟨q, hq, he⟩, hversion⟩
    · exact .inl (Option.map_eq_some_iff.mpr ⟨e, hget, hversion⟩)
    · exact .inr ⟨q, hq, e, he, hversion⟩

theorem Left.of_same (hsame : Same h.log t.log) : Left t w ↔ Left h w := by
  rw [left_iff, left_iff]
  exact exists_congr fun e => and_congr_left' (holds_of_same hsame)

/-- A document that is neither visible nor staged does not come back: its version is not taken
again. -/
theorem step_left (htidy : Tidy h.log) (hlsn : w.version.2 ≤ h.log.nextLsn) {a : Step V H}
    (ha : Further a) (hleft : Left (CollectionHandle.step limits h a) w) : Left h w := by
  rw [left_iff] at hleft ⊢
  obtain ⟨e, hholds, hversion⟩ := hleft
  rcases holds_of_step limits htidy ha hholds with hholds | hlt
  · exact ⟨e, hholds, hversion⟩
  · have : e.lsn = w.version.2 := congrArg Prod.snd hversion
    omega

theorem steps_left {later : List (Step V H)} (htidy : Tidy h.log)
    (hlsn : w.version.2 ≤ h.log.nextLsn)
    (hlater : ∀ a ∈ later, Further a) (hleft : Left (steps limits h later) w) : Left h w := by
  induction later generalizing h with
  | nil => exact hleft
  | cons a later ih =>
    obtain ⟨htidy', hle⟩ := step_tidy limits htidy a
    have hstep : Left (CollectionHandle.step limits h a) w :=
      ih htidy' (hlsn.trans hle) (fun b hb => hlater b (List.mem_cons_of_mem a hb)) hleft
    exact step_left limits htidy hlsn (hlater a List.mem_cons_self) hstep

theorem shows_of_left (htidy : Tidy h.log) (hleft : Left h w) :
    ∃ later : List (Step V H), (∀ a ∈ later, Further a) ∧ Shows (steps limits h later) w := by
  rcases hleft with hshow | ⟨q, hq, e, he, hversion⟩
  · exact ⟨[], fun a ha => absurd ha List.not_mem_nil, hshow⟩
  refine ⟨[.applyCommitted q.frame.lsn true], ?_, ?_⟩
  · intro a ha
    rw [List.mem_singleton.mp ha]
    trivial
  have hp := (applyCommitted_publishes h q.frame.lsn true).published
  have hready : q ∈ h.log.coll.ready q.frame.lsn :=
    List.mem_filter.mpr ⟨hq, decide_eq_true (Nat.le_refl _)⟩
  obtain ⟨as, bs, hsplit⟩ := List.append_of_mem hready
  have hasc : Ascending (h.log.coll.ready q.frame.lsn) := htidy.ascending.filter _
  have htouch : lastTouch resolve (h.log.coll.ready q.frame.lsn) w.key = some (some e) := by
    apply lastTouch_eq_some.mpr
    refine ⟨as, q, bs, hsplit, he, ?_⟩
    intro r hr
    -- A frame behind it would have a higher LSN, and is not committed with it.
    have hmem : r ∈ h.log.coll.ready q.frame.lsn := by
      rw [hsplit]
      exact List.mem_append_right _ (List.mem_cons_of_mem q hr)
    have hle : r.frame.lsn ≤ q.frame.lsn := of_decide_eq_true (List.mem_filter.mp hmem).2
    rw [hsplit] at hasc
    have hlt := List.rel_of_pairwise_cons (List.pairwise_append.mp hasc).2.1 hr
    omega
  change (Index.get (h.applyCommitted q.frame.lsn true).log.coll.index w.key).map
    IndexEntry.version = some w.version
  rw [hp.index, Index.get_foldl, htouch]
  exact congrArg some hversion

theorem isStaged_of_stages {f : Frame (LogEntry V H)} (hs : Stages h.log f t.log) {d : Doc V}
    {migration : Bool}
    {clock : ℕ} (hentry : f.entry = d.entry migration clock) :
    IsStaged t ⟨d.key, (f.term, f.lsn)⟩ := by
  obtain ⟨walId, offset, hpending⟩ := hs.pending
  refine ⟨⟨f, walId, offset⟩, ?_, entryOf ⟨f, walId, offset⟩, ?_, ?_⟩
  · rw [hpending]
    exact self_mem_stageAt _ _
  · unfold resolve
    dsimp only
    rw [hentry]
    exact if_pos rfl
  · unfold entryOf
    dsimp only
    rw [hentry]
    rfl

theorem IsStaged.stages (hw : IsStaged h w) {f : Frame (LogEntry V H)} (hs : Stages h.log f t.log)
    (hlt : w.version.2 < f.lsn) : IsStaged t w := by
  obtain ⟨walId, offset, hpending⟩ := hs.pending
  obtain ⟨q, hq, e, he, hversion⟩ := hw
  have hlsn : q.frame.lsn = w.version.2 := by
    rw [← lsn_of_resolve he, ← hversion]
    rfl
  refine ⟨q, ?_, e, he, hversion⟩
  rw [hpending]
  exact mem_stageAt_of_ne hq (by dsimp only; omega)

end Documents

section Batches

variable {limits : Limits} {migration : Bool} {term : ℕ} {h : Handle V H} {out : List Written}
  {turns : List (Turn V H)} {f : Failure V H}

theorem putAll_error (htidy : Tidy h.log) (hout : ∀ w ∈ out, w.version.2 ≤ h.log.nextLsn)
    (hput : putAll limits migration term h out turns = .error f) :
    Same f.before.log f.after.log ∧ Tidy f.after.log ∧ ∀ w ∈ f.written,
      w.version.2 ≤ f.after.log.nextLsn := by
  induction turns generalizing h out with
  | nil => cases hput
  | cons turn turns ih =>
    obtain ⟨htidy', hle⟩ := steps_tidy limits turn.before htidy
    unfold putAll at hput
    dsimp only at hput
    rcases append_cases limits htidy' (turn.doc.entry migration turn.clock) term turn.io with
      ⟨t, ht, hsame, ht', -⟩ | ⟨t, g, ht, hs, ht', -, -, -, hlsn, -⟩
    · rw [ht] at hput
      cases hput
      exact ⟨hsame, ht', fun w hw => (hout w hw).trans (hle.trans hsame.nextLsn)⟩
    · rw [ht] at hput
      apply ih ht' _ hput
      intro w hw
      rcases List.mem_append.mp hw with hw | hw
      · have := hout w hw
        omega
      · rw [List.mem_singleton.mp hw]
        exact Nat.le_of_eq hlsn.symm

/-- With nothing coming in between, all that the batch has staged is still staged when an append
fails. -/
theorem putAll_undisturbed (htidy : Tidy h.log)
    (hout : ∀ w ∈ out, w.version.2 ≤ h.log.nextLsn ∧ IsStaged h w)
    (halone : ∀ turn ∈ turns, turn.before = [])
    (hput : putAll limits migration term h out turns = .error f) :
    ∀ w ∈ f.written, IsStaged f.before w := by
  induction turns generalizing h out with
  | nil => cases hput
  | cons turn turns ih =>
    unfold putAll at hput
    rw [halone turn List.mem_cons_self] at hput
    dsimp only [steps, List.foldl_nil] at hput
    rcases append_cases limits htidy (turn.doc.entry migration turn.clock) term turn.io with
      ⟨t, ht, -⟩ | ⟨t, g, ht, hs, ht', hentry, hterm, hg, hlsn, -⟩
    · rw [ht] at hput
      cases hput
      exact fun w hw => (hout w hw).2
    · rw [ht] at hput
      apply ih ht' _ (fun u hu => halone u (List.mem_cons_of_mem turn hu)) hput
      intro w hw
      rcases List.mem_append.mp hw with hw | hw
      · obtain ⟨hle, hstaged⟩ := hout w hw
        exact ⟨by omega, hstaged.stages hs (by omega)⟩
      · rw [List.mem_singleton.mp hw]
        have hstaged := isStaged_of_stages hs hentry
        rw [hterm, hg] at hstaged
        exact ⟨Nat.le_of_eq hlsn.symm, hstaged⟩

theorem putAll_of_inner {term : Option ℕ} {synced : Bool}
    (hfail : localWriteBatchInner limits term migration h turns synced = .error (.append f)) :
    ∃ term, putAll limits migration term h [] turns = .error f := by
  unfold localWriteBatchInner at hfail
  cases term with
  | none => cases hfail
  | some term =>
    dsimp only at hfail
    split at hfail
    · next g hput =>
      cases hfail
      exact ⟨term, hput⟩
    · split at hfail
      · cases hfail
      · cases hfail

/-- A bulk write that an append has ended leaves nothing behind exactly when none of its documents
is visible or staged as that append is made. When nothing else happens to the handle meanwhile, that
is when the first append is the one that fails. -/
theorem leaves_nothing_iff {term : Option ℕ} {synced : Bool} (hreached : Reached limits h)
    (hfail : localWriteBatchInner limits term migration h turns synced = .error (.append f)) :
    (LeavesNothing limits f ↔ ∀ w ∈ f.written, ¬Left f.before w) ∧
    ((∀ turn ∈ turns, turn.before = []) → (LeavesNothing limits f ↔ f.written = [])) := by
  obtain ⟨term, hput⟩ := putAll_of_inner hfail
  obtain ⟨hsame, htidy, hlsn⟩ :=
    putAll_error hreached.tidy (fun w hw => absurd hw List.not_mem_nil) hput
  have hiff : LeavesNothing limits f ↔ ∀ w ∈ f.written, ¬Left f.before w := by
    constructor
    · intro hnothing w hw hleft
      obtain ⟨later, hlater, hshow⟩ := shows_of_left limits htidy ((Left.of_same hsame).mpr hleft)
      exact hnothing later hlater w hw hshow
    · intro hnone later hlater w hw hshow
      apply hnone w hw
      rw [← Left.of_same hsame]
      exact steps_left limits htidy (hlsn w hw) hlater (.inl hshow)
  refine ⟨hiff, fun halone => ?_⟩
  rw [hiff]
  constructor
  · intro hnone
    apply List.eq_nil_iff_forall_not_mem.mpr
    intro w hw
    have hstaged := putAll_undisturbed hreached.tidy (fun w hw =>
      absurd hw List.not_mem_nil) halone hput
    exact hnone w hw (.inr (hstaged w hw))
  · intro hnil w hw
    rw [hnil] at hw
    cases hw

end Batches

/-- A document is given by the length of its record, which is ten bytes at most. -/
instance encodedLength : Encoded (LogEntry ℕ Unit) where
  len
    | .put _ _ length _ _ => min length 9 + 1
    | _ => 1
  maxRecordSize := 10
  len_pos e := by cases e <;> simp
  len_le e := by cases e <;> simp

def sixBytes : Limits := ⟨6, 100⟩

def emptyColl : Coll ℕ Unit := (⟨[], none, none, none, none⟩ : Disk ℕ Unit).opened none 0

def emptyHandle : Handle ℕ Unit := ⟨.ofColl emptyColl 0 [], false⟩

theorem reached_emptyHandle : Reached sixBytes emptyHandle :=
  ⟨emptyHandle, [], ⟨⟨[], none, none, none, none⟩, emptyColl, 0, [], rfl, rfl⟩, rfl⟩

def turnOf (key : String) (length : ℕ) : Turn ℕ Unit := ⟨[], ⟨key, length, none, none⟩, 7, .allDone⟩

def diskFull : Attempt := ⟨true, { FencedLog.AppendIo.allDone with write := .torn 20 true }⟩

def halfBatch : List (Turn ℕ Unit) := [turnOf "a" 1, { turnOf "b" 1 with io := diskFull }]

def overtakenBatch : List (Turn ℕ Unit) :=
  [turnOf "a" 1, { turnOf "b" 1 with
    before := [.appendRawFrame ⟨2, 1, 0, 0, .barrier 8⟩ .allDone]
    io := diskFull }]

def failureOf (turns : List (Turn ℕ Unit)) : Failure ℕ Unit :=
  match localWriteBatchInner sixBytes (some 1) false emptyHandle turns true with
  | .error (.append f) => f
  | _ => ⟨emptyHandle, emptyHandle, []⟩

/-- A first document that is too large, and a first document that was truncated before the second
one failed. -/
theorem leaves_nothing_overtaken : LeavesNothing sixBytes (failureOf [turnOf "a" 8, turnOf "b" 1]) ∧
    (failureOf overtakenBatch).written = [⟨"a", (1, 1)⟩] ∧
      LeavesNothing sixBytes (failureOf overtakenBatch) := by
  have hlarge : localWriteBatchInner sixBytes (some 1) false emptyHandle
    [turnOf "a" 8, turnOf "b" 1] true =
      .error (.append (failureOf [turnOf "a" 8, turnOf "b" 1])) := by decide
  have hfail : localWriteBatchInner sixBytes (some 1) false emptyHandle overtakenBatch true =
      .error (.append (failureOf overtakenBatch)) := by decide
  exact ⟨((leaves_nothing_iff reached_emptyHandle hlarge).2 (by decide)).mpr (by decide),
    by decide, (leaves_nothing_iff reached_emptyHandle hfail).1.mpr (by decide)⟩

/-- The write of the second document fails and so does the batch, and once another write is
committed the first document shows. -/
theorem half_batch_shows :
    localWriteBatchInner sixBytes (some 1) false emptyHandle halfBatch true =
      .error (.append (failureOf halfBatch)) ∧
    Shows (steps sixBytes (failureOf halfBatch).after
      [.append (.put false "c" 1 8 none) 1 .allDone, .syncWal true, .applyCommitted 2 true])
        ⟨"a", (1, 1)⟩ ∧
    ¬LeavesNothing sixBytes (failureOf halfBatch) := by
  have hshow : Shows (steps sixBytes (failureOf halfBatch).after
      [.append (.put false "c" 1 8 none) 1 .allDone, .syncWal true, .applyCommitted 2 true])
        ⟨"a", (1, 1)⟩ := by
    decide
  refine ⟨by decide, hshow, fun hnothing => ?_⟩
  apply hnothing _ _ ⟨"a", (1, 1)⟩ (by decide) hshow
  intro a ha
  simp only [List.mem_cons, List.not_mem_nil, or_false] at ha
  rcases ha with rfl | rfl | rfl <;> trivial

end DewDB.BulkWrites
