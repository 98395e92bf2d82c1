import DewDB.LastTouch
import DewDB.QuorumConfig
import DewDB.WalFile

/-!
# Log entries and what committing them does

A keyed entry changes the index, which names for each live key the frame that last wrote it. The
other entries change what the collection keeps beside its keys. A replay and `apply_committed` do
this in two places of the source, and each has its own definition here. The inline copy of a small
value is a cache of the frame's payload and is left out, as are the postings of a secondary index.
-/
namespace DewDB.StorageEntry

open CollectionLog WalFile QuorumConfig LastTouch

structure IndexSpec where
  name : String
  field : String
  deriving DecidableEq

inductive IndexChange where
  | create (spec : IndexSpec)
  | drop (name : String)
  deriving DecidableEq

def putSpec (spec : IndexSpec) : List IndexSpec → List IndexSpec
  | [] => [spec]
  | s :: specs => if s.name = spec.name then spec :: specs else s :: putSpec spec specs

def IndexChange.applyTo : IndexChange → List IndexSpec → List IndexSpec
  | .create spec, specs => putSpec spec specs
  | .drop name, specs => specs.filter fun s => s.name ≠ name

def specNamed (specs : List IndexSpec) (name : String) : Option IndexSpec :=
  specs.find? fun s => s.name = name

/-- What the log holds; `V` is a document and `H` the record of a handover. -/
inductive LogEntry (V H : Type) where
  | put (migration : Bool) (key : String) (value : V) (ts : ℕ) (expireAt : Option ℕ)
  | del (migration : Bool) (key : String) (ts : ℕ)
  | barrier (ts : ℕ)
  | drop (ts : ℕ)
  | config (config : Configuration) (ts : ℕ)
  | handover (handover : H) (ts : ℕ)
  | index (change : IndexChange) (ts : ℕ)
  | ttl (ttlSecs : Option ℕ) (ts : ℕ)
  deriving DecidableEq

structure IndexEntry where
  walId : ℕ
  offset : ℕ
  len : ℕ
  lsn : ℕ
  term : ℕ
  ts : ℕ
  expireAt : Option ℕ
  deriving DecidableEq

def IndexEntry.version (e : IndexEntry) : ℕ × ℕ := (e.term, e.lsn)

abbrev Index := List (String × IndexEntry)

namespace Index

def get (m : Index) (key : String) : Option IndexEntry := (m.find? fun p => p.1 = key).map Prod.snd

def remove (m : Index) (key : String) : Index := m.filter fun p => p.1 ≠ key

def insert (m : Index) (key : String) (e : IndexEntry) : Index := (key, e) :: m.remove key

end Index

structure Settings (H : Type) where
  dropped : Bool
  config : Option Configuration
  handover : Option H
  indexes : List IndexSpec
  ttlSecs : Option ℕ
  deriving DecidableEq

variable {V H : Type}

def Settings.fresh : Settings H := ⟨false, none, none, [], none⟩

def Configuration.canonicalized (c : Configuration) : Configuration :=
  match c.outgoing with
  | some outgoing => joint outgoing c.voters
  | none => simple c.voters

namespace Settings

def replay (s : Settings H) : LogEntry V H → Settings H
  | .put .. | .del .. => { s with dropped := false }
  | .barrier _ => s
  | .drop _ => { s with
      dropped := true
      indexes := []
      ttlSecs := none }
  | .config c _ => { s with config := some c }
  | .handover h _ => { s with handover := some h }
  | .index change _ => { s with indexes := change.applyTo s.indexes }
  | .ttl ttlSecs _ => { s with ttlSecs }

/-- An uncommitted frame in a replay, which keeps committed definitions and those in force in one
list. -/
def stage (s : Settings H) : LogEntry V H → Settings H
  | .drop _ => { s with indexes := [] }
  | .index change _ => { s with indexes := change.applyTo s.indexes }
  | _ => s

/-- A staged frame in `apply_committed`. -/
def publish (s : Settings H) : LogEntry V H → Settings H
  | .config c _ => { s with config := some (Configuration.canonicalized c) }
  | e => s.replay e

/-- Whether `apply_committed` counts the frame as a change that `applied.meta` has to be rewritten
for. -/
def bumps (s : Settings H) : LogEntry V H → Bool
  | .put .. | .del .. => s.dropped
  | .barrier _ => false
  | .drop _ => !s.indexes.isEmpty || s.ttlSecs.isSome || !s.dropped
  | .config .. | .handover .. | .index .. => true
  | .ttl ttlSecs _ => s.ttlSecs != ttlSecs

end Settings

section Keys

variable [Encoded (LogEntry V H)]

/-- The index entry of a put at this position; `build_entry`. -/
def entryOf (q : Spot (LogEntry V H)) : IndexEntry :=
  match q.frame.entry with
  | .put _ _ _ ts expireAt =>
    ⟨q.walId, q.offset, Encoded.len q.frame.entry, q.frame.lsn, q.frame.term, ts, expireAt⟩
  | _ => ⟨q.walId, q.offset, Encoded.len q.frame.entry, q.frame.lsn, q.frame.term, 0, none⟩

theorem entryOf_shape (q : Spot (LogEntry V H)) : ∃ ts expireAt, entryOf q =
    ⟨q.walId, q.offset, Encoded.len q.frame.entry, q.frame.lsn, q.frame.term, ts, expireAt⟩ := by
  unfold entryOf
  split
  · exact ⟨_, _, rfl⟩
  · exact ⟨_, _, rfl⟩

theorem entryOf_walId (q : Spot (LogEntry V H)) : (entryOf q).walId = q.walId := by
  obtain ⟨_, _, h⟩ := entryOf_shape q
  rw [h]

theorem entryOf_move (f : Frame (LogEntry V H)) (id id' offset offset' : ℕ) :
    entryOf ⟨f, id', offset'⟩ = { entryOf ⟨f, id, offset⟩ with
      walId := id'
      offset := offset' } := by
  unfold entryOf
  dsimp only
  split <;> rfl

theorem entryOf_offset (q : Spot (LogEntry V H)) : (entryOf q).offset = q.offset := by
  obtain ⟨_, _, h⟩ := entryOf_shape q
  rw [h]

theorem entryOf_len (q : Spot (LogEntry V H)) : (entryOf q).len = Encoded.len q.frame.entry := by
  obtain ⟨_, _, h⟩ := entryOf_shape q
  rw [h]

theorem entryOf_lsn (q : Spot (LogEntry V H)) : (entryOf q).lsn = q.frame.lsn := by
  obtain ⟨_, _, h⟩ := entryOf_shape q
  rw [h]

def Index.replay (m : Index) (q : Spot (LogEntry V H)) : Index :=
  match q.frame.entry with
  | .put _ key _ _ _ => m.insert key (entryOf q)
  | .del _ key _ => m.remove key
  | .drop _ => []
  | _ => m

/-- What the frame leaves for the key: nothing said, gone, or the entry. -/
def resolve (q : Spot (LogEntry V H)) (key : String) : Option (Option IndexEntry) :=
  match q.frame.entry with
  | .put _ k _ _ _ => if k = key then some (some (entryOf q)) else none
  | .del _ k _ => if k = key then some none else none
  | .drop _ => some none
  | _ => none

end Keys

section Lookup

namespace Index

theorem get_remove (m : Index) (k key : String) :
    (m.remove k).get key = if k = key then none else m.get key := by
  induction m with
  | nil => simp [get, remove]
  | cons p m ih =>
    simp only [get, remove] at ih ⊢
    by_cases hk : k = key
    · subst hk
      by_cases hp : p.1 = k <;> simp_all
    · by_cases hp : p.1 = k
      · have hne : p.1 ≠ key := fun h => hk (hp.symm.trans h)
        simp_all
      · by_cases hpk : p.1 = key <;> simp_all

theorem get_insert (m : Index) (k key : String) (e : IndexEntry) :
    (m.insert k e).get key = if k = key then some e else m.get key := by
  have := get_remove m k key
  by_cases h : k = key
  · simp [insert, get, h]
  · rw [if_neg h] at this ⊢
    simpa [insert, get, h] using this

theorem mem_of_get {m : Index} {key : String} {e : IndexEntry} (h : m.get key = some e) :
    (key, e) ∈ m := by
  obtain ⟨p, hp, rfl⟩ := Option.map_eq_some_iff.mp h
  have hkey := List.find?_some hp
  simp only [decide_eq_true_eq] at hkey
  exact hkey ▸ List.mem_of_find?_eq_some hp

theorem get_of_mem {m : Index} (hm : (m.map Prod.fst).Nodup) {key : String} {e : IndexEntry}
    (h : (key, e) ∈ m) : m.get key = some e := by
  induction m with
  | nil => simp at h
  | cons p m ih =>
    rw [List.map_cons, List.nodup_cons] at hm
    rcases List.mem_cons.mp h with rfl | h
    · simp [get]
    · have hne : p.1 ≠ key := fun hp => hm.1 (hp ▸ List.mem_map_of_mem h)
      simpa [get, hne] using ih hm.2 h

theorem nodup_remove {m : Index} (hm : (m.map Prod.fst).Nodup) (key : String) :
    ((m.remove key).map Prod.fst).Nodup := hm.sublist (List.filter_sublist.map _)

theorem nodup_insert {m : Index} (hm : (m.map Prod.fst).Nodup) (key : String) (e : IndexEntry) :
    ((m.insert key e).map Prod.fst).Nodup := by
  rw [insert, List.map_cons, List.nodup_cons]
  refine ⟨fun h => ?_, nodup_remove hm key⟩
  obtain ⟨p, hp, hkey⟩ := List.mem_map.mp h
  exact of_decide_eq_true (List.mem_filter.mp hp).2 hkey

theorem get_map (m : Index) (g : IndexEntry → IndexEntry) (key : String) :
    get (m.map fun p => (p.1, g p.2)) key = (m.get key).map g := by
  induction m with
  | nil => rfl
  | cons p m ih =>
    by_cases hp : p.1 = key
    · simp [get, hp]
    · simpa [get, hp] using ih

variable [Encoded (LogEntry V H)]

theorem get_replay (m : Index) (q : Spot (LogEntry V H)) (key : String) :
    (m.replay q).get key = (resolve q key).getD (m.get key) := by
  unfold replay resolve
  split
  · rw [get_insert]
    split <;> simp
  · rw [get_remove]
    split <;> simp
  · rfl
  · rfl

/-- A whole replay leaves, for each key, what the last frame to touch it leaves. -/
theorem get_foldl (m : Index) (qs : List (Spot (LogEntry V H))) (key : String) :
    (qs.foldl replay m).get key = (lastTouch resolve qs key).getD (m.get key) :=
  look_foldl get_replay m qs key

theorem nodup_replay {m : Index} (hm : (m.map Prod.fst).Nodup) (q : Spot (LogEntry V H)) :
    ((m.replay q).map Prod.fst).Nodup := by
  unfold replay
  split
  · exact nodup_insert hm _ _
  · exact nodup_remove hm _
  · exact List.nodup_nil
  · exact hm

theorem mem_replay {m : Index} {q : Spot (LogEntry V H)} {p : String × IndexEntry}
    (h : p ∈ m.replay q) : p ∈ m ∨ resolve q p.1 = some (some p.2) := by
  unfold replay at h
  unfold resolve
  split at h
  · rcases List.mem_cons.mp h with rfl | h
    · next hq => exact .inr (by simp)
    · exact .inl (List.mem_of_mem_filter h)
  · exact .inl (List.mem_of_mem_filter h)
  · simp at h
  · exact .inl h

theorem mem_foldl_replay {m : Index} {qs : List (Spot (LogEntry V H))} {p : String × IndexEntry}
    (h : p ∈ qs.foldl replay m) : p ∈ m ∨ ∃ q ∈ qs, resolve q p.1 = some (some p.2) := by
  induction qs generalizing m with
  | nil => exact .inl h
  | cons q qs ih =>
    rcases ih h with hm | ⟨r, hr, hp⟩
    · rcases mem_replay hm with hm | hq
      · exact .inl hm
      · exact .inr ⟨q, List.mem_cons_self, hq⟩
    · exact .inr ⟨r, List.mem_cons_of_mem _ hr, hp⟩

theorem nodup_foldl_replay {m : Index} (hm : (m.map Prod.fst).Nodup)
    (qs : List (Spot (LogEntry V H))) : ((qs.foldl replay m).map Prod.fst).Nodup := by
  induction qs generalizing m with
  | nil => exact hm
  | cons q qs ih => exact ih (nodup_replay hm q)

end Index

theorem resolve_put [Encoded (LogEntry V H)] {q : Spot (LogEntry V H)} {key : String}
    {e : IndexEntry} (h : resolve q key = some (some e)) :
    e = entryOf q ∧ ∃ migration value ts expireAt,
      q.frame.entry = .put migration key value ts expireAt := by
  unfold resolve at h
  split at h
  · next hq =>
    split at h
    · next hk =>
      subst hk
      exact ⟨(Option.some.inj (Option.some.inj h)).symm, _, _, _, _, hq⟩
    · simp at h
  · split at h <;> simp at h
  · simp at h
  · simp at h

end Lookup

end DewDB.StorageEntry
