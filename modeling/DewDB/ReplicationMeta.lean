import DewDB.Endpoint

/-!
# The durable term and vote

`replication.meta` and its staging file, with `load` and `save` as the code runs them. A save either
writes the record, refuses it, or fails part way and leaves the staging file behind; whichever
happens, the recorded pair moves only forward.
-/
namespace DewDB.ReplicationMeta

/-- A node id, as `config.node_id` spells it. -/
abbrev NodeId := List Char

structure Meta where
  term : ℕ
  isLeader : Bool
  votedFor : Option NodeId
  deriving DecidableEq

/-- What a metadata file holds: a record, or bytes that do not parse as one. -/
inductive Content where
  | torn
  | whole (m : Meta)
  deriving DecidableEq

/-- `replication.meta` and `replication.meta.tmp`; `none` is an absent file. -/
structure Disk where
  file : Option Content
  tmp : Option Content
  deriving DecidableEq

/-- `unreadable`: what is there does not parse, so a term and vote may be forgotten. -/
inductive LoadError where
  | unreadable
  deriving DecidableEq

def load (d : Disk) : Except LoadError (Option Meta) :=
  match d.file, d.tmp with
  | some (.whole m), _ => .ok (some m)
  | _, some (.whole m) => .ok (some m)
  | none, none => .ok none
  | _, _ => .error .unreadable

inductive Fault where
  | read
  | create
  | write
  | syncOrRename
  deriving DecidableEq

/-- `write_atomic`: stage the record, then rename it over the file. The fsync of the directory,
whose failure is swallowed, changes no file that can be seen; what a power loss undoes of the rename
is left out. -/
def writeAtomic (m : Meta) (fault : Option Fault) (d : Disk) : Disk × Bool :=
  match fault with
  | none => (⟨some (.whole m), none⟩, true)
  | some .read => (d, false)
  | some .create => (d, false)
  | some .write => ({ d with tmp := some .torn }, false)
  | some .syncOrRename => ({ d with tmp := some (.whole m) }, false)

/-- `ReplicationMeta::save`. The flag is `Ok`. -/
def save (m : Meta) (fault : Option Fault) (d : Disk) : Disk × Bool :=
  if fault = some .read then (d, false)
  else
    match load d with
    | .error _ => (d, false)
    | .ok none => writeAtomic m fault d
    | .ok (some existing) =>
      if m.term < existing.term then (d, true)
      else if m.term = existing.term ∧ existing.votedFor.isSome ∧
        m.votedFor ≠ existing.votedFor then
        (d, false)
      else writeAtomic m fault d

/-- A later pair: a higher term, or the same term with the same vote or a first one. -/
def PairLe (t : ℕ) (v : Option NodeId) (t' : ℕ) (v' : Option NodeId) : Prop :=
  t < t' ∨ (t = t' ∧ (v = none ∨ v' = v))

theorem PairLe.refl (t : ℕ) (v : Option NodeId) : PairLe t v t v := .inr ⟨rfl, .inr rfl⟩

theorem PairLe.term_le {t t' : ℕ} {v v' : Option NodeId} (h : PairLe t v t' v') : t ≤ t' := by
  rcases h with h | ⟨h, -⟩ <;> omega

theorem PairLe.trans {t t' t'' : ℕ} {v v' v'' : Option NodeId} (h : PairLe t v t' v')
    (h' : PairLe t' v' t'' v'') : PairLe t v t'' v'' := by
  rcases h with h | ⟨rfl, hv⟩
  · exact .inl (Nat.lt_of_lt_of_le h h'.term_le)
  · rcases h' with h' | ⟨rfl, hv'⟩
    · exact .inl h'
    · refine .inr ⟨rfl, ?_⟩
      rcases hv with rfl | rfl
      · exact .inl rfl
      · exact hv'

theorem PairLe.vote_eq {t : ℕ} {c : NodeId} {v : Option NodeId} (h : PairLe t (some c) t v) :
    v = some c := by
  rcases h with h | ⟨-, h | h⟩
  · omega
  · cases h
  · exact h

/-- The disk is unreadable, or holds a pair no earlier than `(t, v)`. -/
def Remembers (d : Disk) (t : ℕ) (v : Option NodeId) : Prop :=
  match load d with
  | .error _ => True
  | .ok none => False
  | .ok (some m) => PairLe t v m.term m.votedFor

/-- Whatever `d` remembers, `d'` remembers; what `d` cannot read, `d'` cannot read either. -/
def DiskLe (d d' : Disk) : Prop :=
  (∀ t v, Remembers d t v → Remembers d' t v) ∧
    ((∃ e, load d = .error e) → ∃ e, load d' = .error e)

theorem DiskLe.refl (d : Disk) : DiskLe d d := ⟨fun _ _ h => h, fun h => h⟩

theorem DiskLe.trans {d d' d'' : Disk} (h : DiskLe d d') (h' : DiskLe d' d'') : DiskLe d d'' :=
  ⟨fun t v hr => h'.1 t v (h.1 t v hr), fun he => h'.2 (h.2 he)⟩

theorem Remembers.of_pairLe {d : Disk} {t t' : ℕ} {v v' : Option NodeId} (h : Remembers d t' v')
    (hle : PairLe t v t' v') : Remembers d t v := by
  unfold Remembers at h ⊢
  split at h
  · trivial
  · exact h
  · exact hle.trans h

theorem remembers_of_load {d : Disk} {m : Meta} (h : load d = .ok (some m)) :
    Remembers d m.term m.votedFor := by
  simp [Remembers, h, PairLe.refl]

theorem save_cases (m : Meta) (fault : Option Fault) (d : Disk) :
    (∃ e, load d = .ok (some e) ∧ m.term < e.term ∧ save m fault d = (d, true)) ∨
    save m fault d = (d, false) ∨
    ((load d = .ok none ∨
        ∃ e, load d = .ok (some e) ∧ PairLe e.term e.votedFor m.term m.votedFor) ∧
      save m fault d = writeAtomic m fault d) := by
  unfold save
  split_ifs with hread
  · exact .inr (.inl rfl)
  · cases hl : load d with
    | error e => exact .inr (.inl rfl)
    | ok r =>
      cases r with
      | none => exact .inr (.inr ⟨.inl rfl, rfl⟩)
      | some e =>
        dsimp only
        by_cases hlt : m.term < e.term
        · exact .inl ⟨e, rfl, hlt, by simp [hlt]⟩
        · by_cases hvote : m.term = e.term ∧ e.votedFor.isSome ∧ m.votedFor ≠ e.votedFor
          · exact .inr (.inl (by rw [if_neg hlt, if_pos hvote]))
          · refine .inr (.inr ⟨.inr ⟨e, rfl, ?_⟩, by rw [if_neg hlt, if_neg hvote]⟩)
            by_cases heq : m.term = e.term
            · refine .inr ⟨heq.symm, ?_⟩
              by_cases hnone : e.votedFor = none
              · exact .inl hnone
              · refine .inr ?_
                by_contra hne
                exact hvote ⟨heq, Option.isSome_iff_ne_none.mpr hnone, hne⟩
            · exact .inl (by omega)

/-- Writing a record over one that it follows keeps what the disk remembers. -/
theorem diskLe_writeAtomic {m : Meta} {d : Disk} (fault : Option Fault)
    (hprev : load d = .ok none ∨
      ∃ e, load d = .ok (some e) ∧ PairLe e.term e.votedFor m.term m.votedFor) :
    DiskLe d (writeAtomic m fault d).1 := by
  have hreadable : ¬ ∃ e, load d = .error e := by
    rintro ⟨e, he⟩
    rcases hprev with h | ⟨e', h, -⟩ <;> simp [he] at h
  have hwhole : ∀ d', load d' = .ok (some m) → DiskLe d d' := by
    intro d' hd'
    refine ⟨fun t v hr => ?_, fun h => absurd h hreadable⟩
    rcases hprev with h | ⟨e, h, hle⟩
    · simp [Remembers, h] at hr
    · have : PairLe t v e.term e.votedFor := by simpa [Remembers, h] using hr
      exact (remembers_of_load hd').of_pairLe (this.trans hle)
  have hsame : ∀ d', load d' = load d → DiskLe d d' := by
    intro d' hd'
    exact ⟨fun t v hr => by simpa [Remembers, hd'] using hr, fun h => absurd h hreadable⟩
  cases fault with
  | none => exact hwhole _ (by simp [writeAtomic, load])
  | some f =>
    cases f with
    | read => exact DiskLe.refl d
    | create => exact DiskLe.refl d
    | write =>
      obtain ⟨file, tmp⟩ := d
      rcases file with _ | _ | e
      -- Without a readable file the torn staging file makes the disk unreadable.
      · exact ⟨fun t v _ => by simp [Remembers, writeAtomic, load], fun h => absurd h hreadable⟩
      · exact ⟨fun t v _ => by simp [Remembers, writeAtomic, load], fun h => absurd h hreadable⟩
      · exact hsame _ (by simp [writeAtomic, load])
    | syncOrRename =>
      obtain ⟨file, tmp⟩ := d
      rcases file with _ | _ | e
      · exact hwhole _ (by simp [writeAtomic, load])
      · exact hwhole _ (by simp [writeAtomic, load])
      · exact hsame _ (by simp [writeAtomic, load])

theorem diskLe_save (m : Meta) (fault : Option Fault) (d : Disk) :
    DiskLe d (save m fault d).1 := by
  rcases save_cases m fault d with ⟨e, -, -, h⟩ | h | ⟨hprev, h⟩
  · rw [h]; exact DiskLe.refl d
  · rw [h]; exact DiskLe.refl d
  · rw [h]; exact diskLe_writeAtomic fault hprev

theorem remembers_of_save_ok {m : Meta} {fault : Option Fault} {d : Disk}
    (hok : (save m fault d).2 = true) : Remembers (save m fault d).1 m.term m.votedFor := by
  rcases save_cases m fault d with ⟨e, he, hlt, h⟩ | h | ⟨-, h⟩
  · rw [h]
    exact (remembers_of_load he).of_pairLe (.inl hlt)
  · simp [h] at hok
  · rw [h] at hok ⊢
    cases fault with
    | none => exact remembers_of_load (by simp [writeAtomic, load])
    | some f => cases f <;> simp [writeAtomic] at hok

end DewDB.ReplicationMeta
