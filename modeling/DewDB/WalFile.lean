import Mathlib.Algebra.Ring.Nat
import DewDB.CollectionLog
import Mathlib.Data.List.Sort

/-!
# WAL files

A WAL file is a run of frames, each a header and a payload. A write that fails part-way leaves a
torn piece behind, and what follows a torn piece cannot be read back. `synced` counts the pieces
that the last successful fsync of the file covered. A directory lists its files in the order of
their ids.
-/
namespace DewDB.WalFile

open CollectionLog

variable {β : Type}

def headerLen : ℕ := 40

/-- A whole frame, or `bytes` bytes that are not one; `header` is the frame whose header they begin
with, when they hold a whole header. -/
inductive Chunk (β : Type) where
  | frame (f : Frame β)
  | torn (header : Option (Frame β)) (bytes : ℕ)
  deriving DecidableEq

def Chunk.frame? : Chunk β → Option (Frame β)
  | .frame f => some f
  | .torn _ _ => none

/-- The first `n` bytes of a frame. -/
def tear (f : Frame β) (n : ℕ) : Chunk β := .torn (if headerLen ≤ n then some f else none) n

def Chunk.cut : Chunk β → ℕ → Chunk β
  | .frame f, n => tear f n
  | .torn header _, n => .torn (if headerLen ≤ n then header else none) n

def frames (cs : List (Chunk β)) : List (Frame β) := cs.filterMap Chunk.frame?

structure File (β : Type) where
  id : ℕ
  chunks : List (Chunk β)
  synced : ℕ
  deriving DecidableEq

namespace File

def frames (F : File β) : List (Frame β) := WalFile.frames F.chunks

/-- The frames that lie in bytes a successful fsync has covered. -/
def covered (F : File β) : List (Frame β) := WalFile.frames (F.chunks.take F.synced)

def uncovered (F : File β) : List (Frame β) := WalFile.frames (F.chunks.drop F.synced)

def write (c : Chunk β) (F : File β) : File β := { F with chunks := F.chunks ++ [c] }

def sync (F : File β) : File β := { F with synced := F.chunks.length }

end File

/-- Applies `g` to the file with this id. -/
def onFile (id : ℕ) (g : File β → File β) (fs : List (File β)) : List (File β) :=
  fs.map fun F => if F.id = id then g F else F

/-- `OpenOptions::create(true)`: a file that is there stays as it is. -/
def openFile (id : ℕ) : List (File β) → List (File β)
  | [] => [⟨id, [], 0⟩]
  | F :: fs => if id < F.id then ⟨id, [], 0⟩ :: F :: fs else if id = F.id then F :: fs
    else F :: openFile id fs

/-- The encoded length of a payload. A record is never empty, and `append` refuses a larger one. -/
class Encoded (β : Type) where
  len : β → ℕ
  maxRecordSize : ℕ
  len_pos : ∀ b, 0 < len b
  len_le : ∀ b, len b ≤ maxRecordSize

instance : Encoded Bool := ⟨fun _ => 1, 1, fun _ => Nat.one_pos, fun _ => Nat.le_refl _⟩

section Sizes

variable [Encoded β]

def frameLen (f : Frame β) : ℕ := headerLen + Encoded.len f.entry

def Chunk.size : Chunk β → ℕ
  | .frame f => frameLen f
  | .torn _ bytes => bytes

def bytes (cs : List (Chunk β)) : ℕ := (cs.map Chunk.size).sum

/-- The first `n` bytes, padded with zeros when there are fewer. -/
def takeBytes : ℕ → List (Chunk β) → List (Chunk β)
  | n, [] => if n = 0 then [] else [.torn none n]
  | n, c :: cs =>
    if c.size ≤ n then c :: takeBytes (n - c.size) cs else if n = 0 then [] else [c.cut n]

def File.setLen (n : ℕ) (F : File β) : File β :=
  { F with chunks := takeBytes n F.chunks, synced := min F.synced (takeBytes n F.chunks).length }

structure Spot (β : Type) where
  frame : Frame β
  walId : ℕ
  offset : ℕ
  deriving DecidableEq

/-- The frames that reading from `offset` on finds, up to the first torn piece. -/
def layout (id offset : ℕ) : List (Chunk β) → List (Spot β)
  | .frame f :: cs => ⟨f, id, offset⟩ :: layout id (offset + frameLen f) cs
  | _ => []

def File.spots (F : File β) : List (Spot β) := layout F.id 0 F.chunks

def spots (fs : List (File β)) : List (Spot β) := fs.flatMap File.spots

def PosLe (w o w' o' : ℕ) : Prop := w < w' ∨ w = w' ∧ o ≤ o'

def Keeps (fs : List (File β)) (w o : ℕ) (f : Frame β) : Prop :=
  ∃ F ∈ fs, F.id < w ∧ f ∈ F.frames ∨ F.id = w ∧ f ∈ frames (takeBytes o F.chunks)

end Sizes

section Lemmas

@[simp] theorem frames_append (as bs : List (Chunk β)) :
    frames (as ++ bs) = frames as ++ frames bs := List.filterMap_append

@[simp] theorem frames_cons_frame (f : Frame β) (cs : List (Chunk β)) :
    frames (.frame f :: cs) = f :: frames cs := rfl

@[simp] theorem frames_cons_torn (h : Option (Frame β)) (n : ℕ) (cs : List (Chunk β)) :
    frames (.torn h n :: cs) = frames cs := rfl

@[simp] theorem frames_nil : frames ([] : List (Chunk β)) = [] := rfl

@[simp] theorem frames_cut (c : Chunk β) (n : ℕ) : frames [c.cut n] = [] := by
  cases c <;> rfl

theorem File.frames_eq (F : File β) : F.frames = F.covered ++ F.uncovered := by
  rw [File.frames, File.covered, File.uncovered, ← frames_append, List.take_append_drop]

theorem File.uncovered_sync (F : File β) : F.sync.uncovered = [] := by
  simp [File.uncovered, File.sync]

theorem File.frames_write (F : File β) (c : Chunk β) :
    (F.write c).frames = F.frames ++ WalFile.frames [c] := by
  simp [File.frames, File.write]

theorem File.mem_uncovered_write {F : File β} {c : Chunk β} {f : Frame β}
    (h : f ∈ (F.write c).uncovered) : f ∈ F.uncovered ∨ f ∈ WalFile.frames [c] := by
  simp only [File.uncovered, File.write, List.drop_append, frames_append, List.mem_append] at h
  refine h.imp_right fun h => ?_
  simp only [WalFile.frames, List.mem_filterMap] at h ⊢
  obtain ⟨d, hd, hdf⟩ := h
  exact ⟨d, List.mem_of_mem_drop hd, hdf⟩

theorem mem_onFile {id : ℕ} {g : File β → File β} {fs : List (File β)} {F : File β} :
    F ∈ onFile id g fs ↔ ∃ E ∈ fs, F = if E.id = id then g E else E := by
  simp [onFile, eq_comm]

theorem eq_of_mem_onFile {id : ℕ} {g : File β → File β} {fs : List (File β)} {F : File β}
    (h : F ∈ onFile id g fs) (hid : F.id = id) : ∃ E ∈ fs, E.id = id ∧ F = g E := by
  obtain ⟨E, hE, rfl⟩ := mem_onFile.mp h
  by_cases he : E.id = id
  · exact ⟨E, hE, he, if_pos he⟩
  · rw [if_neg he] at hid
    exact absurd hid he

theorem mem_of_mem_onFile {id : ℕ} {g : File β → File β} {fs : List (File β)} {F : File β}
    (h : F ∈ onFile id g fs) (hid : F.id ≠ id) (hg : ∀ F, (g F).id = F.id) : F ∈ fs := by
  obtain ⟨E, hE, rfl⟩ := mem_onFile.mp h
  by_cases he : E.id = id
  · rw [if_pos he, hg] at hid
    exact absurd he hid
  · rwa [if_neg he]

theorem onFile_ids {id : ℕ} {g : File β → File β} (hg : ∀ F, (g F).id = F.id)
    (fs : List (File β)) : (onFile id g fs).map File.id = fs.map File.id := by
  induction fs with
  | nil => rfl
  | cons F fs ih =>
    simp only [onFile, List.map_cons, List.cons.injEq] at ih ⊢
    refine ⟨?_, ih⟩
    split
    · exact hg F
    · rfl

theorem eq_of_id_eq {fs : List (File β)} (hsorted : (fs.map File.id).Pairwise (· < ·))
    {F E : File β} (hF : F ∈ fs) (hE : E ∈ fs) (h : F.id = E.id) : F = E := by
  induction fs with
  | nil => simp at hF
  | cons G fs ih =>
    simp only [List.map_cons, List.pairwise_cons, List.mem_map, forall_exists_index,
      and_imp] at hsorted
    rcases List.mem_cons.mp hF with rfl | hF'
    · rcases List.mem_cons.mp hE with rfl | hE'
      · rfl
      · have := hsorted.1 _ E hE' rfl
        omega
    · rcases List.mem_cons.mp hE with rfl | hE'
      · have := hsorted.1 _ F hF' rfl
        omega
      · exact ih hsorted.2 hF' hE'

theorem mem_openFile {id : ℕ} {fs : List (File β)} {F : File β} (h : F ∈ openFile id fs) :
    F ∈ fs ∨ F = ⟨id, [], 0⟩ := by
  induction fs with
  | nil => exact .inr (by simpa [openFile] using h)
  | cons E fs ih =>
    simp only [openFile] at h
    split at h
    · rcases List.mem_cons.mp h with h | h
      · exact .inr h
      · exact .inl h
    · split at h
      · exact .inl h
      · rcases List.mem_cons.mp h with h | h
        · exact .inl (h ▸ List.mem_cons_self)
        · rcases ih h with h | h
          · exact .inl (List.mem_cons_of_mem _ h)
          · exact .inr h

theorem mem_openFile_of_mem {id : ℕ} {fs : List (File β)} {F : File β} (h : F ∈ fs) :
    F ∈ openFile id fs := by
  induction fs with
  | nil => simp at h
  | cons E fs ih =>
    simp only [openFile]
    split
    · exact List.mem_cons_of_mem _ h
    · split
      · exact h
      · rcases List.mem_cons.mp h with h | h
        · exact h ▸ List.mem_cons_self
        · exact List.mem_cons_of_mem _ (ih h)

theorem exists_mem_openFile (id : ℕ) (fs : List (File β)) : ∃ F ∈ openFile id fs, F.id = id := by
  induction fs with
  | nil => exact ⟨_, List.mem_singleton_self _, rfl⟩
  | cons E fs ih =>
    simp only [openFile]
    split
    · exact ⟨_, List.mem_cons_self, rfl⟩
    · split
      · next h => exact ⟨E, List.mem_cons_self, h.symm⟩
      · obtain ⟨F, hF, hid⟩ := ih
        exact ⟨F, List.mem_cons_of_mem _ hF, hid⟩

theorem openFile_sorted {id : ℕ} {fs : List (File β)} (h : (fs.map File.id).Pairwise (· < ·)) :
    ((openFile id fs).map File.id).Pairwise (· < ·) := by
  induction fs with
  | nil => simp [openFile]
  | cons F fs ih =>
    simp only [List.map_cons, List.pairwise_cons, List.mem_map, forall_exists_index, and_imp] at h
    simp only [openFile]
    split
    · next hlt =>
      simp only [List.map_cons, List.pairwise_cons, List.mem_cons, List.mem_map, forall_eq_or_imp,
        forall_exists_index, and_imp]
      refine ⟨⟨hlt, fun _ E hE hid => ?_⟩, h⟩
      have := h.1 _ E hE rfl
      omega
    · split
      · simp only [List.map_cons, List.pairwise_cons, List.mem_map, forall_exists_index, and_imp]
        exact h
      · next h₁ h₂ =>
        simp only [List.map_cons, List.pairwise_cons, List.mem_map, forall_exists_index, and_imp]
        refine ⟨fun _ E hE hid => ?_, ih h.2⟩
        rcases mem_openFile hE with hE | rfl
        · exact h.1 _ E hE hid
        · simp only at hid
          omega

variable [Encoded β]

theorem frameLen_pos (f : Frame β) : 0 < frameLen f := by
  unfold frameLen headerLen
  omega

@[simp] theorem bytes_nil : bytes ([] : List (Chunk β)) = 0 := rfl

@[simp] theorem bytes_cons (c : Chunk β) (cs : List (Chunk β)) :
    bytes (c :: cs) = c.size + bytes cs := by
  simp [bytes]

@[simp] theorem bytes_append (as bs : List (Chunk β)) : bytes (as ++ bs) = bytes as + bytes bs := by
  simp [bytes]

theorem takeBytes_bytes (cs : List (Chunk β)) : takeBytes (bytes cs) cs = cs := by
  induction cs with
  | nil => simp [takeBytes]
  | cons c cs ih => simp [takeBytes, ih]

theorem bytes_takeBytes (n : ℕ) (cs : List (Chunk β)) : bytes (takeBytes n cs) = n := by
  induction cs generalizing n with
  | nil =>
    simp only [takeBytes]
    split
    · next h => simp [h]
    · simp [Chunk.size]
  | cons c cs ih =>
    simp only [takeBytes]
    split
    · next h =>
      rw [bytes_cons, ih]
      omega
    · split
      · next h => simp [h]
      · cases c <;> simp [Chunk.cut, tear, Chunk.size]

theorem frames_eq_nil_of_bytes {cs : List (Chunk β)} (h : bytes cs = 0) : frames cs = [] := by
  induction cs with
  | nil => rfl
  | cons c cs ih =>
    rw [bytes_cons] at h
    cases c with
    | frame f =>
      have := frameLen_pos f
      simp only [Chunk.size] at h
      omega
    | torn _ _ => exact ih (by omega)

theorem File.uncovered_eq_nil_of_bytes {F : File β} (h : bytes F.chunks = 0) :
    F.uncovered = [] := by
  have := F.frames_eq
  rw [File.frames, frames_eq_nil_of_bytes h] at this
  exact (List.append_eq_nil_iff.mp this.symm).2

/-- Whole frames within the first `n` bytes stay there when more is written behind them. -/
theorem mem_frames_takeBytes_append {n : ℕ} {cs ds : List (Chunk β)} {f : Frame β}
    (h : f ∈ frames (takeBytes n cs)) : f ∈ frames (takeBytes n (cs ++ ds)) := by
  induction cs generalizing n with
  | nil =>
    simp only [takeBytes] at h
    split at h <;> simp at h
  | cons c cs ih =>
    simp only [takeBytes, List.cons_append] at h ⊢
    split at h
    · next hle =>
      rw [if_pos hle]
      cases c with
      | frame g =>
        simp only [frames_cons_frame, List.mem_cons] at h ⊢
        exact h.imp_right ih
      | torn _ _ => exact ih h
    · split at h <;> simp at h

theorem mem_frames_of_takeBytes {n : ℕ} {cs : List (Chunk β)} {f : Frame β}
    (h : f ∈ frames (takeBytes n cs)) : f ∈ frames cs := by
  induction cs generalizing n with
  | nil =>
    simp only [takeBytes] at h
    split at h <;> simp at h
  | cons c cs ih =>
    simp only [takeBytes] at h
    split at h
    · cases c with
      | frame g =>
        simp only [frames_cons_frame, List.mem_cons] at h ⊢
        exact h.imp_right ih
      | torn _ _ => exact ih h
    · split at h <;> simp at h

theorem mem_frames_takeBytes_takeBytes {m n : ℕ} {cs : List (Chunk β)} {f : Frame β} (hle : m ≤ n)
    (h : f ∈ frames (takeBytes m cs)) : f ∈ frames (takeBytes m (takeBytes n cs)) := by
  induction cs generalizing m n with
  | nil =>
    simp only [takeBytes] at h
    split at h <;> simp at h
  | cons c cs ih =>
    simp only [takeBytes] at h
    split at h
    · next hc =>
      have hn : c.size ≤ n := by omega
      simp only [takeBytes, if_pos hn, if_pos hc]
      cases c with
      | frame g =>
        simp only [frames_cons_frame, List.mem_cons] at h ⊢
        exact h.imp_right (ih (by omega))
      | torn _ _ => exact ih (by omega) h
    · split at h <;> simp at h

theorem uncovered_setLen {n : ℕ} {F : File β} {f : Frame β} (h : f ∈ (F.setLen n).uncovered) :
    f ∈ F.uncovered := by
  have key : ∀ (cs : List (Chunk β)) (n k : ℕ),
      f ∈ frames ((takeBytes n cs).drop (min k (takeBytes n cs).length)) →
        f ∈ frames (cs.drop k) := by
    intro cs
    induction cs with
    | nil =>
      intro n k h
      have := mem_frames_of_takeBytes (n :=
        n) (show f ∈ frames (takeBytes n ([] : List (Chunk β))) by
          simp only [frames, List.mem_filterMap] at h ⊢
          obtain ⟨c, hc, hcf⟩ := h
          exact ⟨c, List.mem_of_mem_drop hc, hcf⟩)
      simp at this
    | cons c cs ih =>
      intro n k h
      simp only [takeBytes] at h
      split at h
      · cases k with
        | zero =>
          refine mem_frames_of_takeBytes (n := n) ?_
          next hc => simpa [takeBytes, hc] using h
        | succ k =>
          simp only [List.length_cons, Nat.add_min_add_right, List.drop_succ_cons] at h ⊢
          exact ih _ _ h
      · split at h
        · simp at h
        · simp only [frames, List.mem_filterMap] at h
          obtain ⟨d, hd, hdf⟩ := h
          obtain rfl := List.mem_singleton.mp (List.mem_of_mem_drop hd)
          cases c <;> simp [Chunk.cut, tear, Chunk.frame?] at hdf
  exact key _ _ _ h

theorem Keeps.mem {fs : List (File β)} {w o : ℕ} {f : Frame β} (h : Keeps fs w o f) :
    ∃ F ∈ fs, f ∈ F.frames := by
  obtain ⟨F, hF, ⟨-, hf⟩ | ⟨-, hf⟩⟩ := h
  · exact ⟨F, hF, hf⟩
  · exact ⟨F, hF, mem_frames_of_takeBytes hf⟩

theorem Keeps.mono {fs fs' : List (File β)} {w o : ℕ} {f : Frame β} (h : Keeps fs w o f)
    (hsub : ∀ F ∈ fs, ∃ G ∈ fs', G.id = F.id ∧ F.chunks <+: G.chunks) : Keeps fs' w o f := by
  obtain ⟨F, hF, hf⟩ := h
  obtain ⟨G, hG, hid, ds, hds⟩ := hsub F hF
  refine ⟨G, hG, ?_⟩
  rw [hid]
  rcases hf with ⟨hlt, hf⟩ | ⟨heq, hf⟩
  · refine .inl ⟨hlt, ?_⟩
    rw [File.frames, ← hds, frames_append]
    exact List.mem_append_left _ hf
  · refine .inr ⟨heq, ?_⟩
    rw [← hds]
    exact mem_frames_takeBytes_append hf

theorem Keeps.onFile_write {fs : List (File β)} {w o id : ℕ} {f : Frame β} {c : Chunk β}
    (h : Keeps fs w o f) : Keeps (onFile id (File.write c) fs) w o f := by
  refine h.mono fun F hF => ⟨_, mem_onFile.mpr ⟨F, hF, rfl⟩, ?_, ?_⟩
  · split <;> rfl
  · split
    · exact List.prefix_append _ _
    · exact List.prefix_rfl

theorem mem_frames_of_layout {id n : ℕ} {cs : List (Chunk β)} {q : Spot β}
    (h : q ∈ layout id n cs) : q.walId = id ∧ n ≤ q.offset ∧ q.frame ∈ frames cs := by
  induction cs generalizing n with
  | nil => simp [layout] at h
  | cons c cs ih =>
    cases c with
    | torn _ _ => simp [layout] at h
    | frame f =>
      simp only [layout, List.mem_cons] at h
      rcases h with rfl | h
      · simp
      · obtain ⟨hid, hle, hmem⟩ := ih h
        exact ⟨hid, by omega, by simp [hmem]⟩

/-- The frames that a file lists in front of `q` lie in the bytes in front of it. -/
theorem mem_takeBytes_of_layout {id n : ℕ} {cs : List (Chunk β)} {A B : List (Spot β)}
    {q p : Spot β} (h : layout id n cs = A ++ q :: B) (hp : p ∈ A) :
    p.frame ∈ frames (takeBytes (q.offset - n) cs) ∧ p.offset < q.offset := by
  induction cs generalizing n A with
  | nil => simp [layout] at h
  | cons c cs ih =>
    cases c with
    | torn _ _ => simp [layout] at h
    | frame f =>
      have hpos := frameLen_pos f
      cases A with
      | nil => simp at hp
      | cons a A =>
        simp only [layout, List.cons_append, List.cons.injEq] at h
        obtain ⟨rfl, h⟩ := h
        have hq : q ∈ layout id (n + frameLen f) cs := by simp [h]
        have hle := (mem_frames_of_layout hq).2.1
        have hsize : (Chunk.frame f).size ≤ q.offset - n := by
          simp only [Chunk.size]
          omega
        simp only [takeBytes, if_pos hsize, frames_cons_frame, List.mem_cons]
        rcases List.mem_cons.mp hp with rfl | hp
        · exact ⟨.inl rfl, by simp only; omega⟩
        · have := ih h hp
          simp only [Chunk.size, Nat.sub_sub]
          exact ⟨.inr this.1, this.2⟩

/-- The frames that a directory lists in front of `q` are kept by a cut at `q`. -/
theorem keeps_of_spots {fs : List (File β)} (hsorted : (fs.map File.id).Pairwise (· < ·))
    {A B : List (Spot β)} {q p : Spot β} (h : spots fs = A ++ q :: B) (hp : p ∈ A) :
    Keeps fs q.walId q.offset p.frame ∧ PosLe p.walId p.offset q.walId q.offset := by
  induction fs generalizing A with
  | nil => simp [spots] at h
  | cons F fs ih =>
    simp only [List.map_cons, List.pairwise_cons, List.mem_map, forall_exists_index,
      and_imp] at hsorted
    simp only [spots, List.flatMap_cons] at h
    rcases List.append_eq_append_iff.mp h with ⟨A', rfl, h'⟩ | ⟨C, hC, h'⟩
    -- `q` lies in a later file.
    · have hq : q ∈ spots fs := by
        rw [spots, h']
        simp
      obtain ⟨G, hG, hqG⟩ := List.mem_flatMap.mp hq
      have hlt := hsorted.1 _ G hG rfl
      have hid := (mem_frames_of_layout hqG).1
      rcases List.mem_append.mp hp with hp | hp
      · obtain ⟨hpid, -, hpf⟩ := mem_frames_of_layout hp
        exact ⟨⟨F, List.mem_cons_self, .inl ⟨by omega, hpf⟩⟩, .inl (by omega)⟩
      · obtain ⟨⟨E, hE, hk⟩, hle⟩ := ih hsorted.2 h' hp
        exact ⟨⟨E, List.mem_cons_of_mem _ hE, hk⟩, hle⟩
    · cases C with
      | nil =>
        simp only [List.append_nil, List.nil_append] at hC h'
        have hq : q ∈ spots fs := by
          rw [spots, ← h']
          simp
        obtain ⟨G, hG, hqG⟩ := List.mem_flatMap.mp hq
        have hlt := hsorted.1 _ G hG rfl
        have hid := (mem_frames_of_layout hqG).1
        obtain ⟨hpid, -, hpf⟩ := mem_frames_of_layout (hC ▸ hp)
        exact ⟨⟨F, List.mem_cons_self, .inl ⟨by omega, hpf⟩⟩, .inl (by omega)⟩
      | cons c C =>
        simp only [List.cons_append, List.cons.injEq] at h'
        obtain ⟨rfl, -⟩ := h'
        have hq : q ∈ F.spots := by simp [hC]
        have hid := (mem_frames_of_layout hq).1
        have hpid := (mem_frames_of_layout (show p ∈ F.spots by simp [hC, hp])).1
        obtain ⟨hmem, hlt⟩ := mem_takeBytes_of_layout hC hp
        exact ⟨⟨F, List.mem_cons_self, .inr ⟨hid.symm, hmem⟩⟩, .inr ⟨by omega, by omega⟩⟩

end Lemmas

end DewDB.WalFile
