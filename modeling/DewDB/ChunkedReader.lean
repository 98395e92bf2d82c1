import Mathlib.Data.List.Basic

/-!
# Reading a stream that comes in chunks

A reader takes what it needs from a list of chunks and leaves the rest. `Reads` and `Refuses` say
what a reader does with the given elements however they are cut into chunks, and whatever follows
them. A reader is `Steady` if what it took once it takes from any chunks.
-/
namespace DewDB.ChunkedReader

variable {β ε α γ : Type*}

abbrev Reader (β ε α : Type*) := List (List β) → Except ε (α × List (List β))

namespace Reader

def pure (a : α) : Reader β ε α := fun chunks => .ok (a, chunks)

def fail (e : ε) : Reader β ε α := fun _ => .error e

def bind (r : Reader β ε α) (f : α → Reader β ε γ) : Reader β ε γ :=
  fun chunks => (r chunks).bind fun p => f p.1 p.2

def exactly (eof : ε) : ℕ → Reader β ε (List β)
  | 0, chunks => .ok ([], chunks)
  | _ + 1, [] => .error eof
  | n + 1, chunk :: chunks =>
    if n + 1 ≤ chunk.length then .ok (chunk.take (n + 1), chunk.drop (n + 1) :: chunks)
    else (exactly eof (n + 1 - chunk.length) chunks).map fun r => (chunk ++ r.1, r.2)

theorem bind_eq_ok {r : Reader β ε α} {f : α → Reader β ε γ} {chunks rest : List (List β)} {c : γ}
    (h : r.bind f chunks = .ok (c, rest)) :
    ∃ a between, r chunks = .ok (a, between) ∧ f a between = .ok (c, rest) := by
  rw [bind] at h
  cases hr : r chunks with
  | error e =>
    rw [hr] at h
    cases h
  | ok p =>
    rw [hr] at h
    exact ⟨p.1, p.2, rfl, h⟩

theorem bind_of_ok {r : Reader β ε α} {f : α → Reader β ε γ}
    {chunks between : List (List β)} {a : α}
    (h : r chunks = .ok (a, between)) : r.bind f chunks = f a between := by
  rw [bind, h]
  rfl

theorem bind_of_error {r : Reader β ε α} {f : α → Reader β ε γ} {chunks : List (List β)} {e : ε}
    (h : r chunks = .error e) : r.bind f chunks = .error e := by
  rw [bind, h]
  rfl

end Reader

open Reader

def Reads (r : Reader β ε α) (elements : List β) (a : α) : Prop :=
  ∀ chunks after, chunks.flatten = elements ++ after →
    ∃ rest, r chunks = .ok (a, rest) ∧ rest.flatten = after

def Refuses (r : Reader β ε α) (elements : List β) : Prop :=
  ∀ chunks after, chunks.flatten = elements ++ after → ∃ e, r chunks = .error e

def Steady (r : Reader β ε α) (chunks : List (List β)) : Prop :=
  ∀ a rest, r chunks = .ok (a, rest) → ∃ taken, chunks.flatten = taken ++ rest.flatten ∧
    Reads r taken a

section Reads

theorem reads_pure (a : α) : Reads (pure a : Reader β ε α) [] a :=
  fun chunks _ h => ⟨chunks, rfl, h⟩

theorem refuses_fail (e : ε) (elements : List β) : Refuses (fail e : Reader β ε α) elements :=
  fun _ _ _ => ⟨e, rfl⟩

theorem Reads.bind {r : Reader β ε α} {f : α → Reader β ε γ} {xs ys : List β} {a : α} {c : γ}
    (hr : Reads r xs a) (hf : Reads (f a) ys c) : Reads (r.bind f) (xs ++ ys) c := by
  intro chunks after h
  rw [List.append_assoc] at h
  obtain ⟨between, hok, hbetween⟩ := hr chunks (ys ++ after) h
  rw [bind_of_ok hok]
  exact hf between after hbetween

theorem Reads.refuses {r : Reader β ε α} {f : α → Reader β ε γ} {xs ys : List β} {a : α}
    (hr : Reads r xs a) (hf : Refuses (f a) ys) : Refuses (r.bind f) (xs ++ ys) := by
  intro chunks after h
  rw [List.append_assoc] at h
  obtain ⟨between, hok, hbetween⟩ := hr chunks (ys ++ after) h
  rw [bind_of_ok hok]
  exact hf between after hbetween

theorem Reads.last {r : Reader β ε α} {f : α → Reader β ε γ} {xs : List β} {a : α} {c : γ}
    (hr : Reads r xs a) (hf : Reads (f a) [] c) : Reads (r.bind f) xs c := by
  rw [← List.append_nil xs]
  exact hr.bind hf

theorem Reads.refuses_last {r : Reader β ε α} {f : α → Reader β ε γ} {xs : List β} {a : α}
    (hr : Reads r xs a) (hf : Refuses (f a) []) : Refuses (r.bind f) xs := by
  rw [← List.append_nil xs]
  exact hr.refuses hf

theorem Refuses.bind {r : Reader β ε α} {xs : List β} (hr : Refuses r xs) (f : α → Reader β ε γ) :
    Refuses (r.bind f) xs := by
  intro chunks after h
  obtain ⟨e, he⟩ := hr chunks after h
  exact ⟨e, bind_of_error he⟩

theorem Refuses.append {r : Reader β ε α} {xs : List β} (hr : Refuses r xs) (ys : List β) :
    Refuses r (xs ++ ys) := by
  intro chunks after h
  rw [List.append_assoc] at h
  exact hr chunks (ys ++ after) h

theorem reads_exactly (eof : ε) (xs : List β) : Reads (exactly eof xs.length) xs xs := by
  intro chunks after h
  induction chunks generalizing xs after with
  | nil =>
    cases xs with
    | nil => exact ⟨[], rfl, h⟩
    | cons x xs => cases h
  | cons chunk chunks ih =>
    cases xs with
    | nil => exact ⟨chunk :: chunks, rfl, h⟩
    | cons x xs =>
      have hchunk : chunk <+: x :: xs ++ after := h ▸ List.prefix_append _ _
      have hwanted : x :: xs <+: x :: xs ++ after := List.prefix_append _ _
      rw [List.length_cons, exactly]
      split_ifs with hle
      · -- the chunk has it all
        obtain ⟨zs, rfl⟩ := List.prefix_of_prefix_length_le hwanted hchunk hle
        rw [List.flatten_cons, List.append_assoc] at h
        refine ⟨zs :: chunks, ?_, List.append_cancel_left h⟩
        rw [List.take_left' (List.length_cons), List.drop_left' (List.length_cons)]
      · -- the chunk is a beginning of it
        have hle' : chunk.length ≤ (x :: xs).length := Nat.le_of_not_le hle
        obtain ⟨ys, hys⟩ := List.prefix_of_prefix_length_le hchunk hwanted hle'
        have hlength : xs.length + 1 - chunk.length = ys.length := by
          rw [← List.length_cons (a := x), ← hys, List.length_append, Nat.add_sub_cancel_left]
        rw [List.flatten_cons, ← hys, List.append_assoc] at h
        obtain ⟨rest, hok, hrest⟩ := ih ys after (List.append_cancel_left h)
        refine ⟨rest, ?_, hrest⟩
        rw [hlength, hok, ← hys]
        rfl

end Reads

section Steady

theorem steady_pure (a : α) (chunks : List (List β)) : Steady (pure a : Reader β ε α) chunks := by
  intro b rest h
  cases h
  exact ⟨[], rfl, reads_pure a⟩

theorem steady_fail (e : ε) (chunks : List (List β)) : Steady
    (fail e : Reader β ε α) chunks := nofun

theorem Steady.bind {r : Reader β ε α} {f : α → Reader β ε γ} {chunks : List (List β)}
    (hr : Steady r chunks)
    (hf : ∀ a between, r chunks = .ok (a, between) → Steady (f a) between) :
    Steady (r.bind f) chunks := by
  intro c rest h
  obtain ⟨a, between, hok, hrest⟩ := bind_eq_ok h
  obtain ⟨xs, hxs, hreads⟩ := hr a between hok
  obtain ⟨ys, hys, hreads'⟩ := hf a between hok c rest hrest
  exact ⟨xs ++ ys, by rw [hxs, hys, List.append_assoc], hreads.bind hreads'⟩

theorem exactly_eq_ok {eof : ε} {n : ℕ} {chunks rest : List (List β)} {xs : List β}
    (h : exactly eof n chunks = .ok (xs, rest)) :
    xs.length = n ∧ chunks.flatten = xs ++ rest.flatten := by
  induction chunks generalizing n xs rest with
  | nil =>
    cases n with
    | zero =>
      cases h
      exact ⟨rfl, rfl⟩
    | succ n => cases h
  | cons chunk chunks ih =>
    cases n with
    | zero =>
      cases h
      exact ⟨rfl, rfl⟩
    | succ n =>
      rw [exactly] at h
      split_ifs at h with hle
      · cases h
        refine ⟨List.length_take_of_le hle, ?_⟩
        rw [List.flatten_cons, List.flatten_cons, ← List.append_assoc, List.take_append_drop]
      · cases hr : exactly eof (n + 1 - chunk.length) chunks with
        | error e =>
          rw [hr] at h
          cases h
        | ok p =>
          rw [hr] at h
          cases h
          obtain ⟨hlength, hflatten⟩ := ih hr
          refine ⟨?_, by rw [List.flatten_cons, hflatten, List.append_assoc]⟩
          rw [List.length_append, hlength]
          omega

theorem steady_exactly (eof : ε) (n : ℕ) (chunks : List (List β)) : Steady
    (exactly eof n) chunks := by
  intro xs rest h
  obtain ⟨hlength, hflatten⟩ := exactly_eq_ok h
  exact ⟨xs, hflatten, hlength ▸ reads_exactly eof xs⟩

theorem Steady.length_le {r : Reader β ε α} {chunks rest : List (List β)} {a : α}
    (hr : Steady r chunks)
    (h : r chunks = .ok (a, rest)) : rest.flatten.length ≤ chunks.flatten.length := by
  obtain ⟨taken, htaken, -⟩ := hr a rest h
  rw [htaken, List.length_append]
  exact Nat.le_add_left _ _

/-- What a steady reader takes from a beginning, it takes from the whole. -/
theorem Steady.extend {r : Reader β ε α} {chunks rest : List (List β)} {a : α}
    (hr : Steady r chunks) (h : r chunks = .ok (a, rest)) (after : List β) {whole : List (List β)}
    (hwhole : whole.flatten = chunks.flatten ++ after) :
    ∃ rest', r whole = .ok (a, rest') ∧ rest'.flatten = rest.flatten ++ after := by
  obtain ⟨taken, htaken, hreads⟩ := hr a rest h
  apply hreads
  rw [hwhole, htaken, List.append_assoc]

end Steady

end DewDB.ChunkedReader
