import Mathlib.Data.List.Basic
import Mathlib.Data.List.Infix

/-!
# Readers of framed streams

A reader keeps what has arrived of a stream in a buffer and cuts whole frames off its front. Its
reads see neither how the stream is cut into chunks nor when they arrive: each gives the next event
of the frames that have arrived.
-/
namespace DewDB.FramedStream

variable {α γ ι : Type}

structure Framing (α : Type) where
  cut : List α → Option (List α × List α)
  shorter : ∀ {buf block rest}, cut buf = some (block, rest) → rest.length < buf.length

def Framing.next (F : Framing α) (read : List α → Option γ) (buf : List α) : Option γ × List α :=
  match _h : F.cut buf with
  | none => (none, buf)
  | some (block, rest) =>
    match read block with
    | some event => (some event, rest)
    | none => F.next read rest
termination_by buf.length
decreasing_by exact F.shorter ‹_›

inductive Op (α : Type) where
  | push (chunk : List α)
  | next

def received : List (Op α) → List α
  | [] => []
  | .push chunk :: ops => chunk ++ received ops
  | .next :: ops => received ops

def Framing.step (F : Framing α) (read : List α → Option γ) (buf : List α) : Op α → List γ × List α
  | .push chunk => ([], buf ++ chunk)
  | .next => let r := F.next read buf; (r.1.toList, r.2)

/-- The events that a run of operations yields, and the buffer that it leaves. -/
def Framing.run (F : Framing α) (read : List α → Option γ) (buf : List α) :
    List (Op α) → List γ × List α
  | [] => ([], buf)
  | op :: ops =>
    let r := F.step read buf op
    let t := F.run read r.2 ops
    (r.1 ++ t.1, t.2)

section Encoding

variable (enc : ι → List α)

def wire (items : List ι) : List α := items.flatMap enc

/-- The items that are whole in the first elements of their stream. -/
def arrived : ℕ → List ι → List ι
  | _, [] => []
  | n, i :: items => if (enc i).length ≤ n then i :: arrived (n - (enc i).length) items else []

/-- The framing finds each item whole, and cuts nothing off a part of one. -/
structure Framing.Encodes (F : Framing α) (enc : ι → List α) : Prop where
  whole : ∀ i rest, F.cut (enc i ++ rest) = some (enc i, rest)
  part : ∀ i p q, enc i = p ++ q → q ≠ [] → F.cut p = none

@[simp] theorem wire_cons (i : ι) (items : List ι) : wire enc
    (i :: items) = enc i ++ wire enc items := rfl

theorem wire_append (pre post : List ι) : wire enc (pre ++ post) = wire enc pre ++ wire enc post :=
  List.flatMap_append

theorem arrived_append (pre post : List ι) (n : ℕ) :
    arrived enc ((wire enc pre).length + n) (pre ++ post) = pre ++ arrived enc n post := by
  induction pre with
  | nil => simp [wire]
  | cons i pre ih =>
    rw [wire_cons, List.length_append, List.cons_append, arrived, if_pos (by omega),
      List.cons_append]
    rw [show (enc i).length + (wire enc pre).length + n - (enc i).length =
      (wire enc pre).length + n by omega, ih]

theorem arrived_wire (items : List ι) : arrived enc (wire enc items).length items = items := by
  simpa [arrived] using arrived_append enc items [] 0

end Encoding

section Reading

variable {F : Framing α} {enc : ι → List α} (read : List α → Option γ)

theorem Framing.next_none {buf : List α} (h : F.cut buf = none) :
    F.next read buf = (none, buf) := by
  rw [Framing.next]
  split
  · rfl
  · rename_i hcut
    rw [h] at hcut
    cases hcut

theorem Framing.next_some {buf block rest : List α} (h : F.cut buf = some (block, rest)) :
    F.next read buf =
      match read block with
      | some event => (some event, rest)
      | none => F.next read rest := by
  rw [Framing.next]
  split
  · rename_i hcut
    rw [h] at hcut
    cases hcut
  · rename_i block' rest' hcut
    rw [h] at hcut
    obtain ⟨rfl, rfl⟩ := Prod.mk.inj (Option.some.inj hcut)
    rfl

theorem Framing.cut_nil (F : Framing α) : F.cut [] = none := by
  cases h : F.cut [] with
  | none => rfl
  | some r => exact absurd (F.shorter h) (by simp)

theorem buffer_cases {i : ι} {items : List ι} {buf : List α} (h : buf <+: wire enc (i :: items)) :
    (∃ buf', buf = enc i ++ buf' ∧ buf' <+: wire enc items) ∨
      buf.length < (enc i).length ∧ ∃ q, enc i = buf ++ q ∧ q ≠ [] := by
  obtain ⟨more, h⟩ := h
  rw [wire_cons] at h
  rcases List.append_eq_append_iff.mp h with ⟨q, hq, -⟩ | ⟨buf', rfl, hrest⟩
  · by_cases hnil : q = []
    · exact .inl ⟨[], by simp [hq, hnil], List.nil_prefix⟩
    · have hpos := List.length_pos_of_ne_nil hnil
      exact .inr ⟨by rw [hq, List.length_append]; omega, q, hq, hnil⟩
  · exact .inl ⟨buf', rfl, more, hrest.symm⟩

/-- The next event of a buffer is the first of the items that are whole in it, and what is left is a
buffer of the items behind it. -/
theorem next_eq (hF : F.Encodes enc) : ∀ {items : List ι} {buf : List α}, buf <+: wire enc items →
    ∃ pre post buf', items = pre ++ post ∧ buf = wire enc pre ++ buf' ∧ buf' <+: wire enc post ∧
      F.next read buf = ((pre.filterMap fun i => read (enc i)).head?, buf') ∧
      (pre.filterMap fun i => read (enc i)).length ≤ 1 ∧
      ((pre.filterMap fun i => read (enc i)) = [] →
        ((arrived enc buf'.length post).filterMap fun i => read (enc i)) = [])
  | [], buf, h => by
    obtain rfl : buf = [] := List.prefix_nil.mp h
    exact ⟨[], [], [], rfl, rfl, List.nil_prefix, F.next_none read F.cut_nil, by simp, fun _ => rfl⟩
  | i :: items, buf, h => by
    rcases buffer_cases h with ⟨buf', rfl, hrest⟩ | ⟨hlt, q, hq, hne⟩
    · have hnext := F.next_some read (hF.whole i buf')
      cases hread : read (enc i) with
      | some event =>
        rw [hread] at hnext
        exact ⟨[i], items, buf', rfl, by simp [wire], hrest, by simpa [hread] using hnext,
          by simp [hread],
          by simp [hread]⟩
      | none =>
        rw [hread] at hnext
        obtain ⟨pre, post, left, rfl, rfl, hpost, hn, hone, hnone⟩ := next_eq hF hrest
        have hskip : (i :: pre).filterMap (fun i => read (enc i)) = pre.filterMap fun i =>
          read (enc i) :=
          List.filterMap_cons_none hread
        rw [← hskip] at hn hone hnone
        exact ⟨i :: pre, post, left, rfl, by simp, hpost, hnext.trans hn, hone, hnone⟩
    · refine ⟨[], i :: items, buf, rfl, rfl, h, F.next_none read (hF.part i buf q hq hne),
        by simp, fun _ => ?_⟩
      rw [arrived, if_neg (by omega), List.filterMap_nil]

/-- A run that starts between the items yields the events of items that have arrived, in order, and
leaves a buffer of the items behind them. -/
theorem run_eq (hF : F.Encodes enc) : ∀ {ops : List (Op α)} {items : List ι} {buf : List α},
    buf ++ received ops <+: wire enc items →
    ∃ pre post, items = pre ++ post ∧ buf ++ received ops = wire enc pre ++ (F.run read buf ops).2 ∧
      (F.run read buf ops).2 <+: wire enc post ∧
      (F.run read buf ops).1 = pre.filterMap fun i => read (enc i)
  | [], items, buf, h => by
    rw [received, List.append_nil] at h ⊢
    exact ⟨[], items, rfl, rfl, h, rfl⟩
  | .push chunk :: ops, items, buf, h => by
    rw [received, ← List.append_assoc] at h ⊢
    exact run_eq hF h
  | .next :: ops, items, buf, h => by
    rw [received] at h ⊢
    obtain ⟨pre, post, buf', rfl, rfl, -, hn, hone, -⟩ :=
      next_eq read hF ((List.prefix_append _ _).trans h)
    rw [List.append_assoc, wire_append] at h
    obtain ⟨pre', post', rfl, hrec, hleft, hyield⟩ :=
      run_eq hF ((List.prefix_append_right_inj _).mp h)
    simp only [Framing.run, Framing.step, hn]
    refine ⟨pre ++ pre', post', by rw [List.append_assoc], ?_, hleft, ?_⟩
    · rw [List.append_assoc, hrec, wire_append, List.append_assoc]
    · rw [hyield, List.filterMap_append]
      congr 1
      cases hpre : pre.filterMap fun i => read (enc i) with
      | nil => rfl
      | cons e es =>
        rw [hpre, List.length_cons] at hone
        rw [List.head?_cons, Option.toList_some, List.eq_nil_of_length_eq_zero (l := es) (by omega)]

/-- What a run has yielded are the first events of the items that have arrived, and the next read
gives the first event that is missing. -/
theorem next_after_run (hF : F.Encodes enc) {ops : List (Op α)} {items : List ι}
    (h : received ops <+: wire enc items) :
    let events := (arrived enc (received ops).length items).filterMap fun i => read (enc i)
    (F.run read [] ops).1 <+: events ∧
      (F.next read (F.run read [] ops).2).1 = events[(F.run read [] ops).1.length]? := by
  rw [← List.nil_append (received ops)] at h
  obtain ⟨pre, post, rfl, hrec, hleft, hyield⟩ := run_eq read hF h
  rw [List.nil_append] at hrec
  have harr := arrived_append enc pre post (F.run read [] ops).2.length
  rw [← List.length_append, ← hrec] at harr
  dsimp only
  rw [harr, List.filterMap_append, ← hyield]
  refine ⟨List.prefix_append _ _, ?_⟩
  rw [List.getElem?_append_right le_rfl, Nat.sub_self, ← List.head?_eq_getElem?]
  obtain ⟨skip, rest, buf', rfl, hbuf, -, hn, -, hnone⟩ := next_eq read hF hleft
  have hskip := arrived_append enc skip rest buf'.length
  rw [← List.length_append, ← hbuf] at hskip
  rw [hn, hskip, List.filterMap_append]
  cases hev : skip.filterMap fun i => read (enc i) with
  | nil => rw [List.nil_append, hnone hev]
  | cons e es => rw [List.head?_cons, List.cons_append, List.head?_cons]

end Reading

end DewDB.FramedStream
