import DewDB.EntityTags
import DewDB.FramedStream
import Mathlib.Data.List.Chain

/-!
# The reader of change events

A router subscribes to the change streams of its shards and reads their events as the chunks of the
bodies come in. A shard ends each block with a blank line and writes a comment where it has nothing
to say for a while. The reader cuts blocks at the blank line, wherever the chunks are cut, and skips
the blocks that name no event.
-/
namespace DewDB.SseReader

open Utf8Order FramedStream
open Precondition (trim)

section Decoding

/-- The second byte may follow the first one of a character of three or four bytes. -/
def follows (b₀ b₁ : UInt8) : Bool :=
  (b₀ == 0xE0 && 0xA0 ≤ b₁ && b₁ ≤ 0xBF) || (0xE1 ≤ b₀ && b₀ ≤ 0xEC && 0x80 ≤ b₁ && b₁ ≤ 0xBF) ||
    (b₀ == 0xED && 0x80 ≤ b₁ && b₁ ≤ 0x9F) || (0xEE ≤ b₀ && b₀ ≤ 0xEF && 0x80 ≤ b₁ && b₁ ≤ 0xBF) ||
    (b₀ == 0xF0 && 0x90 ≤ b₁ && b₁ ≤ 0xBF) || (0xF1 ≤ b₀ && b₀ ≤ 0xF3 && 0x80 ≤ b₁ && b₁ ≤ 0xBF) ||
    (b₀ == 0xF4 && 0x80 ≤ b₁ && b₁ ≤ 0x8F)

/-- The bytes that one replacement character stands for: a part of a character as far as it goes. -/
def brokenLength : List UInt8 → ℕ
  | b₀ :: b₁ :: bs =>
    if follows b₀ b₁ then
      match bs with
      | b₂ :: _ => if 0xF0 ≤ b₀ && 0x80 ≤ b₂ && b₂ ≤ 0xBF then 3 else 2
      | [] => 2
    else 1
  | _ => 1

theorem brokenLength_pos (bytes : List UInt8) : 0 < brokenLength bytes := by
  unfold brokenLength
  split
  · split_ifs
    · split
      · split_ifs <;> omega
      · omega
    · omega
  · omega

/-- `String::from_utf8_lossy`. -/
def fromUtf8Lossy (bytes : List UInt8) : List Char :=
  if bytes = [] then []
  else
    match bytes.toByteArray.utf8DecodeChar? 0 with
    | some c => c :: fromUtf8Lossy (bytes.drop c.utf8Size)
    | none => '\uFFFD' :: fromUtf8Lossy (bytes.drop (brokenLength bytes))
termination_by bytes.length
decreasing_by
  · have hpos := List.length_pos_of_ne_nil ‹_›
    have := Char.utf8Size_pos c
    rw [List.length_drop]
    omega
  · have hpos := List.length_pos_of_ne_nil ‹_›
    have := brokenLength_pos bytes
    rw [List.length_drop]
    omega

theorem fromUtf8Lossy_utf8 (cs : List Char) : fromUtf8Lossy (utf8 cs) = cs := by
  induction cs with
  | nil => simp [fromUtf8Lossy, utf8]
  | cons c cs ih =>
    rw [fromUtf8Lossy, if_neg (by simp [utf8_cons])]
    have hc : (utf8 (c :: cs)).toByteArray.utf8DecodeChar? 0 = some c := by
      rw [utf8_cons, List.toByteArray_append]
      exact ByteArray.utf8DecodeChar?_utf8EncodeChar_append
    rw [hc, utf8_cons]
    dsimp only
    rw [← String.length_utf8EncodeChar, List.drop_left, ih]

theorem lineEnd_notMem_utf8 {cs : List Char} (h : '\n' ∉ cs) : (10 : UInt8) ∉ utf8 cs := by
  intro hmem
  obtain ⟨c, hc, hb⟩ := List.mem_flatMap.mp hmem
  by_cases hascii : c.val.toNat ≤ 127
  · rw [encode_ascii hascii, List.mem_singleton] at hb
    have hval : (UInt8.ofNat c.val.toNat).toNat = 10 := by rw [← hb]; rfl
    rw [UInt8.toNat_ofNat'] at hval
    have h10 : c.toNat = '\n'.toNat := by
      change c.val.toNat = 10
      omega
    exact h (Char.toNat_inj.mp h10 ▸ hc)
  · have := mem_encode_ge (Nat.lt_of_not_le hascii) hb
    simp at this

end Decoding

section Lines

/-- `split_inclusive('\n')`. -/
def splitInclusive : List Char → List (List Char)
  | [] => []
  | c :: cs =>
    if c = '\n' then [c] :: splitInclusive cs
    else
      match splitInclusive cs with
      | [] => [[c]]
      | line :: rest => (c :: line) :: rest

/-- A line without its end, which is a line feed with or without a carriage return. -/
def stripLine (line : List Char) : List Char :=
  match line.reverse with
  | '\n' :: '\r' :: rest => rest.reverse
  | '\n' :: rest => rest.reverse
  | _ => line

/-- `str::lines`. -/
def lines (text : List Char) : List (List Char) := (splitInclusive text).map stripLine

def OneLine (text : List Char) : Prop := ∀ c ∈ text, c ≠ '\n' ∧ c ≠ '\r'

instance (text : List Char) : Decidable (OneLine text) := List.decidableBAll _ _

theorem splitInclusive_line {line : List Char} (h : '\n' ∉ line) (rest : List Char) :
    splitInclusive (line ++ '\n' :: rest) = (line ++ ['\n']) :: splitInclusive rest := by
  induction line with
  | nil => rfl
  | cons c line ih =>
    rw [List.mem_cons, not_or] at h
    rw [List.cons_append, splitInclusive, if_neg (Ne.symm h.1), ih h.2]
    rfl

theorem stripLine_line {line : List Char} (h : OneLine line) : stripLine
    (line ++ ['\n']) = line := by
  rw [stripLine, List.reverse_append, List.reverse_singleton, List.singleton_append]
  cases hr : line.reverse with
  | nil => simpa using hr.symm
  | cons c rest =>
    have hc : c ≠ '\r' := (h c (List.mem_reverse.mp (hr ▸ List.mem_cons_self))).2
    have hline : line = (c :: rest).reverse := by rw [← hr, List.reverse_reverse]
    split
    · rename_i heq
      exact absurd (List.cons.inj (List.cons.inj heq).2).1 hc
    · rename_i heq
      rw [← (List.cons.inj heq).2, ← hline]
    · rename_i hend
      exact absurd rfl (hend _)

theorem lines_cons {line : List Char} (h : OneLine line) (rest : List Char) :
    lines (line ++ '\n' :: rest) = line :: lines rest := by
  have hn : '\n' ∉ line := fun hmem => (h _ hmem).1 rfl
  rw [lines, splitInclusive_line hn, List.map_cons, stripLine_line h]
  rfl

theorem lines_flatMap {ls : List (List Char)} (h : ∀ line ∈ ls, OneLine line) (rest : List Char) :
    lines (ls.flatMap (· ++ ['\n']) ++ rest) = ls ++ lines rest := by
  induction ls with
  | nil => rfl
  | cons line ls ih =>
    rw [List.forall_mem_cons] at h
    rw [List.flatMap_cons, List.append_assoc, List.append_assoc, List.singleton_append,
      lines_cons h.1, ih h.2]
    rfl

end Lines

section Rendering

/-- A text that may stand in a field: the renderer asserts that it has no line end. -/
structure FieldText where
  text : List Char
  oneLine : OneLine text

inductive FrameName where
  | opened
  | change
  | topology
  | error
  deriving DecidableEq

def FrameName.text : FrameName → List Char
  | .opened => "open".toList
  | .change => "change".toList
  | .topology => "topology".toList
  | .error => "error".toList

/-- JSON values as texts. A compact text is one line, with no space around it. -/
structure SerdeJson (V : Type) where
  toString : V → List Char
  fromStr : List Char → Option V
  null : V
  oneLine : ∀ v, OneLine (toString v)
  trimmed : ∀ v, trim (toString v) = toString v

structure CdcFrame (V : Type) where
  name : FrameName
  id : Option FieldText
  body : V

variable {V : Type} (json : SerdeJson V) (gap : List Char → Bool)

/-- A line of an event. Before some values a space stands, which is not part of them. -/
def field (name value : List Char) :
    List Char := name ++ ':' :: if gap value then ' ' :: value else value

def dataEvent (name : FrameName) (body : V) : List (List Char) :=
  [field gap "event".toList name.text, field gap "data".toList (json.toString body)]

def sseEvent (frame : CdcFrame V) : List (List Char) :=
  dataEvent json gap frame.name frame.body ++ (frame.id.map fun id =>
    field gap "id".toList id.text).toList

inductive Item (V : Type) where
  | frame (frame : CdcFrame V)
  | comment (text : FieldText)

/-- The lines of a block. The frame that opens the stream tells when to retry. -/
def Item.lines : Item V → List (List Char)
  | .frame f =>
    if f.name = .opened then sseEvent json gap f ++ [field gap "retry".toList "2000".toList]
      else sseEvent json gap f
  | .comment t => [':' :: t.text]

def Item.text (i : Item V) : List Char := (i.lines json gap).flatMap (· ++ ['
']) ++ ['
']

def Item.bytes (i : Item V) : List UInt8 := utf8 (i.text json gap)

end Rendering

section Reader

variable {V : Type}

def blankLine : List UInt8 → Option ℕ
  | a :: b :: rest => if a = 10 ∧ b = 10 then some 0 else (blankLine (b :: rest)).map (· + 1)
  | _ => none

def cutBlock (buf : List UInt8) : Option (List UInt8 × List UInt8) :=
  (blankLine buf).map fun at_ => (buf.take (at_ + 2), buf.drop (at_ + 2))

def splitOnce (sep : Char) (text : List Char) : Option (List Char × List Char) :=
  match text.dropWhile (· ≠ sep) with
  | [] => none
  | _ :: rest => some (text.takeWhile (· ≠ sep), rest)

/-- One line of a block, with the name and the data of the lines before it. -/
def readLine (read : Option (List Char) × List Char) (line : List Char) : Option
    (List Char) × List Char :=
  match splitOnce ':' line with
  | some (field, value) =>
    if field = "event".toList then (some (trim value), read.2)
    else if field = "data".toList then (read.1, read.2 ++ trim value)
    else read
  | none => read

def readBlock (json : SerdeJson V) (block : List UInt8) : Option (List Char × V) :=
  let (name, data) := (lines (fromUtf8Lossy block)).foldl readLine (none, [])
  name.map fun name => (name, (json.fromStr data).getD json.null)

theorem blankLine_add_two_le {buf : List UInt8} {n : ℕ} (h : blankLine buf = some n) :
    n + 2 ≤ buf.length := by
  induction buf generalizing n with
  | nil => cases h
  | cons a buf ih =>
    cases buf with
    | nil => cases h
    | cons b rest =>
      rw [blankLine] at h
      split_ifs at h
      · cases h
        simp
      · obtain ⟨m, hm, rfl⟩ := Option.map_eq_some_iff.mp h
        have := ih hm
        simp only [List.length_cons] at this ⊢
        omega

def blocks : Framing UInt8 where
  cut := cutBlock
  shorter h := by
    obtain ⟨n, hn, heq⟩ := Option.map_eq_some_iff.mp h
    have := blankLine_add_two_le hn
    rw [← (Prod.mk.inj heq).2, List.length_drop]
    omega

/-- `next_event`, in which the loop goes on behind a block that names no event. -/
def nextEvent (json : SerdeJson V) (buf : List UInt8) : Option (List Char × V) × List UInt8 :=
  blocks.next (readBlock json) buf

/-- A new reader after `push`es and `next_event`s, with what these gave. -/
def runReader (json : SerdeJson V) (ops : List (Op UInt8)) : List (List Char × V) × List UInt8 :=
  blocks.run (readBlock json) [] ops

end Reader

section Blocks

abbrev NoBlank (bytes : List UInt8) : Prop := bytes.IsChain fun a b => ¬(a = 10 ∧ b = 10)

theorem noBlank_cons_cons {a b : UInt8} {rest : List UInt8} :
    NoBlank (a :: b :: rest) ↔ ¬(a = 10 ∧ b = 10) ∧ NoBlank (b :: rest) := List.isChain_cons_cons

theorem noBlank_cons {a : UInt8} {rest : List UInt8} (ha : a = 10 → rest.head? ≠ some 10)
    (h : NoBlank rest) : NoBlank (a :: rest) :=
  List.isChain_cons.mpr ⟨fun _ hb hab => ha hab.1 (hab.2 ▸ hb), h⟩

theorem noBlank_append {u rest : List UInt8} (hu : 10 ∉ u) (h : NoBlank rest) : NoBlank
    (u ++ rest) := by
  induction u with
  | nil => exact h
  | cons a u ih =>
    rw [List.mem_cons, not_or] at hu
    exact noBlank_cons (fun ha => absurd ha.symm hu.1) (ih hu.2)

theorem blankLine_none {bytes : List UInt8} (h : NoBlank bytes) : blankLine bytes = none := by
  induction bytes with
  | nil => rfl
  | cons a bytes ih =>
    cases bytes with
    | nil => rfl
    | cons b rest =>
      rw [noBlank_cons_cons] at h
      rw [blankLine, if_neg h.1, ih h.2]
      rfl

theorem blankLine_append {p : List UInt8} (h : NoBlank (p ++ [10])) (rest : List UInt8) :
    blankLine (p ++ 10 :: 10 :: rest) = some p.length := by
  induction p with
  | nil => rfl
  | cons a p ih =>
    cases p with
    | nil =>
      rw [List.singleton_append, noBlank_cons_cons] at h
      rw [List.singleton_append, blankLine, if_neg h.1]
      rfl
    | cons b p =>
      rw [List.cons_append, List.cons_append, noBlank_cons_cons] at h
      rw [List.cons_append, List.cons_append, blankLine, if_neg h.1, ← List.cons_append, ih h.2]
      rfl

def lineBytes (us : List (List UInt8)) : List UInt8 := us.flatMap (· ++ [10])

theorem lineBytes_cons (u : List UInt8) (us : List (List UInt8)) : lineBytes
    (u :: us) = u ++ 10 :: lineBytes us := by
  rw [lineBytes, List.flatMap_cons, List.append_assoc]
  rfl

theorem noBlank_lines {us : List (List UInt8)} (hus : ∀ u ∈ us, u ≠ [] ∧ (10 : UInt8) ∉ u) :
    NoBlank (lineBytes us) := by
  induction us with
  | nil => exact .nil
  | cons u us ih =>
    rw [List.forall_mem_cons] at hus
    rw [lineBytes_cons]
    refine noBlank_append hus.1.2 (noBlank_cons (fun _ => ?_) (ih hus.2))
    cases us with
    | nil => simp [lineBytes]
    | cons v us =>
      obtain ⟨hv, hmem⟩ := hus.2 v List.mem_cons_self
      cases v with
      | nil => exact absurd rfl hv
      | cons b v =>
        rw [lineBytes_cons, List.cons_append, List.head?_cons]
        exact fun hb => hmem (Option.some.inj hb ▸ List.mem_cons_self)

theorem lineBytes_eq_append {us : List (List UInt8)} (hne : us ≠ []) :
    ∃ p, lineBytes us = p ++ [10] := by
  rcases List.eq_nil_or_concat' us with rfl | ⟨init, u, rfl⟩
  · exact absurd rfl hne
  · exact ⟨lineBytes init ++ u, by simp [lineBytes]⟩

theorem cutBlock_whole {us : List (List UInt8)} (hne : us ≠ [])
    (hus : ∀ u ∈ us, u ≠ [] ∧ (10 : UInt8) ∉ u) (rest : List UInt8) :
    cutBlock (lineBytes us ++ 10 :: rest) = some (lineBytes us ++ [10], rest) := by
  have hno := noBlank_lines hus
  obtain ⟨p, hp⟩ := lineBytes_eq_append hne
  rw [hp] at hno ⊢
  rw [cutBlock, List.append_assoc, List.singleton_append, blankLine_append hno]
  simp [List.take_append, List.drop_append]

theorem cutBlock_part {us : List (List UInt8)} (hus : ∀ u ∈ us, u ≠ [] ∧ (10 : UInt8) ∉ u)
    {p q : List UInt8} (h : lineBytes us ++ [10] = p ++ q) (hq : q ≠ []) : cutBlock p = none := by
  have hlast : lineBytes us = p ++ q.dropLast := by
    have hdrop := congrArg List.dropLast h
    rwa [List.dropLast_concat, List.dropLast_append_of_ne_nil hq] at hdrop
  have hno : NoBlank (p ++ q.dropLast) := hlast ▸ noBlank_lines hus
  rw [cutBlock, blankLine_none (List.isChain_append.mp hno).1]
  rfl

end Blocks

section Reading

variable {V : Type} (json : SerdeJson V) (gap : List Char → Bool)

theorem FrameName.oneLine (name : FrameName) : OneLine name.text := by cases name <;> decide

theorem FrameName.trimmed (name : FrameName) : trim name.text = name.text := by
  cases name <;> decide

theorem field_ne_nil (name value : List Char) : field gap name value ≠ [] := by simp [field]

theorem oneLine_field {name value : List Char} (hn : OneLine name) (hv : OneLine value) :
    OneLine (field gap name value) := by
  have hcolon : OneLine [':'] := by decide
  have hspace : OneLine [' '] := by decide
  intro c hc
  rw [field, List.mem_append, List.mem_cons] at hc
  rcases hc with hc | rfl | hc
  · exact hn c hc
  · exact hcolon _ List.mem_cons_self
  · split_ifs at hc
    · rcases List.mem_cons.mp hc with rfl | hc
      · exact hspace _ List.mem_cons_self
      · exact hv c hc
    · exact hv c hc

theorem mem_sseEvent {f : CdcFrame V} {line : List Char} (h : line ∈ sseEvent json gap f) :
    line ≠ [] ∧ OneLine line := by
  simp only [sseEvent, dataEvent, List.mem_append, List.mem_cons, List.not_mem_nil, or_false,
    Option.mem_toList, Option.map_eq_some_iff] at h
  rcases h with (rfl | rfl) | ⟨id, -, rfl⟩
  · exact ⟨field_ne_nil gap _ _, oneLine_field gap (by decide) f.name.oneLine⟩
  · exact ⟨field_ne_nil gap _ _, oneLine_field gap (by decide) (json.oneLine f.body)⟩
  · exact ⟨field_ne_nil gap _ _, oneLine_field gap (by decide) id.oneLine⟩

theorem mem_lines {i : Item V} {line : List Char} (h : line ∈ i.lines json gap) :
    line ≠ [] ∧ OneLine line := by
  cases i with
  | frame f =>
    rw [Item.lines] at h
    split_ifs at h
    · rcases List.mem_append.mp h with h | h
      · exact mem_sseEvent json gap h
      · obtain rfl := List.mem_singleton.mp h
        exact ⟨field_ne_nil gap _ _, oneLine_field gap (by decide) (by decide)⟩
    · exact mem_sseEvent json gap h
  | comment t =>
    obtain rfl := List.mem_singleton.mp h
    have hcolon : OneLine [':'] := by decide
    refine ⟨List.cons_ne_nil _ _, fun c hc => ?_⟩
    rcases List.mem_cons.mp hc with rfl | hc
    · exact hcolon _ List.mem_cons_self
    · exact t.oneLine c hc

theorem lines_ne_nil (i : Item V) : i.lines json gap ≠ [] := by
  cases i with
  | frame f =>
    rw [Item.lines]
    split_ifs <;> simp [sseEvent, dataEvent]
  | comment t => exact List.cons_ne_nil _ _

theorem utf8_append (as bs : List Char) : utf8 (as ++ bs) = utf8 as ++ utf8 bs :=
  List.flatMap_append

theorem utf8_lines (ls : List (List Char)) : utf8 (ls.flatMap (· ++ ['\n'])) = lineBytes
    (ls.map utf8) := by
  induction ls with
  | nil => rfl
  | cons line ls ih =>
    rw [List.flatMap_cons, utf8_append, utf8_append, ih, List.map_cons, lineBytes_cons,
      List.append_assoc]
    rfl

theorem bytes_eq (i : Item V) : i.bytes json gap = lineBytes
    ((i.lines json gap).map utf8) ++ [10] := by
  rw [Item.bytes, Item.text, utf8_append, utf8_lines]
  rfl

theorem mem_utf8_lines (i : Item V) :
    ∀ u ∈ (i.lines json gap).map utf8, u ≠ [] ∧ (10 : UInt8) ∉ u := by
  intro u hu
  obtain ⟨line, hline, rfl⟩ := List.mem_map.mp hu
  obtain ⟨hne, hone⟩ := mem_lines json gap hline
  refine ⟨fun hnil => ?_, lineEnd_notMem_utf8 fun hmem => (hone _ hmem).1 rfl⟩
  cases line with
  | nil => exact hne rfl
  | cons c line => exact absurd hnil (by simp [utf8_cons])

theorem blocks_encodes : blocks.Encodes (Item.bytes json gap) where
  whole i rest := by
    rw [bytes_eq, List.append_assoc, List.singleton_append]
    exact cutBlock_whole (by simp [lines_ne_nil]) (mem_utf8_lines json gap i) rest
  part i p q h hq := cutBlock_part (mem_utf8_lines json gap i)
    ((bytes_eq json gap i).symm.trans h) hq

theorem splitOnce_append {sep : Char} {key : List Char} (h : sep ∉ key) (value : List Char) :
    splitOnce sep (key ++ sep :: value) = some (key, value) := by
  have hkey : ∀ c ∈ key, decide (c ≠ sep) = true :=
    fun c hc => decide_eq_true fun heq => h (heq ▸ hc)
  rw [splitOnce, List.dropWhile_append_of_pos hkey, List.takeWhile_append_of_pos hkey]
  simp

theorem trim_space (value : List Char) : trim (' ' :: value) = trim value := rfl

theorem readLine_field {key : List Char} (h : ':' ∉ key) (value : List Char)
    (read : Option (List Char) × List Char) :
    readLine read (field gap key value) =
      if key = "event".toList then (some (trim value), read.2)
      else if key = "data".toList then (read.1, read.2 ++ trim value)
      else read := by
  have htrim : trim (if gap value then ' ' :: value else value) = trim value := by
    split_ifs
    · exact trim_space value
    · rfl
  rw [readLine, field, splitOnce_append h]
  dsimp only
  rw [htrim]

def SerdeJson.reread (body : V) : V := (json.fromStr (json.toString body)).getD json.null

def Item.event : Item V → Option (List Char × V)
  | .frame f => some (f.name.text, json.reread f.body)
  | .comment _ => none

theorem foldl_sseEvent (f : CdcFrame V) :
    (sseEvent json gap f).foldl readLine (none, []) = (some f.name.text, json.toString f.body) := by
  have hid : ∀ read, (f.id.map fun id => field gap "id".toList id.text).toList.foldl readLine
    read = read := by
    intro read
    cases f.id with
    | none => rfl
    | some id =>
      rw [Option.map_some, Option.toList_some, List.foldl_cons, List.foldl_nil,
        readLine_field gap (by decide), if_neg (by decide), if_neg (by decide)]
  rw [sseEvent, dataEvent, List.foldl_append, hid, List.foldl_cons,
    readLine_field gap (by decide), if_pos rfl,
    List.foldl_cons, readLine_field gap (by decide), if_neg (by decide), if_pos rfl,
    f.name.trimmed, json.trimmed]
  rfl

theorem foldl_lines (i : Item V) :
    (i.lines json gap).foldl readLine (none, []) =
      match i with
      | .frame f => (some f.name.text, json.toString f.body)
      | .comment _ => (none, []) := by
  cases i with
  | frame f =>
    rw [Item.lines]
    split_ifs
    · rw [List.foldl_append, foldl_sseEvent, List.foldl_cons, readLine_field gap (by decide),
        if_neg (by decide), if_neg (by decide)]
      rfl
    · exact foldl_sseEvent json gap f
  | comment t => rfl

theorem readBlock_bytes (i : Item V) : readBlock json (i.bytes json gap) = i.event json := by
  have hlines : lines (i.text json gap) = i.lines json gap ++ [[]] := by
    rw [Item.text, lines_flatMap fun line h => (mem_lines json gap h).2]
    rfl
  rw [readBlock, Item.bytes, fromUtf8Lossy_utf8, hlines, List.foldl_append, foldl_lines]
  cases i <;> rfl

def Item.sent : Item V → Option (List Char × V)
  | .frame f => some (f.name.text, f.body)
  | .comment _ => none

theorem event_eq_sent {i : Item V}
    (h : ∀ f, i = .frame f → json.fromStr (json.toString f.body) = some f.body) :
    i.event json = i.sent := by
  cases i with
  | frame f => rw [Item.event, SerdeJson.reread, h f rfl, Option.getD_some, Item.sent]
  | comment t => rfl

theorem mem_of_mem_arrived {ι α : Type} {enc : ι → List α} {i : ι} : ∀ {items : List ι} {n : ℕ},
    i ∈ arrived enc n items → i ∈ items
  | [], _, h => h
  | j :: items, n, h => by
    rw [arrived] at h
    split_ifs at h
    · rcases List.mem_cons.mp h with rfl | h
      · exact List.mem_cons_self
      · exact List.mem_cons_of_mem j (mem_of_mem_arrived h)
    · cases h

/-- The chunks may be cut and the reads may come as they like. What has been read are the first of
the events whose blocks have arrived, with the names and the JSON texts that were written, and the
next read gives the one that is missing, if one is. The events are those that were sent where JSON
texts read back as what they were written for, and when the stream is complete they are the events
of all its items. -/
theorem reads_in_any_chunks (items : List (Item V)) (ops : List (Op UInt8))
    (h : received ops <+: wire (Item.bytes json gap) items) :
    let whole := arrived (Item.bytes json gap) (received ops).length items
    let events := whole.filterMap (Item.event json)
    (runReader json ops).1 <+: events ∧
      (nextEvent json (runReader json ops).2).1 = events[(runReader json ops).1.length]? ∧
      ((∀ f, .frame f ∈ items → json.fromStr (json.toString f.body) = some f.body) →
        events = whole.filterMap Item.sent) ∧
      (received ops = wire (Item.bytes json gap) items → whole = items) := by
  have hread : (fun i => readBlock json (i.bytes json gap)) = Item.event json :=
    funext (readBlock_bytes json gap)
  have hrun := next_after_run (readBlock json) (blocks_encodes json gap) h
  rw [hread] at hrun
  refine ⟨hrun.1, hrun.2, fun hjson => ?_, fun hall => ?_⟩
  · apply List.filterMap_congr
    intro i hi
    exact event_eq_sent json fun f hf => hjson f (hf ▸ mem_of_mem_arrived hi)
  · rw [hall, arrived_wire]

end Reading

section Ids

def lsnText : List Char := ['{', '"', 'l', 's', 'n', '"', ':', '5', '}']

def twoTexts : SerdeJson Bool where
  toString v := if v then lsnText else "null".toList
  fromStr text := if text = lsnText then some true else if text = "null".toList
    then some false else none
  null := false
  oneLine v := by cases v <;> decide
  trimmed v := by cases v <;> decide

/-- A change with the second value, in two chunks with a read between them. -/
def splitChange : List (Op UInt8) :=
  let bytes := (Item.frame ⟨.change, some ⟨['5'], by decide⟩, true⟩).bytes twoTexts fun _ => false
  [.push (bytes.take 20), .next, .push (bytes.drop 20)]

theorem reads_split_change :
    (runReader twoTexts splitChange).1 <+: [("change".toList, true)] ∧
      (nextEvent twoTexts (runReader twoTexts splitChange).2).1 =
        [("change".toList, true)][(runReader twoTexts splitChange).1.length]? := by
  have hall : received splitChange =
      wire (Item.bytes twoTexts fun _ => false)
        [.frame ⟨.change, some ⟨['5'], by decide⟩, true⟩] := by
    simp [splitChange, received, wire]
  have h := reads_in_any_chunks twoTexts (fun _ => false) _ splitChange (by rw [hall])
  rw [h.2.2.2 hall] at h
  exact ⟨h.1, h.2.1⟩

theorem read_one {V : Type} (json : SerdeJson V) (gap : List Char → Bool) (f : CdcFrame V) :
    (runReader json [.push ((Item.frame f).bytes json gap), .next]).1 =
      [(f.name.text, json.reread f.body)] := by
  have hcut := (blocks_encodes json gap).whole (.frame f) []
  rw [List.append_nil] at hcut
  rw [runReader]
  simp only [Framing.run, Framing.step, List.nil_append]
  rw [blocks.next_some _ hcut, readBlock_bytes]
  rfl

/-- No reading of an event gives the id of its frame. -/
theorem id_is_not_read : ¬ ∃ idOf : List Char × Bool → Option (List Char), ∀ f : CdcFrame Bool,
    (runReader twoTexts [.push ((Item.frame f).bytes twoTexts fun _ => false), .next]).1.map idOf =
      [f.id.map FieldText.text] := by
  rintro ⟨idOf, h⟩
  have hsome := h ⟨.change, some ⟨['5'], by decide⟩, true⟩
  have hnone := h ⟨.change, none, true⟩
  rw [read_one, List.map_singleton] at hsome hnone
  have heq := (List.singleton_inj.mp hsome).symm.trans (List.singleton_inj.mp hnone)
  cases heq

end Ids

end DewDB.SseReader
