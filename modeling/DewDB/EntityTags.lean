import DewDB.Precondition
import DewDB.TokenRing
import DewDB.Utf8Order
import Mathlib.Data.List.TakeWhile

/-!
# Lists of entity tags

The scanner of the `If-Match` and `If-None-Match` headers goes over the bytes of a text and cuts the
tags out of the text by byte positions. It reads the list that the grammar of the headers derives,
where elements may be empty, and a condition is judged on it as the comparisons of the two headers
prescribe.
-/
namespace DewDB.Precondition

open Utf8Order

section Slicing

/-- The text without its first bytes, if these are whole characters. -/
def dropBytes : ℕ → List Char → Option (List Char)
  | 0, cs => some cs
  | _ + 1, [] => none
  | n + 1, c :: cs =>
    let size := (String.utf8EncodeChar c).length
    if size ≤ n + 1 then dropBytes (n + 1 - size) cs else none
termination_by _ cs => cs.length

def takeBytes : ℕ → List Char → Option (List Char)
  | 0, _ => some []
  | _ + 1, [] => none
  | n + 1, c :: cs =>
    let size := (String.utf8EncodeChar c).length
    if size ≤ n + 1 then (takeBytes (n + 1 - size) cs).map (c :: ·) else none
termination_by _ cs => cs.length

/-- `text[start..stop]`, which panics where it would cut inside a character. -/
def slice (text : List Char) (start stop : ℕ) : Option (List Char) :=
  (dropBytes start text).bind fun cs => takeBytes (stop - start) cs

end Slicing

section Scanning

/-! What is scanned is a list of bytes, or of characters, with their codes. -/

variable {α : Type} (code : α → ℕ)

def isOws (a : α) : Bool := code a == 0x20 || code a == 0x09

def isSep (a : α) : Bool := code a == 0x20 || code a == 0x09 || code a == 0x2c

def isEtagc (a : α) : Bool := code a == 0x21 || (0x23 ≤ code a && code a ≤ 0x7e)

def notQuote (a : α) : Bool := code a != 0x22

/-- `starts_with(b"W/")`. -/
def isWeak : List α → Bool
  | a :: b :: _ => code a == 0x57 && code b == 0x2f
  | _ => false

def afterQuote : List α → Option (List α)
  | [] => none
  | a :: tail => if notQuote code a then none else some tail

def openQuote (rest : List α) : Option (List α) :=
  afterQuote code (if isWeak code rest then rest.drop 2 else rest)

/-- What is behind a tag, which is nothing or starts with a comma. -/
def separated (after : List α) : Option (List α) :=
  match after.dropWhile (isOws code) with
  | [] => some []
  | a :: rest => if code a ≠ 0x2c then none else some (a :: rest)

end Scanning

/-- One tag and what is left behind it. Outside, `none` is a panic. -/
def parseTag (text : List Char) (rest : List UInt8) : Option
    (Except String (EntityTag × List UInt8)) :=
  match openQuote UInt8.toNat rest with
  | none => some (.error "expected a quoted entity tag or a lone *")
  | some tail =>
    let start := (utf8 text).length - tail.length
    let inner := tail.takeWhile (notQuote UInt8.toNat)
    match tail.dropWhile (notQuote UInt8.toNat) with
    | [] => some (.error "unterminated entity tag")
    | _ :: after =>
      if !inner.all (isEtagc UInt8.toNat)
        then some (.error "entity tag holds a character outside etagc")
      else
        match slice text start (start + inner.length) with
        | none => none
        | some tag =>
          match separated UInt8.toNat after with
          | none => some (.error "entity tags must be separated by commas")
          | some after => some (.ok (⟨isWeak UInt8.toNat rest, tag⟩, after))

theorem length_dropWhile_le {α : Type} (p : α → Bool) (l : List α) :
    (l.dropWhile p).length ≤ l.length :=
  (List.dropWhile_sublist p).length_le

theorem length_of_openQuote {α : Type} {code : α → ℕ} {rest tail : List α}
    (h : openQuote code rest = some tail) : tail.length < rest.length := by
  have hle : (if isWeak code rest then rest.drop 2 else rest).length ≤ rest.length := by
    split_ifs
    · exact (List.drop_sublist 2 rest).length_le
    · exact le_rfl
  unfold openQuote at h
  generalize (if isWeak code rest then rest.drop 2 else rest) = start at h hle
  cases start with
  | nil => cases h
  | cons a start =>
    rw [afterQuote] at h
    split_ifs at h
    obtain rfl := Option.some.inj h
    exact hle

theorem length_of_separated {α : Type} {code : α → ℕ} {after rest : List α}
    (h : separated code after = some rest) : rest.length ≤ after.length := by
  have hle := length_dropWhile_le (isOws code) after
  unfold separated at h
  split at h
  · obtain rfl := Option.some.inj h
    exact Nat.zero_le _
  · rename_i a bs hrest
    split_ifs at h
    rw [hrest] at hle
    exact Option.some.inj h ▸ hle

theorem length_of_parseTag {text : List Char} {rest after : List UInt8} {t : EntityTag}
    (h : parseTag text rest = some (.ok (t, after))) : after.length < rest.length := by
  unfold parseTag at h
  cases hopen : openQuote UInt8.toNat rest with
  | none =>
    rw [hopen] at h
    cases h
  | some tail =>
    have hlt := length_of_openQuote hopen
    have hle := length_dropWhile_le (notQuote UInt8.toNat) tail
    rw [hopen] at h
    dsimp only at h
    cases hclose : tail.dropWhile (notQuote UInt8.toNat) with
    | nil =>
      rw [hclose] at h
      cases h
    | cons close bs =>
      rw [hclose] at h hle
      dsimp only at h
      split_ifs at h
      · cases h
      · generalize slice text _ _ = cut at h
        cases cut with
        | none => cases h
        | some tag =>
          cases hsep : separated UInt8.toNat bs with
          | none =>
            rw [hsep] at h
            cases h
          | some rest' =>
            have := length_of_separated hsep
            rw [hsep] at h
            obtain rfl : rest' = after := (Prod.mk.inj (Except.ok.inj (Option.some.inj h))).2
            rw [List.length_cons] at hle
            omega

/-- The loop of `parse_tags`. -/
def parseTagsFrom (text : List Char) (rest : List UInt8) (tags : List EntityTag) :
    Option (Except String (List EntityTag)) :=
  match _ : rest.dropWhile (isSep UInt8.toNat) with
  | [] => some (.ok tags)
  | b :: bs =>
    match _ : parseTag text (b :: bs) with
    | none => none
    | some (.error e) => some (.error e)
    | some (.ok (tag, after)) => parseTagsFrom text after (tags ++ [tag])
termination_by rest.length
decreasing_by
  rename_i hrest htag
  have hlt := length_of_parseTag htag
  have hle := length_dropWhile_le (isSep UInt8.toNat) rest
  rw [hrest] at hle
  exact Nat.lt_of_lt_of_le hlt hle

theorem parseTagsFrom_eq (text : List Char) (rest : List UInt8) (tags : List EntityTag) :
    parseTagsFrom text rest tags =
      match rest.dropWhile (isSep UInt8.toNat) with
      | [] => some (.ok tags)
      | b :: bs =>
        match parseTag text (b :: bs) with
        | none => none
        | some (.error e) => some (.error e)
        | some (.ok (tag, after)) => parseTagsFrom text after (tags ++ [tag]) := by
  rw [parseTagsFrom]
  split
  · rename_i hrest
    rw [hrest]
  · rename_i b bs hrest
    rw [hrest]
    dsimp only
    split <;> rename_i htag <;> rw [htag]

/-- `str::trim`. -/
def trim (text : List Char) : List Char :=
  ((text.dropWhile TokenRing.isWhitespace).reverse.dropWhile TokenRing.isWhitespace).reverse

def parseTags (text : List Char) : Option (Except String Tags) :=
  if trim text = ['*'] then some (.ok .any)
  else
    match parseTagsFrom text (utf8 text) [] with
    | none => none
    | some (.error e) => some (.error e)
    | some (.ok []) => some (.error "no entity tag given")
    | some (.ok tags) => some (.ok (.list tags))

section Grammar

def EtagChar (c : Char) : Prop :=
  c.toNat = 0x21 ∨ 0x23 ≤ c.toNat ∧ c.toNat ≤ 0x7e ∨ 0x80 ≤ c.toNat ∧ c.toNat ≤ 0xff

def Ows (cs : List Char) : Prop := ∀ c ∈ cs, c = ' ' ∨ c = '\t'

def EntityTag.written (t : EntityTag) : List Char :=
  (if t.weak then ['W', '/'] else []) ++ '"' :: t.text ++ ['"']

/-- An element of a list, which may be empty, with the whitespace around it. The characters of tags
are those that `E` allows. -/
inductive IsElement (E : Char → Prop) : List EntityTag → List Char → Prop where
  | empty {a : List Char} (ha : Ows a) : IsElement E [] a
  | tag {a b : List Char} (t : EntityTag) (ha : Ows a) (hb : Ows b) (ht : ∀ c ∈ t.text, E c) :
    IsElement E [t] (a ++ t.written ++ b)

inductive IsList (E : Char → Prop) : List EntityTag → List Char → Prop where
  | one {ts : List EntityTag} {cs : List Char} (h : IsElement E ts cs) : IsList E ts cs
  | more {ts ts' : List EntityTag} {cs cs' : List Char} (h : IsElement E ts cs)
      (h' : IsList E ts' cs') :
    IsList E (ts ++ ts') (cs ++ ',' :: cs')

/-- What a header says: any representation, or a list of at least one tag. -/
inductive IsCondition : Tags → List Char → Prop where
  | any {a b : List Char} (ha : Ows a) (hb : Ows b) : IsCondition .any (a ++ '*' :: b)
  | list {ts : List EntityTag} {cs : List Char} (hne : ts ≠ []) (h : IsList EtagChar ts cs) :
    IsCondition (.list ts) cs

structure HeaderText where
  chars : List Char
  visible : ∀ c ∈ chars, c = '\t' ∨ 0x20 ≤ c.toNat ∧ c.toNat < 0x7f

end Grammar

section Bytes

theorem code_of_mem {c : Char} {b : UInt8} (hb : b ∈ String.utf8EncodeChar c) :
    b.toNat = c.toNat ∨ 128 ≤ b.toNat ∧ 128 ≤ c.toNat := by
  by_cases hascii : c.val.toNat ≤ 127
  · rw [encode_ascii hascii, List.mem_singleton] at hb
    left
    rw [hb, UInt8.toNat_ofNat']
    change c.val.toNat % 256 = c.val.toNat
    omega
  · right
    exact ⟨mem_encode_ge (Nat.lt_of_not_le hascii) hb, Nat.lt_of_not_le hascii⟩

/-- A test that does not tell the bytes of a character from the character. -/
def Agree (p : UInt8 → Bool) (q : Char → Bool) : Prop :=
  ∀ c, ∀ b ∈ String.utf8EncodeChar c, p b = q c

theorem agree_isOws : Agree (isOws UInt8.toNat) (isOws Char.toNat) := by
  intro c b hb
  rw [Bool.eq_iff_iff]
  simp only [isOws, Bool.or_eq_true, beq_iff_eq]
  rcases code_of_mem hb with h | h <;> omega

theorem agree_isSep : Agree (isSep UInt8.toNat) (isSep Char.toNat) := by
  intro c b hb
  rw [Bool.eq_iff_iff]
  simp only [isSep, Bool.or_eq_true, beq_iff_eq]
  rcases code_of_mem hb with h | h <;> omega

theorem agree_isEtagc : Agree (isEtagc UInt8.toNat) (isEtagc Char.toNat) := by
  intro c b hb
  rw [Bool.eq_iff_iff]
  simp only [isEtagc, Bool.or_eq_true, Bool.and_eq_true, beq_iff_eq, decide_eq_true_eq]
  rcases code_of_mem hb with h | h <;> omega

theorem agree_notQuote : Agree (notQuote UInt8.toNat) (notQuote Char.toNat) := by
  intro c b hb
  rw [Bool.eq_iff_iff]
  simp only [notQuote, bne_iff_ne, ne_eq]
  rcases code_of_mem hb with h | h <;> omega

variable {p : UInt8 → Bool} {q : Char → Bool}

theorem dropWhile_utf8 (h : Agree p q) (cs : List Char) : (utf8 cs).dropWhile p = utf8
    (cs.dropWhile q) := by
  induction cs with
  | nil => rfl
  | cons c cs ih =>
    rw [utf8_cons, List.dropWhile_cons]
    cases hq : q c with
    | true => rw [List.dropWhile_append_of_pos fun b hb => (h c b hb).trans hq, ih, if_pos rfl]
    | false =>
      rw [if_neg Bool.false_ne_true, utf8_cons]
      obtain ⟨b, bs, hbs⟩ := List.exists_cons_of_length_pos (length_encode_pos c)
      have hb : p b = false := (h c b (hbs ▸ List.mem_cons_self)).trans hq
      rw [hbs, List.cons_append, List.dropWhile_cons_of_neg (Bool.eq_false_iff.mp hb)]

theorem takeWhile_utf8 (h : Agree p q) (cs : List Char) : (utf8 cs).takeWhile p = utf8
    (cs.takeWhile q) := by
  have hwhole : (utf8 cs).takeWhile p ++ (utf8 cs).dropWhile p =
      utf8 (cs.takeWhile q) ++ (utf8 cs).dropWhile p := by
    rw [List.takeWhile_append_dropWhile, dropWhile_utf8 h, utf8, utf8, utf8, ← List.flatMap_append,
      List.takeWhile_append_dropWhile]
  exact List.append_cancel_right hwhole

theorem all_utf8 (h : Agree p q) (cs : List Char) : (utf8 cs).all p = cs.all q := by
  induction cs with
  | nil => rfl
  | cons c cs ih =>
    obtain ⟨b, bs, hbs⟩ := List.exists_cons_of_length_pos (length_encode_pos c)
    have hall : (String.utf8EncodeChar c).all p = q c := by
      rw [Bool.eq_iff_iff, List.all_eq_true]
      exact ⟨fun hp => (h c b (hbs ▸ List.mem_cons_self)).symm.trans
        (hp b (hbs ▸ List.mem_cons_self)), fun hq b hb => (h c b hb).trans hq⟩
    rw [utf8_cons, List.all_append, hall, ih, List.all_cons]

/-- The first byte of a text, with what is behind it where it is a character of its own. -/
theorem utf8_head (c : Char) (cs : List Char) :
    ∃ b bs, utf8 (c :: cs) = b :: bs ∧ (b.toNat = c.toNat ∧ bs = utf8 cs ∨
      128 ≤ b.toNat ∧ 128 ≤ c.toNat) := by
  by_cases hascii : c.val.toNat ≤ 127
  · refine ⟨_, _, by rw [utf8_cons, encode_ascii hascii]; rfl, .inl ⟨?_, rfl⟩⟩
    rw [UInt8.toNat_ofNat']
    change c.val.toNat % 256 = c.val.toNat
    omega
  · obtain ⟨b, bs, hbs⟩ := List.exists_cons_of_length_pos (length_encode_pos c)
    refine ⟨b, bs ++ utf8 cs, by rw [utf8_cons, hbs]; rfl, .inr ?_⟩
    exact ⟨mem_encode_ge (Nat.lt_of_not_le hascii) (hbs ▸ List.mem_cons_self),
      Nat.lt_of_not_le hascii⟩

theorem isWeak_utf8 (cs : List Char) : isWeak UInt8.toNat (utf8 cs) = isWeak Char.toNat cs := by
  cases cs with
  | nil => rfl
  | cons c cs =>
    obtain ⟨b, bs, hbs, ⟨hb, rfl⟩ | ⟨hb, hc⟩⟩ := utf8_head c cs
    · rw [hbs]
      cases cs with
      | nil => rfl
      | cons d ds =>
        obtain ⟨b', bs', hbs', hb'⟩ := utf8_head d ds
        have hslash : (b'.toNat == 0x2f) = (d.toNat == 0x2f) := by
          rw [Bool.eq_iff_iff]
          simp only [beq_iff_eq]
          omega
        rw [hbs', isWeak, isWeak, hb, hslash]
    · have hweak : ∀ {α : Type} {code : α → ℕ} {a : α} {l : List α}, 128 ≤ code a →
        isWeak code (a :: l) = false := by
        intro α code a l ha
        cases l with
        | nil => rfl
        | cons a' l =>
          rw [isWeak, beq_eq_false_iff_ne.mpr (show code a ≠ 0x57 by omega)]
          rfl
      rw [hbs, hweak hb, hweak hc]

theorem isWeak_iff {cs : List Char} :
    isWeak Char.toNat cs = true ↔ ∃ ds, cs = 'W' :: '/' :: ds := by
  constructor
  · intro h
    match cs with
    | [] => cases h
    | [_] => cases h
    | c :: d :: ds =>
      rw [isWeak, Bool.and_eq_true, beq_iff_eq, beq_iff_eq] at h
      have hw : c = 'W' := Char.toNat_inj.mp h.1
      have hslash : d = '/' := Char.toNat_inj.mp h.2
      exact ⟨ds, by rw [hw, hslash]⟩
  · rintro ⟨ds, rfl⟩
    rfl

theorem openQuote_utf8 (cs : List Char) : openQuote UInt8.toNat
    (utf8 cs) = (openQuote Char.toNat cs).map utf8 := by
  have hstart : (if isWeak UInt8.toNat (utf8 cs) then (utf8 cs).drop 2 else utf8 cs) =
      utf8 (if isWeak Char.toNat cs then cs.drop 2 else cs) := by
    rw [isWeak_utf8]
    split_ifs with h
    · obtain ⟨ds, rfl⟩ := isWeak_iff.mp h
      rfl
    · rfl
  unfold openQuote
  rw [hstart]
  generalize (if isWeak Char.toNat cs then cs.drop 2 else cs) = ds
  cases ds with
  | nil => rfl
  | cons c ds =>
    obtain ⟨b, bs, hbs, hb⟩ := utf8_head c ds
    rw [hbs, afterQuote, afterQuote]
    simp only [notQuote, bne_iff_ne, ne_eq]
    by_cases hc : c.toNat = 0x22
    · rcases hb with ⟨hb, rfl⟩ | ⟨-, hhigh⟩
      · rw [if_neg (by omega), if_neg (by omega)]
        rfl
      · omega
    · rw [if_pos (by omega), if_pos hc]
      rfl

theorem separated_utf8 (cs : List Char) : separated UInt8.toNat
    (utf8 cs) = (separated Char.toNat cs).map utf8 := by
  unfold separated
  rw [dropWhile_utf8 agree_isOws]
  cases cs.dropWhile (isOws Char.toNat) with
  | nil => rfl
  | cons c ds =>
    obtain ⟨b, bs, hbs, hb⟩ := utf8_head c ds
    rw [hbs]
    dsimp only
    by_cases hc : c.toNat = 0x2c
    · rw [if_neg (by omega), if_neg (by omega), ← hbs]
      rfl
    · rw [if_pos (by omega), if_pos hc]
      rfl

theorem dropBytes_append (done cs : List Char) : dropBytes (utf8 done).length
    (done ++ cs) = some cs := by
  induction done with
  | nil => simp [utf8, dropBytes]
  | cons c done ih =>
    obtain ⟨k, hk⟩ : ∃ k, (utf8 (c :: done)).length = k + 1 := by
      obtain ⟨b, bs, hbs, -⟩ := utf8_head c done
      exact ⟨bs.length, by rw [hbs, List.length_cons]⟩
    rw [hk, List.cons_append, dropBytes]
    rw [utf8_cons, List.length_append] at hk
    rw [if_pos (by omega), ← ih]
    congr 1
    omega

theorem takeBytes_append (inner cs : List Char) : takeBytes (utf8 inner).length
    (inner ++ cs) = some inner := by
  induction inner with
  | nil => simp [utf8, takeBytes]
  | cons c inner ih =>
    obtain ⟨k, hk⟩ : ∃ k, (utf8 (c :: inner)).length = k + 1 := by
      obtain ⟨b, bs, hbs, -⟩ := utf8_head c inner
      exact ⟨bs.length, by rw [hbs, List.length_cons]⟩
    rw [hk, List.cons_append, takeBytes]
    rw [utf8_cons, List.length_append] at hk
    have hrest : k + 1 - (String.utf8EncodeChar c).length = (utf8 inner).length := by omega
    rw [if_pos (by omega), hrest, ih]
    rfl

theorem utf8_append (as bs : List Char) : utf8 (as ++ bs) = utf8 as ++ utf8 bs :=
  List.flatMap_append

theorem slice_append (done inner cs : List Char) :
    slice (done ++ (inner ++ cs)) (utf8 done).length ((utf8 done).length + (utf8 inner).length) =
      some inner := by
  rw [slice, dropBytes_append, Option.bind_some, Nat.add_sub_cancel_left, takeBytes_append]

end Bytes

section Characters

def scanTag (cs : List Char) : Except String (EntityTag × List Char) :=
  match openQuote Char.toNat cs with
  | none => .error "expected a quoted entity tag or a lone *"
  | some tail =>
    let inner := tail.takeWhile (notQuote Char.toNat)
    match tail.dropWhile (notQuote Char.toNat) with
    | [] => .error "unterminated entity tag"
    | _ :: after =>
      if !inner.all (isEtagc Char.toNat) then .error "entity tag holds a character outside etagc"
      else
        match separated Char.toNat after with
        | none => .error "entity tags must be separated by commas"
        | some after => .ok (⟨isWeak Char.toNat cs, inner⟩, after)

theorem afterQuote_eq_some {cs tail : List Char} :
    afterQuote Char.toNat cs = some tail ↔ cs = '"' :: tail := by
  cases cs with
  | nil => exact ⟨nofun, nofun⟩
  | cons c cs =>
    rw [afterQuote]
    split_ifs with h
    · refine ⟨nofun, fun hcons => ?_⟩
      rw [(List.cons.inj hcons).1] at h
      exact absurd h (by decide)
    · have hc : c = '"' := Char.toNat_inj.mp (by simpa [notQuote] using h)
      rw [hc]
      exact ⟨fun h => congrArg _ (Option.some.inj h), fun h => congrArg some (List.cons.inj h).2⟩

theorem openQuote_eq_some {cs tail : List Char} : openQuote Char.toNat cs = some tail ↔
    cs = (if isWeak Char.toNat cs then ['W', '/'] else []) ++ '"' :: tail := by
  rw [openQuote, afterQuote_eq_some]
  split_ifs with hweak
  · obtain ⟨ds, rfl⟩ := isWeak_iff.mp hweak
    simp
  · rfl

theorem openQuote_suffix {cs tail : List Char} (h : openQuote Char.toNat cs = some tail) :
    ∃ pre, cs = pre ++ tail := by
  refine ⟨(if isWeak Char.toNat cs then ['W', '/'] else []) ++ ['"'], ?_⟩
  rw [List.append_assoc]
  exact openQuote_eq_some.mp h

/-- The bytes of a text are scanned as its characters are, and no cut is inside one of them. -/
theorem parseTag_utf8 (done cs : List Char) :
    parseTag (done ++ cs) (utf8 cs) = some ((scanTag cs).map fun r => (r.1, utf8 r.2)) := by
  unfold parseTag scanTag
  rw [openQuote_utf8]
  cases hopen : openQuote Char.toNat cs with
  | none => rfl
  | some tail =>
    obtain ⟨pre, rfl⟩ := openQuote_suffix hopen
    dsimp only [Option.map_some]
    rw [dropWhile_utf8 agree_notQuote, takeWhile_utf8 agree_notQuote, all_utf8 agree_isEtagc]
    have htail : tail.takeWhile (notQuote Char.toNat) ++ tail.dropWhile
      (notQuote Char.toNat) = tail :=
      List.takeWhile_append_dropWhile
    generalize tail.takeWhile (notQuote Char.toNat) = inner at htail ⊢
    cases hclose : tail.dropWhile (notQuote Char.toNat) with
    | nil => rfl
    | cons close after =>
      have hquote := List.head?_dropWhile_not (notQuote Char.toNat) tail
      rw [hclose] at hquote htail
      have hcode : close.toNat = 0x22 := by
        simpa [notQuote] using hquote
      obtain ⟨b, bs, hbs, ⟨-, rfl⟩ | ⟨-, hhigh⟩⟩ := utf8_head close after
      · have hstart : (utf8 (done ++ (pre ++ tail))).length - (utf8 tail).length =
          (utf8 (done ++ pre)).length := by
          rw [← List.append_assoc, utf8_append (done ++ pre), List.length_append,
            Nat.add_sub_cancel]
        have hslice : slice (done ++ (pre ++ tail)) (utf8 (done ++ pre)).length
            ((utf8 (done ++ pre)).length + (utf8 inner).length) = some inner := by
          rw [← List.append_assoc, ← htail, slice_append]
        rw [hbs]
        dsimp only
        rw [hstart, hslice, separated_utf8, isWeak_utf8]
        split_ifs
        · rfl
        · cases separated Char.toNat after <;> rfl
      · omega

theorem isOws_iff {c : Char} : isOws Char.toNat c = true ↔ c = ' ' ∨ c = '\t' := by
  simp only [isOws, Bool.or_eq_true, beq_iff_eq]
  exact or_congr (Char.toNat_inj (d := ' ')) (Char.toNat_inj (d := '\t'))

theorem separated_eq_some {cs after : List Char} : separated Char.toNat cs = some after ↔
    (after = [] ∨ ∃ r, after = ',' :: r) ∧ ∃ b, Ows b ∧ cs = b ++ after := by
  have hsplit : cs.takeWhile (isOws Char.toNat) ++ cs.dropWhile (isOws Char.toNat) = cs :=
    List.takeWhile_append_dropWhile
  have hows : Ows (cs.takeWhile (isOws Char.toNat)) :=
    fun c hc => isOws_iff.mp (List.mem_takeWhile_imp hc)
  unfold separated
  constructor
  · intro h
    cases hdrop : cs.dropWhile (isOws Char.toNat) with
    | nil =>
      rw [hdrop] at h hsplit
      obtain rfl := Option.some.inj h
      exact ⟨.inl rfl, _, hows, hsplit.symm⟩
    | cons c r =>
      rw [hdrop] at h hsplit
      dsimp only at h
      split_ifs at h with hcomma
      obtain rfl := Option.some.inj h
      have hc : c = ',' := Char.toNat_inj.mp (not_not.mp hcomma)
      exact ⟨.inr ⟨r, by rw [hc]⟩, _, hows, hsplit.symm⟩
  · rintro ⟨hafter, b, hb, rfl⟩
    rw [List.dropWhile_append_of_pos fun c hc => isOws_iff.mpr (hb c hc)]
    rcases hafter with rfl | ⟨r, rfl⟩ <;> rfl

theorem scanTag_eq_ok {cs after : List Char} {t : EntityTag} :
    scanTag cs = .ok (t, after) ↔ (∀ c ∈ t.text, isEtagc Char.toNat c = true) ∧
      (after = [] ∨ ∃ r, after = ',' :: r) ∧ ∃ b, Ows b ∧ cs = t.written ++ b ++ after := by
  constructor
  · intro h
    unfold scanTag at h
    cases hopen : openQuote Char.toNat cs with
    | none =>
      rw [hopen] at h
      cases h
    | some tail =>
      have hquote := List.head?_dropWhile_not (notQuote Char.toNat) tail
      have htail : tail.takeWhile (notQuote Char.toNat) ++ tail.dropWhile
        (notQuote Char.toNat) = tail :=
        List.takeWhile_append_dropWhile
      rw [hopen] at h
      dsimp only at h
      cases hclose : tail.dropWhile (notQuote Char.toNat) with
      | nil =>
        rw [hclose] at h
        cases h
      | cons close rest =>
        rw [hclose] at h hquote htail
        have hc : close = '"' := Char.toNat_inj.mp (by simpa [notQuote] using hquote)
        dsimp only at h
        split_ifs at h with hall
        cases hsep : separated Char.toNat rest with
        | none =>
          rw [hsep] at h
          cases h
        | some after' =>
          rw [hsep] at h
          obtain ⟨rfl, rfl⟩ := Prod.mk.inj (Except.ok.inj h)
          obtain ⟨hafter, b, hb, rfl⟩ := separated_eq_some.mp hsep
          refine ⟨by simpa using hall, hafter, b, hb, ?_⟩
          have hcs := openQuote_eq_some.mp hopen
          rw [← htail, hc] at hcs
          rw [EntityTag.written]
          simpa using hcs
  · rintro ⟨htext, hafter, b, hb, rfl⟩
    have hweak : isWeak Char.toNat (t.written ++ b ++ after) = t.weak := by
      rw [EntityTag.written]
      cases t.weak with
      | true => rfl
      | false => cases t.text <;> rfl
    have hopen : openQuote Char.toNat (t.written ++ b ++ after) = some
      (t.text ++ '"' :: (b ++ after)) := by
      rw [openQuote_eq_some, hweak, EntityTag.written]
      simp
    have hquoted : ∀ c ∈ t.text, notQuote Char.toNat c = true := by
      intro c hc
      have := htext c hc
      simp only [isEtagc, Bool.or_eq_true, Bool.and_eq_true, beq_iff_eq, decide_eq_true_eq] at this
      simp only [notQuote, bne_iff_ne, ne_eq]
      omega
    have htake : (t.text ++ '"' :: (b ++ after)).takeWhile (notQuote Char.toNat) = t.text := by
      rw [List.takeWhile_append_of_pos hquoted]
      exact List.append_nil _
    have hdrop : (t.text ++ '"' :: (b ++ after)).dropWhile (notQuote Char.toNat) =
      '"' :: (b ++ after) := by
      rw [List.dropWhile_append_of_pos hquoted]
      rfl
    unfold scanTag
    rw [hopen]
    dsimp only
    rw [htake, hdrop, hweak]
    dsimp only
    rw [separated_eq_some.mpr ⟨hafter, b, hb, rfl⟩, List.all_eq_true.mpr htext]
    rfl

end Characters

section Lists

variable {E : Char → Prop} {ts : List EntityTag} {c : Char} {cs : List Char}

theorem ows_nil : Ows [] := fun _ h => absurd h List.not_mem_nil

theorem written_head (t : EntityTag) : ∃ c cs, t.written = c :: cs ∧ (c = 'W' ∨ c = '"') := by
  rw [EntityTag.written]
  cases t.weak with
  | true => exact ⟨_, _, rfl, .inl rfl⟩
  | false => exact ⟨_, _, rfl, .inr rfl⟩

theorem IsElement.ows (h : IsElement E ts cs) (hc : c = ' ' ∨ c = '\t') : IsElement E ts
    (c :: cs) := by
  have hcons : ∀ {a : List Char}, Ows a → Ows (c :: a) :=
    fun ha => List.forall_mem_cons.mpr ⟨hc, ha⟩
  cases h with
  | empty ha => exact .empty (hcons ha)
  | tag t ha hb ht => exact .tag t (hcons ha) hb ht

/-- An element starts with whitespace or is a tag with whitespace behind it. -/
theorem IsElement.head (h : IsElement E ts (c :: cs)) :
    (c = ' ' ∨ c = '\t') ∧ IsElement E ts cs ∨
      ∃ t b, ts = [t] ∧ Ows b ∧ (∀ c ∈ t.text, E c) ∧ c :: cs = t.written ++ b := by
  generalize hl : c :: cs = l at h
  cases h with
  | empty ha =>
    subst hl
    exact .inl ⟨ha c List.mem_cons_self, .empty fun d hd => ha d (List.mem_cons_of_mem c hd)⟩
  | @tag a b t ha hb ht =>
    cases a with
    | nil => exact .inr ⟨t, b, rfl, hb, ht, rfl⟩
    | cons d a =>
      obtain ⟨rfl, rfl⟩ := List.cons.inj hl
      exact .inl ⟨ha c List.mem_cons_self,
        .tag t (fun d hd => ha d (List.mem_cons_of_mem c hd)) hb ht⟩

theorem IsElement.eq_nil (h : IsElement E ts []) : ts = [] := by
  generalize hl : [] = l at h
  cases h with
  | empty ha => rfl
  | tag t ha hb ht =>
    obtain ⟨c, cs, hw, -⟩ := written_head t
    simp [hw] at hl

theorem isSep_iff : isSep Char.toNat c = true ↔ (c = ' ' ∨ c = '\t') ∨ c = ',' := by
  simp only [isSep, Bool.or_eq_true, beq_iff_eq]
  exact or_congr (or_congr (Char.toNat_inj (d := ' ')) (Char.toNat_inj (d := '\t')))
    (Char.toNat_inj (d := ','))

theorem isList_sep (hc : isSep Char.toNat c = true) : IsList E ts (c :: cs) ↔ IsList E ts cs := by
  constructor
  · intro h
    generalize hl : c :: cs = l at h
    cases h with
    | one h =>
      subst hl
      rcases h.head with ⟨-, h⟩ | ⟨t, b, -, -, -, hw⟩
      · exact .one h
      · obtain ⟨d, ds, ht, hd⟩ := written_head t
        rw [ht] at hw
        obtain ⟨rfl, -⟩ := List.cons.inj hw
        rcases hd with rfl | rfl <;> cases hc
    | @more ts₁ ts₂ cs₁ cs₂ h h' =>
      cases cs₁ with
      | nil =>
        obtain ⟨rfl, rfl⟩ := List.cons.inj hl
        rw [h.eq_nil]
        exact h'
      | cons d ds =>
        obtain ⟨rfl, rfl⟩ := List.cons.inj hl
        rcases h.head with ⟨-, h⟩ | ⟨t, b, -, -, -, hw⟩
        · exact .more h h'
        · obtain ⟨d, ds, ht, hd⟩ := written_head t
          rw [ht] at hw
          obtain ⟨rfl, -⟩ := List.cons.inj hw
          rcases hd with rfl | rfl <;> cases hc
  · intro h
    rcases isSep_iff.mp hc with hows | rfl
    · cases h with
      | one h => exact .one (h.ows hows)
      | more h h' => exact .more (h.ows hows) h'
    · exact .more (.empty ows_nil) h

theorem isList_seps {seps : List Char} (hs : ∀ c ∈ seps, isSep Char.toNat c = true) :
    IsList E ts (seps ++ cs) ↔ IsList E ts cs := by
  induction seps with
  | nil => rfl
  | cons c seps ih =>
    rw [List.cons_append, isList_sep (hs c List.mem_cons_self), ih fun d hd =>
      hs d (List.mem_cons_of_mem c hd)]

theorem isList_nil : IsList E ts [] ↔ ts = [] := by
  constructor
  · intro h
    generalize hl : [] = l at h
    cases h with
    | one h => exact (hl ▸ h).eq_nil
    | more h h' => simp at hl
  · rintro rfl
    exact .one (.empty ows_nil)

def Scanned (c : Char) : Prop := isEtagc Char.toNat c = true

/-- Where no separator stands, a list starts with the tag that is scanned there. -/
theorem isList_scanTag (hc : isSep Char.toNat c = false) : IsList Scanned ts (c :: cs) ↔
    ∃ t after new, scanTag (c :: cs) = .ok (t, after) ∧ ts = t :: new ∧
      IsList Scanned new after := by
  have hows : ¬(c = ' ' ∨ c = '\t') := fun h => Bool.eq_false_iff.mp hc (isSep_iff.mpr (.inl h))
  have hcomma : c ≠ ',' := fun h => Bool.eq_false_iff.mp hc (isSep_iff.mpr (.inr h))
  constructor
  · intro h
    generalize hl : c :: cs = l at h
    cases h with
    | one h =>
      subst hl
      rcases h.head with ⟨h, -⟩ | ⟨t, b, rfl, hb, ht, hw⟩
      · exact absurd h hows
      · refine ⟨t, [], [], scanTag_eq_ok.mpr ⟨ht, .inl rfl, b, hb, ?_⟩, rfl, isList_nil.mpr rfl⟩
        rw [hw, List.append_nil]
    | @more ts₁ ts₂ cs₁ cs₂ h h' =>
      cases cs₁ with
      | nil => exact absurd (List.cons.inj hl).1 hcomma
      | cons d ds =>
        obtain ⟨rfl, rfl⟩ := List.cons.inj hl
        rcases h.head with ⟨h, -⟩ | ⟨t, b, rfl, hb, ht, hw⟩
        · exact absurd h hows
        · refine ⟨t, ',' :: cs₂, ts₂, scanTag_eq_ok.mpr ⟨ht, .inr ⟨cs₂, rfl⟩, b, hb, ?_⟩, rfl, ?_⟩
          · rw [← hw, List.cons_append]
          · exact (isList_sep (by decide)).mpr h'
  · rintro ⟨t, after, new, hscan, rfl, hnew⟩
    obtain ⟨ht, hafter, b, hb, hcs⟩ := scanTag_eq_ok.mp hscan
    have htag : IsElement Scanned [t] (t.written ++ b) := .tag t ows_nil hb ht
    rw [hcs]
    rcases hafter with rfl | ⟨r, rfl⟩
    · rw [isList_nil.mp hnew, List.append_nil]
      exact .one htag
    · exact .more htag ((isList_sep (by decide)).mp hnew)

/-- The loop reads the list that stands in the rest of the text, and never panics. -/
theorem parseTagsFrom_spec (done cs : List Char) (tags : List EntityTag) :
    ∃ r, parseTagsFrom (done ++ cs) (utf8 cs) tags = some r ∧
      ∀ ts, r = .ok ts ↔ ∃ new, IsList Scanned new cs ∧ ts = tags ++ new := by
  induction hk : cs.length using Nat.strong_induction_on generalizing done cs tags with
  | h k ih =>
    have hsplit : cs.takeWhile (isSep Char.toNat) ++ cs.dropWhile (isSep Char.toNat) = cs :=
      List.takeWhile_append_dropWhile
    have hlist : ∀ new, IsList Scanned new cs ↔
      IsList Scanned new (cs.dropWhile (isSep Char.toNat)) := fun new => by
      conv_lhs => rw [← hsplit]
      exact isList_seps fun c hc => List.mem_takeWhile_imp hc
    have hhead := List.head?_dropWhile_not (isSep Char.toNat) cs
    rw [parseTagsFrom_eq, dropWhile_utf8 agree_isSep]
    have hle := length_dropWhile_le (isSep Char.toNat) cs
    generalize cs.takeWhile (isSep Char.toNat) = seps at hsplit
    generalize cs.dropWhile (isSep Char.toNat) = ds at hsplit hlist hhead hle ⊢
    cases ds with
    | nil =>
      refine ⟨.ok tags, rfl, fun ts => ?_⟩
      simp only [hlist, isList_nil]
      exact ⟨fun h => ⟨[], rfl, by rw [List.append_nil]; exact (Except.ok.inj h).symm⟩,
        fun ⟨_, hnil, h⟩ => by rw [h, hnil, List.append_nil]⟩
    | cons c ds =>
      have hc : isSep Char.toNat c = false := by simpa using hhead
      obtain ⟨b, bs, hbs, -⟩ := utf8_head c ds
      have htag := parseTag_utf8 (done ++ seps) (c :: ds)
      rw [List.append_assoc, hsplit, hbs] at htag
      rw [hbs]
      dsimp only
      rw [htag]
      cases hscan : scanTag (c :: ds) with
      | error e =>
        refine ⟨.error e, rfl, fun ts => ⟨nofun, ?_⟩⟩
        rintro ⟨new, hnew, -⟩
        obtain ⟨t, after, new', hok, -⟩ := (isList_scanTag hc).mp ((hlist new).mp hnew)
        rw [hscan] at hok
        cases hok
      | ok r =>
        obtain ⟨t, after⟩ := r
        obtain ⟨-, -, b', -, hcs⟩ := scanTag_eq_ok.mp hscan
        have hlt : after.length < cs.length := by
          obtain ⟨w, ws, hw, -⟩ := written_head t
          rw [hcs, hw] at hle
          simp only [List.length_append, List.length_cons] at hle
          omega
        have htext : done ++ cs = done ++ (seps ++ (t.written ++ b')) ++ after := by
          rw [← hsplit, hcs]
          simp only [List.append_assoc]
        obtain ⟨r, hr, hspec⟩ :=
          ih after.length (hk ▸ hlt) (done ++ (seps ++ (t.written ++ b'))) after (tags ++ [t]) rfl
        rw [← htext] at hr
        refine ⟨r, hr, fun ts => (hspec ts).trans ?_⟩
        constructor
        · rintro ⟨new, hnew, rfl⟩
          refine ⟨t :: new, (hlist _).mpr
            ((isList_scanTag hc).mpr ⟨t, after, new, hscan, rfl, hnew⟩), ?_⟩
          rw [List.append_assoc]
          rfl
        · rintro ⟨new, hnew, rfl⟩
          obtain ⟨t', after', new', hok, rfl, hnew'⟩ := (isList_scanTag hc).mp ((hlist new).mp hnew)
          rw [hscan] at hok
          obtain ⟨rfl, rfl⟩ := Prod.mk.inj (Except.ok.inj hok)
          refine ⟨new', hnew', ?_⟩
          rw [List.append_assoc]
          rfl

end Lists

section Conditions

theorem isWhitespace_of_ows {a : List Char} (ha : Ows a) :
    ∀ c ∈ a, TokenRing.isWhitespace c = true := by
  intro c hc
  rcases ha c hc with rfl | rfl <;> decide

theorem ows_of_isWhitespace {a : List Char}
    (hv : ∀ c ∈ a, c = '\t' ∨ 0x20 ≤ c.toNat ∧ c.toNat < 0x7f)
    (ha : ∀ c ∈ a, TokenRing.isWhitespace c = true) : Ows a := by
  intro c hc
  rcases hv c hc with rfl | ⟨hlow, hhigh⟩
  · exact .inr rfl
  · left
    apply Char.toNat_inj.mp
    change c.toNat = 0x20
    have := ha c hc
    simp only [TokenRing.isWhitespace, Bool.or_eq_true, Bool.and_eq_true, beq_iff_eq,
      decide_eq_true_eq] at this
    omega

theorem trim_eq_star (text : HeaderText) :
    trim text.chars = ['*'] ↔ ∃ a b, Ows a ∧ Ows b ∧ text.chars = a ++ '*' :: b := by
  obtain ⟨cs, hv⟩ := text
  constructor
  · intro h
    have hfront : cs.takeWhile TokenRing.isWhitespace ++ cs.dropWhile TokenRing.isWhitespace = cs :=
      List.takeWhile_append_dropWhile
    have hback : (cs.dropWhile TokenRing.isWhitespace).reverse.takeWhile TokenRing.isWhitespace ++
        (cs.dropWhile TokenRing.isWhitespace).reverse.dropWhile TokenRing.isWhitespace =
          (cs.dropWhile TokenRing.isWhitespace).reverse := List.takeWhile_append_dropWhile
    have hkept : cs.dropWhile TokenRing.isWhitespace =
        '*' :: ((cs.dropWhile TokenRing.isWhitespace).reverse.takeWhile
          TokenRing.isWhitespace).reverse := by
      have := congrArg List.reverse hback
      rw [List.reverse_append, List.reverse_reverse] at this
      exact this.symm.trans (congrArg (· ++ _) h)
    refine ⟨_, _, ?_, ?_, hfront.symm.trans
      (congrArg (cs.takeWhile TokenRing.isWhitespace ++ ·) hkept)⟩
    · apply ows_of_isWhitespace
      · exact fun c hc => hv c ((List.takeWhile_sublist _).subset hc)
      · exact fun c hc => List.mem_takeWhile_imp hc
    · apply ows_of_isWhitespace
      · intro c hc
        apply hv
        rw [List.mem_reverse] at hc
        have := (List.takeWhile_sublist _).subset hc
        rw [List.mem_reverse] at this
        exact (List.dropWhile_sublist _).subset this
      · intro c hc
        rw [List.mem_reverse] at hc
        exact List.mem_takeWhile_imp hc
  · rintro ⟨a, b, ha, hb, rfl⟩
    have hfront : (a ++ '*' :: b).dropWhile TokenRing.isWhitespace = '*' :: b := by
      rw [List.dropWhile_append_of_pos (isWhitespace_of_ows ha)]
      rfl
    have hback : ∀ c ∈ b.reverse, TokenRing.isWhitespace c = true := fun c hc =>
      isWhitespace_of_ows hb c (List.mem_reverse.mp hc)
    rw [trim, hfront, List.reverse_cons, List.dropWhile_append_of_pos hback]
    rfl

theorem IsElement.imp {E E' : Char → Prop} {ts : List EntityTag} {cs : List Char}
    (h : IsElement E ts cs) (hE : ∀ c ∈ cs, E c → E' c) : IsElement E' ts cs := by
  cases h with
  | empty ha => exact .empty ha
  | tag t ha hb ht =>
    refine .tag t ha hb fun c hc => hE c ?_ (ht c hc)
    simp [EntityTag.written, hc]

theorem IsList.imp {E E' : Char → Prop} {ts : List EntityTag} {cs : List Char} (h : IsList E ts cs)
    (hE : ∀ c ∈ cs, E c → E' c) : IsList E' ts cs := by
  induction h with
  | one h => exact .one (h.imp hE)
  | more h h' ih =>
    apply IsList.more (h.imp fun c hc => hE c (List.mem_append_left _ hc))
    exact ih fun c hc => hE c (List.mem_append_right _ (List.mem_cons_of_mem _ hc))

theorem isList_scanned (text : HeaderText) (ts : List EntityTag) :
    IsList Scanned ts text.chars ↔ IsList EtagChar ts text.chars := by
  have hchar : ∀ c ∈ text.chars, Scanned c ↔ EtagChar c := by
    intro c hc
    simp only [Scanned, isEtagc, EtagChar, Bool.or_eq_true, Bool.and_eq_true, beq_iff_eq,
      decide_eq_true_eq]
    rcases text.visible c hc with rfl | ⟨hlow, hhigh⟩
    · decide
    · omega
  exact ⟨fun h => h.imp fun c hc => (hchar c hc).mp, fun h => h.imp fun c hc => (hchar c hc).mpr⟩

theorem not_isList_star {ts : List EntityTag} {a b : List Char} (ha : Ows a) :
    ¬IsList Scanned ts (a ++ '*' :: b) := by
  intro h
  rw [isList_seps fun c hc => isSep_iff.mpr (.inl (ha c hc))] at h
  obtain ⟨t, after, -, hscan, -, -⟩ := (isList_scanTag (by decide)).mp h
  obtain ⟨-, -, b', -, hcs⟩ := scanTag_eq_ok.mp hscan
  obtain ⟨c, cs, hw, hc⟩ := written_head t
  rw [hw] at hcs
  rw [← (List.cons.inj hcs).1] at hc
  rcases hc with hc | hc <;> cases hc

theorem parseTags_ne_none (text : List Char) : parseTags text ≠ none := by
  obtain ⟨r, hr, -⟩ := parseTagsFrom_spec [] text []
  rw [parseTags]
  split_ifs
  · exact nofun
  · rw [List.nil_append] at hr
    rw [hr]
    match r with
    | .error _ | .ok [] | .ok (_ :: _) => exact nofun

theorem parseTags_eq_ok (text : HeaderText) (tags : Tags) :
    parseTags text.chars = some (.ok tags) ↔ IsCondition tags text.chars := by
  rw [parseTags]
  by_cases hstar : trim text.chars = ['*']
  · rw [if_pos hstar]
    obtain ⟨a, b, ha, hb, htext⟩ := (trim_eq_star text).mp hstar
    constructor
    · intro h
      rw [← Except.ok.inj (Option.some.inj h), htext]
      exact .any ha hb
    · intro h
      generalize hcs : text.chars = cs at h
      cases h with
      | any => rfl
      | list hne h =>
        rw [← hcs, ← isList_scanned, htext] at h
        exact absurd h (not_isList_star ha)
  · obtain ⟨r, hr, hspec⟩ := parseTagsFrom_spec [] text.chars []
    rw [if_neg hstar]
    rw [List.nil_append] at hr
    rw [hr]
    have hlist : ∀ ts, r = .ok ts ↔ IsList EtagChar ts text.chars := fun ts => by
      rw [hspec ts, ← isList_scanned]
      exact ⟨fun ⟨new, h, hts⟩ => hts ▸ h, fun h => ⟨ts, h, rfl⟩⟩
    constructor
    · intro h
      match r with
      | .error e => cases h
      | .ok [] => cases h
      | .ok (t :: ts) =>
        rw [← Except.ok.inj (Option.some.inj h)]
        exact .list (List.cons_ne_nil t ts) ((hlist _).mp rfl)
    · intro h
      generalize hcs : text.chars = cs at h
      cases h with
      | any ha hb => exact absurd ((trim_eq_star text).mpr ⟨_, _, ha, hb, hcs⟩) hstar
      | @list ts cs hne h =>
        rw [(hlist ts).mpr (hcs ▸ h)]
        cases ts with
        | nil => exact absurd rfl hne
        | cons t ts => rfl

def Version.tag (v : Version) : EntityTag := ⟨false, v.etag.tail.dropLast⟩

def StrongMatch (a b : EntityTag) : Prop := a.weak = false ∧ b.weak = false ∧ a.text = b.text

def WeakMatch (a b : EntityTag) : Prop := a.text = b.text

theorem holds_iff (p : Preconditions) (current : Option Version) : p.holds current = true ↔
    (∀ tags, p.ifMatch = some tags → ∃ v, current = some v ∧ ∀ l, tags = .list l →
      ∃ t ∈ l, StrongMatch t v.tag) ∧
    ∀ tags v, p.ifNoneMatch = some tags → current = some v →
      ∃ l, tags = .list l ∧ ∀ t ∈ l, ¬WeakMatch t v.tag := by
  have hmatch : (p.ifMatch.all fun tags =>
    Preconditions.matched true tags (current.map fun v => v.etag.tail.dropLast))
      = true ↔ ∀ tags, p.ifMatch = some tags →
        ∃ v, current = some v ∧ ∀ l, tags = .list l → ∃ t ∈ l, StrongMatch t v.tag := by
    rw [Option.all_eq_true]
    refine forall₂_congr fun tags _ => ?_
    cases current with
    | none => cases tags <;> simp [Preconditions.matched]
    | some v => cases tags <;> simp [Preconditions.matched, StrongMatch, Version.tag]
  have hnone : (p.ifNoneMatch.all fun tags =>
      !Preconditions.matched false tags (current.map fun v => v.etag.tail.dropLast)) = true ↔
        ∀ tags v, p.ifNoneMatch = some tags → current = some v →
          ∃ l, tags = .list l ∧ ∀ t ∈ l, ¬WeakMatch t v.tag := by
    rw [Option.all_eq_true]
    refine forall_congr' fun tags => ?_
    cases current with
    | none => cases tags <;> simp [Preconditions.matched]
    | some v => cases tags <;> simp [Preconditions.matched, WeakMatch, Version.tag]
  rw [Preconditions.holds, Bool.and_eq_true, hmatch, hnone]

/-- The scanner never cuts inside a character. It reads a header as its grammar does: a star, or the
tags of a list in their order. A write then goes through as the strong comparison of `If-Match` and
the weak one of `If-None-Match` prescribe. -/
theorem entity_tag_conditions :
    (∀ text : List Char, parseTags text ≠ none) ∧
    (∀ (text : HeaderText) (tags : Tags),
      parseTags text.chars = some (.ok tags) ↔ IsCondition tags text.chars) ∧
    ∀ (p : Preconditions) (current : Option Version), p.holds current = true ↔
      (∀ tags, p.ifMatch = some tags → ∃ v, current = some v ∧ ∀ l, tags = .list l →
        ∃ t ∈ l, StrongMatch t v.tag) ∧
      ∀ tags v, p.ifNoneMatch = some tags → current = some v →
        ∃ l, tags = .list l ∧ ∀ t ∈ l, ¬WeakMatch t v.tag :=
  ⟨parseTags_ne_none, parseTags_eq_ok, holds_iff⟩

end Conditions

end DewDB.Precondition
