import DewDB.LittleEndian
import DewDB.Recovery
import DewDB.TransitionSystem

/-!
# The position file

`applied.pos` holds the commit position in two slots that are written in turn. A save writes the
slot of its sequence number, which advances also when the save fails. Reading takes the readable
record with the highest sequence number. A save can end with any of its bytes written, and with or
without the process.
-/
namespace DewDB.PositionSlots

open Recovery LittleEndian TransitionSystem

def posMagic : ℕ := 0x44504F53

def posSlot : ℕ := 512

def posRecord : ℕ := 24

section Format

variable (crc : List UInt8 → UInt32)

def posHead (seq appliedLsn : ℕ) :
    List UInt8 := toBytes 4 posMagic ++ toBytes 8 seq ++ toBytes 8 appliedLsn

def posEncode (seq appliedLsn : ℕ) : List UInt8 :=
  posHead seq appliedLsn ++ toBytes 4 (crc (posHead seq appliedLsn)).toNat

def posDecode (bytes : List UInt8) : Slot :=
  if bytes.length ≠ posSlot then .damaged
  else if bytes.all fun b => b = 0 then .empty
  else if ofBytes (bytes.take 4) ≠ posMagic then .damaged
  else if (crc (bytes.take 20)).toNat ≠ ofBytes ((bytes.drop 20).take 4) then .damaged
  else .written (ofBytes ((bytes.drop 4).take 8)) (ofBytes ((bytes.drop 12).take 8))

def slotAt (file : List UInt8) (i : ℕ) : List UInt8 := (file.drop (i * posSlot)).take posSlot

def slots (file : List UInt8) :
    PosFile := ⟨posDecode crc (slotAt file 0), posDecode crc (slotAt file 1)⟩

def newest (file : List UInt8) : Except Refusal (Option (ℕ × ℕ)) :=
  if file.length ≠ posSlot * 2 then .error .unreadablePosition else (slots crc file).newest

/-- The sequence number of an open file; `none` when it does not open. -/
def opened (file : List UInt8) : Option ℕ :=
  match newest crc file with
  | .ok found => some (found.elim 0 Prod.fst)
  | .error _ => none

def writeAt (file : List UInt8) (offset : ℕ) (record : List UInt8) : List UInt8 :=
  file.take offset ++ record ++ file.drop (offset + record.length)

def partly : List Bool → List UInt8 → List UInt8 → List UInt8
  | true :: got, _ :: old, b :: record => b :: partly got old record
  | false :: got, o :: old, _ :: record => o :: partly got old record
  | _, old, _ => old

end Format

/-- How a save ends. What it did not report as done has got to some of the bytes. -/
inductive Outcome where
  | done
  | failed (got : List Bool)
  | crashed (got : List Bool)

def Outcome.got : Outcome → Option (List Bool)
  | .done => none
  | .failed got | .crashed got => some got

inductive Op where
  | save (appliedLsn : UInt64) (outcome : Outcome)
  | restart

/-- The file, the sequence number of the process that has it open, and the position of the last save
that reported success. -/
structure State where
  file : List UInt8
  seq : Option ℕ
  lastOk : Option ℕ

/-- A file that `open` has just created. -/
def fresh : State := ⟨List.replicate (posSlot * 2) 0, some 0, none⟩

section Steps

variable (crc : List UInt8 → UInt32)

/-- The file after a save with the sequence number has written the bytes. -/
def written (file : List UInt8) (seq : ℕ) (bytes : List UInt8) : List UInt8 :=
  writeAt file (seq % 2 * posSlot) bytes

def torn (file : List UInt8) (seq appliedLsn : ℕ) (got : List Bool) : List UInt8 :=
  partly got ((file.drop (seq % 2 * posSlot)).take posRecord) (posEncode crc seq appliedLsn)

def step (s : State) : Op → Option State
  | .restart => some { s with seq := opened crc s.file }
  | .save appliedLsn outcome =>
    s.seq.map fun last =>
      let seq := last + 1
      match outcome with
      | .done => ⟨written s.file seq (posEncode crc seq appliedLsn.toNat), some seq,
          some appliedLsn.toNat⟩
      | .failed got => ⟨written s.file seq (torn crc s.file seq appliedLsn.toNat got),
          some seq, s.lastOk⟩
      | .crashed got =>
        let file := written s.file seq (torn crc s.file seq appliedLsn.toNat got)
        ⟨file, opened crc file, s.lastOk⟩

/-- Reading the file gives a position, and one that is not below the last save that reported
success. -/
def Survives (s : State) : Prop :=
  ∃ found, newest crc s.file = .ok found ∧
    ∀ lsn, s.lastOk = some lsn → ∃ seq lsn', found = some (seq, lsn') ∧ lsn ≤ lsn'

end Steps

section Bytes

variable {crc : List UInt8 → UInt32} {file bytes : List UInt8} {seq lsn : ℕ}

@[simp] theorem length_posHead (seq lsn : ℕ) : (posHead seq lsn).length = 20 := by
  simp [posHead]

@[simp] theorem length_posEncode (seq lsn : ℕ) : (posEncode crc seq lsn).length = posRecord := by
  simp [posEncode, posRecord]

theorem posDecode_posEncode {rest : List UInt8} (hrest : rest.length = posSlot - posRecord)
    (hseq : seq < 2 ^ 64)
    (hlsn : lsn < 2 ^ 64) : posDecode crc (posEncode crc seq lsn ++ rest) = .written seq lsn := by
  have hlength : (posEncode crc seq lsn ++ rest).length = posSlot := by
    rw [List.length_append, length_posEncode, hrest]
    rfl
  have hmagic : (posEncode crc seq lsn ++ rest).take 4 = toBytes 4 posMagic := by
    simp [posEncode, posHead, List.append_assoc]
  have hhead : (posEncode crc seq lsn ++ rest).take 20 = posHead seq lsn := by
    simp [posEncode, List.append_assoc]
  have hsum : ((posEncode crc seq lsn ++ rest).drop 20).take 4 = toBytes 4
    (crc (posHead seq lsn)).toNat := by
    simp [posEncode, List.append_assoc]
  have hseqs : ((posEncode crc seq lsn ++ rest).drop 4).take 8 = toBytes 8 seq := by
    simp [posEncode, posHead, List.append_assoc]
  have hlsns : ((posEncode crc seq lsn ++ rest).drop 12).take 8 = toBytes 8 lsn := by
    rw [show 12 = 4 + 8 from rfl, ← List.drop_drop]
    simp [posEncode, posHead, List.append_assoc]
  have hzero : ((posEncode crc seq lsn ++ rest).all fun b => b = 0) = false := by
    simp [posEncode, posHead, posMagic, toBytes]
  have hofMagic : ofBytes (toBytes 4 posMagic) = posMagic := rfl
  have hofSum : ∀ c : UInt32, ofBytes (toBytes 4 c.toNat) = c.toNat :=
    fun c => ofBytes_toBytes_of_lt c.toNat_lt
  have hofSeq : ofBytes (toBytes 8 seq) = seq := ofBytes_toBytes_of_lt hseq
  have hofLsn : ofBytes (toBytes 8 lsn) = lsn := ofBytes_toBytes_of_lt hlsn
  rw [posDecode, hlength, hzero, hmagic, hhead, hsum, hseqs, hlsns, hofMagic, hofSum,
    hofSeq, hofLsn]
  simp

theorem length_partly (got : List Bool) (old record : List UInt8) :
    (partly got old record).length = old.length := by
  induction got generalizing old record with
  | nil => rfl
  | cons b got ih =>
    cases old with
    | nil => cases b <;> rfl
    | cons o old =>
      cases record with
      | nil => cases b <;> rfl
      | cons r record => cases b <;> simp [partly, ih]

theorem length_written (hfile : file.length = posSlot * 2) (hbytes : bytes.length ≤ posSlot) :
    (written file seq bytes).length = posSlot * 2 := by
  have hseq : seq % 2 < 2 := Nat.mod_lt seq (by omega)
  simp only [written, writeAt, posSlot, List.length_append, List.length_take, List.length_drop] at *
  omega

theorem slotAt_written_peer (hfile : file.length = posSlot * 2) (hbytes : bytes.length ≤ posSlot) :
    slotAt (written file seq bytes) ((seq + 1) % 2) = slotAt file ((seq + 1) % 2) := by
  rw [posSlot] at hfile hbytes
  rcases Nat.mod_two_eq_zero_or_one seq with h | h
  · have hpeer : (seq + 1) % 2 = 1 := by omega
    have hlen : (bytes ++ file.drop bytes.length).length = 1024 := by
      rw [List.length_append, List.length_drop]
      omega
    simp only [slotAt, written, writeAt, posSlot, h, hpeer, Nat.zero_mul, Nat.one_mul, Nat.zero_add,
      List.take_zero, List.nil_append]
    rw [List.drop_append, List.drop_of_length_le hbytes, List.nil_append, List.drop_drop,
      Nat.add_sub_cancel' hbytes]
  · have hpeer : (seq + 1) % 2 = 0 := by omega
    have hlen : (file.take 512).length = 512 := by
      rw [List.length_take]
      omega
    simp only [slotAt, written, writeAt, posSlot, h, hpeer, Nat.zero_mul, Nat.one_mul,
      List.drop_zero, List.append_assoc]
    rw [List.take_append, hlen, Nat.sub_self, List.take_zero, List.append_nil,
      List.take_take, Nat.min_self]

theorem slotAt_written (hfile : file.length = posSlot * 2) (hbytes : bytes.length ≤ posSlot) :
    slotAt (written file seq bytes) (seq % 2) = bytes ++
      (slotAt file (seq % 2)).drop bytes.length := by
  rw [posSlot] at hfile hbytes
  rcases Nat.mod_two_eq_zero_or_one seq with h | h
  · simp only [slotAt, written, writeAt, posSlot, h, Nat.zero_mul, Nat.zero_add, List.take_zero,
      List.nil_append, List.drop_zero]
    rw [List.take_append, List.take_of_length_le hbytes, List.drop_take]
  · have hlen : (file.take 512).length = 512 := by
      rw [List.length_take]
      omega
    simp only [slotAt, written, writeAt, posSlot, h, Nat.one_mul, List.append_assoc]
    rw [List.drop_append, hlen, Nat.sub_self, List.drop_zero, List.drop_of_length_le hlen.le,
      List.nil_append,
      List.take_append, List.take_of_length_le hbytes, List.drop_take, List.drop_drop]

end Bytes

section Slots

variable {crc : List UInt8 → UInt32} {file bytes : List UInt8} {p : PosFile} {seq : ℕ} {slot : Slot}

def peer (p : PosFile) (seq : ℕ) : Slot := if seq % 2 = 0 then p.odd else p.even

def held : Slot → Option (ℕ × ℕ)
  | .written seq lsn => some (seq, lsn)
  | _ => none

/-- The readable records are of saves up to the sequence number. -/
def UpTo (p : PosFile) (last : ℕ) : Prop := ∀ q l, p.even = .written q l ∨
  p.odd = .written q l → q ≤ last

theorem slots_written (hfile : file.length = posSlot * 2) (hbytes : bytes.length ≤ posSlot) :
    slots crc (written file seq bytes) =
      (slots crc file).set seq
        (posDecode crc (bytes ++ (slotAt file (seq % 2)).drop bytes.length)) := by
  have hown := @slotAt_written _ _ seq hfile hbytes
  have hpeer := @slotAt_written_peer _ _ seq hfile hbytes
  unfold slots PosFile.set
  rcases Nat.mod_two_eq_zero_or_one seq with h | h
  · rw [if_pos h]
    rw [show (seq + 1) % 2 = 1 by omega] at hpeer
    rw [h] at hown ⊢
    rw [hown, hpeer]
  · rw [if_neg (by omega)]
    rw [show (seq + 1) % 2 = 0 by omega] at hpeer
    rw [h] at hown ⊢
    rw [hown, hpeer]

/-- A record with a higher sequence number than all others is the newest. -/
theorem newest_set_written {last lsn : ℕ} (h : UpTo p last) :
    (p.set (last + 1) (.written (last + 1) lsn)).newest = .ok (some (last + 1, lsn)) := by
  unfold PosFile.set
  split_ifs
  · cases hodd : p.odd with
    | written q l =>
      have hq := h q l (.inr hodd)
      rw [PosFile.newest, if_neg (by omega)]
    | _ => rfl
  · cases heven : p.even with
    | written q l =>
      have hq := h q l (.inl heven)
      rw [PosFile.newest, if_pos (by omega)]
    | _ => rfl

/-- The newest record stays the newest when the other slot is overwritten with nothing newer. -/
theorem newest_set_of_peer {q l : ℕ} (hpeer : peer p seq = .written q l)
    (hslot : ∀ q' l', slot = .written q' l' → q' < q) :
    (p.set seq slot).newest = .ok (some (q, l)) := by
  unfold PosFile.set
  unfold peer at hpeer
  split_ifs at hpeer ⊢
  · cases slot with
    | written q' l' =>
      have hq := hslot q' l' rfl
      rw [hpeer, PosFile.newest, if_pos (by omega)]
    | _ => rw [hpeer]; rfl
  · cases slot with
    | written q' l' =>
      have hq := hslot q' l' rfl
      rw [hpeer, PosFile.newest, if_neg (by omega)]
    | _ => rw [hpeer]; rfl

theorem UpTo.set {last : ℕ} (h : UpTo p last) (hslot : ∀ q l, slot = .written q l → q ≤ last) :
    UpTo (p.set seq slot) last := by
  intro q l
  unfold PosFile.set
  split_ifs
  · rintro (heven | hodd)
    · exact hslot q l heven
    · exact h q l (.inr hodd)
  · rintro (heven | hodd)
    · exact h q l (.inl heven)
    · exact hslot q l hodd

theorem upTo_of_newest {q l : ℕ} (h : p.newest = .ok (some (q, l))) : UpTo p q := by
  obtain ⟨even, odd⟩ := p
  intro q' l' hslot
  cases even with
  | written q₁ l₁ =>
    cases odd with
    | written q₂ l₂ =>
      simp only [PosFile.newest, Except.ok.injEq, Option.some.injEq] at h
      simp only [Slot.written.injEq] at hslot
      split_ifs at h <;> simp only [Prod.mk.injEq] at h <;> omega
    | _ => simp_all [PosFile.newest]
  | _ => cases odd <;> simp_all [PosFile.newest]

theorem upTo_zero_of_newest (h : p.newest = .ok none) : UpTo p 0 := by
  obtain ⟨even, odd⟩ := p
  intro q l hslot
  cases even <;> cases odd <;> simp_all [PosFile.newest]

end Slots

section Saves

variable (crc : List UInt8 → UInt32)

def positionOf (file : List UInt8) : ℕ :=
  match newest crc file with
  | .ok (some found) => found.2
  | _ => 0

/-- The newest record is in the slot that a save with the sequence number leaves alone. -/
def NewestInPeer (file : List UInt8) (seq : ℕ) : Prop :=
  (held (peer (slots crc file) seq)).isSome ∧
    newest crc file = .ok (held (peer (slots crc file) seq))

/-- The slot of the save has neither its old bytes nor the whole record. -/
def LeftTorn (file : List UInt8) (seq appliedLsn : ℕ) (got : List Bool) : Prop :=
  slotAt (written file seq (torn crc file seq appliedLsn got)) (seq % 2) ≠ slotAt file (seq % 2) ∧
    slotAt (written file seq (torn crc file seq appliedLsn got)) (seq % 2) ≠
      slotAt (written file seq (posEncode crc seq appliedLsn)) (seq % 2)

/-- No checksum agrees by accident: a slot that is left torn does not read as a record, unless as
one that stood there before and is older than the one in the other slot. -/
def TornUnreadable (file : List UInt8) (seq appliedLsn : ℕ) (got : List Bool) : Prop :=
  ∀ r ∈ held (posDecode crc
    (slotAt (written file seq (torn crc file seq appliedLsn got)) (seq % 2))),
    ∃ r' ∈ held (peer (slots crc file) seq), r.1 < r'.1

/-- A save is not below the position that is recorded, has a sequence number left, and does not
leave its slot torn unless the newest record is in the other one. -/
def Kept (s : State) : Op → Prop
  | .restart => True
  | .save appliedLsn outcome => ∀ last ∈ s.seq, last + 1 < 2 ^ 64 ∧
      positionOf crc s.file ≤ appliedLsn.toNat ∧
      ∀ got ∈ outcome.got,
        LeftTorn crc s.file (last + 1) appliedLsn.toNat got → NewestInPeer crc s.file (last + 1)

def NoCollision (s : State) : Op → Prop
  | .restart => True
  | .save appliedLsn outcome => ∀ last ∈ s.seq, ∀ got ∈ outcome.got,
      LeftTorn crc s.file (last + 1) appliedLsn.toNat got →
        TornUnreadable crc s.file (last + 1) appliedLsn.toNat got

structure Inv (s : State) : Prop where
  length : s.file.length = posSlot * 2
  upTo : ∀ last, s.seq = some last → UpTo (slots crc s.file) last
  survives : Survives crc s

end Saves

section Runs

variable {crc : List UInt8 → UInt32} {file : List UInt8} {s s' : State} {last lsn : ℕ}
  {got : List Bool}

theorem length_torn (hfile : file.length = posSlot * 2) (seq lsn : ℕ) (got : List Bool) :
    (torn crc file seq lsn got).length = posRecord := by
  have hseq : seq % 2 < 2 := Nat.mod_lt seq (by omega)
  rw [torn, length_partly, List.length_take, List.length_drop, hfile, posSlot, posRecord]
  omega

theorem newest_eq (hfile : file.length = posSlot * 2) : newest crc file = (slots crc file).newest :=
  if_neg (not_not_intro hfile)

theorem slots_save (hfile : file.length = posSlot * 2) {seq : ℕ} (hseq : seq < 2 ^ 64)
    (hlsn : lsn < 2 ^ 64) :
    slots crc (written file seq (posEncode crc seq lsn)) = (slots crc file).set seq
      (.written seq lsn) := by
  have hbytes : (posEncode crc seq lsn).length ≤ posSlot := by
    rw [length_posEncode, posRecord, posSlot]
    omega
  rw [slots_written hfile hbytes, posDecode_posEncode _ hseq hlsn]
  have hindex : seq % 2 < 2 := Nat.mod_lt seq (by omega)
  rw [List.length_drop, length_posEncode, slotAt, List.length_take, List.length_drop,
    hfile, posSlot]
  omega

theorem newest_save (hfile : file.length = posSlot * 2) (hupTo : UpTo (slots crc file) last)
    (hseq : last + 1 < 2 ^ 64) (hlsn : lsn < 2 ^ 64) :
    newest crc (written file (last + 1) (posEncode crc (last + 1) lsn)) = .ok
      (some (last + 1, lsn)) ∧
      UpTo (slots crc (written file (last + 1) (posEncode crc (last + 1) lsn))) (last + 1) := by
  have hbytes : (posEncode crc (last + 1) lsn).length ≤ posSlot := by
    rw [length_posEncode, posRecord, posSlot]
    omega
  rw [newest_eq (length_written hfile hbytes), slots_save hfile hseq hlsn]
  refine ⟨newest_set_written hupTo, UpTo.set (fun q l h => Nat.le_succ_of_le (hupTo q l h)) ?_⟩
  intro q l h
  cases h
  exact Nat.le_refl _

theorem slots_torn (hfile : file.length = posSlot * 2) {seq : ℕ} (hseq : seq < 2 ^ 64)
    (hlsn : lsn < 2 ^ 64) :
    slots crc (written file seq (torn crc file seq lsn got)) = slots crc file ∨
    slots crc (written file seq (torn crc file seq lsn got)) = (slots crc file).set seq
      (.written seq lsn) ∨
    LeftTorn crc file seq lsn got ∧ slots crc (written file seq (torn crc file seq lsn got)) =
      (slots crc file).set seq
        (posDecode crc (slotAt (written file seq (torn crc file seq lsn got)) (seq % 2))) := by
  have hbytes : (torn crc file seq lsn got).length ≤ posSlot := by
    rw [length_torn hfile, posRecord, posSlot]
    omega
  have hset := @slots_written crc _ _ seq hfile hbytes
  rw [← slotAt_written hfile hbytes] at hset
  by_cases hold : slotAt (written file seq (torn crc file seq lsn got)) (seq % 2) =
    slotAt file (seq % 2)
  · left
    rw [hset, hold]
    unfold slots PosFile.set
    rcases Nat.mod_two_eq_zero_or_one seq with h | h <;> rw [h] <;> rfl
  · by_cases hwhole : slotAt (written file seq (torn crc file seq lsn got)) (seq % 2) =
        slotAt (written file seq (posEncode crc seq lsn)) (seq % 2)
    · right; left
      have hrecord : (posEncode crc seq lsn).length ≤ posSlot := by
        rw [length_posEncode, posRecord, posSlot]
        omega
      rw [hset, hwhole, ← slots_save hfile hseq hlsn, slots_written hfile hrecord,
        slotAt_written hfile hrecord]
    · exact .inr (.inr ⟨⟨hold, hwhole⟩, hset⟩)

/-- A save that is cut off leaves what reading finds as it was or makes it the record of the save.
-/
theorem newest_torn (hfile : file.length = posSlot * 2) (hupTo : UpTo (slots crc file) last)
    (hseq : last + 1 < 2 ^ 64) (hlsn : lsn < 2 ^ 64)
    (hpeer : LeftTorn crc file (last + 1) lsn got → NewestInPeer crc file (last + 1))
    (hsum : LeftTorn crc file (last + 1) lsn got → TornUnreadable crc file (last + 1) lsn got) :
    (newest crc (written file (last + 1) (torn crc file (last + 1) lsn got)) = newest crc file ∨
      newest crc (written file (last + 1) (torn crc file (last + 1) lsn got)) = .ok
        (some (last + 1, lsn))) ∧
    UpTo (slots crc (written file (last + 1) (torn crc file (last + 1) lsn got))) (last + 1) := by
  have hgrown : UpTo (slots crc file) (last + 1) := fun q l h => Nat.le_succ_of_le (hupTo q l h)
  have hbytes : (torn crc file (last + 1) lsn got).length ≤ posSlot := by
    rw [length_torn hfile, posRecord, posSlot]
    omega
  rw [newest_eq (length_written hfile hbytes), newest_eq hfile]
  rcases @slots_torn crc _ _ got hfile _ hseq hlsn with hsame | hwhole | ⟨htorn, hset⟩
  · rw [hsame]
    exact ⟨.inl rfl, hgrown⟩
  · rw [hwhole]
    refine ⟨.inr (newest_set_written hupTo), UpTo.set hgrown ?_⟩
    intro q l h
    cases h
    exact Nat.le_refl _
  · obtain ⟨hsome, hheld⟩ := hpeer htorn
    obtain ⟨q, l, hslot⟩ : ∃ q l, peer (slots crc file) (last + 1) = .written q l := by
      cases hp : peer (slots crc file) (last + 1) with
      | written q l => exact ⟨q, l, rfl⟩
      | _ => simp [hp, held] at hsome
    rw [newest_eq hfile, hslot] at hheld
    have hq : q ≤ last := by
      unfold peer at hslot
      split_ifs at hslot
      · exact hupTo q l (.inr hslot)
      · exact hupTo q l (.inl hslot)
    have holder : ∀ q' l',
      posDecode crc (slotAt (written file (last + 1) (torn crc file (last + 1) lsn got))
        ((last + 1) % 2)) = .written q' l' → q' < q := by
      intro q' l' hread
      obtain ⟨r, hr, hlt⟩ := hsum htorn (q', l') (by rw [hread]; rfl)
      rw [hslot] at hr
      obtain rfl := Option.some.inj hr
      exact hlt
    rw [hset, hheld]
    refine ⟨.inl (newest_set_of_peer hslot holder), UpTo.set hgrown ?_⟩
    intro q' l' hread
    have hq' := holder q' l' hread
    omega

theorem upTo_opened (hfile : file.length = posSlot * 2) (h : opened crc file = some last) :
    UpTo (slots crc file) last := by
  unfold opened at h
  rw [newest_eq hfile] at h
  split at h
  · next found hfound =>
    cases found with
    | none =>
      obtain rfl : 0 = last := Option.some.inj h
      exact upTo_zero_of_newest hfound
    | some r =>
      obtain rfl : r.1 = last := Option.some.inj h
      exact upTo_of_newest hfound
  · cases h

theorem inv_fresh : Inv crc fresh := by
  have hslots : slots crc fresh.file = ⟨.empty, .empty⟩ := by
    have hempty : ∀ i < 2, posDecode crc (slotAt fresh.file i) = .empty := by
      intro i hi
      have hzeros : slotAt fresh.file i = List.replicate posSlot 0 := by
        rw [slotAt, fresh, List.drop_replicate, List.take_replicate, posSlot]
        congr 1
        omega
      rw [hzeros, posDecode, List.length_replicate, List.all_replicate]
      rfl
    rw [slots, hempty 0 (by omega), hempty 1 (by omega)]
  have hlength : fresh.file.length = posSlot * 2 := List.length_replicate
  refine ⟨hlength, ?_, none, ?_, ?_⟩
  · intro last _ q l h
    rw [hslots] at h
    rcases h with h | h <;> cases h
  · rw [newest_eq hlength, hslots]
    rfl
  · intro lsn h
    cases h

/-- The file after a save that did not report success reads no lower than before. -/
theorem survives_torn (h : Inv crc s) {file : List UInt8} (hlsn : positionOf crc s.file ≤ lsn)
    (hfile : newest crc file = newest crc s.file ∨ newest crc file = .ok (some (last, lsn)))
    {seq : Option ℕ} : Survives crc ⟨file, seq, s.lastOk⟩ := by
  obtain ⟨found, hfound, hok⟩ := h.survives
  rcases hfile with hsame | hnew
  · exact ⟨found, hsame.trans hfound, hok⟩
  · refine ⟨some (last, lsn), hnew, fun l hl => ?_⟩
    obtain ⟨q, l', rfl, hle⟩ := hok l hl
    rw [positionOf, hfound] at hlsn
    exact ⟨last, lsn, rfl, Nat.le_trans hle hlsn⟩

theorem Inv.step {op : Op} (h : Inv crc s) (hkept : Kept crc s op) (hsum : NoCollision crc s op)
    (hstep : step crc s op = some s') : Inv crc s' := by
  cases op with
  | restart =>
    obtain rfl := Option.some.inj hstep
    exact ⟨h.length, fun last hlast => upTo_opened h.length hlast, h.survives⟩
  | save lsn outcome =>
    obtain ⟨last, hseq, rfl⟩ := Option.map_eq_some_iff.mp hstep
    obtain ⟨hbound, hposition, hpeer⟩ := hkept last hseq
    have hsums := hsum last hseq
    have hupTo := h.upTo last hseq
    have hbytes : ∀ got, (torn crc s.file (last + 1) lsn.toNat got).length ≤ posSlot := by
      intro got
      rw [length_torn h.length, posRecord, posSlot]
      omega
    cases outcome with
    | done =>
      obtain ⟨hnewest, hgrown⟩ := newest_save h.length hupTo hbound lsn.toNat_lt
      have hrecord : (posEncode crc (last + 1) lsn.toNat).length ≤ posSlot := by
        rw [length_posEncode, posRecord, posSlot]
        omega
      refine ⟨length_written h.length hrecord, ?_, _, hnewest, ?_⟩
      · intro q hq
        rw [← Option.some.inj hq]
        exact hgrown
      · intro l hl
        exact ⟨_, _, rfl, (Option.some.inj hl).ge⟩
    | failed got =>
      obtain ⟨hnewest, hgrown⟩ := newest_torn h.length hupTo hbound lsn.toNat_lt (hpeer got rfl)
        (hsums got rfl)
      refine ⟨length_written h.length (hbytes got), ?_, survives_torn h hposition hnewest⟩
      intro q hq
      rw [← Option.some.inj hq]
      exact hgrown
    | crashed got =>
      obtain ⟨hnewest, -⟩ := newest_torn h.length hupTo hbound lsn.toNat_lt (hpeer got rfl)
        (hsums got rfl)
      have hlength := @length_written _ _ (last + 1) h.length (hbytes got)
      exact ⟨hlength, fun q hq => upTo_opened hlength hq, survives_torn h hposition hnewest⟩

/-- A save makes its position the one that reading finds, or it failed and what reading finds is as
before. -/
theorem positionOf_save {lsn : UInt64} {outcome : Outcome} (h : Inv crc s)
    (hkept : Kept crc s (.save lsn outcome))
    (hsum : NoCollision crc s (.save lsn outcome))
    (hstep : step crc s (.save lsn outcome) = some s') :
    positionOf crc s'.file = lsn.toNat ∨ outcome ≠ .done ∧
      positionOf crc s'.file = positionOf crc s.file := by
  obtain ⟨last, hseq, rfl⟩ := Option.map_eq_some_iff.mp hstep
  obtain ⟨hbound, -, hpeer⟩ := hkept last hseq
  have hupTo := h.upTo last hseq
  have hcut : ∀ got ∈ outcome.got, ∀ file,
    file = written s.file (last + 1) (torn crc s.file (last + 1) lsn.toNat got) →
      positionOf crc file = lsn.toNat ∨ positionOf crc file = positionOf crc s.file := by
    rintro got hgot _ rfl
    obtain ⟨hsame | hnew, -⟩ :=
      newest_torn h.length hupTo hbound lsn.toNat_lt (hpeer got hgot) (hsum last hseq got hgot)
    · right
      rw [positionOf, positionOf, hsame]
    · left
      rw [positionOf, hnew]
  cases outcome with
  | done =>
    left
    rw [positionOf, (newest_save h.length hupTo hbound lsn.toNat_lt).1]
  | failed got => exact (hcut got rfl _ rfl).imp_right fun hsame => ⟨nofun, hsame⟩
  | crashed got => exact (hcut got rfl _ rfl).imp_right fun hsame => ⟨nofun, hsame⟩

end Runs

section Safety

variable {crc : List UInt8 → UInt32} {s : State} {ops : List Op}

instance (file : List UInt8) (seq lsn : ℕ) (got : List Bool) : Decidable
    (LeftTorn crc file seq lsn got) :=
  inferInstanceAs (Decidable (_ ∧ _))

instance (file : List UInt8) (seq : ℕ) : Decidable (NewestInPeer crc file seq) :=
  inferInstanceAs (Decidable (_ ∧ _))

instance (file : List UInt8) (seq lsn : ℕ) (got : List Bool) : Decidable
    (TornUnreadable crc file seq lsn got) :=
  inferInstanceAs (Decidable (∀ r ∈ held _, ∃ r' ∈ held _, r.1 < r'.1))

instance (s : State) : ∀ op, Decidable (Kept crc s op)
  | .restart => isTrue trivial
  | .save _ outcome => inferInstanceAs
      (Decidable (∀ last ∈ s.seq, _ ∧ _ ∧ ∀ got ∈ outcome.got, _ → _))

instance (s : State) : ∀ op, Decidable (NoCollision crc s op)
  | .restart => isTrue trivial
  | .save _ outcome => inferInstanceAs (Decidable (∀ last ∈ s.seq, ∀ got ∈ outcome.got, _ → _))

/-- In a run in which no save leaves its slot torn unless the newest record is in the other one,
reading the file gives a position that is not below the last save that reported success. -/
theorem run_survives (hrun : run (step crc) fresh ops = some s)
    (hkept : Meets (step crc) (Kept crc) fresh ops)
    (hsum : Meets (step crc) (NoCollision crc) fresh ops) : Survives crc s := by
  have hstep : ∀ s op s', Inv crc s → Kept crc s op ∧ NoCollision crc s op →
    step crc s op = some s' → Inv crc s' :=
    fun _ _ _ h hok hs => h.step hok.1 hok.2 hs
  exact (run_invariant_of_meets hstep hrun (meets_and hkept hsum) inv_fresh).survives

def crc32 (bytes : List UInt8) : UInt32 :=
  let shifted (c : ℕ) : ℕ := if c % 2 = 1 then (c / 2) ^^^ 0xEDB88320 else c / 2
  UInt32.ofNat (bytes.foldl (fun c b => shifted^[8] (c ^^^ b.toNat)) 0xFFFFFFFF ^^^ 0xFFFFFFFF)

example : crc32 [0x31, 0x32, 0x33, 0x34, 0x35, 0x36, 0x37, 0x38, 0x39] = 0xCBF43926 := by
  decide +kernel

def half : List Bool := List.replicate 12 true

/-- A save that is torn beside the newest record, and a crash. -/
theorem run_survives_crash :
    ∃ s, run (step crc32) fresh [.save 10 .done, .save 20 .done, .save 30 (.failed half),
      .save 30 (.crashed []),
        .save 30 (.crashed half), .restart] = some s ∧ Survives crc32 s := by
  obtain ⟨s, hs⟩ : ∃ s, run (step crc32) fresh [.save 10 .done, .save 20 .done,
    .save 30 (.failed half),
      .save 30 (.crashed []), .save 30 (.crashed half), .restart] = some s :=
    Option.isSome_iff_exists.mp (by decide +kernel)
  exact ⟨s, hs, run_survives hs (by decide +kernel) (by decide +kernel)⟩

/-- Two torn saves one after the other leave no readable slot. A save that wrote nothing and then a
torn one leave the record that the last two saves had replaced. The first save that is torn leaves
no readable slot. -/
theorem torn_saves_lose :
    (run (step crc32) fresh [.save 10 .done, .save 20 .done, .save 30 (.failed half),
      .save 30 (.failed half)]).map
        (fun s => (newest crc32 s.file, s.lastOk)) = some (.error .unreadablePosition, some 20) ∧
      (run (step crc32) fresh [.save 10 .done, .save 20 .done, .save 30 (.failed []),
        .save 30 (.failed half)]).map
        (fun s => (newest crc32 s.file, s.lastOk)) = some (.ok (some (1, 10)), some 20) ∧
      (run (step crc32) fresh [.save 10 (.crashed half)]).map (fun s => newest crc32 s.file) =
        some (.error .unreadablePosition) := by
  decide +kernel

end Safety

end DewDB.PositionSlots
