import DewDB.CatalogMerge
import DewDB.PercentCoding
import DewDB.RouteTable

/-!
# The path of a forwarded document

A router writes the collection and the key of a document into a path, the HTTP client parses the
URL, and the shard routes the path and decodes its parameters. The key comes back as it was, unless
the path means something else on the way: the dots are a step in the hierarchy for the client, and
one word is a route of its own.
-/
namespace DewDB.ForwardPaths

open PercentCoding Routing RouteTable
open CatalogMerge (validCollectionName)
open Utf8Order (toList_eq_asciiChars)

section Model

def unreserved (b : UInt8) : Bool :=
  (0x41 ≤ b && b ≤ 0x5A) || (0x61 ≤ b && b ≤ 0x7A) || (0x30 ≤ b && b ≤ 0x39) ||
    b == 0x2D || b == 0x2E || b == 0x5F || b == 0x7E

def encodePathSegment (segment : String) : List Char := escape unreserved segment.toUTF8.data.toList

structure WriteConcernParams where
  w : Option (List Char)
  wtimeout : Option ℕ

def wcQueryString (p : WriteConcernParams) : List Char :=
  let parts := (p.w.map ("w=".toList ++ ·)).toList ++ (p.wtimeout.map fun t =>
    "wtimeout=".toList ++ t.toDigits 10).toList
  if parts.isEmpty then [] else '?' :: ['&'].intercalate parts

inductive ForwardMethod where
  | put
  | patch
  | delete

def ForwardMethod.method : ForwardMethod → Method
  | .put => .put
  | .patch => .patch
  | .delete => .delete

def ForwardMethod.handler : ForwardMethod → Handler
  | .put => .putDoc
  | .patch => .updateDoc
  | .delete => .deleteDoc

def documentPath (colName key : String) : List Char :=
  "/collections/".toList ++ encodePathSegment colName ++ "/docs/".toList ++ encodePathSegment key

def forwardPath (colName key : String) (wc : WriteConcernParams) : List Char :=
  documentPath colName key ++ wcQueryString wc

end Model

section Client

def dots : List (List Char) := [['.'], ['%', '2', 'e'], ['%', '2', 'E']]

def isSingleDot (segment : List Char) : Bool := dots.contains segment

def isDoubleDot (segment : List Char) : Bool := dots.any fun a => dots.any fun b =>
  segment == a ++ b

def inPathSet (c : Char) : Bool :=
  c.toNat ≤ 0x20 || 0x7E < c.toNat || [0x22, 0x23, 0x3C, 0x3E, 0x3F, 0x5E, 0x60, 0x7B,
    0x7D].contains c.toNat

def parsedSegment (segment : List Char) : List Char :=
  segment.flatMap fun c => if inPathSet c then escape (fun _ => false)
    (String.utf8EncodeChar c) else [c]

/-- One segment after the other; the last one leaves an empty segment in place of dots. -/
def parsePath : List (List Char) → List (List Char) → List (List Char)
  | done, [] => done
  | done, [last] =>
    if isDoubleDot last then done.dropLast ++ [[]]
    else if isSingleDot last then done ++ [[]]
    else done ++ [parsedSegment last]
  | done, segment :: rest =>
    if isDoubleDot segment then parsePath done.dropLast rest
    else if isSingleDot segment then parsePath done rest
    else parsePath (done ++ [parsedSegment segment]) rest

/-- The path that the client sends for a URL that goes on with this text behind the host. -/
def requestPath (text : List Char) : List Char :=
  -- tabs and line breaks are dropped wherever they stand
  let text := text.filter fun c => !([0x9, 0xA, 0xD].contains c.toNat)
  let path := text.takeWhile fun c => c.toNat ≠ 0x3F && c.toNat ≠ 0x23
  let segments := (path.drop 1).splitOnP fun c => c.toNat = 0x2F || c.toNat = 0x5C
  '/' :: ['/'].intercalate (parsePath [] segments)

end Client

section Shard

def decodeParam (value : List Char) : Option String := String.fromUTF8? ⟨(unescape value).toArray⟩

/-- The handler a request reaches on a shard, with its parameters decoded. -/
def arrives (method : Method) (path : List Char) : Option (Handler × List String) :=
  ((buildApp true).reaches path method).bind fun found =>
    (found.2.mapM decodeParam).map fun values => (found.1, values)

end Shard

section Segments

variable {segment : String} {c : Char}

theorem unreserved_iff (b : UInt8) : unreserved b = true ↔
    (0x41 ≤ b.toNat ∧ b.toNat ≤ 0x5A) ∨ (0x61 ≤ b.toNat ∧ b.toNat ≤ 0x7A) ∨
      (0x30 ≤ b.toNat ∧ b.toNat ≤ 0x39) ∨
      b.toNat = 0x2D ∨ b.toNat = 0x2E ∨ b.toNat = 0x5F ∨ b.toNat = 0x7E := by
  simp only [unreserved, Bool.or_eq_true, Bool.and_eq_true, decide_eq_true_eq, beq_iff_eq,
    UInt8.le_iff_toNat_le, ← UInt8.toNat_inj, or_assoc]
  rfl

theorem plain_unreserved : Plain unreserved := by
  intro b hb
  constructor
  · have := (unreserved_iff b).mp hb
    omega
  · rintro rfl
    exact absurd hb (by decide)

def SegmentChar (c : Char) : Prop :=
  (0x41 ≤ c.toNat ∧ c.toNat ≤ 0x5A) ∨ (0x61 ≤ c.toNat ∧ c.toNat ≤ 0x7A) ∨
    (0x30 ≤ c.toNat ∧ c.toNat ≤ 0x39) ∨
    c.toNat = 0x25 ∨ c.toNat = 0x2D ∨ c.toNat = 0x2E ∨ c.toNat = 0x5F ∨ c.toNat = 0x7E

instance : DecidablePred SegmentChar := fun c => inferInstanceAs (Decidable (
  (0x41 ≤ c.toNat ∧ c.toNat ≤ 0x5A) ∨ (0x61 ≤ c.toNat ∧ c.toNat ≤ 0x7A) ∨
    (0x30 ≤ c.toNat ∧ c.toNat ≤ 0x39) ∨
    c.toNat = 0x25 ∨ c.toNat = 0x2D ∨ c.toNat = 0x2E ∨ c.toNat = 0x5F ∨ c.toNat = 0x7E))

theorem segmentChar_of_mem (hc : c ∈ encodePathSegment segment) : SegmentChar c := by
  rcases mem_escape hc with ⟨b, hb, rfl⟩ | rfl | ⟨n, hn, rfl⟩
  · have hlt := (plain_unreserved b hb).1
    have hb := (unreserved_iff b).mp hb
    rw [SegmentChar, toNat_ofNat_byte hlt]
    omega
  · decide
  · have hdigits : ∀ n < 16, SegmentChar (hexDigit n) := by decide
    exact hdigits n hn

theorem parsedSegment_of_chars {text : List Char} (htext : ∀ c ∈ text, SegmentChar c) :
    parsedSegment text = text := by
  induction text with
  | nil => rfl
  | cons c text ih =>
    have hc := htext c List.mem_cons_self
    have hset : inPathSet c = false := by
      simp only [inPathSet, Bool.or_eq_false_iff, decide_eq_false_iff_not, List.contains_eq_mem,
        List.mem_cons, List.not_mem_nil, or_false]
      unfold SegmentChar at hc
      omega
    have htail := ih fun d hd => htext d (List.mem_cons_of_mem _ hd)
    rw [parsedSegment] at htail ⊢
    rw [List.flatMap_cons, htail, hset]
    rfl

def joined (segs : List (List Char)) : List Char := segs.flatMap fun s => '/' :: s

variable {segs : List (List Char)}

theorem mem_joined (hsegs : ∀ s ∈ segs, ∀ c ∈ s, SegmentChar c) (hc : c ∈ joined segs) :
    c.toNat = 0x2F ∨ SegmentChar c := by
  obtain ⟨s, hs, hc⟩ := List.mem_flatMap.mp hc
  rcases List.mem_cons.mp hc with rfl | hc
  · exact .inl rfl
  · exact .inr (hsegs s hs c hc)

theorem filter_joined (hsegs : ∀ s ∈ segs, ∀ c ∈ s, SegmentChar c) :
    (joined segs).filter (fun c => !([0x9, 0xA, 0xD].contains c.toNat)) = joined segs := by
  apply List.filter_eq_self.mpr
  intro c hc
  have hchar := mem_joined hsegs hc
  unfold SegmentChar at hchar
  simp only [Bool.not_eq_true', List.contains_eq_mem, decide_eq_false_iff_not, List.mem_cons,
    List.not_mem_nil, or_false]
  omega

theorem filter_wcQueryString (wc : WriteConcernParams) (keep : Char → Bool)
    (hkeep : keep '?' = true) :
    (wcQueryString wc).filter keep = [] ∨ ∃ query,
      (wcQueryString wc).filter keep = '?' :: query := by
  simp only [wcQueryString]
  split_ifs
  · exact .inl rfl
  · exact .inr ⟨_, List.filter_cons_of_pos hkeep⟩

theorem takeWhile_joined (hsegs : ∀ s ∈ segs, ∀ c ∈ s, SegmentChar c) {query : List Char}
    (hquery : query = [] ∨ ∃ rest, query = '?' :: rest) :
    (joined segs ++ query).takeWhile (fun c => c.toNat ≠ 0x3F && c.toNat ≠ 0x23) = joined segs := by
  have hall : ∀ c ∈ joined segs, (c.toNat ≠ 0x3F && c.toNat ≠ 0x23) = true := by
    intro c hc
    have hchar := mem_joined hsegs hc
    unfold SegmentChar at hchar
    simp only [ne_eq, Bool.and_eq_true, decide_eq_true_eq]
    omega
  rw [List.takeWhile_append_of_pos hall]
  rcases hquery with rfl | ⟨rest, rfl⟩
  · simp
  · simp

theorem splitOnP_joined (hsegs : ∀ s ∈ segs, ∀ c ∈ s, SegmentChar c) (hne : segs ≠ []) :
    ((joined segs).drop 1).splitOnP (fun c => c.toNat = 0x2F || c.toNat = 0x5C) = segs := by
  induction segs with
  | nil => exact absurd rfl hne
  | cons s segs ih =>
    have hs : ∀ c ∈ s, (c.toNat = 0x2F || c.toNat = 0x5C) = false := by
      intro c hc
      have hchar := hsegs s List.mem_cons_self c hc
      unfold SegmentChar at hchar
      simp only [Bool.or_eq_false_iff, decide_eq_false_iff_not]
      omega
    have hdrop : (joined (s :: segs)).drop 1 = s ++ joined segs := rfl
    rw [hdrop]
    cases segs with
    | nil =>
      rw [joined, List.flatMap_nil, List.append_nil]
      exact List.splitOnP_eq_singleton hs
    | cons t segs =>
      have hjoined : joined (t :: segs) = '/' :: (joined (t :: segs)).drop 1 := rfl
      rw [hjoined, List.splitOnP_append_cons_of_forall_mem hs '/' (by decide)]
      rw [ih (fun u hu => hsegs u (List.mem_cons_of_mem _ hu)) (List.cons_ne_nil t segs)]

theorem requestPath_joined (hsegs : ∀ s ∈ segs, ∀ c ∈ s, SegmentChar c) (hne : segs ≠ [])
    (wc : WriteConcernParams) : requestPath (joined segs ++ wcQueryString wc) =
      '/' :: ['/'].intercalate (parsePath [] segs) := by
  simp only [requestPath, List.filter_append, filter_joined hsegs]
  rw [takeWhile_joined hsegs (filter_wcQueryString wc _ (by decide)), splitOnP_joined hsegs hne]

end Segments

section Dots

variable {segment : String}

theorem encode_inj {a b : String} : encodePathSegment a = encodePathSegment b ↔ a = b := by
  rw [encodePathSegment, encodePathSegment, (escape_injective plain_unreserved).eq_iff, utf8_inj]

theorem unescape_encode (segment : String) : unescape
    (encodePathSegment segment) = segment.toUTF8.data.toList :=
  unescape_escape plain_unreserved _

theorem decodeParam_encode (segment : String) : decodeParam
    (encodePathSegment segment) = some segment := by
  rw [decodeParam, unescape_encode]
  exact dif_pos segment.isValidUTF8

theorem isSingleDot_encode : isSingleDot (encodePathSegment segment) = true ↔ segment = "." := by
  constructor
  · intro h
    have hdots : ∀ e ∈ dots, unescape e = ".".toUTF8.data.toList := by decide
    have hbytes := hdots _ (List.contains_iff_mem.mp h)
    rw [unescape_encode] at hbytes
    exact utf8_inj.mp hbytes
  · rintro rfl
    decide

theorem isDoubleDot_encode : isDoubleDot (encodePathSegment segment) = true ↔ segment = ".." := by
  constructor
  · intro h
    have hdots : ∀ a ∈ dots, ∀ b ∈ dots, unescape (a ++ b) = "..".toUTF8.data.toList := by decide
    obtain ⟨a, ha, h⟩ := List.any_eq_true.mp h
    obtain ⟨b, hb, h⟩ := List.any_eq_true.mp h
    have hbytes := hdots a ha b hb
    rw [← beq_iff_eq.mp h, unescape_encode] at hbytes
    exact utf8_inj.mp hbytes
  · rintro rfl
    decide

theorem encode_ne_nil (hne : segment ≠ "") : (encodePathSegment segment).isEmpty = false := by
  have hempty : encodePathSegment "" = [] := rfl
  rw [List.isEmpty_eq_false_iff, ← hempty]
  exact fun heq => hne (encode_inj.mp heq)

end Dots

section Routes

variable {colName key : List Char}

theorem dispatch_nil {α ρ : Type*} [DecidableEq α] (blank : α → Bool) (segs : List α) :
    dispatch blank ([] : List (Pattern α × ρ)) segs = none := by
  induction segs with
  | nil => rfl
  | cons s segs ih =>
    rw [dispatch, afterLit, afterParam, List.filterMap_nil, List.filterMap_nil, ih]
    simp

/-- What there is under `/collections/:name`. -/
def collectionRoutes : Table := [
  ([], delete .dropCollection),
  ([.lit "compact".toList], post .compactCollection),
  ([.lit "indexes".toList], get .listIndexes ++ post .createIndex),
  ([.lit "indexes".toList, .param], delete .dropIndex),
  ([.lit "ttl".toList], get .getTtl ++ put .setTtl ++ delete .deleteTtl),
  ([.lit "snapshot".toList], post .snapshotCollection),
  ([.lit "docs".toList], post .createDoc ++ get .listDocs),
  ([.lit "docs".toList, .lit "bulk".toList], post .bulkCreateDocs),
  ([.lit "query".toList], get .queryDocs),
  ([.lit "aggregate".toList], get .aggregateDocs),
  ([.lit "changes".toList], get .streamChanges),
  ([.lit "changes".toList, .lit "ws".toList], get .wsChanges),
  ([.lit "webhooks".toList], get .listWebhooks ++ post .createWebhook),
  ([.lit "webhooks".toList, .param], get .getWebhook ++ delete .deleteWebhook),
  ([.lit "docs".toList, .param], get .getDoc ++ put .putDoc ++ patch .updateDoc ++
    delete .deleteDoc)]

theorem dispatch_collection (hcol : colName.isEmpty = false) (segs : List (List Char)) :
    dispatch List.isEmpty (buildApp true) ("collections".toList :: colName :: segs) =
      (dispatch List.isEmpty collectionRoutes segs).map fun found =>
        (found.1, colName :: found.2) := by
  have hcollections : afterLit (buildApp true) "collections".toList =
      ([], get .listCollections) :: collectionRoutes.map fun e => (.param :: e.1, e.2) := by
    simp only [buildApp, publicRoutes, clusterRoutes, shardRoutes, route_eq_ascii,
      collectionRoutes, toList_eq_asciiChars]
    decide
  have hother : afterParam (buildApp true) = [] := by
    simp only [buildApp, publicRoutes, clusterRoutes, shardRoutes, route_eq_ascii]
    decide
  have hwords : afterLit (([], get .listCollections) ::
      collectionRoutes.map fun e => (.param :: e.1, e.2)) colName = [] := rfl
  have hparam : afterParam (([], get .listCollections) ::
      collectionRoutes.map fun e => (.param :: e.1, e.2)) = collectionRoutes := rfl
  rw [dispatch, dispatch, hcollections, hwords, hparam, hother, dispatch_nil, dispatch_nil]
  simp [hcol]

def docRouter : MethodRouter := get .getDoc ++ put .putDoc ++ patch .updateDoc ++ delete .deleteDoc

theorem dispatch_docs (key : List Char) : dispatch List.isEmpty collectionRoutes
    ["docs".toList, key] =
    if "bulk".toList = key then some (post .bulkCreateDocs, [])
    else if key.isEmpty then none else some (docRouter, [key]) := by
  have hdocs : afterLit collectionRoutes "docs".toList = [([], post .createDoc ++ get .listDocs),
      ([.lit "bulk".toList], post .bulkCreateDocs), ([.param], docRouter)] := by decide
  have hparam : afterParam collectionRoutes = [] := by decide
  rw [dispatch, hdocs, hparam, dispatch_nil]
  by_cases hbulk : "bulk".toList = key
  · subst hbulk
    decide
  · have hword : afterLit [([], post .createDoc ++ get .listDocs),
      ([.lit "bulk".toList], post .bulkCreateDocs),
        ([.param], docRouter)] key = ([] : Table) := by
      simp only [afterLit, List.filterMap_cons, List.filterMap_nil, hbulk, if_false]
    rw [dispatch, hword, dispatch_nil, if_neg hbulk]
    by_cases hempty : key.isEmpty = true
    · simp [hempty]
    · simp [hempty, afterParam, dispatch]

theorem segments_join {segs : List (List Char)} (hslash : ∀ s ∈ segs, '/' ∉ s) (hne : segs ≠ []) :
    segments ('/' :: ['/'].intercalate segs) = some segs := by
  rw [segments, List.splitOn_intercalate '/' hslash hne]

end Routes

section Survival

variable {colName key : String}

theorem slash_not_mem {segment : String} : '/' ∉ encodePathSegment segment := by
  intro h
  exact absurd (segmentChar_of_mem h) (by decide)

theorem documentPath_eq (colName key : String) : documentPath colName key =
    joined ["collections".toList, encodePathSegment colName, "docs".toList,
      encodePathSegment key] := by
  have hcollections : "/collections/".toList = '/' :: ("collections".toList ++ ['/']) := by decide
  have hdocs : "/docs/".toList = '/' :: ("docs".toList ++ ['/']) := by decide
  unfold documentPath joined
  generalize encodePathSegment colName = col
  generalize encodePathSegment key = doc
  rw [hcollections, hdocs]
  generalize "collections".toList = collections
  generalize "docs".toList = docs
  simp

theorem segmentChar_of_documentPath :
    ∀ s ∈ ["collections".toList, encodePathSegment colName, "docs".toList, encodePathSegment key],
      ∀ c ∈ s, SegmentChar c := by
  have hcollections : ("collections".toList.all fun c => decide (SegmentChar c)) = true := by decide
  have hdocs : ("docs".toList.all fun c => decide (SegmentChar c)) = true := by decide
  rw [List.all_eq_true] at hcollections hdocs
  intro s hs
  simp only [List.mem_cons, List.not_mem_nil, or_false] at hs
  rcases hs with rfl | rfl | rfl | rfl
  · exact fun c hc => of_decide_eq_true (hcollections c hc)
  · exact fun c => segmentChar_of_mem
  · exact fun c hc => of_decide_eq_true (hdocs c hc)
  · exact fun c => segmentChar_of_mem

def sentSegments (colName key : String) : List (List Char) :=
  if key = ".." then ["collections".toList, encodePathSegment colName, []]
  else if key = "." then ["collections".toList, encodePathSegment colName, "docs".toList, []]
  else ["collections".toList, encodePathSegment colName, "docs".toList, encodePathSegment key]

theorem requestPath_forwardPath (wc : WriteConcernParams) (hdot : colName ≠ ".")
    (hdots : colName ≠ "..") :
    requestPath (forwardPath colName key wc) = '/' :: ['/'].intercalate
      (sentSegments colName key) := by
  rw [forwardPath, documentPath_eq, requestPath_joined segmentChar_of_documentPath
    (List.cons_ne_nil _ _)]
  have hcollections : parsedSegment "collections".toList = "collections".toList := by decide
  have hdocs : parsedSegment "docs".toList = "docs".toList := by decide
  have hcol : parsedSegment (encodePathSegment colName) = encodePathSegment colName :=
    parsedSegment_of_chars fun _ => segmentChar_of_mem
  have hkey : parsedSegment (encodePathSegment key) = encodePathSegment key :=
    parsedSegment_of_chars fun _ => segmentChar_of_mem
  have hplain : isDoubleDot "collections".toList = false ∧
    isSingleDot "collections".toList = false ∧
      isDoubleDot "docs".toList = false ∧ isSingleDot "docs".toList = false := by decide
  obtain ⟨hcd, hcs, hdd, hds⟩ := hplain
  have hcolDots : isDoubleDot (encodePathSegment colName) = false := by
    rw [← Bool.not_eq_true, isDoubleDot_encode]
    exact hdots
  have hcolDot : isSingleDot (encodePathSegment colName) = false := by
    rw [← Bool.not_eq_true, isSingleDot_encode]
    exact hdot
  simp only [parsePath, hcd, hcs, hdd, hds, hcolDots, hcolDot, hcollections, hdocs, hcol, hkey,
    isDoubleDot_encode, isSingleDot_encode, Bool.false_eq_true, if_false]
  unfold sentSegments
  split_ifs <;> rfl

theorem slash_not_mem_sent {s : List Char} (hs : s ∈ sentSegments colName key) : '/' ∉ s := by
  have hcollections : '/' ∉ "collections".toList := by decide
  have hdocs : '/' ∉ "docs".toList := by decide
  unfold sentSegments at hs
  split_ifs at hs
  all_goals
    simp only [List.mem_cons, List.not_mem_nil, or_false] at hs
    rcases hs with rfl | rfl | rfl | rfl <;>
      first | assumption | exact slash_not_mem | exact List.not_mem_nil

theorem dispatch_sent (hcol : colName ≠ "") (hkey : key ≠ "") :
    dispatch List.isEmpty (buildApp true) (sentSegments colName key) =
      if key = ".." ∨ key = "." then none
      else if key = "bulk" then some (post .bulkCreateDocs, [encodePathSegment colName])
      else some (docRouter, [encodePathSegment colName, encodePathSegment key]) := by
  have hbulk : "bulk".toList = encodePathSegment key ↔ key = "bulk" := by
    have hword : "bulk".toList = encodePathSegment "bulk" := by decide
    rw [hword, encode_inj, eq_comm]
  have hblank : dispatch List.isEmpty collectionRoutes [[]] = none := by decide
  unfold sentSegments
  by_cases hparent : key = ".."
  · rw [if_pos hparent, if_pos (.inl hparent), dispatch_collection (encode_ne_nil hcol), hblank]
    rfl
  · by_cases hself : key = "."
    · rw [if_neg hparent, if_pos hself, if_pos (.inr hself),
        dispatch_collection (encode_ne_nil hcol), dispatch_docs]
      rfl
    · have hplain : ¬(key = ".." ∨ key = ".") := not_or.mpr ⟨hparent, hself⟩
      rw [if_neg hparent, if_neg hself, if_neg hplain, dispatch_collection (encode_ne_nil hcol),
        dispatch_docs]
      by_cases hword : key = "bulk"
      · rw [if_pos (hbulk.mpr hword), if_pos hword]
        rfl
      · rw [if_neg (fun h => hword (hbulk.mp h)), if_neg hword,
          if_neg (by simp [encode_ne_nil hkey])]
        rfl

theorem arrives_forwardPath (hdot : colName ≠ ".") (hdots : colName ≠ "..") (hcol : colName ≠ "")
    (hkey : key ≠ "") (method : Method) (wc : WriteConcernParams) :
    arrives method (requestPath (forwardPath colName key wc)) =
      if key = ".." ∨ key = "." then none
      else if key = "bulk" then ((post .bulkCreateDocs).handler method).map fun h => (h, [colName])
      else (docRouter.handler method).map fun h => (h, [colName, key]) := by
  have hne : sentSegments colName key ≠ [] := by
    unfold sentSegments
    split_ifs <;> exact List.cons_ne_nil _ _
  rw [arrives, Table.reaches, requestPath_forwardPath wc hdot hdots,
    segments_join (fun s => slash_not_mem_sent) hne, Option.bind_some, dispatch_sent hcol hkey]
  split_ifs
  · rfl
  · rw [Option.bind_some]
    cases hhandler : (post .bulkCreateDocs).handler method with
    | none => rfl
    | some h => simp [decodeParam_encode]
  · rw [Option.bind_some]
    cases hhandler : docRouter.handler method with
    | none => rfl
    | some h => simp [decodeParam_encode]

/-- The document of a collection is reached under its key, and no other document has its path. -/
structure Survives (colName key : String) : Prop where
  reaches : ∀ (m : ForwardMethod) (wc : WriteConcernParams),
    arrives m.method (requestPath (forwardPath colName key wc)) = some (m.handler, [colName, key])
  apart : ∀ colName' key', documentPath colName' key' = documentPath colName key →
    colName' = colName ∧ key' = key

theorem documentPath_inj {colName' key' : String}
    (h : documentPath colName' key' = documentPath colName key) :
    colName' = colName ∧ key' = key := by
  rw [documentPath_eq, documentPath_eq] at h
  have hsegs := congrArg (fun path => (path.drop 1).splitOnP fun c =>
    c.toNat = 0x2F || c.toNat = 0x5C) h
  rw [splitOnP_joined segmentChar_of_documentPath (List.cons_ne_nil _ _),
    splitOnP_joined segmentChar_of_documentPath (List.cons_ne_nil _ _)] at hsegs
  simp only [List.cons.injEq, encode_inj, true_and, and_true] at hsegs
  exact hsegs

theorem plain_of_valid (hvalid : validCollectionName colName.toList = true) :
    colName ≠ "" ∧ colName ≠ "." ∧ colName ≠ ".." := by
  refine ⟨?_, ?_, ?_⟩
  all_goals
    rintro rfl
    exact absurd hvalid (by decide)

/-- A key survives forwarding just if it is no dot segment and no word of the route table. -/
theorem survives_iff (hvalid : validCollectionName colName.toList = true) (hkey : key ≠ "") :
    Survives colName key ↔ key ≠ "." ∧ key ≠ ".." ∧ key ≠ "bulk" := by
  obtain ⟨hcol, hdot, hdots⟩ := plain_of_valid hvalid
  have harrives := fun (m : ForwardMethod) wc =>
    arrives_forwardPath hdot hdots hcol hkey m.method wc
  constructor
  · rintro ⟨hreaches, -⟩
    have hput := hreaches .put ⟨none, none⟩
    rw [harrives] at hput
    refine ⟨?_, ?_, ?_⟩
    · rintro rfl
      rw [if_pos (.inr rfl)] at hput
      cases hput
    · rintro rfl
      rw [if_pos (.inl rfl)] at hput
      cases hput
    · rintro rfl
      have hnone : (post .bulkCreateDocs).handler ForwardMethod.put.method = none := by decide
      rw [if_neg (by decide), if_pos rfl, hnone] at hput
      cases hput
  · rintro ⟨hself, hparent, hword⟩
    refine ⟨fun m wc => ?_, fun _ _ => documentPath_inj⟩
    rw [harrives, if_neg (not_or.mpr ⟨hparent, hself⟩), if_neg hword]
    cases m <;> rfl

/-- The router writes the slash and the percent sign so that they survive. -/
theorem survives_slash : Survives "c" "a/%2e" :=
  (survives_iff (by decide) (by decide)).mpr (by decide)

/-- The client takes the key for a step to the parent. -/
theorem not_survives_dots : validCollectionName "c".toList = true ∧ ¬Survives "c" ".." := by
  refine ⟨by decide, fun h => ?_⟩
  have hput := h.reaches .put ⟨none, none⟩
  revert hput
  simp only [arrives, buildApp, publicRoutes, clusterRoutes, shardRoutes, route_eq_ascii]
  decide

end Survival

end DewDB.ForwardPaths
