import Typhoon.Json.Grammar

/-!
# What is written is read back

A well-formed value is written as a text that is read back as the value `asRead`, whatever comes after the
text as long as it does not continue a number (`reads_dump`). So the text of a whole value is parsed to
`asRead` (`parse_dump`), the two values are written alike (`dump_asRead`), and they are equal by the
library's own comparison when the numbers are finite (`eq_asRead`).
-/

namespace Typhoon

namespace Json

variable {F : Type*} [NumberFloat F]

/-! ## Tokens of one byte, and literals -/

/-- A structural character is one token. -/
theorem scan_structural {c : UInt8} {token : Token F} (hc : structuralToken c = some token)
    (hspace : ¬ (c = ' '.toUInt8 ∨ c = '\t'.toUInt8 ∨ c = '\n'.toUInt8 ∨ c = '\r'.toUInt8))
    (input : List UInt8) : scan (c :: input) = (token, input) := by
  rw [scan, skipWhitespace_cons hspace, scanToken, hc]

/-- The comma between two elements or members is scanned as one. -/
theorem scan_comma (input : List UInt8) :
    scan (F := F) (','.toUInt8 :: input) = (.valueSeparator, input) :=
  scan_structural rfl (by decide) input

/-- The bracket after the elements of an array is scanned as one. -/
theorem scan_endArray (input : List UInt8) : scan (F := F) (']'.toUInt8 :: input) = (.endArray, input) :=
  scan_structural rfl (by decide) input

/-- The bracket after the members of an object is scanned as one. -/
theorem scan_endObject (input : List UInt8) :
    scan (F := F) ('\x7d'.toUInt8 :: input) = (.endObject, input) :=
  scan_structural rfl (by decide) input

/-- The bytes that come after a value do not continue a number. -/
theorem stops_cons {c : UInt8} (hc : c = ','.toUInt8 ∨ c = ']'.toUInt8 ∨ c = '\x7d'.toUInt8)
    (rest : List UInt8) : Stops (c :: rest) := by
  intro d hd
  obtain rfl : c = d := Option.some_inj.1 hd
  rcases hc with rfl | rfl | rfl <;> decide

/-! ## Texts of phrases -/

/-- A text that is read as a phrase of the grammar, before anything that does not continue a number. -/
def Reads (text : List UInt8) (item : Item F) : Prop :=
  ∀ rest, Stops rest → ∃ ts, Lexes (text ++ rest) ts rest ∧ Derives ts item

/-- A text that is scanned as one token is read as what the token derives. -/
theorem reads_of_scan {text : List UInt8} {token : Token F} {item : Item F}
    (hscan : ∀ rest, Stops rest → scan (text ++ rest) = (token, rest)) (h : Derives [token] item) :
    Reads text item :=
  fun rest hrest => ⟨[token], .cons (hscan rest hrest) (.nil rest), h⟩

/-- The text of a string is scanned as that string. -/
theorem reads_string {s : List UInt8} (hs : Utf8.Valid s) :
    ∃ text, dumpEscaped s = .ok text ∧
      ∀ rest, scan (F := F) ('"'.toUInt8 :: (text ++ '"'.toUInt8 :: rest)) = (.valueString s, rest) := by
  obtain ⟨cs, rfl⟩ := hs
  exact ⟨_, dumpEscaped_encode cs, scan_string cs⟩

/-- The text of an unsigned integer is read as it. -/
theorem reads_unsigned (n : UInt64) : Reads (F := F) (dumpInteger n.toNat) (.value (.numberUnsigned n)) :=
  reads_of_scan (fun rest hrest => by
    have hscan := scan_number (F := F) hrest (unsignedText n.toNat)
    rwa [bytes_unsignedText, show (unsignedText n.toNat).type = .unsigned from rfl,
      numberToken_unsigned] at hscan) (.unsigned n)

/-- The text of a negative integer is read as it. -/
theorem reads_integer {n : Int64} (hn : n.toInt < 0) :
    Reads (F := F) (dumpInteger n.toInt) (.value (.numberInteger n)) :=
  reads_of_scan (fun rest hrest => by
    have hneg : n.toInt = -(n.toInt.natAbs : ℤ) := by omega
    have hpos : 0 < n.toInt.natAbs := by omega
    have hscan := scan_number (F := F) hrest (negativeText n.toInt.natAbs)
    rwa [bytes_negativeText hpos, ← hneg, show (negativeText n.toInt.natAbs).type = .integer from rfl,
      numberToken_integer hn] at hscan) (.integer n)

/-- A signed integer that is not negative is the unsigned one. -/
theorem toNat_toUInt64 {n : Int64} (hn : 0 ≤ n) : (n.toUInt64.toNat : ℤ) = n.toInt := by
  rw [Int64.toNat_toUInt64_of_le hn]
  exact Int.toNat_of_nonneg (Int64.le_iff_toInt_le.1 hn)

/-- The keys of an object stay as they are. -/
theorem map_fst_asReadMembers (o : Members F) : (asReadMembers o).map Prod.fst = o.map Prod.fst := by
  induction o with
  | nil => rfl
  | cons m o ih => rw [asReadMembers, List.map_cons, ih, List.map_cons]

/-- The members of an object stay in order. -/
theorem sorted_asReadMembers {o : Members F} (h : SortedMap.Sorted o) :
    SortedMap.Sorted (asReadMembers o) := by
  rw [SortedMap.Sorted, map_fst_asReadMembers]
  exact h

/-- The text of a finite number is read as it. -/
theorem reads_float [LawfulNumberFloat F] {x : F} (hx : NumberFloat.isfinite x = true) :
    Reads (toChars x) (.value (.numberFloat x)) :=
  reads_of_scan (fun rest hrest => by
    obtain ⟨t, hbytes, htype⟩ := exists_toChars hx
    have hscan := scan_number (F := F) hrest t
    rwa [hbytes, htype, numberToken_float hx] at hscan) (.float hx)

/-- The text of a number, and `null` for one that is not finite. -/
theorem reads_dumpFloat [LawfulNumberFloat F] (x : F) :
    Reads (dumpFloat x) (.value (asRead (.numberFloat x))) := by
  unfold dumpFloat
  rw [asRead]
  split_ifs with hx
  · exact reads_float hx
  · exact reads_of_scan (fun _ _ => rfl) .null

/-! ## Arrays and objects -/

/-- A value that is written, and read back. -/
def ReadBack (j : Json F) : Prop :=
  ∃ text, dump j = .ok text ∧ Reads text (.value (asRead j))

/-- The elements of an array are read back when each of them is. -/
theorem reads_dumpElements {j : Json F} {a : List (Json F)} (h : ∀ k ∈ j :: a, ReadBack k) :
    ∃ text, dumpElements (j :: a) = .ok text ∧ Reads text (.elements (asReadElements (j :: a))) := by
  induction a generalizing j with
  | nil =>
    obtain ⟨text, hdump, hreads⟩ := h j List.mem_cons_self
    refine ⟨text, hdump, fun rest hrest => ?_⟩
    obtain ⟨ts, hlex, hderives⟩ := hreads rest hrest
    exact ⟨ts, hlex, .element hderives⟩
  | cons k a ih =>
    obtain ⟨hj, hrest⟩ := List.forall_mem_cons.1 h
    obtain ⟨text, hdump, hreads⟩ := hj
    obtain ⟨texts, hdumps, hreadss⟩ := ih hrest
    refine ⟨text ++ ','.toUInt8 :: texts, by rw [dumpElements, hdump, hdumps], fun rest hstop => ?_⟩
    obtain ⟨ts, hlex, hderives⟩ := hreads (','.toUInt8 :: (texts ++ rest)) (stops_cons (.inl rfl) _)
    obtain ⟨ts', hlex', hderives'⟩ := hreadss rest hstop
    refine ⟨ts ++ .valueSeparator :: ts', ?_, .elements hderives hderives'⟩
    rw [List.append_assoc, List.cons_append]
    exact hlex.append (.cons (scan_comma _) hlex')

/-- The text of a member is scanned as its key, a colon and the tokens of its value. -/
theorem lexes_member {key text : List UInt8} {s : List UInt8} {ts : List (Token F)} {rest : List UInt8}
    (hkey : ∀ rest, scan (F := F) ('"'.toUInt8 :: (key ++ '"'.toUInt8 :: rest)) = (.valueString s, rest))
    (hlex : Lexes (text ++ rest) ts rest) :
    Lexes ('"'.toUInt8 :: (key ++ '"'.toUInt8 :: ':'.toUInt8 :: text) ++ rest)
      (.valueString s :: .nameSeparator :: ts) rest := by
  rw [List.cons_append, List.append_assoc, List.cons_append, List.cons_append]
  exact .cons (hkey _) (.cons (scan_structural rfl (by decide) _) hlex)

/-- The members of an object are read back when each of their values is. -/
theorem reads_dumpMembers {m : List UInt8 × Json F} {o : Members F}
    (hkeys : ∀ e ∈ m :: o, Utf8.Valid e.1) (h : ∀ e ∈ m :: o, ReadBack e.2) :
    ∃ text, dumpMembers (m :: o) = .ok text ∧ Reads text (.members (asReadMembers (m :: o))) := by
  induction o generalizing m with
  | nil =>
    obtain ⟨s, j⟩ := m
    obtain ⟨key, hescaped, hkey⟩ := reads_string (F := F) (hkeys _ List.mem_cons_self)
    obtain ⟨text, hdump, hreads⟩ := h _ List.mem_cons_self
    refine ⟨_, by rw [dumpMembers, hescaped, hdump], fun rest hrest => ?_⟩
    obtain ⟨ts, hlex, hderives⟩ := hreads rest hrest
    exact ⟨_, lexes_member hkey hlex, .member hderives⟩
  | cons m' o ih =>
    obtain ⟨s, j⟩ := m
    obtain ⟨hvalid, hvalids⟩ := List.forall_mem_cons.1 hkeys
    obtain ⟨hj, hrest⟩ := List.forall_mem_cons.1 h
    obtain ⟨key, hescaped, hkey⟩ := reads_string (F := F) hvalid
    obtain ⟨text, hdump, hreads⟩ := hj
    obtain ⟨texts, hdumps, hreadss⟩ := ih hvalids hrest
    refine ⟨_, by rw [dumpMembers, hescaped, hdump, hdumps], fun rest hstop => ?_⟩
    obtain ⟨ts, hlex, hderives⟩ := hreads (','.toUInt8 :: (texts ++ rest)) (stops_cons (.inl rfl) _)
    obtain ⟨ts', hlex', hderives'⟩ := hreadss rest hstop
    refine ⟨_, ?_, .members hderives hderives'⟩
    have hall := (lexes_member hkey hlex).append (.cons (scan_comma _) hlex')
    simpa using hall

/-! ## Values -/

/-- Every well-formed value is written, and read back. -/
theorem reads_dump [LawfulNumberFloat F] {j : Json F} (h : j.WellFormed Set.univ) : ReadBack j := by
  induction h with
  | null => exact ⟨_, rfl, reads_of_scan (fun _ _ => rfl) .null⟩
  | boolean b =>
    cases b with
    | true => exact ⟨_, rfl, reads_of_scan (fun _ _ => rfl) .literalTrue⟩
    | false => exact ⟨_, rfl, reads_of_scan (fun _ _ => rfl) .literalFalse⟩
  | numberInteger n =>
    refine ⟨_, rfl, ?_⟩
    rw [asRead]
    split_ifs with hn
    · rw [← toNat_toUInt64 hn]
      exact reads_unsigned n.toUInt64
    · exact reads_integer (not_le.1 fun hle => hn (Int64.le_iff_toInt_le.2 hle))
  | numberUnsigned n => exact ⟨_, rfl, reads_unsigned n⟩
  | @numberFloat x _ => exact ⟨_, rfl, reads_dumpFloat x⟩
  | string hs =>
    obtain ⟨text, hescaped, hscan⟩ := reads_string (F := F) hs
    refine ⟨_, by rw [dump, hescaped], reads_of_scan (fun rest _ => ?_) (.string _)⟩
    rw [List.cons_append, List.append_assoc]
    exact hscan rest
  | @array a _ ih =>
    cases a with
    | nil =>
      refine ⟨_, rfl, fun rest _ => ⟨_, .cons ?_ (.cons (scan_endArray rest) (.nil rest)), .emptyArray⟩⟩
      exact scan_structural rfl (by decide) _
    | cons j a =>
      obtain ⟨text, hdump, hreads⟩ := reads_dumpElements ih
      refine ⟨_, by rw [dump, hdump], fun rest _ => ?_⟩
      obtain ⟨ts, hlex, hderives⟩ := hreads (']'.toUInt8 :: rest) (stops_cons (.inr (.inl rfl)) _)
      refine ⟨_, ?_, .array hderives⟩
      rw [List.cons_append, List.append_assoc]
      exact .cons (scan_structural rfl (by decide) _)
        (hlex.append (.cons (scan_endArray rest) (.nil rest)))
  | @object o hsorted hkeys _ ih =>
    cases o with
    | nil =>
      refine ⟨_, rfl, fun rest _ => ⟨_, .cons ?_ (.cons (scan_endObject rest) (.nil rest)),
        .emptyObject⟩⟩
      exact scan_structural rfl (by decide) _
    | cons m o =>
      obtain ⟨text, hdump, hreads⟩ := reads_dumpMembers hkeys ih
      refine ⟨_, by rw [dump, hdump], fun rest _ => ?_⟩
      obtain ⟨ts, hlex, hderives⟩ := hreads ('\x7d'.toUInt8 :: rest) (stops_cons (.inr (.inr rfl)) _)
      -- The members are in the order of their keys already, and stay so when they are read.
      have hmap : SortedMap.ofList (asReadMembers (m :: o)) = asReadMembers (m :: o) :=
        SortedMap.ofList_of_sorted (sorted_asReadMembers hsorted)
      refine ⟨_, ?_, by rw [asRead, ← hmap]; exact .object hderives⟩
      rw [List.cons_append, List.append_assoc]
      exact .cons (scan_structural rfl (by decide) _)
        (hlex.append (.cons (scan_endObject rest) (.nil rest)))

/-! ## Whole messages -/

/-- A text that is read as a phrase does not start with a byte order mark. -/
theorem skipByteOrderMark_of_reads {text : List UInt8} {item : Item F} (h : Reads text item) :
    skipByteOrderMark text = text := by
  obtain ⟨ts, hlex, hderives⟩ := h [] stops_nil
  obtain ⟨t, ts, rfl, hproper, -⟩ := hderives.exists_cons
  obtain ⟨mid, hscan, -⟩ := Lexes.of_cons hlex
  unfold skipByteOrderMark
  split
  · cases hscan
    exact absurd hproper (by simp [Proper])
  · rfl

/-- A text that is read as a value is parsed to it. -/
theorem parse_of_reads {text : List UInt8} {j : Json F} (h : Reads text (.value j)) :
    parse text = .ok j := by
  obtain ⟨ts, hlex, hderives⟩ := h [] stops_nil
  rw [List.append_nil] at hlex
  refine Text.parse_eq ⟨ts, [], [], hderives, ?_, rfl⟩
  rwa [skipByteOrderMark_of_reads h]

/-- The text of a well-formed value is parsed to the value that is read back. -/
theorem parse_dump [LawfulNumberFloat F] {j : Json F} (h : j.WellFormed Set.univ) :
    ∃ text, dump j = .ok text ∧ parse text = .ok (asRead j) := by
  obtain ⟨text, hdump, hreads⟩ := reads_dump h
  exact ⟨text, hdump, parse_of_reads hreads⟩

/-! ## The value that is read back -/

mutual

/-- The value that is read back is written as the same text. -/
theorem dump_asRead : ∀ j : Json F, dump (asRead j) = dump j
  | .null => rfl
  | .boolean _ => rfl
  | .numberInteger n => by
    rw [asRead]
    split_ifs with hn
    · rw [dump, dump, toNat_toUInt64 hn]
    · rfl
  | .numberUnsigned _ => rfl
  | .numberFloat x => by
    rw [asRead]
    split_ifs with hx
    · rfl
    · rw [dump, dump, dumpFloat, if_neg hx]
  | .string _ => rfl
  | .array [] => rfl
  | .array (j :: a) => by
    have h := dumpElements_asRead (j :: a)
    rw [asReadElements] at h
    rw [asRead, asReadElements, dump, dump, h]
  | .object [] => rfl
  | .object ((s, j) :: o) => by
    have h := dumpMembers_asRead ((s, j) :: o)
    rw [asReadMembers] at h
    rw [asRead, asReadMembers, dump, dump, h]

/-- The elements that are read back are written as the same text. -/
theorem dumpElements_asRead : ∀ a : List (Json F), dumpElements (asReadElements a) = dumpElements a
  | [] => rfl
  | [j] => dump_asRead j
  | j :: k :: a => by
    have h := dumpElements_asRead (k :: a)
    rw [asReadElements] at h
    rw [asReadElements, asReadElements, dumpElements, dumpElements, dump_asRead j, h]

/-- The members that are read back are written as the same text. -/
theorem dumpMembers_asRead : ∀ o : Members F, dumpMembers (asReadMembers o) = dumpMembers o
  | [] => rfl
  | [(s, j)] => by
    rw [asReadMembers, asReadMembers, dumpMembers, dumpMembers, dump_asRead j]
  | (s, j) :: (t, k) :: o => by
    have h := dumpMembers_asRead ((t, k) :: o)
    rw [asReadMembers] at h
    rw [asReadMembers, asReadMembers, dumpMembers, dumpMembers, dump_asRead j, h]

end

/-- The elements that are read back are equal to the ones that were written, when each of them is. -/
theorem eqElements_asRead {a : List (Json F)} (h : ∀ j ∈ a, eq (asRead j) j = true) :
    eqElements (asReadElements a) a = true := by
  induction a with
  | nil => rfl
  | cons j a ih =>
    obtain ⟨hj, ha⟩ := List.forall_mem_cons.1 h
    rw [asReadElements, eqElements, hj, ih ha, Bool.and_self]

/-- The members that are read back are equal to the ones that were written, when each of them is. -/
theorem eqMembers_asRead {o : Members F} (h : ∀ m ∈ o, eq (asRead m.2) m.2 = true) :
    eqMembers (asReadMembers o) o = true := by
  induction o with
  | nil => rfl
  | cons m o ih =>
    obtain ⟨hm, ho⟩ := List.forall_mem_cons.1 h
    rw [asReadMembers, eqMembers, hm, ih ho, beq_self_eq_true, Bool.and_self, Bool.and_self]

/-- A value with finite numbers is equal to the value that is read back. -/
theorem eq_asRead [LawfulNumberFloat F] {j : Json F} (h : j.WellFormed finite) :
    eq (asRead j) j = true := by
  induction h with
  | null => rfl
  | boolean b => exact beq_self_eq_true b
  | numberInteger n =>
    rw [asRead]
    split_ifs
    · rw [eq, Int64.toInt64_toUInt64, beq_self_eq_true]
    · exact beq_self_eq_true n
  | numberUnsigned n => exact beq_self_eq_true n
  | numberFloat hx =>
    rw [asRead, if_pos (show NumberFloat.isfinite _ = true from hx)]
    exact LawfulNumberFloat.eq_self _ hx
  | string _ => exact beq_self_eq_true _
  | array _ ih => exact eqElements_asRead ih
  | object _ _ _ ih => exact eqMembers_asRead ih

/-- A well-formed value is written, and the text is parsed to a value that is written as the same text
and, where all numbers are finite, equal to the one that was written. -/
theorem round_trip [LawfulNumberFloat F] {j : Json F} (h : j.WellFormed Set.univ) :
    ∃ text, dump j = .ok text ∧ parse text = .ok (asRead j) ∧ dump (asRead j) = .ok text ∧
      (j.WellFormed finite → eq (asRead j) j = true) := by
  obtain ⟨text, hdump, hparse⟩ := parse_dump h
  exact ⟨text, hdump, hparse, (dump_asRead j).trans hdump, eq_asRead⟩

/-- An array of a number, an integer and an infinity, which is read back as `null`. -/
theorem round_trip_array : ∃ text,
    dump (.array [.numberFloat Sample.half, .numberInteger 7, .numberFloat .infinity]) = .ok text ∧
      parse text = .ok (.array [.numberFloat Sample.half, .numberUnsigned 7, .null]) ∧
      dump (.array [.numberFloat Sample.half, .numberUnsigned 7, .null]) = .ok text ∧
      (WellFormed finite (.array [.numberFloat Sample.half, .numberInteger 7, .numberFloat .infinity]) →
        eq (.array [.numberFloat Sample.half, .numberUnsigned 7, .null])
          (.array [.numberFloat Sample.half, .numberInteger 7, .numberFloat .infinity]) = true) :=
  round_trip (.array (List.forall_mem_cons.2 ⟨.numberFloat (Set.mem_univ _), List.forall_mem_cons.2
    ⟨.numberInteger 7, List.forall_mem_singleton.2 (.numberFloat (Set.mem_univ _))⟩⟩))

/-! ## What can be written -/

mutual

/-- The strings of a value, its keys among them. -/
def strings : Json F → List (List UInt8)
  | .string s => [s]
  | .array a => stringsElements a
  | .object o => stringsMembers o
  | _ => []

/-- The strings of the elements of an array. -/
def stringsElements : List (Json F) → List (List UInt8)
  | [] => []
  | j :: a => strings j ++ stringsElements a

/-- The strings of the members of an object. -/
def stringsMembers : Members F → List (List UInt8)
  | [] => []
  | (s, j) :: o => s :: (strings j ++ stringsMembers o)

end

mutual

/-- A value is written exactly when all its strings are UTF-8. -/
theorem dump_eq_ok_iff : ∀ j : Json F, (∃ text, dump j = .ok text) ↔ ∀ s ∈ strings j, Utf8.Valid s
  | .null => iff_of_true ⟨_, rfl⟩ (List.forall_mem_nil _)
  | .boolean true => iff_of_true ⟨_, rfl⟩ (List.forall_mem_nil _)
  | .boolean false => iff_of_true ⟨_, rfl⟩ (List.forall_mem_nil _)
  | .numberInteger _ => iff_of_true ⟨_, rfl⟩ (List.forall_mem_nil _)
  | .numberUnsigned _ => iff_of_true ⟨_, rfl⟩ (List.forall_mem_nil _)
  | .numberFloat _ => iff_of_true ⟨_, rfl⟩ (List.forall_mem_nil _)
  | .string s => by
    rw [strings, List.forall_mem_singleton, ← dumpEscaped_isOk_iff, dump]
    cases dumpEscaped s <;> simp
  | .array [] => iff_of_true ⟨_, rfl⟩ (List.forall_mem_nil _)
  | .array (j :: a) => by
    rw [strings, ← dumpElements_eq_ok_iff (j :: a), dump]
    cases dumpElements (j :: a) <;> simp
  | .object [] => iff_of_true ⟨_, rfl⟩ (List.forall_mem_nil _)
  | .object (m :: o) => by
    rw [strings, ← dumpMembers_eq_ok_iff (m :: o), dump]
    cases dumpMembers (m :: o) <;> simp

/-- The elements of an array are written exactly when all their strings are UTF-8. -/
theorem dumpElements_eq_ok_iff : ∀ a : List (Json F),
    (∃ text, dumpElements a = .ok text) ↔ ∀ s ∈ stringsElements a, Utf8.Valid s
  | [] => iff_of_true ⟨_, rfl⟩ (List.forall_mem_nil _)
  | [j] => by
    rw [stringsElements, stringsElements, List.append_nil, ← dump_eq_ok_iff j, dumpElements]
  | j :: k :: a => by
    rw [stringsElements, List.forall_mem_append, ← dump_eq_ok_iff j, ← dumpElements_eq_ok_iff (k :: a),
      dumpElements]
    cases dump j <;> cases dumpElements (k :: a) <;> simp

/-- The members of an object are written exactly when all their strings are UTF-8. -/
theorem dumpMembers_eq_ok_iff : ∀ o : Members F,
    (∃ text, dumpMembers o = .ok text) ↔ ∀ s ∈ stringsMembers o, Utf8.Valid s
  | [] => iff_of_true ⟨_, rfl⟩ (List.forall_mem_nil _)
  | [(s, j)] => by
    rw [stringsMembers, stringsMembers, List.append_nil, List.forall_mem_cons, ← dump_eq_ok_iff j,
      ← dumpEscaped_isOk_iff, dumpMembers]
    cases dumpEscaped s <;> cases dump j <;> simp
  | (s, j) :: m :: o => by
    rw [stringsMembers, List.forall_mem_cons, List.forall_mem_append, ← dump_eq_ok_iff j,
      ← dumpEscaped_isOk_iff, ← dumpMembers_eq_ok_iff (m :: o), dumpMembers]
    cases dumpEscaped s <;> cases dump j <;> cases dumpMembers (m :: o) <;> simp

end

/-- `dump` throws exactly when one of the strings of a value, keys included, is not UTF-8. -/
theorem dump_eq_error_iff (j : Json F) :
    (∃ e, dump j = .error e) ↔ ∃ s ∈ strings j, ¬ Utf8.Valid s := by
  have hok := dump_eq_ok_iff j
  cases hdump : dump j with
  | ok text =>
    have hall := hok.1 ⟨text, hdump⟩
    constructor
    · rintro ⟨e, he⟩
      cases he
    · rintro ⟨s, hs, hnot⟩
      exact absurd (hall s hs) hnot
  | error e =>
    refine iff_of_true ⟨e, rfl⟩ ?_
    by_contra hnone
    push Not at hnone
    obtain ⟨text, htext⟩ := hok.2 hnone
    rw [hdump] at htext
    cases htext

end Json

end Typhoon
