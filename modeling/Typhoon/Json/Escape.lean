import Mathlib.Data.Fintype.Basic
import Typhoon.Json.Serializer

/-!
# Escaped strings

`dump_escaped` goes through a string with the states of `decode`. A state stands for the ranges of the
bytes that are still to come in a character (`stateOf`), so the table of `decode` does what the ranges of
UTF-8 ask for, and `dumpEscaped_isOk_iff` says that a string is written exactly when it is valid UTF-8. What
is written for each character is told by `escapeChar`. The buffer in which this is done is never written past
its end, whatever the string is (`stringBuffer_in_bounds`).
-/

namespace Typhoon.Json

open Utf8

/-! ## The table -/

/-- The lists of ranges that `decode` has a state for. -/
def pendings : List (List (UInt8 × UInt8)) :=
  [[], [tail], [tail, tail], [(0xA0, 0xBF), tail], [(0x80, 0x9F), tail],
    [(0x90, 0xBF), tail, tail], [tail, tail, tail], [(0x80, 0x8F), tail, tail]]

/-- The state in which bytes in some ranges are still to come. -/
def stateOf (rs : List (UInt8 × UInt8)) : UInt8 :=
  if rs = [] then 0
  else if rs = [tail] then 2
  else if rs = [tail, tail] then 3
  else if rs = [(0xA0, 0xBF), tail] then 4
  else if rs = [(0x80, 0x9F), tail] then 5
  else if rs = [(0x90, 0xBF), tail, tail] then 6
  else if rs = [tail, tail, tail] then 7
  else 8

/-- What holds of the bytes of any two hexadecimal digits holds of every byte. -/
theorem forall_byte {P : UInt8 → Prop} (h : ∀ m n : Fin 16, P (UInt8.ofNat (16 * m + n))) (b : UInt8) :
    P b := by
  have hlt := b.toNat_lt
  have hb := h ⟨b.toNat / 16, by omega⟩ ⟨b.toNat % 16, Nat.mod_lt _ (by decide)⟩
  rwa [Nat.div_add_mod, UInt8.ofNat_toNat] at hb

/-- The state at which a character starts is that in which nothing is to come. -/
theorem stateOf_eq_accept_iff {rs : List (UInt8 × UInt8)} (h : rs ∈ pendings) :
    stateOf rs = utf8Accept ↔ rs = [] := by
  revert rs
  decide

/-- No state for ranges is that of an invalid byte. -/
theorem stateOf_ne_reject {rs : List (UInt8 × UInt8)} (h : rs ∈ pendings) :
    stateOf rs ≠ utf8Reject := by
  revert rs
  decide

/-- After a byte in the first range, the others are still to come. -/
theorem mem_pendings_of_cons {r : UInt8 × UInt8} {rs : List (UInt8 × UInt8)}
    (h : r :: rs ∈ pendings) : rs ∈ pendings := by
  have hall : ∀ rs ∈ pendings, rs.tail ∈ pendings := by decide
  exact hall _ h

/-- There is a state for the ranges after every first byte. -/
theorem mem_pendings_of_ranges {b : UInt8} {rs : List (UInt8 × UInt8)} (h : ranges b = some rs) :
    rs ∈ pendings := by
  rcases ranges_eq_some.1 h with ⟨-, rfl⟩ | ⟨-, -, rfl⟩ | ⟨-, rfl⟩ | ⟨-, rfl⟩ | ⟨-, -, -, rfl⟩ |
    ⟨-, rfl⟩ | ⟨-, -, rfl⟩ | ⟨-, rfl⟩ <;> decide

/-- The first row of the table goes by the ranges of the bytes that follow. -/
theorem decode_first (codep : UInt32) (byte : UInt8) :
    (decode 0 codep byte).1 = match ranges byte with
      | some rs => stateOf rs
      | none => utf8Reject := by
  refine forall_byte (P := fun byte => (decode 0 0 byte).1 = match ranges byte with
      | some rs => stateOf rs
      | none => utf8Reject) ?_ byte
  decide +kernel

/-- The row for bytes to come accepts a byte in the range of the next one, and no other. -/
theorem decode_next {r : UInt8 × UInt8} {rs : List (UInt8 × UInt8)} (h : r :: rs ∈ pendings)
    (codep : UInt32) (byte : UInt8) :
    (decode (stateOf (r :: rs)) codep byte).1 =
      if InRange r byte then stateOf rs else utf8Reject := by
  have hall : ∀ rs ∈ pendings, rs ≠ [] → ∀ m n : Fin 16,
      (decode (stateOf rs) 0 (UInt8.ofNat (16 * m + n))).1 =
        if InRange (rs.headD tail) (UInt8.ofNat (16 * m + n)) then stateOf rs.tail else utf8Reject := by
    decide +kernel
  exact forall_byte (P := fun byte => (decode (stateOf (r :: rs)) 0 byte).1 =
    if InRange r byte then stateOf rs else utf8Reject) (hall _ h (List.cons_ne_nil r rs)) byte

/-- There is a state for the ranges after every byte. -/
theorem mem_pendings_of_next {rs rs' : List (UInt8 × UInt8)} (hrs : rs ∈ pendings) {b : UInt8}
    (h : next rs b = some rs') : rs' ∈ pendings := by
  cases rs with
  | nil => exact mem_pendings_of_ranges h
  | cons r rs =>
    rw [next] at h
    split_ifs at h
    cases h
    exact mem_pendings_of_cons hrs

/-- The state after a byte is that for the ranges after it. -/
theorem decode_state {rs : List (UInt8 × UInt8)} (hrs : rs ∈ pendings) (codep : UInt32) (byte : UInt8) :
    (decode (stateOf rs) codep byte).1 = match next rs byte with
      | some rs' => stateOf rs'
      | none => utf8Reject := by
  cases rs with
  | nil => exact decode_first codep byte
  | cons r rs =>
    rw [decode_next hrs, next]
    split_ifs <;> rfl

/-- The code point after the first byte of a character holds the bits of its payload. -/
theorem toNat_codepoint_first {byte : UInt8} (h : (ranges byte).isSome) (codep : UInt32) :
    (decode 0 codep byte).2.toNat = payload byte := by
  refine forall_byte (P := fun byte => (ranges byte).isSome →
    (decode 0 0 byte).2.toNat = payload byte) ?_ byte h
  decide +kernel

/-- One more byte adds its six bits to the code point. -/
theorem toNat_codepoint_next {state : UInt8} (hstate : state ≠ utf8Accept) {codep : UInt32}
    (hcodep : codep.toNat < 2 ^ 26) (byte : UInt8) :
    (decode state codep byte).2.toNat = codep.toNat * 64 + byte.toNat % 64 := by
  have hand : (byte.toUInt32 &&& (0x3F : UInt32)).toNat = byte.toNat % 64 := by
    rw [UInt32.toNat_and, UInt8.toNat_toUInt32]
    exact Nat.and_two_pow_sub_one_eq_mod byte.toNat 6
  have hshift : (codep <<< 6).toNat = codep.toNat <<< 6 := by
    have hfit : codep.toNat <<< 6 < 2 ^ 32 := by
      rw [Nat.shiftLeft_eq]
      omega
    rw [UInt32.toNat_shiftLeft]
    exact Nat.mod_eq_of_lt hfit
  rw [decode, if_pos hstate, UInt32.toNat_or, hand, hshift, Nat.or_comm,
    ← Nat.shiftLeft_add_eq_or_of_lt (show byte.toNat % 64 < 2 ^ 6 by omega), Nat.shiftLeft_eq]

/-! ## The loop -/

/-- What is written so far, in the output and in the buffer. -/
def Escaping.written (e : Escaping) : List UInt8 := e.output ++ e.stringBuffer

/-- A pass of the loop goes on at a byte that the state allows. -/
theorem step_ok {e : Escaping} {byte : UInt8} {rs : List (UInt8 × UInt8)} (hrs : rs ∈ pendings)
    (hdec : (decode e.state e.codepoint byte).1 = stateOf rs) (i : ℕ) :
    ∃ e', e.step i byte = .ok e' ∧ e'.state = stateOf rs ∧
      e'.codepoint = (decode e.state e.codepoint byte).2 ∧
      e'.written = e.written ++
        if rs = [] then escapeBytes (decode e.state e.codepoint byte).2 byte else [byte] := by
  have haccept := stateOf_eq_accept_iff hrs
  have hreject := stateOf_ne_reject hrs
  unfold Escaping.step
  generalize decode e.state e.codepoint byte = d at hdec ⊢
  obtain ⟨state, codepoint⟩ := d
  dsimp only at hdec ⊢
  rw [← hdec] at haccept hreject ⊢
  by_cases hlast : rs = []
  · rw [if_pos (haccept.2 hlast), if_pos hlast]
    split_ifs
    · exact ⟨_, rfl, rfl, rfl, by simp [Escaping.written]⟩
    · exact ⟨_, rfl, rfl, rfl, by simp [Escaping.written]⟩
  · rw [if_neg (fun h => hlast (haccept.1 h)), if_neg hreject, if_neg hlast]
    exact ⟨_, rfl, rfl, rfl, by simp [Escaping.written]⟩

/-- A pass of the loop at a byte that the state does not allow. -/
theorem step_error {e : Escaping} {byte : UInt8}
    (hdec : (decode e.state e.codepoint byte).1 = utf8Reject) (i : ℕ) :
    e.step i byte = .error (.invalidUtf8 i byte) := by
  unfold Escaping.step
  generalize decode e.state e.codepoint byte = d at hdec ⊢
  obtain ⟨state, codepoint⟩ := d
  dsimp only at hdec ⊢
  rw [hdec, if_neg (by decide), if_pos rfl]

/-- A byte past the control characters, and neither a quote nor a backslash, is written as it is. -/
theorem escapeBytes_of_le {codepoint : UInt32} (h : 0x80 ≤ codepoint.toNat) (byte : UInt8) :
    escapeBytes codepoint byte = [byte] := by
  have hne : ∀ n : UInt32, n.toNat < 0x80 → codepoint ≠ n := by
    rintro n hn rfl
    omega
  have hle : ¬ codepoint ≤ 0x1F := by
    rw [UInt32.le_iff_toNat_le]
    show ¬ codepoint.toNat ≤ 0x1F
    omega
  rw [escapeBytes, if_neg (hne _ (by decide)), if_neg (hne _ (by decide)),
    if_neg (hne _ (by decide)), if_neg (hne _ (by decide)), if_neg (hne _ (by decide)),
    if_neg (hne _ (by decide)), if_neg (hne _ (by decide)), if_neg hle]

/-- The payloads of more bytes do not lower a code point. -/
theorem le_foldl_payload (tl : List UInt8) (n : ℕ) :
    n ≤ tl.foldl (fun n c => n * 64 + c.toNat % 64) n := by
  induction tl generalizing n with
  | nil => exact le_rfl
  | cons c tl ih =>
    calc n ≤ n * 64 + c.toNat % 64 := by omega
      _ ≤ _ := ih _

/-- The bytes that are still to come in a character are written as they are. -/
theorem loop_tail {rs : List (UInt8 × UInt8)} {tl : List UInt8} (htl : List.Forall₂ InRange rs tl)
    (hrs : rs ∈ pendings) (hne : rs ≠ []) {e : Escaping} (he : e.state = stateOf rs)
    (hlow : 0x80 ≤ tl.foldl (fun n c => n * 64 + c.toNat % 64) e.codepoint.toNat)
    (hhigh : tl.foldl (fun n c => n * 64 + c.toNat % 64) e.codepoint.toNat < 2 ^ 26) (i : ℕ)
    (s : List UInt8) :
    ∃ e' : Escaping, e.loop i (tl ++ s) = e'.loop (i + tl.length) s ∧ e'.state = utf8Accept ∧
      e'.written = e.written ++ tl := by
  induction htl generalizing e i with
  | nil => exact absurd rfl hne
  | @cons r byte rs tl hr htl ih =>
    have hstate : e.state ≠ utf8Accept := by
      rw [he, ne_eq, stateOf_eq_accept_iff hrs]
      exact List.cons_ne_nil _ _
    have hcodep : e.codepoint.toNat < 2 ^ 26 := (le_foldl_payload (byte :: tl) _).trans_lt hhigh
    have hpend := mem_pendings_of_cons hrs
    -- The state and the code point after this byte.
    have hdec : (decode e.state e.codepoint byte).1 = stateOf rs := by
      rw [he, decode_next hrs, if_pos hr]
    have hval := toNat_codepoint_next hstate hcodep byte
    rw [List.foldl_cons, ← hval] at hlow hhigh
    obtain ⟨e', hstep, hst, hcp, hw⟩ := step_ok hpend hdec i
    rw [← hcp] at hlow hhigh
    by_cases hlast : rs = []
    · subst hlast
      cases htl
      refine ⟨e', ?_, hst, ?_⟩
      · rw [List.cons_append, Escaping.loop, hstep]
        rfl
      · rw [hw, if_pos rfl, ← hcp, escapeBytes_of_le hlow]
    · obtain ⟨e'', hloop, hst'', hw''⟩ := ih hpend hlast hst hlow hhigh (i + 1)
      refine ⟨e'', ?_, hst'', ?_⟩
      · rw [List.cons_append, Escaping.loop, hstep]
        show e'.loop (i + 1) (tl ++ s) = _
        rw [hloop, List.length_cons, Nat.add_assoc, Nat.add_comm 1]
      · rw [hw'', hw, if_neg hlast, List.append_assoc, List.singleton_append]

/-- What is written for a character. -/
def escapeChar (c : Char) : List UInt8 :=
  if c.val.toNat < 0x80 then escapeBytes c.val (UInt8.ofNat c.val.toNat) else String.utf8EncodeChar c

/-- The bytes after the first one are there exactly for the characters past ASCII. -/
theorem tail_eq_nil_iff {c : Char} {b : UInt8} {tl : List UInt8}
    (h : String.utf8EncodeChar c = b :: tl) : tl = [] ↔ c.val.toNat < 0x80 := by
  rcases utf8EncodeChar_cases c with ⟨hlt, he⟩ | ⟨hge, -, he⟩ | ⟨hge, -, he⟩ | ⟨hge, -, he⟩ <;>
    rw [h] at he <;> obtain ⟨-, rfl⟩ := List.cons.inj he
  · exact iff_of_true rfl hlt
  all_goals exact iff_of_false (List.cons_ne_nil _ _) (by omega)

/-- The loop takes the bytes of a character, adds its text and is back at the start of one. -/
theorem loop_char {e : Escaping} (he : e.state = utf8Accept) (c : Char) (i : ℕ) (s : List UInt8) :
    ∃ e' : Escaping, e.loop i (String.utf8EncodeChar c ++ s) =
        e'.loop (i + (String.utf8EncodeChar c).length) s ∧
      e'.state = utf8Accept ∧ e'.written = e.written ++ escapeChar c := by
  obtain ⟨b, rs, tl, hbytes, hrs, htl⟩ := encoded_utf8EncodeChar c
  have hscalar := scalar_utf8EncodeChar c
  have hpend := mem_pendings_of_ranges hrs
  have hdec : (decode e.state e.codepoint b).1 = stateOf rs := by
    rw [he, decode_first, hrs]
  have hcp : (decode e.state e.codepoint b).2.toNat = payload b := by
    rw [he]
    exact toNat_codepoint_first (by rw [hrs]; rfl) _
  have hascii := tail_eq_nil_iff hbytes
  obtain ⟨e', hstep, hst, hcp', hw⟩ := step_ok hpend hdec i
  rw [hbytes, scalar, ← hcp] at hscalar
  rw [hbytes]
  by_cases hlast : rs = []
  · subst hlast
    cases htl
    -- The code point is the character, in one byte.
    have hval : (decode e.state e.codepoint b).2 = c.val := UInt32.toNat_inj.1 hscalar
    have hb : b = UInt8.ofNat c.val.toNat := by
      rcases utf8EncodeChar_cases c with ⟨-, hone⟩ | ⟨hge, -⟩ | ⟨hge, -⟩ | ⟨hge, -⟩
      · rw [hbytes] at hone
        exact (List.cons.inj hone).1
      all_goals
        have := hascii.1 rfl
        omega
    refine ⟨e', ?_, hst, ?_⟩
    · rw [List.cons_append, Escaping.loop, hstep]
      rfl
    · rw [hw, if_pos rfl, hval, escapeChar, if_pos (hascii.1 rfl), ← hb]
  · have htl_ne : tl ≠ [] := by
      rintro rfl
      cases htl
      exact hlast rfl
    have hge : ¬ c.val.toNat < 0x80 := fun hlt => htl_ne (hascii.2 hlt)
    have hvalid := toNat_val_valid c
    rw [← hcp'] at hscalar
    obtain ⟨e'', hloop, hst'', hw''⟩ := loop_tail htl hpend hlast hst
      (by rw [hscalar]; omega) (by rw [hscalar]; omega) (i + 1) s
    refine ⟨e'', ?_, hst'', ?_⟩
    · rw [List.cons_append, Escaping.loop, hstep]
      show e'.loop (i + 1) (tl ++ s) = _
      rw [hloop, List.length_cons, Nat.add_assoc, Nat.add_comm 1]
    · rw [hw'', hw, if_neg hlast, escapeChar, if_neg hge, hbytes, List.append_assoc,
        List.singleton_append]

/-- The loop adds the texts of characters one after the other. -/
theorem loop_encode (cs : List Char) {e : Escaping} (he : e.state = utf8Accept) (i : ℕ) :
    ∃ e' : Escaping, e.loop i (encode cs) = .ok e' ∧ e'.state = utf8Accept ∧
      e'.written = e.written ++ cs.flatMap escapeChar := by
  induction cs generalizing e i with
  | nil => exact ⟨e, rfl, he, by simp⟩
  | cons c cs ih =>
    obtain ⟨e', hloop, hst, hw⟩ := loop_char he c i (encode cs)
    obtain ⟨e'', hloop', hst', hw'⟩ := ih hst (i + (String.utf8EncodeChar c).length)
    refine ⟨e'', ?_, hst', ?_⟩
    · rw [encode, List.flatMap_cons]
      exact hloop.trans hloop'
    · rw [hw', hw, List.flatMap_cons, List.append_assoc]

/-- A string of characters is written character by character. -/
theorem dumpEscaped_encode (cs : List Char) :
    dumpEscaped (encode cs) = .ok (cs.flatMap escapeChar) := by
  obtain ⟨e, hloop, hst, hw⟩ := loop_encode cs (e := Escaping.start) rfl 0
  rw [dumpEscaped, hloop]
  show (if e.state = utf8Accept then _ else _) = _
  rw [if_pos hst]
  exact congrArg _ hw

/-! ## What is no UTF-8 -/

/-- Where the loop comes to its end, the bytes are scanned to the state there. -/
theorem scan_of_loop {s : List UInt8} {rs : List (UInt8 × UInt8)} (hrs : rs ∈ pendings)
    {e e' : Escaping} (he : e.state = stateOf rs) {i : ℕ} (hloop : e.loop i s = .ok e') :
    ∃ rs' ∈ pendings, Utf8.scan rs s = some rs' ∧ e'.state = stateOf rs' := by
  induction s generalizing e rs i with
  | nil =>
    cases hloop
    exact ⟨rs, hrs, rfl, he⟩
  | cons b s ih =>
    have hdec := decode_state hrs e.codepoint b
    rw [← he] at hdec
    rw [Escaping.loop] at hloop
    cases hnext : next rs b with
    | none =>
      rw [hnext] at hdec
      rw [step_error hdec] at hloop
      cases hloop
    | some rs₁ =>
      rw [hnext] at hdec
      have hpend := mem_pendings_of_next hrs hnext
      obtain ⟨e₁, hstep, hst, -⟩ := step_ok hpend hdec i
      rw [hstep] at hloop
      obtain ⟨rs', hrs', hscan, he'⟩ := ih hpend hst hloop
      refine ⟨rs', hrs', ?_, he'⟩
      rw [Utf8.scan, hnext]
      exact hscan

/-- A string is written exactly when it is valid UTF-8. -/
theorem dumpEscaped_isOk_iff (s : List UInt8) : (∃ text, dumpEscaped s = .ok text) ↔ Valid s := by
  constructor
  · rintro ⟨text, h⟩
    unfold dumpEscaped at h
    split at h
    · cases h
    · rename_i e hloop
      split_ifs at h with hst
      have hnil : ([] : List (UInt8 × UInt8)) ∈ pendings := by decide
      obtain ⟨rs, hrs, hscan, he⟩ := scan_of_loop hnil rfl hloop
      rw [he, stateOf_eq_accept_iff hrs] at hst
      rw [hst] at hscan
      exact scan_eq_nil_iff.1 hscan
  · rintro ⟨cs, rfl⟩
    exact ⟨_, dumpEscaped_encode cs⟩

/-! ## The buffer -/

/-- The buffer after a pass: 13 bytes are free, or one more byte of a character was copied. -/
theorem step_length {e e' : Escaping} {i : ℕ} {byte : UInt8} (h : e.step i byte = .ok e') :
    e'.stringBuffer.length ≤ 499 ∨
      e'.state ≠ utf8Accept ∧ e'.stringBuffer.length = e.stringBuffer.length + 1 := by
  unfold Escaping.step at h
  generalize decode e.state e.codepoint byte = d at h
  obtain ⟨state, codepoint⟩ := d
  dsimp only at h
  split_ifs at h with haccept hflush hreject
  · cases h
    exact .inl (Nat.zero_le _)
  · cases h
    exact .inl (by dsimp only; omega)
  · cases h
    exact .inr ⟨haccept, List.length_append⟩

/-- What bounds the buffer: between characters 13 bytes are free, and within one there is room for the
bytes that are still to come. -/
def Bounded (e : Escaping) : Prop :=
  ∃ rs ∈ pendings, e.state = stateOf rs ∧ (rs = [] → e.stringBuffer.length ≤ 499) ∧
    e.stringBuffer.length + rs.length ≤ 503

/-- Every pass keeps the bound. -/
theorem Bounded.step {e e' : Escaping} (hb : Bounded e) {i : ℕ} {byte : UInt8}
    (h : e.step i byte = .ok e') : Bounded e' := by
  obtain ⟨rs, hrs, he, hnil, hlen⟩ := hb
  have hthree : ∀ rs ∈ pendings, rs.length ≤ 3 := by decide
  -- The ranges that are to come after this byte, one less than before within a character.
  obtain ⟨rs', hrs', hdec, hless⟩ : ∃ rs' ∈ pendings,
      (decode e.state e.codepoint byte).1 = stateOf rs' ∧ (rs ≠ [] → rs'.length + 1 = rs.length) := by
    have hdec := decode_state hrs e.codepoint byte
    rw [← he] at hdec
    cases hnext : next rs byte with
    | none =>
      rw [hnext] at hdec
      rw [step_error hdec] at h
      cases h
    | some rs' =>
      rw [hnext] at hdec
      refine ⟨rs', mem_pendings_of_next hrs hnext, hdec, fun hne => ?_⟩
      obtain ⟨r, rs, rfl⟩ := List.exists_cons_of_ne_nil hne
      rw [next] at hnext
      split_ifs at hnext
      cases hnext
      rfl
  obtain ⟨e₁, hstep, hst, -⟩ := step_ok hrs' hdec i
  rw [hstep] at h
  cases h
  have h3 := hthree rs' hrs'
  rcases step_length hstep with hfree | ⟨hne, hone⟩
  · exact ⟨rs', hrs', hst, fun _ => hfree, by omega⟩
  · rw [hst, ne_eq, stateOf_eq_accept_iff hrs'] at hne
    refine ⟨rs', hrs', hst, fun h => absurd h hne, ?_⟩
    by_cases hrs_nil : rs = []
    · have := hnil hrs_nil
      omega
    · have := hless hrs_nil
      omega

/-- The whole loop keeps the bound. -/
theorem Bounded.loop {e e' : Escaping} (hb : Bounded e) {i : ℕ} {s : List UInt8}
    (h : e.loop i s = .ok e') : Bounded e' := by
  induction s generalizing e i with
  | nil =>
    cases h
    exact hb
  | cons byte s ih =>
    rw [Escaping.loop] at h
    split at h
    · cases h
    · rename_i e₁ hstep
      exact ih (hb.step hstep) h

/-- A pass writes at most six bytes, and `snprintf` a NUL after them. -/
theorem length_escapeBytes_le (codepoint : UInt32) (byte : UInt8) :
    (escapeBytes codepoint byte).length ≤ 6 := by
  unfold escapeBytes
  split_ifs <;> simp

/-- No pass writes past the end of the buffer, whatever the string is. -/
theorem stringBuffer_in_bounds (s : List UInt8) {e : Escaping}
    (h : Escaping.start.loop 0 s = .ok e) (byte : UInt8) :
    e.stringBuffer.length +
      ((escapeBytes (decode e.state e.codepoint byte).2 byte).length + 1) ≤ 512 := by
  have hstart : Bounded Escaping.start := ⟨[], by decide, rfl, fun _ => by decide, by decide⟩
  obtain ⟨rs, -, -, -, hlen⟩ := hstart.loop h
  have := length_escapeBytes_le (decode e.state e.codepoint byte).2 byte
  omega

/-- The bound holds after the first byte of a character of two. -/
theorem stringBuffer_in_bounds_first : ∃ e : Escaping, Escaping.start.loop 0 [0xC3] = .ok e ∧
    e.stringBuffer.length +
      ((escapeBytes (decode e.state e.codepoint 0xA9).2 0xA9).length + 1) ≤ 512 := by
  obtain ⟨e, h⟩ : ∃ e : Escaping, Escaping.start.loop 0 [0xC3] = .ok e := ⟨_, rfl⟩
  exact ⟨e, h, stringBuffer_in_bounds [0xC3] h 0xA9⟩

end Typhoon.Json
