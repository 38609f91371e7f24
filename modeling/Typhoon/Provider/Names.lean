import Typhoon.Library.CString

/-!
# The names of a certificate

`verify_subject_alternative_name` and `verify_common_name` of `src/provider/provider.cpp`, over what
they read of a certificate: the list of its subject alternative names and the entries of its subject.

The loop over the alternative names skips the names of other types, stops at a DNS name with an
embedded NUL, and assigns its result anew at every DNS name that it compares. So its answer is that of
the last name compared (`sanNamesLoop_eq`). It accepts no host that is not named
(`sanMatch_of_verify`), and it accepts a named host exactly when no other name is compared after the
last one that matches (`verify_subject_alternative_name_iff`).
-/

namespace Typhoon.Provider

open CString (EqIgnoreCase strcasecmp)

/-- The types of a `GENERAL_NAME`. -/
inductive GeneralNameType
  | GEN_OTHERNAME
  | GEN_EMAIL
  | GEN_DNS
  | GEN_X400
  | GEN_DIRNAME
  | GEN_EDIPARTY
  | GEN_URI
  | GEN_IPADD
  | GEN_RID
  deriving DecidableEq

/-- A `GENERAL_NAME`: its type and the bytes of its value. -/
structure GeneralName where
  type : GeneralNameType
  d : List UInt8

/-- An `X509_NAME_ENTRY`: the NID of its field and the bytes of its data, `none` when it has no data. -/
structure NameEntry where
  nid : ℕ
  data : Option (List UInt8)

/-- What is read of an `X509` certificate: its subject alternative names, `none` when it has no such
extension, and the entries of its subject. -/
structure X509 where
  subject_alt_name : Option (List GeneralName)
  subject_name : List NameEntry

/-- The loop over the subject alternative names, from a value of `result` on. -/
def sanNamesLoop (hostname : CString) (result : Bool) : List GeneralName → Bool
  | [] => result
  | current_name :: san_names =>
    -- `continue`
    if current_name.type ≠ .GEN_DNS then
      sanNamesLoop hostname result san_names
    -- `break`
    else if current_name.d.length ≠ (CString.ofData current_name.d).strlen then
      result
    -- The result of an earlier name is overwritten.
    else
      sanNamesLoop hostname (strcasecmp hostname (CString.ofData current_name.d) = 0) san_names

/-- `verify_subject_alternative_name`. -/
def verifySubjectAlternativeName (hostname : CString) (cert : X509) : Bool :=
  match cert.subject_alt_name with
  | none => false
  | some san_names => sanNamesLoop hostname false san_names

/-- `NID_commonName`. -/
def NID_commonName : ℕ := 13

/-- `X509_NAME_get_index_by_NID` from the start of a name: the index of the first entry of a field, or
-1. -/
def getIndexByNID (name : List NameEntry) (nid : ℕ) : ℤ :=
  match name.findIdx? (·.nid = nid) with
  | some loc => loc
  | none => -1

/-- `verify_common_name`. -/
def verifyCommonName (hostname : CString) (cert : X509) : Bool :=
  let common_name_loc := getIndexByNID cert.subject_name NID_commonName
  if common_name_loc < 0 then false
  else
    match cert.subject_name[common_name_loc.toNat]? with
    | none => false
    | some common_name_entry =>
      match common_name_entry.data with
      | none => false
      | some common_name_asn1 =>
        if common_name_asn1.length ≠ (CString.ofData common_name_asn1).strlen then false
        else strcasecmp hostname (CString.ofData common_name_asn1) = 0

/-- A list of alternative names that names a host: a DNS name in it has no embedded NUL and equals the
host when ASCII case is ignored, and no DNS name before it has an embedded NUL. -/
def SanMatch (hostname : CString) (names : List GeneralName) : Prop :=
  ∃ pre name post, names = pre ++ name :: post ∧ name.type = .GEN_DNS ∧ 0 ∉ name.d ∧
    EqIgnoreCase hostname.bytes name.d ∧ ∀ name' ∈ pre, name'.type = .GEN_DNS → 0 ∉ name'.d

/-- A subject whose common name, the first entry of that field, names a host. -/
def CommonNameMatch (hostname : CString) (subject : List NameEntry) : Prop :=
  ∃ entry data, subject.find? (·.nid = NID_commonName) = some entry ∧ entry.data = some data ∧
    0 ∉ data ∧ EqIgnoreCase hostname.bytes data

/-- The subject alternative names of a certificate. -/
def X509.names (cert : X509) : List GeneralName := cert.subject_alt_name.getD []

/-- The DNS names of a list that come before the first one with an embedded NUL. -/
def wellFormed (names : List GeneralName) : List (List UInt8) :=
  ((names.filter (·.type = .GEN_DNS)).map GeneralName.d).takeWhile (0 ∉ ·)

/-- A name of another type is skipped. -/
theorem wellFormed_cons_other {name : GeneralName} (h : name.type ≠ .GEN_DNS)
    (names : List GeneralName) : wellFormed (name :: names) = wellFormed names := by
  simp [wellFormed, h]

/-- A DNS name with an embedded NUL is the end. -/
theorem wellFormed_cons_nul {name : GeneralName} (h : name.type = .GEN_DNS) (h0 : 0 ∈ name.d)
    (names : List GeneralName) : wellFormed (name :: names) = [] := by
  simp [wellFormed, h, h0]

/-- A DNS name without an embedded NUL is one of the list. -/
theorem wellFormed_cons_dns {name : GeneralName} (h : name.type = .GEN_DNS) (h0 : 0 ∉ name.d)
    (names : List GeneralName) : wellFormed (name :: names) = name.d :: wellFormed names := by
  simp [wellFormed, h, h0]

/-- The loop compares data without an embedded NUL as a whole. -/
theorem strcasecmp_ofData_iff (hostname : CString) {data : List UInt8} (h0 : 0 ∉ data) :
    strcasecmp hostname (CString.ofData data) = 0 ↔ EqIgnoreCase hostname.bytes data := by
  rw [CString.strcasecmp_eq_zero_iff, CString.bytes_ofData h0]

/-- The loop answers with the last name compared. -/
theorem sanNamesLoop_eq (hostname : CString) (result : Bool) (names : List GeneralName) :
    sanNamesLoop hostname result names =
      ((wellFormed names).map fun d => decide (EqIgnoreCase hostname.bytes d)).getLastD result := by
  induction names generalizing result with
  | nil => rfl
  | cons name names ih =>
    unfold sanNamesLoop
    by_cases htype : name.type = .GEN_DNS
    · rw [if_neg (not_not.2 htype)]
      by_cases h0 : 0 ∈ name.d
      -- The loop stops here, and so do the names that it compares.
      · have hlen := mt (CString.length_eq_strlen_iff name.d).1 (not_not.2 h0)
        rw [if_pos hlen, wellFormed_cons_nul htype h0]
        rfl
      · have hlen := (CString.length_eq_strlen_iff name.d).2 h0
        rw [if_neg (not_not.2 hlen), ih, wellFormed_cons_dns htype h0, List.map_cons,
          List.getLastD_cons]
        simp only [strcasecmp_ofData_iff hostname h0]
    · rw [if_pos htype, ih, wellFormed_cons_other htype]

/-- `verify_subject_alternative_name` accepts exactly when the last name that it compares matches. -/
theorem verifySubjectAlternativeName_eq_true (hostname : CString) (cert : X509) :
    verifySubjectAlternativeName hostname cert = true ↔
      ∃ d ∈ (wellFormed cert.names).getLast?, EqIgnoreCase hostname.bytes d := by
  have hloop : verifySubjectAlternativeName hostname cert = sanNamesLoop hostname false cert.names := by
    unfold verifySubjectAlternativeName X509.names
    cases cert.subject_alt_name <;> rfl
  rw [hloop, sanNamesLoop_eq, List.getLastD_eq_getLast?, List.getLast?_map]
  cases (wellFormed cert.names).getLast? <;> simp

/-- A list that names no host: there is no name in it. -/
theorem not_sanMatch_nil (hostname : CString) : ¬ SanMatch hostname [] := by
  rintro ⟨pre, name, post, h, -⟩
  exact List.cons_ne_nil _ _ (List.append_eq_nil_iff.1 h.symm).2

/-- A list names a host by its first name, or by a later one that its first name does not hide. -/
theorem sanMatch_cons (hostname : CString) (name : GeneralName) (names : List GeneralName) :
    SanMatch hostname (name :: names) ↔
      (name.type = .GEN_DNS ∧ 0 ∉ name.d ∧ EqIgnoreCase hostname.bytes name.d) ∨
        ((name.type = .GEN_DNS → 0 ∉ name.d) ∧ SanMatch hostname names) := by
  constructor
  · rintro ⟨pre, x, post, h, htype, h0, heq, hpre⟩
    cases pre with
    | nil =>
      obtain ⟨rfl, -⟩ := List.cons.inj h
      exact .inl ⟨htype, h0, heq⟩
    | cons y pre =>
      obtain ⟨rfl, rfl⟩ := List.cons.inj h
      refine .inr ⟨hpre name List.mem_cons_self, pre, x, post, rfl, htype, h0, heq, ?_⟩
      exact fun y hy => hpre y (List.mem_cons_of_mem _ hy)
  · rintro (⟨htype, h0, heq⟩ | ⟨hname, pre, x, post, rfl, htype, h0, heq, hpre⟩)
    · exact ⟨[], name, names, rfl, htype, h0, heq, fun y hy => absurd hy List.not_mem_nil⟩
    · refine ⟨name :: pre, x, post, rfl, htype, h0, heq, fun y hy => ?_⟩
      rcases List.mem_cons.1 hy with rfl | hy
      · exact hname
      · exact hpre y hy

/-- A list names a host exactly when a DNS name before the first malformed one matches. -/
theorem sanMatch_iff (hostname : CString) (names : List GeneralName) :
    SanMatch hostname names ↔ ∃ d ∈ wellFormed names, EqIgnoreCase hostname.bytes d := by
  induction names with
  | nil =>
    apply iff_of_false (not_sanMatch_nil hostname)
    rintro ⟨d, hd, -⟩
    exact absurd hd List.not_mem_nil
  | cons name names ih =>
    rw [sanMatch_cons, ih]
    by_cases htype : name.type = .GEN_DNS
    · by_cases h0 : 0 ∈ name.d
      · simp [wellFormed_cons_nul htype h0, htype, h0]
      · simp [wellFormed_cons_dns htype h0, htype, h0]
    · simp [wellFormed_cons_other htype, htype]

/-- A host that is not named is never accepted. -/
theorem sanMatch_of_verify {hostname : CString} {cert : X509}
    (h : verifySubjectAlternativeName hostname cert = true) : SanMatch hostname cert.names := by
  obtain ⟨d, hd, heq⟩ := (verifySubjectAlternativeName_eq_true hostname cert).1 h
  exact (sanMatch_iff hostname cert.names).2 ⟨d, List.mem_of_getLast? hd, heq⟩

/-- `verify_subject_alternative_name` accepts exactly the named hosts on the certificates on which the
last DNS name before the first malformed one matches if any of them does. -/
theorem verify_subject_alternative_name_iff (hostname : CString) (cert : X509) :
    (verifySubjectAlternativeName hostname cert = true ↔ SanMatch hostname cert.names) ↔
      ((∃ d ∈ wellFormed cert.names, EqIgnoreCase hostname.bytes d) →
        ∃ d ∈ (wellFormed cert.names).getLast?, EqIgnoreCase hostname.bytes d) := by
  rw [← sanMatch_iff, ← verifySubjectAlternativeName_eq_true]
  exact ⟨fun h => h.2, fun h => ⟨sanMatch_of_verify, h⟩⟩

/-- The host `a` and a certificate that names `a` and then `b`. -/
theorem not_verify_subject_alternative_name_first :
    ¬ (verifySubjectAlternativeName ⟨[97], by decide⟩
        ⟨some [⟨.GEN_DNS, [97]⟩, ⟨.GEN_DNS, [98]⟩], []⟩ = true ↔
      SanMatch ⟨[97], by decide⟩ [⟨.GEN_DNS, [97]⟩, ⟨.GEN_DNS, [98]⟩]) := by
  intro h
  have hmatch : SanMatch ⟨[97], by decide⟩ [⟨.GEN_DNS, [97]⟩, ⟨.GEN_DNS, [98]⟩] :=
    ⟨[], _, _, rfl, rfl, by decide, rfl, fun x hx => absurd hx List.not_mem_nil⟩
  exact absurd (h.2 hmatch) (by decide)

/-- The index of a field is negative when the name has no such entry, and that of the first such entry
otherwise. -/
theorem getIndexByNID_cases (name : List NameEntry) (nid : ℕ) :
    (getIndexByNID name nid < 0 ∧ name.find? (·.nid = nid) = none) ∨
      ∃ entry, 0 ≤ getIndexByNID name nid ∧ name[(getIndexByNID name nid).toNat]? = some entry ∧
        name.find? (·.nid = nid) = some entry := by
  unfold getIndexByNID
  cases hfind : name.find? (·.nid = nid) with
  | none =>
    have hidx : name.findIdx? (·.nid = nid) = none := by
      rw [List.findIdx?_eq_none_iff]
      intro entry hentry
      simpa using List.find?_eq_none.1 hfind entry hentry
    rw [hidx]
    exact .inl ⟨by decide, rfl⟩
  | some entry =>
    have hnid := List.find?_some hfind
    have hidx := List.findIdx?_eq_some_of_exists (p := fun e : NameEntry => e.nid = nid)
      ⟨entry, List.mem_of_find?_eq_some hfind, hnid⟩
    have hget := hfind
    rw [List.find?_eq_getElem?_findIdx] at hget
    rw [hidx]
    exact .inr ⟨entry, Int.natCast_nonneg _, hget, rfl⟩

/-- `verify_common_name` accepts exactly when the common name of the subject names the host. -/
theorem verifyCommonName_iff (hostname : CString) (cert : X509) :
    verifyCommonName hostname cert = true ↔ CommonNameMatch hostname cert.subject_name := by
  unfold verifyCommonName CommonNameMatch
  rcases getIndexByNID_cases cert.subject_name NID_commonName with
    ⟨hloc, hfind⟩ | ⟨entry, hloc, hget, hfind⟩
  · simp [hloc, hfind]
  · simp only [if_neg (show ¬ getIndexByNID cert.subject_name NID_commonName < 0 by omega), hget,
      hfind]
    cases hdata : entry.data with
    | none => simp [hdata]
    | some data =>
      by_cases h0 : 0 ∈ data
      · have hlen := mt (CString.length_eq_strlen_iff data).1 (not_not.2 h0)
        simp [hdata, hlen, h0]
      · have hlen := (CString.length_eq_strlen_iff data).2 h0
        simp [hdata, ← hlen, h0, strcasecmp_ofData_iff hostname h0]

end Typhoon.Provider
