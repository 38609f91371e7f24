import Mathlib.Data.Fin.Basic
import Mathlib.Data.List.GetD
import Typhoon.Library.BigEndian

/-!
# Frame headers

The headers of the frames on a WebSocket connection, from `websocketpp/frame.hpp`: two bytes with flags, the
opcode and a short length, and then a longer length and a masking key where there are such. A header that is
written is read back (`getPayloadSize_construct`, `getMaskingKey_construct`).
-/

namespace Typhoon.WebSocket

/-! ## Opcodes -/

/-- `opcode::value`. -/
inductive Opcode
  | continuation
  | text
  | binary
  | rsv3
  | rsv4
  | rsv5
  | rsv6
  | rsv7
  | close
  | ping
  | pong
  | controlRsvb
  | controlRsvc
  | controlRsvd
  | controlRsve
  | controlRsvf
  deriving DecidableEq

namespace Opcode

/-- The number of an opcode. -/
def value : Opcode → UInt8
  | continuation => 0x0
  | text => 0x1
  | binary => 0x2
  | rsv3 => 0x3
  | rsv4 => 0x4
  | rsv5 => 0x5
  | rsv6 => 0x6
  | rsv7 => 0x7
  | close => 0x8
  | ping => 0x9
  | pong => 0xA
  | controlRsvb => 0xB
  | controlRsvc => 0xC
  | controlRsvd => 0xD
  | controlRsve => 0xE
  | controlRsvf => 0xF

/-- The opcode with a number of four bits. -/
def ofValue (v : UInt8) : Opcode :=
  match v.toNat with
  | 0x0 => continuation
  | 0x1 => text
  | 0x2 => binary
  | 0x3 => rsv3
  | 0x4 => rsv4
  | 0x5 => rsv5
  | 0x6 => rsv6
  | 0x7 => rsv7
  | 0x8 => close
  | 0x9 => ping
  | 0xA => pong
  | 0xB => controlRsvb
  | 0xC => controlRsvc
  | 0xD => controlRsvd
  | 0xE => controlRsve
  | _ => controlRsvf

/-- `opcode::reserved`. -/
def reserved (v : Opcode) : Bool :=
  (rsv3.value ≤ v.value && v.value ≤ rsv7.value) ||
    (controlRsvb.value ≤ v.value && v.value ≤ controlRsvf.value)

/-- `opcode::invalid`. -/
def invalid (v : Opcode) : Bool := 0xF < v.value

/-- `opcode::is_control`. -/
def isControl (v : Opcode) : Bool := 0x8 ≤ v.value

end Opcode

/-! ## The basic header -/

/-- `basic_header`. -/
structure BasicHeader where
  b0 : UInt8
  b1 : UInt8
  deriving DecidableEq

/-- `limits::payload_size_basic`. -/
abbrev payloadSizeBasic : ℕ := 125

/-- `limits::payload_size_extended`. -/
abbrev payloadSizeExtended : ℕ := 0xFFFF

/-- `payload_size_code_16bit`. -/
abbrev payloadSizeCode16bit : UInt8 := 0x7E

/-- `payload_size_code_64bit`. -/
abbrev payloadSizeCode64bit : UInt8 := 0x7F

/-- The length in a basic header for a payload of some size. -/
def basicValue (size : ℕ) : UInt8 :=
  if size ≤ payloadSizeBasic then UInt8.ofNat size
  else if size ≤ payloadSizeExtended then payloadSizeCode16bit
  else payloadSizeCode64bit

namespace BasicHeader

/-- The constructor from the fields of a header. -/
def construct (op : Opcode) (size : ℕ) (fin mask rsv1 rsv2 rsv3 : Bool) : BasicHeader where
  b0 := (if fin then 0x80 else 0) ||| (if rsv1 then 0x40 else 0) ||| (if rsv2 then 0x20 else 0) |||
    (if rsv3 then 0x10 else 0) ||| (op.value &&& 0x0F)
  b1 := (if mask then 0x80 else 0) ||| basicValue size

/-- `get_fin`. -/
def getFin (h : BasicHeader) : Bool := h.b0 &&& 0x80 == 0x80

/-- `get_rsv1`. -/
def getRsv1 (h : BasicHeader) : Bool := h.b0 &&& 0x40 == 0x40

/-- `get_rsv2`. -/
def getRsv2 (h : BasicHeader) : Bool := h.b0 &&& 0x20 == 0x20

/-- `get_rsv3`. -/
def getRsv3 (h : BasicHeader) : Bool := h.b0 &&& 0x10 == 0x10

/-- `get_opcode`. -/
def getOpcode (h : BasicHeader) : Opcode := .ofValue (h.b0 &&& 0x0F)

/-- `get_masked`. -/
def getMasked (h : BasicHeader) : Bool := h.b1 &&& 0x80 == 0x80

/-- `get_basic_size`. -/
def getBasicSize (h : BasicHeader) : UInt8 := h.b1 &&& 0x7F

/-- `get_masking_key_offset`. -/
def getMaskingKeyOffset (h : BasicHeader) : ℕ :=
  if h.getBasicSize = payloadSizeCode16bit then 2
  else if h.getBasicSize = payloadSizeCode64bit then 8
  else 0

/-- `get_header_len`. -/
def getHeaderLen (h : BasicHeader) : ℕ := 2 + h.getMaskingKeyOffset + if h.getMasked then 4 else 0

end BasicHeader

/-! ## The extended header -/

/-- `masking_key_type`, in the order of its bytes in memory. -/
abbrev MaskingKey := Fin 4 → UInt8

/-- `extended_header`: the first of its 12 bytes. Those that are not listed are 0. -/
structure ExtendedHeader where
  bytes : List UInt8
  deriving DecidableEq

namespace ExtendedHeader

/-- The byte at an index. -/
def byte (e : ExtendedHeader) (i : ℕ) : UInt8 := e.bytes.getD i 0

/-- `copy_payload`. -/
def copyPayload (payloadSize : ℕ) : List UInt8 :=
  (BigEndian.toBytes 8 payloadSize).drop
    (if payloadSize ≤ payloadSizeBasic then 8 else if payloadSize ≤ payloadSizeExtended then 6 else 0)

/-- The constructors from a payload size, and a masking key if there is one. -/
def construct (payloadSize : ℕ) (maskingKey : Option MaskingKey) : ExtendedHeader where
  bytes := copyPayload payloadSize ++ maskingKey.elim [] List.ofFn

/-- `get_extended_size`. -/
def getExtendedSize (e : ExtendedHeader) : ℕ := BigEndian.ofBytes [e.byte 0, e.byte 1]

/-- `get_jumbo_size`. -/
def getJumboSize (e : ExtendedHeader) : ℕ :=
  BigEndian.ofBytes [e.byte 0, e.byte 1, e.byte 2, e.byte 3, e.byte 4, e.byte 5, e.byte 6, e.byte 7]

end ExtendedHeader

/-- `get_payload_size`. -/
def getPayloadSize (h : BasicHeader) (e : ExtendedHeader) : ℕ :=
  if h.getBasicSize.toNat ≤ payloadSizeBasic then h.getBasicSize.toNat
  else if h.getBasicSize = payloadSizeCode16bit then e.getExtendedSize
  else e.getJumboSize

/-- `get_masking_key`. -/
def getMaskingKey (h : BasicHeader) (e : ExtendedHeader) : MaskingKey :=
  if h.getMasked then fun i => e.byte (h.getMaskingKeyOffset + i) else fun _ => 0

/-- `prepare_header`. -/
def prepareHeader (h : BasicHeader) (e : ExtendedHeader) : List UInt8 :=
  h.b0 :: h.b1 :: (List.range (h.getHeaderLen - 2)).map e.byte

/-! ## Masking -/

/-- What `prepare_masking_key` returns: a word with the four bytes of a key twice, of which the model keeps
the four. -/
structure PreparedKey where
  key : MaskingKey

/-- `prepare_masking_key`. -/
def prepareMaskingKey (key : MaskingKey) : PreparedKey := ⟨key⟩

/-- `circshift_prepared_key`, which moves the bytes of the word in memory. -/
def circshiftPreparedKey (preparedKey : PreparedKey) (offset : ℕ) : PreparedKey :=
  ⟨fun i => preparedKey.key (i + Fin.ofNat 4 offset)⟩

/-- `byte_mask`. -/
def byteMask (input : List UInt8) (key : MaskingKey) : List UInt8 :=
  input.mapIdx fun i b => b ^^^ key (Fin.ofNat 4 i)

/-- `byte_mask_circ`: the output, and the key for the bytes after it. -/
def byteMaskCirc (input : List UInt8) (preparedKey : PreparedKey) : List UInt8 × PreparedKey :=
  (byteMask input preparedKey.key, circshiftPreparedKey preparedKey (input.length % 4))

/-! ## Reading what is written -/

namespace BasicHeader

/-- The flags and the opcode of a header that is written. -/
theorem flags_construct (op : Opcode) (size : ℕ) (fin mask rsv1 rsv2 rsv3 : Bool) :
    let h := construct op size fin mask rsv1 rsv2 rsv3
    h.getFin = fin ∧ h.getRsv1 = rsv1 ∧ h.getRsv2 = rsv2 ∧ h.getRsv3 = rsv3 ∧ h.getOpcode = op := by
  dsimp only [construct, getFin, getRsv1, getRsv2, getRsv3, getOpcode]
  clear mask size
  revert fin rsv1 rsv2 rsv3
  cases op <;> decide

/-- `get_fin` gives back the flag of a header that is written. -/
@[simp] theorem getFin_construct (op : Opcode) (size : ℕ) (fin mask rsv1 rsv2 rsv3 : Bool) :
    (construct op size fin mask rsv1 rsv2 rsv3).getFin = fin := (flags_construct ..).1

/-- `get_rsv1` gives back the flag of a header that is written. -/
@[simp] theorem getRsv1_construct (op : Opcode) (size : ℕ) (fin mask rsv1 rsv2 rsv3 : Bool) :
    (construct op size fin mask rsv1 rsv2 rsv3).getRsv1 = rsv1 := (flags_construct ..).2.1

/-- `get_rsv2` gives back the flag of a header that is written. -/
@[simp] theorem getRsv2_construct (op : Opcode) (size : ℕ) (fin mask rsv1 rsv2 rsv3 : Bool) :
    (construct op size fin mask rsv1 rsv2 rsv3).getRsv2 = rsv2 := (flags_construct ..).2.2.1

/-- `get_rsv3` gives back the flag of a header that is written. -/
@[simp] theorem getRsv3_construct (op : Opcode) (size : ℕ) (fin mask rsv1 rsv2 rsv3 : Bool) :
    (construct op size fin mask rsv1 rsv2 rsv3).getRsv3 = rsv3 := (flags_construct ..).2.2.2.1

/-- `get_opcode` gives back the opcode of a header that is written. -/
@[simp] theorem getOpcode_construct (op : Opcode) (size : ℕ) (fin mask rsv1 rsv2 rsv3 : Bool) :
    (construct op size fin mask rsv1 rsv2 rsv3).getOpcode = op := (flags_construct ..).2.2.2.2

/-- The length in a header takes seven bits. -/
theorem exists_basicValue (size : ℕ) : ∃ v : Fin 128, basicValue size = UInt8.ofNat v := by
  unfold basicValue
  split_ifs with hbasic
  · exact ⟨⟨size, hbasic.trans_lt (by decide)⟩, rfl⟩
  · exact ⟨126, rfl⟩
  · exact ⟨127, rfl⟩

/-- `get_masked` gives back the flag of a header that is written. -/
@[simp] theorem getMasked_construct (op : Opcode) (size : ℕ) (fin mask rsv1 rsv2 rsv3 : Bool) :
    (construct op size fin mask rsv1 rsv2 rsv3).getMasked = mask := by
  obtain ⟨v, hv⟩ := exists_basicValue size
  dsimp only [construct, getMasked]
  rw [hv]
  clear hv
  revert mask v
  decide +kernel

/-- `get_basic_size` gives back the length in a header that is written. -/
@[simp] theorem getBasicSize_construct (op : Opcode) (size : ℕ) (fin mask rsv1 rsv2 rsv3 : Bool) :
    (construct op size fin mask rsv1 rsv2 rsv3).getBasicSize = basicValue size := by
  obtain ⟨v, hv⟩ := exists_basicValue size
  dsimp only [construct, getBasicSize]
  rw [hv]
  clear hv
  revert mask v
  decide +kernel

end BasicHeader

/-- The bytes of an extended header that is written. -/
theorem ExtendedHeader.bytes_construct (size : ℕ) (key : Option MaskingKey) :
    (construct size key).bytes = copyPayload size ++ key.elim [] List.ofFn := rfl

/-- A payload size is written in the basic header, in two bytes more, or in eight. -/
theorem size_cases (size : ℕ) :
    (size ≤ 125 ∧ basicValue size = UInt8.ofNat size ∧ ExtendedHeader.copyPayload size = []) ∨
    (125 < size ∧ size ≤ 0xFFFF ∧ basicValue size = payloadSizeCode16bit ∧
      ExtendedHeader.copyPayload size = BigEndian.toBytes 2 size) ∨
    (0xFFFF < size ∧ basicValue size = payloadSizeCode64bit ∧
      ExtendedHeader.copyPayload size = BigEndian.toBytes 8 size) := by
  unfold basicValue ExtendedHeader.copyPayload
  by_cases hbasic : size ≤ payloadSizeBasic
  · exact .inl ⟨hbasic, if_pos hbasic, by rw [if_pos hbasic]; rfl⟩
  by_cases hext : size ≤ payloadSizeExtended
  · refine .inr (.inl ⟨not_le.1 hbasic, hext, by rw [if_neg hbasic, if_pos hext], ?_⟩)
    rw [if_neg hbasic, if_pos hext]
    exact BigEndian.drop_toBytes 6 2 size
  · refine .inr (.inr ⟨not_le.1 hext, by rw [if_neg hbasic, if_neg hext], ?_⟩)
    rw [if_neg hbasic, if_neg hext, List.drop_zero]

section Written

variable (op : Opcode) {size : ℕ} (fin rsv1 rsv2 rsv3 : Bool) (key : Option MaskingKey)

/-- The offset of the masking key in a header that is written is the length of the payload size. -/
theorem getMaskingKeyOffset_construct (mask : Bool) :
    (BasicHeader.construct op size fin mask rsv1 rsv2 rsv3).getMaskingKeyOffset =
      (ExtendedHeader.copyPayload size).length := by
  rw [BasicHeader.getMaskingKeyOffset, BasicHeader.getBasicSize_construct]
  rcases size_cases size with ⟨hle, hb, hc⟩ | ⟨-, -, hb, hc⟩ | ⟨-, hb, hc⟩
  · have hsmall : (UInt8.ofNat size).toNat = size :=
      UInt8.toNat_ofNat'.trans (Nat.mod_eq_of_lt (by omega))
    have hne : ∀ code : UInt8, 125 < code.toNat → UInt8.ofNat size ≠ code := by
      rintro code hcode rfl
      omega
    rw [hb, hc, if_neg (hne _ (by decide)), if_neg (hne _ (by decide))]
    rfl
  · rw [hb, hc, if_pos rfl, BigEndian.length_toBytes]
  · rw [hb, hc, if_neg (by decide), if_pos rfl, BigEndian.length_toBytes]

/-- The extended header that is written takes the bytes that the basic header tells. -/
theorem length_bytes_construct :
    (ExtendedHeader.construct size key).bytes.length =
      (BasicHeader.construct op size fin key.isSome rsv1 rsv2 rsv3).getHeaderLen - 2 := by
  rw [BasicHeader.getHeaderLen, getMaskingKeyOffset_construct, BasicHeader.getMasked_construct,
    ExtendedHeader.bytes_construct, List.length_append]
  cases key with
  | none => simp
  | some key => simp; omega

/-- The bytes that are listed in an extended header are all that the basic header asks for. -/
theorem prepareHeader_construct :
    prepareHeader (BasicHeader.construct op size fin key.isSome rsv1 rsv2 rsv3)
        (ExtendedHeader.construct size key) =
      (BasicHeader.construct op size fin key.isSome rsv1 rsv2 rsv3).b0 ::
        (BasicHeader.construct op size fin key.isSome rsv1 rsv2 rsv3).b1 ::
          (ExtendedHeader.construct size key).bytes := by
  rw [prepareHeader, ← length_bytes_construct]
  congr 2
  apply List.ext_getElem
  · rw [List.length_map, List.length_range]
  · intro i _ hi
    rw [List.getElem_map, List.getElem_range, ExtendedHeader.byte, List.getD_eq_getElem _ _ hi]

/-- The payload size in a header that is written. -/
theorem getPayloadSize_construct (hsize : size < 2 ^ 64) (mask : Bool) :
    getPayloadSize (BasicHeader.construct op size fin mask rsv1 rsv2 rsv3)
      (ExtendedHeader.construct size key) = size := by
  rw [getPayloadSize, BasicHeader.getBasicSize_construct]
  rcases size_cases size with ⟨hle, hb, -⟩ | ⟨hlt, hle, hb, hc⟩ | ⟨hlt, hb, hc⟩
  · have hsmall : (UInt8.ofNat size).toNat = size :=
      UInt8.toNat_ofNat'.trans (Nat.mod_eq_of_lt (by omega))
    rw [hb, hsmall, if_pos hle]
  · rw [hb, if_neg (by decide), if_pos rfl]
    have hbytes : BigEndian.ofBytes (BigEndian.toBytes 2 size) = size :=
      BigEndian.ofBytes_toBytes_of_lt (by omega)
    simp only [ExtendedHeader.getExtendedSize, ExtendedHeader.byte, ExtendedHeader.bytes_construct, hc]
    exact hbytes
  · rw [hb, if_neg (by decide), if_neg (by decide)]
    have hbytes : BigEndian.ofBytes (BigEndian.toBytes 8 size) = size :=
      BigEndian.ofBytes_toBytes_of_lt (by omega)
    simp only [ExtendedHeader.getJumboSize, ExtendedHeader.byte, ExtendedHeader.bytes_construct, hc]
    exact hbytes

/-- The masking key in a header that is written. -/
theorem getMaskingKey_construct :
    getMaskingKey (BasicHeader.construct op size fin key.isSome rsv1 rsv2 rsv3)
      (ExtendedHeader.construct size key) = key.getD fun _ => 0 := by
  rw [getMaskingKey, BasicHeader.getMasked_construct, getMaskingKeyOffset_construct]
  cases key with
  | none => rfl
  | some key =>
    funext i
    rw [Option.isSome_some, if_pos rfl, ExtendedHeader.byte,
      ExtendedHeader.bytes_construct, List.getD_append_right _ _ _ _ (Nat.le_add_right _ _),
      Nat.add_sub_cancel_left]
    have hi : (i : ℕ) < (List.ofFn key).length := List.length_ofFn.symm ▸ i.isLt
    exact (List.getD_eq_getElem _ _ hi).trans (List.getElem_ofFn hi)

end Written

/-! ## Masking in pieces -/

/-- Masking keeps the length. -/
@[simp] theorem length_byteMask (input : List UInt8) (key : MaskingKey) :
    (byteMask input key).length = input.length := List.length_mapIdx

/-- Masking twice gives the bytes back. -/
theorem byteMask_byteMask (input : List UInt8) (key : MaskingKey) :
    byteMask (byteMask input key) key = input := by
  apply List.ext_getElem
  · rw [length_byteMask, length_byteMask]
  · intro i _ hi
    simp only [byteMask, List.getElem_mapIdx]
    rw [UInt8.xor_assoc, UInt8.xor_self, UInt8.xor_zero]

/-- Masking no bytes leaves the key. -/
theorem byteMaskCirc_nil (k : PreparedKey) : byteMaskCirc [] k = ([], k) := by
  simp [byteMaskCirc, byteMask, circshiftPreparedKey]

/-- Bytes that are masked in two pieces, the second with the key that is left after the first. -/
theorem byteMaskCirc_append (a b : List UInt8) (k : PreparedKey) :
    byteMaskCirc (a ++ b) k = ((byteMaskCirc a k).1 ++ (byteMaskCirc b (byteMaskCirc a k).2).1,
      (byteMaskCirc b (byteMaskCirc a k).2).2) := by
  have hcast : ∀ n : ℕ, Fin.ofNat 4 (n + a.length) = Fin.ofNat 4 n + Fin.ofNat 4 (a.length % 4) := by
    intro n
    ext
    simp only [Fin.ofNat, Fin.val_add]
    omega
  have hlength : ∀ i : Fin 4, i + Fin.ofNat 4 ((a.length + b.length) % 4) =
      i + Fin.ofNat 4 (b.length % 4) + Fin.ofNat 4 (a.length % 4) := by
    intro i
    ext
    simp only [Fin.ofNat, Fin.val_add]
    omega
  simp only [byteMaskCirc, byteMask, circshiftPreparedKey, List.mapIdx_append, List.length_append, hcast,
    hlength]

end Typhoon.WebSocket
