import Mathlib.Algebra.Order.Ring.Int
import Mathlib.Data.List.Basic

/-!
# `WebSocket.Frame` — the base framing protocol

A frame is two bytes, an extended payload length of 0, 2 or 8 bytes, a masking key of 0 or 4 bytes and the
payload. `WsFrame.bytes` is the layout of the diagram in `easywsclient.cpp`; `header` is what `sendData`
writes and `peek` what `_dispatchBinary` makes of the front of its buffer. The length in the first bytes
delimits the frame: `peek` gives a frame back exactly when all of it is there (`peek_bytes`, `peek_starved`).
-/

namespace Epidemica

/-- `opcode_type`. -/
inductive OpcodeType where
  | continuation | textFrame | binaryFrame | close | ping | pong
  deriving DecidableEq, Repr

/-- The nibble of an opcode. -/
def OpcodeType.code : OpcodeType → UInt8
  | .continuation => 0x0
  | .textFrame => 0x1
  | .binaryFrame => 0x2
  | .close => 8
  | .ping => 9
  | .pong => 0xa

/-- The cast from a nibble; `none` stands for a value without a name. -/
def OpcodeType.ofNibble (nibble : UInt8) : Option OpcodeType :=
  [continuation, textFrame, binaryFrame, close, ping, pong].find? fun t => t.code == nibble

/-- The opcodes of frames that carry a message or a part of one. -/
def OpcodeType.isData : OpcodeType → Bool
  | .textFrame | .binaryFrame | .continuation => true
  | .close | .ping | .pong => false

/-- `masking_key`. -/
abbrev MaskingKey := Vector UInt8 4

/-- `masking_key[i&0x3]`. -/
def MaskingKey.at (key : MaskingKey) (i : Nat) : UInt8 := key.get ⟨i % 4, Nat.mod_lt _ (by decide)⟩

/-- `^= masking_key[i&0x3]`. -/
def applyMask (key : MaskingKey) (bytes : List UInt8) : List UInt8 :=
  bytes.mapIdx fun i b => b ^^^ key.at i

@[simp] theorem length_applyMask (key : MaskingKey) (bytes : List UInt8) :
    (applyMask key bytes).length = bytes.length := List.length_mapIdx

/-- Masking twice is doing nothing. -/
@[simp] theorem applyMask_applyMask (key : MaskingKey) (bytes : List UInt8) :
    applyMask key (applyMask key bytes) = bytes := by
  apply List.ext_getElem (by simp)
  intro i _ _
  simp only [applyMask, List.getElem_mapIdx, UInt8.xor_assoc, UInt8.xor_self, UInt8.xor_zero]

/-! ## Lengths -/

/-- `(n >> 8 * (k - 1)) & 0xff, …, (n >> 0) & 0xff`. -/
def lengthBytes : Nat → Nat → List UInt8
  | 0, _ => []
  | k + 1, n => UInt8.ofNat (n >>> (8 * k)) :: lengthBytes k n

/-- `N |= ((uint64_t) data[j]) << 8 * k` over the bytes: the shifted bytes do not overlap. -/
def lengthOf : List UInt8 → Nat
  | [] => 0
  | b :: bs => b.toNat <<< (8 * bs.length) + lengthOf bs

@[simp] theorem length_lengthBytes (k n : Nat) : (lengthBytes k n).length = k := by
  induction k with
  | zero => rfl
  | succ k ih => simp [lengthBytes, ih]

theorem lengthOf_lengthBytes (k n : Nat) : lengthOf (lengthBytes k n) = n % 2 ^ (8 * k) := by
  induction k with
  | zero => simp [lengthBytes, lengthOf, Nat.mod_one]
  | succ k ih =>
    -- the leading byte is the digit at `2 ^ (8 * k)`
    have hpow : 2 ^ (8 * (k + 1)) = 2 ^ (8 * k) * 256 := by rw [Nat.mul_succ, Nat.pow_add]
    have hdigit : (UInt8.ofNat (n >>> (8 * k))).toNat = n / 2 ^ (8 * k) % 256 := by
      rw [UInt8.toNat_ofNat', Nat.shiftRight_eq_div_pow]
    rw [lengthBytes, lengthOf, ih, length_lengthBytes, hdigit, Nat.shiftLeft_eq, hpow, Nat.mod_mul,
      Nat.mul_comm, Nat.add_comm]

/-! ## Writing -/

/-- One frame on the wire, with its payload as the sender means it. -/
structure WsFrame where
  fin : Bool
  opcode : OpcodeType
  /-- The masking key, if the frame is masked. -/
  key : Option MaskingKey
  payload : List UInt8
  deriving DecidableEq, Repr

/-- The second byte of a frame: `MASK` and the 7 bits of the payload length. -/
def secondByte (mask : Bool) (len : UInt8) : UInt8 := len ||| if mask then 0x80 else 0

/-- The 7 bits for a payload of `N` bytes. -/
def lengthCode (N : Nat) : Nat := if N < 126 then N else if N < 65536 then 126 else 127

/-- The extended payload length. -/
def extended (N : Nat) : List UInt8 :=
  if N < 126 then [] else if N < 65536 then lengthBytes 2 N else lengthBytes 8 N

namespace WsFrame

/-- The masking key, if there is one. -/
def keyBytes (f : WsFrame) : List UInt8 := (f.key.map Vector.toList).getD []

/-- The payload as it is sent. -/
def masked (f : WsFrame) : List UInt8 :=
  match f.key with
  | none => f.payload
  | some key => applyMask key f.payload

/-- The frame as it is sent. -/
def bytes (f : WsFrame) : List UInt8 :=
  ((if f.fin then 0x80 else 0) ||| f.opcode.code) ::
    secondByte f.key.isSome (UInt8.ofNat (lengthCode f.payload.length)) ::
      (extended f.payload.length ++ f.keyBytes ++ f.masked)

@[simp] theorem length_masked (f : WsFrame) : f.masked.length = f.payload.length := by
  unfold masked
  split <;> simp

end WsFrame

/-- The masking key of `sendData`. -/
def maskingKey : MaskingKey := #v[0x12, 0x34, 0x56, 0x78]

/-- The frame `sendData` appends to `txbuf`, as it assembles it. -/
def sendDataBytes (useMask : Bool) (type : OpcodeType) (message : List UInt8) : List UInt8 :=
  let message_size := message.length
  let key : List UInt8 := if useMask then maskingKey.toList else []
  let header :=
    if message_size < 126 then
      [0x80 ||| type.code, secondByte useMask (UInt8.ofNat message_size)] ++ key
    else if message_size < 65536 then
      [0x80 ||| type.code, secondByte useMask 126] ++ lengthBytes 2 message_size ++ key
    else [0x80 ||| type.code, secondByte useMask 127] ++ lengthBytes 8 message_size ++ key
  header ++ if useMask then applyMask maskingKey message else message

theorem sendDataBytes_eq (useMask : Bool) (type : OpcodeType) (message : List UInt8) :
    sendDataBytes useMask type message =
      (WsFrame.mk true type (if useMask then some maskingKey else none) message).bytes := by
  unfold sendDataBytes WsFrame.bytes WsFrame.masked WsFrame.keyBytes lengthCode extended
  by_cases h126 : message.length < 126
  · cases useMask <;> simp [h126]
  · by_cases h65536 : message.length < 65536
    · cases useMask <;> simp [h126, h65536]
    · cases useMask <;> simp [h126, h65536]

/-- The key of a frame that is not masked, and of the close frame. -/
def zeroKey : MaskingKey := Vector.replicate 4 0x00

/-- `closeFrame` of `close`: always masked, with a key of zeros. -/
def closeFrame : List UInt8 := [0x88, 0x80, 0x00, 0x00, 0x00, 0x00]

theorem closeFrame_eq : closeFrame = (WsFrame.mk true .close (some zeroKey) []).bytes := by
  decide

/-! ## Reading -/

/-- `wsheader_type`. -/
structure WsHeader where
  headerSize : Nat
  fin : Bool
  mask : Bool
  opcode : Option OpcodeType
  N0 : Nat
  N : Nat
  maskingKey : MaskingKey
  deriving DecidableEq, Repr

/-- What is at the front of `rxbuf`. -/
inductive Peek where
  /-- Less than a frame. -/
  | more
  /-- A frame whose length has its most significant bit set. -/
  | bad
  | frame (ws : WsHeader)
  deriving DecidableEq, Repr

/-- The bytes of the extended payload length. -/
def extendedSize (N0 : Nat) : Nat := (if N0 = 126 then 2 else 0) + (if N0 = 127 then 8 else 0)

/-- `N0` and the bytes behind it give `N`. -/
def payloadLength (N0 : Nat) (data : List UInt8) : Nat :=
  if N0 < 126 then N0
  else if N0 = 126 then lengthOf (data.take 2)
  else lengthOf (data.take 8)

/-- The masking key in the bytes from `i` on. -/
def keyAt (data : List UInt8) (i : Nat) : MaskingKey :=
  #v[data.getD (i + 0) 0, data.getD (i + 1) 0, data.getD (i + 2) 0, data.getD (i + 3) 0]

/-- The header of a frame that begins with `data₀` and `data₁`. It stands in the first `headerSize` bytes,
    and `peek` looks at `N` and `maskingKey` only if these are there. -/
def readHeader (data₀ data₁ : UInt8) (data : List UInt8) : WsHeader :=
  let mask := data₁ &&& 0x80 == 0x80
  let N0 := (data₁ &&& 0x7f).toNat
  let i := extendedSize N0
  { headerSize := 2 + i + (if mask then 4 else 0)
    fin := data₀ &&& 0x80 == 0x80
    mask
    opcode := OpcodeType.ofNibble (data₀ &&& 0x0f)
    N0
    N := payloadLength N0 data
    maskingKey := if mask then keyAt data i else zeroKey }

/-- The first half of a round of `_dispatchBinary`, up to "We got a whole message". -/
def peek (rxbuf : List UInt8) : Peek :=
  match rxbuf with
  | data₀ :: data₁ :: data =>
    let ws := readHeader data₀ data₁ data
    if rxbuf.length < ws.headerSize then .more
    else if ws.N0 = 127 ∧ 2 ^ 63 ≤ ws.N then .bad
    else if rxbuf.length < ws.headerSize + ws.N then .more
    else .frame ws
  | _ => .more

/-! ## What is there decides, not what comes -/

theorem peek_frame {rxbuf : List UInt8} {ws : WsHeader} (h : peek rxbuf = .frame ws) :
    ∃ data₀ data₁ data, rxbuf = data₀ :: data₁ :: data ∧ ws = readHeader data₀ data₁ data ∧
      ws.headerSize + ws.N ≤ rxbuf.length ∧ ¬ (ws.N0 = 127 ∧ 2 ^ 63 ≤ ws.N) := by
  unfold peek at h
  split at h
  · rename_i data₀ data₁ data
    dsimp only at h
    split at h
    · exact absurd h (by simp)
    · split at h
      · exact absurd h (by simp)
      · split at h
        · exact absurd h (by simp)
        · rename_i hbad hlen
          obtain rfl := Peek.frame.inj h
          exact ⟨data₀, data₁, data, rfl, rfl, Nat.not_lt.mp hlen, hbad⟩
  · exact absurd h (by simp)

theorem peek_bad {rxbuf : List UInt8} (h : peek rxbuf = .bad) :
    ∃ data₀ data₁ data, rxbuf = data₀ :: data₁ :: data ∧
      (readHeader data₀ data₁ data).headerSize ≤ rxbuf.length ∧
      (readHeader data₀ data₁ data).N0 = 127 ∧ 2 ^ 63 ≤ (readHeader data₀ data₁ data).N := by
  unfold peek at h
  split at h
  · rename_i data₀ data₁ data
    dsimp only at h
    split at h
    · exact absurd h (by simp)
    · rename_i hlen
      split at h
      · rename_i hbad
        exact ⟨data₀, data₁, data, rfl, Nat.not_lt.mp hlen, hbad⟩
      · split at h
        · exact absurd h (by simp)
        · exact absurd h (by simp)
  · exact absurd h (by simp)

theorem two_le_headerSize (data₀ data₁ : UInt8) (data : List UInt8) :
    2 ≤ (readHeader data₀ data₁ data).headerSize := by
  show 2 ≤ 2 + _ + _
  omega

theorem lengthOf_lt (bs : List UInt8) : lengthOf bs < 2 ^ (8 * bs.length) := by
  induction bs with
  | nil => decide
  | cons b bs ih =>
    have hb : b.toNat < 256 := b.toNat_lt
    have hpow : 2 ^ (8 * (bs.length + 1)) = 256 * 2 ^ (8 * bs.length) := by
      rw [Nat.mul_succ, Nat.pow_add, Nat.mul_comm]
    rw [lengthOf, Nat.shiftLeft_eq, List.length_cons, hpow]
    calc b.toNat * 2 ^ (8 * bs.length) + lengthOf bs
        < b.toNat * 2 ^ (8 * bs.length) + 2 ^ (8 * bs.length) := by omega
      _ = (b.toNat + 1) * 2 ^ (8 * bs.length) := (Nat.succ_mul _ _).symm
      _ ≤ 256 * 2 ^ (8 * bs.length) := Nat.mul_le_mul_right _ hb

theorem lowBits_lt (b : UInt8) : (b &&& 0x7f).toNat < 128 := by
  have h : (b &&& 0x7f).toNat = b.toNat &&& 127 := UInt8.toNat_and b 0x7f
  have := Nat.and_le_right (n := b.toNat) (m := 127)
  omega

/-- The lengths that are found leave the most significant bit free. -/
theorem peek_N_lt {rxbuf : List UInt8} {ws : WsHeader} (h : peek rxbuf = .frame ws) : ws.N < 2 ^ 63 := by
  obtain ⟨data₀, data₁, data, -, rfl, -, hbad⟩ := peek_frame h
  have hlow := lowBits_lt data₁
  show payloadLength (data₁ &&& 0x7f).toNat data < 2 ^ 63
  replace hbad : ¬ ((data₁ &&& 0x7f).toNat = 127 ∧ 2 ^ 63 ≤ payloadLength (data₁ &&& 0x7f).toNat data) := hbad
  by_cases h127 : (data₁ &&& 0x7f).toNat = 127
  · omega
  · unfold payloadLength
    split
    · omega
    · rw [if_pos (by omega)]
      calc lengthOf (data.take 2) < 2 ^ (8 * (data.take 2).length) := lengthOf_lt _
        _ ≤ 2 ^ 16 := Nat.pow_le_pow_right (by decide) (by rw [List.length_take]; omega)
        _ < 2 ^ 63 := by decide

theorem payloadLength_append {N0 : Nat} {data : List UInt8} (more : List UInt8) (hN0 : N0 < 128)
    (h : extendedSize N0 ≤ data.length) : payloadLength N0 (data ++ more) = payloadLength N0 data := by
  unfold payloadLength
  unfold extendedSize at h
  split
  · rfl
  · split
    · rename_i h126
      rw [List.take_append_of_le_length (by simpa [h126] using h)]
    · have h127 : N0 = 127 := by omega
      rw [List.take_append_of_le_length (by simpa [h127] using h)]

theorem keyAt_append {data : List UInt8} (more : List UInt8) {i : Nat} (h : i + 4 ≤ data.length) :
    keyAt (data ++ more) i = keyAt data i := by
  have hget : ∀ j < data.length, (data ++ more).getD j 0 = data.getD j 0 := by
    intro j hj
    rw [List.getD_eq_getElem?_getD, List.getD_eq_getElem?_getD, List.getElem?_append_left hj]
  unfold keyAt
  rw [hget _ (by omega), hget _ (by omega), hget _ (by omega), hget _ (by omega)]

/-- A header that is there does not depend on what stands behind it. -/
theorem readHeader_append (data₀ data₁ : UInt8) (data more : List UInt8)
    (h : (readHeader data₀ data₁ data).headerSize ≤ data.length + 2) :
    readHeader data₀ data₁ (data ++ more) = readHeader data₀ data₁ data := by
  have hsize : 2 + extendedSize (data₁ &&& 0x7f).toNat + (if data₁ &&& 0x80 == 0x80 then 4 else 0) ≤
      data.length + 2 := h
  unfold readHeader
  dsimp only
  rw [payloadLength_append more (lowBits_lt _) (by omega)]
  cases hmask : data₁ &&& 0x80 == 0x80 with
  | false => rfl
  | true =>
    rw [hmask] at hsize
    simp only [if_true] at hsize ⊢
    rw [keyAt_append more (by omega)]

theorem peek_append {rxbuf : List UInt8} {ws : WsHeader} (more : List UInt8)
    (h : peek rxbuf = .frame ws) : peek (rxbuf ++ more) = .frame ws := by
  obtain ⟨data₀, data₁, data, rfl, rfl, hlen, hbad⟩ := peek_frame h
  simp only [List.length_cons] at hlen
  have hread := readHeader_append data₀ data₁ data more (by omega)
  simp only [peek, List.cons_append, hread, List.length_cons, List.length_append]
  rw [if_neg (by omega), if_neg hbad, if_neg (by omega)]

theorem peek_bad_append {rxbuf : List UInt8} (more : List UInt8) (h : peek rxbuf = .bad) :
    peek (rxbuf ++ more) = .bad := by
  obtain ⟨data₀, data₁, data, rfl, hlen, hbad⟩ := peek_bad h
  simp only [List.length_cons] at hlen
  have hread := readHeader_append data₀ data₁ data more (by omega)
  simp only [peek, List.cons_append, hread, List.length_cons, List.length_append]
  rw [if_neg (by omega), if_pos hbad]

/-! ## Round trip -/

theorem ofNibble_code (fin : Bool) (t : OpcodeType) :
    OpcodeType.ofNibble (((if fin then 0x80 else 0) ||| t.code) &&& 0x0f) = some t := by
  cases fin <;> cases t <;> rfl

theorem fin_code (fin : Bool) (t : OpcodeType) :
    (((if fin then 0x80 else 0) ||| t.code) &&& 0x80 == 0x80) = fin := by
  cases fin <;> cases t <;> rfl

theorem secondByte_spec (mask : Bool) {len : Nat} (h : len < 128) :
    (secondByte mask (UInt8.ofNat len) &&& 0x80 == 0x80) = mask ∧
      (secondByte mask (UInt8.ofNat len) &&& 0x7f).toNat = len := by
  have hall : ∀ mask : Bool, ∀ len : Fin 128,
      (secondByte mask (UInt8.ofNat len) &&& 0x80 == 0x80) = mask ∧
        (secondByte mask (UInt8.ofNat len) &&& 0x7f).toNat = len := by
    decide +kernel
  exact hall mask ⟨len, h⟩

theorem lengthCode_lt (N : Nat) : lengthCode N < 128 := by
  unfold lengthCode
  split
  · omega
  · split <;> omega

theorem length_extended (N : Nat) : (extended N).length = extendedSize (lengthCode N) := by
  unfold extended lengthCode extendedSize
  split
  · rw [if_neg (by omega), if_neg (by omega)]
    rfl
  · split <;> simp

theorem keyAt_toList (front : List UInt8) (key : MaskingKey) (more : List UInt8) :
    keyAt (front ++ (key.toList ++ more)) front.length = key := by
  have hget : ∀ j (hj : j < 4), (front ++ (key.toList ++ more)).getD (front.length + j) 0 = key[j] := by
    intro j hj
    rw [List.getD_eq_getElem?_getD, List.getElem?_append_right (by omega), Nat.add_sub_cancel_left,
      List.getElem?_append_left (by simpa using hj)]
    simp [hj]
  unfold keyAt
  rw [hget 0 (by decide), hget 1 (by decide), hget 2 (by decide), hget 3 (by decide)]
  apply Vector.ext
  intro i hi
  match i, hi with
  | 0, _ | 1, _ | 2, _ | 3, _ => rfl

theorem payloadLength_extended {N : Nat} (hN : N < 2 ^ 64) (more : List UInt8) :
    payloadLength (lengthCode N) (extended N ++ more) = N := by
  unfold payloadLength lengthCode extended
  by_cases h126 : N < 126
  · simp [h126]
  · by_cases h65536 : N < 65536
    · simp only [h126, h65536, if_true, if_false, Nat.lt_irrefl]
      rw [List.take_left' (length_lengthBytes 2 N), lengthOf_lengthBytes, Nat.mod_eq_of_lt (by omega)]
    · have h127 : ¬ 127 < 126 ∧ ¬ 127 = 126 := by omega
      simp only [h126, h65536, if_false, h127]
      rw [List.take_left' (length_lengthBytes 8 N), lengthOf_lengthBytes, Nat.mod_eq_of_lt (by omega)]

namespace WsFrame

variable {f : WsFrame}

/-- The header that is read back. -/
def header (f : WsFrame) : WsHeader where
  headerSize := 2 + extendedSize (lengthCode f.payload.length) + f.keyBytes.length
  fin := f.fin
  mask := f.key.isSome
  opcode := some f.opcode
  N0 := lengthCode f.payload.length
  N := f.payload.length
  maskingKey := f.key.getD zeroKey

theorem length_bytes (f : WsFrame) : f.bytes.length = f.header.headerSize + f.header.N := by
  simp only [bytes, header, List.length_cons, List.length_append, length_extended, length_masked]
  omega

theorem readHeader_bytes (hN : f.payload.length < 2 ^ 64) (more : List UInt8) :
    readHeader ((if f.fin then 0x80 else 0) ||| f.opcode.code)
      (secondByte f.key.isSome (UInt8.ofNat (lengthCode f.payload.length)))
      (extended f.payload.length ++ f.keyBytes ++ f.masked ++ more) = f.header := by
  obtain ⟨hmask, hlow⟩ := secondByte_spec f.key.isSome (lengthCode_lt f.payload.length)
  unfold readHeader
  dsimp only
  rw [hmask, hlow, fin_code, ofNibble_code, List.append_assoc, List.append_assoc,
    payloadLength_extended hN]
  obtain ⟨fin, opcode, key, payload⟩ := f
  cases key with
  | none => rfl
  | some key =>
    show WsHeader.mk _ _ _ _ _ _ (keyAt (extended payload.length ++ (key.toList ++ _)) _) = _
    rw [← length_extended, keyAt_toList]
    simp [header, keyBytes, length_extended]

/-- A whole frame is found, whatever stands behind it. -/
theorem peek_bytes (hN : f.payload.length < 2 ^ 63) (more : List UInt8) :
    peek (f.bytes ++ more) = .frame f.header := by
  have hread := readHeader_bytes (f := f) (by omega) more
  have hlen : (f.bytes ++ more).length = f.header.headerSize + f.header.N + more.length := by
    rw [List.length_append, length_bytes]
  have hbad : ¬ (f.header.N0 = 127 ∧ 2 ^ 63 ≤ f.header.N) := by
    rintro ⟨-, h⟩
    have : f.header.N = f.payload.length := rfl
    omega
  unfold bytes at hlen ⊢
  simp only [List.cons_append, peek] at hlen ⊢
  rw [hread, if_neg (by omega), if_neg hbad, if_neg (by omega)]

/-- Part of a frame is none. -/
theorem peek_starved (hN : f.payload.length < 2 ^ 63) {front : List UInt8} (h : front <+: f.bytes)
    (hne : front ≠ f.bytes) : peek front = .more := by
  obtain ⟨more, hmore⟩ := h
  have hwhole : peek (front ++ more) = .frame f.header := by
    have := peek_bytes hN []
    rwa [List.append_nil, ← hmore] at this
  have hlt : front.length < f.bytes.length := by
    rw [← hmore, List.length_append]
    have : more ≠ [] := by
      rintro rfl
      exact hne (by rw [← hmore, List.append_nil])
    have := List.length_pos_iff.mpr this
    omega
  -- what it found in the part it would find in the whole
  cases hpeek : peek front with
  | more => rfl
  | bad =>
    rw [peek_bad_append more hpeek] at hwhole
    exact absurd hwhole (by simp)
  | frame ws =>
    have heq := (peek_append more hpeek).symm.trans hwhole
    obtain rfl := Peek.frame.inj heq
    obtain ⟨-, -, -, -, -, hsize, -⟩ := peek_frame hpeek
    rw [length_bytes] at hlt
    omega

/-- The payload stands behind the header, and the key that is read unmasks it. -/
theorem payload_bytes (f : WsFrame) (more : List UInt8) :
    ((f.bytes ++ more).drop f.header.headerSize).take f.header.N = f.masked ∧
      (if f.header.mask then applyMask f.header.maskingKey f.masked else f.masked) = f.payload := by
  constructor
  · have hsplit : f.bytes ++ more = (((if f.fin then 0x80 else 0) ||| f.opcode.code) ::
        secondByte f.key.isSome (UInt8.ofNat (lengthCode f.payload.length)) ::
          (extended f.payload.length ++ f.keyBytes)) ++ (f.masked ++ more) := by
      simp [bytes]
    rw [hsplit, List.drop_left' (by simp [header, length_extended]; omega),
      List.take_left' (by simp [header])]
  · obtain ⟨fin, opcode, key, payload⟩ := f
    cases key with
    | none => rfl
    | some key => simp [header, masked]

theorem drop_bytes (f : WsFrame) (more : List UInt8) :
    (f.bytes ++ more).drop (f.header.headerSize + f.header.N) = more :=
  List.drop_left' (length_bytes f)

end WsFrame

end Epidemica
