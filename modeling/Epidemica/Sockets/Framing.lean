import Epidemica.Lib.ByteStream
import Epidemica.Nodes.MsgHandler

/-!
# `Sockets.Framing` — handshake and frames on a connection

`Connect` writes `{m_Id, level}`, eight bytes, and `SendMsg` five bytes for each message: the tag and the
`int`, least significant byte first. The receiver takes one `recv` for the handshake and one for each
frame, ignores how many bytes it returned, and reads the rest from its uninitialised buffer.
-/

namespace Epidemica

open ByteStream

/-- The bytes of an `int`. -/
def intBytes (v : Int32) : List UInt8 :=
  [UInt8.ofNat v.toUInt32.toNat, UInt8.ofNat (v.toUInt32.toNat / 256),
    UInt8.ofNat (v.toUInt32.toNat / 65536), UInt8.ofNat (v.toUInt32.toNat / 16777216)]

/-- `*(int*)&buffer[pos]`. -/
def readInt (pos : Nat) (buffer : Nat → UInt8) : Int32 :=
  (UInt32.ofNat ((buffer pos).toNat + 256 * (buffer (pos + 1)).toNat +
    65536 * (buffer (pos + 2)).toNat + 16777216 * (buffer (pos + 3)).toNat)).toInt32

theorem readInt_bytes {pos : Nat} {buffer : Nat → UInt8} {v : Int32}
    (h : ∀ i (hi : i < (intBytes v).length), buffer (pos + i) = (intBytes v)[i]) :
    readInt pos buffer = v := by
  have h₀ : buffer pos = _ := h 0 (by simp [intBytes])
  have h₁ : buffer (pos + 1) = _ := h 1 (by simp [intBytes])
  have h₂ : buffer (pos + 2) = _ := h 2 (by simp [intBytes])
  have h₃ : buffer (pos + 3) = _ := h 3 (by simp [intBytes])
  have hlt : v.toUInt32.toNat < 4294967296 := v.toUInt32.toNat_lt
  have hsum : (buffer pos).toNat + 256 * (buffer (pos + 1)).toNat + 65536 * (buffer (pos + 2)).toNat +
      16777216 * (buffer (pos + 3)).toNat = v.toUInt32.toNat := by
    rw [h₀, h₁, h₂, h₃]
    simp only [intBytes, List.getElem_cons_zero, List.getElem_cons_succ, UInt8.toNat_ofNat']
    omega
  unfold readInt
  rw [hsum, UInt32.ofNat_toNat, Int32.toInt32_toUInt32]

/-! ## What is written -/

/-- The handshake of `Connect`. -/
structure Hello where
  id : Int32
  level : Int32
  deriving DecidableEq, Repr

/-- A message as `SendMsg` writes it: the tag is the `char` it is cast to. -/
structure Frame where
  tag : UInt8
  value : Int32
  deriving DecidableEq, Repr

/-- The eight bytes of the handshake. -/
def Hello.bytes (hello : Hello) : List UInt8 := intBytes hello.id ++ intBytes hello.level

/-- The five bytes of a message. -/
def Frame.bytes (frame : Frame) : List UInt8 := frame.tag :: intBytes frame.value

@[simp] theorem length_intBytes (v : Int32) : (intBytes v).length = 4 := rfl
@[simp] theorem length_hello (hello : Hello) : hello.bytes.length = 8 := rfl
@[simp] theorem length_frame (frame : Frame) : frame.bytes.length = 5 := rfl

/-- The `char` of a tag. -/
def Tag.char : Tag → UInt8
  | .request => 'R'.toUInt8
  | .release => 'L'.toUInt8
  | .ok => 'K'.toUInt8
  | .ack => 'A'.toUInt8
  | .end => 'E'.toUInt8
  | .begin => 'B'.toUInt8
  | .terminate => 'T'.toUInt8
  | .ready => 'D'.toUInt8
  | .sum => '+'.toUInt8
  | .substract => '-'.toUInt8
  | .multiply => '*'.toUInt8
  | .set => 's'.toUInt8
  | .read => 'r'.toUInt8
  | .unkown => '5'.toUInt8

/-- The message as `SendMsg` sends it. -/
def Msg.frame (m : Msg) : Frame := ⟨m.tag.char, Int32.ofInt m.value⟩

/-- All that a node writes on a connection: `Connect`, then a call of `SendMsg` for each message. -/
def wire (id : Int32) (level : Fin 3) (frames : List Frame) : List UInt8 :=
  Hello.bytes ⟨id, Int32.ofNat level⟩ ++ frames.flatMap Frame.bytes

/-! ## What is read -/

/-- What `IncommingConnection` makes of its buffer. -/
def Hello.decode (buffer : Nat → UInt8) : Hello := ⟨readInt 0 buffer, readInt 4 buffer⟩

/-- What `ClientService` makes of its buffer. -/
def Frame.decode (buffer : Nat → UInt8) : Frame := ⟨buffer 0, readInt 1 buffer⟩

/-- `level > -1 && level < m_Layers.size()`. -/
def Hello.inRange (hello : Hello) : Prop := -1 < hello.level ∧ hello.level < 3

instance (hello : Hello) : Decidable hello.inRange := inferInstanceAs (Decidable (_ ∧ _))

/-- The loop of `ClientService`, until the peek says that the connection is closed: the calls of
    `HandleMsg`. -/
def clientService (rs : List (Read UInt8)) (stream : List UInt8) : List Frame :=
  readAll Frame.decode rs stream

/-- What becomes of a connection: the id and level registered for it, and the messages handled. -/
structure Received where
  registered : Option Hello
  handled : List Frame
  deriving DecidableEq, Repr

/-- `IncommingConnection`, and the client service it starts. -/
def incommingConnection (r : Read UInt8) (rs : List (Read UInt8)) (stream : List UInt8) : Received :=
  let reception := Hello.decode (r.buffer stream)
  if reception.inRange then ⟨some reception, clientService rs (stream.drop r.count)⟩ else ⟨none, []⟩

/-- How a stream can arrive: the `recv` of the handshake returns something, and if it starts a service,
    the service reads on to the end. -/
structure Arrival (r : Read UInt8) (rs : List (Read UInt8)) (stream : List UInt8) : Prop where
  pos : 0 < r.count
  le_size : r.count ≤ 8
  le_stream : r.count ≤ stream.length
  service : (Hello.decode (r.buffer stream)).inRange → Cuts 5 rs (stream.drop r.count)

/-! ## Decoding -/

theorem Frame.decode_bytes (frame : Frame) (buffer : Nat → UInt8)
    (h : ∀ i (hi : i < frame.bytes.length), buffer i = frame.bytes[i]) : Frame.decode buffer = frame := by
  obtain ⟨tag, value⟩ := frame
  have htag : buffer 0 = tag := h 0 (by simp)
  have hvalue : readInt 1 buffer = value := by
    apply readInt_bytes
    intro i hi
    have hi : i < 4 := hi
    rw [Nat.add_comm]
    exact h (i + 1) (by rw [length_frame]; omega)
  unfold Frame.decode
  rw [htag, hvalue]

theorem Hello.decode_bytes (hello : Hello) (buffer : Nat → UInt8)
    (h : ∀ i (hi : i < hello.bytes.length), buffer i = hello.bytes[i]) : Hello.decode buffer = hello := by
  obtain ⟨id, level⟩ := hello
  have hid : readInt 0 buffer = id := by
    apply readInt_bytes
    intro i hi
    rw [Nat.zero_add, h i (Nat.lt_of_lt_of_le hi (by simp))]
    exact List.getElem_append_left hi
  have hlevel : readInt 4 buffer = level := by
    apply readInt_bytes
    intro i hi
    have hi : i < 4 := hi
    -- the level is behind the four bytes of the id
    rw [h (4 + i) (by rw [length_hello]; omega)]
    refine (List.getElem_append_right (Nat.le_add_right 4 i)).trans ?_
    simp only [length_intBytes, Nat.add_sub_cancel_left]
  unfold Hello.decode
  rw [hid, hlevel]

/-- Every level that `Connect` sends is in range. -/
theorem inRange_level (id : Int32) (level : Fin 3) : Hello.inRange ⟨id, Int32.ofNat level⟩ := by
  have hall : ∀ level : Fin 3, -1 < Int32.ofNat level ∧ Int32.ofNat level < 3 := by decide
  exact hall level

/-- After a full read of the handshake the frames are left. -/
theorem wire_drop {r : Read UInt8} (hfull : r.count = 8) (id : Int32) (level : Fin 3)
    (frames : List Frame) : (wire id level frames).drop r.count = frames.flatMap Frame.bytes := by
  have hlen : r.count = (Hello.bytes ⟨id, Int32.ofNat level⟩).length := hfull
  unfold wire
  rw [hlen, List.drop_left]

/-- A service that handles as many messages as were sent has found all bytes of their frames. -/
theorem full_of_handled {r : Read UInt8} {rs : List (Read UInt8)} {id : Int32} {level : Fin 3}
    {frames : List Frame} (hsize : r.count ≤ 8) (hcuts : Cuts 5 rs ((wire id level frames).drop r.count))
    (hcount : rs.length = frames.length) : r.count = 8 := by
  have hwire : (wire id level frames).length = 8 + 5 * frames.length := by
    unfold wire
    rw [List.length_append, length_hello, length_flatMap length_frame]
  have hsum := hcuts.sum
  have hle := (sum_counts hcuts.le).1
  rw [List.length_drop, hwire] at hsum
  omega

/-! ## What arrives -/

/-- The receiver registers the sender's id and level and handles exactly the messages sent if and only if
    every `recv` returns as many bytes as its buffer has. -/
theorem framing (id : Int32) (level : Fin 3) (frames : List Frame) (r : Read UInt8)
    (rs : List (Read UInt8)) (h : Arrival r rs (wire id level frames)) :
    incommingConnection r rs (wire id level frames) = ⟨some ⟨id, Int32.ofNat level⟩, frames⟩ ↔
      r.count = 8 ∧ ∀ s ∈ rs, s.count = 5 := by
  constructor
  · intro heq
    -- a handshake out of range registers nobody
    have hrange : (Hello.decode (r.buffer (wire id level frames))).inRange := by
      by_contra hrefused
      unfold incommingConnection at heq
      rw [if_neg hrefused] at heq
      exact absurd (congrArg Received.registered heq) (by simp)
    unfold incommingConnection at heq
    rw [if_pos hrange] at heq
    have hhandled : readAll Frame.decode rs ((wire id level frames).drop r.count) = frames :=
      congrArg Received.handled heq
    have hcuts := h.service hrange
    -- one `recv` for each message handled, and no bytes left for a short handshake
    have hcount : rs.length = frames.length := by
      rw [← length_readAll Frame.decode rs ((wire id level frames).drop r.count), hhandled]
    have hfull : r.count = 8 := full_of_handled h.le_size hcuts hcount
    rw [wire_drop hfull] at hcuts hhandled
    exact ⟨hfull, (readAll_eq_iff (by decide) length_frame Frame.decode_bytes hcuts).mp hhandled⟩
  · rintro ⟨hfull, hall⟩
    -- a full `recv` finds the eight bytes of the handshake, and leaves the frames
    have hreception : Hello.decode (r.buffer (wire id level frames)) = ⟨id, Int32.ofNat level⟩ := by
      apply Hello.decode_bytes
      intro i hi
      have hlen : r.count = (Hello.bytes ⟨id, Int32.ofNat level⟩).length := hfull
      exact buffer_append r hlen hi
    have hrange : (Hello.decode (r.buffer (wire id level frames))).inRange := by
      rw [hreception]
      exact inRange_level id level
    have hcuts := h.service hrange
    rw [wire_drop hfull] at hcuts
    have hhandled : clientService rs (frames.flatMap Frame.bytes) = frames :=
      (readAll_eq_iff (by decide) length_frame Frame.decode_bytes hcuts).mpr hall
    unfold incommingConnection
    rw [if_pos hrange, hreception, wire_drop hfull, hhandled]

/-- A `recv` into a buffer of zeros. -/
def recv (count : Nat) : Read UInt8 := ⟨count, fun _ => 0⟩

theorem framing_full :
    incommingConnection (recv 8) [recv 5, recv 5] (wire 8888 0 [⟨'+'.toUInt8, 5⟩, ⟨'D'.toUInt8, -5⟩]) =
      ⟨some ⟨8888, 0⟩, [⟨'+'.toUInt8, 5⟩, ⟨'D'.toUInt8, -5⟩]⟩ :=
  (framing 8888 0 [⟨'+'.toUInt8, 5⟩, ⟨'D'.toUInt8, -5⟩] (recv 8) [recv 5, recv 5]
    ⟨by decide, by decide, by decide, fun _ => by decide⟩).mpr ⟨by decide, by decide⟩

/-- One frame that arrives in two pieces is handled as two messages. -/
theorem framing_fails :
    Arrival (recv 8) [recv 1, recv 4] (wire 8888 0 [⟨'+'.toUInt8, 5⟩]) ∧
      (incommingConnection (recv 8) [recv 1, recv 4] (wire 8888 0 [⟨'+'.toUInt8, 5⟩])).handled =
        [⟨'+'.toUInt8, 0⟩, ⟨5, 0⟩] ∧
      incommingConnection (recv 8) [recv 1, recv 4] (wire 8888 0 [⟨'+'.toUInt8, 5⟩]) ≠
        ⟨some ⟨8888, 0⟩, [⟨'+'.toUInt8, 5⟩]⟩ :=
  ⟨⟨by decide, by decide, by decide, fun _ => by decide⟩, by decide, by decide⟩

end Epidemica
