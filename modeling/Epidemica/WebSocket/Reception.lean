import Epidemica.WebSocket.WebSocket

/-!
# `WebSocket.Reception` — what the other end's frames do

The rounds of `dispatch` on the bytes of frames are the second halves of the rounds on the frames
(`dispatch_frames`). So a message is handed to the callback whole, however its sender cuts it into fragments,
which control frames it puts between them, how it masks them, and in which pieces their bytes arrive; pings
are answered in order up to the first close frame, and that is answered once (`reception`).
-/

namespace Epidemica

open Incremental

namespace WsFrame

/-- The payload length leaves the most significant bit of its 64 free. -/
def Fits (f : WsFrame) : Prop := f.payload.length < 2 ^ 63

instance (f : WsFrame) : Decidable f.Fits := inferInstanceAs (Decidable (_ < _))

/-- The beginning of a frame, without its end. -/
def Begun (front : List UInt8) : Prop :=
  front = [] ∨ ∃ f : WsFrame, f.Fits ∧ front <+: f.bytes ∧ front ≠ f.bytes

theorem peek_begun {front : List UInt8} (h : Begun front) : peek front = .more := by
  rcases h with rfl | ⟨f, hf, hpre, hne⟩
  · rfl
  · exact peek_starved hf hpre hne

theorem length_lt_of_prefix {front whole : List UInt8} (h : front <+: whole) (hne : front ≠ whole) :
    front.length < whole.length :=
  lt_of_le_of_ne h.length_le fun heq => hne (h.eq_of_length heq)

theorem Begun.of_prefix {front part : List UInt8} (hpart : Begun part) (h : front <+: part) :
    Begun front := by
  rcases hpart with rfl | ⟨f, hf, hpre, hne⟩
  · exact .inl (List.prefix_nil.mp h)
  · refine .inr ⟨f, hf, h.trans hpre, ?_⟩
    rintro rfl
    have hlt := length_lt_of_prefix hpre hne
    have hle := h.length_le
    omega

/-- The beginning of one of the frames, without its end. -/
def BegunIn (fs : List WsFrame) (front : List UInt8) : Prop :=
  front = [] ∨ ∃ f ∈ fs, front <+: f.bytes ∧ front ≠ f.bytes

theorem BegunIn.begun {fs : List WsFrame} {front : List UInt8} (hfits : ∀ f ∈ fs, f.Fits)
    (h : BegunIn fs front) : Begun front :=
  h.imp_right fun ⟨f, hf, hpre⟩ => ⟨f, hfits f hf, hpre⟩

/-! ## Messages and their fragments -/

/-- What a list of frames hands to the callback, and what it leaves of a message that is not complete. -/
def reassemble : List UInt8 → List WsFrame → List Call × List UInt8
  | acc, [] => ([], acc)
  | acc, f :: fs =>
    if f.opcode.isData then
      if f.fin then ((acc ++ f.payload) :: (reassemble [] fs).1, (reassemble [] fs).2)
      else reassemble (acc ++ f.payload) fs
    else reassemble acc fs

/-- The fragments of a message, with their `FIN`. -/
def fragments : List (List UInt8) → List (Bool × List UInt8)
  | [] => []
  | [part] => [(true, part)]
  | part :: parts => (false, part) :: fragments parts

/-- The fragments among a list of frames. -/
def fragmentsIn (fs : List WsFrame) : List (Bool × List UInt8) :=
  (fs.filter fun f => f.opcode.isData).map fun f => (f.fin, f.payload)

/-- `reassemble` looks at the fragments only. -/
def joinFragments : List UInt8 → List (Bool × List UInt8) → List Call × List UInt8
  | acc, [] => ([], acc)
  | acc, (fin, part) :: parts =>
    if fin then ((acc ++ part) :: (joinFragments [] parts).1, (joinFragments [] parts).2)
    else joinFragments (acc ++ part) parts

theorem reassemble_eq (acc : List UInt8) (fs : List WsFrame) :
    reassemble acc fs = joinFragments acc (fragmentsIn fs) := by
  induction fs generalizing acc with
  | nil => rfl
  | cons f fs ih =>
    cases hdata : f.opcode.isData with
    | true =>
      have hcons : fragmentsIn (f :: fs) = (f.fin, f.payload) :: fragmentsIn fs := by
        simp [fragmentsIn, hdata]
      rw [reassemble, if_pos hdata, hcons, joinFragments, ih, ih]
    | false =>
      have hcons : fragmentsIn (f :: fs) = fragmentsIn fs := by simp [fragmentsIn, hdata]
      rw [reassemble, if_neg (by simp [hdata]), hcons, ih]

theorem joinFragments_fragments (acc : List UInt8) {parts : List (List UInt8)} (h : parts ≠ [])
    (rest : List (Bool × List UInt8)) :
    joinFragments acc (fragments parts ++ rest) =
      ((acc ++ parts.flatten) :: (joinFragments [] rest).1, (joinFragments [] rest).2) := by
  induction parts generalizing acc with
  | nil => exact absurd rfl h
  | cons part parts ih =>
    cases parts with
    | nil => simp [fragments, joinFragments]
    | cons next parts =>
      rw [fragments, List.cons_append, joinFragments, if_neg (by simp), ih _ (by simp)]
      · simp
      · simp

/-- Messages come out of their fragments. -/
theorem joinFragments_messages {ms : List (List (List UInt8))} (h : ∀ parts ∈ ms, parts ≠ []) :
    joinFragments [] (ms.flatMap fragments) = (ms.map List.flatten, []) := by
  induction ms with
  | nil => rfl
  | cons parts ms ih =>
    rw [List.flatMap_cons, joinFragments_fragments _ (h parts List.mem_cons_self),
      ih fun p hp => h p (List.mem_cons_of_mem _ hp)]
    rfl

/-- The messages of frames that are not fragments. -/
def messages (fs : List WsFrame) : List Call := (fs.filter fun f => f.opcode.isData).map WsFrame.payload

@[simp] theorem messages_append (fs gs : List WsFrame) : messages (fs ++ gs) = messages fs ++ messages gs := by
  simp [messages]

theorem reassemble_fin {fs : List WsFrame} (h : ∀ f ∈ fs, f.fin = true) :
    reassemble [] fs = (messages fs, []) := by
  induction fs with
  | nil => rfl
  | cons f fs ih =>
    have hfin : f.fin = true := h f List.mem_cons_self
    rw [reassemble, ih fun g hg => h g (List.mem_cons_of_mem _ hg)]
    cases hdata : f.opcode.isData <;> simp [messages, hfin, hdata]

/-- A stream of frames that is cut off somewhere. -/
theorem frames_of_prefix {fs : List WsFrame} {front : List UInt8} (h : front <+: fs.flatMap WsFrame.bytes) :
    ∃ gs hs part, fs = gs ++ hs ∧ front = gs.flatMap WsFrame.bytes ++ part ∧ BegunIn fs part := by
  induction fs generalizing front with
  | nil =>
    have hnil : front = [] := List.prefix_nil.mp h
    exact ⟨[], [], [], rfl, hnil, .inl rfl⟩
  | cons f fs ih =>
    rw [List.flatMap_cons] at h
    by_cases hall : f.bytes <+: front
    · -- the first frame is there
      obtain ⟨rest, rfl⟩ := hall
      obtain ⟨gs, hs, part, rfl, rfl, hpart⟩ := ih ((List.prefix_append_right_inj _).mp h)
      refine ⟨f :: gs, hs, part, rfl, by simp, ?_⟩
      exact hpart.imp_right fun ⟨g, hg, hpre⟩ => ⟨g, List.mem_cons_of_mem _ hg, hpre⟩
    · have hpre := (List.prefix_or_prefix_of_prefix h (List.prefix_append f.bytes _)).resolve_right hall
      refine ⟨[], f :: fs, front, rfl, rfl, .inr ⟨f, List.mem_cons_self, hpre, ?_⟩⟩
      rintro rfl
      exact hall List.prefix_rfl

/-- A stream of frames and the beginning of one more, cut off somewhere. -/
theorem frames_of_front {fs : List WsFrame} {part front : List UInt8}
    (h : front <+: fs.flatMap WsFrame.bytes ++ part) :
    ∃ gs rest, gs ⊆ fs ∧ front = gs.flatMap WsFrame.bytes ++ rest ∧ (BegunIn fs rest ∨ rest <+: part) := by
  rcases List.prefix_or_prefix_of_prefix h (List.prefix_append _ _) with hfront | ⟨rest, rfl⟩
  · obtain ⟨gs, hs, rest, rfl, rfl, hrest⟩ := frames_of_prefix hfront
    exact ⟨gs, rest, List.subset_append_left gs hs, rfl, .inl hrest⟩
  · exact ⟨fs, rest, List.Subset.refl fs, rfl, .inr ((List.prefix_append_right_inj _).mp h)⟩

/-! ## Answers -/

/-- A frame that `sendData` writes. -/
def sent (useMask : Bool) (type : OpcodeType) (message : List UInt8) : WsFrame :=
  ⟨true, type, if useMask then some maskingKey else none, message⟩

/-- The frame that `close` writes. -/
def closing : WsFrame := ⟨true, .close, some zeroKey, []⟩

/-- What an open socket answers to a frame: a pong to a ping, and a close frame to a close frame and to
    an opcode without a name. -/
def answer (useMask : Bool) (opcode : Option OpcodeType) (data : List UInt8) : List WsFrame :=
  match opcode with
  | some .ping => [sent useMask .pong data]
  | some .close | none => [closing]
  | some .pong | some .textFrame | some .binaryFrame | some .continuation => []

/-- What an open socket answers to a list of frames: nothing behind the first close frame. -/
def answers (useMask : Bool) : List WsFrame → List WsFrame
  | [] => []
  | f :: fs =>
    answer useMask (some f.opcode) f.payload ++
      if f.opcode = .close then [] else answers useMask fs

end WsFrame

namespace WebSocket

open WsFrame

variable {ws : WebSocket}

/-! ## Rounds on frames -/

/-- The rounds of `dispatch`, with frames in place of bytes. -/
def receive (ws : WebSocket) : List WsFrame → WebSocket × List Call
  | [] => (ws, [])
  | f :: fs =>
    let r := ws.gotMessage f.fin (some f.opcode) f.payload
    ((receive r.1 fs).1, r.2 ++ (receive r.1 fs).2)

theorem dispatchRound_frame {f : WsFrame} {more : List UInt8} (hbad : ws.isRxBad = false) (hf : f.Fits)
    (hrx : ws.rxbuf = f.bytes ++ more) :
    ws.dispatchRound =
      some ((ws.gotMessage f.fin (some f.opcode) f.payload).1.setRxbuf more,
        (ws.gotMessage f.fin (some f.opcode) f.payload).2) := by
  have hpeek : peek ws.rxbuf = .frame f.header := hrx ▸ peek_bytes hf more
  obtain ⟨hmasked, hpayload⟩ := payload_bytes f more
  have hdata : ws.payload f.header = f.payload := by
    unfold payload
    rw [hrx, hmasked]
    exact hpayload
  unfold dispatchRound
  rw [hbad, if_neg (by simp), hpeek]
  simp only [erase, hdata, gotMessage_rxbuf, hrx, drop_bytes]
  rfl

theorem starved_begun (h : Begun ws.rxbuf) : consumer.Starved ws := by
  show ws.dispatchRound = none
  unfold dispatchRound
  rw [peek_begun h]
  split <;> rfl

theorem receive_isRxBad (ws : WebSocket) (fs : List WsFrame) :
    (ws.receive fs).1.isRxBad = ws.isRxBad := by
  induction fs generalizing ws with
  | nil => rfl
  | cons f fs ih =>
    rw [receive]
    exact (ih _).trans (gotMessage_isRxBad ..)

theorem receive_setRxbuf (ws : WebSocket) (bytes : List UInt8) (fs : List WsFrame) :
    (ws.setRxbuf bytes).receive fs = ((ws.receive fs).1.setRxbuf bytes, (ws.receive fs).2) := by
  induction fs generalizing ws with
  | nil => rfl
  | cons f fs ih => rw [receive, gotMessage_setRxbuf, ih, receive]

/-- `dispatch` takes the frames off `rxbuf` and leaves what is not a frame yet. -/
theorem dispatch_frames (ws : WebSocket) {fs : List WsFrame} {part : List UInt8} (hbad : ws.isRxBad = false)
    (hfits : ∀ f ∈ fs, f.Fits) (hpart : Begun part)
    (hrx : ws.rxbuf = fs.flatMap WsFrame.bytes ++ part) :
    ws.dispatch = ((ws.receive fs).1.setRxbuf part, (ws.receive fs).2) := by
  induction fs generalizing ws with
  | nil =>
    have hrx : ws.rxbuf = part := hrx
    have hset : ws.setRxbuf part = ws := by rw [← hrx]; rfl
    rw [dispatch, Consumer.drain_of_starved (starved_begun (hrx ▸ hpart))]
    exact Prod.ext hset.symm rfl
  | cons f fs ih =>
    rw [List.flatMap_cons, List.append_assoc] at hrx
    have hround := dispatchRound_frame hbad (hfits f List.mem_cons_self) hrx
    have ih := ih ((ws.gotMessage f.fin (some f.opcode) f.payload).1.setRxbuf _)
      (by simpa using hbad) (fun g hg => hfits g (List.mem_cons_of_mem _ hg)) rfl
    rw [dispatch, Consumer.drain_of_step (C := consumer) hround]
    rw [dispatch] at ih
    rw [ih, receive_setRxbuf, receive]
    rfl

/-! ## What the frames do -/

/-- The callback is called with the messages that the fragments make up. -/
theorem receive_calls (ws : WebSocket) (fs : List WsFrame) :
    (ws.receive fs).2 = (reassemble ws.receivedData fs).1 ∧
      (ws.receive fs).1.receivedData = (reassemble ws.receivedData fs).2 := by
  induction fs generalizing ws with
  | nil => exact ⟨rfl, rfl⟩
  | cons f fs ih =>
    obtain ⟨hcalls, hdata⟩ := ih (ws.gotMessage f.fin (some f.opcode) f.payload).1
    rw [receive, reassemble, hcalls, hdata]
    obtain ⟨fin, opcode, key, payload⟩ := f
    cases opcode <;> cases fin <;> simp [gotMessage, OpcodeType.isData]

theorem sendData_opened (h : ws.shut = false) (type : OpcodeType) (message : List UInt8) :
    (ws.sendData type message).txbuf = ws.txbuf ++ (sent ws.useMask type message).bytes := by
  unfold sendData
  rw [h, if_neg (by simp), sendDataBytes_eq]
  rfl

theorem close_opened (h : ws.shut = false) :
    ws.close.shut = true ∧ ws.close.txbuf = ws.txbuf ++ closing.bytes := by
  unfold close
  rw [h, if_neg (by simp), closeFrame_eq]
  exact ⟨rfl, rfl⟩

theorem sendData_shut (h : ws.shut = true) (type : OpcodeType) (message : List UInt8) :
    ws.sendData type message = ws := by
  unfold sendData
  rw [if_pos h]

theorem close_shut (h : ws.shut = true) : ws.close = ws := by
  unfold close
  rw [if_pos h]

/-- What a whole message does to the sending side of the socket. -/
theorem gotMessage_answer (ws : WebSocket) (fin : Bool) (opcode : Option OpcodeType) (data : List UInt8) :
    (ws.gotMessage fin opcode data).1.useMask = ws.useMask ∧
      (ws.gotMessage fin opcode data).1.txbuf = ws.txbuf ++
        (if ws.shut then [] else answer ws.useMask opcode data).flatMap WsFrame.bytes ∧
      (ws.gotMessage fin opcode data).1.shut =
        (ws.shut || decide (opcode = some .close ∨ opcode = none)) := by
  have hclosed : ws.close.useMask = ws.useMask ∧ ws.close.txbuf = ws.txbuf ++
      (if ws.shut then [] else [closing]).flatMap WsFrame.bytes ∧ ws.close.shut = true := by
    cases h : ws.shut with
    | true => simp [close_shut h, h]
    | false =>
      obtain ⟨hshut, htx⟩ := close_opened h
      refine ⟨?_, by simpa using htx, hshut⟩
      unfold close
      split <;> rfl
  rcases opcode with _ | _ | _ | _ | _ | _ | _
  case some.continuation | some.textFrame | some.binaryFrame =>
    cases fin <;> simp [gotMessage, answer, shut]
  case none | some.close => simpa [gotMessage, answer] using hclosed
  case some.pong => simp [gotMessage, answer]
  case some.ping =>
    cases h : ws.shut with
    | true => simp [gotMessage, sendData_shut h, h]
    | false =>
      refine ⟨?_, by simpa [gotMessage, answer] using sendData_opened h .pong data, ?_⟩
      · show (ws.sendData .pong data).useMask = _
        unfold sendData
        split <;> rfl
      · simpa [gotMessage, shut] using h

/-- An open socket answers pings and the first close frame, a socket that is closing or closed nothing. -/
theorem receive_answers (ws : WebSocket) (fs : List WsFrame) :
    (ws.receive fs).1.txbuf = ws.txbuf ++
        (if ws.shut then [] else answers ws.useMask fs).flatMap WsFrame.bytes ∧
      ((ws.receive fs).1.shut = true ↔ ws.shut = true ∨ ∃ f ∈ fs, f.opcode = .close) := by
  induction fs generalizing ws with
  | nil => simp [receive, answers]
  | cons f fs ih =>
    obtain ⟨hmask, htx, hshut⟩ := gotMessage_answer ws f.fin (some f.opcode) f.payload
    obtain ⟨htx', hshut'⟩ := ih (ws.gotMessage f.fin (some f.opcode) f.payload).1
    rw [receive]
    refine ⟨?_, ?_⟩
    · rw [htx', htx, hmask, hshut, List.append_assoc, ← List.flatMap_append]
      cases hopen : ws.shut <;> by_cases hclose : f.opcode = .close <;> simp [answers, hclose]
    · rw [hshut', hshut]
      simp [or_assoc]

/-! ## Reception -/

/-- In whatever pieces the bytes of frames are received, with a call of `dispatch` after each piece, the frames
    are received one after the other. -/
theorem session_frames {ws : WebSocket} {fs : List WsFrame} {part : List UInt8} {pieces : List (List UInt8)}
    (hrx : ws.rxbuf = []) (hbad : ws.isRxBad = false) (hfits : ∀ f ∈ fs, f.Fits) (hpart : Begun part)
    (hpieces : pieces.flatten = fs.flatMap WsFrame.bytes ++ part) :
    consumer.session ws pieces = ((ws.receive fs).1.setRxbuf part, (ws.receive fs).2) := by
  have hstarved : consumer.Starved ws := starved_begun (hrx ▸ .inl rfl)
  -- the pieces do not matter, and together they are the frames
  rw [Consumer.session_eq hstarved, hpieces]
  have hfeed : (ws.feed (fs.flatMap WsFrame.bytes ++ part)).rxbuf = fs.flatMap WsFrame.bytes ++ part := by
    rw [feed, hrx]
    rfl
  have hframes := dispatch_frames (ws.feed (fs.flatMap WsFrame.bytes ++ part)) hbad hfits hpart hfeed
  rwa [feed, receive_setRxbuf] at hframes

/-- `poll` counts `rxbuf` in an `int N` and resizes it to `N + 1500` for a call of `recv`. Neither is out of
    range. -/
def RecvFits (ws : WebSocket) : Prop := ws.rxbuf.length + 1500 < 2 ^ 31

/-- A frame, the bytes that arrive between two calls of `dispatch` and the 1500 of one more `recv` are together
    not too many for an `int`. -/
def Room (fs : List WsFrame) (part : List UInt8) (pieces : List (List UInt8)) : Prop :=
  ∀ piece ∈ pieces, part.length + piece.length + 1500 < 2 ^ 31 ∧
    ∀ f ∈ fs, f.bytes.length + piece.length + 1500 ≤ 2 ^ 31

section
variable {ws : WebSocket} {fs : List WsFrame} {part : List UInt8} {pieces : List (List UInt8)}

theorem Room.fits (hroom : Room fs part pieces) (hpieces : pieces.flatten = fs.flatMap WsFrame.bytes ++ part) :
    ∀ f ∈ fs, f.Fits := by
  intro f hf
  have hlen := length_bytes f
  have hsize : f.header.N = f.payload.length := rfl
  -- some piece has a byte of the frame
  have hsome : pieces ≠ [] := by
    rintro rfl
    have hnone := List.append_eq_nil_iff.mp hpieces.symm
    have hempty : f.bytes = [] := List.flatMap_eq_nil_iff.mp hnone.1 f hf
    exact absurd hempty (List.cons_ne_nil _ _)
  obtain ⟨piece, hpiece⟩ := List.exists_mem_of_ne_nil pieces hsome
  have hless := (hroom piece hpiece).2 f hf
  unfold Fits
  omega

/-- Whenever bytes have arrived, `poll` can count them. -/
theorem session_recvFits (hrx : ws.rxbuf = []) (hbad : ws.isRxBad = false) (hpart : Begun part)
    (hpieces : pieces.flatten = fs.flatMap WsFrame.bytes ++ part) (hroom : Room fs part pieces)
    {front : List (List UInt8)} {piece : List UInt8} (hfront : front ++ [piece] <+: pieces) :
    ((consumer.session ws front).1.feed piece).RecvFits := by
  have hfits := hroom.fits hpieces
  obtain ⟨back, rfl⟩ := hfront
  have hpre : front.flatten <+: fs.flatMap WsFrame.bytes ++ part := by
    rw [← hpieces, List.append_assoc, List.flatten_append]
    exact List.prefix_append _ _
  obtain ⟨gs, rest, hgs, heq, hrest⟩ := frames_of_front hpre
  have hbegun : Begun rest := hrest.elim (fun h => h.begun hfits) hpart.of_prefix
  -- what `dispatch` has left is the beginning of a frame
  rw [session_frames hrx hbad (fun f hf => hfits f (hgs hf)) hbegun heq]
  show (rest ++ piece).length + 1500 < 2 ^ 31
  obtain ⟨hlast, hwhole⟩ := hroom piece (by simp)
  rw [List.length_append]
  rcases hrest with (rfl | ⟨f, hf, hbeginning, hne⟩) | hrest
  · rw [List.length_nil]
    omega
  · have hless := length_lt_of_prefix hbeginning hne
    have hframe := hwhole f hf
    omega
  · have hless := hrest.length_le
    omega

end

/-- Frames that carry the fragments of messages give these messages. -/
theorem reassemble_messages {ms : List (List (List UInt8))} {fs : List WsFrame}
    (hms : ∀ parts ∈ ms, parts ≠ []) (hfragments : fragmentsIn fs = ms.flatMap fragments) :
    reassemble [] fs = (ms.map List.flatten, []) := by
  rw [reassemble_eq, hfragments, joinFragments_messages hms]

/-- Messages arrive whole: whatever fragments they are cut into, whatever control frames stand between these,
    however the frames are masked, and whatever pieces their bytes are received in, with a call of
    `dispatch` after each piece. An open socket has then answered every ping in front of the first close frame
    with its payload, in order, and that close frame once. In between `rxbuf` is never too long for the `int`
    in which `poll` counts it. -/
theorem reception (ws : WebSocket) (ms : List (List (List UInt8))) (fs : List WsFrame) (part : List UInt8)
    (pieces : List (List UInt8)) (hstart : ws.rxbuf = [] ∧ ws.receivedData = [] ∧ ws.isRxBad = false)
    (hms : ∀ parts ∈ ms, parts ≠ []) (hfragments : fragmentsIn fs = ms.flatMap fragments)
    (hroom : Room fs part pieces) (hpart : Begun part)
    (hpieces : pieces.flatten = fs.flatMap WsFrame.bytes ++ part) :
    let r := consumer.session ws pieces
    r.2 = ms.map List.flatten ∧ r.1.rxbuf = part ∧ r.1.receivedData = [] ∧ r.1.isRxBad = false ∧
      r.1.txbuf = ws.txbuf ++ (if ws.shut then [] else answers ws.useMask fs).flatMap WsFrame.bytes ∧
      (r.1.shut = true ↔ ws.shut = true ∨ ∃ f ∈ fs, f.opcode = .close) ∧
      ∀ front piece, front ++ [piece] <+: pieces → ((consumer.session ws front).1.feed piece).RecvFits := by
  obtain ⟨hrx, hdata, hbad⟩ := hstart
  have hsession := session_frames hrx hbad (hroom.fits hpieces) hpart hpieces
  obtain ⟨hcalls, hleft⟩ := receive_calls ws fs
  obtain ⟨htx, hshut⟩ := receive_answers ws fs
  have hmessages : reassemble ws.receivedData fs = (ms.map List.flatten, []) := by
    rw [hdata, reassemble_messages hms hfragments]
  rw [hmessages] at hcalls hleft
  simp only [hsession]
  exact ⟨hcalls, rfl, hleft, (receive_isRxBad ws fs).trans hbad, htx, hshut,
    fun _ _ hfront => session_recvFits hrx hbad hpart hpieces hroom hfront⟩

/-- A message in two fragments with a ping between them, a masked one, and a close frame. -/
def serverFrames : List WsFrame :=
  [⟨false, .textFrame, none, [104]⟩, ⟨true, .ping, none, [7, 8]⟩, ⟨true, .continuation, none, [105]⟩,
    ⟨true, .binaryFrame, some maskingKey, [1, 2, 3, 4, 5]⟩, ⟨true, .close, none, []⟩]

/-- Their bytes and the first byte of one more frame, one at a time. -/
def serverBytes : List (List UInt8) := (serverFrames.flatMap WsFrame.bytes ++ [0x89]).map fun b => [b]

theorem reception_serverFrames :
    let r := consumer.session (init true) serverBytes
    r.2 = [[104, 105], [1, 2, 3, 4, 5]] ∧ r.1.rxbuf = [0x89] ∧
      r.1.txbuf = (sent true .pong [7, 8]).bytes ++ closing.bytes ∧ r.1.shut = true := by
  have hroom : Room serverFrames [0x89] serverBytes := by
    unfold Room
    decide +kernel
  have hbegun : Begun [0x89] := .inr ⟨⟨true, .ping, none, []⟩, by decide, by decide, by decide⟩
  obtain ⟨hcalls, hrx, -, -, htx, hshut, -⟩ := reception (init true) [[[104], [105]], [[1, 2, 3, 4, 5]]]
    serverFrames [0x89] serverBytes ⟨rfl, rfl, rfl⟩ (by simp) (by decide) hroom hbegun (by decide)
  exact ⟨hcalls, hrx, htx.trans (by decide), hshut.mpr (.inr (by decide))⟩

end WebSocket
end Epidemica
