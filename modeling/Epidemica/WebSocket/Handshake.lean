import Epidemica.WebSocket.Reception
import Epidemica.WebSocket.Url
import Mathlib.Data.List.GetD

/-!
# `WebSocket.Handshake` — the opening handshake of `from_url`

The response of the server is read byte by byte, a line at a time, up to a blank line. A line ends behind a CR
and the byte after it, behind an LF, or at 1023 bytes. For a response whose lines are shorter than that the
reader stops exactly at its end (`connected_text`), so that the bytes behind it are the first frames; and if
the connection ends before, no socket is made (`connected_truncated`).
-/

namespace Epidemica

open Incremental

/-! ## Reading lines -/

/-- `'\r'`. -/
abbrev CR : UInt8 := 13

/-- `'\n'`. -/
abbrev LF : UInt8 := 10

/-- The condition of the `for` loops, for `i = line.length`. -/
def reading (line : List UInt8) : Bool :=
  line.length < 2 ||
    (line.length < 1023 && line.getD (line.length - 2) 0 != CR && line.getD (line.length - 1) 0 != LF)

/-- The loop: the line, and what is left on the connection; `none` if `recv` returns `0`. -/
def readLine (line : List UInt8) : List UInt8 → Option (List UInt8 × List UInt8)
  | [] => if reading line then none else some (line, [])
  | b :: stream => if reading line then readLine (line ++ [b]) stream else some (line, b :: stream)

/-- `while (true)`: lines are dropped up to one that begins with CR and LF. Each takes two bytes at least, so
    that as many rounds as there are bytes are enough. -/
def skipHeaders : Nat → List UInt8 → Option (List UInt8)
  | 0, _ => none
  | rounds + 1, stream =>
    match readLine [] stream with
    | none => none
    | some (line, stream) => if line.take 2 = [CR, LF] then some stream else skipHeaders rounds stream

/-- `sscanf(line, "HTTP/1.1 %d", &status)`. -/
def scanStatus (line : List UInt8) : List Converted :=
  sscanf (['H', 'T', 'T', 'P', '/', '1', '.', '1'].map .literal ++ [.space, .int])
    (cString (line.map fun b => Char.ofNat b.toNat))

/-- The response is read and the socket made; behind it stands what is left on the connection. -/
def connected (useMask : Bool) (stream : List UInt8) : Option (WebSocket × List UInt8) :=
  match readLine [] stream with
  | none => none
  | some (line, stream) =>
    if line.length = 1023 then none
    else if scanStatus line = [.number 101] then
      (skipHeaders stream.length stream).map fun rest => (WebSocket.init useMask, rest)
    else none

/-! ## Where a line ends -/

/-- Neither CR nor LF. -/
def Clean (line : List UInt8) : Prop := ∀ b ∈ line, b ≠ CR ∧ b ≠ LF

instance (line : List UInt8) : Decidable (Clean line) := List.decidableBAll _ _

theorem Clean.getD {line : List UInt8} (h : Clean line) (i : Nat) :
    line.getD i 0 ≠ CR ∧ line.getD i 0 ≠ LF := by
  by_cases hi : i < line.length
  · rw [List.getD_eq_getElem _ _ hi]
    exact h _ (List.getElem_mem hi)
  · rw [List.getD_eq_default _ _ (by omega)]
    decide

theorem Clean.goes_on {line : List UInt8} (h : Clean line) (hlen : line.length < 1023) :
    reading line = true := by
  have hcr := (h.getD (line.length - 2)).1
  have hlf := (h.getD (line.length - 1)).2
  simp only [reading, Bool.or_eq_true, Bool.and_eq_true, decide_eq_true_eq, bne_iff_ne]
  exact Or.inr ⟨⟨hlen, hcr⟩, hlf⟩

/-- Behind the CR the loop goes on. -/
theorem Clean.goes_on_cr {line : List UInt8} (h : Clean line) (hlen : line.length < 1022) :
    reading (line ++ [CR]) = true := by
  have hcr := (h.getD (line.length - 1)).1
  simp only [reading, List.length_append, List.length_singleton, Bool.or_eq_true,
    Bool.and_eq_true, decide_eq_true_eq, bne_iff_ne]
  by_cases hone : line.length = 0
  · exact Or.inl (by omega)
  · refine Or.inr ⟨⟨by omega, ?_⟩, ?_⟩
    · rw [List.getD_append _ _ _ _ (by omega), show line.length + 1 - 2 = line.length - 1 by omega]
      exact hcr
    · simpa using show CR ≠ LF by decide

/-- Behind the LF it stops. -/
theorem reading_crlf (line : List UInt8) : reading (line ++ [CR, LF]) = false := by
  simp [reading]

/-- A line is read up to its end. -/
theorem readLine_text (line text rest : List UInt8) (hline : Clean line) (htext : Clean text)
    (hlen : (line ++ text).length ≤ 1021) :
    readLine line (text ++ CR :: LF :: rest) = some (line ++ text ++ [CR, LF], rest) := by
  induction text generalizing line with
  | nil =>
    have hl : line.length ≤ 1021 := by simpa using hlen
    have hstop := reading_crlf line
    show readLine line (CR :: LF :: rest) = _
    rw [readLine, if_pos (hline.goes_on (by omega)), readLine, if_pos (hline.goes_on_cr (by omega)),
      List.append_assoc]
    cases rest with
    | nil => simp [readLine, hstop]
    | cons b rest => simp [readLine, hstop]
  | cons b text ih =>
    have hb := htext b List.mem_cons_self
    have hl : line.length + (text.length + 1) ≤ 1021 := by simpa using hlen
    rw [List.cons_append, readLine, if_pos (hline.goes_on (by omega)),
      ih (line ++ [b]) ?_ (fun x hx => htext x (List.mem_cons_of_mem _ hx)) (by simp; omega)]
    · simp
    · intro x hx
      rcases List.mem_append.mp hx with hx | hx
      · exact hline x hx
      · exact List.mem_singleton.mp hx ▸ hb

/-- A line that is not complete is not read. -/
theorem readLine_truncated (line text : List UInt8) (hline : Clean line) (htext : Clean text)
    (hlen : (line ++ text).length ≤ 1021) {p : List UInt8} (hp : p <+: text ++ [CR, LF])
    (hne : p ≠ text ++ [CR, LF]) : readLine line p = none := by
  induction text generalizing line p with
  | nil =>
    have hl : line.length ≤ 1021 := by simpa using hlen
    rcases p with _ | ⟨b, _ | ⟨c, p⟩⟩
    · rw [readLine, if_pos (hline.goes_on (by omega))]
    · obtain rfl : b = CR := by simpa using hp
      rw [readLine, if_pos (hline.goes_on (by omega)), readLine, if_pos (hline.goes_on_cr (by omega))]
    · obtain ⟨rfl, rfl, rfl⟩ : b = CR ∧ c = LF ∧ p = [] := by simpa using hp
      exact absurd rfl hne
  | cons b text ih =>
    have hb := htext b List.mem_cons_self
    have hl : line.length + (text.length + 1) ≤ 1021 := by simpa using hlen
    have hgo := hline.goes_on (by omega)
    cases p with
    | nil => rw [readLine, if_pos hgo]
    | cons x p =>
      obtain ⟨rfl, htail⟩ := List.cons_prefix_cons.mp (List.cons_append ▸ hp)
      rw [readLine, if_pos hgo]
      refine ih (line ++ [x]) ?_ (fun x hx => htext x (List.mem_cons_of_mem _ hx)) (by simp; omega) htail ?_
      · intro y hy
        rcases List.mem_append.mp hy with hy | hy
        · exact hline y hy
        · exact List.mem_singleton.mp hy ▸ hb
      · rintro rfl
        exact hne rfl

/-! ## Responses -/

/-- The lines of a header block, and the blank line behind them. -/
def headerText (headers : List (List UInt8)) : List UInt8 :=
  headers.flatMap (fun h => h ++ [CR, LF]) ++ [CR, LF]

/-- A header line that fits into the buffer. -/
def HeaderLine (h : List UInt8) : Prop := h ≠ [] ∧ Clean h ∧ h.length ≤ 1021

instance (h : List UInt8) : Decidable (HeaderLine h) := inferInstanceAs (Decidable (_ ∧ _))

theorem headerText_cons (h : List UInt8) (headers : List (List UInt8)) (rest : List UInt8) :
    headerText (h :: headers) ++ rest = h ++ CR :: LF :: (headerText headers ++ rest) := by
  simp [headerText]

theorem length_headerText (headers : List (List UInt8)) : headers.length < (headerText headers).length := by
  induction headers with
  | nil => decide
  | cons h headers ih =>
    have hcons := congrArg List.length (headerText_cons h headers [])
    simp only [List.append_nil, List.length_append, List.length_cons] at hcons ⊢
    omega

/-- A header line does not look like the blank line. -/
theorem HeaderLine.not_blank {h : List UInt8} (hh : HeaderLine h) : (h ++ [CR, LF]).take 2 ≠ [CR, LF] := by
  obtain ⟨hne, hclean, -⟩ := hh
  obtain ⟨b, h, rfl⟩ := List.exists_cons_of_ne_nil hne
  intro heq
  have hb : b = CR := by simpa using congrArg List.head? heq
  exact (hclean b List.mem_cons_self).1 hb

/-- The reader stops behind the blank line. -/
theorem skipHeaders_text {headers : List (List UInt8)} (hh : ∀ h ∈ headers, HeaderLine h)
    (rest : List UInt8) {rounds : Nat} (hrounds : headers.length < rounds) :
    skipHeaders rounds (headerText headers ++ rest) = some rest := by
  induction headers generalizing rounds with
  | nil =>
    obtain ⟨rounds, rfl⟩ := Nat.exists_eq_succ_of_ne_zero (by omega : rounds ≠ 0)
    have hblank := readLine_text [] [] rest (by simp [Clean])
      (by simp [Clean]) (by simp)
    simp only [headerText, List.flatMap_nil, List.nil_append] at hblank ⊢
    rw [skipHeaders, show [CR, LF] ++ rest = CR :: LF :: rest from rfl, hblank]
    rfl
  | cons h headers ih =>
    obtain ⟨rounds, rfl⟩ := Nat.exists_eq_succ_of_ne_zero (by omega : rounds ≠ 0)
    have hline := hh h List.mem_cons_self
    rw [headerText_cons, skipHeaders,
      readLine_text [] _ _ (by simp [Clean]) hline.2.1 (by simpa using hline.2.2)]
    simp only [List.nil_append, if_neg hline.not_blank]
    exact ih (fun x hx => hh x (List.mem_cons_of_mem _ hx)) (Nat.lt_of_succ_lt_succ hrounds)

/-- A prefix of a concatenation ends in the first part or behind it. -/
theorem prefix_append_cases {α : Type*} {p l r : List α} (h : p <+: l ++ r) (hne : p ≠ l ++ r) :
    (p <+: l ∧ p ≠ l) ∨ ∃ q, p = l ++ q ∧ q <+: r ∧ q ≠ r := by
  rcases Nat.lt_or_ge p.length l.length with hlt | hge
  · exact Or.inl ⟨List.prefix_of_prefix_length_le h (List.prefix_append l r) (by omega),
      fun heq => absurd (congrArg List.length heq) (by omega)⟩
  · obtain ⟨q, rfl⟩ := List.prefix_of_prefix_length_le (List.prefix_append l r) h hge
    refine Or.inr ⟨q, rfl, (List.prefix_append_right_inj l).mp h, ?_⟩
    rintro rfl
    exact hne rfl

/-- Without the blank line the reader finds the connection closed. -/
theorem skipHeaders_truncated {headers : List (List UInt8)} (hh : ∀ h ∈ headers, HeaderLine h)
    {p : List UInt8} (hp : p <+: headerText headers) (hne : p ≠ headerText headers) (rounds : Nat) :
    skipHeaders rounds p = none := by
  induction headers generalizing rounds p with
  | nil =>
    cases rounds with
    | zero => rfl
    | succ rounds =>
      rw [skipHeaders, readLine_truncated [] [] (by simp [Clean]) (by simp [Clean]) (by simp) hp hne]
  | cons h headers ih =>
    cases rounds with
    | zero => rfl
    | succ rounds =>
      have hline := hh h List.mem_cons_self
      have hcons : headerText (h :: headers) = (h ++ [CR, LF]) ++ headerText headers := by
        simp [headerText]
      rw [hcons] at hp hne
      rcases prefix_append_cases hp hne with ⟨hp, hne⟩ | ⟨q, rfl, hq, hqne⟩
      · rw [skipHeaders, readLine_truncated [] _ (by simp [Clean]) hline.2.1 (by simpa using hline.2.2) hp hne]
      · rw [List.append_assoc]
        show skipHeaders (rounds + 1) (h ++ CR :: LF :: q) = none
        rw [skipHeaders, readLine_text [] _ _ (by simp [Clean]) hline.2.1 (by simpa using hline.2.2)]
        simp only [List.nil_append, if_neg hline.not_blank]
        exact ih (fun x hx => hh x (List.mem_cons_of_mem _ hx)) hq hqne rounds

/-! ## The status line -/

/-- A response: the status code, what follows it on its line, and the header lines. -/
structure Response where
  status : Nat
  reason : List UInt8
  headers : List (List UInt8)

namespace Response

/-- `HTTP/1.1` and a blank, and the status code. -/
def start (r : Response) : List Char :=
  ['H', 'T', 'T', 'P', '/', '1', '.', '1'] ++ ' ' :: Nat.toDigits 10 r.status

/-- The first line, without its end. -/
def statusLine (r : Response) : List UInt8 := r.start.map Char.toUInt8 ++ r.reason

/-- The whole response, up to the blank line. -/
def text (r : Response) : List UInt8 := r.statusLine ++ [CR, LF] ++ headerText r.headers

/-- Its lines fit into the buffer, and the status code ends where its digits do. -/
structure WellFormed (r : Response) : Prop where
  status : r.status < 2 ^ 31
  clean : Clean r.reason
  digits : ∀ b ∈ r.reason.head?, (Char.ofNat b.toNat).isDigit = false
  length : r.statusLine.length ≤ 1020
  headers : ∀ h ∈ r.headers, HeaderLine h

variable {r : Response}

theorem toNat_of_isDigit {c : Char} (hc : c.isDigit = true) : 48 ≤ c.toNat ∧ c.toNat ≤ 57 := by
  unfold Char.isDigit at hc
  simp only [ge_iff_le, Bool.and_eq_true, decide_eq_true_eq] at hc
  exact ⟨UInt32.le_iff_toNat_le.mp hc.1, UInt32.le_iff_toNat_le.mp hc.2⟩

/-- The first part of the status line is printable. -/
theorem mem_start {c : Char} (hc : c ∈ r.start) : 32 ≤ c.toNat ∧ c.toNat < 256 := by
  have hletters : ∀ c ∈ ['H', 'T', 'T', 'P', '/', '1', '.', '1'], 32 ≤ c.toNat ∧ c.toNat < 256 := by simp
  rcases List.mem_append.mp hc with hc | hc
  · exact hletters c hc
  · rcases List.mem_cons.mp hc with rfl | hc
    · decide
    · have hdigit : c.isDigit = true := Nat.isDigit_of_mem_toDigits (by decide) (by decide) hc
      have hrange := toNat_of_isDigit hdigit
      omega

theorem toNat_toUInt8 {c : Char} (hc : c.toNat < 256) : c.toUInt8.toNat = c.toNat := by
  show c.val.toUInt8.toNat = c.val.toNat
  have hval : c.val.toNat < 256 := hc
  simp only [UInt32.toNat_toUInt8]
  omega

/-- `sscanf` sees its characters. -/
theorem chars_start (r : Response) :
    (r.start.map Char.toUInt8).map (fun b => Char.ofNat b.toNat) = r.start := by
  have hid : ∀ c ∈ r.start, Char.ofNat c.toUInt8.toNat = c := by
    intro c hc
    rw [toNat_toUInt8 (mem_start hc).2, Char.ofNat_toNat]
  rw [List.map_map]
  exact (List.map_congr_left hid).trans (List.map_id _)

theorem clean_statusLine (h : r.WellFormed) : Clean r.statusLine := by
  intro b hb
  rcases List.mem_append.mp hb with hb | hb
  · obtain ⟨c, hc, rfl⟩ := List.mem_map.mp hb
    obtain ⟨hlow, hhigh⟩ := mem_start hc
    have hbyte := toNat_toUInt8 hhigh
    constructor
    · intro heq
      have h13 : c.toUInt8.toNat = 13 := congrArg UInt8.toNat heq
      omega
    · intro heq
      have h10 : c.toUInt8.toNat = 10 := congrArg UInt8.toNat heq
      omega
  · exact h.clean b hb

theorem toInt_status (h : r.WellFormed) : (Int32.ofInt r.status).toInt = r.status := by
  have hlt := h.status
  exact Int32.toInt_ofInt_of_le (by omega) (by omega)

/-- The status code is read. -/
theorem scanStatus_statusLine (h : r.WellFormed) :
    scanStatus (r.statusLine ++ [CR, LF]) = [.number (Int32.ofInt r.status)] := by
  have hdigits : Numeral (Nat.toDigits 10 r.status) (Int32.ofInt r.status).toInt := by
    have hplain : Numeral (Nat.toDigits 10 r.status) (decimal (Nat.toDigits 10 r.status)) :=
      .plain Nat.toDigits_ne_nil fun c hc => Nat.isDigit_of_mem_toDigits (by decide) (by decide) hc
    rwa [decimal_toDigits, ← toInt_status h] at hplain
  have hnul : ∀ c ∈ r.start, decide (c ≠ '\x00') = true := by
    intro c hc
    have hlow := (mem_start hc).1
    rw [decide_eq_true_eq]
    rintro rfl
    exact absurd hlow (by decide)
  -- what stands behind the digits does not go on with one
  have htail : ∀ c ∈ (cString ((r.reason ++ [CR, LF]).map fun b => Char.ofNat b.toNat)).head?,
      c.isDigit = false := by
    intro c hc
    cases hreason : r.reason with
    | nil =>
      have hline : cString (([] ++ [CR, LF]).map fun b : UInt8 => Char.ofNat b.toNat) = ['\r', '\n'] := by
        decide
      rw [hreason, hline] at hc
      exact Option.some.inj hc ▸ by decide
    | cons b reason =>
      have hb := h.digits b (by rw [hreason]; rfl)
      rw [hreason, List.cons_append, List.map_cons, cString, List.takeWhile_cons] at hc
      split at hc
      · exact Option.some.inj hc ▸ hb
      · exact absurd hc (by simp)
  have hblank : (Nat.toDigits 10 r.status ++
      cString ((r.reason ++ [CR, LF]).map fun b => Char.ofNat b.toNat)).dropWhile isSpace =
      Nat.toDigits 10 r.status ++ cString ((r.reason ++ [CR, LF]).map fun b => Char.ofNat b.toNat) := by
    obtain ⟨d, ds, hd⟩ := List.exists_cons_of_ne_nil (Nat.toDigits_ne_nil (n := r.status) (b := 10))
    have hdigit : d.isDigit = true :=
      Nat.isDigit_of_mem_toDigits (b := 10) (n := r.status) (by decide) (by decide) (hd ▸ List.mem_cons_self)
    rw [hd, List.cons_append, List.dropWhile_cons_of_neg (by simp [isSpace_of_isDigit hdigit])]
  have hscan := scanInt_numeral hdigits htail
  unfold scanStatus statusLine
  rw [List.append_assoc, List.map_append, chars_start]
  unfold cString at *
  rw [List.takeWhile_append_of_pos hnul]
  unfold start
  rw [List.append_assoc, sscanf_literals, sscanf, List.cons_append, List.dropWhile_cons_of_pos (by decide),
    hblank, sscanf, hscan]
  rfl

/-! ## The response as a whole -/

/-- A response is read to its end, and no further. -/
theorem connected_text (h : r.WellFormed) (useMask : Bool) (rest : List UInt8) :
    connected useMask (r.text ++ rest) =
      if r.status = 101 then some (WebSocket.init useMask, rest) else none := by
  have hline : readLine [] (r.text ++ rest) =
      some (r.statusLine ++ [CR, LF], headerText r.headers ++ rest) := by
    have hread := readLine_text [] _ (headerText r.headers ++ rest) (by simp [Clean])
      (clean_statusLine h) (Nat.le_succ_of_le h.length)
    simpa [text] using hread
  have hlen : (r.statusLine ++ [CR, LF]).length ≠ 1023 := by
    have := h.length
    rw [List.length_append]
    show _ + 2 ≠ 1023
    omega
  have hrounds : r.headers.length < (headerText r.headers ++ rest).length := by
    have := length_headerText r.headers
    rw [List.length_append]
    omega
  unfold connected
  simp only [hline, if_neg hlen, scanStatus_statusLine h, skipHeaders_text h.headers rest hrounds]
  by_cases hstatus : r.status = 101
  · rw [hstatus]
    rfl
  · have hne : ¬ [Converted.number (Int32.ofInt r.status)] = [.number 101] := by
      intro heq
      have hcode : Int32.ofInt r.status = 101 := Converted.number.inj (List.cons.inj heq).1
      have hvalue := toInt_status h
      rw [hcode] at hvalue
      exact hstatus (Int.ofNat.inj hvalue).symm
    rw [if_neg hne, if_neg hstatus]

/-- A connection that ends before makes no socket. -/
theorem connected_truncated (h : r.WellFormed) (useMask : Bool) {p : List UInt8} (hp : p <+: r.text)
    (hne : p ≠ r.text) : connected useMask p = none := by
  unfold text at hp hne
  rcases prefix_append_cases hp hne with ⟨hp, hne⟩ | ⟨q, rfl, hq, hqne⟩
  · unfold connected
    rw [readLine_truncated [] _ (by simp [Clean]) (clean_statusLine h) (Nat.le_succ_of_le h.length) hp hne]
  · have hline : readLine [] (r.statusLine ++ [CR, LF] ++ q) = some (r.statusLine ++ [CR, LF], q) := by
      have hread := readLine_text [] _ q (by simp [Clean]) (clean_statusLine h)
        (Nat.le_succ_of_le h.length)
      simpa using hread
    unfold connected
    simp only [hline, skipHeaders_truncated h.headers hq hqne]
    split
    · rfl
    · split <;> rfl

end Response

/-! ## `from_url` -/

/-- What `snprintf` leaves in a buffer of 1024, for `::send`. -/
def sprintLine (s : List Char) : List Char := s.take 1023

/-- The lines sent, in the order of the calls of `::send`. -/
def request (t : Target) (origin : List Char) : List Char :=
  sprintLine ("GET /".toList ++ t.path ++ " HTTP/1.1\r\n".toList) ++
  (if t.port = 80 then sprintLine ("Host: ".toList ++ t.host ++ "\r\n".toList)
    else sprintLine ("Host: ".toList ++ t.host ++ ':' :: numeral t.port ++ "\r\n".toList)) ++
  sprintLine "Upgrade: websocket\r\n".toList ++
  sprintLine "Connection: Upgrade\r\n".toList ++
  (if origin = [] then [] else sprintLine ("Origin: ".toList ++ cString origin ++ "\r\n".toList)) ++
  sprintLine "Sec-WebSocket-Key: x3JJHMbDL1EzLkh9GBhXDw==\r\n".toList ++
  sprintLine "Sec-WebSocket-Version: 13\r\n".toList ++
  sprintLine "\r\n".toList

/-- `from_url`, over a connection that has been made and on which `stream` arrives: what is sent, and the
    socket with what it finds on the connection. -/
def fromUrl (url : List Char) (useMask : Bool) (origin : List Char) (stream : List UInt8) :
    List Char × Option (WebSocket × List UInt8) :=
  if origin.length ≥ 200 then ([], none)
  else
    match parseUrl url with
    | none => ([], none)
    | some t => (request t origin, connected useMask stream)

/-! ### The request -/

/-- Text that does not end a line. -/
def OneLine (s : List Char) : Prop := ∀ c ∈ s, c ≠ '\r' ∧ c ≠ '\n'

instance (s : List Char) : Decidable (OneLine s) := List.decidableBAll _ _

theorem oneLine_append {l₁ l₂ : List Char} : OneLine (l₁ ++ l₂) ↔ OneLine l₁ ∧ OneLine l₂ :=
  List.forall_mem_append

theorem oneLine_numeral (n : Int32) : OneLine (numeral n) := by
  intro c hc
  rcases (numeral_numeral n).chars hc with hd | rfl | rfl
  · exact ⟨fun h => absurd (h ▸ hd) (by decide), fun h => absurd (h ▸ hd) (by decide)⟩
  · decide
  · decide

/-- `:` and the port, unless it is the one a host has anyway. -/
def portSuffix (t : Target) : List Char :=
  if t.port = 80 then [] else ':' :: numeral t.port

/-- The lines of the request, without their ends. -/
def requestLines (t : Target) (origin : List Char) : List (List Char) :=
  ["GET /".toList ++ t.path ++ " HTTP/1.1".toList, "Host: ".toList ++ t.host ++ portSuffix t] ++
  ["Upgrade: websocket".toList, "Connection: Upgrade".toList] ++
  (if origin = [] then [] else ["Origin: ".toList ++ cString origin]) ++
  ["Sec-WebSocket-Key: x3JJHMbDL1EzLkh9GBhXDw==".toList, "Sec-WebSocket-Version: 13".toList]

section
variable {url origin : List Char} {t : Target}

theorem portSuffix_spec (t : Target) : OneLine (portSuffix t) ∧ (portSuffix t).length ≤ 12 := by
  have hnumeral := length_numeral t.port
  unfold portSuffix
  split
  · exact ⟨by decide, by decide⟩
  · have hcolon : OneLine ([':'] ++ numeral t.port) :=
      oneLine_append.mpr ⟨by decide, oneLine_numeral _⟩
    exact ⟨hcolon, by rw [List.length_cons]; omega⟩

/-- A property of the lines, line by line. -/
theorem forall_requestLines {P : List Char → Prop} : (∀ line ∈ requestLines t origin, P line) ↔
    P ("GET /".toList ++ t.path ++ " HTTP/1.1".toList) ∧ P ("Host: ".toList ++ t.host ++ portSuffix t) ∧
    (origin ≠ [] → P ("Origin: ".toList ++ cString origin)) ∧
    ∀ line ∈ ["Upgrade: websocket".toList, "Connection: Upgrade".toList,
      "Sec-WebSocket-Key: x3JJHMbDL1EzLkh9GBhXDw==".toList, "Sec-WebSocket-Version: 13".toList], P line := by
  unfold requestLines
  by_cases hnone : origin = []
  · simp [hnone]
  · simp [hnone]
    tauto

/-- Every line of the request fits into the buffer. -/
theorem length_requestLines (hurl : parseUrl url = some t) (hlong : origin.length < 200) :
    ∀ line ∈ requestLines t origin, line ≠ [] ∧ line.length ≤ 1021 := by
  obtain ⟨hlen, -, -, -, hparts⟩ := parseUrl_parts hurl
  have hstring : (cString url).Sublist url := List.takeWhile_sublist _
  have hsite : (cString origin).Sublist origin := List.takeWhile_sublist _
  have htarget := (hparts.trans hstring).length_le
  have horigin := hsite.length_le
  have hport := (portSuffix_spec t).2
  rw [List.length_append] at htarget
  refine forall_requestLines.mpr ⟨⟨by simp, ?_⟩, ⟨by simp, ?_⟩, fun _ => ⟨by simp, ?_⟩, by decide⟩
  · rw [List.length_append, List.length_append]
    show 5 + t.path.length + 9 ≤ 1021
    omega
  · rw [List.length_append, List.length_append]
    show 6 + t.host.length + (portSuffix t).length ≤ 1021
    omega
  · rw [List.length_append]
    show 8 + (cString origin).length ≤ 1021
    omega

/-- A line that fits into the buffer is sent as a whole. -/
theorem request_eq (hlines : ∀ line ∈ requestLines t origin, line ≠ [] ∧ line.length ≤ 1021) :
    request t origin = (requestLines t origin).flatMap (fun line => line ++ ['\r', '\n']) ++ ['\r', '\n'] := by
  have hkeep : ∀ line ∈ requestLines t origin, sprintLine (line ++ ['\r', '\n']) = line ++ ['\r', '\n'] := by
    intro line hline
    have hl := (hlines line hline).2
    exact List.take_of_length_le (by simp; omega)
  have hblank : sprintLine ['\r', '\n'] = ['\r', '\n'] := rfl
  have hcalls : request t origin =
      (requestLines t origin).flatMap (fun line => sprintLine (line ++ ['\r', '\n'])) ++ ['\r', '\n'] := by
    unfold request requestLines portSuffix
    by_cases hport : t.port = 80 <;> by_cases hnone : origin = [] <;> simp [hport, hnone, hblank]
  rw [hcalls, List.flatMap_congr hkeep]

/-- The limits on the URL and on the origin are sufficient for the buffer: no line of the request is cut off,
    and it ends with its first blank line. Its lines are the ones that are meant if and only if there is no
    line break in the host and in the origin; in the path there is none. -/
theorem request_spec (hurl : parseUrl url = some t) (hlong : origin.length < 200) :
    request t origin = (requestLines t origin).flatMap (fun line => line ++ ['\r', '\n']) ++ ['\r', '\n'] ∧
      (∀ line ∈ requestLines t origin, line ≠ [] ∧ line.length ≤ 1021) ∧
      ((∀ line ∈ requestLines t origin, OneLine line) ↔ OneLine t.host ∧ OneLine (cString origin)) := by
  have hlines := length_requestLines hurl hlong
  refine ⟨request_eq hlines, hlines, ?_⟩
  have hpath : OneLine t.path := by
    intro c hc
    have hword := ((wellFormed_of_parseUrl hurl).path c hc).1
    exact ⟨fun h => absurd (h ▸ hword) (by decide), fun h => absurd (h ▸ hword) (by decide)⟩
  have hget : OneLine ("GET /".toList ++ t.path ++ " HTTP/1.1".toList) :=
    oneLine_append.mpr ⟨oneLine_append.mpr ⟨by decide, hpath⟩, by decide⟩
  have hport := (portSuffix_spec t).1
  rw [forall_requestLines]
  constructor
  · rintro ⟨-, hhost, horigin, -⟩
    refine ⟨(oneLine_append.mp (oneLine_append.mp hhost).1).2, ?_⟩
    by_cases hnone : origin = []
    · rw [hnone]
      decide
    · exact (oneLine_append.mp (horigin hnone)).2
  · rintro ⟨hhost, horigin⟩
    exact ⟨hget, oneLine_append.mpr ⟨oneLine_append.mpr ⟨by decide, hhost⟩, hport⟩,
      fun _ => oneLine_append.mpr ⟨by decide, horigin⟩, by decide⟩

theorem request_spec_webSocketUrl : request webSocketUrl [] =
    "GET /foo HTTP/1.1\r\nHost: localhost:8126\r\nUpgrade: websocket\r\nConnection: Upgrade\r\n".toList ++
    "Sec-WebSocket-Key: x3JJHMbDL1EzLkh9GBhXDw==\r\nSec-WebSocket-Version: 13\r\n\r\n".toList := by
  have hurl : parseUrl "ws://localhost:8126/foo".toList = some webSocketUrl := by decide
  have hshort : ([] : List Char).length < 200 := by decide
  rw [(request_spec hurl hshort).1]
  decide +kernel

end

/-! ### The connection -/

open WsFrame in
/-- A URL and an origin within their limits get a socket if and only if the response is read to its end and its
    status is 101. What follows the response is then received: in whatever pieces the bytes of frames arrive,
    the callback is called with the messages they carry. -/
theorem opening_handshake {url origin : List Char} {t : Target} {r : Response} (hurl : parseUrl url = some t)
    (hlong : origin.length < 200) (hr : r.WellFormed) (useMask : Bool) :
    (∀ p, p <+: r.text → p ≠ r.text → fromUrl url useMask origin p = (request t origin, none)) ∧
      (r.status ≠ 101 → ∀ rest, fromUrl url useMask origin (r.text ++ rest) = (request t origin, none)) ∧
      (r.status = 101 → ∀ (ms : List (List (List UInt8))) (fs : List WsFrame) (part : List UInt8),
        (∀ parts ∈ ms, parts ≠ []) → fragmentsIn fs = ms.flatMap fragments → (∀ f ∈ fs, f.Fits) → Begun part →
        ∃ ws left, fromUrl url useMask origin (r.text ++ (fs.flatMap WsFrame.bytes ++ part)) =
            (request t origin, some (ws, left)) ∧
          ∀ pieces, pieces.flatten = left →
            (WebSocket.consumer.session ws pieces).2 = ms.map List.flatten ∧
              (WebSocket.consumer.session ws pieces).1.rxbuf = part) := by
  have hopen : ∀ stream,
      fromUrl url useMask origin stream = (request t origin, connected useMask stream) := by
    intro stream
    unfold fromUrl
    rw [if_neg (by omega), hurl]
  refine ⟨?_, ?_, ?_⟩
  · intro p hp hne
    rw [hopen, Response.connected_truncated hr useMask hp hne]
  · intro hstatus rest
    rw [hopen, Response.connected_text hr, if_neg hstatus]
  · intro hstatus ms fs part hms hfragments hfits hpart
    refine ⟨WebSocket.init useMask, fs.flatMap WsFrame.bytes ++ part, ?_, ?_⟩
    · rw [hopen, Response.connected_text hr, if_pos hstatus]
    · intro pieces hpieces
      rw [WebSocket.session_frames rfl rfl hfits hpart hpieces]
      refine ⟨?_, rfl⟩
      rw [(WebSocket.receive_calls _ fs).1]
      show (reassemble [] fs).1 = _
      rw [WebSocket.reassemble_messages hms hfragments]

/-- What a server answers that switches to the protocol. -/
def switching : Response :=
  ⟨101, " Switching Protocols".toList.map Char.toUInt8,
    ["Upgrade: websocket", "Connection: Upgrade"].map fun line => line.toList.map Char.toUInt8⟩

open WsFrame in
theorem opening_handshake_webSocketUrl : ∃ ws left,
    fromUrl "ws://localhost:8126/foo".toList true [] (switching.text ++
      (WebSocket.serverFrames.flatMap WsFrame.bytes ++ [0x89])) = (request webSocketUrl [], some (ws, left)) ∧
      ∀ pieces, pieces.flatten = left →
        (WebSocket.consumer.session ws pieces).2 = [[104, 105], [1, 2, 3, 4, 5]] ∧
          (WebSocket.consumer.session ws pieces).1.rxbuf = [0x89] := by
  have hurl : parseUrl "ws://localhost:8126/foo".toList = some webSocketUrl := by decide
  have hr : switching.WellFormed :=
    ⟨by decide, by decide, fun _ hb => Option.some.inj hb ▸ rfl, by decide, by decide⟩
  have hbegun : Begun [0x89] := .inr ⟨⟨true, .ping, none, []⟩, by decide, by decide, by decide⟩
  exact (opening_handshake hurl (by decide) hr true).2.2 rfl [[[104], [105]], [[1, 2, 3, 4, 5]]]
    WebSocket.serverFrames [0x89] (by simp) (by decide) (by decide +kernel) hbegun

end Epidemica
