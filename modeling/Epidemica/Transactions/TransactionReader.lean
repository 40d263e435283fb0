import Epidemica.Transactions.Transaction

/-!
# `Transactions.TransactionReader` — from a file to a batch of transactions

A file is the characters its stream delivers. Positions in a token are `size_t`: here `none` stands for
`npos`, and for a difference that wraps around, both of which lie beyond the end of any string. The only
number that is computed from `npos` is `npos + 1`, which is `0`.
-/

namespace Epidemica

/-! ## Strings and streams -/

/-- `isspace` in the classic locale. -/
def isSpace (c : Char) : Bool := c ∈ [' ', '\t', '\n', '\u000b', '\u000c', '\r']

/-- `s.find(pattern)`. -/
def find (pattern : List Char) : List Char → Option Nat
  | [] => if pattern.isPrefixOf [] then some 0 else none
  | c :: s => if pattern.isPrefixOf (c :: s) then some 0 else (find pattern s).map (· + 1)

/-- `pos + 1`. -/
def sizeSucc : Option Nat → Nat
  | some pos => pos + 1
  | none => 0

/-- `a - b`. -/
def sizeSub (a b : Nat) : Option Nat := if b ≤ a then some (a - b) else none

/-- `s.substr(pos, count)`, for `pos` within `s`. -/
def substr (s : List Char) (pos : Nat) : Option Nat → List Char
  | some count => (s.drop pos).take count
  | none => s.drop pos

/-- The tokens that `stream >> string` yields one after another; `token` has been read of the next one. -/
def tokensFrom (token : List Char) : List Char → List (List Char)
  | [] => if token = [] then [] else [token]
  | c :: s =>
    if isSpace c then
      if token = [] then tokensFrom [] s else token :: tokensFrom [] s
    else tokensFrom (token ++ [c]) s

/-- The words of a text, as `stream >> word` extracts them. -/
def tokens (s : List Char) : List (List Char) := tokensFrom [] s

/-- What `stream >> value` leaves for an `int` that was `0`: the value, and whether `failbit` is set. -/
structure Extraction where
  value : Int32
  fail : Bool
  deriving DecidableEq, Repr

/-- The number that digits stand for. -/
def decimal (digits : List Char) : Nat := digits.foldl (fun n c => 10 * n + (c.toNat - '0'.toNat)) 0

/-- The digits in front of `s`, under a sign. A number out of range becomes the nearest `int`. -/
def extractDigits (sign : Int) (s : List Char) : Extraction :=
  let digits := s.takeWhile Char.isDigit
  let n := sign * decimal digits
  if digits = [] then ⟨0, true⟩
  else if n > Int32.maxValue.toInt then ⟨Int32.maxValue, true⟩
  else if n < Int32.minValue.toInt then ⟨Int32.minValue, true⟩
  else ⟨Int32.ofInt n, false⟩

/-- `stream >> value`. -/
def extractInt (s : List Char) : Extraction :=
  match s.dropWhile isSpace with
  | '-' :: s => extractDigits (-1) s
  | '+' :: s => extractDigits 1 s
  | s => extractDigits 1 s

/-! ## The reader -/

/-- `struct Transactions`. -/
structure Transactions where
  layer : Int
  readOnly : Bool
  transactions : List TransactionData
  deriving DecidableEq, Repr

/-- What `parseLayer` and `isReadOnly` extract a number from. -/
def headerLayer (line : List Char) : Extraction :=
  extractInt (substr line (sizeSucc (find ['b'] line)) (find [','] line))

/-- `parseLayer`: what is no layer counts as `0`. -/
def parseLayer (line : List Char) : Int :=
  if line ≠ [] then
    let layer := headerLayer line
    if layer.fail = false ∧ layer.value > 0 ∧ layer.value < 3 then layer.value.toInt else 0
  else 0

/-- `isReadOnly`. -/
def isReadOnly (strTrans : List Char) : Bool :=
  if strTrans ≠ [] then
    let layer := headerLayer strTrans
    !layer.fail && layer.value ≥ 0 && layer.value < 3
  else false

/-- The operation named between `(` and `,`. -/
def parseType (type : List Char) : TransactionType :=
  if (find ['s', 'u', 'm'] type).isSome then .sum
  else if (find ['s', 'u', 'b', 's'] type).isSome then .substract
  else if (find ['m', 'u', 'l', 't'] type).isSome then .multiply
  else .unkown

/-- `parseTransaction`. -/
def parseTransaction (strTrans : List Char) : TransactionData :=
  if (find ['r'] strTrans).isSome then
    match find ['('] strTrans, find [')'] strTrans with
    | some start, some finish =>
      ⟨.read, (extractInt (substr strTrans start (sizeSub finish start))).value⟩
    | _, _ => ⟨.read, 0⟩
  else if (find ['w'] strTrans).isSome then
    match find ['('] strTrans, find [','] strTrans, find [')'] strTrans with
    | some start, some mid, some finish =>
      ⟨parseType (substr strTrans (start + 1) (sizeSub mid start)),
        (extractInt (substr strTrans (mid + 1) (sizeSub finish mid))).value⟩
    | _, _, _ => ⟨.unkown, 0⟩
  else ⟨.unkown, 0⟩

/-- `ReadTransactions`. `file` is `none` if it cannot be opened; then the batch is empty, and its header
    is what the uninitialised fields happen to hold. -/
def readTransactions (uninit : Int × Bool) (file : Option (List Char)) : Transactions :=
  match file with
  | none => ⟨uninit.1, uninit.2, []⟩
  | some text =>
    let header := (tokens text).headD []
    { layer := parseLayer header
      readOnly := isReadOnly header
      transactions := ((tokens text).tail.map parseTransaction).filter (·.type ≠ .unkown) }

example : readTransactions (0, false) (some "b, r(20), w(mult,2), w(subs,-12)".toList) =
    ⟨0, false, [⟨.read, 0⟩, ⟨.multiply, 2⟩, ⟨.substract, -12⟩]⟩ := by decide

/-! ## What a batch can hold -/

/-- A token is never read as a `SET`. -/
theorem parseTransaction_type (s : List Char) :
    (parseTransaction s).type.isWrite = true ∨ (parseTransaction s).type = .read ∨
      (parseTransaction s).type = .unkown := by
  unfold parseTransaction
  split
  · split <;> exact Or.inr (Or.inl rfl)
  · split
    · split
      · unfold parseType
        split
        · exact Or.inl rfl
        · split
          · exact Or.inl rfl
          · split
            · exact Or.inl rfl
            · exact Or.inr (Or.inr rfl)
      · exact Or.inr (Or.inr rfl)
    · exact Or.inr (Or.inr rfl)

/-- A batch consists of writes and reads. -/
theorem readTransactions_type {uninit : Int × Bool} {file : Option (List Char)} {d : TransactionData}
    (hd : d ∈ (readTransactions uninit file).transactions) :
    d.type.isWrite = true ∨ d.type = .read := by
  cases file with
  | none => exact absurd hd (by simp [readTransactions])
  | some text =>
    obtain ⟨hmem, hknown⟩ := List.mem_filter.mp hd
    obtain ⟨s, -, rfl⟩ := List.mem_map.mp hmem
    rcases parseTransaction_type s with hwrite | hread | hnot
    · exact Or.inl hwrite
    · exact Or.inr hread
    · exact absurd hnot (by simpa using hknown)

/-- The layer of a header is one of the three. -/
theorem parseLayer_range (line : List Char) :
    parseLayer line = 0 ∨ parseLayer line = 1 ∨ parseLayer line = 2 := by
  unfold parseLayer
  split
  · simp only
    split
    · rename_i h
      have hpos : 0 < (headerLayer line).value.toInt := Int32.lt_iff_toInt_lt.mp h.2.1
      have hlt : (headerLayer line).value.toInt < 3 := Int32.lt_iff_toInt_lt.mp h.2.2
      omega
    · exact Or.inl rfl
  · exact Or.inl rfl

end Epidemica
