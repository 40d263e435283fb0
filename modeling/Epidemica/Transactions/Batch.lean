import Epidemica.Transactions.Strings

/-!
# `Transactions.Batch` — batches in the documented form

A batch file holds a header and commands, `b, w(sum,20), w(mult,2), w(subs,12)`. A command is written with
a numeral for its argument; a batch is written with a comma behind the header and the commands and
whitespace between them. What the reader makes of a written batch is compared with the commands in it.
-/

namespace Epidemica

open Cut

/-! ## Commands -/

/-- The operations of a write. -/
inductive Operation where
  | sum | subs | mult
  deriving DecidableEq, Repr

namespace Operation

/-- How an operation is written. -/
def name : Operation → List Char
  | .sum => ['s', 'u', 'm']
  | .subs => ['s', 'u', 'b', 's']
  | .mult => ['m', 'u', 'l', 't']

/-- What it stands for. -/
def type : Operation → TransactionType
  | .sum => .sum
  | .subs => .substract
  | .mult => .multiply

end Operation

/-- `r(n)` and `w(op,n)`. -/
inductive Command where
  | read (n : Int32)
  | write (op : Operation) (n : Int32)
  deriving DecidableEq, Repr

namespace Command

/-- The argument. -/
def value : Command → Int32
  | .read n => n
  | .write _ n => n

/-- What a command stands for. -/
def type : Command → TransactionType
  | .read _ => .read
  | .write op _ => op.type

/-- The transaction that a command stands for. -/
def transaction (c : Command) : TransactionData := ⟨c.type, c.value⟩

/-- The command with `argument` as the text of its argument. -/
def written (argument : List Char) : Command → List Char
  | .read _ => 'r' :: '(' :: (argument ++ [')'])
  | .write op _ => 'w' :: '(' :: (op.name ++ ',' :: (argument ++ [')']))

/-- What the reader makes of a written command. -/
def received : Command → TransactionData
  | .read _ => ⟨.read, 0⟩
  | .write op n => ⟨op.type, n⟩

end Command

/-- The comma that may stand behind a command. -/
def commaIf (b : Bool) : List Char := if b then [','] else []

/-! ## One token -/

/-- Where a read is recognised its argument is lost: the slice that it is extracted from starts at the
    parenthesis. -/
theorem parseTransaction_read {s : List Char} (hr : 'r' ∈ s) : parseTransaction s = ⟨.read, 0⟩ := by
  have hslice (h : '(' ∈ s) (count : Option Nat) :
      (extractInt (substr s (before '(' s).length count)).value = 0 := by
    unfold substr
    rw [drop_length_before h]
    rcases count with _ | _ | count <;> rfl
  unfold parseTransaction
  rw [if_pos (find_char_isSome.mpr hr), find_char, find_char]
  split
  · rename_i start finish hopen _
    by_cases h : '(' ∈ s
    · rw [if_pos h] at hopen
      rw [← Option.some.inj hopen, hslice h]
    · rw [if_neg h] at hopen
      exact absurd hopen (by simp)
  · rfl

/-- A token with a `w`, no `r` and all three delimiters, in terms of the slices between them. -/
theorem parseTransaction_write {s : List Char} (hr : 'r' ∉ s) (hw : 'w' ∈ s) (hopen : '(' ∈ s)
    (hcomma : ',' ∈ s) (hclose : ')' ∈ s) :
    parseTransaction s =
      ⟨parseType (between '(' ',' s), (extractInt (between ',' ')' s)).value⟩ := by
  unfold parseTransaction
  rw [if_neg (by rwa [find_char_isSome]), if_pos (find_char_isSome.mpr hw), find_char, find_char, find_char,
    if_pos hopen, if_pos hcomma, if_pos hclose]
  simp only
  rw [substr_between hopen hcomma (by decide), substr_between hcomma hclose (by decide)]

theorem Operation.comma_notMem_name (op : Operation) : ',' ∉ op.name := by
  cases op <;> decide

theorem Operation.parseType_name (op : Operation) : parseType (op.name ++ [',']) = op.type := by
  cases op <;> decide

theorem Command.parseTransaction_written (c : Command) {argument : List Char}
    (h : Numeral argument c.value.toInt) (b : Bool) :
    parseTransaction (c.written argument ++ commaIf b) = c.received := by
  cases c with
  | read n => exact parseTransaction_read (by simp [written])
  | write op n =>
    have hr : 'r' ∉ argument := h.notMem (by decide) (by decide) (by decide)
    have hclose : ')' ∉ argument := h.notMem (by decide) (by decide) (by decide)
    have hwritten : (write op n).written argument ++ commaIf b
        = ['w'] ++ '(' :: (op.name ++ ',' :: (argument ++ ')' :: commaIf b)) := by simp [written]
    have hassoc : ['w'] ++ '(' :: (op.name ++ ',' :: (argument ++ ')' :: commaIf b))
        = (['w', '('] ++ op.name) ++ ',' :: (argument ++ ')' :: commaIf b) := by simp
    have htype : between '(' ',' ((write op n).written argument ++ commaIf b) = op.name ++ [','] := by
      rw [hwritten]
      exact between_append (by decide) (by decide) op.comma_notMem_name
    have hvalue : between ',' ')' ((write op n).written argument ++ commaIf b) = argument ++ [')'] := by
      rw [hwritten, hassoc]
      exact between_append (by cases op <;> decide) (by cases op <;> decide) hclose
    have hread : 'r' ∉ (write op n).written argument ++ commaIf b := by
      cases op <;> cases b <;> simp [written, Operation.name, commaIf, hr]
    rw [parseTransaction_write hread (by simp [written]) (by simp [written]) (by simp [written])
      (by simp [written]), htype, hvalue, op.parseType_name, extractInt_numeral h (by simp)]
    rfl

theorem Command.received_type (c : Command) : c.received.type = c.type := by cases c <;> rfl

theorem Command.type_ne_unkown (c : Command) : c.type ≠ .unkown := by
  rcases c with n | ⟨op, n⟩
  · simp [Command.type]
  · cases op <;> simp [Command.type, Operation.type]

/-- A read loses its argument, a write does not. -/
theorem Command.received_eq_transaction (c : Command) :
    c.received = c.transaction ↔ ∀ n, c = .read n → n = 0 := by
  cases c with
  | read n =>
    constructor
    · intro h m hm
      have hval : (0 : Int32) = n := congrArg TransactionData.value h
      rw [← Command.read.inj hm, ← hval]
    · intro h
      rw [h n rfl]
      rfl
  | write op n => exact ⟨fun _ m hm => absurd hm (by simp), fun _ => rfl⟩

theorem Command.isWord_written (c : Command) {argument : List Char}
    (h : Numeral argument c.value.toInt) (b : Bool) : IsWord (c.written argument ++ commaIf b) := by
  have harg : ∀ x ∈ argument, isSpace x = false := by
    intro x hx
    rcases h.chars hx with hdigit | rfl | rfl
    · exact isSpace_of_isDigit hdigit
    · decide
    · decide
  have hend : ∀ x ∈ argument ++ [')'], isSpace x = false :=
    List.forall_mem_append.mpr ⟨harg, isSpace_of_any (by decide)⟩
  have hcomma : ∀ x ∈ commaIf b, isSpace x = false := isSpace_of_any (by cases b <;> decide)
  cases c with
  | read n =>
    refine ⟨by simp [written], List.forall_mem_append.mpr ⟨?_, hcomma⟩⟩
    exact List.forall_mem_cons.mpr ⟨by decide, List.forall_mem_cons.mpr ⟨by decide, hend⟩⟩
  | write op n =>
    have hname : ∀ x ∈ op.name, isSpace x = false := isSpace_of_any (by cases op <;> decide)
    have hrest : ∀ x ∈ op.name ++ ',' :: (argument ++ [')']), isSpace x = false :=
      List.forall_mem_append.mpr ⟨hname, List.forall_mem_cons.mpr ⟨by decide, hend⟩⟩
    refine ⟨by simp [written], List.forall_mem_append.mpr ⟨?_, hcomma⟩⟩
    exact List.forall_mem_cons.mpr ⟨by decide, List.forall_mem_cons.mpr ⟨by decide, hrest⟩⟩

/-! ## The header -/

/-- `b` for a write batch, `bL` for a read-only batch on layer `L`. -/
inductive Header where
  | write
  | readOnly (layer : Fin 3)
  deriving DecidableEq, Repr

namespace Header

/-- How a header is written. -/
def text : Header → List Char
  | .write => ['b']
  | .readOnly layer => 'b' :: Nat.toDigits 10 layer

/-- The layer the header names; a write batch is for the first. -/
def layer : Header → Int
  | .write => 0
  | .readOnly layer => layer

/-- Whether the header names a layer. -/
def isReadOnly : Header → Bool
  | .write => false
  | .readOnly _ => true

theorem parseLayer_text (h : Header) (b : Bool) : parseLayer (h.text ++ commaIf b) = h.layer := by
  cases h with
  | write => cases b <;> decide
  | readOnly layer => cases b <;> revert layer <;> decide

theorem isReadOnly_text (h : Header) (b : Bool) :
    Epidemica.isReadOnly (h.text ++ commaIf b) = h.isReadOnly := by
  cases h with
  | write => cases b <;> decide
  | readOnly layer => cases b <;> revert layer <;> decide

theorem isWord_text (h : Header) (b : Bool) : IsWord (h.text ++ commaIf b) := by
  cases h with
  | write => exact ⟨by simp [text], isSpace_of_any (by cases b <;> decide)⟩
  | readOnly layer =>
    exact ⟨by simp [text], isSpace_of_any (by cases b <;> revert layer <;> decide)⟩

end Header

/-! ## Batches -/

/-- Whitespace, possibly none. -/
structure Gap where
  chars : List Char
  isSpace : ∀ c ∈ chars, isSpace c = true

/-- Whitespace that separates two words. -/
structure Space extends Gap where
  ne_nil : chars ≠ []

/-- A command as it stands in a batch: the whitespace in front of it, how its argument is spelled, and
    whether a comma follows. -/
structure Entry where
  space : Space
  command : Command
  argument : List Char
  numeral : Numeral argument command.value.toInt
  comma : Bool

/-- The word that an entry is, with its comma. -/
def Entry.word (e : Entry) : List Char := e.command.written e.argument ++ commaIf e.comma

theorem Entry.isWord_word (e : Entry) : IsWord e.word := e.command.isWord_written e.numeral e.comma

/-- A file: a header and commands, with whitespace around them and optional commas behind them. -/
structure Batch where
  lead : Gap
  header : Header
  comma : Bool
  entries : List Entry
  trail : Gap

namespace Batch

/-- The commands of a batch, in order. -/
def commands (b : Batch) : List Command := b.entries.map Entry.command

/-- The words behind the header. -/
def body (entries : List Entry) (trail : Gap) : List Char :=
  entries.flatMap (fun e => e.space.chars ++ e.word) ++ trail.chars

/-- The contents of the file. -/
def text (b : Batch) : List Char :=
  b.lead.chars ++ ((b.header.text ++ commaIf b.comma) ++ body b.entries b.trail)

theorem body_cons (e : Entry) (entries : List Entry) (trail : Gap) :
    body (e :: entries) trail = e.space.chars ++ (e.word ++ body entries trail) := by
  simp [body]

theorem body_head (entries : List Entry) (trail : Gap) :
    ∀ c ∈ (body entries trail).head?, isSpace c = true := by
  intro c hc
  cases entries with
  | nil => exact trail.isSpace c (List.mem_of_mem_head? hc)
  | cons e entries =>
    rw [body_cons, List.head?_append_of_ne_nil _ e.space.ne_nil] at hc
    exact e.space.isSpace c (List.mem_of_mem_head? hc)

theorem tokens_body (entries : List Entry) (trail : Gap) :
    tokens (body entries trail) = entries.map Entry.word := by
  induction entries with
  | nil =>
    have h := tokens_space trail.isSpace []
    rw [List.append_nil] at h
    exact h
  | cons e entries ih =>
    rw [body_cons, tokens_space e.space.isSpace,
      tokens_word e.isWord_word (body_head entries trail), ih]
    rfl

theorem tokens_text (b : Batch) :
    tokens b.text = (b.header.text ++ commaIf b.comma) :: b.entries.map Entry.word := by
  unfold text
  rw [tokens_space b.lead.isSpace, tokens_word (b.header.isWord_text b.comma) (body_head _ _), tokens_body]

/-- What the reader makes of a batch, command by command. -/
theorem readTransactions_text (uninit : Int × Bool) (b : Batch) :
    readTransactions uninit (some b.text) =
      ⟨b.header.layer, b.header.isReadOnly, b.commands.map Command.received⟩ := by
  have hparse : (b.entries.map Entry.word).map parseTransaction = b.commands.map Command.received := by
    unfold commands
    rw [List.map_map, List.map_map]
    exact List.map_congr_left (fun e _ => e.command.parseTransaction_written e.numeral e.comma)
  unfold readTransactions
  simp only [tokens_text, List.headD_cons, List.tail_cons, hparse, Header.parseLayer_text,
    Header.isReadOnly_text]
  rw [List.filter_eq_self.mpr]
  intro d hd
  obtain ⟨c, -, rfl⟩ := List.mem_map.mp hd
  rw [c.received_type]
  exact decide_eq_true c.type_ne_unkown

/-! ## The round trip -/

/-- Commands with their arguments as `std::to_string` writes them and a comma behind each but the last. -/
def printedEntries : List (Space × Command) → List Entry
  | [] => []
  | (space, c) :: cs =>
    ⟨space, c, numeral c.value, numeral_numeral c.value, !cs.isEmpty⟩ :: printedEntries cs

/-- The header and the commands, separated by a comma and whitespace. -/
def printed (header : Header) (cs : List (Space × Command)) (trail : Gap) : Batch :=
  ⟨⟨[], List.forall_mem_nil _⟩, header, !cs.isEmpty, printedEntries cs, trail⟩

theorem commands_printed (header : Header) (cs : List (Space × Command)) (trail : Gap) :
    (printed header cs trail).commands = cs.map Prod.snd := by
  show (printedEntries cs).map Entry.command = cs.map Prod.snd
  induction cs with
  | nil => rfl
  | cons c cs ih =>
    obtain ⟨space, c⟩ := c
    show c :: (printedEntries cs).map Entry.command = _
    rw [ih]
    rfl

/-- A printed batch is read back as what was printed if and only if each read in it has the argument
    `0`. -/
theorem readTransactions_printed_iff (uninit : Int × Bool) (header : Header)
    (cs : List (Space × Command)) (trail : Gap) :
    readTransactions uninit (some (printed header cs trail).text) =
        ⟨header.layer, header.isReadOnly, (cs.map Prod.snd).map Command.transaction⟩ ↔
      ∀ n, Command.read n ∈ cs.map Prod.snd → n = 0 := by
  rw [readTransactions_text, commands_printed]
  constructor
  · intro h n hn
    have hmap := List.map_inj_left.mp (congrArg Transactions.transactions h)
    exact (Command.received_eq_transaction _).mp (hmap _ hn) n rfl
  · intro h
    have hmap : (cs.map Prod.snd).map Command.received = (cs.map Prod.snd).map Command.transaction := by
      apply List.map_inj_left.mpr
      intro c hc
      exact c.received_eq_transaction.mpr (fun n hn => h n (hn ▸ hc))
    rw [hmap]
    rfl

theorem isSpace_blank : ∀ c ∈ [' '], isSpace c = true := List.all_eq_true.mp (by decide)

/-- One blank. -/
def blank : Space := ⟨⟨[' '], isSpace_blank⟩, List.cons_ne_nil _ _⟩

/-- `b, r(20)` is read as a batch with the command `r(0)`. -/
theorem readTransactions_printed_read :
    (printed .write [(blank, .read 20)] ⟨[], List.forall_mem_nil _⟩).text = "b, r(20)".toList ∧
      readTransactions (0, false)
          (some (printed .write [(blank, .read 20)] ⟨[], List.forall_mem_nil _⟩).text) ≠
        ⟨0, false, [⟨.read, 20⟩]⟩ := by
  decide

end Batch

/-! ## The meaning of a write batch -/

/-- What a command does to a version, without overflow. -/
def Command.apply (x : Int) : Command → Int
  | .read _ => x
  | .write .sum n => x + n.toInt
  | .write .subs n => x - n.toInt
  | .write .mult n => x * n.toInt

/-- The commands in the order of the text. -/
def meaning (cs : List Command) (x : Int) : Int := cs.foldl Command.apply x

theorem Command.execute_received (c : Command) (x : Int) :
    Transaction.execute ⟨Int32.ofInt x⟩ c.received = ⟨Int32.ofInt (c.apply x)⟩ := by
  rcases c with n | ⟨op, n⟩
  · rfl
  · cases op with
    | sum => simp [received, Operation.type, Transaction.execute, Transaction.add, apply]
    | subs => simp [received, Operation.type, Transaction.execute, Transaction.substract, apply]
    | mult => simp [received, Operation.type, Transaction.execute, Transaction.multiply, apply]

theorem executeAll_received (cs : List Command) (x : Int) :
    Transaction.executeAll ⟨Int32.ofInt x⟩ (cs.map Command.received) = ⟨Int32.ofInt (meaning cs x)⟩ := by
  induction cs generalizing x with
  | nil => rfl
  | cons c cs ih =>
    rw [List.map_cons, Transaction.executeAll_cons, c.execute_received, ih]
    rfl

/-- A write. -/
def Command.isWrite (c : Command) : Bool := c.type.isWrite

theorem Command.received_of_isWrite {c : Command} (h : c.isWrite = true) : c.received = c.transaction := by
  cases c with
  | read n => exact absurd h (by simp [isWrite, type, TransactionType.isWrite])
  | write op n => rfl

/-- The writes that the reader finds are those that were written, with their arguments. -/
theorem filter_isWrite_received (cs : List Command) :
    (cs.map Command.received).filter (·.type.isWrite) =
      (cs.filter Command.isWrite).map Command.transaction := by
  have hfilter : cs.filter ((fun d : TransactionData => d.type.isWrite) ∘ Command.received)
      = cs.filter Command.isWrite := by
    apply List.filter_congr
    intro c _
    show c.received.type.isWrite = c.type.isWrite
    rw [c.received_type]
  rw [List.filter_map, hfilter]
  apply List.map_congr_left
  intro c hc
  exact Command.received_of_isWrite (List.mem_filter.mp hc).2

/-- A batch under the header `b` does to a version what its text says: the reader finds its commands, each
    of its kind and in order, and executing them composes what the writes among them do, modulo `2 ^ 32`. -/
theorem executeAll_text (uninit : Int × Bool) (b : Batch) (hb : b.header = .write) (v : Int32) :
    (readTransactions uninit (some b.text)).readOnly = false ∧
      (readTransactions uninit (some b.text)).transactions.map (·.type) =
        b.commands.map Command.type ∧
      (readTransactions uninit (some b.text)).transactions.filter (·.type.isWrite) =
        (b.commands.filter Command.isWrite).map Command.transaction ∧
      Transaction.executeAll ⟨v⟩ (readTransactions uninit (some b.text)).transactions =
        ⟨Int32.ofInt (meaning b.commands v.toInt)⟩ := by
  rw [b.readTransactions_text, hb]
  refine ⟨rfl, ?_, filter_isWrite_received b.commands, ?_⟩
  · show (b.commands.map Command.received).map _ = _
    rw [List.map_map]
    exact List.map_congr_left (fun c _ => c.received_type)
  · have h := executeAll_received b.commands v.toInt
    rwa [Int32.ofInt_toInt] at h

theorem executeAll_text_example :
    Transaction.executeAll ⟨10⟩ (readTransactions (0, false) (some (Batch.printed .write
        [(Batch.blank, .write .sum 20), (Batch.blank, .read 5), (Batch.blank, .write .mult 2),
          (Batch.blank, .write .subs 12)] ⟨[], List.forall_mem_nil _⟩).text)).transactions = ⟨48⟩ :=
  (executeAll_text (0, false) (Batch.printed .write
    [(Batch.blank, .write .sum 20), (Batch.blank, .read 5), (Batch.blank, .write .mult 2),
      (Batch.blank, .write .subs 12)] ⟨[], List.forall_mem_nil _⟩) rfl 10).2.2.2.trans (by decide)

end Epidemica
