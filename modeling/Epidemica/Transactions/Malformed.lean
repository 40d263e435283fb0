import Epidemica.Transactions.Batch

/-!
# `Transactions.Malformed` — which tokens become writes

The reader does not walk a token. It recognises a write by characters and a name that stand somewhere in
it (`Recognised`), and it does not ask whether the argument could be extracted, as it does for the layer in
the header. `Misread` are the tokens that are recognised and are not written as a write is.
-/

namespace Epidemica

open Cut

/-- `t` is `w(sum,v)`, `w(subs,v)` or `w(mult,v)`, with or without a comma behind it, and `d` is the
    transaction it stands for. -/
def WrittenAs (t : List Char) (d : TransactionData) : Prop :=
  ∃ (op : Operation) (argument : List Char) (b : Bool), Numeral argument d.value.toInt ∧
    d.type = op.type ∧ t = (Command.write op d.value).written argument ++ commaIf b

/-- What a token must contain to become a write. -/
structure Recognised (t : List Char) : Prop where
  read : 'r' ∉ t
  write : 'w' ∈ t
  opening : '(' ∈ t
  comma : ',' ∈ t
  closing : ')' ∈ t
  name : ∃ op : Operation, op.name <:+: between '(' ',' t

/-- A token that is recognised as a write although it does not begin as one, or there is no numeral of an
    `int` in front of its first `)`, or more than a comma stands behind that. -/
def Misread (t : List Char) : Prop :=
  Recognised t ∧
    ((∀ op : Operation, ¬ 'w' :: '(' :: (op.name ++ [',']) <+: t) ∨
      (∀ v : Int32, ¬ Numeral (before ')' (behind ',' t)) v.toInt) ∨
      ∀ b, behind ')' t ≠ commaIf b)

/-! ## What is recognised -/

theorem parseType_isWrite {s : List Char} :
    (parseType s).isWrite = true ↔ ∃ op : Operation, op.name <:+: s := by
  constructor
  · intro h
    unfold parseType at h
    split at h
    · rename_i hsum
      exact ⟨.sum, find_isSome.mp hsum⟩
    · split at h
      · rename_i hsubs
        exact ⟨.subs, find_isSome.mp hsubs⟩
      · split at h
        · rename_i hmult
          exact ⟨.mult, find_isSome.mp hmult⟩
        · exact absurd h (by decide)
  · rintro ⟨op, hop⟩
    have hfind : (find op.name s).isSome := find_isSome.mpr hop
    unfold parseType
    split
    · rfl
    · split
      · rfl
      · split
        · rfl
        · -- the name is one of the three that were looked for
          cases op <;> contradiction

theorem parseTransaction_unkown {s : List Char} (hr : 'r' ∉ s)
    (h : 'w' ∉ s ∨ '(' ∉ s ∨ ',' ∉ s ∨ ')' ∉ s) : parseTransaction s = ⟨.unkown, 0⟩ := by
  unfold parseTransaction
  rw [if_neg (by rwa [find_char_isSome])]
  split
  · rename_i hw
    have hw := find_char_isSome.mp hw
    split
    · rename_i hopen hcomma hclose
      have hopen := find_char_isSome.mp (Option.isSome_of_eq_some hopen)
      have hcomma := find_char_isSome.mp (Option.isSome_of_eq_some hcomma)
      have hclose := find_char_isSome.mp (Option.isSome_of_eq_some hclose)
      rcases h with h | h | h | h <;> contradiction
    · rfl
  · rfl

theorem parseTransaction_isWrite {t : List Char} :
    (parseTransaction t).type.isWrite = true ↔ Recognised t := by
  by_cases hr : 'r' ∈ t
  · rw [parseTransaction_read hr]
    exact ⟨fun h => absurd h (by decide), fun h => absurd hr h.read⟩
  · by_cases h : 'w' ∈ t ∧ '(' ∈ t ∧ ',' ∈ t ∧ ')' ∈ t
    · obtain ⟨hw, hopen, hcomma, hclose⟩ := h
      rw [parseTransaction_write hr hw hopen hcomma hclose, parseType_isWrite]
      exact ⟨fun hname => ⟨hr, hw, hopen, hcomma, hclose, hname⟩, fun hrec => hrec.name⟩
    · have hmissing : 'w' ∉ t ∨ '(' ∉ t ∨ ',' ∉ t ∨ ')' ∉ t := by
        by_cases hw : 'w' ∈ t <;> by_cases hopen : '(' ∈ t <;> by_cases hcomma : ',' ∈ t <;> simp_all
      rw [parseTransaction_unkown hr hmissing]
      exact ⟨fun h => absurd h (by decide),
        fun hrec => absurd ⟨hrec.write, hrec.opening, hrec.comma, hrec.closing⟩ h⟩

/-! ## What is written -/

/-- A written write is read as what it stands for. -/
theorem WrittenAs.parseTransaction {t : List Char} {d : TransactionData} (h : WrittenAs t d) :
    parseTransaction t = d := by
  obtain ⟨op, argument, b, hnum, htype, rfl⟩ := h
  rw [Command.parseTransaction_written _ hnum]
  show (⟨op.type, d.value⟩ : TransactionData) = d
  rw [← htype]

/-- How a written write begins and ends, and what stands between. -/
theorem WrittenAs.parts {t : List Char} {d : TransactionData} (h : WrittenAs t d) :
    (∃ op : Operation, 'w' :: '(' :: (op.name ++ [',']) <+: t) ∧
      Numeral (before ')' (behind ',' t)) d.value.toInt ∧ ∃ b, behind ')' t = commaIf b := by
  obtain ⟨op, argument, b, hnum, -, rfl⟩ := h
  have hclose : ')' ∉ argument := hnum.notMem (by decide) (by decide) (by decide)
  have hcomma : (Command.write op d.value).written argument ++ commaIf b
      = ('w' :: '(' :: op.name) ++ ',' :: (argument ++ ')' :: commaIf b) := by simp [Command.written]
  have hopen : (Command.write op d.value).written argument ++ commaIf b
      = (('w' :: '(' :: (op.name ++ [','])) ++ argument) ++ ')' :: commaIf b := by simp [Command.written]
  refine ⟨⟨op, argument ++ ')' :: commaIf b, by simp [Command.written]⟩, ?_, b, ?_⟩
  · rw [hcomma, behind_append (by cases op <;> decide), before_append hclose]
    exact hnum
  · rw [hopen, behind_append]
    intro hin
    rcases List.mem_append.mp hin with hname | harg
    · revert hname
      cases op <;> decide
    · exact hclose harg

/-- A token with these parts is a written write. -/
theorem writtenAs_of_parts {t : List Char} {op : Operation} {v : Int32} {b : Bool} (hclose : ')' ∈ t)
    (hbegin : 'w' :: '(' :: (op.name ++ [',']) <+: t) (hnum : Numeral (before ')' (behind ',' t)) v.toInt)
    (hend : behind ')' t = commaIf b) : WrittenAs t ⟨op.type, v⟩ := by
  obtain ⟨rest, rfl⟩ := hbegin
  have hname : ')' ∉ 'w' :: '(' :: (op.name ++ [',']) := by cases op <;> decide
  have hmem : ')' ∈ rest := (List.mem_append.mp hclose).resolve_left hname
  have hcomma : behind ',' ('w' :: '(' :: (op.name ++ [',']) ++ rest) = rest := by
    have hassoc : 'w' :: '(' :: (op.name ++ [',']) ++ rest = ('w' :: '(' :: op.name) ++ ',' :: rest := by simp
    rw [hassoc, behind_append (by cases op <;> decide)]
  have hrest : behind ')' ('w' :: '(' :: (op.name ++ [',']) ++ rest) = behind ')' rest := by
    conv_lhs => rw [← before_append_behind hmem, ← List.append_assoc]
    apply behind_append
    intro hin
    exact (List.mem_append.mp hin).elim hname notMem_before
  rw [hcomma] at hnum
  rw [hrest] at hend
  refine ⟨op, before ')' rest, b, hnum, rfl, ?_⟩
  conv_lhs => rw [← before_append_behind hmem, hend]
  simp [Command.written]

/-! ## Which tokens are misread -/

/-- A token becomes a write that it does not stand for exactly if it is misread. -/
theorem not_misread_iff {t : List Char} :
    ((parseTransaction t).type.isWrite = true → WrittenAs t (parseTransaction t)) ↔ ¬ Misread t := by
  rw [parseTransaction_isWrite]
  constructor
  · rintro h ⟨hrec, hbad⟩
    obtain ⟨⟨op, hbegin⟩, hnum, b, hend⟩ := (h hrec).parts
    rcases hbad with hbad | hbad | hbad
    · exact hbad op hbegin
    · exact hbad _ hnum
    · exact hbad b hend
  · intro h hrec
    have hgood := not_and.mp h hrec
    simp only [not_or, not_forall, not_not] at hgood
    obtain ⟨⟨op, hbegin⟩, ⟨v, hnum⟩, b, hend⟩ := hgood
    have hwritten := writtenAs_of_parts hrec.closing hbegin hnum hend
    rwa [hwritten.parseTransaction]

/-- Every token of a file that becomes a write stands for it if and only if no token is misread. -/
theorem writes_writtenAs_iff (text : List Char) :
    (∀ t ∈ (tokens text).tail, (parseTransaction t).type.isWrite = true →
        WrittenAs t (parseTransaction t)) ↔
      ∀ t ∈ (tokens text).tail, ¬ Misread t :=
  forall₂_congr (fun _ _ => not_misread_iff)

/-- `w(mult,)` becomes a multiplication by `0`. -/
theorem writes_not_writtenAs :
    (tokens "b, w(mult,)".toList).tail = ["w(mult,)".toList] ∧
      parseTransaction "w(mult,)".toList = ⟨.multiply, 0⟩ ∧
      ¬ ∀ t ∈ (tokens "b, w(mult,)".toList).tail, (parseTransaction t).type.isWrite = true →
        WrittenAs t (parseTransaction t) := by
  refine ⟨by decide, by decide, ?_⟩
  intro h
  have hnum := (h "w(mult,)".toList (by decide) (by decide)).parts.2.1
  exact hnum.ne_nil (by decide)

end Epidemica
