import Mathlib.Data.List.Infix
import Epidemica.Lib.Cut
import Epidemica.Transactions.TransactionReader

/-!
# `Transactions.Strings` — what the reader's string operations return

Slices in terms of `Cut`, numbers in terms of numerals, and tokens in terms of the words they are read
from. Nothing later looks into `find`, `substr`, `extractInt` or `tokens`.
-/

namespace Epidemica

open Cut

/-! ## Positions and slices -/

theorem find_char (c : Char) (s : List Char) :
    find [c] s = if c ∈ s then some (before c s).length else none := by
  induction s with
  | nil => rfl
  | cons x s ih =>
    by_cases hx : c = x
    · subst hx
      simp [find, before]
    · have hxc : ¬ x = c := fun h => hx h.symm
      unfold find
      rw [if_neg (by simp [List.isPrefixOf, hx]), ih]
      by_cases hs : c ∈ s
      · rw [if_pos hs, if_pos (List.mem_cons_of_mem _ hs)]
        simp [before, hxc]
      · rw [if_neg hs, if_neg (by simp [hx, hs])]
        rfl

theorem find_isSome {pattern s : List Char} : (find pattern s).isSome ↔ pattern <:+: s := by
  induction s with
  | nil =>
    unfold find
    split <;> simp_all
  | cons c s ih =>
    unfold find
    rw [List.infix_cons_iff]
    split
    · rename_i h
      simp [List.isPrefixOf_iff_prefix.mp h]
    · rename_i h
      have hp : ¬ pattern <+: c :: s := fun hp => h (List.isPrefixOf_iff_prefix.mpr hp)
      rw [Option.isSome_map, ih]
      simp [hp]

theorem find_char_isSome {c : Char} {s : List Char} : (find [c] s).isSome ↔ c ∈ s := by
  rw [find_isSome, List.singleton_infix_iff]

/-- The slice that both halves of a write are taken from. -/
theorem substr_between {a b : Char} {s : List Char} (ha : a ∈ s) (hb : b ∈ s) (hne : b ≠ a) :
    substr s ((before a s).length + 1) (sizeSub (before b s).length (before a s).length)
      = between a b s := by
  by_cases h : b ∈ before a s
  · -- the second position is in front of the first, and the difference wraps around
    have hlt := length_before_lt ha h
    unfold sizeSub between
    rw [if_neg (by omega), if_pos h]
    exact drop_before ha
  · obtain ⟨hle, htake⟩ := take_drop_before ha hb hne h
    unfold sizeSub
    rw [if_pos hle, ← htake, ← drop_before ha]
    rfl

/-! ## Numerals -/

/-- The decimal numerals that `stream >> value` reads in full, with their values. -/
inductive Numeral : List Char → Int → Prop where
  | plain {digits : List Char} : digits ≠ [] → (∀ c ∈ digits, c.isDigit) →
      Numeral digits (decimal digits)
  | plus {digits : List Char} : digits ≠ [] → (∀ c ∈ digits, c.isDigit) →
      Numeral ('+' :: digits) (decimal digits)
  | minus {digits : List Char} : digits ≠ [] → (∀ c ∈ digits, c.isDigit) →
      Numeral ('-' :: digits) (-decimal digits)

theorem Numeral.ne_nil {s : List Char} {n : Int} (h : Numeral s n) : s ≠ [] := by
  cases h with
  | plain hne _ => exact hne
  | plus _ _ => exact List.cons_ne_nil _ _
  | minus _ _ => exact List.cons_ne_nil _ _

/-- A numeral consists of digits and signs. -/
theorem Numeral.chars {s : List Char} {n : Int} (h : Numeral s n) {c : Char} (hc : c ∈ s) :
    c.isDigit = true ∨ c = '+' ∨ c = '-' := by
  cases h with
  | plain _ hd => exact Or.inl (hd c hc)
  | plus _ hd => exact (List.mem_cons.mp hc).elim (fun he => Or.inr (Or.inl he)) (fun hm => Or.inl (hd c hm))
  | minus _ hd => exact (List.mem_cons.mp hc).elim (fun he => Or.inr (Or.inr he)) (fun hm => Or.inl (hd c hm))

/-- Characters that mean something else to the reader are not in a numeral. -/
theorem Numeral.notMem {s : List Char} {n : Int} (h : Numeral s n) {c : Char}
    (hc : c.isDigit = false) (hplus : c ≠ '+') (hminus : c ≠ '-') : c ∉ s := by
  intro hm
  rcases h.chars hm with hd | he | he
  · rw [hc] at hd
    exact absurd hd (by decide)
  · exact hplus he
  · exact hminus he

theorem isSpace_of_isDigit {c : Char} (h : c.isDigit = true) : isSpace c = false := by
  have hnone : [' ', '\t', '\n', '\u000b', '\u000c', '\r'].any Char.isDigit = false := by decide
  unfold isSpace
  rw [decide_eq_false_iff_not]
  intro hm
  exact List.any_eq_false.mp hnone c hm h

/-- Digits end where something else begins. -/
theorem digits_append {digits rest : List Char} (hd : ∀ c ∈ digits, c.isDigit)
    (hr : ∀ c ∈ rest.head?, c.isDigit = false) :
    (digits ++ rest).takeWhile Char.isDigit = digits ∧ (digits ++ rest).dropWhile Char.isDigit = rest := by
  rw [List.takeWhile_append_of_pos hd, List.dropWhile_append_of_pos hd]
  cases rest with
  | nil => exact ⟨List.append_nil _, rfl⟩
  | cons c rest =>
    have hc : ¬ c.isDigit = true := by simp [hr c rfl]
    rw [List.takeWhile_cons_of_neg hc, List.dropWhile_cons_of_neg hc]
    exact ⟨List.append_nil _, rfl⟩

/-- Digits in front of something else are read up to there. -/
theorem extractDigits_append {sign : Int} {digits rest : List Char} {v : Int32} (hne : digits ≠ [])
    (hd : ∀ c ∈ digits, c.isDigit) (hr : ∀ c ∈ rest.head?, c.isDigit = false)
    (hv : sign * decimal digits = v.toInt) : extractDigits sign (digits ++ rest) = ⟨v, false⟩ := by
  unfold extractDigits
  simp only [(digits_append hd hr).1, hv]
  have hmax : ¬ v.toInt > Int32.maxValue.toInt := not_lt_of_ge (Int32.toInt_le v)
  have hmin : ¬ v.toInt < Int32.minValue.toInt := by
    rw [Int32.toInt_minValue]
    have := Int32.le_toInt v
    omega
  rw [if_neg hne, if_neg hmax, if_neg hmin, Int32.ofInt_toInt]

/-- Space, a sign, and what `f` makes of the digits behind it: the pattern of a number, for a stream and for
    `sscanf`. -/
def signed {α : Type} (f : Int → List Char → α) (s : List Char) : α :=
  match s.dropWhile isSpace with
  | '-' :: s => f (-1) s
  | '+' :: s => f 1 s
  | s => f 1 s

/-- Whatever the sign, `f` is given an end of the input. -/
theorem exists_signed {α : Type} (f : Int → List Char → α) (s : List Char) :
    ∃ sign s', s'.Sublist s ∧ signed f s = f sign s' := by
  have hspace : (s.dropWhile isSpace).Sublist s := List.dropWhile_sublist _
  unfold signed
  split
  · rename_i s' hs
    rw [hs] at hspace
    exact ⟨-1, s', (List.sublist_cons_self _ _).trans hspace, rfl⟩
  · rename_i s' hs
    rw [hs] at hspace
    exact ⟨1, s', (List.sublist_cons_self _ _).trans hspace, rfl⟩
  · exact ⟨1, s.dropWhile isSpace, hspace, rfl⟩

/-- A numeral is a sign and digits. -/
theorem signed_numeral {α : Type} (f : Int → List Char → α) {s rest : List Char} {n : Int} {a : α}
    (h : Numeral s n)
    (hf : ∀ sign digits, digits ≠ [] → (∀ c ∈ digits, c.isDigit) → sign * decimal digits = n →
      f sign (digits ++ rest) = a) : signed f (s ++ rest) = a := by
  cases h with
  | plain hne hd =>
    have hdigits := hf 1 _ hne hd (one_mul _)
    obtain ⟨c, digits, rfl⟩ := List.exists_cons_of_ne_nil hne
    have hc : c.isDigit = true := hd c (List.mem_cons_self ..)
    have hplus : c ≠ '+' := fun he => absurd (he ▸ hc) (by decide)
    have hminus : c ≠ '-' := fun he => absurd (he ▸ hc) (by decide)
    unfold signed
    rw [List.cons_append, List.dropWhile_cons_of_neg (by simp [isSpace_of_isDigit hc])]
    split
    · rename_i he
      exact absurd (List.cons.inj he).1 hminus
    · rename_i he
      exact absurd (List.cons.inj he).1 hplus
    · exact hdigits
  | plus hne hd => exact hf 1 _ hne hd (one_mul _)
  | minus hne hd => exact hf (-1) _ hne hd (neg_one_mul _)

/-- A numeral of an `int` is read in full, and nothing behind it is looked at. -/
theorem extractInt_numeral {s rest : List Char} {v : Int32} (h : Numeral s v.toInt)
    (hr : ∀ c ∈ rest.head?, c.isDigit = false) : extractInt (s ++ rest) = ⟨v, false⟩ := by
  show signed extractDigits (s ++ rest) = _
  exact signed_numeral _ h fun sign digits hne hd hn => extractDigits_append hne hd hr hn

/-- What `std::to_string` writes for an `int`. -/
def numeral (n : Int32) : List Char :=
  if n.toInt < 0 then '-' :: Nat.toDigits 10 n.toInt.natAbs else Nat.toDigits 10 n.toInt.natAbs

theorem decimal_toDigits (n : Nat) : decimal (Nat.toDigits 10 n) = n := by
  unfold decimal
  rw [← Nat.ofDigitChars_eq_foldl, Nat.ofDigitChars_ten_toDigits]

theorem numeral_numeral (n : Int32) : Numeral (numeral n) n.toInt := by
  have hd : ∀ c ∈ Nat.toDigits 10 n.toInt.natAbs, c.isDigit :=
    fun c hc => Nat.isDigit_of_mem_toDigits (by decide) (by decide) hc
  unfold numeral
  split
  · have h := Numeral.minus Nat.toDigits_ne_nil hd
    rwa [decimal_toDigits, show -(n.toInt.natAbs : Int) = n.toInt by omega] at h
  · have h := Numeral.plain Nat.toDigits_ne_nil hd
    rwa [decimal_toDigits, show (n.toInt.natAbs : Int) = n.toInt by omega] at h

theorem length_numeral (n : Int32) : (numeral n).length ≤ 11 := by
  have hlow := n.le_toInt
  have hhigh := n.toInt_lt
  have hdigits : (Nat.toDigits 10 n.toInt.natAbs).length ≤ 10 :=
    (Nat.length_toDigits_le_iff (by decide) (by decide)).mpr (by omega)
  unfold numeral
  split
  · rw [List.length_cons]
    omega
  · omega

/-! ## Words and the space between them -/

theorem isSpace_of_any {t : List Char} (h : t.any isSpace = false) : ∀ c ∈ t, isSpace c = false :=
  fun c hc => Bool.eq_false_iff.mpr (List.any_eq_false.mp h c hc)

/-- A word: what `stream >> string` can yield. -/
def IsWord (t : List Char) : Prop := t ≠ [] ∧ ∀ c ∈ t, isSpace c = false

theorem tokensFrom_append {t : List Char} (h : ∀ c ∈ t, isSpace c = false) (token s : List Char) :
    tokensFrom token (t ++ s) = tokensFrom (token ++ t) s := by
  induction t generalizing token with
  | nil => simp
  | cons c t ih =>
    rw [List.cons_append]
    conv_lhs => unfold tokensFrom
    rw [if_neg (by simp [h c (List.mem_cons_self ..)]), ih (fun x hx => h x (List.mem_cons_of_mem _ hx)),
      List.append_assoc, List.singleton_append]

theorem tokens_space {space : List Char} (h : ∀ c ∈ space, isSpace c = true) (s : List Char) :
    tokens (space ++ s) = tokens s := by
  unfold tokens
  induction space with
  | nil => rfl
  | cons c space ih =>
    rw [List.cons_append]
    conv_lhs => unfold tokensFrom
    rw [if_pos (h c (List.mem_cons_self ..)), if_pos rfl]
    exact ih (fun x hx => h x (List.mem_cons_of_mem _ hx))

/-- A word is a token if whitespace or the end of the file follows. -/
theorem tokens_word {t : List Char} (ht : IsWord t) {s : List Char}
    (hs : ∀ c ∈ s.head?, isSpace c = true) : tokens (t ++ s) = t :: tokens s := by
  unfold tokens
  rw [tokensFrom_append ht.2, List.nil_append]
  cases s with
  | nil => simp [tokensFrom, ht.1]
  | cons c s =>
    have hc := hs c rfl
    simp [tokensFrom, ht.1, hc]

end Epidemica
