import Bellman.Proofs.Numeral.Answer
import Bellman.Proofs.Numeral.Exactness
import Bellman.Proofs.Rounding.Double

/-!
# Numbers mean what arithmetic says

A text of a tree is read as the tree's exact value, rounded once to 53 binary places and
once more where doubles have fewer, unless too much is nested in it. So texts of one value
are read as one double, and greater values never as smaller doubles.

What may be nested is counted for brackets and operations together. Brackets alone are
limited by the reader of the marks, where a literal needs one of its own. A bound on the
operations as well keeps the depth of a text, and with it the stack of any reader that
goes down one call or a few for each of them, within the same limit.
-/

namespace Bellman.Numeral

open Text Rounding

variable {a : Arithmetic} {n : ℕ} {ts : List Token} {cs : List Char} {text : String}

/-- What a spelled tree is read by. -/
theorem readToken_of_spelled (h : Writes n .sum a ts) (hcs : Spelled ts cs) :
    readToken cs =
      if deepest 0 ts ≤ nestingLimit then readMeaning (String.ofList cs) a.phrase
      else .error (.malformed (String.ofList cs)) := by
  have hne : cs.isEmpty = false := by
    cases hcs with
    | nil => exact absurd rfl h.isOperand.ne_nil
    | cons hgap ht hts => simp [spelling_ne_nil ht (h.proper _ List.mem_cons_self)]
  rw [readToken, hne, all_isNumeralChar hcs h.proper,
    hasLongExponent_spelled hcs h.proper h.isOperand.alternates, readPhrase_of_text h hcs]
  by_cases hdeep : deepest 0 ts ≤ nestingLimit <;> simp [hdeep]

/-- A text of a tree is read as the double of its exact value, if there is one. -/
theorem readScalar_of_text (h : a.Text n text.toList) (hn : n < nestingLimit) (ha : a.Defined) :
    readScalar text =
      if (Value.roundRat a.value).isFinite then .ok (Value.roundRat a.value)
      else .error (.outOfRange (String.ofList (trim text.toList))) := by
  obtain ⟨ts, hwrites, hspelled⟩ := h
  have hdeep : deepest 0 ts ≤ nestingLimit := (hwrites.deepest_le 0).2.trans (by omega)
  obtain ⟨f, hf, hplain⟩ := Arithmetic.exists_plain ha
  have hmeaning (token : String) : readMeaning token a.phrase = readFormula token f := by
    cases a <;> simp_all [Arithmetic.phrase, readMeaning]
  have htrim := spelled_trim hspelled hwrites.proper
  rw [readScalar, readToken_of_spelled hwrites htrim, if_pos hdeep, hmeaning, readFormula,
    Formula.evaluate, hplain.hasSymbol_eq_false, if_neg Bool.false_ne_true, hplain.compute_eq]
  rfl

namespace Spelled

variable {ts us : List Token} {ds gap : List Char} {t : Token}

theorem gap_append (hgap : ∀ c ∈ gap, isGap c = true) (h : Spelled ts cs) :
    Spelled ts (gap ++ cs) := by
  cases h with
  | nil hgap' => exact .nil (by simpa [or_imp, forall_and] using ⟨hgap, hgap'⟩)
  | cons hgap' ht hts =>
      rw [← List.append_assoc, ← List.append_assoc]
      exact .cons (by simpa [or_imp, forall_and] using ⟨hgap, hgap'⟩) ht hts

theorem append (h : Spelled ts cs) (h' : Spelled us ds) : Spelled (ts ++ us) (cs ++ ds) := by
  induction h with
  | nil hgap => exact h'.gap_append hgap
  | cons hgap ht hts ih =>
      rw [List.append_assoc]
      exact .cons hgap ht ih

theorem of_spelling (h : t.Spelling cs) : Spelled [t] cs := by
  simpa using Spelled.cons (List.forall_mem_nil _) h (.nil (List.forall_mem_nil _))

theorem brackets (h : Spelled ts cs) :
    Spelled (.opening :: (ts ++ [.closing])) ('(' :: (cs ++ [')'])) :=
  (Spelled.of_spelling .opening).append (h.append (.of_spelling .closing))

end Spelled

/-- The tree of a single digit. -/
def digit (d : Char) (hd : d.isDigit = true) : Arithmetic :=
  .literal ⟨[d], none, none⟩
    { whole_digits := by simpa using hd
      fraction_digits := by simp
      nonempty := by simp
      leading := by simp
      whole_short := (by decide : 1 ≤ digitLimit)
      fraction_short := Nat.zero_le _
      exponent_digits := by simp
      exponent_short := by simp }

theorem writes_digit (n : ℕ) (d : Char) (hd : d.isDigit = true) :
    Writes n .atom (digit d hd) [.literal ⟨[d], none, none⟩] :=
  .literal n _ _

theorem spelled_digit (d : Char) : Spelled [.literal ⟨[d], none, none⟩] [d] :=
  .of_spelling (.literal .none)

/-- Five with its point in front and an exponent. -/
def five : Arithmetic :=
  .literal ⟨[], some ['5'], some (false, ['1'])⟩
    { whole_digits := by simp
      fraction_digits := List.all_eq_true.mp (by decide)
      nonempty := by simp
      leading := by simp
      whole_short := Nat.zero_le _
      fraction_short := (by decide : 1 ≤ digitLimit)
      exponent_digits := by simp
      exponent_short := by simp }

/-- The product of minus a half and eight. -/
def minusFour : Arithmetic :=
  .binary .multiply (.minus (.binary .power (digit '2' rfl) (.minus (digit '1' rfl))))
    (.binary .add (digit '3' rfl) five)

/-- Brackets around the sum cannot be left out, and those around the exponent can. -/
theorem text_minusFour : minusFour.Text 199 "-2 ^ -1*(3+.5e1)".toList := by
  have hpower : Writes 197 .power (.binary .power (digit '2' rfl) (.minus (digit '1' rfl))) _ :=
    .power (writes_digit _ _ _) (.minus (.ofPower (.ofAtom (writes_digit _ _ _))))
  have hsum : Writes 197 .sum (.binary .add (digit '3' rfl) five) _ :=
    .sum rfl (.ofProduct (.ofSigned (.ofPower (.ofAtom (writes_digit _ _ _)))))
      (.ofSigned (.ofPower (.ofAtom (.literal _ _ _))))
  have hwrites : Writes 199 .sum minusFour _ :=
    .ofProduct (.product rfl (.ofSigned (.minus (.ofPower hpower)))
      (.ofPower (.ofAtom (.brackets hsum))))
  have hblank : ∀ c ∈ [' '], isGap c = true := List.all_eq_true.mp (by decide)
  have hfive : Token.Spelling (.literal ⟨[], some ['5'], some (false, ['1'])⟩) ".5e1".toList :=
    .literal (.unsigned (.inl rfl) ['1'])
  have hleft := (Spelled.of_spelling .minus).append ((spelled_digit '2').append
    (((Spelled.of_spelling .caret).gap_append hblank).append
      (((Spelled.of_spelling .minus).gap_append hblank).append (spelled_digit '1'))))
  have hright := ((spelled_digit '3').append
    ((Spelled.of_spelling .plus).append (Spelled.of_spelling hfive))).brackets
  exact ⟨_, hwrites, hleft.append ((Spelled.of_spelling .times).append hright)⟩

theorem defined_minusFour : minusFour.Defined := by
  have hhalf : InRange ((digit '2' rfl).value ^ (Arithmetic.minus (digit '1' rfl)).value.num) := by
    rw [InRange]
    decide +kernel
  refine ⟨⟨trivial, trivial, ?_, ?_, fun _ => hhalf⟩, ⟨trivial, trivial, trivial⟩, trivial⟩
  · decide +kernel
  · exact fun h => absurd h (by decide +kernel)

theorem value_minusFour : minusFour.value = -4 := by decide +kernel

/-- A digit in brackets. Its literal is one bracket deeper than they are. -/
theorem exists_nested_digit (d : Char) (hd : d.isDigit = true) (k : ℕ) :
    ∃ ts, Writes k .sum (digit d hd) ts ∧
      Spelled ts (List.replicate k '(' ++ d :: List.replicate k ')') ∧
      ∀ depth, depth + k < deepest depth ts := by
  induction k with
  | zero =>
      refine ⟨_, .ofProduct (.ofSigned (.ofPower (.ofAtom (writes_digit 0 d hd)))),
        spelled_digit d, ?_⟩
      simp [deepest]
  | succ k ih =>
      obtain ⟨ts, hwrites, hspelled, hdeep⟩ := ih
      refine ⟨_, .ofProduct (.ofSigned (.ofPower (.ofAtom (.brackets hwrites)))), ?_, ?_⟩
      · simpa [List.replicate_succ, ← List.replicate_succ'] using hspelled.brackets
      · intro depth
        have := hdeep (depth + 1)
        rw [deepest, deepest_append]
        omega

theorem trim_brackets (cs : List Char) : trim ('(' :: (cs ++ [')'])) = '(' :: (cs ++ [')']) := by
  have hopening : isBlank '(' = false := by decide
  have hclosing : isBlank ')' = false := by decide
  simp [trim, trimRight, trimLeft, hopening, hclosing]

/-- A digit in too many brackets is refused. -/
theorem readScalar_nested_digit (d : Char) (hd : d.isDigit = true) {k : ℕ} (hk : nestingLimit ≤ k) :
    readScalar (String.ofList (List.replicate k '(' ++ d :: List.replicate k ')')) =
      .error (.malformed (String.ofList (List.replicate k '(' ++ d :: List.replicate k ')'))) := by
  obtain ⟨ts, hwrites, hspelled, hdeep⟩ := exists_nested_digit d hd k
  have hlimit := hdeep 0
  have htrim : trim (List.replicate k '(' ++ d :: List.replicate k ')') =
      List.replicate k '(' ++ d :: List.replicate k ')' := by
    obtain ⟨k, rfl⟩ : ∃ j, k = j + 1 := ⟨k - 1, by rw [nestingLimit] at hk; omega⟩
    simpa [List.replicate_succ, ← List.replicate_succ'] using
      trim_brackets (List.replicate k '(' ++ d :: List.replicate k ')')
  rw [readScalar, String.toList_ofList, htrim, readToken_of_spelled hwrites hspelled,
    if_neg (by omega)]

end Bellman.Numeral
