import Bellman.Proofs.Numeral.Spelling
import Bellman.Proofs.Numeral.Statements

/-!
# What is written is grouped as it was meant

The tokens of a tree are read as the phrase of the same shape. A reader of sums or products
is left with what it has read so far and fewer steps, so these two levels are stated with
the loop that goes on after them; each level needs a step more than the tighter one, and a
bracket pays for the descent through all of them.
-/

namespace Bellman.Numeral

variable {n fuel : ℕ} {a b : Arithmetic} {level : Level} {ts us rest : List Token} {p q : Phrase}
  {op : Operator}

/-- An operation as it is read. -/
def Operator.operation : Operator → Operation
  | add => .add
  | subtract => .subtract
  | multiply => .multiply
  | divide => .divide
  | power => .power

/-- The phrase that a tree says. -/
def Arithmetic.phrase : Arithmetic → Phrase
  | literal l _ => .literal l
  | plus a => .plus a.phrase
  | minus a => .minus a.phrase
  | binary op a b => .binary op.operation a.phrase b.phrase

/-- A power ends before these tokens. -/
def EndsPower (rest : List Token) : Prop :=
  ∀ t ∈ rest.head?, t ≠ .power ∧ t ≠ .opening ∧ t ≠ .dot

/-- A product ends before these tokens. -/
def EndsProduct (rest : List Token) : Prop :=
  EndsPower rest ∧ ∀ t ∈ rest.head?, t ≠ .times ∧ t ≠ .divide ∧ t ≠ .floorDivide

/-- A sum ends before these tokens. -/
def EndsSum (rest : List Token) : Prop :=
  EndsProduct rest ∧ ∀ t ∈ rest.head?, t ≠ .plus ∧ t ≠ .minus

namespace Phrase

theorem moreAtom_end (h : EndsPower rest) (fuel : ℕ) (p : Phrase) :
    moreAtom (fuel + 1) p rest = some (p, rest) := by
  cases rest with
  | nil => simp [moreAtom]
  | cons t rest => cases t <;> simp_all [moreAtom, EndsPower]

theorem moreProduct_end (h : EndsProduct rest) (fuel : ℕ) (p : Phrase) :
    moreProduct (fuel + 1) p rest = some (p, rest) := by
  cases rest with
  | nil => simp [moreProduct]
  | cons t rest => cases t <;> simp_all [moreProduct, EndsProduct]

theorem moreSum_end (h : EndsSum rest) (fuel : ℕ) (p : Phrase) :
    moreSum (fuel + 1) p rest = some (p, rest) := by
  cases rest with
  | nil => simp [moreSum]
  | cons t rest => cases t <;> simp_all [moreSum, EndsSum]

/-- What the readers make of tokens at each level, and how many steps they need. -/
def Reads : Level → Phrase → List Token → Prop
  | .atom, p, ts => ∀ fuel rest, 5 * ts.length ≤ fuel + 4 →
      readAtom fuel (ts ++ rest) = some (p, rest)
  | .power, p, ts => ∀ fuel rest, EndsPower rest → 5 * ts.length ≤ fuel + 3 →
      readPower fuel (ts ++ rest) = some (p, rest)
  | .signed, p, ts => ∀ fuel rest, EndsPower rest → 5 * ts.length ≤ fuel + 2 →
      readSigned fuel (ts ++ rest) = some (p, rest)
  | .product, p, ts => ∀ fuel rest, EndsPower rest → 5 * ts.length ≤ fuel + 1 →
      ∃ left, fuel ≤ left + ts.length ∧ readProduct fuel (ts ++ rest) = moreProduct left p rest
  | .sum, p, ts => ∀ fuel rest, EndsProduct rest → 5 * ts.length ≤ fuel →
      ∃ left, fuel ≤ left + ts.length ∧ readSum fuel (ts ++ rest) = moreSum left p rest

theorem reads_literal (l : Literal) : Reads .atom (.literal l) [.literal l] := by
  intro fuel rest hfuel
  obtain ⟨fuel, rfl⟩ : ∃ k, fuel = k + 1 := ⟨fuel - 1, by simp at hfuel; omega⟩
  simp [readAtom]

theorem readAtom_opening (hts : ∀ t ∈ ts.head?, t ≠ .closing)
    (h : readSum fuel ts = some (p, .closing :: rest)) :
    readAtom (fuel + 1) (.opening :: ts) = some (p, rest) := by
  cases ts with
  | nil => simp [readAtom, h]
  | cons t ts => cases t <;> simp_all [readAtom]

theorem reads_brackets (hne : ts ≠ []) (hts : ∀ t ∈ ts.head?, t ≠ .closing) (h : Reads .sum p ts) :
    Reads .atom p (.opening :: (ts ++ [.closing])) := by
  intro fuel rest hfuel
  simp only [List.length_cons, List.length_append, List.length_nil] at hfuel
  obtain ⟨fuel, rfl⟩ : ∃ k, fuel = k + 1 := ⟨fuel - 1, by omega⟩
  have hend : EndsSum (.closing :: rest) := by simp [EndsSum, EndsProduct, EndsPower]
  obtain ⟨left, hleft, hread⟩ := h fuel (.closing :: rest) hend.1 (by omega)
  obtain ⟨left, rfl⟩ : ∃ k, left = k + 1 := ⟨left - 1, by omega⟩
  rw [moreSum_end hend] at hread
  have hhead : ∀ t ∈ (ts ++ .closing :: rest).head?, t ≠ .closing := by
    cases ts with
    | nil => exact absurd rfl hne
    | cons t ts => simpa using hts
  simpa using readAtom_opening hhead hread

theorem readPower_end (hatom : readAtom (fuel + 1) ts = some (p, rest)) (hrest : EndsPower rest) :
    readPower (fuel + 2) ts = some (p, rest) := by
  have hmore := moreAtom_end hrest fuel p
  cases rest with
  | nil => simp [readPower, hatom, hmore]
  | cons t rest => cases t <;> simp_all [readPower, EndsPower]

theorem readPower_power (hatom : readAtom (fuel + 1) ts = some (p, .power :: us))
    (hsigned : readSigned (fuel + 1) us = some (q, rest)) :
    readPower (fuel + 2) ts = some (.binary .power p q, rest) := by
  have hmore : moreAtom (fuel + 1) p (.power :: us) = some (p, .power :: us) := by simp [moreAtom]
  simp [readPower, hatom, hmore, hsigned]

theorem reads_ofAtom (hne : ts ≠ []) (h : Reads .atom p ts) : Reads .power p ts := by
  intro fuel rest hrest hfuel
  have hlen := List.length_pos_of_ne_nil hne
  obtain ⟨fuel, rfl⟩ : ∃ k, fuel = k + 2 := ⟨fuel - 2, by omega⟩
  exact readPower_end (h (fuel + 1) rest (by omega)) hrest

theorem reads_power (hne : ts ≠ []) (h : Reads .atom p ts) (h' : Reads .signed q us) :
    Reads .power (.binary .power p q) (ts ++ .power :: us) := by
  intro fuel rest hrest hfuel
  have hlen := List.length_pos_of_ne_nil hne
  simp only [List.length_cons, List.length_append] at hfuel
  obtain ⟨fuel, rfl⟩ : ∃ k, fuel = k + 2 := ⟨fuel - 2, by omega⟩
  have hatom := h (fuel + 1) (.power :: (us ++ rest)) (by omega)
  have hsigned := h' (fuel + 1) rest hrest (by omega)
  simpa using readPower_power hatom hsigned

theorem reads_ofPower (hne : ts ≠ []) (hts : ∀ t ∈ ts.head?, t ≠ .plus ∧ t ≠ .minus)
    (h : Reads .power p ts) : Reads .signed p ts := by
  intro fuel rest hrest hfuel
  have hlen := List.length_pos_of_ne_nil hne
  obtain ⟨fuel, rfl⟩ : ∃ k, fuel = k + 1 := ⟨fuel - 1, by omega⟩
  have hpower := h fuel rest hrest (by omega)
  obtain ⟨t, ts, rfl⟩ := List.exists_cons_of_ne_nil hne
  cases t <;> simp_all [readSigned]

theorem reads_plus (h : Reads .signed p ts) : Reads .signed (.plus p) (.plus :: ts) := by
  intro fuel rest hrest hfuel
  simp only [List.length_cons] at hfuel
  obtain ⟨fuel, rfl⟩ : ∃ k, fuel = k + 1 := ⟨fuel - 1, by omega⟩
  simp [readSigned, h fuel rest hrest (by omega)]

theorem reads_minus (h : Reads .signed p ts) : Reads .signed (.minus p) (.minus :: ts) := by
  intro fuel rest hrest hfuel
  simp only [List.length_cons] at hfuel
  obtain ⟨fuel, rfl⟩ : ∃ k, fuel = k + 1 := ⟨fuel - 1, by omega⟩
  simp [readSigned, h fuel rest hrest (by omega)]

theorem reads_ofSigned (hne : ts ≠ []) (h : Reads .signed p ts) : Reads .product p ts := by
  intro fuel rest hrest hfuel
  have hlen := List.length_pos_of_ne_nil hne
  obtain ⟨fuel, rfl⟩ : ∃ k, fuel = k + 1 := ⟨fuel - 1, by omega⟩
  exact ⟨fuel, by omega, by simp [readProduct, h fuel rest hrest (by omega)]⟩

/-- A further factor is taken with a step of those that are left. -/
theorem reads_product (hop : op.level = .product) (h : Reads .product p ts)
    (h' : Reads .signed q us) :
    Reads .product (.binary op.operation p q) (ts ++ op.token :: us) := by
  intro fuel rest hrest hfuel
  simp only [List.length_cons, List.length_append] at hfuel ⊢
  have hnext : EndsPower (op.token :: (us ++ rest)) := by
    cases op <;> simp_all [Operator.level, Operator.token, EndsPower]
  obtain ⟨left, hleft, hread⟩ := h fuel (op.token :: (us ++ rest)) hnext (by omega)
  obtain ⟨left, rfl⟩ : ∃ k, left = k + 1 := ⟨left - 1, by omega⟩
  have hfactor := h' left rest hrest (by omega)
  refine ⟨left, by omega, ?_⟩
  rw [List.append_assoc, List.cons_append, hread]
  cases op <;> simp_all [Operator.level, Operator.token, Operator.operation, moreProduct]

/-- A product that nothing follows is read with steps left. -/
theorem Reads.product_end (h : Reads .product p ts) (hne : ts ≠ []) (hrest : EndsProduct rest)
    (hfuel : 5 * ts.length ≤ fuel + 1) : readProduct fuel (ts ++ rest) = some (p, rest) := by
  have hlen := List.length_pos_of_ne_nil hne
  obtain ⟨left, hleft, hread⟩ := h fuel rest hrest.1 hfuel
  obtain ⟨left, rfl⟩ : ∃ k, left = k + 1 := ⟨left - 1, by omega⟩
  rw [hread, moreProduct_end hrest]

theorem reads_ofProduct (hne : ts ≠ []) (h : Reads .product p ts) : Reads .sum p ts := by
  intro fuel rest hrest hfuel
  have hlen := List.length_pos_of_ne_nil hne
  obtain ⟨fuel, rfl⟩ : ∃ k, fuel = k + 1 := ⟨fuel - 1, by omega⟩
  have hproduct := h.product_end hne hrest (show 5 * ts.length ≤ fuel + 1 by omega)
  exact ⟨fuel, by omega, by simp [readSum, hproduct]⟩

/-- A further summand is taken with a step of those that are left. -/
theorem reads_sum (hop : op.level = .sum) (h : Reads .sum p ts) (hne : us ≠ [])
    (h' : Reads .product q us) :
    Reads .sum (.binary op.operation p q) (ts ++ op.token :: us) := by
  intro fuel rest hrest hfuel
  simp only [List.length_cons, List.length_append] at hfuel ⊢
  have hnext : EndsProduct (op.token :: (us ++ rest)) := by
    cases op <;> simp_all [Operator.level, Operator.token, EndsProduct, EndsPower]
  obtain ⟨left, hleft, hread⟩ := h fuel (op.token :: (us ++ rest)) hnext (by omega)
  obtain ⟨left, rfl⟩ : ∃ k, left = k + 1 := ⟨left - 1, by omega⟩
  have hsummand := h'.product_end hne hrest (show 5 * us.length ≤ left + 1 by omega)
  refine ⟨left, by omega, ?_⟩
  rw [List.append_assoc, List.cons_append, hread]
  cases op <;> simp_all [Operator.level, Operator.token, Operator.operation, moreSum]

end Phrase

/-- Tokens that begin like a number, end like one and are one number all the way. -/
structure IsOperand (ts : List Token) : Prop where
  ne_nil : ts ≠ []
  alternates : Alternates false ts
  ends : ∀ ended, endedAfter ended ts = true

namespace IsOperand

variable {t : Token}

theorem cons (h : IsOperand ts) (hbegins : t.beginsNumber = true) (hends : t.endsNumber = false) :
    IsOperand (t :: ts) where
  ne_nil := List.cons_ne_nil t ts
  alternates := ⟨hbegins, hends ▸ h.alternates⟩
  ends _ := h.ends _

theorem binary (h : IsOperand ts) (h' : IsOperand us) (hcontinues : t.continues = true)
    (hends : t.endsNumber = false) : IsOperand (ts ++ t :: us) where
  ne_nil := by simp
  alternates := by
    rw [alternates_append, h.ends]
    exact ⟨h.alternates, hcontinues, hends ▸ h'.alternates⟩
  ends ended := by
    rw [endedAfter, List.foldl_append]
    exact h'.ends _

theorem brackets (h : IsOperand ts) : IsOperand (.opening :: (ts ++ [.closing])) where
  ne_nil := List.cons_ne_nil _ _
  alternates := by
    refine ⟨rfl, ?_⟩
    rw [alternates_append, h.ends]
    exact ⟨h.alternates, rfl, trivial⟩
  ends ended := by
    rw [endedAfter, List.foldl_cons, List.foldl_append]
    rfl

end IsOperand

namespace Writes

theorem isOperand (h : Writes n level a ts) : IsOperand ts := by
  induction h with
  | literal => exact ⟨by simp, ⟨rfl, trivial⟩, fun _ => rfl⟩
  | brackets h ih => exact ih.brackets
  | ofAtom h ih | ofPower h ih | ofSigned h ih | ofProduct h ih => exact ih
  | plus h ih | minus h ih => exact ih.cons rfl rfl
  | power h h' ih ih' => exact ih.binary ih' rfl rfl
  | @product _ op _ _ _ _ hop h h' ih ih' | @sum _ op _ _ _ _ hop h h' ih ih' =>
      exact ih.binary ih' (by cases op <;> rfl) (by cases op <;> rfl)

/-- A power begins with no sign. -/
theorem head_power (h : Writes n level a ts) (hlevel : level = .atom ∨ level = .power) :
    ∀ t ∈ ts.head?, t ≠ .plus ∧ t ≠ .minus := by
  induction h with
  | literal | brackets => simp
  | ofAtom h ih => exact ih (.inl rfl)
  | @power _ _ _ ts us h h' ih ih' =>
      obtain ⟨t, ts, rfl⟩ := List.exists_cons_of_ne_nil h.isOperand.ne_nil
      exact ih (.inl rfl)
  | _ => simp at hlevel

/-- What is written is read as it was meant. -/
theorem reads (h : Writes n level a ts) : Phrase.Reads level a.phrase ts := by
  induction h with
  | literal n l => exact Phrase.reads_literal l
  | @brackets _ _ ts h ih =>
      obtain ⟨t, ts, rfl⟩ := List.exists_cons_of_ne_nil h.isOperand.ne_nil
      have hbegins : t.beginsNumber = true := h.isOperand.alternates.1
      refine Phrase.reads_brackets h.isOperand.ne_nil ?_ ih
      simp only [List.head?_cons, Option.mem_some_iff, forall_eq']
      rintro rfl
      cases hbegins
  | ofAtom h ih => exact Phrase.reads_ofAtom h.isOperand.ne_nil ih
  | power h h' ih ih' => exact Phrase.reads_power h.isOperand.ne_nil ih ih'
  | ofPower h ih => exact Phrase.reads_ofPower h.isOperand.ne_nil (h.head_power (.inr rfl)) ih
  | plus h ih => exact Phrase.reads_plus ih
  | minus h ih => exact Phrase.reads_minus ih
  | ofSigned h ih => exact Phrase.reads_ofSigned h.isOperand.ne_nil ih
  | product hop h h' ih ih' => exact Phrase.reads_product hop ih ih'
  | ofProduct h ih => exact Phrase.reads_ofProduct h.isOperand.ne_nil ih
  | sum hop h h' ih ih' => exact Phrase.reads_sum hop ih h'.isOperand.ne_nil ih'

/-- The readers have steps enough for all that is written. -/
theorem ofTokens?_eq (h : Writes n .sum a ts) : Phrase.ofTokens? ts = some a.phrase := by
  have hend : EndsSum [] := by simp [EndsSum, EndsProduct, EndsPower]
  have hfuel : 5 * ts.length ≤ Phrase.fuelFor ts := by rw [Phrase.fuelFor]; omega
  obtain ⟨left, hleft, hread⟩ := h.reads (Phrase.fuelFor ts) [] hend.1 hfuel
  obtain ⟨left, rfl⟩ : ∃ k, left = k + 1 := ⟨left - 1, by rw [Phrase.fuelFor] at hleft; omega⟩
  rw [List.append_nil, Phrase.moreSum_end hend] at hread
  rw [Phrase.ofTokens?, hread]

/-- Brackets are closed again. As operations count as well, no more of them are open at once
than may stand in one another, besides the one that a literal opens. -/
theorem deepest_le (h : Writes n level a ts) (depth : ℕ) :
    ts.foldl Token.depthAfter depth = depth ∧ deepest depth ts ≤ depth + n + 1 := by
  have happend {ts us : List Token} {n depth : ℕ}
      (h : ts.foldl Token.depthAfter depth = depth ∧ deepest depth ts ≤ depth + n + 1)
      (h' : us.foldl Token.depthAfter depth = depth ∧ deepest depth us ≤ depth + n + 1) :
      (ts ++ us).foldl Token.depthAfter depth = depth ∧
        deepest depth (ts ++ us) ≤ depth + (n + 1) + 1 := by
    rw [List.foldl_append, h.1, deepest_append, h.1]
    exact ⟨h'.1, (max_le h.2 h'.2).trans (by omega)⟩
  induction h generalizing depth with
  | literal n l => simp [Token.depthAfter, deepest]
  | brackets h ih =>
      obtain ⟨hfold, hdeep⟩ := ih (depth + 1)
      have hclosing : deepest (depth + 1) [.closing] = depth + 1 := by simp [deepest]
      constructor
      · rw [List.foldl_cons, List.foldl_append]
        show [Token.closing].foldl Token.depthAfter (List.foldl Token.depthAfter (depth + 1) _) = _
        rw [hfold]
        rfl
      · rw [deepest, deepest_append, hfold, hclosing]
        omega
  | ofAtom h ih | ofPower h ih | ofSigned h ih | ofProduct h ih => exact ih depth
  | plus h ih | minus h ih =>
      obtain ⟨hfold, hdeep⟩ := ih depth
      exact ⟨hfold, hdeep.trans (by omega)⟩
  | power h h' ih ih' => exact happend (ih depth) (ih' depth)
  | @product _ op _ _ _ _ hop h h' ih ih' | @sum _ op _ _ _ _ hop h h' ih ih' =>
      refine happend (ih depth) ?_
      cases op <;> exact ih' depth

theorem proper (h : Writes n level a ts) : ∀ t ∈ ts, t.Proper := by
  induction h with
  | literal n l hl => exact List.forall_mem_singleton.mpr hl
  | brackets h ih =>
      simp only [List.mem_cons, List.mem_append, List.not_mem_nil, or_false]
      rintro t (rfl | ht | rfl)
      · trivial
      · exact ih t ht
      · trivial
  | ofAtom h ih | ofPower h ih | ofSigned h ih | ofProduct h ih => exact ih
  | plus h ih | minus h ih => exact List.forall_mem_cons.mpr ⟨trivial, ih⟩
  | power h h' ih ih' =>
      exact List.forall_mem_append.mpr ⟨ih, List.forall_mem_cons.mpr ⟨trivial, ih'⟩⟩
  | @product _ op _ _ _ _ hop h h' ih ih' | @sum _ op _ _ _ _ hop h h' ih ih' =>
      have hop' : op.token.Proper := by cases op <;> trivial
      exact List.forall_mem_append.mpr ⟨ih, List.forall_mem_cons.mpr ⟨hop', ih'⟩⟩

end Writes

/-- Tokens that are one operand are one statement. -/
theorem statementsFrom_of_alternates {ended : Bool} (h : Alternates ended ts) (depth : ℕ) :
    statementsFrom depth ts = [ts] := by
  induction ts generalizing ended depth with
  | nil => rfl
  | cons t ts ih =>
      have ht : t ≠ .lineBreak := by
        rintro rfl
        cases ended <;> cases h.1
      exact statementsFrom_cons ht (ih h.2 _)

theorem IsOperand.statements_eq (h : IsOperand ts) : statements ts = [ts] := by
  simp [statements, statementsFrom_of_alternates h.alternates, h.ne_nil]

/-- A spelled tree is one statement, unless its brackets are nested too deep. -/
theorem readStatements_of_text {cs : List Char} (h : Writes n level a ts) (hcs : Spelled ts cs) :
    readStatements cs = if deepest 0 ts ≤ nestingLimit then some [ts] else none := by
  have hmarks : marks cs = some (ts.flatMap Token.marks) :=
    marksFrom_spelled hcs h.proper h.isOperand.alternates 0
  simp only [readStatements, hmarks, tokens_flatMap_marks h.isOperand.alternates,
    h.isOperand.statements_eq]

theorem readPhrase_of_text {cs : List Char} (h : Writes n .sum a ts) (hcs : Spelled ts cs) :
    readPhrase cs = if deepest 0 ts ≤ nestingLimit then some a.phrase else none := by
  rw [readPhrase, readStatements_of_text h hcs]
  split_ifs with hdeep
  · simp [h.ofTokens?_eq]
  · rfl

end Bellman.Numeral
