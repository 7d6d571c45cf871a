import Bellman.Numeral.Reading
import Bellman.Proofs.Numeral.Arithmetic
import Bellman.Proofs.Numeral.Marks
import Mathlib.Data.List.Basic

/-!
# Spelled texts have their tokens

A text that spells some tokens is read as these tokens, if neighbours fit: after a number
or a closing bracket comes an operation or a closing bracket, and anywhere else a number,
a sign or an opening bracket. Then no literal goes on into the next token and no two signs
are joined.
-/

namespace Bellman.Numeral

open Text (digitLimit)

variable {c : Char} {cs rest gap : List Char} {depth n : ℕ} {ms : List Mark} {t u : Token}
  {ts us : List Token} {l : Literal}

/-! ## Literals -/

/-- A literal before this text does not go on into it. -/
def Ends (rest : List Char) : Prop :=
  ∀ c ∈ rest.head?, c.isDigit = false ∧ c ≠ '.' ∧ c ≠ 'e' ∧ c ≠ 'E'

section Digits

variable {ds : List Char} (hds : ∀ d ∈ ds, d.isDigit = true)
  (hrest : ∀ c ∈ rest.head?, c.isDigit = false)

include hds hrest

theorem takeWhile_digits : (ds ++ rest).takeWhile Char.isDigit = ds := by
  rw [takeWhile_append_of_head hrest, List.takeWhile_eq_self_iff]
  exact hds

theorem dropWhile_digits : (ds ++ rest).dropWhile Char.isDigit = rest := by
  rw [dropWhile_append_of_head hrest, List.dropWhile_eq_nil_iff.mpr hds, List.nil_append]

theorem exponentDigits_digits (hne : ds ≠ []) (negative : Bool) :
    exponentDigits negative (ds ++ rest) = some ((negative, ds), rest) := by
  rw [exponentDigits, takeWhile_digits hds hrest, dropWhile_digits hds hrest,
    if_neg (by simpa using hne)]

end Digits

/-- A spelled exponent is read up to its end. -/
theorem readExponent_spelling {e : Option (Bool × List Char)} (h : ExponentSpelling e cs)
    (hdigits : ∀ x ∈ e, ∀ d ∈ x.2, d.isDigit = true) (hshort : ∀ x ∈ e, 0 < x.2.length)
    (hrest : Ends rest) : readExponent (cs ++ rest) = e.map fun x => (x, rest) := by
  have hend : ∀ c ∈ rest.head?, c.isDigit = false := fun c hc => (hrest c hc).1
  cases h with
  | none => exact readExponent_eq_none fun c hc => (hrest c hc).2.2
  | unsigned he ds =>
      have hds := hdigits _ rfl
      have hne : ds ≠ [] := List.ne_nil_of_length_pos (hshort _ rfl)
      have hhead (s : Char) (hs : s.isDigit = false) : (ds ++ rest).head? ≠ some s := by
        rw [List.head?_append, Option.or_of_isSome (by simpa using hne)]
        intro hsome
        rw [hds s (List.mem_of_head? hsome)] at hs
        cases hs
      rw [List.cons_append, readExponent_unsigned he (hhead '-' rfl) (hhead '+' rfl),
        exponentDigits_digits hds hend hne]
      rfl
  | positive he ds =>
      rw [List.cons_append, List.cons_append, readExponent_plus he,
        exponentDigits_digits (hdigits _ rfl) hend (List.ne_nil_of_length_pos (hshort _ rfl))]
      rfl
  | negative he ds =>
      rw [List.cons_append, List.cons_append, readExponent_minus he,
        exponentDigits_digits (hdigits _ rfl) hend (List.ne_nil_of_length_pos (hshort _ rfl))]
      rfl

/-- An exponent begins with neither a digit nor a point. -/
theorem head_exponent {e : Option (Bool × List Char)} (h : ExponentSpelling e cs)
    (hrest : Ends rest) : ∀ c ∈ (cs ++ rest).head?, c.isDigit = false ∧ c ≠ '.' := by
  have he {e : Char} (h : e = 'e' ∨ e = 'E') : e.isDigit = false ∧ e ≠ '.' := by
    rcases h with rfl | rfl <;> decide
  cases h with
  | none => exact fun c hc => ⟨(hrest c hc).1, (hrest c hc).2.1⟩
  | unsigned h | positive h | negative h => simpa using he h

/-- A spelled literal is read up to its end. -/
theorem readLiteral_spelling (hl : l.Proper) (h : Token.Spelling (.literal l) cs)
    (hrest : Ends rest) : readLiteral (cs ++ rest) = (l, rest) := by
  obtain ⟨whole, fraction, exponent⟩ := l
  cases h with
  | @literal _ ex hex =>
      have hread : readExponent (ex ++ rest) = exponent.map fun x => (x, rest) :=
        readExponent_spelling hex hl.exponent_digits (fun x hx => (hl.exponent_short x hx).1) hrest
      have hwhole : ∀ d ∈ whole, d.isDigit = true := hl.whole_digits
      have hhead := head_exponent hex hrest
      have hdigit : ∀ c ∈ (ex ++ rest).head?, c.isDigit = false := fun c hc => (hhead c hc).1
      cases fraction with
      | some f =>
          have hfraction : ∀ d ∈ f, d.isDigit = true := hl.fraction_digits
          have htext : whole ++ (some f).elim [] ('.' :: ·) ++ ex ++ rest =
              whole ++ '.' :: (f ++ (ex ++ rest)) := by simp
          have hpoint : ∀ c ∈ ('.' :: (f ++ (ex ++ rest))).head?, c.isDigit = false := by simp
          have hdrop := dropWhile_digits hwhole hpoint
          dsimp only at htext ⊢
          rw [htext, readLiteral_of_point hdrop, takeWhile_digits hwhole hpoint,
            takeWhile_digits hfraction hdigit, dropWhile_digits hfraction hdigit, withExponent,
            hread]
          cases hex <;> rfl
      | none =>
          have htext : whole ++ (none : Option (List Char)).elim [] ('.' :: ·) ++ ex ++ rest =
              whole ++ (ex ++ rest) := by simp
          have htake := takeWhile_digits hwhole hdigit
          have hdrop := dropWhile_digits hwhole hdigit
          have hpoint : ((whole ++ (ex ++ rest)).dropWhile Char.isDigit).head? ≠ some '.' := by
            rw [hdrop]
            exact fun h => (hhead '.' h).2 rfl
          have hread' : readExponent ((whole ++ (ex ++ rest)).dropWhile Char.isDigit) =
              exponent.map fun x => (x, rest) := by rw [hdrop, hread]
          dsimp only at htext ⊢
          rw [htext]
          cases exponent with
          | some e => rw [readLiteral_of_exponent hpoint hread', htake]
          | none =>
              cases hex
              rw [readLiteral_of_whole hpoint hread', htake, hdrop]
              split_ifs with hzero
              · have hzeros : ∀ d ∈ whole, (d == '0') = true := by
                  simpa using hl.leading rfl hzero
                rw [List.takeWhile_eq_self_iff.mpr hzeros, List.dropWhile_eq_nil_iff.mpr hzeros]
                rfl
              · rfl

/-! ## Tokens -/

/-- The marks of a token. -/
def Token.marks : Token → List Mark
  | .literal l => [.literal l]
  | .plus => [.sign '+']
  | .minus => [.sign '-']
  | .times => [.sign '*']
  | .divide => [.sign '/']
  | .power => [.sign '*', .sign '*']
  | .opening => [.sign '(']
  | .closing => [.sign ')']
  | _ => []

/-- A literal that a token is, is one that can be written. -/
def Token.Proper : Token → Prop
  | .literal l => l.Proper
  | _ => True

/-- A step and the marks of what follows. -/
theorem marksFrom_cons {first : List Mark} (hnext : nextMarks depth c cs = some (first, rest))
    (hrest : marksFrom rest.length (first.foldl Mark.depthAfter depth) rest = some ms) :
    marksFrom (cs.length + 1) depth (c :: cs) = some (first ++ ms) := by
  have hlen := (nextMarks_spec hnext).1.length_le
  simp only [marksFrom_succ, hnext, Option.bind_some]
  rw [marksFrom_eq hlen (le_refl _), hrest]
  rfl

/-- Before its exponent a literal is digits and a point. -/
theorem mem_mantissa (hl : l.Proper) (hc : c ∈ l.whole ++ l.fraction.elim [] ('.' :: ·)) :
    c.isDigit = true ∨ c = '.' := by
  rcases List.mem_append.mp hc with hc | hc
  · exact .inl (hl.whole_digits c hc)
  · have hdigits := hl.fraction_digits
    cases hf : l.fraction with
    | none => simp [hf] at hc
    | some f =>
        rw [hf] at hc hdigits
        rcases List.mem_cons.mp hc with rfl | hc
        · exact .inr rfl
        · exact .inl (hdigits c hc)

/-- What a literal begins with. -/
theorem head_literal (hl : l.Proper) (h : Token.Spelling (.literal l) (c :: cs)) :
    c.isDigit = true ∨ c = '.' ∧ cs.head?.any Char.isDigit = true := by
  obtain ⟨whole, fraction, exponent⟩ := l
  generalize hcs : c :: cs = text at h
  cases h with
  | literal h =>
      cases whole with
      | cons d whole =>
          have hd : d.isDigit = true := hl.whole_digits d (by simp)
          simp only [List.cons_append, List.cons.injEq] at hcs
          exact .inl (hcs.1 ▸ hd)
      | nil =>
          have hne := hl.nonempty rfl
          cases fraction with
          | none => exact absurd rfl hne
          | some f =>
              obtain ⟨d, f, rfl⟩ := List.exists_cons_of_ne_nil hne
              have hd : d.isDigit = true := hl.fraction_digits d (by simp)
              simp only [Option.elim_some, List.nil_append, List.cons_append,
                List.cons.injEq] at hcs
              exact .inr ⟨hcs.1, by simp [hcs.2, hd]⟩

theorem nextMarks_literal (hl : l.Proper) (h : Token.Spelling (.literal l) (c :: cs))
    (hrest : Ends rest) (depth : ℕ) :
    nextMarks depth c (cs ++ rest) = some ([.literal l], rest) := by
  have hhead := head_literal hl h
  have hread : readLiteral (c :: (cs ++ rest)) = (l, rest) := readLiteral_spelling hl h hrest
  have hliteral : (c.isDigit || (c == '.' && (cs ++ rest).head?.any Char.isDigit)) = true := by
    rcases hhead with hdigit | ⟨rfl, hdigit⟩
    · simp [hdigit]
    · cases cs <;> simp_all
  have hne {d : Char} (hd : d.isDigit = false) (hpoint : d ≠ '.') : c ≠ d := by
    rintro rfl
    rcases hhead with h | ⟨h, -⟩
    · simp [h] at hd
    · exact hpoint h
  have hgap : ¬ isGap c = true := by
    simp [isGap, hne]
  have hlong : ¬ (l.isWhole && decide (digitLimit < l.whole.length)) = true := by
    simpa using fun _ => hl.whole_short
  rw [nextMarks, if_neg hgap, if_neg (hne rfl (by decide)), if_neg (hne rfl (by decide)),
    if_pos hliteral, hread]
  exact if_neg hlong

/-- The marks of a spelled token come first. -/
theorem marksFrom_spelling (ht : t.Spelling cs) (hproper : t.Proper)
    (hrest : ∀ l, t = .literal l → Ends rest)
    (hms : ∀ depth, marksFrom rest.length depth rest = some ms) (depth : ℕ) :
    marksFrom (cs ++ rest).length depth (cs ++ rest) = some (t.marks ++ ms) := by
  have hsign {c : Char} {first : List Mark} (rest : List Char) {ms : List Mark}
      (hms : ∀ depth, marksFrom rest.length depth rest = some ms)
      (hnext : ∀ depth, nextMarks depth c rest = some (first, rest)) (depth : ℕ) :
      marksFrom (c :: rest).length depth (c :: rest) = some (first ++ ms) :=
    marksFrom_cons (hnext depth) (hms _)
  cases ht with
  | @literal l ex h =>
      generalize hcs : l.whole ++ l.fraction.elim [] ('.' :: ·) ++ ex = cs
      have hspelling : Token.Spelling (.literal l) cs := hcs ▸ .literal h
      cases cs with
      | nil =>
          simp only [List.append_eq_nil_iff] at hcs
          refine absurd ?_ (hproper.nonempty hcs.1.1)
          cases hfraction : l.fraction <;> simp_all
      | cons c cs =>
          exact marksFrom_cons (nextMarks_literal hproper hspelling (hrest l rfl) depth) (hms _)
  | stars =>
      have hstar (rest : List Char) (depth : ℕ) :
          nextMarks depth '*' rest = some ([.sign '*'], rest) := rfl
      exact hsign _ (hsign rest hms (hstar rest)) (hstar _) depth
  | _ => exact hsign rest hms (fun _ => rfl) depth

/-! ## Neighbours -/

/-- A token that a number can end with. -/
def Token.endsNumber : Token → Bool
  | .literal _ => true
  | .closing => true
  | _ => false

/-- A token that a number can begin with. -/
def Token.beginsNumber : Token → Bool
  | .literal _ => true
  | .opening => true
  | .plus => true
  | .minus => true
  | _ => false

/-- A token that can come after a number. -/
def Token.continues : Token → Bool
  | .plus => true
  | .minus => true
  | .times => true
  | .divide => true
  | .power => true
  | .closing => true
  | _ => false

/-- After a number comes an operation or a closing bracket, and a number comes anywhere
else. -/
def Alternates : Bool → List Token → Prop
  | _, [] => True
  | ended, t :: ts =>
      (if ended then t.continues else t.beginsNumber) = true ∧ Alternates t.endsNumber ts

/-- Whether a number has just ended after some tokens. -/
def endedAfter (ended : Bool) (ts : List Token) : Bool :=
  ts.foldl (fun _ t => t.endsNumber) ended

theorem alternates_append (ended : Bool) (ts us : List Token) :
    Alternates ended (ts ++ us) ↔ Alternates ended ts ∧ Alternates (endedAfter ended ts) us := by
  induction ts generalizing ended with
  | nil => simp [Alternates, endedAfter]
  | cons t ts ih => simp [Alternates, ih, and_assoc, endedAfter]

/-- A text that continues after a number does not go on with a literal. -/
theorem ends_spelled (h : Spelled ts cs) (hts : Alternates true ts) : Ends cs := by
  have hgap {gap rest : List Char} (hgap : ∀ c ∈ gap, isGap c = true) (hrest : Ends rest) :
      Ends (gap ++ rest) := by
    cases gap with
    | nil => exact hrest
    | cons c gap =>
        have hc := hgap c (by simp)
        simp only [isGap, Bool.or_eq_true, beq_iff_eq] at hc
        rcases hc with (rfl | rfl) | rfl <;> simp [Ends]
  cases h with
  | nil h =>
      have hnil : Ends [] := by simp [Ends]
      simpa using hgap h hnil
  | cons h ht hts' =>
      rw [List.append_assoc]
      refine hgap h ?_
      have hcontinues := hts.1
      cases ht with
      | literal => cases hcontinues
      | opening => cases hcontinues
      | _ => simp [Ends]

/-- The marks of a spelled text are those of its tokens. -/
theorem marksFrom_spelled {ended : Bool} (h : Spelled ts cs) (hproper : ∀ t ∈ ts, t.Proper)
    (hts : Alternates ended ts) (depth : ℕ) :
    marksFrom cs.length depth cs = some (ts.flatMap Token.marks) := by
  have hgap {gap rest : List Char} {ms : List Mark} (hgap : ∀ c ∈ gap, isGap c = true)
      (hrest : ∀ depth, marksFrom rest.length depth rest = some ms) (depth : ℕ) :
      marksFrom (gap ++ rest).length depth (gap ++ rest) = some ms := by
    induction gap with
    | nil => exact hrest depth
    | cons c gap ih =>
        have hc : nextMarks depth c (gap ++ rest) = some ([], gap ++ rest) := by
          rw [nextMarks, if_pos (hgap c (by simp))]
        exact marksFrom_cons hc (ih fun d hd => hgap d (List.mem_cons_of_mem c hd))
  induction h generalizing ended depth with
  | @nil gap h =>
      rw [← List.append_nil gap]
      exact hgap h (fun _ => rfl) depth
  | @cons gap cs rest t ts h ht hts' ih =>
      have hrest (depth : ℕ) := ih (fun u hu => hproper u (List.mem_cons_of_mem t hu)) hts.2 depth
      have hends (l : Literal) (hl : t = .literal l) : Ends rest := by
        subst hl
        exact ends_spelled hts' hts.2
      rw [List.append_assoc]
      exact hgap h (marksFrom_spelling ht (hproper t (by simp)) hends hrest) depth

/-- Signs that stand side by side in such a row of tokens are not joined. -/
theorem tokens_flatMap_marks {ended : Bool} (hts : Alternates ended ts) :
    tokens (ts.flatMap Token.marks) = ts := by
  induction ts generalizing ended with
  | nil => rfl
  | cons t ts ih =>
      have hrest := ih hts.2
      rw [List.flatMap_cons]
      have hother {c : Char} (hstar : c ≠ '*') (hslash : c ≠ '/') (hpoint : c ≠ '.') :
          tokens (.sign c :: ts.flatMap Token.marks) = signToken c :: ts := by
        rw [tokens, hrest] <;> simp [hstar, hslash, hpoint]
      cases t with
      | literal l => rw [Token.marks, List.singleton_append, tokens, hrest]
      | plus => exact hother (by decide) (by decide) (by decide)
      | minus => exact hother (by decide) (by decide) (by decide)
      | opening => exact hother (by decide) (by decide) (by decide)
      | closing => exact hother (by decide) (by decide) (by decide)
      | power => simp [Token.marks, tokens, hrest]
      | times | divide =>
          cases ts with
          | nil => rfl
          | cons u us =>
              have hu : u.beginsNumber = true := hts.2.1
              cases u <;> simp_all [Token.beginsNumber, Token.marks, tokens, signToken]
      | _ => cases ended <;> cases hts.1

/-! ## Characters and blanks -/

/-- A character that stands in the text of a token. -/
def isTokenChar (c : Char) : Bool :=
  isNumeralChar c && !Text.isBlank c

theorem isTokenChar_of_isDigit (h : c.isDigit = true) : isTokenChar c = true := by
  have hcode : 48 ≤ c.toNat ∧ c.toNat ≤ 57 := by
    simp only [Char.isDigit, Bool.and_eq_true, decide_eq_true_eq] at h
    exact h
  have hblank : Text.isBlank c = false := by
    simp only [Text.isBlank, Text.blankCodes, List.contains_cons, List.contains_nil,
      Bool.or_false, Bool.or_eq_false_iff, beq_eq_false_iff_ne]
    omega
  simp [isTokenChar, isNumeralChar, h, hblank]

theorem isTokenChar_exponent {e : Option (Bool × List Char)} (h : ExponentSpelling e cs)
    (hdigits : ∀ x ∈ e, ∀ d ∈ x.2, d.isDigit = true) : ∀ c ∈ cs, isTokenChar c = true := by
  have he {e : Char} (h : e = 'e' ∨ e = 'E') : isTokenChar e = true := by
    rcases h with rfl | rfl <;> decide
  have hds {negative : Bool} {ds : List Char}
      (h : ∀ x ∈ some (negative, ds), ∀ d ∈ x.2, d.isDigit = true) :
      ∀ d ∈ ds, isTokenChar d = true := fun d hd => isTokenChar_of_isDigit (h _ rfl d hd)
  cases h with
  | none => simp
  | unsigned h ds => exact List.forall_mem_cons.mpr ⟨he h, hds hdigits⟩
  | positive h ds | negative h ds =>
      exact List.forall_mem_cons.mpr ⟨he h, List.forall_mem_cons.mpr ⟨by decide, hds hdigits⟩⟩

theorem isTokenChar_spelling (ht : t.Spelling cs) (hproper : t.Proper) :
    ∀ c ∈ cs, isTokenChar c = true := by
  cases ht with
  | @literal l ex h =>
      intro c hc
      rcases List.mem_append.mp hc with hc | hc
      · rcases mem_mantissa hproper hc with h | rfl
        · exact isTokenChar_of_isDigit h
        · decide
      · exact isTokenChar_exponent h hproper.exponent_digits c hc
  | _ => exact List.all_eq_true.mp (by decide)

theorem spelling_ne_nil (ht : t.Spelling cs) (hproper : t.Proper) : cs ≠ [] := by
  cases ht with
  | @literal l ex h =>
      simp only [ne_eq, List.append_eq_nil_iff, not_and]
      intro hnil
      refine absurd ?_ (hproper.nonempty hnil.1)
      cases hfraction : l.fraction <;> simp_all
  | _ => simp

theorem isBlank_of_isGap (h : isGap c = true) : Text.isBlank c = true := by
  simp only [isGap, Bool.or_eq_true, beq_iff_eq] at h
  rcases h with (rfl | rfl) | rfl <;> decide

/-- A spelled text holds nothing but characters of numerals. -/
theorem all_isNumeralChar (h : Spelled ts cs) (hproper : ∀ t ∈ ts, t.Proper) :
    cs.all isNumeralChar = true := by
  have hgap {gap : List Char} (h : ∀ c ∈ gap, isGap c = true) : gap.all isNumeralChar = true :=
    List.all_eq_true.mpr fun c hc => by simp [isNumeralChar, isBlank_of_isGap (h c hc)]
  induction h with
  | nil h => exact hgap h
  | cons h ht hts ih =>
      have htoken := isTokenChar_spelling ht (hproper _ (by simp))
      simp only [isTokenChar, Bool.and_eq_true] at htoken
      rw [List.all_append, List.all_append, hgap h, ih fun u hu => hproper u (by simp [hu])]
      simpa using fun c hc => (htoken c hc).1

theorem spelled_trimLeft (h : Spelled ts cs) (hproper : ∀ t ∈ ts, t.Proper) :
    Spelled ts (Text.trimLeft cs) := by
  cases h with
  | nil h =>
      have hnil : Text.trimLeft cs = [] :=
        List.dropWhile_eq_nil_iff.mpr fun c hc => isBlank_of_isGap (h c hc)
      rw [hnil]
      exact .nil (by simp)
  | @cons gap cs rest t ts h ht hts =>
      have htoken := isTokenChar_spelling ht (hproper _ (by simp))
      obtain ⟨c, cs, rfl⟩ := List.exists_cons_of_ne_nil (spelling_ne_nil ht (hproper _ (by simp)))
      have hc : Text.isBlank c = false := by
        have := htoken c (by simp)
        simp_all [isTokenChar]
      have hgap : gap.dropWhile Text.isBlank = [] :=
        List.dropWhile_eq_nil_iff.mpr fun c hc => isBlank_of_isGap (h c hc)
      have hhead : ∀ d ∈ (c :: cs ++ rest).head?, Text.isBlank d = false := by simpa using hc
      rw [List.append_assoc, Text.trimLeft, dropWhile_append_of_head hhead, hgap]
      have hcons := Spelled.cons (List.forall_mem_nil (isGap · = true)) ht hts
      simpa using hcons

theorem spelled_trimRight (h : Spelled ts cs) (hproper : ∀ t ∈ ts, t.Proper) :
    Spelled ts (Text.trimRight cs) := by
  induction h with
  | @nil gap h =>
      have hnil : Text.trimRight gap = [] := by
        rw [Text.trimRight, List.reverse_eq_nil_iff]
        exact List.dropWhile_eq_nil_iff.mpr fun c hc => isBlank_of_isGap (h c (by simpa using hc))
      rw [hnil]
      exact .nil (by simp)
  | @cons gap cs rest t ts h ht hts ih =>
      have htoken := isTokenChar_spelling ht (hproper _ (by simp))
      have hlast : ∀ c ∈ (gap ++ cs).reverse.head?, Text.isBlank c = false := by
        have hne := spelling_ne_nil ht (hproper _ (by simp))
        have hmem := htoken (cs.getLast hne) (List.getLast_mem hne)
        rw [← List.dropLast_append_getLast hne]
        simp only [isTokenChar, Bool.and_eq_true, Bool.not_eq_true'] at hmem
        simpa using hmem.2
      have htrim : Text.trimRight (gap ++ cs ++ rest) = gap ++ cs ++ Text.trimRight rest := by
        rw [Text.trimRight, List.reverse_append, Text.trimLeft, dropWhile_append_of_head hlast]
        simp [Text.trimRight, Text.trimLeft]
      rw [htrim]
      exact .cons h ht (ih fun u hu => hproper u (by simp [hu]))

/-- Blanks at the ends of a spelled text do not matter. -/
theorem spelled_trim (h : Spelled ts cs) (hproper : ∀ t ∈ ts, t.Proper) :
    Spelled ts (Text.trim cs) :=
  spelled_trimRight (spelled_trimLeft h hproper) hproper

/-! ## Long exponents -/

theorem hasLongExponent_append_of_ne {xs : List Char} (h : ∀ x ∈ xs, x ≠ 'e' ∧ x ≠ 'E') :
    hasLongExponent (xs ++ rest) = hasLongExponent rest := by
  induction xs with
  | nil => rfl
  | cons x xs ih =>
      obtain ⟨he, hE⟩ := h x (by simp)
      simp [hasLongExponent, he, hE, ih fun y hy => h y (by simp [hy])]

theorem startsWithFourDigits_eq_false {ds : List Char} (hds : ∀ d ∈ ds, d.isDigit = true)
    (hshort : ds.length ≤ 3) (hrest : ∀ c ∈ rest.head?, c.isDigit = false) :
    startsWithFourDigits (ds ++ rest) = false := by
  rw [startsWithFourDigits, takeWhile_digits hds hrest]
  simpa using Nat.lt_succ_of_le hshort

theorem isDigit_ne {d : Char} (h : c.isDigit = true) (hd : d.isDigit = false) : c ≠ d := by
  rintro rfl
  simp [h] at hd

/-- An exponent of three digits is not long. -/
theorem hasLongExponent_exponent {e : Option (Bool × List Char)} (h : ExponentSpelling e cs)
    (hdigits : ∀ x ∈ e, ∀ d ∈ x.2, d.isDigit = true)
    (hshort : ∀ x ∈ e, 0 < x.2.length ∧ x.2.length ≤ 3) (hrest : Ends rest) :
    hasLongExponent (cs ++ rest) = hasLongExponent rest := by
  have hend : ∀ c ∈ rest.head?, c.isDigit = false := fun c hc => (hrest c hc).1
  have hds {ds : List Char} (h : ∀ d ∈ ds, d.isDigit = true) :
      hasLongExponent (ds ++ rest) = hasLongExponent rest :=
    hasLongExponent_append_of_ne fun d hd =>
      ⟨isDigit_ne (h d hd) (by decide), isDigit_ne (h d hd) (by decide)⟩
  have hsign {s : Char} (hs : s.isDigit = false) (r : List Char) :
      startsWithFourDigits (s :: r) = false := by
    simp [startsWithFourDigits, hs]
  cases h with
  | none => rfl
  | @unsigned e he ds =>
      have hdigits := hdigits _ rfl
      have hfour := startsWithFourDigits_eq_false hdigits (hshort _ rfl).2 hend
      have hnosign : ((ds ++ rest).head?.any fun s => s == '+' || s == '-') = false := by
        have hne : ds ≠ [] := List.ne_nil_of_length_pos (hshort _ rfl).1
        obtain ⟨d, ds, rfl⟩ := List.exists_cons_of_ne_nil hne
        have hd := hdigits d (by simp)
        simp [isDigit_ne hd (show '+'.isDigit = false by decide),
          isDigit_ne hd (show '-'.isDigit = false by decide)]
      rw [List.cons_append, hasLongExponent, hfour, hnosign, hds hdigits]
      simp
  | @positive e he ds | @negative e he ds =>
      have hdigits := hdigits _ rfl
      have hfour := startsWithFourDigits_eq_false hdigits (hshort _ rfl).2 hend
      rw [List.cons_append, List.cons_append, hasLongExponent, hsign (by decide), hasLongExponent,
        hds hdigits]
      simp [hfour]

/-- No exponent of a spelled text is long. -/
theorem hasLongExponent_spelled {ended : Bool} (h : Spelled ts cs) (hproper : ∀ t ∈ ts, t.Proper)
    (hts : Alternates ended ts) : hasLongExponent cs = false := by
  have hgap {gap : List Char} (h : ∀ c ∈ gap, isGap c = true) : ∀ c ∈ gap, c ≠ 'e' ∧ c ≠ 'E' := by
    intro c hc
    have := h c hc
    constructor <;> rintro rfl <;> cases this
  induction h generalizing ended with
  | @nil gap h =>
      rw [← List.append_nil gap, hasLongExponent_append_of_ne (hgap h)]
      rfl
  | @cons gap cs rest t ts h ht hts' ih =>
      have hrest := ih (fun u hu => hproper u (by simp [hu])) hts.2
      rw [List.append_assoc, hasLongExponent_append_of_ne (hgap h)]
      have hother (h : ∀ c ∈ cs, c ≠ 'e' ∧ c ≠ 'E') : hasLongExponent (cs ++ rest) = false := by
        rw [hasLongExponent_append_of_ne h, hrest]
      cases ht with
      | @literal l ex hex =>
          have hl : l.Proper := hproper (.literal l) (by simp)
          have hends : Ends rest := ends_spelled hts' hts.2
          have hmantissa : ∀ c ∈ l.whole ++ l.fraction.elim [] ('.' :: ·), c ≠ 'e' ∧ c ≠ 'E' := by
            intro c hc
            rcases mem_mantissa hl hc with h | rfl
            · exact ⟨isDigit_ne h (by decide), isDigit_ne h (by decide)⟩
            · decide
          rw [List.append_assoc, hasLongExponent_append_of_ne hmantissa,
            hasLongExponent_exponent hex hl.exponent_digits hl.exponent_short hends, hrest]
      | _ => exact hother (by simp)

end Bellman.Numeral
