import Bellman.Proofs.Notation.Spelling
import Bellman.Proofs.Notation.Value
import Bellman.Proofs.Rule.Transform

/-!
# The recursion of the return in a formula

`recursive-return` replaces text, and on the tokens of a formula it puts four tokens for
every present return, whatever stands around it. Scalars in front of the return then go to
the reward only and scalars behind it to the next return only. The value is kept exactly
where every present return stands alone.
-/

namespace Bellman.Notation

open Text Pattern Catalog

/-- What the rule puts for a token. -/
def recur : Token → List Token
  | .mark .presentReturn =>
      [.mark .reward, .mark .plus, .mark .discount, .mark .nextReturn]
  | t => [t]

namespace Expression

/-- What the rule makes of an expression. -/
def recurred : {l : Level} → Expression l → Formula
  | _, constant x xs => single (constant x xs)
  | _, atom before .presentReturn after =>
      add (atom before .reward []) (single (atom [.discount] .nextReturn after))
  | _, atom before a after => single (atom before a after)
  | _, expected before inside after => single (expected before inside.recurred after)
  | _, single t => t.recurred
  | _, add t f => t.recurred.plus f.recurred

end Expression

private theorem flatMap_symbols (xs : List Symbol) : (symbols xs).flatMap recur = symbols xs := by
  induction xs with
  | nil => rfl
  | cons x xs ih => cases x <;> simp [symbols_cons, Symbol.token, recur, ih]

namespace Expression

theorem tokens_recurred {l : Level} (f : Expression l) :
    f.recurred.tokens = f.tokens.flatMap recur := by
  induction f with
  | constant x xs => exact (flatMap_symbols (x :: xs)).symm
  | atom before a after =>
      cases a <;>
        simp [recurred, tokens, flatMap_symbols, recur, Atom.mark, Symbol.token]
  | expected before inside after ih =>
      have flat : condition.flatMap recur = condition := rfl
      simp [recurred, tokens, flatMap_symbols, recur, flat, ih]
  | single t ih => exact ih
  | add t f iht ihf => simp [recurred, tokens, tokens_plus, iht, ihf, recur]

end Expression

/-- What the rule writes for a present return. -/
def recursionText : List Char :=
  (Latex.nextReward ++ " + \\gamma " ++ Latex.nextReturn).toList

theorem recursionText_eq : recursionText =
    Mark.reward.text ++ (' ' :: (Mark.plus.text ++ (' ' ::
      (Mark.discount.text ++ (' ' :: Mark.nextReturn.text))))) :=
  rfl

/-- The rule's rewriting of a text. -/
def recurText (cs : List Char) : List Char :=
  returnPattern.rewrite (fun _ => recursionText) cs

theorem recurText_cons {c : Char} {cs : List Char}
    (h : ¬ Mark.presentReturn.text <+: c :: cs) : recurText (c :: cs) = c :: recurText cs := by
  refine rewrite_cons ?_
  change ¬ Latex.presentReturn.toList <+: c :: cs at h
  simp [returnPattern, exactly, read?, h]

/-- A present return begins with its letter and the low line. -/
private theorem not_present_of_head {c : Char} {cs : List Char}
    (h : c ≠ 'G' ∨ cs.head? ≠ some '_') : ¬ Mark.presentReturn.text <+: c :: cs := by
  intro hp
  obtain ⟨rfl, hcs⟩ := List.cons_prefix_cons.1 hp
  obtain ⟨ds, rfl⟩ := hcs
  rcases h with h | h
  · exact h rfl
  · exact h rfl

/-- A text is kept where no `G` is followed by the low line. -/
private theorem recurText_append {xs : List Char} (h : 'G' ∉ xs ∨ '_' ∉ xs) {cs : List Char}
    (clear : cs.head? ≠ some '_') : recurText (xs ++ cs) = xs ++ recurText cs := by
  induction xs with
  | nil => rfl
  | cons x xs ih =>
      simp only [List.mem_cons, not_or] at h
      have head : x ≠ 'G' ∨ (xs ++ cs).head? ≠ some '_' := by
        rcases h with h | h
        · exact .inl (Ne.symm h.1)
        · refine .inr ?_
          cases xs with
          | nil => exact clear
          | cons y ys =>
              rintro hy
              obtain rfl : y = '_' := Option.some.inj hy
              exact h.2 List.mem_cons_self
      rw [List.cons_append, recurText_cons (not_present_of_head head),
        ih (h.imp And.right And.right)]
      rfl

/-- A present return that ends is replaced. -/
theorem recurText_presentReturn {cs : List Char}
    (ends : (Token.mark .presentReturn).EndsAt cs) :
    recurText (Mark.presentReturn.text ++ cs) = recursionText ++ recurText cs := by
  refine rewrite_append (by decide) ?_
  have stop := ends rfl
  simp [returnPattern, exactly, read?, Mark.text, stop]

/-- Other tokens are kept. -/
theorem recurText_token {t : Token} (other : t ≠ .mark .presentReturn) {cs : List Char}
    (clear : Clear cs) : recurText (t.text ++ cs) = t.text ++ recurText cs := by
  rcases t with m | ⟨c, latin⟩ | ⟨letters, free⟩
  · cases m with
    | presentReturn => exact absurd rfl other
    | nextReturn =>
        -- The next return begins like the present one and goes on differently.
        have later : ¬ Mark.presentReturn.text <+: 'G' :: '_' :: ("\x7bt+1\x7d".toList ++ cs) := by
          rintro ⟨ds, hds⟩
          cases hds
        change recurText ('G' :: '_' :: ("\x7bt+1\x7d".toList ++ cs)) = _
        rw [recurText_cons later, ← List.cons_append, recurText_append (by decide) clear.1]
        rfl
    | _ => exact recurText_append (by decide) clear.1
  · refine recurText_append (.inr ?_) clear.1
    intro mem
    exact ne_of_isAlpha latin (by decide) (List.mem_singleton.1 mem).symm
  · refine recurText_append (.inr ?_) clear.1
    intro mem
    rcases List.mem_cons.1 mem with h | h
    · cases h
    · exact ne_of_isAlpha (free.isAlpha _ h) (by decide) rfl

/-- A word still ends where it ended. -/
theorem Token.EndsAt.recurText {t : Token} {cs : List Char} (ends : t.EndsAt cs) :
    t.EndsAt (recurText cs) := by
  intro word
  have stop := ends word
  cases cs with
  | nil => rfl
  | cons c cs =>
      have other : c ≠ 'G' := by
        rintro rfl
        simp [show isWordChar 'G' = true by decide] at stop
      rw [recurText_cons (not_present_of_head (.inl other))]
      exact stop

/-- The rewritten text spells the rewritten tokens. -/
theorem Spells.recurText {ts : List Token} {cs : List Char} (h : Spells ts cs) :
    Spells (ts.flatMap recur) (recurText cs) := by
  induction h with
  | nil => exact .nil
  | @blank ts c cs hc rest ih =>
      have other : c ≠ 'G' := by
        rintro rfl
        exact absurd hc (by decide)
      rw [recurText_cons (not_present_of_head (.inl other))]
      exact .blank hc ih
  | @thin ts cs rest ih =>
      rw [recurText_append (by decide) rest.clear.1]
      exact .thin ih
  | @token ts cs t ends rest ih =>
      by_cases ht : t = .mark .presentReturn
      · subst ht
        change Spells _ (Notation.recurText (Mark.presentReturn.text ++ cs))
        rw [recurText_presentReturn ends, recursionText_eq]
        simp only [List.append_assoc, List.cons_append]
        refine .token (.mark .reward) (.of_isWord_eq_false rfl _) ?_
        refine .blank (by decide) (.token (.mark .plus) (.of_isWord_eq_false rfl _) ?_)
        refine .blank (by decide) (.token (.mark .discount) (fun _ => rfl) ?_)
        exact .blank (by decide) (.token (.mark .nextReturn) (.of_isWord_eq_false rfl _) ih)
      · have keep : recur t = [t] := by
          cases t with
          | mark m => cases m <;> first | rfl | exact absurd rfl ht
          | name n => rfl
        rw [recurText_token ht rest.clear, List.flatMap_cons, keep]
        exact .token t ends.recurText ih

/-- What the rule returns on the text of a formula is the text of the rewritten formula. -/
theorem Reads.recurred {e out : String} {f : Formula} (h : Reads e f)
    (run : recursiveReturn.transform e = .ok out) : Reads out f.recurred := by
  obtain ⟨cs, rewritten, rfl⟩ := transform_rule_eq_ok.1 run
  obtain ⟨-, rfl⟩ := substitute_eq_ok.1 rewritten
  rw [Reads, String.toList_ofList, Expression.tokens_recurred]
  exact h.recurText.normalize

namespace Expression

/-- Every present return stands without scalars around it. -/
def ReturnsAlone : {l : Level} → Expression l → Prop
  | _, constant _ _ => True
  | _, atom before a after => a = .presentReturn → before = [] ∧ after = []
  | _, expected _ inside _ => inside.ReturnsAlone
  | _, single t => t.ReturnsAlone
  | _, add t f => t.ReturnsAlone ∧ f.ReturnsAlone

/-- A present return alone can be replaced by what it is. -/
theorem value_recurred {V : Type} [AddCommGroup V] [Module ℚ V] (ρ : Reading V) {l : Level}
    {f : Expression l} (alone : f.ReturnsAlone) : f.recurred.value ρ = f.value ρ := by
  induction f with
  | constant x xs => rfl
  | atom before a after =>
      cases a with
      | presentReturn =>
          obtain ⟨rfl, rfl⟩ := alone rfl
          simp [recurred, value, Reading.atom]
      | reward => rfl
      | nextReturn => rfl
  | expected before inside after ih =>
      simp only [recurred, value]
      rw [ih alone]
  | single t ih => exact ih alone
  | add t f iht ihf =>
      simp only [recurred, value, value_plus]
      rw [iht alone.1, ihf alone.2]

private theorem value_present (before after : List Symbol) :
    (atom before .presentReturn after).value doubling =
      3 * (doubling.product before * doubling.product after) := by
  simp [value, mul_comm]

private theorem value_recurred_present (before after : List Symbol) :
    (atom before .presentReturn after).recurred.value doubling =
      doubling.product before + 2 * doubling.product after := by
  simp [recurred, value]

/-- The rule loses scalars and never gains any. -/
theorem value_recurred_le {l : Level} (f : Expression l) :
    f.recurred.value doubling ≤ f.value doubling := by
  induction f with
  | constant x xs => exact le_rfl
  | atom before a after =>
      cases a with
      | presentReturn =>
          have hb := doubling.one_le_product before
          have ha := doubling.one_le_product after
          rw [value_present, value_recurred_present]
          have first := le_mul_of_one_le_right (by linarith : 0 ≤ doubling.product before) ha
          have second := le_mul_of_one_le_left (by linarith : 0 ≤ doubling.product after) hb
          linarith
      | reward => exact le_rfl
      | nextReturn => exact le_rfl
  | expected before inside after ih =>
      have := doubling.one_le_scale before after
      change _ * inside.recurred.value doubling ≤ _ * inside.value doubling
      exact mul_le_mul_of_nonneg_left ih (by linarith)
  | single t ih => exact ih
  | add t f iht ihf =>
      simp only [recurred, value, value_plus]
      exact add_le_add iht ihf

/-- Where the rule loses no scalar, the present returns stand alone. -/
theorem returnsAlone_of_value_eq {l : Level} {f : Expression l}
    (same : f.recurred.value doubling = f.value doubling) : f.ReturnsAlone := by
  induction f with
  | constant x xs => trivial
  | atom before a after =>
      rintro rfl
      have hb := doubling.one_le_product before
      have ha := doubling.one_le_product after
      rw [value_present, value_recurred_present] at same
      have first := le_mul_of_one_le_right (by linarith : 0 ≤ doubling.product before) ha
      have second := le_mul_of_one_le_left (by linarith : 0 ≤ doubling.product after) hb
      -- Each of the two summands alone is at most the whole product, so none has lost any.
      have allBefore : doubling.product before =
        doubling.product before * doubling.product after := by linarith
      have allAfter : doubling.product after =
        doubling.product before * doubling.product after := by linarith
      rw [left_eq_mul₀ (by linarith)] at allBefore
      rw [right_eq_mul₀ (by linarith)] at allAfter
      exact ⟨doubling.product_eq_one_iff.1 allAfter, doubling.product_eq_one_iff.1 allBefore⟩
  | expected before inside after ih =>
      have scale := doubling.one_le_scale before after
      change _ * inside.recurred.value doubling = _ * inside.value doubling at same
      exact ih (mul_left_cancel₀ (by linarith) same)
  | single t ih => exact ih same
  | add t f iht ihf =>
      have ht := value_recurred_le t
      have hf := value_recurred_le f
      simp only [recurred, value, value_plus] at same
      exact ⟨iht (by linarith), ihf (by linarith)⟩

end Expression

/-- What the rule returns on the text of a formula means the formula exactly where every
present return stands alone. -/
theorem Reads.means_iff_returnsAlone {e out : String} {f : Formula} (h : Reads e f)
    (run : recursiveReturn.transform e = .ok out) : Means out f ↔ f.ReturnsAlone := by
  rw [means_iff (h.recurred run)]
  constructor
  · intro same
    exact Expression.returnsAlone_of_value_eq (same ℚ doubling)
  · intro alone V _ _ ρ
    exact Expression.value_recurred ρ alone

end Bellman.Notation
