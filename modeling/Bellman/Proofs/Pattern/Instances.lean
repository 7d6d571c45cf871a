import Bellman.Proofs.Pattern.Matching
import Bellman.Proofs.Pattern.Occurrences
import Bellman.Proofs.Text.Replacement

/-!
# Rewriting replaces instances

Rewriting by a pattern replaces instances of the pattern, at least one where the pattern
occurs. Up to spacing a pattern has finitely many instances, its forms, so what is true of
every form is true of every instance.
-/

namespace Bellman.Pattern

open Text

variable {p q : Pattern} {replacement : List Char → List Char} {m rest cs : List Char}

/-- The visible characters of the instances of a pattern. -/
def forms : Pattern → List (List Char)
  | .text s => [visible s]
  | .blanks => [[]]
  | .optional s => [visible s, []]
  | .wordEnd => [[]]
  | .andThen p q => p.forms.flatMap fun a => q.forms.map (a ++ ·)
  | .orElse p q => p.forms ++ q.forms

theorem visible_mem_forms (h : p.Matches m rest) : visible m ∈ p.forms := by
  induction p generalizing m rest with
  | text s =>
      obtain rfl : m = s := h
      exact List.mem_singleton_self _
  | blanks =>
      have hall : ∀ c ∈ m, isBlank c = true := h
      simp [forms, visible_eq_nil.mpr hall]
  | optional s =>
      obtain rfl | rfl := h
      · simp [forms]
      · simp [forms]
  | wordEnd =>
      obtain ⟨rfl, -⟩ := h
      exact List.mem_singleton_self _
  | andThen p q ihp ihq =>
      obtain ⟨a, b, rfl, ha, hb⟩ := h
      rw [visible_append]
      exact List.mem_flatMap.mpr ⟨visible a, ihp ha, List.mem_map_of_mem (ihq hb)⟩
  | orElse p q ihp ihq =>
      obtain h | h := h
      · exact List.mem_append_left _ (ihp h)
      · exact List.mem_append_right _ (ihq h)

/-- An instance of a pattern and what is put in its place. -/
def Instance (p : Pattern) (replacement : List Char → List Char) (m g : List Char) : Prop :=
  m ≠ [] ∧ (∃ rest, p.Matches m rest) ∧ g = replacement m

/-- A pattern that is not empty is read with a character at least. -/
theorem Solid.of_read? (solid : p.Solid) (h : p.read? cs = some (m, rest)) :
    m ≠ [] ∧ cs = m ++ rest ∧ p.Matches m rest := by
  have hm := matches_of_read? h
  obtain ⟨c, ds, rfl, -⟩ := solid m rest hm
  exact ⟨List.cons_ne_nil c ds, append_of_read? h, hm⟩

theorem Solid.occursIn_nil (solid : p.Solid) : p.occursIn [] = false := by
  rw [occursIn, Option.isSome_eq_false_iff, Option.isNone_iff_eq_none]
  by_contra hread
  obtain ⟨⟨m, rest⟩, hread⟩ := Option.ne_none_iff_exists'.mp hread
  obtain ⟨hm, hnil, -⟩ := solid.of_read? hread
  exact hm (List.append_eq_nil_iff.mp hnil.symm).1

/-- A pattern goes through a text from left to right and takes what it reads as a whole. -/
theorem Solid.scan (solid : p.Solid) {motive : List Char → Prop} (nil : motive [])
    (found : ∀ m rest, m ≠ [] → p.Matches m rest → p.read? (m ++ rest) = some (m, rest) →
      motive rest → motive (m ++ rest))
    (kept : ∀ c cs, p.read? (c :: cs) = none → motive cs → motive (c :: cs))
    (cs : List Char) : motive cs := by
  induction h : cs.length using Nat.strong_induction_on generalizing cs with
  | h length ih =>
      cases cs with
      | nil => exact nil
      | cons c cs =>
          cases hread : p.read? (c :: cs) with
          | none => exact kept c cs hread (ih cs.length (by simp [← h]) cs rfl)
          | some pair =>
              obtain ⟨m, rest⟩ := pair
              obtain ⟨hm, hcs, hmatches⟩ := solid.of_read? hread
              have hpos : 0 < m.length := List.length_pos_iff.mpr hm
              have hlength : (c :: cs).length = m.length + rest.length := by simp [hcs]
              rw [hcs] at hread ⊢
              exact found m rest hm hmatches hread (ih rest.length (by omega) rest rfl)

/-- Rewriting replaces instances, one at least where the pattern occurs. -/
theorem Solid.replaces_rewrite (solid : p.Solid) (replacement : List Char → List Char)
    (cs : List Char) :
    ∃ n, Replaces (p.Instance replacement) n cs (p.rewrite replacement cs) ∧
      (p.occursIn cs = true → 0 < n) := by
  induction cs using solid.scan with
  | nil => exact ⟨0, .nil, fun hoccurs => by simp [solid.occursIn_nil] at hoccurs⟩
  | found m rest hm hmatches hread ih =>
      obtain ⟨n, hn, -⟩ := ih
      rw [rewrite_append hm hread]
      exact ⟨n + 1, .piece ⟨hm, ⟨rest, hmatches⟩, rfl⟩ hn, fun _ => Nat.zero_lt_succ n⟩
  | kept c cs hread ih =>
      obtain ⟨n, hn, hoccurs⟩ := ih
      rw [rewrite_cons hread]
      refine ⟨n, .keep c hn, fun hc => hoccurs ?_⟩
      simpa [occursIn, hread] using hc

/-- What is read begins, up to spacing, with a form of the pattern. -/
theorem exists_form_of_read? (h : p.read? cs = some (m, rest)) :
    ∃ f ∈ p.forms, f <+: visible cs := by
  refine ⟨visible m, visible_mem_forms (matches_of_read? h), ?_⟩
  rw [append_of_read? h, visible_append]
  exact List.prefix_append _ _

/-- Nothing is read at the start of a text in which no form of the pattern begins. -/
theorem Solid.read?_eq_none_of_avoids (solid : p.Solid) {c : Char} {t : List Char}
    (avoids : ∀ f ∈ p.forms, Avoids f (visible (c :: t))) (cs : List Char) :
    p.read? (c :: (t ++ cs)) = none := by
  by_contra hread
  obtain ⟨⟨m, rest⟩, hread⟩ := Option.ne_none_iff_exists'.mp hread
  obtain ⟨f, hf, hprefix⟩ := exists_form_of_read? hread
  obtain ⟨-, hcs, hmatches⟩ := solid.of_read? hread
  obtain ⟨d, ds, rfl, hd⟩ := solid m rest hmatches
  obtain ⟨rfl, -⟩ := List.cons.inj hcs
  have hvisible : visible (c :: t) = c :: visible t := by simp [visible_cons, hd]
  have hform := avoids f hf
  rw [hvisible] at hform
  refine hform.1 (agree_of_prefix_append (t := visible cs) ?_)
  rwa [← hvisible, ← visible_append]

/-- Where no form begins in a text, none begins in its tail. -/
theorem avoids_tail {c : Char} {t : List Char}
    (avoids : ∀ f ∈ p.forms, Avoids f (visible (c :: t))) :
    ∀ f ∈ p.forms, Avoids f (visible t) := by
  intro f hf
  have hform := avoids f hf
  rw [visible_cons] at hform
  split at hform
  · exact hform
  · exact hform.2

/-- Nothing is read where an instance of a pattern stands whose forms begin differently. -/
theorem read?_eq_none_of_forms (apart : ∀ v ∈ p.forms, ∀ w ∈ q.forms, ¬ Agree v w)
    (h : q.Matches m rest) : p.read? (m ++ rest) = none := by
  by_contra hread
  obtain ⟨⟨m', rest'⟩, hread⟩ := Option.ne_none_iff_exists'.mp hread
  obtain ⟨v, hv, hprefix⟩ := exists_form_of_read? hread
  rw [visible_append] at hprefix
  exact apart v hv _ (visible_mem_forms h) (agree_of_prefix_append hprefix)

/-- A text in which no form of the pattern begins is passed over. -/
theorem Solid.rewrite_append_of_avoids (solid : p.Solid) {t : List Char}
    (avoids : ∀ f ∈ p.forms, Avoids f (visible t)) (replacement : List Char → List Char)
    (cs : List Char) : p.rewrite replacement (t ++ cs) = t ++ p.rewrite replacement cs := by
  induction t with
  | nil => rfl
  | cons c t ih =>
      rw [List.cons_append, rewrite_cons (solid.read?_eq_none_of_avoids avoids cs),
        ih (avoids_tail avoids)]
      rfl

theorem Solid.occursIn_append_of_avoids (solid : p.Solid) {t : List Char}
    (avoids : ∀ f ∈ p.forms, Avoids f (visible t)) (cs : List Char) :
    p.occursIn (t ++ cs) = p.occursIn cs := by
  induction t with
  | nil => rfl
  | cons c t ih =>
      rw [List.cons_append, occursIn, solid.read?_eq_none_of_avoids avoids cs,
        ih (avoids_tail avoids)]
      rfl

/-- No form begins in blanks. -/
theorem avoids_blank {t : List Char} (ht : ∀ c ∈ t, isBlank c = true) :
    ∀ f ∈ p.forms, Avoids f (visible t) := by
  intro f _
  rw [visible_eq_nil.mpr ht]
  trivial

/-- An instance that is read behind a text in which no form begins is replaced there. -/
theorem Solid.rewrite_around (solid : p.Solid) {a : List Char}
    (avoids : ∀ f ∈ p.forms, Avoids f (visible a)) (hread : p.read? (m ++ cs) = some (m, cs))
    (replacement : List Char → List Char) :
    p.rewrite replacement (a ++ (m ++ cs)) =
      a ++ (replacement m ++ p.rewrite replacement cs) := by
  obtain ⟨hm, -, -⟩ := solid.of_read? hread
  rw [solid.rewrite_append_of_avoids avoids, rewrite_append hm hread]

end Bellman.Pattern
