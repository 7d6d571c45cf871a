import Bellman.Pattern
import Mathlib.Data.List.Infix

/-!
# Occurrences of a pattern

How rewriting and splitting go through a text: a character at which nothing is found stays
where it is, and an occurrence is taken as a whole. The equations follow the text, so that
what is known about its pieces can be used one after the other.
-/

namespace Bellman.Pattern

@[simp] theorem rewrite_nil (p : Pattern) (replacement : List Char → List Char) :
    p.rewrite replacement [] = [] :=
  rfl

/-- A character at which the pattern cannot be read is kept. -/
theorem pieces_cons {p : Pattern} {c : Char} {cs : List Char} (h : p.read? (c :: cs) = none) :
    p.pieces (c :: cs) = .kept c :: p.pieces cs := by
  simp [pieces, piecesAfter, h]

private theorem piecesAfter_length (p : Pattern) (xs cs : List Char) :
    p.piecesAfter xs.length (xs ++ cs) = p.piecesAfter 0 cs := by
  induction xs with
  | nil => rfl
  | cons x xs ih => simpa [piecesAfter] using ih

/-- An occurrence at the start of a text is found as a whole. -/
theorem pieces_append {p : Pattern} {m cs : List Char} (ne : m ≠ [])
    (h : p.read? (m ++ cs) = some (m, cs)) :
    p.pieces (m ++ cs) = .found m :: p.pieces cs := by
  cases m with
  | nil => exact absurd rfl ne
  | cons c m =>
      rw [List.cons_append] at h
      simp [pieces, piecesAfter, h, piecesAfter_length]

theorem rewrite_cons {p : Pattern} {replacement : List Char → List Char} {c : Char}
    {cs : List Char} (h : p.read? (c :: cs) = none) :
    p.rewrite replacement (c :: cs) = c :: p.rewrite replacement cs := by
  simp [rewrite, pieces_cons h]

/-- A text in which the pattern does not occur stays as it is. -/
theorem rewrite_eq_self {p : Pattern} {replacement : List Char → List Char} {cs : List Char}
    (h : p.occursIn cs = false) : p.rewrite replacement cs = cs := by
  induction cs with
  | nil => rfl
  | cons c cs ih =>
      rw [occursIn, Bool.or_eq_false_iff, Option.isSome_eq_false_iff, Option.isNone_iff_eq_none]
        at h
      rw [rewrite_cons h.1, ih h.2]

/-- An occurrence at the start of a text is replaced as a whole. -/
theorem rewrite_append {p : Pattern} {replacement : List Char → List Char}
    {m cs : List Char} (ne : m ≠ []) (h : p.read? (m ++ cs) = some (m, cs)) :
    p.rewrite replacement (m ++ cs) = replacement m ++ p.rewrite replacement cs := by
  simp [rewrite, pieces_append ne h]

/-- What is found is an instance of the pattern. -/
theorem matches_of_mem_pieces {p : Pattern} {m cs : List Char} (h : .found m ∈ p.pieces cs) :
    ∃ rest, p.Matches m rest := by
  suffices skipping : ∀ skip, .found m ∈ p.piecesAfter skip cs → ∃ rest, p.Matches m rest from
    skipping 0 h
  clear h
  induction cs with
  | nil =>
      intro skip h
      cases skip <;> cases h
  | cons c cs ih =>
      intro skip h
      cases skip with
      | succ skip => exact ih skip h
      | zero =>
          rw [piecesAfter] at h
          split at h
          next m' ms rest hread =>
            obtain heq | hlater := List.mem_cons.mp h
            · cases heq
              exact ⟨rest, matches_of_read? hread⟩
            · exact ih _ hlater
          next =>
            obtain heq | hlater := List.mem_cons.mp h
            · cases heq
            · exact ih _ hlater

theorem splitAt?_cons {s : List Char} {c : Char} {cs : List Char} (h : ¬ s <+: c :: cs) :
    splitAt? s (c :: cs) = (splitAt? s cs).map fun (before, after) => (c :: before, after) := by
  rw [splitAt?, if_neg (by simpa using h)]

theorem splitAt?_self {s : List Char} (ne : s ≠ []) (cs : List Char) :
    splitAt? s (s ++ cs) = some ([], cs) := by
  cases s with
  | nil => exact absurd rfl ne
  | cons c s => simp [splitAt?]

/-- A piece of the text is passed over when the occurrence neither is at its start nor
begins with any of its other characters. -/
theorem of_splitAt?_append {s : List Char} {d : Char} (hd : s.head? = some d) {c : Char}
    {xs cs before after : List Char} (start : ¬ s <+: c :: (xs ++ cs)) (hx : d ∉ xs)
    (h : splitAt? s (c :: (xs ++ cs)) = some (before, after)) :
    ∃ b, before = c :: (xs ++ b) ∧ splitAt? s cs = some (b, after) := by
  rw [splitAt?_cons start, Option.map_eq_some_iff] at h
  obtain ⟨⟨b, a⟩, h, hb⟩ := h
  obtain ⟨rfl, rfl⟩ := Prod.mk.inj hb
  induction xs generalizing c b with
  | nil => exact ⟨b, rfl, h⟩
  | cons x xs ih =>
      rw [List.mem_cons, not_or] at hx
      have next : ¬ s <+: x :: (xs ++ cs) := by
        intro hp
        cases s with
        | nil => cases hd
        | cons e s =>
            obtain rfl : e = d := Option.some.inj hd
            exact hx.1 (List.cons_prefix_cons.1 hp).1
      rw [List.cons_append, splitAt?_cons next, Option.map_eq_some_iff] at h
      obtain ⟨⟨b', a'⟩, h, hb'⟩ := h
      obtain ⟨rfl, rfl⟩ := Prod.mk.inj hb'
      obtain ⟨b'', hb'', h⟩ := ih next hx.2 b' h rfl
      exact ⟨b'', by rw [hb'']; rfl, h⟩

/-- The first occurrence of an entry cuts a row in one way. -/
theorem eq_of_first {α : Type} {a : α} {xs ys us vs : List α} (hx : a ∉ xs) (hy : a ∉ ys)
    (h : xs ++ a :: us = ys ++ a :: vs) : xs = ys ∧ us = vs := by
  induction xs generalizing ys with
  | nil =>
      cases ys with
      | nil => exact ⟨rfl, (List.cons.inj h).2⟩
      | cons y ys =>
          obtain rfl := (List.cons.inj h).1
          exact absurd List.mem_cons_self hy
  | cons x xs ih =>
      cases ys with
      | nil =>
          obtain rfl := (List.cons.inj h).1
          exact absurd List.mem_cons_self hx
      | cons y ys =>
          obtain ⟨rfl, rest⟩ := List.cons.inj h
          rw [List.mem_cons, not_or] at hx hy
          obtain ⟨rfl, rfl⟩ := ih hx.2 hy.2 rest
          exact ⟨rfl, rfl⟩

/-- Splitting takes a text apart around what it looks for. -/
theorem append_of_splitAt? {s cs before after : List Char}
    (h : splitAt? s cs = some (before, after)) : cs = before ++ (s ++ after) := by
  induction cs generalizing before with
  | nil =>
      simp only [splitAt?, Option.ite_none_right_eq_some, List.isEmpty_iff,
        Option.some.injEq, Prod.mk.injEq] at h
      obtain ⟨rfl, rfl, rfl⟩ := h
      rfl
  | cons c cs ih =>
      by_cases hp : s <+: c :: cs
      · obtain ⟨t, ht⟩ := hp
        rw [splitAt?, if_pos (by simp [← ht])] at h
        obtain ⟨rfl, rfl⟩ := Prod.mk.inj (Option.some.inj h)
        simp [← ht]
      · rw [splitAt?_cons hp, Option.map_eq_some_iff] at h
        obtain ⟨⟨b, a⟩, hs, hb⟩ := h
        obtain ⟨rfl, rfl⟩ := Prod.mk.inj hb
        rw [ih hs]
        rfl

/-- A text stands behind `before` and in front of `after`, and nowhere earlier. -/
structure FirstIn (s cs before after : List Char) : Prop where
  eq : cs = before ++ (s ++ after)
  first : ∀ x y, cs = x ++ (s ++ y) → before.length ≤ x.length

/-- A text that does not overlap itself stands first where it is not in what stands before. -/
theorem firstIn_iff {s cs before after : List Char} {d : Char} (hd : s.head? = some d)
    (htail : d ∉ s.tail) :
    FirstIn s cs before after ↔ cs = before ++ (s ++ after) ∧ ¬ s <:+: before := by
  obtain ⟨w, rfl⟩ := List.head?_eq_some_iff.mp hd
  constructor
  · rintro ⟨rfl, first⟩
    refine ⟨rfl, ?_⟩
    rintro ⟨x, y, rfl⟩
    have hlength := first x (y ++ (d :: w ++ after)) (by simp)
    simp only [List.length_append, List.length_cons] at hlength
    omega
  · rintro ⟨rfl, hbefore⟩
    refine ⟨rfl, fun x y heq => ?_⟩
    obtain ⟨z, rfl, -⟩ | ⟨z, rfl, hz⟩ := List.append_eq_append_iff.mp heq
    · simp
    · -- An earlier place would be inside of what stands before, or overlap the first one.
      obtain ⟨u, rfl, -⟩ | ⟨u, hu, hnext⟩ := List.append_eq_append_iff.mp hz
      · exact absurd ⟨x, u, by simp⟩ hbefore
      · cases z with
        | nil => simp
        | cons c z =>
            cases u with
            | nil => exact absurd ⟨x, [], by simp [hu]⟩ hbefore
            | cons b u =>
                obtain rfl : d = b := (List.cons.inj hnext).1
                obtain ⟨-, rfl⟩ := List.cons.inj hu
                exact absurd (List.mem_append_right z List.mem_cons_self) htail

theorem splitAt?_eq_none_iff {s cs : List Char} : splitAt? s cs = none ↔ ¬ s <:+: cs := by
  induction cs with
  | nil => simp [splitAt?]
  | cons c cs ih =>
      by_cases hp : s <+: c :: cs
      · simp [splitAt?, hp, hp.isInfix]
      · rw [splitAt?_cons hp, Option.map_eq_none_iff, ih, List.infix_cons_iff]
        simp [hp]

private theorem first_of_splitAt? {s cs before after : List Char}
    (h : splitAt? s cs = some (before, after)) (x y : List Char) (hcs : cs = x ++ (s ++ y)) :
    before.length ≤ x.length := by
  induction cs generalizing before x with
  | nil =>
      have hbefore := append_of_splitAt? h
      simp [(List.append_eq_nil_iff.mp hbefore.symm).1]
  | cons c cs ih =>
      by_cases hp : s <+: c :: cs
      · rw [splitAt?, if_pos (by simpa using hp)] at h
        obtain ⟨rfl, -⟩ := Prod.mk.inj (Option.some.inj h)
        exact Nat.zero_le _
      · rw [splitAt?_cons hp, Option.map_eq_some_iff] at h
        obtain ⟨⟨b, a⟩, hs, heq⟩ := h
        obtain ⟨rfl, rfl⟩ := Prod.mk.inj heq
        cases x with
        | nil => exact absurd ⟨y, hcs.symm⟩ hp
        | cons d x => exact Nat.succ_le_succ (ih hs x (List.cons.inj hcs).2)

/-- Splitting is at the first place of what it looks for. -/
theorem splitAt?_eq_some_iff {s cs before after : List Char} :
    splitAt? s cs = some (before, after) ↔ FirstIn s cs before after := by
  refine ⟨fun h => ⟨append_of_splitAt? h, first_of_splitAt? h⟩, fun h => ?_⟩
  cases hs : splitAt? s cs with
  | none => exact absurd ⟨before, after, by simp [h.eq]⟩ (splitAt?_eq_none_iff.mp hs)
  | some pair =>
      obtain ⟨b, a⟩ := pair
      have hcs := append_of_splitAt? hs
      have hlength : b.length = before.length :=
        Nat.le_antisymm (first_of_splitAt? hs before after h.eq) (h.first b a hcs)
      obtain ⟨rfl, hrest⟩ := List.append_inj (hcs.symm.trans h.eq) hlength
      rw [List.append_cancel_left hrest]

theorem splitAt?_singleton {d : Char} {cs before after : List Char} :
    splitAt? [d] cs = some (before, after) ↔ cs = before ++ d :: after ∧ d ∉ before := by
  rw [splitAt?_eq_some_iff, firstIn_iff rfl List.not_mem_nil, List.singleton_infix_iff]
  rfl

theorem splitAt?_singleton_eq_none {d : Char} {cs : List Char} :
    splitAt? [d] cs = none ↔ d ∉ cs :=
  splitAt?_eq_none_iff.trans (not_congr (List.singleton_infix_iff d cs))

end Bellman.Pattern
