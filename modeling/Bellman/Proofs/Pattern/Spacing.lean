import Bellman.Proofs.Pattern.Instances
import Bellman.Proofs.Text.Trimming

/-!
# Patterns and spacing

A pattern whose texts have no blanks in them is read in a text exactly where it is read in the
collapsed text, and what it covers and what follows are the same up to spacing. So a text may
be given normal spacing before it is rewritten or only afterwards, and rewriting can follow
rewriting: `normalize_rewrite_normalize`.
-/

namespace Bellman.Pattern

open Text

variable {p q : Pattern} {f : List Char → List Char} {m rest cs : List Char}

/-- The texts of a pattern have no blanks in them. -/
def Compact : Pattern → Prop
  | .text s | .optional s => s.all (!isBlank ·) = true
  | .blanks | .wordEnd => True
  | .andThen p q | .orElse p q => p.Compact ∧ q.Compact

instance Compact.decidable : (p : Pattern) → Decidable p.Compact
  | .text s | .optional s => inferInstanceAs (Decidable (s.all (!isBlank ·) = true))
  | .blanks | .wordEnd => .isTrue trivial
  | .andThen p q | .orElse p q =>
      have := Compact.decidable p
      have := Compact.decidable q
      inferInstanceAs (Decidable (p.Compact ∧ q.Compact))

/-- Every instance ends with a character that is not blank. -/
def Tight (p : Pattern) : Prop :=
  ∀ m rest, p.Matches m rest → ∃ cs c, m = cs ++ [c] ∧ isBlank c = false

theorem tight_exactly {s : String} (h : s.toList.getLast?.any (!isBlank ·) = true) :
    (exactly s).Tight := by
  rintro m rest rfl
  obtain hs | ⟨cs, c, hs⟩ := List.eq_nil_or_concat' s.toList
  · rw [hs] at h
    cases h
  · rw [hs] at h
    exact ⟨cs, c, hs, by simpa using h⟩

theorem Tight.andThen (hq : q.Tight) : (p.andThen q).Tight := by
  rintro m rest ⟨a, b, rfl, -, hb⟩
  obtain ⟨cs, c, rfl, hc⟩ := hq b rest hb
  exact ⟨a ++ cs, c, by simp, hc⟩

theorem Tight.orElse (hp : p.Tight) (hq : q.Tight) : (p.orElse q).Tight := by
  rintro m rest (h | h)
  · exact hp m rest h
  · exact hq m rest h

theorem Tight.spaced {ps : List Pattern} (hlast : ps.getLast? = some p) (hp : p.Tight) :
    (spaced ps).Tight := by
  induction ps with
  | nil => cases hlast
  | cons q ps ih =>
      cases ps with
      | nil =>
          obtain rfl : q = p := Option.some.inj hlast
          exact hp
      | cons r ps => exact (ih hlast).andThen.andThen

theorem Tight.last (tight : p.Tight) (h : p.Matches m rest) : m.getLast?.any isBlank = false := by
  obtain ⟨cs, c, rfl, hc⟩ := tight m rest h
  simp [hc]

theorem isPrefixOf_collapse {w : List Char} (hw : ∀ c ∈ w, isBlank c = false) :
    w.isPrefixOf (collapse cs) = w.isPrefixOf cs := by
  rw [Bool.eq_iff_iff, List.isPrefixOf_iff_prefix, List.isPrefixOf_iff_prefix]
  refine ⟨prefix_of_collapse hw, ?_⟩
  rintro ⟨t, rfl⟩
  rw [collapse_append_of_visible hw]
  exact List.prefix_append w _

theorem drop_collapse {w : List Char} (hw : ∀ c ∈ w, isBlank c = false)
    (h : w.isPrefixOf cs = true) :
    (collapse cs).drop w.length = collapse (cs.drop w.length) := by
  obtain ⟨t, rfl⟩ := List.isPrefixOf_iff_prefix.mp h
  rw [collapse_append_of_visible hw, List.drop_left, List.drop_left]

/-- In a collapsed text a pattern is read where it is read in the text, and what follows is
the collapsed rest. -/
theorem Compact.rest_collapse (compact : p.Compact) (cs : List Char) :
    (p.read? (collapse cs)).map Prod.snd = (p.read? cs).map fun r => collapse r.2 := by
  induction p generalizing cs with
  | text s =>
      have hs : ∀ c ∈ s, isBlank c = false := by simpa [Compact] using compact
      rw [read?, read?, isPrefixOf_collapse hs]
      by_cases hp : s.isPrefixOf cs = true
      · simp [hp, drop_collapse hs hp]
      · simp [hp]
  | blanks =>
      rw [read?, read?]
      exact congrArg some (collapse_trimLeft cs).symm
  | optional s =>
      have hs : ∀ c ∈ s, isBlank c = false := by simpa [Compact] using compact
      rw [read?, read?, isPrefixOf_collapse hs]
      by_cases hp : s.isPrefixOf cs = true
      · simp [hp, drop_collapse hs hp]
      · simp [hp]
  | wordEnd =>
      rw [read?, read?, head?_collapse_isWordChar]
      split <;> rfl
  | andThen p q ihp ihq =>
      have hp := ihp compact.1 cs
      rw [read?, read?]
      cases hread : p.read? cs with
      | none =>
          rw [hread] at hp
          rw [Option.map_eq_none_iff.mp hp]
          rfl
      | some r =>
          obtain ⟨a, cs'⟩ := r
          rw [hread] at hp
          obtain ⟨⟨a', cs''⟩, hread', hcs''⟩ := Option.map_eq_some_iff.mp hp
          obtain rfl : cs'' = collapse cs' := hcs''
          have hq := ihq compact.2 cs'
          cases hnext : q.read? cs' with
          | none =>
              rw [hnext] at hq
              have hnext' := Option.map_eq_none_iff.mp hq
              simp [hread', hnext, hnext']
          | some r =>
              rw [hnext] at hq
              obtain ⟨r', hnext', hrest⟩ := Option.map_eq_some_iff.mp hq
              simp [hread', hnext, hnext', hrest]
  | orElse p q ihp ihq =>
      have hp := ihp compact.1 cs
      rw [read?, read?]
      cases hread : p.read? cs with
      | none =>
          rw [hread] at hp
          rw [Option.map_eq_none_iff.mp hp]
          exact ihq compact.2 cs
      | some r =>
          rw [hread] at hp
          obtain ⟨r', hread', hrest⟩ := Option.map_eq_some_iff.mp hp
          rw [hread']
          exact congrArg some hrest

/-- In a collapsed text a pattern covers what it covers in the text, collapsed. -/
theorem Compact.read?_collapse (compact : p.Compact) (tight : p.Tight) (cs : List Char) :
    p.read? (collapse cs) = (p.read? cs).map fun r => (collapse r.1, collapse r.2) := by
  have hrest := compact.rest_collapse cs
  cases hread : p.read? cs with
  | none =>
      rw [hread] at hrest
      exact Option.map_eq_none_iff.mp hrest
  | some r =>
      obtain ⟨m, rest⟩ := r
      rw [hread] at hrest
      obtain ⟨⟨m', rest'⟩, hread', rfl⟩ := Option.map_eq_some_iff.mp hrest
      have hcs := append_of_read? hread
      have hcollapse : collapse m ++ collapse rest = m' ++ collapse rest := by
        rw [← append_of_read? hread', hcs,
          collapse_append_of_last (tight.last (matches_of_read? hread))]
      rw [hread', ← List.append_cancel_right hcollapse]
      rfl

/-- In a collapsed text a pattern occurs if it occurs in the text. -/
theorem Compact.occursIn_collapse (compact : p.Compact) (cs : List Char) :
    p.occursIn (collapse cs) = p.occursIn cs := by
  have hsome (cs : List Char) : (p.read? (collapse cs)).isSome = (p.read? cs).isSome := by
    rw [← Option.isSome_map, compact.rest_collapse, Option.isSome_map]
  induction cs with
  | nil => rfl
  | cons c cs ih =>
      have hstart := hsome (c :: cs)
      rw [occursIn, ← hstart]
      obtain heq | ⟨d, heq⟩ := collapse_cons_cases c cs
      · rw [heq, ← ih]
        cases collapse cs with
        | nil => simp [occursIn]
        | cons d ds => simp [occursIn]
      · rw [heq, occursIn, ih]

/-- A pattern that is read in the same way whatever the spacing. -/
structure Regular (p : Pattern) : Prop where
  solid : p.Solid
  tight : p.Tight
  compact : p.Compact
  determined : p.Determined

theorem Regular.read?_append_blank (regular : p.Regular) (cs : List Char) {b : List Char}
    (hb : ∀ c ∈ b, isBlank c = true) :
    p.read? (cs ++ b) = (p.read? cs).map fun r => (r.1, r.2 ++ b) := by
  have hword := head?_isWordChar_of_blank hb
  cases hread : p.read? cs with
  | some r =>
      obtain ⟨m, rest⟩ := r
      have hm : p.Matches m (rest ++ b) := by
        refine (matches_of_read? hread).of_rest fun hrest => ?_
        cases rest with
        | nil => exact hword
        | cons c rest => exact hrest
      have hlong := regular.determined m (rest ++ b) hm
      rw [append_of_read? hread, List.append_assoc, hlong]
      rfl
  | none =>
      refine Option.eq_none_iff_forall_ne_some.mpr ?_
      rintro ⟨m, rest⟩ hlong
      have hm := matches_of_read? hlong
      obtain ⟨ds, d, rfl, hd⟩ := regular.tight m rest hm
      -- The last character of what is read is visible, so it stands in the text.
      obtain ⟨tail, rfl, rfl⟩ :=
        exists_append_of_append_blank hb (by simp [hd]) (append_of_read? hlong)
      have hshort : p.Matches (ds ++ [d]) tail := by
        refine hm.of_rest fun hrest => ?_
        cases tail with
        | nil => rfl
        | cons c tail => exact hrest
      rw [regular.determined _ _ hshort] at hread
      cases hread

theorem Regular.rewrite_append_blank (regular : p.Regular) (f : List Char → List Char)
    (cs : List Char) {b : List Char} (hb : ∀ c ∈ b, isBlank c = true) :
    p.rewrite f (cs ++ b) = p.rewrite f cs ++ b := by
  induction cs using regular.solid.scan with
  | nil => simpa using regular.solid.rewrite_append_of_avoids (avoids_blank hb) f []
  | found m rest hm _ hread ih =>
      have hlong : p.read? (m ++ (rest ++ b)) = some (m, rest ++ b) := by
        rw [← List.append_assoc, regular.read?_append_blank _ hb, hread]
        rfl
      rw [List.append_assoc, rewrite_append hm hlong, rewrite_append hm hread, ih,
        List.append_assoc]
  | kept c cs hread ih =>
      have hlong : p.read? (c :: (cs ++ b)) = none := by
        rw [← List.cons_append, regular.read?_append_blank _ hb, hread]
        rfl
      rw [List.cons_append, rewrite_cons hlong, rewrite_cons hread, ih, List.cons_append]

theorem Regular.occursIn_append_blank (regular : p.Regular) (cs : List Char) {b : List Char}
    (hb : ∀ c ∈ b, isBlank c = true) : p.occursIn (cs ++ b) = p.occursIn cs := by
  have hsome (cs : List Char) : (p.read? (cs ++ b)).isSome = (p.read? cs).isSome := by
    rw [regular.read?_append_blank cs hb, Option.isSome_map]
  induction cs with
  | nil => simpa using regular.solid.occursIn_append_of_avoids (avoids_blank hb) []
  | cons c cs ih =>
      have hstart := hsome (c :: cs)
      rw [List.cons_append] at hstart ⊢
      rw [occursIn, occursIn, hstart, ih]

/-- A pattern occurs in a text with normal spacing if it occurs in the text. -/
theorem Regular.occursIn_normalize (regular : p.Regular) (cs : List Char) :
    p.occursIn (normalize cs) = p.occursIn cs := by
  obtain ⟨a, b, hcs, ha, hb⟩ := exists_eq_trim (collapse cs)
  have haround : p.occursIn (a ++ (normalize cs ++ b)) = p.occursIn (normalize cs) := by
    rw [regular.solid.occursIn_append_of_avoids (avoids_blank ha),
      regular.occursIn_append_blank _ hb]
  rw [← haround, Text.normalize, ← hcs, regular.compact.occursIn_collapse]

/-- What is written for an instance does not depend on its spacing and ends with a visible
character. -/
structure Settled (p : Pattern) (f : List Char → List Char) : Prop where
  respaced : ∀ m rest, p.Matches m rest → f (collapse m) = f m
  last : ∀ m, (f m).getLast?.any isBlank = false

/-- Rewriting the collapsed text or the text itself makes no difference up to spacing. -/
theorem Regular.collapse_rewrite_collapse (regular : p.Regular) (settled : p.Settled f)
    (cs : List Char) : collapse (p.rewrite f (collapse cs)) = collapse (p.rewrite f cs) := by
  have keeps_blank {c : Char} (hc : isBlank c = true) (cs : List Char) :
      p.rewrite f (c :: cs) = c :: p.rewrite f cs :=
    regular.solid.rewrite_append_of_avoids (avoids_blank (t := [c]) (by simpa using hc)) f cs
  induction cs using regular.solid.scan with
  | nil => rfl
  | found m rest hm hmatches hread ih =>
      have hcollapse : collapse (m ++ rest) = collapse m ++ collapse rest :=
        collapse_append_of_last (regular.tight.last hmatches)
      have hread' := regular.compact.read?_collapse regular.tight (m ++ rest)
      rw [hread, hcollapse] at hread'
      have hm' : collapse m ≠ [] := (regular.solid.of_read? hread').1
      rw [hcollapse, rewrite_append hm' hread', rewrite_append hm hread,
        settled.respaced m rest hmatches, collapse_append_of_last (settled.last m),
        collapse_append_of_last (settled.last m), ih]
  | kept c cs hread ih =>
      rw [rewrite_cons hread]
      by_cases hc : isBlank c = true
      · have hspace (x : List Char) : collapse (' ' :: x) = collapse (c :: x) := by
          rw [collapse, collapse, if_pos hc, if_pos isBlank_space]
        rw [collapse, if_pos hc]
        split
        · -- Another blank follows, and it is kept too.
          next hnext =>
            have hnext' : (p.rewrite f cs).head?.any isBlank = true := by
              cases cs with
              | nil => cases hnext
              | cons d cs =>
                  have hd : isBlank d = true := by simpa using hnext
                  simp [keeps_blank hd, hd]
            rw [collapse, if_pos hc, if_pos hnext', ih]
        · rw [keeps_blank isBlank_space, ← hspace]
          exact collapse_cons_congr ' ' ih
      · have hkept : collapse (c :: cs) = c :: collapse cs := by rw [collapse, if_neg hc]
        have hread' := regular.compact.read?_collapse regular.tight (c :: cs)
        rw [hread, hkept] at hread'
        rw [hkept, rewrite_cons hread']
        exact collapse_cons_congr c ih

/-- A text may be given normal spacing before it is rewritten. -/
theorem Regular.normalize_rewrite_normalize (regular : p.Regular) (settled : p.Settled f)
    (cs : List Char) : normalize (p.rewrite f (normalize cs)) = normalize (p.rewrite f cs) := by
  obtain ⟨a, b, hcs, ha, hb⟩ := exists_eq_trim (collapse cs)
  have haround : p.rewrite f (collapse cs) = a ++ (p.rewrite f (normalize cs) ++ b) := by
    conv_lhs => rw [hcs]
    rw [regular.solid.rewrite_append_of_avoids (avoids_blank ha),
      regular.rewrite_append_blank _ _ hb, Text.normalize]
  calc normalize (p.rewrite f (normalize cs))
      = normalize (a ++ (p.rewrite f (normalize cs) ++ b)) :=
        (normalize_append_of_blank ha _ hb).symm
    _ = normalize (p.rewrite f (collapse cs)) := by rw [haround]
    _ = normalize (p.rewrite f cs) :=
        normalize_congr (regular.collapse_rewrite_collapse settled cs)

end Bellman.Pattern
