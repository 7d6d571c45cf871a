import Bellman.Pattern
import Bellman.Proofs.Text.Spacing

/-!
# Reading misses no instance

What is read is an instance of the pattern. The converse holds of patterns in which no
choice that reading makes can be wrong: a run of blanks is followed by something that does
not begin with a blank, and of two alternatives the first cannot be read where the second
stands. Then a pattern occurs in a text exactly where the text has an instance of it.
-/

namespace Bellman.Pattern

open Text

variable {p q : Pattern} {m rest cs : List Char}

/-- Every instance begins with a character that is not blank. -/
def Solid (p : Pattern) : Prop :=
  ∀ m rest, p.Matches m rest → ∃ c cs, m = c :: cs ∧ isBlank c = false

/-- Every instance is read where it stands. -/
def Determined (p : Pattern) : Prop :=
  ∀ m rest, p.Matches m rest → p.read? (m ++ rest) = some (m, rest)

theorem solid_exactly {s : String} (h : s.toList.head?.any (!isBlank ·) = true) :
    (exactly s).Solid := by
  rintro m rest rfl
  cases hs : s.toList with
  | nil =>
      rw [hs] at h
      cases h
  | cons c cs =>
      rw [hs] at h
      exact ⟨c, cs, rfl, by simpa using h⟩

theorem determined_exactly (s : String) : (exactly s).Determined := by
  rintro m rest rfl
  simp [exactly, read?]

theorem determined_wordEnd : Pattern.wordEnd.Determined := by
  rintro m rest ⟨rfl, hrest⟩
  simp [read?, hrest]

theorem Solid.andThen (h : p.Solid) : (p.andThen q).Solid := by
  rintro m rest ⟨a, b, rfl, ha, -⟩
  obtain ⟨c, cs, rfl, hc⟩ := h a (b ++ rest) ha
  exact ⟨c, cs ++ b, rfl, hc⟩

theorem Solid.orElse (hp : p.Solid) (hq : q.Solid) : (p.orElse q).Solid := by
  rintro m rest (h | h)
  · exact hp m rest h
  · exact hq m rest h

theorem read?_andThen {a b cs' : List Char} (hp : p.read? cs = some (a, cs'))
    (hq : q.read? cs' = some (b, rest)) : (p.andThen q).read? cs = some (a ++ b, rest) := by
  simp [read?, hp, hq]

theorem exists_of_read?_andThen (h : (p.andThen q).read? cs = some (m, rest)) :
    ∃ a cs' b, p.read? cs = some (a, cs') ∧ q.read? cs' = some (b, rest) ∧ m = a ++ b := by
  rw [read?] at h
  split at h
  next => cases h
  next a cs' hp =>
    split at h
    next => cases h
    next b rest' hq =>
      obtain ⟨rfl, rfl⟩ := Prod.mk.inj (Option.some.inj h)
      exact ⟨a, cs', b, hp, hq, rfl⟩

theorem Determined.andThen (hp : p.Determined) (hq : q.Determined) :
    (p.andThen q).Determined := by
  rintro m rest ⟨a, b, rfl, ha, hb⟩
  rw [List.append_assoc]
  exact read?_andThen (hp a (b ++ rest) ha) (hq b rest hb)

/-- A run of blanks ends where a visible character comes next. -/
theorem read?_blanks {a : List Char} (ha : ∀ c ∈ a, isBlank c = true)
    (hcs : cs.head?.any isBlank = false) : Pattern.blanks.read? (a ++ cs) = some (a, cs) := by
  rw [read?, List.takeWhile_append_of_pos ha, List.dropWhile_append_of_pos ha]
  cases cs with
  | nil => simp
  | cons c cs =>
      have hc : isBlank c = false := by simpa using hcs
      simp [hc]

theorem Solid.head?_append (solid : p.Solid) (h : p.Matches m rest) :
    (m ++ rest).head?.any isBlank = false := by
  obtain ⟨c, cs, rfl, hc⟩ := solid m rest h
  simp [hc]

/-- A run of blanks ends where the next part begins. -/
theorem Determined.afterBlanks (hq : q.Determined) (solid : q.Solid) :
    (Pattern.blanks.andThen q).Determined := by
  rintro m rest ⟨a, b, rfl, ha, hb⟩
  rw [List.append_assoc]
  exact read?_andThen (read?_blanks ha (solid.head?_append hb)) (hq b rest hb)

/-- Optional text is read where it stands, if nothing that can come next begins with it. -/
theorem Determined.afterOptional {s : List Char} (hq : q.Determined) (solid : q.Solid)
    (hs : s.head?.any (!isBlank ·) = true)
    (apart : ∀ m rest, q.Matches m rest → ¬ s <+: m ++ rest) :
    (Pattern.blanks.andThen
      ((Pattern.optional s).andThen (Pattern.blanks.andThen q))).Determined := by
  have determined := hq.afterBlanks solid
  rintro m rest ⟨a, b, rfl, ha, c, d, rfl, hc, hd⟩
  obtain rfl | rfl := hc
  · have hhead : (c ++ (d ++ rest)).head?.any isBlank = false := by
      cases c with
      | nil => cases hs
      | cons x c => simpa using hs
    have hoptional : (Pattern.optional c).read? (c ++ (d ++ rest)) = some (c, d ++ rest) := by
      simp [read?]
    rw [List.append_assoc, List.append_assoc]
    exact read?_andThen (read?_blanks ha hhead) (read?_andThen hoptional (determined d rest hd))
  · -- The blanks before and behind the missing text are read in one run.
    obtain ⟨e, f, rfl, he, hf⟩ := hd
    have hblank : ∀ x ∈ a ++ e, isBlank x = true := by
      intro x hx
      obtain hx | hx := List.mem_append.mp hx
      · exact ha x hx
      · exact he x hx
    have hoptional : (Pattern.optional s).read? (f ++ rest) = some ([], f ++ rest) := by
      simp [read?, apart f rest hf]
    have hlast := determined f rest ⟨[], f, rfl, by simp [Matches], hf⟩
    have hread := read?_andThen (read?_blanks hblank (solid.head?_append hf))
      (read?_andThen hoptional hlast)
    simpa using hread

/-- Alternatives do not get in each other's way if the first cannot be read where the
second stands. -/
theorem Determined.orElse (hp : p.Determined) (hq : q.Determined)
    (apart : ∀ m rest, q.Matches m rest → p.read? (m ++ rest) = none) :
    (p.orElse q).Determined := by
  rintro m rest (h | h)
  · simp [read?, hp m rest h]
  · simp [read?, apart m rest h, hq m rest h]

theorem Solid.spaced {ps : List Pattern} (h : p.Solid) : (spaced (p :: ps)).Solid := by
  cases ps with
  | nil => exact h
  | cons q ps => exact h.andThen

theorem Determined.spaced {ps : List Pattern} (hp : p.Determined)
    (h : ∀ q ∈ ps, q.Determined ∧ q.Solid) : (spaced (p :: ps)).Determined := by
  induction ps generalizing p with
  | nil => exact hp
  | cons q ps ih =>
      obtain ⟨hq, solid⟩ := h q List.mem_cons_self
      have hrest : (spaced (q :: ps)).Determined :=
        ih hq fun r hr => h r (List.mem_cons_of_mem q hr)
      exact hp.andThen (hrest.afterBlanks solid.spaced)

/-- An instance of patterns with blanks between them holds an instance of each. -/
theorem exists_of_matches_spaced {ps : List Pattern} (h : (spaced ps).Matches m rest)
    (hp : p ∈ ps) : ∃ a x b, m = a ++ (x ++ b) ∧ p.Matches x (b ++ rest) := by
  induction ps generalizing m with
  | nil => cases hp
  | cons q ps ih =>
      cases ps with
      | nil =>
          obtain rfl : p = q := List.mem_singleton.mp hp
          exact ⟨[], m, [], by simp, h⟩
      | cons r ps =>
          obtain ⟨a, b, rfl, ha, c, d, rfl, hc, hd⟩ := h
          obtain rfl | hp := List.mem_cons.mp hp
          · exact ⟨[], a, c ++ d, rfl, ha⟩
          · obtain ⟨e, x, f, rfl, hx⟩ := ih hd hp
            exact ⟨a ++ (c ++ e), x, f, by simp, hx⟩

/-- An instance of patterns with blanks between them holds the texts among them. -/
theorem infix_of_matches_spaced {ps : List Pattern} {s : String}
    (h : (spaced ps).Matches m rest) (hs : exactly s ∈ ps) : s.toList <:+: m := by
  obtain ⟨a, x, b, rfl, rfl⟩ := exists_of_matches_spaced h hs
  exact ⟨a, b, by simp⟩

/-- All that matters of the text behind an instance is whether it goes on with a word
character. -/
theorem Matches.of_rest {rest' : List Char} (h : p.Matches m rest)
    (hrest : rest.head?.any isWordChar = false → rest'.head?.any isWordChar = false) :
    p.Matches m rest' := by
  induction p generalizing m rest rest' with
  | text s | blanks | optional s => exact h
  | wordEnd => exact ⟨h.1, hrest h.2⟩
  | andThen p q ihp ihq =>
      obtain ⟨a, b, rfl, ha, hb⟩ := h
      refine ⟨a, b, rfl, ihp ha ?_, ihq hb hrest⟩
      cases b with
      | nil => exact hrest
      | cons c b => exact id
  | orElse p q ihp ihq =>
      obtain h | h := h
      · exact .inl (ihp h hrest)
      · exact .inr (ihq h hrest)

/-- A pattern that does not ask what comes behind its instances. -/
def Contained : Pattern → Prop
  | .wordEnd => False
  | .andThen p q | .orElse p q => p.Contained ∧ q.Contained
  | _ => True

instance Contained.decidable : (p : Pattern) → Decidable p.Contained
  | .text _ | .blanks | .optional _ => .isTrue trivial
  | .wordEnd => .isFalse id
  | .andThen p q | .orElse p q =>
      have := Contained.decidable p
      have := Contained.decidable q
      inferInstanceAs (Decidable (p.Contained ∧ q.Contained))

theorem Contained.of_rest (contained : p.Contained) (h : p.Matches m rest)
    (rest' : List Char) : p.Matches m rest' := by
  induction p generalizing m rest rest' with
  | text s | blanks | optional s => exact h
  | wordEnd => exact absurd contained id
  | andThen p q ihp ihq =>
      obtain ⟨a, b, rfl, ha, hb⟩ := h
      exact ⟨a, b, rfl, ihp contained.1 ha (b ++ rest'), ihq contained.2 hb rest'⟩
  | orElse p q ihp ihq =>
      obtain h | h := h
      · exact .inl (ihp contained.1 h rest')
      · exact .inr (ihq contained.2 h rest')

theorem Contained.matches_iff (contained : p.Contained) (m rest rest' : List Char) :
    p.Matches m rest ↔ p.Matches m rest' :=
  ⟨fun h => contained.of_rest h rest', fun h => contained.of_rest h rest⟩

/-- A pattern occurs in a text where it can be read somewhere. -/
theorem occursIn_iff_read? :
    p.occursIn cs = true ↔ ∃ before after, cs = before ++ after ∧ (p.read? after).isSome := by
  induction cs with
  | nil => simp [occursIn]
  | cons c cs ih =>
      rw [occursIn, Bool.or_eq_true, ih]
      constructor
      · rintro (h | ⟨before, after, rfl, h⟩)
        · exact ⟨[], c :: cs, rfl, h⟩
        · exact ⟨c :: before, after, rfl, h⟩
      · rintro ⟨before, after, hcs, h⟩
        cases before with
        | nil =>
            left
            rwa [hcs]
        | cons d before =>
            right
            exact ⟨before, after, (List.cons.inj hcs).2, h⟩

theorem exists_matches_of_isSome (h : (p.read? cs).isSome) :
    ∃ m rest, cs = m ++ rest ∧ p.Matches m rest := by
  obtain ⟨⟨m, rest⟩, hread⟩ := Option.isSome_iff_exists.mp h
  exact ⟨m, rest, append_of_read? hread, matches_of_read? hread⟩

/-- Where a pattern occurs, the text has an instance of it. -/
theorem exists_matches_of_occursIn (h : p.occursIn cs = true) :
    ∃ before m after, cs = before ++ (m ++ after) ∧ p.Matches m after := by
  obtain ⟨before, tail, rfl, hread⟩ := occursIn_iff_read?.mp h
  obtain ⟨m, after, rfl, hm⟩ := exists_matches_of_isSome hread
  exact ⟨before, m, after, rfl, hm⟩

/-- An instance of a determined pattern is an occurrence. -/
theorem Determined.occursIn (h : p.Determined) (before : List Char) (hm : p.Matches m rest) :
    p.occursIn (before ++ (m ++ rest)) = true :=
  occursIn_iff_read?.mpr ⟨before, m ++ rest, rfl, by rw [h m rest hm]; rfl⟩

theorem exactly_occursIn {s : String} : (exactly s).occursIn cs = true ↔ s.toList <:+: cs := by
  constructor
  · intro h
    obtain ⟨before, m, after, rfl, rfl⟩ := exists_matches_of_occursIn h
    exact ⟨before, after, by simp⟩
  · rintro ⟨before, after, rfl⟩
    rw [List.append_assoc]
    exact (determined_exactly s).occursIn before rfl

theorem isInfix_trim (cs : List Char) : trim cs <:+: cs := by
  have hleft (ds : List Char) : trimLeft ds <:+ ds := List.dropWhile_suffix isBlank
  have hright (ds : List Char) : trimRight ds <+: ds := by
    have h := List.reverse_prefix.mpr (hleft ds.reverse)
    rwa [List.reverse_reverse] at h
  exact (hright (trimLeft cs)).isInfix.trans (hleft cs).isInfix

/-- Collapsing changes blanks only, so it begins with a text without blanks where the text
itself does. -/
theorem prefix_of_collapse {w : List Char} (hw : ∀ c ∈ w, isBlank c = false)
    (h : w <+: collapse cs) : w <+: cs := by
  induction cs generalizing w with
  | nil => exact h
  | cons c cs ih =>
      cases w with
      | nil => exact List.nil_prefix
      | cons d w =>
          have hd : isBlank d = false := hw d List.mem_cons_self
          rw [collapse] at h
          split at h
          · split at h
            next hnext =>
              -- A blank follows, and with it the rest would begin.
              obtain ⟨tail, rfl⟩ := ih hw h
              rw [List.cons_append, List.head?_cons, Option.any_some, hd] at hnext
              cases hnext
            next =>
              obtain rfl : d = ' ' := (List.cons_prefix_cons.mp h).1
              cases hd
          · obtain ⟨rfl, htail⟩ := List.cons_prefix_cons.mp h
            exact List.cons_prefix_cons.mpr
              ⟨rfl, ih (fun x hx => hw x (List.mem_cons_of_mem d hx)) htail⟩

theorem infix_of_collapse {w : List Char} (hw : ∀ c ∈ w, isBlank c = false)
    (h : w <:+: collapse cs) : w <:+: cs := by
  induction cs with
  | nil => exact h
  | cons c cs ih =>
      obtain heq | ⟨d, heq⟩ := collapse_cons_cases c cs
      · rw [heq] at h
        exact (ih h).trans (List.suffix_cons c cs).isInfix
      · rw [heq, List.infix_cons_iff] at h
        obtain hstart | hlater := h
        · rw [← heq] at hstart
          exact (prefix_of_collapse hw hstart).isInfix
        · exact (ih hlater).trans (List.suffix_cons c cs).isInfix

/-- A text without blanks that stands in a text with normal spacing stands there whatever
the spacing. -/
theorem infix_of_normalize {w : List Char} (hw : ∀ c ∈ w, isBlank c = false)
    (h : w <:+: normalize cs) : w <:+: cs :=
  infix_of_collapse hw (h.trans (isInfix_trim (collapse cs)))

end Bellman.Pattern
