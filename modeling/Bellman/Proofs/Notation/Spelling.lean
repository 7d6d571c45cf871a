import Bellman.Proofs.Notation.Token
import Bellman.Proofs.Pattern.Occurrences
import Bellman.Proofs.Text.Spacing
import Mathlib.Data.List.Induction

/-!
# What can be done to a text without changing what it spells

Normal spacing, joining and cutting at a mark act on the texts of whole tokens: no token
holds a blank, and the first characters of the marks that are cut at stand nowhere inside
of a token.
-/

namespace Bellman.Notation

open Text Pattern

namespace Token

/-- No token holds a blank. -/
theorem isBlank_of_mem_text {t : Token} {c : Char} (h : c ∈ t.text) : isBlank c = false := by
  rcases t with m | ⟨d, latin⟩ | ⟨letters, free⟩
  · have all : m.text.all (!isBlank ·) = true := by cases m <;> decide
    simpa using List.all_eq_true.1 all c h
  · obtain rfl : c = d := List.mem_singleton.1 h
    exact isBlank_of_isAlpha latin
  · rcases List.mem_cons.1 h with rfl | hc
    · decide
    · exact isBlank_of_isAlpha (free.isAlpha c hc)

/-- A backslash and a closing bracket stand at the start of a token only. -/
theorem ne_of_mem_tail {t : Token} {c : Char} (h : c ∈ t.text.tail) : c ≠ '\\' ∧ c ≠ ']' := by
  rcases t with m | ⟨d, latin⟩ | ⟨letters, free⟩
  · have all : m.text.tail.all (fun c => c != '\\' && c != ']') = true := by
      cases m <;> decide
    simpa using List.all_eq_true.1 all c h
  · simp [text, Name.text] at h
  · have alpha := free.isAlpha c h
    exact ⟨ne_of_isAlpha alpha (by decide), ne_of_isAlpha alpha (by decide)⟩

/-- Whether a token can end depends on the next character only. -/
theorem EndsAt.of_head? {t : Token} {rest rest' : List Char} (ends : t.EndsAt rest)
    (h : ∀ c ∈ rest'.head?, isWordChar c = true → rest.head? = some c) : t.EndsAt rest' := by
  intro word
  have stop := ends word
  cases rest' with
  | nil => rfl
  | cons c cs =>
      by_contra next
      have hc : isWordChar c = true := by simpa using next
      simp [h c rfl hc, hc] at stop

end Token

private theorem isBlank_of_mem_thin {c : Char} (h : c ∈ Latex.thin.toList) :
    isBlank c = false := by
  have all : Latex.thin.toList.all (!isBlank ·) = true := by decide
  simpa using List.all_eq_true.1 all c h

theorem Token.EndsAt.collapse {t : Token} {cs : List Char} (ends : t.EndsAt cs) :
    t.EndsAt (collapse cs) := by
  refine ends.of_head? fun c hc word => ?_
  cases cs with
  | nil => cases hc
  | cons d cs =>
      rw [head?_collapse_cons] at hc
      split at hc
      · obtain rfl := Option.some.inj hc
        exact absurd word (by decide)
      · exact hc

namespace Spells

/-- Collapsing runs of blanks keeps what a text spells. -/
theorem collapse {ts : List Token} {cs : List Char} (h : Spells ts cs) :
    Spells ts (collapse cs) := by
  induction h with
  | nil => exact .nil
  | @blank ts c cs hc rest ih =>
      rw [Text.collapse, if_pos hc]
      split
      · exact ih
      · exact .blank (by decide) ih
  | @thin ts cs rest ih =>
      rw [collapse_append_of_visible fun c hc => isBlank_of_mem_thin hc]
      exact .thin ih
  | @token ts cs t ends rest ih =>
      rw [collapse_append_of_visible fun c hc => Token.isBlank_of_mem_text hc]
      exact .token t ends.collapse ih

theorem trimLeft {ts : List Token} {cs : List Char} (h : Spells ts cs) :
    Spells ts (trimLeft cs) := by
  induction cs with
  | nil => exact h
  | cons c cs ih =>
      rw [Text.trimLeft, List.dropWhile_cons]
      split
      · next hc => exact ih (h.of_blank hc)
      · exact h

/-- A blank at the end changes nothing. -/
theorem of_append_blank {ts : List Token} {cs : List Char} {b : Char} (hb : isBlank b = true)
    (h : Spells ts (cs ++ [b])) : Spells ts cs := by
  generalize hd : cs ++ [b] = ds at h
  -- The text of a thin space or of a token holds no blank, so the last one is in the rest.
  have cut : ∀ {xs rest cs : List Char}, (∀ c ∈ xs, isBlank c = false) → xs ≠ [] →
      cs ++ [b] = xs ++ rest → ∃ rest', rest = rest' ++ [b] ∧ cs = xs ++ rest' := by
    intro xs rest cs hx ne hcs
    rcases List.eq_nil_or_concat' rest with rfl | ⟨rest', d, rfl⟩
    · have mem : b ∈ xs := by
        rw [List.append_nil] at hcs
        simp [← hcs]
      simp [hx b mem] at hb
    · rw [← List.append_assoc] at hcs
      obtain ⟨rfl, hbd⟩ := List.append_inj' hcs rfl
      obtain rfl : b = d := (List.cons.inj hbd).1
      exact ⟨rest', rfl, rfl⟩
  induction h generalizing cs with
  | nil => simp at hd
  | @blank ts c rest hc h ih =>
      cases cs with
      | nil =>
          obtain ⟨rfl, rfl⟩ := List.cons.inj hd
          exact h
      | cons d cs =>
          obtain ⟨rfl, hrest⟩ := List.cons.inj hd
          exact .blank hc (ih hrest)
  | @thin ts rest h ih =>
      obtain ⟨rest', rfl, rfl⟩ := cut (fun c hc => isBlank_of_mem_thin hc) (by decide) hd
      exact .thin (ih rfl)
  | @token ts rest t ends h ih =>
      obtain ⟨c, xs, ht, -⟩ := t.text_eq_cons
      obtain ⟨rest', rfl, rfl⟩ :=
        cut (fun c hc => Token.isBlank_of_mem_text hc) (by simp [ht]) hd
      refine .token t (ends.of_head? fun c hc _ => ?_) (ih rfl)
      rw [List.head?_append, Option.mem_def.1 hc]
      rfl

theorem trimRight {ts : List Token} {cs : List Char} (h : Spells ts cs) :
    Spells ts (trimRight cs) := by
  induction cs using List.reverseRecOn with
  | nil => exact h
  | append_singleton cs c ih =>
      rw [Text.trimRight, List.reverse_append, List.reverse_singleton, List.singleton_append,
        Text.trimLeft, List.dropWhile_cons]
      split
      · next hc => exact ih (h.of_append_blank hc)
      · simpa using h

theorem trim {ts : List Token} {cs : List Char} (h : Spells ts cs) : Spells ts (trim cs) :=
  h.trimLeft.trimRight

/-- Normal spacing keeps what a text spells. -/
theorem normalize {ts : List Token} {cs : List Char} (h : Spells ts cs) :
    Spells ts (normalize cs) :=
  h.collapse.trim

/-- Texts that are joined spell what they spell apart, unless a word would go on. -/
theorem append {ts us : List Token} {cs ds : List Char} (h : Spells ts cs)
    (h' : Spells us ds) (stop : ds.head?.any isWordChar = false) :
    Spells (ts ++ us) (cs ++ ds) := by
  induction h with
  | nil => exact h'
  | blank hc rest ih => exact .blank hc ih
  | thin rest ih => exact .thin ih
  | @token ts cs t ends rest ih =>
      rw [List.append_assoc]
      refine .token t ?_ ih
      intro word
      cases cs with
      | nil => exact stop
      | cons c cs => exact ends word

end Spells

/-- The first character of a mark that texts can be cut at: it stands inside of no token
and of no thin space. -/
structure Mark.Cuts (m : Mark) (d : Char) : Prop where
  head : m.text.head? = some d
  ne_comma : d ≠ ','
  not_inside : ∀ t : Token, d ∉ t.text.tail

theorem Mark.cuts_opening : Mark.opening.Cuts '\\' :=
  ⟨rfl, by decide, fun _ mem => (Token.ne_of_mem_tail mem).1 rfl⟩

theorem Mark.cuts_bar : Mark.bar.Cuts '\\' :=
  ⟨rfl, by decide, fun _ mem => (Token.ne_of_mem_tail mem).1 rfl⟩

theorem Mark.cuts_closing : Mark.closing.Cuts ']' :=
  ⟨rfl, by decide, fun _ mem => (Token.ne_of_mem_tail mem).2 rfl⟩

/-- No mark begins with a blank. -/
theorem Mark.not_start_blank (m : Mark) {c : Char} (hc : isBlank c = true) (cs : List Char) :
    ¬ m.text <+: c :: cs := by
  rintro ⟨xs, hxs⟩
  obtain ⟨d, ds, ht, ⟨hd, -⟩, -⟩ := m.text_eq_cons
  rw [ht] at hxs
  obtain rfl : d = c := (List.cons.inj hxs).1
  simp [hc] at hd

/-- No mark begins with a thin space. -/
theorem Mark.not_start_thin (m : Mark) (cs : List Char) :
    ¬ m.text <+: Latex.thin.toList ++ cs := by
  rintro ⟨xs, hxs⟩
  exact (Token.mark m).text_append_ne_thin xs cs hxs

namespace Spells

/-- Cutting a text at the first occurrence of a mark cuts the tokens at the mark. -/
theorem of_splitAt? {m : Mark} {d : Char} (cuts : m.Cuts d) {ts : List Token}
    {cs before after : List Char} (h : Spells ts cs)
    (hs : splitAt? m.text cs = some (before, after)) :
    ∃ T U, ts = T ++ .mark m :: U ∧ .mark m ∉ T ∧ Spells T before ∧ Spells U after := by
  have ne : m.text ≠ [] := by
    obtain ⟨c, cs, ht, -⟩ := m.text_eq_cons
    simp [ht]
  induction h generalizing before with
  | nil => simp [splitAt?, ne] at hs
  | @blank ts c cs hc rest ih =>
      obtain ⟨b, rfl, cut⟩ :=
        of_splitAt?_append cuts.head (m.not_start_blank hc ([] ++ cs)) List.not_mem_nil hs
      obtain ⟨T, U, rfl, hT, hb, ha⟩ := ih cut
      exact ⟨T, U, rfl, hT, .blank hc hb, ha⟩
  | @thin ts cs rest ih =>
      have comma : d ∉ [','] := by simpa using cuts.ne_comma
      obtain ⟨b, rfl, cut⟩ := of_splitAt?_append cuts.head (m.not_start_thin cs) comma hs
      obtain ⟨T, U, rfl, hT, hb, ha⟩ := ih cut
      exact ⟨T, U, rfl, hT, .thin hb, ha⟩
  | @token ts cs t ends rest ih =>
      by_cases here : t = .mark m
      · subst here
        change Pattern.splitAt? m.text (m.text ++ cs) = _ at hs
        rw [splitAt?_self ne] at hs
        obtain ⟨rfl, rfl⟩ := Prod.mk.inj (Option.some.inj hs)
        exact ⟨[], ts, rfl, List.not_mem_nil, .nil, rest⟩
      · obtain ⟨c, xs, ht, -⟩ := t.text_eq_cons
        have start : ¬ m.text <+: t.text ++ cs :=
          fun hp => here (Token.eq_mark_of_start ends rest.clear hp)
        have inside := cuts.not_inside t
        rw [ht] at hs start inside
        obtain ⟨b, rfl, cut⟩ := of_splitAt?_append cuts.head start inside hs
        have hcs := append_of_splitAt? cut
        obtain ⟨T, U, rfl, hT, hb, ha⟩ := ih cut
        refine ⟨t :: T, U, rfl, ?_, ?_, ha⟩
        · rw [List.mem_cons, not_or]
          exact ⟨fun h => here h.symm, hT⟩
        · rw [← List.cons_append, ← ht]
          refine .token t (ends.of_head? fun e he _ => ?_) hb
          rw [hcs, List.head?_append, Option.mem_def.1 he]
          rfl

end Spells

end Bellman.Notation
