import Bellman.Latex
import Bellman.Text.Blank
import Bellman.Text.WordChar
import Mathlib.Data.List.Basic

/-!
# The tokens of the notation of returns

Formulas about returns are written with a few fixed texts, the marks, and with free names
for scalars. A text spells a list of tokens when it holds their texts in order with nothing
but blanks and thin spaces in between.

No mark begins like another one, and no free name continues the command of a mark, so the
beginning of a text decides which token it is: `Token.eq_mark_of_start` says so for the
marks, and `Spells.unique` that a text spells one list of tokens at most.
-/

namespace Bellman.Notation

open Text

/-- The fixed texts of the notation. -/
inductive Mark where
  | reward
  | presentReturn
  | nextReturn
  | discount
  | plus
  | opening
  | bar
  | state
  | equals
  | closing
deriving DecidableEq, Repr

/-- How a mark is written. -/
def Mark.text : Mark → List Char
  | .reward => Latex.nextReward.toList
  | .presentReturn => Latex.presentReturn.toList
  | .nextReturn => Latex.nextReturn.toList
  | .discount => Latex.discount.toList
  | .plus => "+".toList
  | .opening => Latex.expectation.toList
  | .bar => Latex.bar.toList
  | .state => "S_t".toList
  | .equals => "=".toList
  | .closing => "]".toList

/-- The letters of a command that stands for a scalar. The commands of the bar and of the
discount factor are not free, and neither is one that goes on after their letters. -/
structure FreeCommand (letters : List Char) : Prop where
  ne_nil : letters ≠ []
  isAlpha : ∀ c ∈ letters, c.isAlpha = true
  not_bar : ¬ "mid".toList <+: letters
  not_discount : ¬ "gamma".toList <+: letters

/-- A free name for a scalar: a Latin letter or a command. -/
inductive Name where
  | letter (c : Char) (latin : c.isAlpha = true)
  | command (letters : List Char) (free : FreeCommand letters)

/-- How a name is written. -/
def Name.text : Name → List Char
  | .letter c _ => [c]
  | .command letters _ => '\\' :: letters

/-- The pieces that texts of the notation are made of. -/
inductive Token where
  | mark (m : Mark)
  | name (n : Name)

namespace Token

/-- How a token is written. -/
def text : Token → List Char
  | .mark m => m.text
  | .name n => n.text

/-- The tokens that end like a word of several characters. -/
def isWord : Token → Bool
  | .mark m => m ∈ [.presentReturn, .discount, .bar, .state]
  | .name (.command _ _) => true
  | .name (.letter _ _) => false

/-- A word ends only where no word character follows; other tokens end anywhere. -/
def EndsAt (t : Token) (rest : List Char) : Prop :=
  t.isWord = true → rest.head?.any isWordChar = false

end Token

/-- A text holds the texts of these tokens in order, with blanks and thin spaces around. -/
inductive Spells : List Token → List Char → Prop where
  | nil : Spells [] []
  | blank {ts : List Token} {c : Char} {cs : List Char} (blank : isBlank c = true)
      (rest : Spells ts cs) : Spells ts (c :: cs)
  | thin {ts : List Token} {cs : List Char} (rest : Spells ts cs) :
      Spells ts (Latex.thin.toList ++ cs)
  | token {ts : List Token} {cs : List Char} (t : Token) (ends : t.EndsAt cs)
      (rest : Spells ts cs) : Spells (t :: ts) (t.text ++ cs)

/-- The codes of the Latin letters. -/
private theorem code_of_isAlpha {c : Char} (h : c.isAlpha = true) :
    65 ≤ c.toNat ∧ c.toNat ≤ 90 ∨ 97 ≤ c.toNat ∧ c.toNat ≤ 122 := by
  change (decide (c.val ≥ 'A'.val ∧ c.val ≤ 'Z'.val) ||
    (decide (c.val ≥ 'a'.val) && decide (c.val ≤ 'z'.val))) = true at h
  simp only [Bool.or_eq_true, Bool.and_eq_true, decide_eq_true_eq, ge_iff_le,
    UInt32.le_iff_toNat_le] at h
  exact h

/-- A Latin letter is no other character. -/
theorem ne_of_isAlpha {c d : Char} (h : c.isAlpha = true) (hd : d.isAlpha = false) : c ≠ d := by
  rintro rfl
  rw [h] at hd
  cases hd

/-- A Latin letter continues a word. -/
theorem isWordChar_of_isAlpha {c : Char} (h : c.isAlpha = true) : isWordChar c = true := by
  refine isWordChar_of_isAlphanum (by simp [Char.isAlphanum, h]) ?_
  have := code_of_isAlpha h
  omega

/-- A Latin letter is not blank. -/
theorem isBlank_of_isAlpha {c : Char} (h : c.isAlpha = true) : isBlank c = false := by
  by_contra hb
  have code : c.toNat ∈ blankCodes := by simpa [isBlank] using hb
  have letter := code_of_isAlpha h
  simp only [blankCodes, List.mem_cons, List.not_mem_nil, or_false] at code
  omega

/-- No mark begins like another one. -/
theorem Mark.eq_of_start {m m' : Mark} (h : m.text <+: m'.text) : m = m' := by
  revert h
  cases m <;> cases m' <;> decide

/-- A mark that begins with a Latin letter has a subscript. -/
theorem Mark.text_eq_cons (m : Mark) :
    ∃ c cs, m.text = c :: cs ∧ (isBlank c = false ∧ c ≠ '_' ∧ c ≠ '\x7b') ∧
      (c.isAlpha = true → cs.head? = some '_') := by
  cases m <;> exact ⟨_, _, rfl, by decide, by decide⟩

/-- The mark that opens an expectation is a command with braces. -/
theorem Mark.opening_text :
    opening.text = '\\' :: ("mathbb".toList ++ '\x7b' :: "E\x7d[".toList) :=
  rfl

/-- Letters at the start of a text belong to its first run of letters. -/
private theorem prefix_of_letters {xs letters rest : List Char}
    (hxs : ∀ c ∈ xs, c.isAlpha = true) (stop : ∀ c ∈ rest.head?, c.isAlpha = false)
    (h : xs <+: letters ++ rest) : xs <+: letters := by
  rcases List.prefix_or_prefix_of_prefix h (List.prefix_append letters rest) with hp | hp
  · exact hp
  · obtain ⟨ys, rfl⟩ := hp
    have hy : ys <+: rest := (List.prefix_append_right_inj letters).1 h
    cases ys with
    | nil => simp
    | cons y ys =>
        obtain ⟨zs, rfl⟩ := hy
        have := hxs y (by simp)
        simp [stop y (by simp)] at this

/-- The first run of letters of a text is the only one. -/
private theorem eq_of_letters {xs ys rest rest' : List Char}
    (hxs : ∀ c ∈ xs, c.isAlpha = true) (hys : ∀ c ∈ ys, c.isAlpha = true)
    (stop : ∀ c ∈ rest.head?, c.isAlpha = false) (stop' : ∀ c ∈ rest'.head?, c.isAlpha = false)
    (h : xs ++ rest = ys ++ rest') : xs = ys := by
  have hxy : xs <+: ys := prefix_of_letters hxs stop' (h ▸ List.prefix_append xs rest)
  have hyx : ys <+: xs := prefix_of_letters hys stop (h ▸ List.prefix_append ys rest')
  exact hxy.eq_of_length_le hyx.length_le

/-- What no token begins with: the low line and the opening brace. -/
def Clear (cs : List Char) : Prop :=
  cs.head? ≠ some '_' ∧ cs.head? ≠ some '\x7b'

namespace Token

theorem EndsAt.of_isWord_eq_false {t : Token} (h : t.isWord = false) (rest : List Char) :
    t.EndsAt rest := by
  intro word
  rw [h] at word
  cases word

theorem EndsAt.stop {letters : List Char} {free : FreeCommand letters} {rest : List Char}
    (ends : (name (.command letters free)).EndsAt rest) :
    ∀ c ∈ rest.head?, c.isAlpha = false := by
  intro c hc
  have word : isWordChar c = false := by
    have := ends rfl
    rw [Option.mem_def.1 hc] at this
    simpa using this
  by_contra h
  simp [isWordChar_of_isAlpha (by simpa using h)] at word

/-- No token begins with a blank, the low line or the opening brace. -/
theorem text_eq_cons (t : Token) :
    ∃ c cs, t.text = c :: cs ∧ isBlank c = false ∧ c ≠ '_' ∧ c ≠ '\x7b' := by
  rcases t with m | ⟨c, latin⟩ | ⟨letters, free⟩
  · obtain ⟨c, cs, h, hc, -⟩ := m.text_eq_cons
    exact ⟨c, cs, h, hc⟩
  · exact ⟨c, [], rfl, isBlank_of_isAlpha latin, ne_of_isAlpha latin (by decide),
      ne_of_isAlpha latin (by decide)⟩
  · exact ⟨'\\', letters, rfl, by decide, by decide, by decide⟩

/-- A text that begins with a token is clear. -/
theorem clear (t : Token) (rest : List Char) : Clear (t.text ++ rest) := by
  obtain ⟨c, cs, h, -, low, brace⟩ := t.text_eq_cons
  simp [Clear, h, low, brace]

/-- No token begins like a thin space. -/
theorem text_append_ne_thin (t : Token) (rest cs : List Char) :
    t.text ++ rest ≠ Latex.thin.toList ++ cs := by
  change t.text ++ rest ≠ '\\' :: ',' :: cs
  rcases t with m | ⟨c, latin⟩ | ⟨letters, free⟩
  · cases m <;> rintro ⟨⟩
  · intro h
    exact ne_of_isAlpha latin (by decide) (List.cons.inj h).1
  · intro h
    cases letters with
    | nil => exact free.ne_nil rfl
    | cons d ds =>
        have comma : d = ',' := (List.cons.inj (List.cons.inj h).2).1
        exact ne_of_isAlpha (free.isAlpha d List.mem_cons_self) (by decide) comma

/-- A mark that begins with a letter has a low line next, which a clear text has not. -/
private theorem not_start_letter {m : Mark} {c : Char} (latin : c.isAlpha = true)
    {rest : List Char} (clear : Clear rest) : ¬ m.text <+: c :: rest := by
  intro h
  obtain ⟨d, ds, hd, -, sub⟩ := m.text_eq_cons
  rw [hd, List.cons_prefix_cons] at h
  obtain ⟨rfl, hrest⟩ := h
  have low := sub latin
  cases ds with
  | nil => cases low
  | cons x xs =>
      obtain ⟨ys, rfl⟩ := hrest
      exact clear.1 low

/-- No mark begins a free command, since the letters that a mark has after a backslash are
the first letters of no free command, or a brace follows them. -/
private theorem not_start_command {m : Mark} {letters : List Char} (free : FreeCommand letters)
    {rest : List Char} (stop : ∀ c ∈ rest.head?, c.isAlpha = false) (clear : Clear rest) :
    ¬ m.text <+: '\\' :: (letters ++ rest) := by
  intro h
  have run : ∀ xs : List Char, xs.all Char.isAlpha = true → xs <+: letters ++ rest →
      xs <+: letters := fun xs hxs => prefix_of_letters (List.all_eq_true.1 hxs) stop
  cases m with
  | discount => exact free.not_discount (run _ (by decide) (List.cons_prefix_cons.1 h).2)
  | bar => exact free.not_bar (run _ (by decide) (List.cons_prefix_cons.1 h).2)
  | opening =>
      rw [Mark.opening_text, List.cons_prefix_cons] at h
      have hp := h.2
      obtain ⟨xs, rfl⟩ := run "mathbb".toList (by decide) ((List.prefix_append _ _).trans hp)
      rw [List.append_assoc, List.prefix_append_right_inj] at hp
      -- The brace is either the start of `rest` or one of the letters.
      cases xs with
      | nil =>
          obtain ⟨ys, rfl⟩ := hp
          exact clear.2 rfl
      | cons x xs =>
          have brace : x = '\x7b' := (List.cons_prefix_cons.1 hp).1.symm
          exact ne_of_isAlpha (free.isAlpha x (by simp)) (by decide) brace
  | _ => exact absurd (List.cons_prefix_cons.1 h).1 (by decide)

/-- A mark is recognised by its text alone, whatever the text goes on with. -/
theorem eq_mark_of_start {m : Mark} {t : Token} {rest : List Char} (ends : t.EndsAt rest)
    (clear : Clear rest) (h : m.text <+: t.text ++ rest) : t = .mark m := by
  rcases t with m' | ⟨c, latin⟩ | ⟨letters, free⟩
  · rcases List.prefix_or_prefix_of_prefix h (List.prefix_append m'.text rest) with hp | hp
    · rw [Mark.eq_of_start hp]
    · rw [Mark.eq_of_start hp]
  · exact absurd h (not_start_letter latin clear)
  · exact absurd h (not_start_command free ends.stop clear)

/-- The first token of a text is decided by the text. -/
theorem eq_of_append_eq {t u : Token} {rest rest' : List Char} (ends : t.EndsAt rest)
    (ends' : u.EndsAt rest') (clear : Clear rest) (clear' : Clear rest')
    (h : t.text ++ rest = u.text ++ rest') : t = u := by
  rcases t with m | n
  · exact (eq_mark_of_start ends' clear' (h ▸ List.prefix_append _ rest)).symm
  rcases u with m | n'
  · exact eq_mark_of_start ends clear (h ▸ List.prefix_append _ rest')
  cases n with
  | letter c latin =>
      cases n' with
      | letter c' latin' =>
          obtain rfl : c = c' := (List.cons.inj h).1
          rfl
      | command letters free =>
          exact absurd (List.cons.inj h).1 (ne_of_isAlpha latin (by decide))
  | command letters free =>
      cases n' with
      | letter c latin =>
          exact absurd (List.cons.inj h).1.symm (ne_of_isAlpha latin (by decide))
      | command letters' free' =>
          obtain rfl : letters = letters' :=
            eq_of_letters free.isAlpha free'.isAlpha ends.stop ends'.stop (List.cons.inj h).2
          rfl

end Token

namespace Spells

theorem clear {ts : List Token} {cs : List Char} (h : Spells ts cs) : Clear cs := by
  cases h with
  | nil => exact ⟨by decide, by decide⟩
  | @blank _ c cs hc rest =>
      refine ⟨?_, ?_⟩
      all_goals
        intro h
        obtain rfl : c = _ := Option.some.inj h
        exact absurd hc (by decide)
  | @thin _ cs rest =>
      change Clear ('\\' :: ',' :: cs)
      simp [Clear]
  | @token _ cs t ends rest => exact t.clear cs

/-- A blank in front changes nothing. -/
theorem of_blank {ts : List Token} {c : Char} {cs : List Char} (hc : isBlank c = true)
    (h : Spells ts (c :: cs)) : Spells ts cs := by
  generalize hd : c :: cs = ds at h
  cases h with
  | nil => cases hd
  | blank _ rest =>
      cases hd
      exact rest
  | thin rest =>
      obtain rfl : c = '\\' := (List.cons.inj hd).1
      exact absurd hc (by decide)
  | token t ends rest =>
      obtain ⟨d, ds', ht, hb, -⟩ := t.text_eq_cons
      rw [ht] at hd
      obtain rfl : c = d := (List.cons.inj hd).1
      simp [hb] at hc

/-- A thin space in front changes nothing. -/
theorem of_thin {ts : List Token} {cs : List Char}
    (h : Spells ts (Latex.thin.toList ++ cs)) : Spells ts cs := by
  change Spells ts ('\\' :: ',' :: cs) at h
  generalize hd : '\\' :: ',' :: cs = ds at h
  cases h with
  | nil => cases hd
  | blank hc rest =>
      obtain rfl := (List.cons.inj hd).1
      exact absurd hc (by decide)
  | thin rest =>
      obtain rfl := (List.append_right_inj Latex.thin.toList).1 hd
      exact rest
  | token t ends rest => exact absurd hd.symm (t.text_append_ne_thin _ _)

/-- The first token of a text is spelled by every list that the text spells. -/
theorem of_token {ts : List Token} {t : Token} {cs : List Char} (ends : t.EndsAt cs)
    (clear : Clear cs) (h : Spells ts (t.text ++ cs)) :
    ∃ us, ts = t :: us ∧ Spells us cs := by
  obtain ⟨d, ds', ht, hb, -⟩ := t.text_eq_cons
  generalize hd : t.text ++ cs = ds at h
  cases h with
  | nil => simp [ht] at hd
  | blank hc rest =>
      rw [ht] at hd
      obtain rfl := (List.cons.inj hd).1
      simp [hb] at hc
  | thin rest => exact absurd hd (t.text_append_ne_thin _ _)
  | @token us cs' u ends' rest =>
      obtain rfl : t = u := Token.eq_of_append_eq ends ends' clear rest.clear hd
      obtain rfl := List.append_cancel_left hd
      exact ⟨us, rfl, rest⟩

/-- A text that begins with a mark spells the mark first, whatever comes next. -/
theorem of_mark {ts : List Token} {m : Mark} {cs : List Char}
    (h : Spells ts (m.text ++ cs)) :
    ∃ us, ts = .mark m :: us ∧ Spells us cs ∧ (Token.mark m).EndsAt cs := by
  obtain ⟨d, ds', ht, ⟨hb, -⟩, -⟩ := m.text_eq_cons
  generalize hd : m.text ++ cs = ds at h
  cases h with
  | nil => simp [ht] at hd
  | blank hc rest =>
      rw [ht] at hd
      obtain rfl := (List.cons.inj hd).1
      simp [hb] at hc
  | thin rest => exact absurd hd ((Token.mark m).text_append_ne_thin _ _)
  | @token us cs' u ends rest =>
      obtain rfl : u = .mark m := Token.eq_mark_of_start ends rest.clear ⟨cs, hd⟩
      obtain rfl : cs = cs' := List.append_cancel_left hd
      exact ⟨us, rfl, rest, ends⟩

/-- A text spells one list of tokens at most. -/
theorem unique {ts us : List Token} {cs : List Char} (h : Spells ts cs) (h' : Spells us cs) :
    ts = us := by
  induction h generalizing us with
  | nil =>
      generalize hd : ([] : List Char) = ds at h'
      cases h' with
      | nil => rfl
      | blank hc rest => cases hd
      | thin rest => cases hd
      | token t ends rest =>
          obtain ⟨c, cs, ht, -⟩ := t.text_eq_cons
          simp [ht] at hd
  | blank hc rest ih => exact ih (h'.of_blank hc)
  | thin rest ih => exact ih h'.of_thin
  | token t ends rest ih =>
      obtain ⟨us', rfl, rest'⟩ := h'.of_token ends rest.clear
      rw [ih rest']

end Spells

end Bellman.Notation
