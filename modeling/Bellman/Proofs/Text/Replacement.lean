import Bellman.Proofs.Text.Spacing

/-!
# Replacing pieces of a text

One text comes from another by replacing pieces when it has the same characters but for some
pieces, each of which gave way to a replacement. Which pieces may give way to what is a
relation, and the number of them is counted.

Words that a replacement neither cuts nor completes are not made by replacing:
`Replaces.prefix_of` says so for the start of a text, and `Replaces.weight_add_le` for the
weighted number of words in it, which every replacement can be made to lower.
-/

namespace Bellman.Text

/-- The second text is the first one with `n` pieces replaced. -/
inductive Replaces (R : List Char → List Char → Prop) : Nat → List Char → List Char → Prop where
  | nil : Replaces R 0 [] []
  | keep (c : Char) {n : Nat} {s t : List Char} (rest : Replaces R n s t) :
      Replaces R n (c :: s) (c :: t)
  | piece {f g : List Char} {n : Nat} {s t : List Char} (replaced : R f g)
      (rest : Replaces R n s t) : Replaces R (n + 1) (f ++ s) (g ++ t)

namespace Replaces

variable {R Q : List Char → List Char → Prop} {n m : Nat} {s t s' t' w : List Char}

theorem refl (s : List Char) : Replaces R 0 s s := by
  induction s with
  | nil => exact .nil
  | cons c s ih => exact .keep c ih

theorem append (h : Replaces R n s t) (h' : Replaces R m s' t') :
    Replaces R (n + m) (s ++ s') (t ++ t') := by
  induction h with
  | nil => simpa using h'
  | keep c rest ih => exact .keep c ih
  | @piece f g n s t replaced rest ih =>
      rw [List.append_assoc, List.append_assoc, Nat.add_right_comm]
      exact .piece replaced ih

/-- Pieces that give way to themselves change nothing. -/
theorem eq_of_same (h : Replaces R n s t) (hR : ∀ f g, R f g → g = f) : t = s := by
  induction h with
  | nil => rfl
  | keep c rest ih => rw [ih]
  | piece replaced rest ih => rw [ih, hR _ _ replaced]

/-- One piece is replaced. -/
theorem single {f g : List Char} (replaced : R f g) (a b : List Char) :
    Replaces R 1 (a ++ (f ++ b)) (a ++ (g ++ b)) := by
  have h := (refl a).append (.piece replaced (refl b))
  simpa using h

/-- Replacing acts on the visible characters. -/
theorem visible (h : Replaces R n s t)
    (hR : ∀ f g, R f g → Q (Text.visible f) (Text.visible g)) :
    Replaces Q n (Text.visible s) (Text.visible t) := by
  induction h with
  | nil => exact .nil
  | keep c rest ih =>
      rw [visible_cons, visible_cons]
      split
      · exact ih
      · exact .keep c ih
  | piece replaced rest ih =>
      rw [visible_append, visible_append]
      exact .piece (hR _ _ replaced) ih

/-- The start of a text is old if none of its characters is the first of a replacement. -/
theorem prefix_of (h : Replaces R n s t)
    (hR : ∀ f g, R f g → ∃ c, g.head? = some c ∧ c ∉ w) (hw : w <+: t) : w <+: s := by
  induction h generalizing w with
  | nil => exact hw
  | keep c rest ih =>
      cases w with
      | nil => exact List.nil_prefix
      | cons d w =>
          obtain ⟨rfl, htail⟩ := List.cons_prefix_cons.mp hw
          have later : ∀ f g, R f g → ∃ c, g.head? = some c ∧ c ∉ w := by
            intro f g replaced
            obtain ⟨c, hc, hnot⟩ := hR f g replaced
            exact ⟨c, hc, fun hmem => hnot (List.mem_cons_of_mem d hmem)⟩
          exact List.cons_prefix_cons.mpr ⟨rfl, ih later htail⟩
  | @piece f g n s t replaced rest ih =>
      obtain ⟨c, hc, hnot⟩ := hR f g replaced
      obtain ⟨g, rfl⟩ := List.head?_eq_some_iff.mp hc
      cases w with
      | nil => exact List.nil_prefix
      | cons d w =>
          obtain ⟨rfl, -⟩ := List.cons_prefix_cons.mp hw
          exact absurd List.mem_cons_self hnot

end Replaces

/-- One of the texts begins with the other. -/
def Agree (a b : List Char) : Prop :=
  a <+: b ∨ b <+: a

instance (a b : List Char) : Decidable (Agree a b) :=
  inferInstanceAs (Decidable (a <+: b ∨ b <+: a))

theorem agree_of_prefix_append {w g t : List Char} (h : w <+: g ++ t) : Agree w g :=
  List.prefix_or_prefix_of_prefix h (List.prefix_append g t)

theorem Agree.head_eq {c d : Char} {a b : List Char} (h : Agree (c :: a) (d :: b)) : c = d := by
  obtain hp | hp := h
  · exact (List.cons_prefix_cons.mp hp).1
  · exact (List.cons_prefix_cons.mp hp).1.symm

/-- Whether a text begins with a word shows in as many characters as the word has. -/
theorem prefix_append_swap {w a t x : List Char} (hlength : w.length ≤ t.length)
    (h : w <+: a ++ (t ++ x)) (y : List Char) : w <+: a ++ (t ++ y) := by
  rw [← List.append_assoc] at h ⊢
  have hw : w <+: a ++ t := by
    refine List.prefix_of_prefix_length_le h (List.prefix_append (a ++ t) x) ?_
    rw [List.length_append]
    omega
  exact hw.trans (List.prefix_append (a ++ t) y)

/-- The first text begins nowhere inside the second one, whatever comes after that. -/
def Avoids (w : List Char) : List Char → Prop
  | [] => True
  | c :: g => ¬ Agree w (c :: g) ∧ Avoids w g

/-- No end of the second text is a beginning of the first one and not all of it. -/
def Uncut (w : List Char) : List Char → Prop
  | [] => True
  | c :: g => (c :: g <+: w → c :: g = w) ∧ Uncut w g

instance Avoids.decidable (w : List Char) : (g : List Char) → Decidable (Avoids w g)
  | [] => .isTrue trivial
  | c :: g =>
      have := Avoids.decidable w g
      inferInstanceAs (Decidable (¬ Agree w (c :: g) ∧ Avoids w g))

instance Uncut.decidable (w : List Char) : (g : List Char) → Decidable (Uncut w g)
  | [] => .isTrue trivial
  | c :: g =>
      have := Uncut.decidable w g
      inferInstanceAs (Decidable ((c :: g <+: w → c :: g = w) ∧ Uncut w g))

variable {w g : List Char}

theorem Avoids.drop {i : Nat} (h : Avoids w g) (hi : i < g.length) : ¬ Agree w (g.drop i) := by
  induction g generalizing i with
  | nil => cases hi
  | cons c g ih =>
      cases i with
      | zero => exact h.1
      | succ i => exact ih h.2 (Nat.lt_of_succ_lt_succ hi)

/-- A word begins nowhere in a text without its first character. -/
theorem Avoids.of_head {c : Char} (hhead : w.head? = some c) (hc : c ∉ g) : Avoids w g := by
  obtain ⟨w, rfl⟩ := List.head?_eq_some_iff.mp hhead
  induction g with
  | nil => trivial
  | cons d g ih =>
      rw [List.mem_cons, not_or] at hc
      exact ⟨fun hagree => hc.1 hagree.head_eq, ih hc.2⟩

/-- A word stands nowhere in a text that it avoids. -/
theorem Avoids.stands_behind (h : Avoids w g) {t : List Char} (hw : w <:+: g ++ t) : w <:+: t := by
  induction g with
  | nil => exact hw
  | cons c g ih =>
      obtain hstart | hlater := List.infix_cons_iff.mp hw
      · exact absurd (agree_of_prefix_append hstart) h.1
      · exact ih h.2 hlater

/-- A word without blanks that stands nowhere in the visible characters of a text stands
nowhere in the text. -/
theorem Avoids.of_visible (hw : w ≠ []) (plain : ∀ c ∈ w, isBlank c = false)
    (h : Avoids w (visible g)) : Avoids w g := by
  induction g with
  | nil => trivial
  | cons c g ih =>
      rw [visible_cons] at h
      have start : ¬ Agree w (c :: g) := by
        obtain ⟨d, w, rfl⟩ := List.exists_cons_of_ne_nil hw
        intro hagree
        have hc : isBlank c = false := hagree.head_eq ▸ plain d List.mem_cons_self
        rw [if_neg (by simp [hc])] at h
        refine h.1 ?_
        have hvisible : c :: visible g = visible (c :: g) := by simp [visible_cons, hc]
        rw [hvisible]
        obtain ⟨ds, hds⟩ | ⟨ds, hds⟩ := hagree
        · left
          rw [← hds, visible_append, visible_eq_self plain]
          exact List.prefix_append _ _
        · right
          have hall : ∀ x ∈ c :: g, isBlank x = false := by
            intro x hx
            exact plain x (hds ▸ List.mem_append_left ds hx)
          rw [visible_eq_self hall]
          exact ⟨ds, hds⟩
      refine ⟨start, ih ?_⟩
      split at h
      · exact h
      · exact h.2

/-- The number of places at which a word stands in a text. -/
def occurrences (w : List Char) : List Char → Nat
  | [] => 0
  | c :: cs => (if w <+: c :: cs then 1 else 0) + occurrences w cs

/-- The weighted number of some words in a text. -/
def weight : List (List Char × Nat) → List Char → Nat
  | [], _ => 0
  | (w, k) :: weights, cs => k * occurrences w cs + weight weights cs

/-- A word stands in a text around a piece only before it, after it or inside of it: the piece
begins nowhere inside the word, and the word does not begin in the piece and end after it. -/
def Apart (w g : List Char) : Prop :=
  Avoids g w.tail ∧ Uncut w g

instance (w g : List Char) : Decidable (Apart w g) :=
  inferInstanceAs (Decidable (Avoids g w.tail ∧ Uncut w g))

variable {weights : List (List Char × Nat)}

/-- Joining two texts loses no word of either. -/
theorem occurrences_append_ge (w a b : List Char) :
    occurrences w a + occurrences w b ≤ occurrences w (a ++ b) := by
  induction a with
  | nil => simp [occurrences]
  | cons c a ih =>
      have hstart : (if w <+: c :: a then 1 else 0) ≤
          if w <+: c :: (a ++ b) then 1 else 0 := by
        by_cases h : w <+: c :: a
        · have h' : w <+: c :: (a ++ b) := h.trans (List.prefix_append (c :: a) b)
          simp [h, h']
        · simp [h]
      simp only [List.cons_append, occurrences]
      omega

/-- A word that a piece does not cut stands inside of it or after it. -/
private theorem occurrences_append_of_uncut (uncut : Uncut w g) (b : List Char) :
    occurrences w (g ++ b) = occurrences w g + occurrences w b := by
  induction g with
  | nil => simp [occurrences]
  | cons c g ih =>
      have hstart : w <+: c :: (g ++ b) ↔ w <+: c :: g := by
        refine ⟨fun h => ?_, fun h => h.trans (List.prefix_append (c :: g) b)⟩
        obtain hinside | hcut := List.prefix_or_prefix_of_prefix h (List.prefix_append (c :: g) b)
        · exact hinside
        · rw [← uncut.1 hcut]
      simp only [List.cons_append, occurrences, hstart, ih uncut.2]
      omega

/-- A word that a piece does not complete stands before it or from its start on. -/
private theorem occurrences_append_of_uncompleted (uncompleted : Avoids g w.tail)
    (a b : List Char) :
    occurrences w (a ++ (g ++ b)) = occurrences w a + occurrences w (g ++ b) := by
  induction a with
  | nil => simp [occurrences]
  | cons c a ih =>
      have hstart : w <+: c :: (a ++ (g ++ b)) ↔ w <+: c :: a := by
        refine ⟨fun h => ?_, fun h => h.trans (List.prefix_append (c :: a) _)⟩
        obtain hinside | hcut :=
          List.prefix_or_prefix_of_prefix h (List.prefix_append (c :: a) (g ++ b))
        · exact hinside
        · obtain ⟨y, rfl⟩ := hcut
          have hy : y <+: g ++ b := (List.prefix_append_right_inj (c :: a)).mp h
          cases y with
          | nil => simp
          | cons d y =>
              have hagree := agree_of_prefix_append hy
              have hinside := uncompleted.drop (i := a.length) (by simp)
              simp only [List.cons_append, List.tail_cons, List.drop_left] at hinside
              exact absurd hagree.symm hinside
      simp only [List.cons_append, occurrences, hstart, ih]
      omega

theorem Apart.occurrences_append (apart : Apart w g) (a b : List Char) :
    occurrences w (a ++ (g ++ b)) = occurrences w a + (occurrences w g + occurrences w b) := by
  rw [occurrences_append_of_uncompleted apart.1,
    occurrences_append_of_uncut apart.2]

theorem weight_append_ge (weights : List (List Char × Nat)) (a b : List Char) :
    weight weights a + weight weights b ≤ weight weights (a ++ b) := by
  induction weights with
  | nil => exact Nat.le_refl 0
  | cons p weights ih =>
      obtain ⟨w, k⟩ := p
      have h := Nat.mul_le_mul_left k (occurrences_append_ge w a b)
      simp only [weight, Nat.mul_add] at h ⊢
      omega

theorem weight_append_of_apart (apart : ∀ p ∈ weights, Apart p.1 g) (a b : List Char) :
    weight weights (a ++ (g ++ b)) =
      weight weights a + (weight weights g + weight weights b) := by
  induction weights with
  | nil => rfl
  | cons p weights ih =>
      obtain ⟨w, k⟩ := p
      have hw : Apart w g := apart (w, k) List.mem_cons_self
      have later := ih fun q hq => apart q (List.mem_cons_of_mem _ hq)
      simp only [weight, hw.occurrences_append, Nat.mul_add, later]
      omega

/-- If every replacement is lighter than what gives way to it, and no word is made with its
neighbours, then every piece that is replaced makes the text lighter. -/
theorem Replaces.weight_add_le {R : List Char → List Char → Prop} {n : Nat} {s t : List Char}
    (h : Replaces R n s t) (apart : ∀ f g, R f g → ∀ p ∈ weights, Apart p.1 g)
    (lighter : ∀ f g, R f g → weight weights g < weight weights f) :
    weight weights t + n ≤ weight weights s := by
  -- The text in front is what the kept characters have made so far.
  suffices around : ∀ a, weight weights (a ++ t) + n ≤ weight weights (a ++ s) from around []
  induction h with
  | nil => simp
  | keep c rest ih =>
      intro a
      simpa using ih (a ++ [c])
  | @piece f g n s t replaced rest ih =>
      intro a
      have hfront := weight_append_ge weights a (f ++ s)
      have hpiece := weight_append_ge weights f s
      have hlighter := lighter f g replaced
      have hrest := ih []
      rw [weight_append_of_apart (apart f g replaced)]
      simp only [List.nil_append] at hrest
      omega

end Bellman.Text
