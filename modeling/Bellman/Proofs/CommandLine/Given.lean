import Bellman.CommandLine
import Bellman.Proofs.Traversal

/-!
# What the words of a command line give

An option may come several times, and then its last value counts. `given?` reads this off
the words, without the order in which they are taken and without their faults; a command line
that is accepted asks for just these values.
-/

namespace Bellman.CommandLine

/-- The value that a text gives to an option. -/
def Flag.ofText : Flag → String → Json
  | .port, text =>
      match Text.readInteger? text with
      | some n => .int n
      | none => .null
  | .logLevel, text => .text (Text.upper text)
  | _, text => .text text

/-- The value that a text gives if an equals sign attaches it. Two dashes are no value. -/
def Flag.ofAttached (flag : Flag) (text : String) : Json :=
  if text == "--" then .list [] else flag.ofText text

/-- The value that the words of a command line give to an option: the last one that is
attached to it or follows it. -/
def given? (flag : Flag) : List Word → Option Json
  | [] => none
  | .option _ f (some text) :: ws =>
      given? flag ws <|> if f = flag then some (f.ofAttached text) else none
  | .option _ f none :: .plain text :: ws =>
      given? flag ws <|> if f = flag then some (f.ofText text) else none
  | _ :: ws => given? flag ws

/-- What is asked for by an option that takes a value. -/
def Arguments.value (a : Arguments) : Flag → Json
  | .host => a.host
  | .port => a.port
  | .logLevel => a.logLevel
  | .help | .reload => .null

variable {a a' : Arguments} {flag f : Flag} {text : String}

/-- Accepting a value changes what is asked for by its option, and by no other. -/
theorem value_of_accept (h : a.accept f text = .ok a') (flag : Flag) :
    a'.value flag = if f = flag then f.ofText text else a.value flag := by
  cases f with
  | host =>
      cases h
      cases flag <;> rfl
  | port =>
      cases hread : Text.readInteger? text with
      | none => simp [Arguments.accept, hread] at h
      | some n =>
          simp only [Arguments.accept, hread, Except.ok.injEq] at h
          subst h
          cases flag <;> simp [Arguments.value, Flag.ofText, hread]
  | logLevel =>
      simp only [Arguments.accept] at h
      split at h
      · cases h
        cases flag <;> rfl
      · cases h
  | help => cases h
  | reload => cases h

theorem value_of_acceptAttached (h : a.acceptAttached f text = .ok a') (flag : Flag) :
    a'.value flag = if f = flag then f.ofAttached text else a.value flag := by
  unfold Arguments.acceptAttached at h
  by_cases hdashes : (text == "--") = true
  · rw [if_pos hdashes] at h
    cases f <;> cases h <;> cases flag <;> simp [Arguments.value, Flag.ofAttached, hdashes]
  · rw [if_neg hdashes] at h
    rw [value_of_accept h, Flag.ofAttached, if_neg hdashes]

/-- A value that comes later counts more than one that was just accepted. -/
theorem getD_or_eq {later : Option Json} {v w : Json} :
    later.getD (if f = flag then v else w) =
      (later <|> if f = flag then some v else none).getD w := by
  cases later with
  | some u => rfl
  | none => by_cases hf : f = flag <;> simp [hf]

/-- The words that are taken leave for each option the last value they give, and what was
asked for before if they give none. -/
theorem value_of_take {ws : List Word} {rest : List String} (hflag : flag.takesValue = true)
    (h : take a ws = .ok (a', rest)) : a'.value flag = (given? flag ws).getD (a.value flag) := by
  fun_induction take a ws generalizing a' rest with
  | case1 =>
      cases h
      rfl
  | case2 a text ws ih | case3 a text ws ih | case4 a ws ih =>
      obtain ⟨⟨b, rest'⟩, hws, hpair⟩ := bind_eq_ok_iff.mp h
      cases hpair
      exact ih hws
  | case5 a spelling f text ws _ ih =>
      obtain ⟨b, hb, hws⟩ := bind_eq_ok_iff.mp h
      rw [ih b hws, value_of_acceptAttached (mapError_eq_ok_iff.mp hb), getD_or_eq]
      rfl
  | case6 => cases h
  | case7 => cases h
  | case8 a spelling ws ih =>
      -- The option takes no value, so a plain word behind it is not given to it.
      have hskip : given? flag (.option spelling .reload none :: ws) = given? flag ws := by
        have hne : Flag.reload ≠ flag := by
          rintro rfl
          cases hflag
        cases ws with
        | nil => rfl
        | cons w ws => cases w <;> simp [given?, hne]
      rw [ih h, hskip]
      cases flag <;> rfl
  | case9 a spelling f text ws _ _ ih =>
      obtain ⟨b, hb, hws⟩ := bind_eq_ok_iff.mp h
      rw [ih b hws, value_of_accept (mapError_eq_ok_iff.mp hb), getD_or_eq]
      rfl
  | case10 => cases h

/-- A command line that is accepted asks for the last value of each option. -/
theorem value_of_read {words : List String} (h : read words = .ok a) :
    ∃ ws, classify words = .ok ws ∧
      ∀ flag : Flag, flag.takesValue = true → a.value flag = (given? flag ws).getD .null := by
  obtain ⟨ws, hws, htaken⟩ := bind_eq_ok_iff.mp h
  obtain ⟨⟨b, rest⟩, hb, hrest⟩ := bind_eq_ok_iff.mp htaken
  refine ⟨ws, mapError_eq_ok_iff.mp hws, fun flag hflag => ?_⟩
  have hab : b = a := by
    dsimp only at hrest
    split at hrest <;> cases hrest
    rfl
  have hvalue := value_of_take hflag hb
  rw [hab] at hvalue
  rw [hvalue]
  cases flag <;> rfl

end Bellman.CommandLine
