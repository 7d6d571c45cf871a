import Bellman.Numeral.Reading

/-!
# Where a formula gets stuck

A formula is computed from the left and from the inside outward, and the first thing that
cannot be done is its obstacle. So a formula without a value holds exactly one operation
that is reached and refuses: all that stands before it has a value, its own parts have
values too, and it has none. Powers refuse for the sake of their size. A product refuses
when the empty brackets are multiplied by a rational number other than zero and one, and
this is the only way in which a formula is nothing that could be put into words.
-/

namespace Bellman.Numeral

namespace Formula

variable {a b f g : Formula} {x y : Value} {o : Obstacle}

/-- The product of two formulas with values. The empty brackets are told by how they are
written: what they are worth does not matter. -/
def product (a b : Formula) (x y : Value) : Except Obstacle Value :=
  match a, b with
  | .emptyBrackets, _ => mulBrackets y
  | _, .emptyBrackets => mulBrackets x
  | _, _ => .ok (x.mul y)

/-- All products are computed in one way: the left factor, the right one, and then both. -/
theorem compute_mul (a b : Formula) :
    (mul a b).compute = a.compute.bind fun x => b.compute.bind fun y => product a b x y := by
  cases a <;> cases b <;> rfl

theorem mulBrackets_eq_error :
    mulBrackets x = .error o ↔ o = .notANumber ∧ ∃ q, x = .rational q ∧ q ≠ 0 ∧ q ≠ 1 := by
  cases x with
  | rational q =>
      simp only [mulBrackets]
      by_cases h0 : q = 0
      · simp [h0]
      · by_cases h1 : q = 1
        · simp [h1]
        · simp [h0, h1, eq_comm]
  | closed s => simp [mulBrackets]
  | infinite => simp [mulBrackets]
  | undefined => simp [mulBrackets]

/-- A product refuses only for the empty brackets. -/
theorem product_eq_error :
    product a b x y = .error o ↔
      o = .notANumber ∧ ∃ q : Rat, q ≠ 0 ∧ q ≠ 1 ∧
        (a = .emptyBrackets ∧ y = .rational q ∨
          a ≠ .emptyBrackets ∧ b = .emptyBrackets ∧ x = .rational q) := by
  by_cases ha : a = .emptyBrackets
  · subst ha
    simp only [product, mulBrackets_eq_error]
    grind
  · by_cases hb : b = .emptyBrackets
    · subst hb
      have hproduct : product a .emptyBrackets x y = mulBrackets x := by
        cases a with
        | emptyBrackets => exact absurd rfl ha
        | _ => rfl
      rw [hproduct, mulBrackets_eq_error]
      grind
    · have hproduct : product a b x y = .ok (x.mul y) := by
        cases a with
        | emptyBrackets => exact absurd rfl ha
        | _ =>
            cases b with
            | emptyBrackets => exact absurd rfl hb
            | _ => rfl
      simp [hproduct, ha, hb]

/-- The guard refuses a power for what it knows of its size only. -/
theorem guardedPow_ne_notANumber : guardedPow x y ≠ .error .notANumber := by
  intro h
  simp only [guardedPow] at h
  split at h
  · split at h
    · cases h
    · split at h <;> cases h
  · cases h

/-- Computing a formula comes to computing `g`: it is a part of the formula, and what
stands before it has a value. -/
inductive Reached (g : Formula) : Formula → Prop
  | self : Reached g g
  | addLeft {a b : Formula} : Reached g a → Reached g (.add a b)
  | addRight {a b : Formula} {v : Value} : a.compute = .ok v → Reached g b → Reached g (.add a b)
  | mulLeft {a b : Formula} : Reached g a → Reached g (.mul a b)
  | mulRight {a b : Formula} {v : Value} : a.compute = .ok v → Reached g b → Reached g (.mul a b)
  | powLeft {a b : Formula} : Reached g a → Reached g (.pow a b)
  | powRight {a b : Formula} {v : Value} : a.compute = .ok v → Reached g b → Reached g (.pow a b)
  | argument {name : List Char} {a : Formula} : Reached g a → Reached g (.call name (some a))

/-- The parts of a formula have values, and the formula has none. -/
inductive Refuses (o : Obstacle) : Formula → Prop
  | mul {a b : Formula} {v w : Value} : a.compute = .ok v → b.compute = .ok w →
      product a b v w = .error o → Refuses o (.mul a b)
  | pow {a b : Formula} {v w : Value} : a.compute = .ok v → b.compute = .ok w →
      guardedPow v w = .error o → Refuses o (.pow a b)

theorem Refuses.compute_eq (h : Refuses o f) : f.compute = .error o := by
  cases h with
  | mul ha hb h => simp [compute_mul, Except.bind, ha, hb, h]
  | pow ha hb h => simp [compute, bind, Except.bind, ha, hb, h]

/-- What is reached and has no value leaves the whole formula without one. -/
theorem Reached.compute_eq (h : Reached g f) (hg : g.compute = .error o) :
    f.compute = .error o := by
  induction h with
  | self => exact hg
  | addLeft _ ih => simp [compute, bind, Except.bind, ih]
  | addRight ha _ ih => simp [compute, bind, Except.bind, ha, ih]
  | mulLeft _ ih => simp [compute_mul, Except.bind, ih]
  | mulRight ha _ ih => simp [compute_mul, Except.bind, ha, ih]
  | powLeft _ ih => simp [compute, bind, Except.bind, ih]
  | powRight ha _ ih => simp [compute, bind, Except.bind, ha, ih]
  | argument _ ih => simp [compute, bind, Except.bind, ih]

/-- A computation of two parts fails in the first, in the second after the first, or in
what is made of both. -/
theorem bind_bind_eq_error {α : Type} {s t : Except Obstacle α} {k : α → α → Except Obstacle α}
    (h : (s.bind fun x => t.bind fun y => k x y) = .error o) :
    s = .error o ∨ (∃ x, s = .ok x ∧ t = .error o) ∨
      ∃ x y, s = .ok x ∧ t = .ok y ∧ k x y = .error o := by
  cases s <;> cases t <;> simp_all [Except.bind]

/-- A formula of two parts without a value: what is reached in a part is reached in the
formula, and if both parts have values the formula refuses itself. -/
theorem exists_refuses_of_parts {k : Value → Value → Except Obstacle Value}
    (hf : f.compute = a.compute.bind fun x => b.compute.bind fun y => k x y)
    (left : ∀ {g}, Reached g a → Reached g f)
    (right : ∀ {g x}, a.compute = .ok x → Reached g b → Reached g f)
    (both : ∀ {x y}, a.compute = .ok x → b.compute = .ok y → k x y = .error o → Refuses o f)
    (iha : a.compute = .error o → ∃ g, Reached g a ∧ Refuses o g)
    (ihb : b.compute = .error o → ∃ g, Reached g b ∧ Refuses o g)
    (h : f.compute = .error o) : ∃ g, Reached g f ∧ Refuses o g := by
  rw [hf] at h
  obtain ha | ⟨x, ha, hb⟩ | ⟨x, y, ha, hb, hk⟩ := bind_bind_eq_error h
  · obtain ⟨g, hg, hr⟩ := iha ha
    exact ⟨g, left hg, hr⟩
  · obtain ⟨g, hg, hr⟩ := ihb hb
    exact ⟨g, right ha hg, hr⟩
  · exact ⟨f, .self, both ha hb hk⟩

/-- A formula without a value comes to an operation that refuses. The recursion is the
one of the formula, arguments of calls included. -/
theorem exists_refuses : (f : Formula) → f.compute = .error o → ∃ g, Reached g f ∧ Refuses o g
  | .value _, h => by cases h
  | .emptyBrackets, h => by cases h
  | .add a b, h =>
      exists_refuses_of_parts rfl .addLeft .addRight (fun _ _ hk => by cases hk)
        (exists_refuses a) (exists_refuses b) h
  | .mul a b, h =>
      exists_refuses_of_parts (compute_mul a b) .mulLeft .mulRight .mul
        (exists_refuses a) (exists_refuses b) h
  | .pow a b, h =>
      exists_refuses_of_parts rfl .powLeft .powRight .pow (exists_refuses a) (exists_refuses b) h
  | .call _ none, h => by cases h
  | .call _ (some a), h => by
      cases ha : a.compute with
      | error e =>
          simp only [compute, ha, bind, Except.bind] at h
          obtain ⟨g, hg, hr⟩ := exists_refuses a (ha.trans h)
          exact ⟨g, .argument hg, hr⟩
      | ok v => simp [compute, ha, bind, Except.bind, pure, Except.pure] at h

/-- A formula has no value for the reason of the operation that is reached and refuses. -/
theorem compute_eq_error_iff : f.compute = .error o ↔ ∃ g, Reached g f ∧ Refuses o g := by
  constructor
  · exact exists_refuses f
  · rintro ⟨g, hg, hr⟩
    exact hg.compute_eq hr.compute_eq

/-- A product of the empty brackets and a rational number other than zero and one, written
on either side of them. -/
inductive Stranded : Formula → Prop
  | right {b : Formula} {q : Rat} : b.compute = .ok (.rational q) → q ≠ 0 → q ≠ 1 →
      Stranded (.mul .emptyBrackets b)
  | left {a : Formula} {q : Rat} : a.compute = .ok (.rational q) → q ≠ 0 → q ≠ 1 →
      Stranded (.mul a .emptyBrackets)

theorem refuses_notANumber_iff : Refuses .notANumber g ↔ Stranded g := by
  constructor
  · intro h
    cases h with
    | mul ha hb h =>
        obtain ⟨-, q, h0, h1, ⟨rfl, rfl⟩ | ⟨-, rfl, rfl⟩⟩ := product_eq_error.mp h
        · exact .right hb h0 h1
        · exact .left ha h0 h1
    | pow _ _ h => exact absurd h guardedPow_ne_notANumber
  · intro h
    cases h with
    | right hb h0 h1 =>
        exact .mul rfl hb (product_eq_error.mpr ⟨rfl, _, h0, h1, .inl ⟨rfl, rfl⟩⟩)
    | @left a q ha h0 h1 =>
        refine .mul ha rfl (product_eq_error.mpr ⟨rfl, _, h0, h1, .inr ⟨?_, rfl, rfl⟩⟩)
        -- the empty brackets are worth an unknown, which is no rational number
        rintro rfl
        cases ha

/-- A formula is nothing that a message is made of exactly when it comes to a stranded
product. -/
theorem compute_eq_notANumber_iff :
    f.compute = .error .notANumber ↔ ∃ g, Reached g f ∧ Stranded g := by
  simp only [compute_eq_error_iff, refuses_notANumber_iff]

end Formula

end Bellman.Numeral
