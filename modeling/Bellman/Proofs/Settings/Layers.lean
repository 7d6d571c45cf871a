import Bellman.Settings
import Mathlib.Data.List.Basic

/-!
# Settings in layers

A value that a caller gives goes over a variable of the environment, and that over the
default, for each setting on its own. Two things can go wrong: the variable of the port holds
no whole number, which is found out first, or a caller gives a name that is no setting. With
neither there are settings, so each of the two is all that it takes to be refused.

`Layered` says which layer a value comes from, and `SettingsContract` what settings promise.
-/

namespace Bellman

/-- The value that a text stands for: a whole number for the port, rows for the matrix, and
otherwise the text itself. -/
inductive Setting.Reads : Setting → String → Json → Prop
  | port {raw : String} {n : Int} (h : Text.readInteger? raw = some n) :
      Reads .port raw (.int n)
  | matrix {raw rows : String}
      (h : rows.toList = raw.toList.map fun c => if c = ';' then '\n' else c) :
      Reads .transitionMatrix raw (.text rows)
  | text {s : Setting} {raw : String} (hport : s ≠ .port) (hmatrix : s ≠ .transitionMatrix) :
      Reads s raw (.text raw)

/-- The value of a setting, by the highest layer that gives one. What is null in the top
layer is not given there. -/
inductive Layered (top : Option Json) (env : Environment) (s : Setting) : Json → Prop
  | given {v : Json} (h : top = some v) (hv : v ≠ .null) : Layered top env s v
  | environment {raw : String} {v : Json} (htop : ∀ u, top = some u → u = .null)
      (henv : env s = some raw) (h : s.Reads raw v) : Layered top env s v
  | default (htop : ∀ u, top = some u → u = .null) (henv : env s = none) :
      Layered top env s s.default

/-- How a value is kept. The level of logging is kept as a text in upper case. -/
def Setting.kept (s : Setting) (v : Json) : Json :=
  if s = .logLevel then .text (Text.upper v.asText) else v

/-- A caller gives a name that is no setting. -/
def Unknown (overrides : Json) (name : String) : Prop :=
  (overrides.field? name).isSome ∧ ∀ s : Setting, s.name ≠ name

/-- The variable of the port holds a whole number, if it is set. -/
def Readable (env : Environment) : Prop :=
  ∀ raw, env .port = some raw → ∃ n, Text.readInteger? raw = some n

/-- What settings promise: when they are refused, with which reason, and otherwise the layer
of each value. -/
structure SettingsContract (env : Environment) (overrides : Json)
    (result : Except SettingsError Settings) : Prop where
  refused : (∃ e, result = .error e) ↔ ¬ Readable env ∨ ∃ name, Unknown overrides name
  portFirst : ∀ raw, env .port = some raw → Text.readInteger? raw = none →
    result = .error (.portNotInteger raw)
  names : Readable env → (∃ name, Unknown overrides name) → ∃ names : List String,
    result = .error (.unknownNames names) ∧ names.Pairwise (· < ·) ∧
      ∀ name, name ∈ names ↔ Unknown overrides name
  values : ∀ t, result = .ok t → ∀ s : Setting,
    ∃ v, Layered (overrides.field? s.name) env s v ∧ t.value s = s.kept v

namespace Settings

variable {env : Environment} {overrides : Json} {s : Setting}

theorem nodup_eraseDups {α : Type} [BEq α] [LawfulBEq α] (xs : List α) :
    xs.eraseDups.Nodup := by
  match xs with
  | [] => simp
  | x :: xs =>
      rw [List.eraseDups_cons, List.nodup_cons, List.mem_eraseDups]
      exact ⟨by simp, nodup_eraseDups _⟩
termination_by xs.length
decreasing_by exact Nat.lt_succ_of_le (List.length_filter_le ..)

theorem isSome_field?_object {fields : List (String × Json)} {name : String} :
    ((Json.object fields).field? name).isSome ↔ name ∈ fields.map (·.1) := by
  simp [Json.field?]

theorem mem_unknownNames {name : String} :
    name ∈ unknownNames overrides ↔ Unknown overrides name := by
  cases overrides with
  | object fields =>
      have hsettings : name ∉ Setting.all.map Setting.name ↔ ∀ s : Setting, s.name ≠ name := by
        simp [Setting.mem_all]
      rw [unknownNames, List.mem_mergeSort, List.mem_eraseDups, List.mem_filter, Unknown,
        isSome_field?_object, ← hsettings]
      simp
  | _ => simp [unknownNames, Unknown, Json.field?]

/-- The names are in order, and none comes twice. -/
theorem pairwise_unknownNames (overrides : Json) :
    (unknownNames overrides).Pairwise (· < ·) := by
  cases overrides with
  | object fields =>
      rw [unknownNames]
      generalize (List.filter _ (fields.map (·.1))) = names
      have hle : (names.eraseDups.mergeSort fun a b => decide (a ≤ b)).Pairwise
          fun a b => decide (a ≤ b) = true :=
        List.pairwise_mergeSort (fun a b c => by simpa using String.le_trans)
          (fun a b => by simpa using String.le_total a b) names.eraseDups
      have hne : (names.eraseDups.mergeSort fun a b => decide (a ≤ b)).Pairwise (· ≠ ·) :=
        (List.mergeSort_perm _ _).nodup_iff.mpr (nodup_eraseDups names)
      refine hle.imp₂ (fun a b hab hne => String.not_le.mp fun hba => hne ?_) hne
      exact String.le_antisymm (by simpa using hab) hba
  | _ => exact .nil

/-- The value of a setting without a caller. -/
def fallback (env : Environment) (s : Setting) : Json :=
  match ofEnvironment env s with
  | .ok v => v
  | .error _ => s.default

theorem ofEnvironment_eq_ok (h : s = .port → Readable env) :
    ofEnvironment env s = .ok (fallback env s) := by
  have hread : ∃ v, ofEnvironment env s = .ok v := by
    cases henv : env s with
    | none => exact ⟨_, ofEnvironment_of_unset henv⟩
    | some raw =>
        rw [ofEnvironment, henv]
        cases s with
        | port =>
            obtain ⟨n, hn⟩ := h rfl raw henv
            exact ⟨.int n, by simp [Setting.read, hn]⟩
        | _ => exact ⟨_, rfl⟩
  obtain ⟨v, hv⟩ := hread
  rw [fallback, hv]

/-- The value of a setting. -/
def chosen (env : Environment) (overrides : Json) (s : Setting) : Json :=
  (override? overrides s).getD (fallback env s)

/-- The settings that the values of all layers make. -/
def layered (env : Environment) (overrides : Json) : Settings where
  gamma := chosen env overrides .gamma
  transitionMatrix := chosen env overrides .transitionMatrix
  rewards := chosen env overrides .rewards
  logLevel := Text.upper (chosen env overrides .logLevel).asText
  host := chosen env overrides .host
  port := chosen env overrides .port

theorem value_layered (s : Setting) :
    (layered env overrides).value s = s.kept (chosen env overrides s) := by
  cases s <;> rfl

theorem effective_of_unreadable {raw : String} (henv : env .port = some raw)
    (hraw : Text.readInteger? raw = none) :
    effective env overrides = .error (.portNotInteger raw) := by
  have hport : ofEnvironment env .port = .error (.portNotInteger raw) := by
    simp [ofEnvironment, henv, Setting.read, hraw]
  have hother {s : Setting} (hs : s ≠ .port) : ofEnvironment env s = .ok (fallback env s) :=
    ofEnvironment_eq_ok fun h => absurd h hs
  simp [effective, hport, hother, bind, Except.bind]

theorem effective_of_readable (h : Readable env) (overrides : Json) :
    effective env overrides =
      if unknownNames overrides = [] then .ok (layered env overrides)
      else .error (.unknownNames (unknownNames overrides)) := by
  have hlayer (s : Setting) : ofEnvironment env s = .ok (fallback env s) :=
    ofEnvironment_eq_ok fun _ => h
  cases hnames : unknownNames overrides with
  | nil => simp [effective, hlayer, hnames, bind, Except.bind, pure, Except.pure, layered, chosen]
  | cons name names =>
      simp [effective, hlayer, hnames, bind, Except.bind, throw, throwThe, MonadExceptOf.throw]

theorem override?_eq_none_iff :
    override? overrides s = none ↔ ∀ v, overrides.field? s.name = some v → v = .null := by
  unfold override?
  cases overrides.field? s.name with
  | none => simp
  | some v => cases v <;> simp

theorem override?_eq_some_iff {v : Json} :
    override? overrides s = some v ↔ overrides.field? s.name = some v ∧ v ≠ .null := by
  unfold override?
  split
  next hnull =>
    rw [hnull]
    exact ⟨nofun, fun ⟨hv, hne⟩ => absurd (Option.some.inj hv).symm hne⟩
  next hother => exact ⟨fun hv => ⟨hv, fun hnull => hother (hnull ▸ hv)⟩, And.left⟩

theorem reads_of_read {raw : String} {v : Json} (h : s.read raw = .ok v) : s.Reads raw v := by
  cases s with
  | port =>
      cases hraw : Text.readInteger? raw with
      | none => simp [Setting.read, hraw] at h
      | some n =>
          simp only [Setting.read, hraw, Except.ok.injEq] at h
          exact h ▸ .port hraw
  | transitionMatrix =>
      cases h
      exact .matrix String.toList_ofList
  | _ =>
      cases h
      exact .text nofun nofun

/-- A value that is chosen is that of the highest layer that gives one. -/
theorem layered_chosen (h : s = .port → Readable env) :
    Layered (overrides.field? s.name) env s (chosen env overrides s) := by
  rw [chosen]
  cases htop : override? overrides s with
  | some v =>
      obtain ⟨hv, hnull⟩ := override?_eq_some_iff.mp htop
      exact .given hv hnull
  | none =>
      have hnull := override?_eq_none_iff.mp htop
      have hlayer := ofEnvironment_eq_ok h
      rw [Option.getD_none]
      cases henv : env s with
      | none =>
          rw [ofEnvironment_of_unset henv, Except.ok.injEq] at hlayer
          exact hlayer ▸ .default hnull henv
      | some raw =>
          rw [ofEnvironment, henv] at hlayer
          exact .environment hnull henv (reads_of_read hlayer)

theorem unknownNames_eq_nil_iff :
    unknownNames overrides = [] ↔ ¬ ∃ name, Unknown overrides name := by
  simp [List.eq_nil_iff_forall_not_mem, mem_unknownNames]

/-- Settings are in layers, whatever the environment holds and a caller gives. -/
theorem effective_contract (env : Environment) (overrides : Json) :
    SettingsContract env overrides (effective env overrides) := by
  by_cases h : Readable env
  · have hfirst (raw : String) (henv : env .port = some raw)
        (hraw : Text.readInteger? raw = none) : False := by
      obtain ⟨n, hn⟩ := h raw henv
      cases hn.symm.trans hraw
    rw [effective_of_readable h]
    by_cases hnames : unknownNames overrides = []
    · have hnone := unknownNames_eq_nil_iff.mp hnames
      rw [if_pos hnames]
      refine ⟨by simp [h, hnone], fun raw henv hraw => (hfirst raw henv hraw).elim,
        fun _ hsome => absurd hsome hnone, ?_⟩
      rintro _ ⟨⟩ s
      exact ⟨_, layered_chosen fun _ => h, value_layered s⟩
    · have hsome : ∃ name, Unknown overrides name :=
        not_not.mp fun hnone => hnames (unknownNames_eq_nil_iff.mpr hnone)
      rw [if_neg hnames]
      refine ⟨by simp [hsome], fun raw henv hraw => (hfirst raw henv hraw).elim,
        fun _ _ => ⟨_, rfl, pairwise_unknownNames overrides, fun _ => mem_unknownNames⟩, ?_⟩
      exact fun t ht => nomatch ht
  · obtain ⟨raw, henv, hraw⟩ : ∃ raw, env .port = some raw ∧ Text.readInteger? raw = none := by
      simpa [Readable, ← Option.ne_none_iff_exists', and_comm] using h
    rw [effective_of_unreadable henv hraw]
    refine ⟨by simp [h], fun raw' henv' _ => ?_, fun h' => absurd h' h, fun t ht => nomatch ht⟩
    cases henv.symm.trans henv'
    rfl

end Settings

end Bellman
