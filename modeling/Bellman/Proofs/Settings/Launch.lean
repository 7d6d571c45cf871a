import Bellman.Launch
import Bellman.Proofs.CommandLine.Given
import Bellman.Proofs.Settings.Layers

/-!
# Launching with layered settings

The command line is the top layer of the settings that a launch takes from it. It gives no
name that is not a setting, so a command line that is accepted launches nothing only because
the settings are refused for the environment or because the level of logging, whichever layer
it comes from, has no known name.
-/

namespace Bellman

open CommandLine (Flag Word given?)

/-- What a launch promises for a command line that is accepted: when nothing is launched, and
otherwise the layer that host, port and level of logging come from. -/
structure LaunchContract (env : Environment) (a : CommandLine.Arguments) (ws : List Word)
    (result : Except LaunchError Launch) : Prop where
  refused : (∃ e, result = .error e) ↔
    (∃ e, Settings.effective env (Launch.overrides a) = .error e) ∨
      ∃ t, Settings.effective env (Launch.overrides a) = .ok t ∧
        t.logLevel ∉ Threshold.names.map (·.1)
  host : ∀ l, result = .ok l → Layered (given? .host ws) env .host l.host
  port : ∀ l, result = .ok l → Layered (given? .port ws) env .port l.port
  logLevel : ∀ l, result = .ok l → ∃ v, Layered (given? .logLevel ws) env .logLevel v ∧
    l.logLevel = Text.lowerAscii (Text.upper v.asText) ∧
    Threshold.ofName? (Text.upper v.asText) = some l.rootLevel

namespace Launch

variable {env : Environment} {a : CommandLine.Arguments} {words : List String} {ws : List Word}

theorem ofName?_eq_none_iff {name : String} :
    Threshold.ofName? name = none ↔ name ∉ Threshold.names.map (·.1) := by
  rw [Threshold.ofName?, Option.map_eq_none_iff, List.find?_eq_none]
  simp only [beq_iff_eq, List.mem_map, not_exists, not_and]

/-- The setting that an option gives. -/
def setting? : Flag → Option Setting
  | .host => some .host
  | .port => some .port
  | .logLevel => some .logLevel
  | .help | .reload => none

theorem takesValue_of_setting? {flag : Flag} {s : Setting} (h : setting? flag = some s) :
    flag.takesValue = true := by
  cases flag <;> cases h <;> rfl

/-- The command line is the top layer of these settings, under their names. -/
theorem field?_overrides {flag : Flag} {s : Setting} (h : setting? flag = some s) :
    (overrides a).field? s.name = some (a.value flag) := by
  cases flag <;> cases h <;> rfl

/-- What is null is not given. -/
theorem layered_getD_null {top : Option Json} {s : Setting} {v : Json}
    (h : Layered (some (top.getD .null)) env s v) : Layered top env s v := by
  cases top with
  | some u => exact h
  | none =>
      have hnone : ∀ u, (none : Option Json) = some u → u = .null := nofun
      cases h with
      | given hv hnull => exact absurd (Option.some.inj hv).symm hnull
      | environment _ henv hread => exact .environment hnone henv hread
      | default _ henv => exact .default hnone henv

/-- A command line that is accepted goes on with the settings. -/
theorem plan_of_read (h : CommandLine.read words = .ok a) : plan env words =
    (Settings.effective env (overrides a)).mapError .settings >>= fun t =>
      match Threshold.ofName? t.logLevel with
      | none => .error (.unknownLevel t.logLevel)
      | some level => .ok
        { target := application
          host := t.host
          port := t.port
          reload := a.reload
          logLevel := Text.lowerAscii t.logLevel
          rootLevel := level } := by
  rw [plan, h]
  rfl

/-- A launch is refused for its settings, or for the name of their level. -/
theorem plan_refused_iff (h : CommandLine.read words = .ok a) :
    (∃ e, plan env words = .error e) ↔
      (∃ e, Settings.effective env (overrides a) = .error e) ∨
        ∃ t, Settings.effective env (overrides a) = .ok t ∧
          t.logLevel ∉ Threshold.names.map (·.1) := by
  rw [plan_of_read h]
  cases heffective : Settings.effective env (overrides a) with
  | error e => simp [Except.mapError, bind, Except.bind]
  | ok t =>
      simp only [← ofName?_eq_none_iff, Except.mapError, bind, Except.bind]
      cases hlevel : Threshold.ofName? t.logLevel <;> simp [hlevel]

/-- A launch has the host, the port and the level of its settings. -/
theorem plan_eq_ok (h : CommandLine.read words = .ok a) {l : Launch} (hl : plan env words = .ok l) :
    ∃ t, Settings.effective env (overrides a) = .ok t ∧ l.host = t.host ∧ l.port = t.port ∧
      l.logLevel = Text.lowerAscii t.logLevel ∧
      Threshold.ofName? t.logLevel = some l.rootLevel := by
  rw [plan_of_read h, bind_eq_ok_iff] at hl
  obtain ⟨t, ht, hlevel⟩ := hl
  refine ⟨t, mapError_eq_ok_iff.mp ht, ?_⟩
  split at hlevel
  · cases hlevel
  next level hname =>
    cases hlevel
    exact ⟨rfl, rfl, rfl, hname⟩

/-- A setting that an option gives comes from the command line, or else from below it. -/
theorem layered_of_effective {t : Settings} {f : Flag} {s : Setting}
    (hgiven : ∀ flag : Flag, flag.takesValue = true →
      a.value flag = (given? flag ws).getD .null)
    (ht : Settings.effective env (overrides a) = .ok t) (hs : setting? f = some s) :
    ∃ v, Layered (given? f ws) env s v ∧ t.value s = s.kept v := by
  obtain ⟨v, hv, hkept⟩ := (Settings.effective_contract env (overrides a)).values t ht s
  rw [field?_overrides hs, hgiven f (takesValue_of_setting? hs)] at hv
  exact ⟨v, layered_getD_null hv, hkept⟩

theorem plan_contract (env : Environment) (h : CommandLine.read words = .ok a) :
    ∃ ws, CommandLine.classify words = .ok ws ∧ LaunchContract env a ws (plan env words) := by
  obtain ⟨ws, hws, hgiven⟩ := CommandLine.value_of_read h
  refine ⟨ws, hws, plan_refused_iff h, fun l hl => ?_, fun l hl => ?_, fun l hl => ?_⟩
  all_goals obtain ⟨t, ht, hlhost, hlport, hllevel, hlroot⟩ := plan_eq_ok h hl
  · obtain ⟨v, hv, hkept⟩ := layered_of_effective (f := .host) hgiven ht rfl
    have hvalue : l.host = v := hlhost.trans hkept
    exact hvalue ▸ hv
  · obtain ⟨v, hv, hkept⟩ := layered_of_effective (f := .port) hgiven ht rfl
    have hvalue : l.port = v := hlport.trans hkept
    exact hvalue ▸ hv
  · obtain ⟨v, hv, hkept⟩ := layered_of_effective (f := .logLevel) hgiven ht rfl
    have hlevel : t.logLevel = Text.upper v.asText := Json.text.inj hkept
    rw [hlevel] at hllevel hlroot
    exact ⟨v, hv, hllevel, hlroot⟩

end Launch

end Bellman
