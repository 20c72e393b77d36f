import NriPrometheus.Rules

/-!
# The ignore rules

Mirrors `ignoreRules.shouldIgnore` and `Filter`. The loop reads the rules in order and
stops at the first rule that has a matching `Except` (the name is kept) or a matching
prefix (the name is dropped). Past the last rule, with no rule matching, the name is
dropped iff no rule had prefixes and some rule had exceptions: an `Except` list on its
own is a whitelist.

* `shouldIgnore_eq`: that reading in closed form, through the first deciding rule.
* `shouldIgnore_order`: so an `Except` does not win against the prefix of an earlier
  rule, and the outcome depends on the order of the rules.
* `filter_metrics`: `Filter` keeps, in order, exactly the metrics whose names are not
  ignored.
-/

namespace NriPrometheus

/-- `ignoreRules.shouldIgnore`, with the two counters of the loop. -/
def shouldIgnore (rules : List IgnoreRule) (name : String) : Bool :=
  go rules 0 0
where
  /-- The loop over the rules left, with the prefixes and exceptions counted so far. -/
  go : List IgnoreRule → ℕ → ℕ → Bool
  | [], prefixesLen, exceptRulesLen => if prefixesLen > 0 then false else exceptRulesLen > 0
  | rule :: rest, prefixesLen, exceptRulesLen =>
    let exceptRulesLen := exceptRulesLen + rule.except.length
    if rule.except.any (hasPrefix name) then false
    else
      let prefixesLen := prefixesLen + rule.prefixes.length
      if rule.prefixes.any (hasPrefix name) then true
      else go rest prefixesLen exceptRulesLen

/-- `Filter`. -/
def filter (tm : TargetMetrics) (rules : List IgnoreRule) : TargetMetrics :=
  if rules.isEmpty then tm
  else { tm with metrics := tm.metrics.filter fun m => !shouldIgnore rules m.name }

/-- A rule decides `name` when one of its exceptions or one of its prefixes starts it. -/
def IgnoreRule.decides (name : String) (r : IgnoreRule) : Bool :=
  r.except.any (hasPrefix name) || r.prefixes.any (hasPrefix name)

/-- What `shouldIgnore` decides when no rule matches: drop iff the rules have no
prefixes and some exceptions. -/
def whitelistOnly (rules : List IgnoreRule) : Bool :=
  rules.all (·.prefixes.isEmpty) && rules.any (!·.except.isEmpty)

theorem shouldIgnore_go_eq (name : String) (rules : List IgnoreRule) (p e : ℕ) :
    shouldIgnore.go name rules p e =
      match rules.find? (IgnoreRule.decides name) with
      | some r => !r.except.any (hasPrefix name)
      | none =>
        (decide (p = 0) && rules.all (·.prefixes.isEmpty)) &&
          (decide (0 < e) || rules.any (!·.except.isEmpty)) := by
  induction rules generalizing p e with
  | nil => cases p <;> simp [shouldIgnore.go]
  | cons r rest ih =>
    simp only [shouldIgnore.go, List.find?_cons, IgnoreRule.decides]
    by_cases hx : r.except.any (hasPrefix name) <;> by_cases hp : r.prefixes.any (hasPrefix name) <;>
      simp only [hx, hp, if_true, if_false, Bool.or_true, Bool.or_false, Bool.not_true, Bool.not_false,
        Bool.false_eq_true, ih]
    rcases r with ⟨_ | _, _ | _⟩ <;> simp [show ∀ a b : ℕ, 0 < a + (b + 1) from fun _ _ => by omega]

/-- **`shouldIgnore` in closed form**: the first rule that decides the name decides it,
and with none, the whitelist case applies. -/
theorem shouldIgnore_eq (rules : List IgnoreRule) (name : String) :
    shouldIgnore rules name =
      match rules.find? (IgnoreRule.decides name) with
      | some r => !r.except.any (hasPrefix name)
      | none => whitelistOnly rules := by
  simp [shouldIgnore, shouldIgnore_go_eq, whitelistOnly]

@[simp] theorem shouldIgnore_nil (name : String) : shouldIgnore [] name = false := rfl

/-- An `Except` in a later rule than a matching prefix does not keep the metric, while the
same two rules in the other order do. -/
theorem shouldIgnore_order :
    shouldIgnore [⟨["a"], []⟩, ⟨[], ["a"]⟩] "a" = true ∧
      shouldIgnore [⟨[], ["a"]⟩, ⟨["a"], []⟩] "a" = false := by decide

/-- **`Filter` keeps, in order, the metrics whose names are not ignored**, also on the fast
path with no rules. -/
theorem filter_metrics (tm : TargetMetrics) (rules : List IgnoreRule) :
    (filter tm rules).metrics = tm.metrics.filter fun m => !shouldIgnore rules m.name := by
  unfold filter
  split
  · rename_i h; rw [List.isEmpty_iff.1 h]; simp
  · rfl

@[simp] theorem filter_target (tm : TargetMetrics) (rules : List IgnoreRule) :
    (filter tm rules).target = tm.target := by
  unfold filter; split <;> rfl

end NriPrometheus
