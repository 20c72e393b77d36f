import NriPrometheus.Endpoints

/-!
# Processing rules, scraped units and the renaming stages

Mirrors the types of `internal/integration/rules.go` and its three simplest stages.
A `TargetMetrics` (a target unit) is a target and the metrics of one scrape of it;
every stage maps a unit to a unit.

* `addAttributes` copies the attributes of each rule whose `MetricPrefix` starts a
  metric's name onto the metric, in rule order, so the last such rule that sets a label
  decides its value (`addAttributes_metrics`).
* `renameMetrics` renames a metric whose name equals a rule's `FromMetric`, rule by
  rule, so that a renamed metric can be renamed again by a later rule.
* `reNamespaceMetrics` puts the target's metric namespace and a dot before every name.

The attribute stages leave every metric's name and value where they were
(`addAttributes_shape`), and the naming stages leave the attributes alone.
-/

namespace NriPrometheus

open LabelSet

/-- `Metric`, by the fields the rules read: a series' name, value and labels. -/
structure Metric where
  name : String
  value : Float
  attributes : LabelSet

/-- `TargetMetrics`: a target and the metrics of one scrape of it. -/
structure TargetMetrics where
  target : Target
  metrics : List Metric

/-- A metric's name and value: what the attribute stages keep. -/
def Metric.shape (m : Metric) : String × Float := (m.name, m.value)

/-- `RenameRule`: for metrics under `MetricPrefix`, copy each attribute named by a key of
`Attributes` to the attribute named by its value. The map is given by its entries, with
distinct keys. -/
structure RenameRule where
  metricPrefix : String
  attributes : List (String × String)

/-- `IgnoreRule`: skip metrics under any of `Prefixes` unless they are under one of
`Except`. -/
structure IgnoreRule where
  prefixes : List String
  except : List String

/-- `CopyAttributesRule`, as configured. -/
structure CopyAttributesRule where
  fromMetric : String
  toMetrics : List String
  matchBy : List String
  attributes : List String

/-- `AddAttributesRule`: add `Attributes` to the metrics under `MetricPrefix`. -/
structure AddAttributesRule where
  metricPrefix : String
  attributes : LabelSet

/-- `RenameMetricRule`: rename the metrics called `FromMetric` to `ToMetric`. -/
structure RenameMetricRule where
  fromMetric : String
  toMetric : String

/-- `ProcessingRule`: one bundle of rules of every kind. Its `Description` is read by no
stage. -/
structure ProcessingRule where
  addAttributes : List AddAttributesRule
  renameAttributes : List RenameRule
  renameMetrics : List RenameMetricRule
  ignoreMetrics : List IgnoreRule
  copyAttributes : List CopyAttributesRule

/-- `DecorateRule`: metrics named `Source` decorate the metrics under a `Dest` prefix
when they agree on the `Join` labels; only the `Attributes` labels are copied, or all
of them when it is empty. Go keeps `Join` and `Attributes` as sets; their keys are
listed here. -/
structure DecorateRule where
  source : String
  dest : List String
  join : List String
  attributes : List String

/-- The attributes a metric named `name` has after the add rules, in order. -/
def addedAttributes (rules : List AddAttributesRule) (name : String) (a : LabelSet) : LabelSet :=
  rules.foldl (fun a rr => if hasPrefix name rr.metricPrefix then accumulate a rr.attributes else a) a

/-- `AddAttributes`. -/
def addAttributes (tm : TargetMetrics) (rules : List AddAttributesRule) : TargetMetrics :=
  if rules.isEmpty then tm
  else { tm with metrics := tm.metrics.map fun m =>
    { m with attributes := addedAttributes rules m.name m.attributes } }

/-- The name a metric called `name` has after the rename rules, in order; a rule with an
empty `ToMetric` is skipped. -/
def renameMetricName (rules : List RenameMetricRule) (name : String) : String :=
  rules.foldl (fun n rr => if rr.toMetric = "" then n else if n = rr.fromMetric then rr.toMetric else n)
    name

/-- `RenameMetrics`. -/
def renameMetrics (tm : TargetMetrics) (rules : List RenameMetricRule) : TargetMetrics :=
  { tm with metrics := tm.metrics.map fun m => { m with name := renameMetricName rules m.name } }

/-- The name `ReNamespaceMetrics` gives a metric called `name` of a target with namespace
`ns`: `fmt.Sprintf("%s.%s", ns, name)`, or `name` when `ns` is empty. -/
def namespaced (ns name : String) : String := if ns ≠ "" then ns ++ "." ++ name else name

/-- `ReNamespaceMetrics`. -/
def reNamespaceMetrics (tm : TargetMetrics) : TargetMetrics :=
  { tm with metrics := tm.metrics.map fun m =>
    if tm.target.metricNamespace ≠ "" then
      { m with name := tm.target.metricNamespace ++ "." ++ m.name }
    else m }

/-- A stage that rewrites each metric by its index keeps what `g` reads when each rewrite
does. -/
theorem map_mapIdx_of {α β γ : Type} {f : ℕ → α → β} {g : β → γ} {g' : α → γ} {l : List α}
    (h : ∀ i a, g (f i a) = g' a) : (l.mapIdx f).map g = l.map g' := by
  apply List.ext_getElem?; intro i; simp [Function.comp_def, h]

@[simp] theorem addAttributes_target (tm : TargetMetrics) (rules : List AddAttributesRule) :
    (addAttributes tm rules).target = tm.target := by
  unfold addAttributes; split <;> rfl

theorem addAttributes_metrics_congr {tm tm' : TargetMetrics} (h : tm.metrics = tm'.metrics)
    (rules : List AddAttributesRule) :
    (addAttributes tm rules).metrics = (addAttributes tm' rules).metrics := by
  unfold addAttributes; split <;> simp [h]

theorem addAttributes_shape (tm : TargetMetrics) (rules : List AddAttributesRule) :
    (addAttributes tm rules).metrics.map Metric.shape = tm.metrics.map Metric.shape := by
  unfold addAttributes; split <;> simp [Function.comp_def, Metric.shape]

/-- The value of a key after the add rules: that of the last rule under whose prefix the
name falls and which sets the key, or the old one. -/
theorem addedAttributes_apply (name : String) (k : String) :
    ∀ (rules : List AddAttributesRule) (a : LabelSet), addedAttributes rules name a k =
      (((rules.filter fun rr => hasPrefix name rr.metricPrefix).reverse.findSome?
        fun rr => rr.attributes k).or (a k))
  | [], _ => rfl
  | rr :: rest, a => by
    rw [addedAttributes, List.foldl_cons, ← addedAttributes, addedAttributes_apply name k rest,
      List.filter_cons]
    split
    · rw [List.reverse_cons, List.findSome?_append, Option.or_assoc]
      simp only [accumulate_eq_or, List.findSome?_cons, List.findSome?_nil, *, if_true]
      cases rr.attributes k <;> rfl
    · simp only [*, Bool.false_eq_true, if_false]

/-- **`AddAttributes`: the last matching rule wins.** Every metric keeps its place, name and
value, and each of its labels takes the value of the last rule, in configured order, whose
`MetricPrefix` starts the metric's name and which sets that label; a label no such rule sets
keeps its value. -/
theorem addAttributes_metrics (tm : TargetMetrics) (rules : List AddAttributesRule) :
    (addAttributes tm rules).metrics = tm.metrics.map fun m => { m with attributes := (fun k =>
      ((rules.filter fun rr => hasPrefix m.name rr.metricPrefix).reverse.findSome?
        fun rr => rr.attributes k).or (m.attributes k)) } := by
  unfold addAttributes
  split
  · rename_i h; simp [List.isEmpty_iff.1 h]
  · simp only [List.map_inj_left]
    intro m _
    congr 1; funext k; exact addedAttributes_apply _ _ _ _
@[simp] theorem renameMetrics_target (tm : TargetMetrics) (rules : List RenameMetricRule) :
    (renameMetrics tm rules).target = tm.target := rfl

theorem renameMetrics_metrics (tm : TargetMetrics) (rules : List RenameMetricRule) :
    (renameMetrics tm rules).metrics =
      tm.metrics.map fun m => { m with name := renameMetricName rules m.name } := rfl

theorem reNamespaceMetrics_metrics (tm : TargetMetrics) :
    (reNamespaceMetrics tm).metrics =
      tm.metrics.map fun m => { m with name := namespaced tm.target.metricNamespace m.name } := by
  unfold reNamespaceMetrics namespaced
  split <;> simp_all

end NriPrometheus
