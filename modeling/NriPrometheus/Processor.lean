import NriPrometheus.Filter
import NriPrometheus.Rename
import NriPrometheus.CopyAttributes

/-!
# The processing of one target unit

Mirrors the body of `RuleProcessor`: the rule bundles are flattened once into one list
per kind of rule, the copy-attribute rules becoming `DecorateRule`s, and every unit the
worker receives goes through `Filter`, `AddAttributes`, `Decorate`, `Rename`,
`RenameMetrics` and `ReNamespaceMetrics`, in that order.

* `flattenRules_eq`: each flattened list is the bundles' lists of its kind, concatenated in
  order; `BundleProcessing` is the processing the bundles describe, stage after stage.
* `ruleProcessor_shape`: the emitted metrics are the metrics whose original names the
  bundles' ignore rules do not ignore, in their order and with their values, each renamed by
  the bundles' metric rename rules and then put under the target's namespace. The attribute
  stages move no metric.
* `ruleProcessor_withPassword`: the emitted metrics do not depend on the password in the
  target's URL.
* `ruleProcessor_target`: the emitted target is the scraped one, with its metadata saved when
  some metric is emitted.
-/

namespace NriPrometheus

open LabelSet

/-- The rule lists `RuleProcessor` flattens from the bundles. -/
structure FlatRules where
  renameRules : List RenameRule
  renameMetricRules : List RenameMetricRule
  ignoreRules : List IgnoreRule
  decorateRules : List DecorateRule
  addAttributesRules : List AddAttributesRule

/-- The `DecorateRule` of a configured copy rule: `MatchBy` and `Attributes` become the key
sets `Join` and `Attributes`. -/
def CopyAttributesRule.toDecorateRule (car : CopyAttributesRule) : DecorateRule :=
  ⟨car.fromMetric, car.toMetrics, car.matchBy, car.attributes⟩

/-- The body of `RuleProcessor`'s loop over the bundles. -/
def flattenStep (fr : FlatRules) (pr : ProcessingRule) : FlatRules :=
  { renameRules := fr.renameRules ++ pr.renameAttributes
    ignoreRules := fr.ignoreRules ++ pr.ignoreMetrics
    addAttributesRules := fr.addAttributesRules ++ pr.addAttributes
    decorateRules := fr.decorateRules ++ pr.copyAttributes.map CopyAttributesRule.toDecorateRule
    renameMetricRules := fr.renameMetricRules ++ pr.renameMetrics }

/-- The loop of `RuleProcessor` over the bundles. -/
def flattenRules (processingRules : List ProcessingRule) : FlatRules :=
  processingRules.foldl flattenStep ⟨[], [], [], [], []⟩

/-- The body of the worker's loop on one `pair`, under the map enumeration `ord`. -/
def processPair (ord : MapOrder) (fr : FlatRules) (pair : TargetMetrics) : TargetMetrics :=
  let pair := filter pair fr.ignoreRules
  let pair := addAttributes pair fr.addAttributesRules
  let pair := decorate pair fr.decorateRules
  let pair := rename ord pair fr.renameRules
  let pair := renameMetrics pair fr.renameMetricRules
  reNamespaceMetrics pair

/-- What the processor returned by `RuleProcessor` makes of one unit. -/
def ruleProcessor (ord : MapOrder) (processingRules : List ProcessingRule) :
    TargetMetrics → TargetMetrics :=
  processPair ord (flattenRules processingRules)

theorem foldl_flattenStep : ∀ (processingRules : List ProcessingRule) (fr : FlatRules),
    processingRules.foldl flattenStep fr =
      ⟨fr.renameRules ++ processingRules.flatMap (·.renameAttributes),
        fr.renameMetricRules ++ processingRules.flatMap (·.renameMetrics),
        fr.ignoreRules ++ processingRules.flatMap (·.ignoreMetrics),
        fr.decorateRules ++ processingRules.flatMap fun pr =>
          pr.copyAttributes.map CopyAttributesRule.toDecorateRule,
        fr.addAttributesRules ++ processingRules.flatMap (·.addAttributes)⟩
  | [], _ => by simp
  | pr :: rest, fr => by
    rw [List.foldl_cons, foldl_flattenStep rest]
    simp [flattenStep]

/-- **The rule lists are flattened once, bundle after bundle**: each list is the bundles'
lists of its kind concatenated in order, the copy rules read as `DecorateRule`s with `MatchBy`
as `Join` and `Attributes` as `Attributes`. -/
theorem flattenRules_eq (processingRules : List ProcessingRule) :
    flattenRules processingRules =
      ⟨processingRules.flatMap (·.renameAttributes), processingRules.flatMap (·.renameMetrics),
        processingRules.flatMap (·.ignoreMetrics),
        processingRules.flatMap fun pr =>
          pr.copyAttributes.map fun car => ⟨car.fromMetric, car.toMetrics, car.matchBy, car.attributes⟩,
        processingRules.flatMap (·.addAttributes)⟩ := by
  rw [flattenRules, foldl_flattenStep]
  simp only [List.nil_append]
  rfl

/-- The processings of the unit `u` that the bundles describe, one per enumeration order of
the rename maps: the rule lists of the bundles concatenated in order, the copy rules read as
`DecorateRule`s, and the stages `Filter`, `AddAttributes`, `Decorate`, `Rename`,
`RenameMetrics` and `ReNamespaceMetrics` in this order. -/
def BundleProcessing (processingRules : List ProcessingRule) (u v : TargetMetrics) : Prop :=
  ∃ ord : MapOrder, v = reNamespaceMetrics (renameMetrics
    (rename ord
      (decorate
        (addAttributes (filter u (processingRules.flatMap (·.ignoreMetrics)))
          (processingRules.flatMap (·.addAttributes)))
        (processingRules.flatMap fun pr =>
          pr.copyAttributes.map fun car => ⟨car.fromMetric, car.toMetrics, car.matchBy, car.attributes⟩))
      (processingRules.flatMap (·.renameAttributes)))
    (processingRules.flatMap (·.renameMetrics)))

/-- `RuleProcessor`'s processings of a unit are those the bundles describe. -/
theorem bundleProcessing_iff (processingRules : List ProcessingRule) (u v : TargetMetrics) :
    BundleProcessing processingRules u v ↔ ∃ ord, ruleProcessor ord processingRules u = v := by
  simp only [BundleProcessing, ruleProcessor, processPair, flattenRules_eq, eq_comm]

theorem processPair_shape (ord : MapOrder) (fr : FlatRules) (tm : TargetMetrics) :
    (processPair ord fr tm).metrics.map Metric.shape =
      (tm.metrics.filter fun m => !shouldIgnore fr.ignoreRules m.name).map
        fun m => (namespaced tm.target.metricNamespace (renameMetricName fr.renameMetricRules m.name),
          m.value) := by
  let u := rename ord (decorate (addAttributes (filter tm fr.ignoreRules) fr.addAttributesRules)
    fr.decorateRules) fr.renameRules
  have hns : u.target.metricNamespace = tm.target.metricNamespace := by simp [u]
  calc (processPair ord fr tm).metrics.map Metric.shape
      = u.metrics.map fun m => (namespaced tm.target.metricNamespace
          (renameMetricName fr.renameMetricRules m.name), m.value) := by
        simp only [processPair, reNamespaceMetrics_metrics, renameMetrics_metrics,
          renameMetrics_target, List.map_map]
        rw [← hns]; rfl
    _ = (u.metrics.map Metric.shape).map fun p => (namespaced tm.target.metricNamespace
          (renameMetricName fr.renameMetricRules p.1), p.2) := by simp [Metric.shape]
    _ = _ := by
        rw [rename_shape, decorate_shape, addAttributes_shape, filter_metrics, List.map_map]; rfl

/-- **Which metrics are emitted, and under which names.** The metrics whose original names
the bundles' ignore rules do not ignore are emitted in their order and with their values;
each is renamed by the bundles' metric rename rules, in order, a rule with an empty
`ToMetric` being skipped, and then put under the target's namespace. -/
theorem ruleProcessor_shape (ord : MapOrder) (processingRules : List ProcessingRule)
    (tm : TargetMetrics) :
    (ruleProcessor ord processingRules tm).metrics.map Metric.shape =
      (tm.metrics.filter fun m => !shouldIgnore (processingRules.flatMap (·.ignoreMetrics)) m.name).map
        fun m => (namespaced tm.target.metricNamespace
          ((processingRules.flatMap (·.renameMetrics)).foldl
            (fun n rr => if rr.toMetric = "" then n else if n = rr.fromMetric then rr.toMetric else n)
            m.name), m.value) := by
  rw [ruleProcessor, processPair_shape, flattenRules_eq]
  rfl

/-- The emitted metrics see the target only through its metadata and its namespace. -/
theorem processPair_congr (ord : MapOrder) (fr : FlatRules) {tm tm' : TargetMetrics}
    (hm : tm.metrics = tm'.metrics) (hmd : tm.target.metadata.1 = tm'.target.metadata.1)
    (hns : tm.target.metricNamespace = tm'.target.metricNamespace) :
    (processPair ord fr tm).metrics = (processPair ord fr tm').metrics := by
  have hf : (filter tm fr.ignoreRules).metrics = (filter tm' fr.ignoreRules).metrics := by
    simp [filter_metrics, hm]
  have hdec : (decorate (addAttributes (filter tm fr.ignoreRules) fr.addAttributesRules) fr.decorateRules).metrics =
      (decorate (addAttributes (filter tm' fr.ignoreRules) fr.addAttributesRules) fr.decorateRules).metrics := by
    simp only [decorate_metrics, addAttributes_target, filter_target, hmd,
      copyAttributes_metrics_congr (addAttributes_metrics_congr hf _)]
  simp only [processPair, reNamespaceMetrics_metrics, renameMetrics_metrics, renameMetrics_target,
    rename_target, decorate_metricNamespace, addAttributes_target, filter_target, hns,
    rename_metrics_congr ord hdec]

/-- **A URL password never reaches an emitted metric**: two units that differ only in the
password of the target's URL, before the target's metadata is built, give the same metrics. -/
theorem ruleProcessor_withPassword (ord : MapOrder) (processingRules : List ProcessingRule)
    (tm : TargetMetrics) (ht : tm.target.cachedMetadata = none) (n p p' : String) :
    (ruleProcessor ord processingRules ⟨tm.target.withPassword n p, tm.metrics⟩).metrics =
      (ruleProcessor ord processingRules ⟨tm.target.withPassword n p', tm.metrics⟩).metrics :=
  processPair_congr ord _ rfl (metadata_withPassword ht n p p') rfl

/-- The unit of `TestDecorate`: a target with user and password in its URL, and two
metrics. -/
def decorateTestUnit : TargetMetrics :=
  ⟨⟨"a_simple_target", ⟨"", "", (empty.set "hello" "friend").set "bye" "boy"⟩,
      { scheme := "https", host := "newrelic.com" }, none, ""⟩,
    [⟨"metric1", 3, ((empty.set "md1" "v1").set "md2" "v2").set "attr1" "val1"⟩,
      ⟨"metric2", 3, ((empty.set "md3" "v3").set "md4" "v4").set "attr2" "val2"⟩]⟩

/-- `TestDecorate`'s unit with a debugging series, and two bundles with rules of every kind
for it: the series is ignored, `metric2` decorates `metric1` with `md3`, `attr1` of
`metric1` is copied to `attribute1`, every metric gets `env`, and `metric1` is renamed. -/
def bundleTest : TargetMetrics × List ProcessingRule :=
  (⟨decorateTestUnit.target, decorateTestUnit.metrics ++ [⟨"debug_metric", 1, empty.set "md1" "v1"⟩]⟩,
    [⟨[⟨"metric", empty.set "env" "prod"⟩], [⟨"metric1", [("attr1", "attribute1")]⟩], [],
        [⟨["debug_"], []⟩], [⟨"metric2", ["metric1"], [], ["md3"]⟩]⟩,
      ⟨[], [], [⟨"metric1", "first_metric"⟩], [], []⟩])

/-- Two passwords in the URL of `TestDecorate`'s target give the same metrics. -/
theorem ruleProcessor_withPassword_test :
    bundleTest.1.target.cachedMetadata = none ∧
      (ruleProcessor .listed bundleTest.2 ⟨bundleTest.1.target.withPassword "user" "password",
          bundleTest.1.metrics⟩).metrics =
        (ruleProcessor .listed bundleTest.2 ⟨bundleTest.1.target.withPassword "user" "hunter2",
          bundleTest.1.metrics⟩).metrics :=
  ⟨rfl, ruleProcessor_withPassword .listed bundleTest.2 bundleTest.1 rfl "user" "password" "hunter2"⟩

theorem processPair_target (ord : MapOrder) (fr : FlatRules) (tm : TargetMetrics) :
    (processPair ord fr tm).target =
      if (tm.metrics.filter fun m => !shouldIgnore fr.ignoreRules m.name).isEmpty
      then tm.target else tm.target.metadata.2 := by
  let u := addAttributes (filter tm fr.ignoreRules) fr.addAttributesRules
  have hnil : (copyAttributes u fr.decorateRules).metrics.isEmpty =
      (tm.metrics.filter fun m => !shouldIgnore fr.ignoreRules m.name).isEmpty := by
    have e : ∀ l : List Metric, (l.map Metric.shape).isEmpty = l.isEmpty := fun l => by cases l <;> rfl
    rw [← e, copyAttributes_shape, addAttributes_shape, filter_metrics, e]
  simp only [processPair, reNamespaceMetrics, renameMetrics_target, rename_target, decorate,
    decorateMetadata_target, copyAttributes_target, addAttributes_target, filter_target, hnil]

/-- **What processing does to the target**: the emitted unit's target is the scraped one when
the bundles' ignore rules drop every metric. Otherwise it is the scraped one with its
metadata saved: the metadata it had, or else the labels `metadataLabels` lists. Nothing else
of it changes. -/
theorem ruleProcessor_target (ord : MapOrder) (processingRules : List ProcessingRule)
    (tm : TargetMetrics) :
    (ruleProcessor ord processingRules tm).target =
      if (tm.metrics.filter fun m =>
          !shouldIgnore (processingRules.flatMap (·.ignoreMetrics)) m.name).isEmpty
      then tm.target
      else { tm.target with
        cachedMetadata := some (tm.target.cachedMetadata.getD tm.target.metadataLabels) } := by
  rw [ruleProcessor, processPair_target, flattenRules_eq, metadata_eq]

end NriPrometheus
