import NriPrometheus.Processor
import Mathlib.Data.List.Forall2

/-!
# Where an emitted metric's labels come from

The stages of `RuleProcessor` write labels in place: `AddAttributes` and `Decorate` merge
label sets over a metric's own, `Rename` copies values between the labels of one metric, and
the other stages leave labels alone. None of them deletes a label, and every value they write
is read from a label set that the unit, the rules or the target already hold.

* `copyAttributes_inv`: a property of label sets that every merge of `CopyAttributes` keeps
  holds of its result, along chains of decorations too.
* `copyAttributes_values`: `CopyAttributes` writes a label only with the value the same label
  had, when the call began, on the metric itself or on a metric named as a rule's source.
* `ruleProcessor_keepsLabels`: every emitted metric carries every label it was scraped with.
* `ruleProcessor_metadata`: every emitted metric carries the target's metadata, with the
  metadata's value unless an attribute rename writes that label.
* `ruleProcessor_values`: every emitted label value is a value of a metric `Filter` keeps, of
  an `AddAttributes` rule or of the target's metadata.
-/

namespace NriPrometheus

open LabelSet

theorem DecorateRule.pick_eq_some {r : DecorateRule} {s : LabelSet} {k v : String}
    (h : r.pick s k = some v) : s k = some v := by
  unfold DecorateRule.pick at h
  split at h
  · exact h
  · rw [restrict_apply] at h; split at h
    · exact h
    · cases h

/-- A value after a merge comes from the merged-in source or from the destination. -/
theorem accumulate_pick_eq_some {r : DecorateRule} {d s : LabelSet} {k v : String}
    (h : accumulate d (r.pick s) k = some v) : s k = some v ∨ d k = some v := by
  rw [accumulate_eq_or, Option.or_eq_some] at h
  exact h.imp DecorateRule.pick_eq_some And.right

theorem heapOf_eq_some {ms : List Metric} {x : ℕ} {k v : String} (h : heapOf ms x k = some v) :
    ∃ m, ms[x]? = some m ∧ m.attributes k = some v := by
  cases hx : ms[x]? with
  | none => simp [heapOf, hx] at h
  | some m => exact ⟨m, rfl, by simpa [heapOf, hx] using h⟩

section CopyInvariant

variable (tm : TargetMetrics) (rules : List DecorateRule) (Q : ℕ → LabelSet → Prop)

/-- A property of the label set at each position that every merge of `CopyAttributes` keeps:
merging what a rule picks from the set of a metric named as the rule's source into the set
at `i` keeps the property at `i`. -/
def MergeClosed : Prop :=
  ∀ r ∈ rules, ∀ i j d s m, Q i d → Q j s → tm.metrics[j]? = some m → m.name = r.source →
    Q i (accumulate d (r.pick s))

variable {tm rules Q}

theorem joinFrom_inv (hQ : MergeClosed tm rules Q) {r : DecorateRule} (hr : r ∈ rules) {j : ℕ}
    (hj : j ∈ positionsOf r.source 0 tm.metrics) (i : ℕ) (h : Heap) (hh : ∀ x, Q x (h x)) (x : ℕ) :
    Q x (joinFrom h r i h j x) := by
  obtain ⟨k, m, hk, hn, rfl⟩ := mem_positionsOf.1 hj
  unfold joinFrom
  rcases hjn : join (h (0 + k)) (h i) r.join with _ | toAdd
  · exact hh x
  · obtain ⟨rfl, -⟩ := join_eq_some_iff.1 hjn
    simp only [merge_eq_pick]
    by_cases hx : x = i
    · subst hx
      rw [Function.update_same]
      exact hQ r hr x _ _ _ m (hh x) (hh _) (by simpa using hk) hn
    · rw [Function.update_noteq hx]; exact hh x

theorem decorateMetric_inv (hQ : MergeClosed tm rules Q) (i : ℕ) (m : Metric) (h : Heap)
    (hh : ∀ x, Q x (h x)) : ∀ x, Q x (decorateMetric (fun h => h) tm.metrics rules i m h x) := by
  unfold decorateMetric
  refine List.foldlRecOn (motive := fun h : Heap => ∀ x, Q x (h x)) _ _ _ hh fun h hh r hr => ?_
  exact List.foldlRecOn (motive := fun h : Heap => ∀ x, Q x (h x)) _ _ _ hh fun h hh j hj =>
    joinFrom_inv hQ (List.mem_of_mem_filter hr) hj i h hh

theorem foldMetrics_inv {step : ℕ → Metric → Heap → Heap} (P : Heap → Prop)
    (hs : ∀ k m h, P h → P (step k m h)) : ∀ (i : ℕ) (ms : List Metric) (h : Heap), P h →
      P (foldMetrics step i ms h)
  | _, [], _, hh => hh
  | i, m :: ms, h, hh => foldMetrics_inv P hs (i + 1) ms _ (hs i m h hh)

/-- **An invariant of every merge holds of the result of `CopyAttributes`**, at every
position, chains included: the result is the metrics with the attribute sets of a heap all
of whose sets satisfy it. -/
theorem copyAttributes_inv (hQ : MergeClosed tm rules Q) (h0 : ∀ x, Q x (heapOf tm.metrics x)) :
    ∃ H : Heap, (∀ x, Q x (H x)) ∧ (copyAttributes tm rules).metrics = withHeap tm.metrics H :=
  ⟨_, foldMetrics_inv (fun h => ∀ x, Q x (h x)) (fun k m h hh => decorateMetric_inv hQ k m h hh)
    0 tm.metrics _ h0, by rw [copyAttributes_live]; rfl⟩

end CopyInvariant

/-- **`CopyAttributes` invents no label value**: every label of a metric after it holds the
value the same label had, when the call began, on the metric itself or on a metric named as
the source of a rule. This holds along chains of decorations too. -/
theorem copyAttributes_values (tm : TargetMetrics) (rules : List DecorateRule) {i : ℕ} {m' : Metric}
    (hm' : (copyAttributes tm rules).metrics[i]? = some m') {k v : String}
    (hv : m'.attributes k = some v) :
    ∃ j m, tm.metrics[j]? = some m ∧ m.attributes k = some v ∧ (j = i ∨ ∃ r ∈ rules, m.name = r.source) := by
  -- the origin of every value of the label set at position `x`
  let Q : ℕ → LabelSet → Prop := fun x a => ∀ k v, a k = some v →
    ∃ j m, tm.metrics[j]? = some m ∧ m.attributes k = some v ∧ (j = x ∨ ∃ r ∈ rules, m.name = r.source)
  have hQ : MergeClosed tm rules Q := by
    intro r hr x j d s m hd hs hjm hn k v hkv
    rcases accumulate_pick_eq_some hkv with hsk | hdk
    · obtain ⟨j', m', hj', hk', rfl | hsrc⟩ := hs k v hsk
      · rw [hjm] at hj'; cases hj'
        exact ⟨_, m, hjm, hk', .inr ⟨r, hr, hn⟩⟩
      · exact ⟨j', m', hj', hk', .inr hsrc⟩
    · exact hd k v hdk
  obtain ⟨H, hH, heq⟩ := copyAttributes_inv hQ fun x k v hkv =>
    (heapOf_eq_some hkv).elim fun m ⟨hx, hmk⟩ => ⟨x, m, hx, hmk, .inl rfl⟩
  rw [heq, withHeap, List.getElem?_mapIdx, Option.map_eq_some'] at hm'
  obtain ⟨m, -, rfl⟩ := hm'
  exact hH i k v hv

/-- In the chain `A → B → C`, the label `a` that `C` receives is `A`'s. -/
theorem copyAttributes_values_chain :
    ∃ m', (copyAttributes chainUnit.1 chainUnit.2).metrics[2]? = some m' ∧ m'.attributes "a" = some "1" ∧
      ∃ j m, chainUnit.1.metrics[j]? = some m ∧ m.attributes "a" = some "1" ∧
        (j = 2 ∨ ∃ r ∈ chainUnit.2, m.name = r.source) :=
  ⟨_, rfl, by decide, copyAttributes_values _ _ rfl (by decide)⟩

/-! ## Labels are never removed -/

/-- `m'` carries every label `m` carries. -/
def KeepsLabels (m m' : Metric) : Prop := ∀ k, (m.attributes k).isSome → (m'.attributes k).isSome

theorem keepsLabels_refl (m : Metric) : KeepsLabels m m := fun _ => id

theorem forall₂_keepsLabels_trans {l₁ l₂ l₃ : List Metric} (h₁ : List.Forall₂ KeepsLabels l₁ l₂)
    (h₂ : List.Forall₂ KeepsLabels l₂ l₃) : List.Forall₂ KeepsLabels l₁ l₃ := by
  induction h₁ generalizing l₃ with
  | nil => exact h₂
  | cons h t ih =>
    cases h₂ with
    | cons h' t' => exact .cons (fun k hk => h' k (h k hk)) (ih t')

theorem forall₂_mapIdx {R : Metric → Metric → Prop} :
    ∀ {l : List Metric} {f : ℕ → Metric → Metric}, (∀ i m, l[i]? = some m → R m (f i m)) →
      List.Forall₂ R l (l.mapIdx f)
  | [], _, _ => .nil
  | m :: l, f, h => by
    rw [List.mapIdx_cons]
    exact .cons (h 0 m (by simp)) (forall₂_mapIdx fun i m' hm' => h (i + 1) m' (by simpa using hm'))

theorem addAttributes_keepsLabels (tm : TargetMetrics) (rules : List AddAttributesRule) :
    List.Forall₂ KeepsLabels tm.metrics (addAttributes tm rules).metrics := by
  unfold addAttributes
  split
  · exact List.forall₂_same.2 fun m _ => keepsLabels_refl m
  · exact List.forall₂_map_right_iff.2 (List.forall₂_same.2 fun m _ k hk => by
      simp [addedAttributes_apply, hk])

theorem copyAttributes_keepsLabels (tm : TargetMetrics) (rules : List DecorateRule) :
    List.Forall₂ KeepsLabels tm.metrics (copyAttributes tm rules).metrics := by
  obtain ⟨H, hH, heq⟩ := @copyAttributes_inv tm rules
    (fun x a => ∀ k, (heapOf tm.metrics x k).isSome → (a k).isSome)
    (fun r _ i j d s m hd _ _ _ k hk => by simp [accumulate_eq_or, hd k hk]) (fun _ _ => id)
  rw [heq]
  exact forall₂_mapIdx fun i m hm k hk => hH i k (by simpa [heapOf, hm] using hk)

theorem decorate_keepsLabels (tm : TargetMetrics) (rules : List DecorateRule) :
    List.Forall₂ KeepsLabels tm.metrics (decorate tm rules).metrics := by
  rw [decorate_metrics]
  exact List.forall₂_map_right_iff.2 <| (copyAttributes_keepsLabels tm rules).imp
    fun m m' h k hk => by simp [accumulate_eq_or, h k hk]

theorem rename_keepsLabels (ord : MapOrder) (tm : TargetMetrics) (rules : List RenameRule) :
    List.Forall₂ KeepsLabels tm.metrics (rename ord tm rules).metrics := by
  unfold rename
  split
  · exact List.forall₂_same.2 fun m _ => keepsLabels_refl m
  · exact forall₂_mapIdx fun mi m _ k => (renamedAttributes_frame ord mi m.name rules 0 _ k).1

/-- **No stage of `RuleProcessor` removes a label**: the metrics it emits are the metrics
`Filter` keeps, in order, each carrying every label it was scraped with. -/
theorem ruleProcessor_keepsLabels (ord : MapOrder) (processingRules : List ProcessingRule)
    (tm : TargetMetrics) :
    List.Forall₂ KeepsLabels
      (tm.metrics.filter fun m => !shouldIgnore (flattenRules processingRules).ignoreRules m.name)
      (ruleProcessor ord processingRules tm).metrics := by
  let fr := flattenRules processingRules
  let u := addAttributes (filter tm fr.ignoreRules) fr.addAttributesRules
  simp only [ruleProcessor, processPair, reNamespaceMetrics_metrics, renameMetrics_metrics,
    renameMetrics_target, ← filter_metrics]
  refine forall₂_keepsLabels_trans (addAttributes_keepsLabels _ fr.addAttributesRules) ?_
  refine forall₂_keepsLabels_trans (decorate_keepsLabels u fr.decorateRules) ?_
  refine forall₂_keepsLabels_trans (rename_keepsLabels ord _ fr.renameRules) ?_
  rw [List.map_map]
  exact List.forall₂_map_right_iff.2 (List.forall₂_same.2 fun m _ => keepsLabels_refl m)

/-! ## The target's metadata is on every emitted metric -/

/-- An emitted metric has the labels of a metric of the renamed unit: the metric renames and
the namespace change no label. -/
theorem mem_ruleProcessor {ord : MapOrder} {processingRules : List ProcessingRule}
    {tm : TargetMetrics} {m' : Metric} (hm' : m' ∈ (ruleProcessor ord processingRules tm).metrics) :
    ∃ m ∈ (rename ord (decorate (addAttributes (filter tm (flattenRules processingRules).ignoreRules)
        (flattenRules processingRules).addAttributesRules) (flattenRules processingRules).decorateRules)
        (flattenRules processingRules).renameRules).metrics, m'.attributes = m.attributes := by
  simp only [ruleProcessor, processPair, reNamespaceMetrics_metrics, renameMetrics_metrics,
    renameMetrics_target, List.map_map, List.mem_map] at hm'
  obtain ⟨m, hm, rfl⟩ := hm'
  exact ⟨m, hm, rfl⟩

theorem decorate_metadata (tm : TargetMetrics) (rules : List DecorateRule) {k v : String}
    (hmd : tm.target.metadata.1 k = some v) : ∀ m ∈ (decorate tm rules).metrics, m.attributes k = some v := by
  rw [decorate_metrics]
  intro m hm
  obtain ⟨m, -, rfl⟩ := List.mem_map.1 hm
  simp [accumulate_eq_or, hmd]

theorem mem_rename (ord : MapOrder) (tm : TargetMetrics) (rules : List RenameRule) {m' : Metric}
    (hm' : m' ∈ (rename ord tm rules).metrics) :
    ∃ mi m, tm.metrics[mi]? = some m ∧ m'.name = m.name ∧
      m'.attributes = renamedAttributes ord mi m.name 0 rules m.attributes := by
  unfold rename at hm'
  split at hm'
  · obtain ⟨mi, hmi⟩ := List.mem_iff_getElem?.1 hm'
    rename_i he
    exact ⟨mi, m', hmi, rfl, by rw [List.isEmpty_iff.1 he]; rfl⟩
  · obtain ⟨mi, hmi⟩ := List.mem_iff_getElem?.1 hm'
    simp only [List.getElem?_mapIdx, Option.map_eq_some'] at hmi
    obtain ⟨m, hm, rfl⟩ := hmi
    exact ⟨mi, m, hm, rfl, rfl⟩

/-- **Every emitted metric carries the target's metadata**: each label of the metadata
`Decorate` builds (the redacted URL, the object's name and kind, the object's labels) is on
every metric `RuleProcessor` emits, and with the metadata's value unless an attribute rename
writes that label. -/
theorem ruleProcessor_metadata (ord : MapOrder) (processingRules : List ProcessingRule)
    (tm : TargetMetrics) : ∀ m' ∈ (ruleProcessor ord processingRules tm).metrics, ∀ k v,
      tm.target.metadata.1 k = some v → (m'.attributes k).isSome ∧
        ((∀ rr ∈ (flattenRules processingRules).renameRules, ∀ p ∈ rr.attributes, p.2 ≠ k) →
          m'.attributes k = some v) := by
  intro m' hm' k v hmd
  obtain ⟨m'', hm'', ha⟩ := mem_ruleProcessor hm'
  obtain ⟨mi, m, hm, -, heq⟩ := mem_rename ord _ _ hm''
  have hdec := decorate_metadata _ (flattenRules processingRules).decorateRules
    (show (addAttributes (filter tm _) _).target.metadata.1 k = some v by simpa using hmd) m
    (List.getElem?_mem hm)
  have hf := renamedAttributes_frame ord mi m.name (flattenRules processingRules).renameRules 0
    m.attributes k
  rw [ha, heq]
  exact ⟨hf.1 (by simp [hdec]), fun hw => (hf.2 hw).trans hdec⟩

/-- The renamed `metric1` of `TestDecorate`, processed by the bundles of `bundleTest`, carries
the redacted URL of its target. -/
theorem ruleProcessor_metadata_test :
    ∃ m', (ruleProcessor .listed bundleTest.2 bundleTest.1).metrics[0]? = some m' ∧
      bundleTest.1.target.metadata.1 "scrapedTargetURL" = some "https://newrelic.com" ∧
        (m'.attributes "scrapedTargetURL").isSome ∧
        ((∀ rr ∈ (flattenRules bundleTest.2).renameRules, ∀ p ∈ rr.attributes,
            p.2 ≠ "scrapedTargetURL") →
          m'.attributes "scrapedTargetURL" = some "https://newrelic.com") := by
  refine ⟨_, rfl, by decide, ?_⟩
  exact ruleProcessor_metadata .listed bundleTest.2 bundleTest.1 _ (List.getElem?_mem (n := 0) rfl) _ _
    (by decide)

/-! ## No stage invents a label value -/

/-- Every label value on the metrics `ms` satisfies `S`. -/
def ValuesIn (S : String → Prop) (ms : List Metric) : Prop :=
  ∀ m ∈ ms, ∀ k v, m.attributes k = some v → S v

section Values

variable {S : String → Prop}

theorem addAttributes_valuesIn {tm : TargetMetrics} {rules : List AddAttributesRule}
    (hS : ValuesIn S tm.metrics) (hr : ∀ r ∈ rules, ∀ k v, r.attributes k = some v → S v) :
    ValuesIn S (addAttributes tm rules).metrics := by
  unfold addAttributes
  split
  · exact hS
  · intro m' hm' k v hv
    obtain ⟨m, hm, rfl⟩ := List.mem_map.1 hm'
    simp only [addedAttributes_apply, Option.or_eq_some] at hv
    rcases hv with h | ⟨-, h⟩
    · obtain ⟨r, hr', hrk⟩ := List.exists_of_findSome?_eq_some h
      exact hr r (List.mem_of_mem_filter (List.mem_reverse.1 hr')) k v hrk
    · exact hS m hm k v h

theorem copyAttributes_valuesIn {tm : TargetMetrics} (rules : List DecorateRule)
    (hS : ValuesIn S tm.metrics) : ValuesIn S (copyAttributes tm rules).metrics := by
  obtain ⟨H, hH, heq⟩ := @copyAttributes_inv tm rules (fun _ a => ∀ k v, a k = some v → S v)
    (fun r _ i j d s m hd hs _ _ k v hkv => (accumulate_pick_eq_some hkv).elim (hs k v) (hd k v))
    fun x k v hkv => (heapOf_eq_some hkv).elim fun m ⟨hx, hmk⟩ => hS m (List.getElem?_mem hx) k v hmk
  rw [heq]
  intro m' hm' k v hv
  obtain ⟨i, hi⟩ := List.mem_iff_getElem?.1 hm'
  simp only [withHeap, List.getElem?_mapIdx, Option.map_eq_some'] at hi
  obtain ⟨m, -, rfl⟩ := hi
  exact hH i k v hv

theorem decorate_valuesIn {tm : TargetMetrics} (rules : List DecorateRule) (hS : ValuesIn S tm.metrics)
    (hmd : ∀ k v, tm.target.metadata.1 k = some v → S v) : ValuesIn S (decorate tm rules).metrics := by
  rw [decorate_metrics]
  intro m' hm' k v hv
  obtain ⟨m, hm, rfl⟩ := List.mem_map.1 hm'
  simp only [accumulate_eq_or, Option.or_eq_some] at hv
  rcases hv with h | ⟨-, h⟩
  · exact hmd k v h
  · exact copyAttributes_valuesIn rules hS m hm k v h

theorem rename_valuesIn (ord : MapOrder) {tm : TargetMetrics} (rules : List RenameRule)
    (hS : ValuesIn S tm.metrics) : ValuesIn S (rename ord tm rules).metrics := by
  intro m' hm' k v hv
  obtain ⟨mi, m, hm, -, heq⟩ := mem_rename ord tm rules hm'
  rw [heq] at hv
  refine renamedAttributes_inv (fun a => ∀ k v, a k = some v → S v) ord mi m.name rules 0 _
    (fun rr _ p _ a ha k v hv => ?_) (hS m (List.getElem?_mem hm)) k v hv
  cases hp : a p.1 with
  | none => simp only [renameAttribute, hp] at hv; exact ha k v hv
  | some w =>
    simp only [renameAttribute, hp, set_apply] at hv
    split at hv
    · cases hv; exact ha _ _ hp
    · exact ha k v hv

end Values

/-- **`RuleProcessor` invents no label value**: every label value on an emitted metric is a
value of some label of a scraped metric that `Filter` keeps, of an `AddAttributes` rule, or
of the target's metadata. In particular no value only a dropped series carried is emitted. -/
theorem ruleProcessor_values (ord : MapOrder) (processingRules : List ProcessingRule)
    (tm : TargetMetrics) : ∀ m' ∈ (ruleProcessor ord processingRules tm).metrics, ∀ k v,
      m'.attributes k = some v →
        (∃ m ∈ tm.metrics.filter (fun m => !shouldIgnore (flattenRules processingRules).ignoreRules m.name),
            ∃ k', m.attributes k' = some v) ∨
          (∃ r ∈ (flattenRules processingRules).addAttributesRules, ∃ k', r.attributes k' = some v) ∨
          ∃ k', tm.target.metadata.1 k' = some v := by
  intro m' hm'
  obtain ⟨m'', hm'', ha⟩ := mem_ruleProcessor hm'
  rw [ha]
  refine rename_valuesIn ord _ (decorate_valuesIn _ (addAttributes_valuesIn ?_ ?_) ?_) m'' hm''
  · intro m hm k v hv
    exact .inl ⟨m, by rwa [← filter_metrics], k, hv⟩
  · exact fun r hr k v hv => .inr (.inl ⟨r, hr, k, hv⟩)
  · exact fun k v hv => .inr (.inr ⟨k, by simpa using hv⟩)

/-- The label `md3` that `metric1` of `TestDecorate` receives from `metric2` under the bundles
of `bundleTest` is one a kept metric was scraped with. -/
theorem ruleProcessor_values_test :
    ∃ m', (ruleProcessor .listed bundleTest.2 bundleTest.1).metrics[0]? = some m' ∧
      m'.attributes "md3" = some "v3" ∧
      ((∃ m ∈ bundleTest.1.metrics.filter
            (fun m => !shouldIgnore (flattenRules bundleTest.2).ignoreRules m.name),
            ∃ k', m.attributes k' = some "v3") ∨
        (∃ r ∈ (flattenRules bundleTest.2).addAttributesRules, ∃ k', r.attributes k' = some "v3") ∨
        ∃ k', bundleTest.1.target.metadata.1 k' = some "v3") := by
  refine ⟨_, rfl, ?_, ?_⟩
  · decide
  · exact ruleProcessor_values .listed bundleTest.2 bundleTest.1 _ (List.getElem?_mem (n := 0) rfl)
      "md3" "v3" (by decide)

end NriPrometheus
