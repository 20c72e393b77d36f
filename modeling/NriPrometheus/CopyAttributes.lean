import NriPrometheus.Decorate

/-!
# Copying attributes between metrics

Mirrors `CopyAttributes` and `Decorate`. `CopyAttributes` walks the metrics in unit
order; for each rule listed for the metric's name in `Dests`, and each label set cached
for the rule's source in `SourceLabels`, it tries the join and, when it succeeds, merges
the source labels (or those the rule selects) into the metric's attributes. A cached
label set is a reference to a metric's map, so it is read as it is when the join is
tried: a source decorated earlier in the same call passes on what it received. The
attribute maps are a `Heap`, indexed by metric position.

* `copyAttributes_eq_live`: `CopyAttributes` is the loop that takes every rule with a
  destination prefix of the metric's name once, in configured order, and every metric
  named as the rule's source in unit order, reading its current attributes. A rule that
  `Dests` lists twice for a name (`matchingDecorate_twice`) is applied twice in a row,
  and the second time changes nothing (`ruleStep_idem`).
* `copyAttributes_chain`: so decorations chain: when `A` decorates `B` and `B`, listed
  earlier, decorates `C`, then `C` receives `A`'s labels. Reading the sources as they were
  when the call began would not give them.
* `copyAttributes_eq_snapshot`: the two readings agree when no metric named as a source
  is the destination of any rule.
* `copyAttributes_frame`: a metric that is no rule's destination keeps its attributes.
* `decorate_metrics`: `Decorate` is `CopyAttributes` followed by the target's metadata on
  every metric.
* `autoDecorateLabels_eq`: the automatic decoration from info metrics reads the info
  metrics' labels as they were scraped, although it holds references to the maps it writes.
-/

namespace NriPrometheus

open LabelSet

/-- The attribute maps of a unit's metrics, by position. -/
abbrev Heap := ℕ → LabelSet

/-- The heap of a list of metrics. -/
def heapOf (ms : List Metric) : Heap := fun i => (ms[i]?.map (·.attributes)).getD empty

/-- The labels a rule copies out of a joined source: those it selects, or all. -/
def DecorateRule.pick (rule : DecorateRule) (s : LabelSet) : LabelSet :=
  if rule.attributes.isEmpty then s else s.restrict rule.attributes

/-- One join attempt: the source `src j` decorates the destination at position `i` of
the heap. `CopyAttributes` reads the source from the heap itself. -/
def joinFrom (src : ℕ → LabelSet) (rule : DecorateRule) (i : ℕ) (h : Heap) (j : ℕ) : Heap :=
  match join (src j) (h i) rule.join with
  | some toAdd =>
    Function.update h i
      (if rule.attributes.isEmpty then accumulate (h i) toAdd
        else accumulateOnly (h i) toAdd rule.attributes)
  | none => h

/-- The join attempt of `CopyAttributes`, through the reference at position `j`. -/
def joinStep (rule : DecorateRule) (i : ℕ) (h : Heap) (j : ℕ) : Heap := joinFrom h rule i h j

/-- The loop over the label sets cached for a rule's source. -/
def ruleStep (dc : DecorationMap) (i : ℕ) (h : Heap) (rule : DecorateRule) : Heap :=
  ((dc.sourceLabels rule.source).getD []).foldl (joinStep rule i) h

/-- The body of the loop over the metrics, for the metric `m` at position `i`. -/
def metricStep (dc : DecorationMap) (i : ℕ) (m : Metric) (h : Heap) : Heap :=
  match dc.dests m.name with
  | some dstRules => dstRules.foldl (ruleStep dc i) h
  | none => h

/-- A loop over the metrics from position `i` on, with a heap. -/
def foldMetrics (step : ℕ → Metric → Heap → Heap) : ℕ → List Metric → Heap → Heap
  | _, [], h => h
  | i, m :: ms, h => foldMetrics step (i + 1) ms (step i m h)

/-- The metrics with the attributes of a heap. -/
def withHeap (ms : List Metric) (h : Heap) : List Metric :=
  ms.mapIdx fun i m => { m with attributes := h i }

/-- `CopyAttributes`. -/
def copyAttributes (tm : TargetMetrics) (rules : List DecorateRule) : TargetMetrics :=
  if rules.isEmpty then tm
  else
    let dc := matchingDecorate tm rules
    let h := foldMetrics (metricStep dc) 0 tm.metrics (heapOf tm.metrics)
    { tm with metrics := withHeap tm.metrics h }

/-- The decoration of the metric at position `i`, named `name`, as the spec says it:
each rule with a destination prefix of `name`, once, in configured order; for each, the
metrics named as its source, in unit order, with the source labels read by `read`. -/
def decorateMetric (read : Heap → ℕ → LabelSet) (ms : List Metric) (rules : List DecorateRule)
    (i : ℕ) (m : Metric) (h : Heap) : Heap :=
  (rules.filter fun r => r.dest.any (hasPrefix m.name)).foldl
    (fun h r => (positionsOf r.source 0 ms).foldl (fun h j => joinFrom (read h) r i h j) h) h

/-- `CopyAttributes` as the spec describes it, each source read when its join is tried. -/
def copyAttributesLive (tm : TargetMetrics) (rules : List DecorateRule) : TargetMetrics :=
  let h := foldMetrics (decorateMetric (fun h => h) tm.metrics rules) 0 tm.metrics (heapOf tm.metrics)
  { tm with metrics := withHeap tm.metrics h }

/-- `CopyAttributes` with each source read as it was when the call began. -/
def copyAttributesSnapshot (tm : TargetMetrics) (rules : List DecorateRule) : TargetMetrics :=
  let h := foldMetrics (decorateMetric (fun _ => heapOf tm.metrics) tm.metrics rules) 0
    tm.metrics (heapOf tm.metrics)
  { tm with metrics := withHeap tm.metrics h }

theorem merge_eq_pick (rule : DecorateRule) (d s : LabelSet) :
    (if rule.attributes.isEmpty then accumulate d s else accumulateOnly d s rule.attributes) =
      accumulate d (rule.pick s) := by
  unfold DecorateRule.pick; split <;> simp [accumulateOnly_eq]

@[simp] theorem accumulate_pick_self (rule : DecorateRule) (a : LabelSet) :
    accumulate a (rule.pick a) = a := by
  unfold DecorateRule.pick; split <;> simp [accumulate_restrict_self]

/-- The destination's value after one join attempt of `CopyAttributes` on a source other
than itself, with the sources read from `h`. -/
def liveStep (h : Heap) (rule : DecorateRule) (i : ℕ) (d : LabelSet) (j : ℕ) : LabelSet :=
  if j ≠ i ∧ (join (h j) d rule.join).isSome then accumulate d (rule.pick (h j)) else d

theorem joinStep_eq (rule : DecorateRule) (i : ℕ) (h : Heap) (j : ℕ) :
    joinStep rule i h j = Function.update h i (liveStep h rule i (h i) j) := by
  unfold joinStep joinFrom liveStep
  by_cases hj : j = i
  · subst hj
    cases hjn : join (h j) (h j) rule.join with
    | none => simp
    | some s =>
      obtain ⟨rfl, -⟩ := join_eq_some_iff.1 hjn
      simp only [merge_eq_pick, accumulate_pick_self]; simp
  · cases hjn : join (h j) (h i) rule.join with
    | none => simp [hj]
    | some s =>
      obtain ⟨rfl, -⟩ := join_eq_some_iff.1 hjn
      simp only [merge_eq_pick]; simp [hj]


/-- `liveStep` reads the heap only at sources other than the destination. -/
theorem liveStep_update (h : Heap) (rule : DecorateRule) (i : ℕ) (x : LabelSet) :
    liveStep (Function.update h i x) rule i = liveStep h rule i := by
  funext d j
  by_cases hj : j = i <;> simp [liveStep, hj]

/-- **The join attempts for one rule touch only the destination**, which follows
`liveStep`. -/
theorem foldl_joinStep (rule : DecorateRule) (i : ℕ) :
    ∀ (js : List ℕ) (h : Heap),
      js.foldl (joinStep rule i) h = Function.update h i (js.foldl (liveStep h rule i) (h i))
  | [], h => by simp
  | j :: js, h => by
    rw [List.foldl_cons, joinStep_eq, foldl_joinStep rule i js, liveStep_update]
    simp

/-- A successful join copies nothing that changes the join keys. -/
theorem liveStep_agreeOn (h : Heap) (rule : DecorateRule) (i : ℕ) (d : LabelSet) (j : ℕ) :
    AgreeOn rule.join (liveStep h rule i d j) d := by
  unfold liveStep
  split
  · rename_i hc
    obtain ⟨s, hs⟩ := Option.isSome_iff_exists.1 hc.2
    obtain ⟨-, hk⟩ := join_eq_some_iff.1 hs
    refine agreeOn_accumulate fun k hkJ => ?_
    unfold DecorateRule.pick
    split
    · exact .inr (hk k hkJ).2
    · by_cases hkA : k ∈ rule.attributes <;> simp [hkA, (hk k hkJ).2]
  · exact fun _ _ => rfl

theorem foldl_liveStep_agreeOn (h : Heap) (rule : DecorateRule) (i : ℕ) :
    ∀ (js : List ℕ) (d : LabelSet), AgreeOn rule.join (js.foldl (liveStep h rule i) d) d
  | [], _ => fun _ _ => rfl
  | j :: js, d => (foldl_liveStep_agreeOn h rule i js _).trans (liveStep_agreeOn h rule i d j)

/-- The overlay of the sources among `js`, other than `i`, that join the destination `d`:
a later source overwrites an earlier one. -/
def overlay (h : Heap) (rule : DecorateRule) (i : ℕ) (d : LabelSet) : List ℕ → LabelSet
  | [] => empty
  | j :: js =>
    if j ≠ i ∧ (join (h j) d rule.join).isSome then accumulate (rule.pick (h j)) (overlay h rule i d js)
    else overlay h rule i d js


/-- **The closed form of one rule on one destination**: with the sources fixed, the
destination ends as itself overwritten by the overlay of the sources that join it. The
selection depends on the destination's join keys only, which the copies keep. -/
theorem foldl_liveStep_eq (h : Heap) (rule : DecorateRule) (i : ℕ) (d : LabelSet) :
    ∀ (js : List ℕ) (d' : LabelSet), AgreeOn rule.join d' d →
      js.foldl (liveStep h rule i) d' = accumulate d' (overlay h rule i d js)
  | [], d', _ => by simp [overlay]
  | j :: js, d', hd => by
    have hstep : liveStep h rule i d' j = if j ≠ i ∧ (join (h j) d rule.join).isSome then
        accumulate d' (rule.pick (h j)) else d' := by
      simp only [liveStep, join_congr hd]
    rw [List.foldl_cons, foldl_liveStep_eq h rule i d js _ ((liveStep_agreeOn h rule i d' j).trans hd),
      hstep, overlay]
    split <;> simp [accumulate_assoc]

theorem foldl_liveStep_idem (h : Heap) (rule : DecorateRule) (i : ℕ) (js : List ℕ) (d : LabelSet) :
    js.foldl (liveStep h rule i) (js.foldl (liveStep h rule i) d) = js.foldl (liveStep h rule i) d := by
  rw [foldl_liveStep_eq h rule i d js _ (foldl_liveStep_agreeOn h rule i js d),
    foldl_liveStep_eq h rule i d js d fun _ _ => rfl]
  simp

/-- **A second run of a rule's joins changes nothing.** -/
theorem foldl_joinStep_idem (rule : DecorateRule) (i : ℕ) (js : List ℕ) (h : Heap) :
    js.foldl (joinStep rule i) (js.foldl (joinStep rule i) h) = js.foldl (joinStep rule i) h := by
  rw [foldl_joinStep rule i js h, foldl_joinStep rule i js (Function.update h i _), liveStep_update]
  simp [foldl_liveStep_idem]

theorem ruleStep_idem (dc : DecorationMap) (i : ℕ) (h : Heap) (rule : DecorateRule) :
    ruleStep dc i (ruleStep dc i h rule) rule = ruleStep dc i h rule :=
  foldl_joinStep_idem rule i _ h

/-- Running an idempotent step once per copy of a rule is running it once, or not at all. -/
theorem foldl_flatMap_destCopies {f : Heap → DecorateRule → Heap} (hf : ∀ h r, f (f h r) r = f h r)
    (n : String) : ∀ (rules : List DecorateRule) (h : Heap),
      (rules.flatMap (destCopies n)).foldl f h = (rules.filter fun r => r.dest.any (hasPrefix n)).foldl f h
  | [], _ => rfl
  | r :: rest, h => by
    have hcopy : ∀ (l : List String) (h : Heap),
        (l.map fun _ => r).foldl f h = if l = [] then h else f h r := by
      intro l
      induction l with
      | nil => intro; rfl
      | cons _ l ih => intro h; simp only [List.map_cons, List.foldl_cons, ih]; split <;> simp [hf]
    rw [List.flatMap_cons, List.foldl_append, destCopies, hcopy, foldl_flatMap_destCopies hf n rest,
      List.filter_cons]
    by_cases hr : r.dest.any (hasPrefix n)
    · rw [if_pos hr, if_neg (by simpa using hr), List.foldl_cons]
    · rw [if_neg hr, if_pos (by simpa using hr)]


theorem foldMetrics_congr {step step' : ℕ → Metric → Heap → Heap} :
    ∀ (i : ℕ) (ms : List Metric) (h : Heap), (∀ k m h, m ∈ ms → step k m h = step' k m h) →
      foldMetrics step i ms h = foldMetrics step' i ms h
  | _, [], _, _ => rfl
  | i, m :: ms, h, hs => by
    rw [foldMetrics, foldMetrics, hs i m h (List.mem_cons_self _ _)]
    exact foldMetrics_congr (i + 1) ms _ fun k m' h' hm => hs k m' h' (List.mem_cons_of_mem _ hm)

theorem foldMetrics_id : ∀ (i : ℕ) (ms : List Metric) (h : Heap), foldMetrics (fun _ _ h => h) i ms h = h
  | _, [], _ => rfl
  | i, _ :: ms, h => foldMetrics_id (i + 1) ms h

@[simp] theorem withHeap_heapOf (ms : List Metric) : withHeap ms (heapOf ms) = ms := by
  simp only [withHeap, List.mapIdx_eq_iff]
  intro i
  cases h : ms[i]? <;> simp [heapOf, h]

theorem withHeap_shape (ms : List Metric) (h : Heap) : (withHeap ms h).map Metric.shape = ms.map Metric.shape :=
  map_mapIdx_of fun _ _ => rfl

theorem sourceLabels_getD (tm : TargetMetrics) {rules : List DecorateRule} {r : DecorateRule} (hr : r ∈ rules) :
    ((matchingDecorate tm rules).sourceLabels r.source).getD [] = positionsOf r.source 0 tm.metrics := by
  rw [matchingDecorate_sourceLabels]
  split
  · rfl
  · rename_i hn
    have : r.source ∉ tm.metrics.map (·.name) := fun hm => hn ⟨⟨r, hr, rfl⟩, hm⟩
    rw [(positionsOf_eq_nil_iff _ _ _).2 this]; rfl

/-- **One metric's step of `CopyAttributes` is the spec's decoration of it.** -/
theorem metricStep_eq (tm : TargetMetrics) (rules : List DecorateRule) (i : ℕ) {m : Metric}
    (hm : m ∈ tm.metrics) (h : Heap) :
    metricStep (matchingDecorate tm rules) i m h = decorateMetric (fun h => h) tm.metrics rules i m h := by
  have hfold : metricStep (matchingDecorate tm rules) i m h =
      (rules.flatMap (destCopies m.name)).foldl (ruleStep (matchingDecorate tm rules) i) h := by
    unfold metricStep
    rw [matchingDecorate_dests]
    by_cases hc : rules.flatMap (destCopies m.name) = []
    · simp only [hc]; simp
    · rw [if_pos ⟨List.mem_map_of_mem _ hm, hc⟩]
  rw [hfold, foldl_flatMap_destCopies (ruleStep_idem _ i) m.name]
  exact List.foldl_ext _ _ _ fun h r hr => by
    rw [ruleStep, sourceLabels_getD tm (List.mem_of_mem_filter hr)]; rfl

theorem copyAttributes_target (tm : TargetMetrics) (rules : List DecorateRule) :
    (copyAttributes tm rules).target = tm.target := by
  unfold copyAttributes; split <;> rfl

theorem copyAttributes_shape (tm : TargetMetrics) (rules : List DecorateRule) :
    (copyAttributes tm rules).metrics.map Metric.shape = tm.metrics.map Metric.shape := by
  unfold copyAttributes; split
  · rfl
  · exact withHeap_shape _ _

theorem copyAttributes_metrics_congr {tm tm' : TargetMetrics} (h : tm.metrics = tm'.metrics)
    (rules : List DecorateRule) :
    (copyAttributes tm rules).metrics = (copyAttributes tm' rules).metrics := by
  obtain ⟨t, ms⟩ := tm; obtain ⟨t', ms'⟩ := tm'
  subst h; unfold copyAttributes; split <;> rfl

theorem copyAttributes_live (tm : TargetMetrics) (rules : List DecorateRule) :
    copyAttributes tm rules = copyAttributesLive tm rules := by
  unfold copyAttributes copyAttributesLive
  split
  · rename_i he
    have hid : decorateMetric (fun h => h) tm.metrics rules = fun _ _ h => h := by
      funext i m h; simp [decorateMetric, List.isEmpty_iff.1 he]
    simp only [hid, foldMetrics_id, withHeap_heapOf]
  · simp only [foldMetrics_congr 0 tm.metrics _ fun k m h hm => metricStep_eq tm rules k hm h]

/-- **`CopyAttributes` meets the spec with live reads**, and keeps every metric's name,
value and position. -/
theorem copyAttributes_eq_live (tm : TargetMetrics) (rules : List DecorateRule) :
    copyAttributes tm rules = copyAttributesLive tm rules ∧
      (copyAttributes tm rules).metrics.map Metric.shape = tm.metrics.map Metric.shape :=
  ⟨copyAttributes_live tm rules, copyAttributes_shape tm rules⟩

/-- A chain: `A` decorates `B`, and `B`, listed before `C`, decorates `C`. -/
def chainUnit : TargetMetrics × List DecorateRule :=
  (⟨Target.new "" {} ⟨"", "", empty⟩,
    [⟨"A", 0, empty.set "a" "1"⟩, ⟨"B", 0, empty.set "b" "1"⟩, ⟨"C", 0, empty⟩]⟩,
   [⟨"A", ["B"], [], []⟩, ⟨"B", ["C"], [], []⟩])

/-- **Decorations chain**: `C` receives the label `a` that `A` gave `B` earlier in the
same call, which the sources as they were when the call began do not hold. -/
theorem copyAttributes_chain :
    (copyAttributes chainUnit.1 chainUnit.2).metrics.map (·.attributes "a") =
        [some "1", some "1", some "1"] ∧
      (copyAttributesSnapshot chainUnit.1 chainUnit.2).metrics.map (·.attributes "a") =
        [some "1", some "1", none] := by
  decide

theorem mem_positionsOf {n : String} {j : ℕ} :
    ∀ {i : ℕ} {ms : List Metric}, j ∈ positionsOf n i ms ↔ ∃ k m, ms[k]? = some m ∧ m.name = n ∧ j = i + k
  | _, [] => by simp [positionsOf]
  | i, m :: ms => by
    rw [positionsOf]
    constructor
    · intro hj
      have step : j ∈ positionsOf n (i + 1) ms → ∃ k m', (m :: ms)[k]? = some m' ∧ m'.name = n ∧ j = i + k := by
        intro h
        obtain ⟨k, m', hk, hn, rfl⟩ := mem_positionsOf.1 h
        exact ⟨k + 1, m', by simpa using hk, hn, by omega⟩
      split at hj
      · rcases List.mem_cons.1 hj with rfl | h
        · exact ⟨0, m, by simp, ‹_›, by omega⟩
        · exact step h
      · exact step hj
    · rintro ⟨k, m', hk, hn, rfl⟩
      cases k with
      | zero =>
        simp only [List.getElem?_cons_zero, Option.some.injEq] at hk; subst hk
        simp [hn]
      | succ k =>
        have : i + (k + 1) ∈ positionsOf n (i + 1) ms :=
          mem_positionsOf.2 ⟨k, m', by simpa using hk, hn, by omega⟩
        split <;> simp [this]

theorem joinFrom_frame (src : ℕ → LabelSet) (rule : DecorateRule) (i : ℕ) (h : Heap) (j : ℕ) {k : ℕ}
    (hk : k ≠ i) : joinFrom src rule i h j k = h k := by
  unfold joinFrom; cases join (src j) (h i) rule.join <;> simp [hk]


theorem foldl_joinFrom_frame (read : Heap → ℕ → LabelSet) (rule : DecorateRule) (i : ℕ) {k : ℕ}
    (hk : k ≠ i) : ∀ (js : List ℕ) (h : Heap), js.foldl (fun h j => joinFrom (read h) rule i h j) h k = h k
  | [], _ => rfl
  | j :: js, h => by
    rw [List.foldl_cons, foldl_joinFrom_frame read rule i hk js, joinFrom_frame _ _ _ _ _ hk]

/-- The decoration of the metric at `i` changes only its own attributes. -/
theorem decorateMetric_frame (read : Heap → ℕ → LabelSet) (ms : List Metric) (rules : List DecorateRule)
    (i : ℕ) (m : Metric) {k : ℕ} (hk : k ≠ i) (h : Heap) : decorateMetric read ms rules i m h k = h k := by
  unfold decorateMetric
  generalize rules.filter _ = rs
  induction rs generalizing h with
  | nil => rfl
  | cons r rs ih => rw [List.foldl_cons, ih, foldl_joinFrom_frame read r i hk]

/-- With every source other than the destination as it was at the start, reading the
sources live is reading them from the start. -/
theorem foldl_joinFrom_live (h0 : Heap) (rule : DecorateRule) (i : ℕ) :
    ∀ (js : List ℕ) (h : Heap), (∀ j ∈ js, j ≠ i ∧ h j = h0 j) →
      js.foldl (fun h j => joinFrom h rule i h j) h = js.foldl (fun h j => joinFrom h0 rule i h j) h
  | [], _, _ => rfl
  | j :: js, h, hjs => by
    have hread : joinFrom h rule i h j = joinFrom h0 rule i h j := by
      simp only [joinFrom, (hjs j (List.mem_cons_self _ _)).2]
    rw [List.foldl_cons, List.foldl_cons, hread]
    refine foldl_joinFrom_live h0 rule i js _ fun j' hj' => ?_
    obtain ⟨hji, hj0⟩ := hjs j' (List.mem_cons_of_mem _ hj')
    exact ⟨hji, by rw [joinFrom_frame _ _ _ _ _ hji, hj0]⟩

theorem decorateMetric_live (ms : List Metric) (rules : List DecorateRule) (h0 : Heap) (i : ℕ)
    (m : Metric) (hi : ∀ r ∈ rules, i ∉ positionsOf r.source 0 ms) (h : Heap)
    (hh : ∀ r ∈ rules, ∀ j ∈ positionsOf r.source 0 ms, h j = h0 j) :
    decorateMetric (fun h => h) ms rules i m h = decorateMetric (fun _ => h0) ms rules i m h := by
  unfold decorateMetric
  have hsub : ∀ r ∈ rules.filter (fun r => r.dest.any (hasPrefix m.name)), r ∈ rules :=
    fun r hr => List.mem_of_mem_filter hr
  generalize rules.filter _ = rs at hsub
  induction rs generalizing h with
  | nil => rfl
  | cons r rs ih =>
    have hr := hsub r (List.mem_cons_self _ _)
    have hjs : ∀ j ∈ positionsOf r.source 0 ms, j ≠ i ∧ h j = h0 j :=
      fun j hj => ⟨fun hji => hi r hr (hji ▸ hj), hh r hr j hj⟩
    rw [List.foldl_cons, List.foldl_cons, ← foldl_joinFrom_live h0 r i _ h hjs]
    refine ih _ (fun r' hr' j hj => ?_) fun r' hr' => hsub r' (List.mem_cons_of_mem _ hr')
    rw [foldl_joinFrom_frame (fun h => h) r i (fun hji => hi r' hr' (hji ▸ hj)), hh r' hr' j hj]

theorem foldMetrics_congr_inv {step step' : ℕ → Metric → Heap → Heap} (P : Heap → Prop) :
    ∀ (i : ℕ) (ms : List Metric) (h : Heap),
      (∀ k m h, ms[k]? = some m → P h → step (i + k) m h = step' (i + k) m h ∧ P (step (i + k) m h)) →
      P h → foldMetrics step i ms h = foldMetrics step' i ms h
  | _, [], _, _, _ => rfl
  | i, m :: ms, h, hs, hP => by
    obtain ⟨he, hP'⟩ := hs 0 m h (by simp) hP
    rw [Nat.add_zero] at he hP'
    rw [foldMetrics, foldMetrics, ← he]
    refine foldMetrics_congr_inv P (i + 1) ms _ (fun k m' h' hk hP'' => ?_) hP'
    rw [show i + 1 + k = i + (k + 1) by omega]
    exact hs (k + 1) m' h' (by simpa using hk) hP''

/-- **Without chains the reading does not matter**: when no rule's source name is started by a
destination prefix of a rule, `CopyAttributes` reads every source as it was when the call
began. -/
theorem copyAttributes_eq_snapshot (tm : TargetMetrics) (rules : List DecorateRule)
    (hnc : ∀ r ∈ rules, ∀ r' ∈ rules, r'.dest.any (hasPrefix r.source) = false) :
    copyAttributes tm rules = copyAttributesSnapshot tm rules := by
  suffices key : foldMetrics (decorateMetric (fun h => h) tm.metrics rules) 0 tm.metrics
      (heapOf tm.metrics) = foldMetrics (decorateMetric (fun _ => heapOf tm.metrics) tm.metrics rules) 0
        tm.metrics (heapOf tm.metrics) by
    simp only [copyAttributes_live, copyAttributesLive, copyAttributesSnapshot, key]
  refine foldMetrics_congr_inv
    (fun h => ∀ r ∈ rules, ∀ j ∈ positionsOf r.source 0 tm.metrics, h j = heapOf tm.metrics j)
    0 tm.metrics _ (fun k m h hk hh => ?_) fun _ _ _ _ => rfl
  rw [Nat.zero_add]
  by_cases hd : rules.filter (fun r => r.dest.any (hasPrefix m.name)) = []
  · have hid : ∀ read, decorateMetric read tm.metrics rules k m h = h := fun _ => by
      simp only [decorateMetric, hd, List.foldl_nil]
    exact ⟨by rw [hid, hid], by rw [hid]; exact hh⟩
  · obtain ⟨r', hr', hd'⟩ := List.exists_mem_of_ne_nil _ hd |>.imp fun r h => List.mem_filter.1 h
    have hi : ∀ r ∈ rules, k ∉ positionsOf r.source 0 tm.metrics := by
      intro r hr hk'
      obtain ⟨k', m', hk'', hn, rfl⟩ := mem_positionsOf.1 hk'
      rw [Nat.zero_add, hk''] at hk
      rw [← Option.some.inj hk, hn, hnc r hr r' hr'] at hd'
      exact Bool.false_ne_true hd'
    refine ⟨decorateMetric_live _ _ _ k m hi h hh, fun r hr j hj => ?_⟩
    rw [decorateMetric_frame _ _ _ _ _ (show j ≠ k from fun hjk => hi r hr (hjk ▸ hj)), hh r hr j hj]

/-- Without a chain, `A` decorating `C` reads the same either way. -/
theorem copyAttributes_eq_snapshot_unchained :
    (∀ r ∈ [(⟨"A", ["C"], [], []⟩ : DecorateRule)], ∀ r' ∈ [(⟨"A", ["C"], [], []⟩ : DecorateRule)],
        r'.dest.any (hasPrefix r.source) = false) ∧
      copyAttributes chainUnit.1 [⟨"A", ["C"], [], []⟩] =
        copyAttributesSnapshot chainUnit.1 [⟨"A", ["C"], [], []⟩] :=
  ⟨by decide, copyAttributes_eq_snapshot chainUnit.1 _ (by decide)⟩

theorem foldMetrics_frame {step : ℕ → Metric → Heap → Heap} {p : ℕ} :
    ∀ (i : ℕ) (ms : List Metric) (h : Heap),
      (∀ k m h, ms[k]? = some m → step (i + k) m h p = h p) → foldMetrics step i ms h p = h p
  | _, [], _, _ => rfl
  | i, m :: ms, h, hs => by
    rw [foldMetrics, foldMetrics_frame (i + 1) ms _ fun k m' h' hk => ?_, ← Nat.add_zero i, hs 0 m h (by simp)]
    rw [show i + 1 + k = i + (k + 1) by omega]
    exact hs (k + 1) m' h' (by simpa using hk)

/-- **`CopyAttributes` leaves alone every metric that is no rule's destination**: a metric
whose name no destination prefix of any rule starts keeps its attributes. -/
theorem copyAttributes_frame (tm : TargetMetrics) (rules : List DecorateRule) {i : ℕ} {m : Metric}
    (hm : tm.metrics[i]? = some m) (hn : ∀ r ∈ rules, r.dest.any (hasPrefix m.name) = false) :
    (copyAttributes tm rules).metrics[i]? = some m := by
  have hkeep : foldMetrics (decorateMetric (fun h => h) tm.metrics rules) 0 tm.metrics
      (heapOf tm.metrics) i = m.attributes := by
    rw [foldMetrics_frame 0 tm.metrics _ fun k m' h hk => ?_]
    · simp [heapOf, hm]
    rw [Nat.zero_add]
    by_cases hki : i = k
    · subst hki
      rw [hm] at hk; cases hk
      have : rules.filter (fun r => r.dest.any (hasPrefix m.name)) = [] :=
        List.filter_eq_nil_iff.2 fun r hr => by simp [hn r hr]
      simp only [decorateMetric, this, List.foldl_nil]
    · exact decorateMetric_frame _ _ _ _ _ hki h
  rw [copyAttributes_live]
  simp [copyAttributesLive, withHeap, List.getElem?_mapIdx, hm, hkeep]

/-- `A`, which no rule decorates, keeps its attributes. -/
theorem copyAttributes_frame_source :
    chainUnit.1.metrics[0]? = some ⟨"A", 0, empty.set "a" "1"⟩ ∧
      (∀ r ∈ chainUnit.2, r.dest.any (hasPrefix "A") = false) ∧
      (copyAttributes chainUnit.1 chainUnit.2).metrics[0]? = some ⟨"A", 0, empty.set "a" "1"⟩ :=
  ⟨rfl, by decide, copyAttributes_frame _ _ rfl (by decide)⟩

/-- The loop of `Decorate` over the metrics: each gets the target's metadata, built and
saved in the target by the first call of `Metadata`. -/
def decorateMetadata (t : Target) : List Metric → List Metric × Target
  | [] => ([], t)
  | m :: ms =>
    let (md, t) := t.metadata
    let (ms, t) := decorateMetadata t ms
    ({ m with attributes := accumulate m.attributes md } :: ms, t)

/-- `Decorate`: `CopyAttributes`, then the target's metadata on every metric. -/
def decorate (tm : TargetMetrics) (decorateRules : List DecorateRule) : TargetMetrics :=
  let tm := copyAttributes tm decorateRules
  let (metrics, target) := decorateMetadata tm.target tm.metrics
  ⟨target, metrics⟩

theorem decorateMetadata_eq (t : Target) : ∀ ms : List Metric,
    (decorateMetadata t ms).1 = ms.map (fun m => { m with attributes := accumulate m.attributes t.metadata.1 }) ∧
      (decorateMetadata t ms).2.metricNamespace = t.metricNamespace
  | [] => ⟨rfl, rfl⟩
  | m :: ms => by
    obtain ⟨h₁, h₂⟩ := decorateMetadata_eq t.metadata.2 ms
    simp only [metadata_metadata] at h₁
    exact ⟨by simp [decorateMetadata, h₁], by simp [decorateMetadata, h₂]⟩

/-- **`Decorate` in closed form**: the copied attributes, overwritten by the metadata the
target has when the stage begins. -/
theorem decorate_metrics (tm : TargetMetrics) (rules : List DecorateRule) :
    (decorate tm rules).metrics = (copyAttributes tm rules).metrics.map
      fun m => { m with attributes := accumulate m.attributes tm.target.metadata.1 } := by
  simp [decorate, (decorateMetadata_eq _ _).1, copyAttributes_target]

@[simp] theorem decorate_metricNamespace (tm : TargetMetrics) (rules : List DecorateRule) :
    (decorate tm rules).target.metricNamespace = tm.target.metricNamespace := by
  simp [decorate, (decorateMetadata_eq _ _).2, copyAttributes_target]

theorem decorate_shape (tm : TargetMetrics) (rules : List DecorateRule) :
    (decorate tm rules).metrics.map Metric.shape = tm.metrics.map Metric.shape := by
  rw [decorate_metrics, List.map_map, ← copyAttributes_shape tm rules]; rfl

/-- After `Decorate`'s loop the target has its metadata saved, unless there was no metric to
decorate. -/
theorem decorateMetadata_target (t : Target) : ∀ ms : List Metric,
    (decorateMetadata t ms).2 = if ms.isEmpty then t else t.metadata.2
  | [] => rfl
  | m :: ms => by
    have ih := decorateMetadata_target t.metadata.2 ms
    simp only [metadata_metadata, ite_self] at ih
    simp [decorateMetadata, ih]


/-- `labels.InfoSource`: an info metric's name and labels. -/
structure InfoSource where
  name : String
  labels : LabelSet

/-- The first loop of `AutoDecorateLabels`, from position `i` on: each info metric's name,
with a reference to its attribute map, which is its position. -/
def infoRefs : ℕ → List Metric → List (String × ℕ)
  | _, [] => []
  | i, m :: ms =>
    if hasSuffix m.name "_info" then (m.name, i) :: infoRefs (i + 1) ms else infoRefs (i + 1) ms

/-- The body of the second loop, for the metric `m` at position `i`; the info sources read
their labels through their references. -/
def autoDecorateStep (toAdd : List InfoSource → LabelSet → LabelSet) (infos : List (String × ℕ))
    (i : ℕ) (m : Metric) (h : Heap) : Heap :=
  if !hasSuffix m.name "_info" then
    Function.update h i (accumulate (h i) (toAdd (infos.map fun p => ⟨p.1, h p.2⟩) (h i)))
  else h

/-- `AutoDecorateLabels`, with `labels.ToAdd`, which is not in the sources, as `toAdd`. -/
def autoDecorateLabels (toAdd : List InfoSource → LabelSet → LabelSet) (tm : TargetMetrics) :
    TargetMetrics :=
  let infos := infoRefs 0 tm.metrics
  let h := foldMetrics (autoDecorateStep toAdd infos) 0 tm.metrics (heapOf tm.metrics)
  { tm with metrics := withHeap tm.metrics h }

theorem mem_infoRefs {p : String × ℕ} :
    ∀ {i : ℕ} {ms : List Metric}, p ∈ infoRefs i ms →
      ∃ k m, ms[k]? = some m ∧ hasSuffix m.name "_info" ∧ p.2 = i + k
  | _, [], hp => by simp [infoRefs] at hp
  | i, m :: ms, hp => by
    have tail : p ∈ infoRefs (i + 1) ms → ∃ k m', (m :: ms)[k]? = some m' ∧
        hasSuffix m'.name "_info" ∧ p.2 = i + k := fun h => by
      obtain ⟨k, m', hk, hs, he⟩ := mem_infoRefs h
      exact ⟨k + 1, m', by simpa using hk, hs, by omega⟩
    unfold infoRefs at hp
    split at hp
    · rcases List.mem_cons.1 hp with rfl | h
      · exact ⟨0, m, by simp, ‹_›, by simp⟩
      · exact tail h
    · exact tail hp

/-- A step of the second loop leaves the info metrics' maps alone. -/
theorem autoDecorateStep_info (toAdd : List InfoSource → LabelSet → LabelSet) {ms : List Metric}
    {k : ℕ} {m : Metric} (hk : ms[k]? = some m) {p : String × ℕ} (hp : p ∈ infoRefs 0 ms) (h : Heap) :
    autoDecorateStep toAdd (infoRefs 0 ms) k m h p.2 = h p.2 := by
  obtain ⟨k', m', hk', hs', hp2⟩ := mem_infoRefs hp
  unfold autoDecorateStep
  split
  · refine Function.update_noteq (fun he => ?_) _ _
    rw [hp2, Nat.zero_add] at he; subst he
    rw [hk] at hk'; cases hk'
    simp_all
  · rfl

/-- Read through a heap that holds the metrics' maps, the references are the info sources
the loop would build from the maps themselves. -/
theorem infoRefs_read : ∀ (i : ℕ) (ms : List Metric) (h : Heap),
    (∀ k m, ms[k]? = some m → h (i + k) = m.attributes) →
      (infoRefs i ms).map (fun p => (⟨p.1, h p.2⟩ : InfoSource)) =
        (ms.filter fun m => hasSuffix m.name "_info").map fun m => ⟨m.name, m.attributes⟩
  | _, [], _, _ => rfl
  | i, m :: ms, h, hh => by
    have ih := infoRefs_read (i + 1) ms h fun k m' hk => by
      rw [show i + 1 + k = i + (k + 1) by omega]; exact hh (k + 1) m' (by simpa using hk)
    have h0 : h i = m.attributes := hh 0 m (by simp)
    unfold infoRefs
    by_cases hs : hasSuffix m.name "_info" <;> simp [hs, h0, ih, List.filter_cons]

/-- A loop that rewrites each metric's own map by `g` alone leaves at each position the
rewrite of the map it found there. -/
theorem foldMetrics_pointwise (g : Metric → LabelSet → LabelSet) :
    ∀ (ms : List Metric) (i : ℕ) (h : Heap) (x : ℕ),
      foldMetrics (fun k m h => Function.update h k (g m (h k))) i ms h x =
        if i ≤ x then ((ms[x - i]?).map fun m => g m (h x)).getD (h x) else h x
  | [], i, h, x => by simp [foldMetrics]
  | m :: ms, i, h, x => by
    rw [foldMetrics, foldMetrics_pointwise g ms (i + 1)]
    rcases lt_trichotomy x i with hx | rfl | hx
    · simp [hx.ne, show ¬i + 1 ≤ x by omega, show ¬i ≤ x by omega]
    · simp
    · obtain ⟨k, rfl⟩ : ∃ k, x = i + 1 + k := ⟨x - (i + 1), by omega⟩
      simp [show i + 1 + k ≠ i by omega, show i + 1 + k - i = k + 1 by omega, hx.le]

/-- **The automatic decoration reads the info metrics as they were scraped.** Every metric
keeps its name, value and position, an info metric keeps its labels, and every other metric
gets over its own labels what `labels.ToAdd` gives for the info metrics' scraped labels. The
info sources hold references to maps that the loop writes, but it writes only the maps of
the other metrics. -/
theorem autoDecorateLabels_eq (toAdd : List InfoSource → LabelSet → LabelSet) (tm : TargetMetrics) :
    (autoDecorateLabels toAdd tm).metrics = tm.metrics.map fun m =>
      if hasSuffix m.name "_info" then m
      else { m with attributes := accumulate m.attributes (toAdd
        ((tm.metrics.filter fun m => hasSuffix m.name "_info").map fun m => ⟨m.name, m.attributes⟩)
          m.attributes) } := by
  let snap : List InfoSource :=
    (tm.metrics.filter fun m => hasSuffix m.name "_info").map fun m => ⟨m.name, m.attributes⟩
  let g : Metric → LabelSet → LabelSet := fun m a =>
    if hasSuffix m.name "_info" then a else accumulate a (toAdd snap a)
  have hsnap := infoRefs_read 0 tm.metrics (heapOf tm.metrics) fun k m hk => by simp [heapOf, hk]
  -- the references read the scraped maps all along, so the loop is a pointwise rewrite
  have hloop : foldMetrics (autoDecorateStep toAdd (infoRefs 0 tm.metrics)) 0 tm.metrics
      (heapOf tm.metrics) = foldMetrics (fun k m h => Function.update h k (g m (h k))) 0 tm.metrics
        (heapOf tm.metrics) := by
    refine foldMetrics_congr_inv
      (fun h => ∀ p ∈ infoRefs 0 tm.metrics, h p.2 = heapOf tm.metrics p.2) 0 tm.metrics _
      (fun k m h hk hh => ?_) fun _ _ => rfl
    rw [Nat.zero_add]
    refine ⟨?_, fun p hp => (autoDecorateStep_info toAdd hk hp h).trans (hh p hp)⟩
    have hread : (infoRefs 0 tm.metrics).map (fun p => (⟨p.1, h p.2⟩ : InfoSource)) = snap :=
      (List.map_congr_left fun p hp => by rw [hh p hp]).trans hsnap
    unfold autoDecorateStep
    by_cases hs : hasSuffix m.name "_info" <;> simp [g, hs, hread]
  refine List.ext_getElem? fun x => ?_
  simp only [autoDecorateLabels, hloop, withHeap, List.getElem?_mapIdx, List.getElem?_map,
    foldMetrics_pointwise, Nat.zero_le, if_true, Nat.sub_zero]
  cases hx : tm.metrics[x]? with
  | none => rfl
  | some m =>
    have hm : heapOf tm.metrics x = m.attributes := by simp [heapOf, hx]
    by_cases hs : hasSuffix m.name "_info" <;> simp [g, hs, hm]

end NriPrometheus
