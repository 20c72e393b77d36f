import NriPrometheus.Processor

/-!
# Filtering before the other stages

`RuleProcessor` runs `Filter` first, so that no later stage processes a dropped series. The
metrics it emits would be the same with `Filter` run after `AddAttributes` and `Decorate`,
except through one path: a dropped series named as the source of a copy rule still decorates
when it is filtered late. The proof erases the dropped metrics one at a time; erasing the
metric at position `p` renames the positions of the others by `skip p`, and every join attempt
of `CopyAttributes` commutes with that renaming.

* `copyAttributes_eraseIdx`: erasing a metric that is no rule's source commutes with
  `CopyAttributes`, chains of decorations included.
* `copyAttributes_filter`: so does dropping every metric that fails a test on names, when no
  dropped metric is a rule's source.
* `filter_decorate_comm`: filtering after `AddAttributes` and `Decorate` emits the metrics
  that filtering before them does, when no dropped metric is a copy rule's source.
-/

namespace NriPrometheus

open LabelSet

/-- The position, in a unit, of position `x` of the unit with position `p` erased. -/
def skip (p x : ℕ) : ℕ := if x < p then x else x + 1

theorem skip_injective (p : ℕ) : Function.Injective (skip p) := by
  intro x y h; unfold skip at h; split at h <;> split at h <;> omega

theorem skip_ne (p x : ℕ) : skip p x ≠ p := by
  unfold skip; split <;> omega

theorem getElem?_eraseIdx_skip {α : Type} (l : List α) (p x : ℕ) : (l.eraseIdx p)[x]? = l[skip p x]? := by
  rw [List.getElem?_eraseIdx, skip]; split <;> rfl

theorem positionsOf_succ (n : String) : ∀ (i : ℕ) (ms : List Metric),
    positionsOf n (i + 1) ms = (positionsOf n i ms).map (· + 1)
  | _, [] => rfl
  | i, m :: ms => by
    simp only [positionsOf, positionsOf_succ n (i + 1) ms]
    split <;> rfl

/-- Erasing a metric not named `n` erases nothing from the positions of `n`, and moves those
after it one place down. -/
theorem positionsOf_eraseIdx (n : String) : ∀ (ms : List Metric) (i p : ℕ),
    (∀ m, ms[p]? = some m → m.name ≠ n) →
      positionsOf n i ms = (positionsOf n i (ms.eraseIdx p)).map (skip (i + p))
  | [], _, _, _ => rfl
  | m :: ms, i, 0, hp => by
    have hm : m.name ≠ n := hp m (by simp)
    simp only [positionsOf, hm, if_false, List.eraseIdx_cons_zero, positionsOf_succ, List.map_map]
    refine List.map_congr_left fun x hx => ?_
    obtain ⟨k, -, -, -, rfl⟩ := mem_positionsOf.1 hx
    simp only [skip, if_neg (show ¬i + k < i + 0 by omega)]
  | m :: ms, i, p + 1, hp => by
    rw [List.eraseIdx_cons_succ]
    have ih := positionsOf_eraseIdx n ms (i + 1) p fun m' hm' => hp m' (by simpa using hm')
    rw [show i + 1 + p = i + (p + 1) by omega] at ih
    simp only [positionsOf]
    split
    · rw [List.map_cons, ih, skip, if_pos (by omega)]
    · exact ih

/-- A join attempt commutes with renaming positions injectively. -/
theorem joinFrom_comp {s : ℕ → ℕ} (hs : Function.Injective s) (h : Heap) (rule : DecorateRule)
    (i j : ℕ) : joinFrom (h ∘ s) rule i (h ∘ s) j = joinFrom h rule (s i) h (s j) ∘ s := by
  unfold joinFrom
  simp only [Function.comp_apply]
  split
  · rw [Function.update_comp_eq_of_injective _ hs]
  · rfl

section Erase

variable (ms : List Metric) (rules : List DecorateRule) (p : ℕ)

/-- The decoration of one metric, on the unit with position `p` erased, is its decoration on
the whole unit, when the erased metric is no rule's source. -/
theorem decorateMetric_eraseIdx (hp : ∀ m, ms[p]? = some m → ∀ r ∈ rules, m.name ≠ r.source)
    (x : ℕ) (m : Metric) (h : Heap) :
    decorateMetric (fun h => h) (ms.eraseIdx p) rules x m (h ∘ skip p) =
      decorateMetric (fun h => h) ms rules (skip p x) m h ∘ skip p := by
  unfold decorateMetric
  have hsub : ∀ r ∈ rules.filter (fun r => r.dest.any (hasPrefix m.name)), r ∈ rules :=
    fun r hr => List.mem_of_mem_filter hr
  generalize rules.filter _ = rs at hsub
  induction rs generalizing h with
  | nil => rfl
  | cons r rs ih =>
    have hr := hsub r (List.mem_cons_self _ _)
    rw [List.foldl_cons, List.foldl_cons,
      positionsOf_eraseIdx r.source ms 0 p fun m hm => hp m hm r hr, Nat.zero_add, List.foldl_map]
    have hjs : ∀ (js : List ℕ) (h : Heap), js.foldl (fun h j => joinFrom h r x h j) (h ∘ skip p) =
        js.foldl (fun h j => joinFrom h r (skip p x) h (skip p j)) h ∘ skip p := by
      intro js
      induction js with
      | nil => intro; rfl
      | cons j js ihj => intro h; rw [List.foldl_cons, joinFrom_comp (skip_injective p), ihj]; rfl
    rw [hjs, ih _ fun r' hr' => hsub r' (List.mem_cons_of_mem _ hr')]

end Erase

section Fold

variable {stepS stepF : ℕ → Metric → Heap → Heap} {p : ℕ}
  (hk : ∀ x m h, stepF x m (h ∘ skip p) = stepS (skip p x) m h ∘ skip p)

include hk in
theorem foldMetrics_skip_after : ∀ (l : List Metric) (j : ℕ) (h : Heap), p ≤ j →
    foldMetrics stepF j l (h ∘ skip p) = foldMetrics stepS (j + 1) l h ∘ skip p
  | [], _, _, _ => rfl
  | m :: l, j, h, hj => by
    rw [foldMetrics, foldMetrics, hk, show skip p j = j + 1 by simp [skip]; omega]
    exact foldMetrics_skip_after l (j + 1) _ (by omega)

include hk in
/-- The run of `CopyAttributes` on the unit with position `p` erased is the run on the whole
unit, seen through `skip p`, when the step at `p` changes nothing else. -/
theorem foldMetrics_eraseIdx (hd : ∀ m h, stepS p m h ∘ skip p = h ∘ skip p) :
    ∀ (l : List Metric) (i : ℕ) (h : Heap), i ≤ p →
      foldMetrics stepF i (l.eraseIdx (p - i)) (h ∘ skip p) = foldMetrics stepS i l h ∘ skip p
  | [], _, _, _ => rfl
  | m :: l, i, h, hi => by
    rcases Nat.eq_or_lt_of_le hi with rfl | hlt
    · rw [Nat.sub_self, List.eraseIdx_cons_zero, foldMetrics, ← hd m h]
      exact foldMetrics_skip_after hk l i _ le_rfl
    · rw [show p - i = p - (i + 1) + 1 by omega, List.eraseIdx_cons_succ, foldMetrics, foldMetrics, hk,
        show skip p i = i by simp [skip, hlt]]
      exact foldMetrics_eraseIdx hd l (i + 1) _ hlt

end Fold

/-- **Erasing a metric that is no rule's source commutes with `CopyAttributes`.** -/
theorem copyAttributes_eraseIdx (t : Target) (ms : List Metric) (rules : List DecorateRule) (p : ℕ)
    (hp : ∀ m, ms[p]? = some m → ∀ r ∈ rules, m.name ≠ r.source) :
    (copyAttributes ⟨t, ms.eraseIdx p⟩ rules).metrics = (copyAttributes ⟨t, ms⟩ rules).metrics.eraseIdx p := by
  have h0 : heapOf (ms.eraseIdx p) = heapOf ms ∘ skip p := by
    funext x; simp only [heapOf, Function.comp_apply, getElem?_eraseIdx_skip]
  have hfold := foldMetrics_eraseIdx (decorateMetric_eraseIdx ms rules p hp)
    (fun m h => funext fun x => decorateMetric_frame _ _ _ _ _ (skip_ne p x) h) ms 0 (heapOf ms)
    (Nat.zero_le p)
  rw [Nat.sub_zero, ← h0] at hfold
  simp only [copyAttributes_live, copyAttributesLive, hfold]
  exact List.ext_getElem? fun x => by simp [withHeap, getElem?_eraseIdx_skip]

/-- Two lists of metrics with the same shapes have the same names at each position. -/
theorem getElem?_of_map_shape {l l' : List Metric} (h : l.map Metric.shape = l'.map Metric.shape)
    {p : ℕ} {m : Metric} (hm : l'[p]? = some m) : ∃ m', l[p]? = some m' ∧ m'.name = m.name := by
  have := congrArg (·[p]?) h
  simp only [List.getElem?_map, hm, Option.map_some'] at this
  obtain ⟨m', hm', he⟩ := Option.map_eq_some'.1 this
  exact ⟨m', hm', congrArg Prod.fst he⟩

theorem mem_of_map_shape {l l' : List Metric} (h : l.map Metric.shape = l'.map Metric.shape)
    {m : Metric} (hm : m ∈ l) : ∃ m' ∈ l', m'.name = m.name := by
  obtain ⟨m', hm', he⟩ := List.mem_map.1 (h ▸ List.mem_map_of_mem Metric.shape hm)
  exact ⟨m', hm', congrArg Prod.fst he⟩

theorem filter_eraseIdx_of_drop {q : Metric → Bool} :
    ∀ (l : List Metric) (p : ℕ) {m : Metric}, l[p]? = some m → q m = false →
      (l.eraseIdx p).filter q = l.filter q
  | [], _, _, h, _ => by simp at h
  | a :: l, 0, m, h, hq => by
    simp only [List.getElem?_cons_zero, Option.some.injEq] at h; subst h
    simp [List.filter_cons, hq]
  | a :: l, p + 1, m, h, hq => by
    rw [List.eraseIdx_cons_succ, List.filter_cons, List.filter_cons,
      filter_eraseIdx_of_drop l p (by simpa using h) hq]

/-- **`CopyAttributes` commutes with dropping metrics that are no rule's source**: filtering by
a property of names after it gives what it gives on the filtered unit. -/
theorem copyAttributes_filter (t : Target) (rules : List DecorateRule) (q : String → Bool) :
    ∀ (ms : List Metric), (∀ r ∈ rules, ∀ m ∈ ms, m.name = r.source → q m.name = true) →
      (copyAttributes ⟨t, ms⟩ rules).metrics.filter (fun m => q m.name) =
        (copyAttributes ⟨t, ms.filter fun m => q m.name⟩ rules).metrics
  | ms, hsrc => by
    by_cases hall : ∀ m ∈ ms, q m.name = true
    · have hkeep : ∀ l : List Metric, l.map Metric.shape = ms.map Metric.shape →
          l.filter (fun m => q m.name) = l := fun l hl => List.filter_eq_self.2 fun m hm => by
        obtain ⟨m', hm', hn⟩ := mem_of_map_shape hl hm
        exact hn ▸ hall m' hm'
      rw [hkeep _ (copyAttributes_shape _ _), hkeep ms rfl]
    · push_neg at hall
      obtain ⟨m, hm, hq⟩ := hall
      obtain ⟨p, hp⟩ := List.mem_iff_getElem?.1 hm
      have hq' : q m.name = false := by simpa using hq
      have hns : ∀ m', ms[p]? = some m' → ∀ r ∈ rules, m'.name ≠ r.source := by
        intro m' hm' r hr he
        rw [hp] at hm'; cases hm'
        exact hq (hsrc r hr m hm he)
      -- the copy of the dropped metric is dropped too
      obtain ⟨m', hm', hn⟩ := getElem?_of_map_shape (copyAttributes_shape ⟨t, ms⟩ rules) hp
      have hlt : p < ms.length := (List.getElem?_eq_some_iff.1 hp).1
      rw [← filter_eraseIdx_of_drop _ p hm' (hn ▸ hq'),
        ← copyAttributes_eraseIdx t ms rules p hns,
        copyAttributes_filter t rules q (ms.eraseIdx p)
          (fun r hr m'' hm'' => hsrc r hr m'' (List.mem_of_mem_eraseIdx hm'')),
        filter_eraseIdx_of_drop ms p hp hq']
termination_by ms => ms.length
decreasing_by
  all_goals simp_wf
  rw [List.length_eraseIdx_of_lt hlt]; omega

theorem addAttributes_filter (tm : TargetMetrics) (ignoreRules : List IgnoreRule)
    (rules : List AddAttributesRule) :
    (addAttributes (filter tm ignoreRules) rules).metrics =
      (addAttributes tm rules).metrics.filter fun m => !shouldIgnore ignoreRules m.name := by
  unfold addAttributes
  split <;> simp only [filter_metrics, List.filter_map]; rfl

/-- **Filtering first only matters for decoration sources.** When no metric that `Filter`
drops is named as the source of a copy rule, filtering after `AddAttributes` and `Decorate`
emits the same metrics as filtering before them, the order `RuleProcessor` uses. -/
theorem filter_decorate_comm (tm : TargetMetrics) (ignoreRules : List IgnoreRule)
    (addRules : List AddAttributesRule) (decorateRules : List DecorateRule)
    (hsrc : ∀ r ∈ decorateRules, ∀ m ∈ tm.metrics, m.name = r.source →
      shouldIgnore ignoreRules m.name = false) :
    (filter (decorate (addAttributes tm addRules) decorateRules) ignoreRules).metrics =
      (decorate (addAttributes (filter tm ignoreRules) addRules) decorateRules).metrics := by
  let u := addAttributes tm addRules
  have hsrc' : ∀ r ∈ decorateRules, ∀ m ∈ u.metrics, m.name = r.source →
      (!shouldIgnore ignoreRules m.name) = true := by
    intro r hr m hm he
    obtain ⟨m0, hm0, hn⟩ := mem_of_map_shape (addAttributes_shape tm addRules) hm
    simpa [← hn] using hsrc r hr m0 hm0 (hn.trans he)
  have key : (copyAttributes u decorateRules).metrics.filter (fun m => !shouldIgnore ignoreRules m.name) =
      (copyAttributes (addAttributes (filter tm ignoreRules) addRules) decorateRules).metrics :=
    (copyAttributes_filter u.target decorateRules (fun n => !shouldIgnore ignoreRules n) u.metrics hsrc').trans
      (copyAttributes_metrics_congr (addAttributes_filter tm ignoreRules addRules).symm decorateRules)
  rw [filter_metrics, decorate_metrics, decorate_metrics, List.filter_map, addAttributes_target,
    addAttributes_target, filter_target]
  exact congrArg _ key

/-- Dropping `C`, which only receives labels, can be done before or after `Decorate`. -/
theorem filter_decorate_comm_chain :
    (∀ r ∈ chainUnit.2, ∀ m ∈ chainUnit.1.metrics, m.name = r.source →
        shouldIgnore [⟨["C"], []⟩] m.name = false) ∧
      (filter (decorate (addAttributes chainUnit.1 []) chainUnit.2) [⟨["C"], []⟩]).metrics =
        (decorate (addAttributes (filter chainUnit.1 [⟨["C"], []⟩]) []) chainUnit.2).metrics :=
  ⟨by decide, filter_decorate_comm _ _ _ _ (by decide)⟩

/-- Dropping the source `A` late still lets it decorate `B`, and through `B`, `C`. -/
example :
    (filter (decorate (addAttributes chainUnit.1 []) chainUnit.2) [⟨["A"], []⟩]).metrics.map
        (·.attributes "a") = [some "1", some "1"] ∧
      (decorate (addAttributes (filter chainUnit.1 [⟨["A"], []⟩]) []) chainUnit.2).metrics.map
        (·.attributes "a") = [none, none] := by
  decide

end NriPrometheus
