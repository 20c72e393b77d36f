import NriPrometheus.Rules

/-!
# The decoration index

Mirrors `MatchingDecorate`, `appendDecorate` and `appendLabels`. For every rule, every
destination prefix and every metric name of the unit (each name once per prefix, by
`duplicatedMetrics`), the rule is appended to `Dests[name]` when the prefix starts the
name; then every metric named as some rule's source has a reference to its attribute
map appended to `SourceLabels[name]`. A Go map is a reference and each metric of a unit
owns its map, so a reference to a metric's attributes is the metric's position.

* `matchingDecorate_dests`: `Dests[n]` holds, for each rule in order, one copy of the
  rule per destination prefix of it that starts `n`, when `n` names a metric.
* `matchingDecorate_twice`: so a rule with two prefixes starting one name is listed twice
  for it, although `duplicatedMetrics` is there to avoid adding a rule twice to a metric.
* `matchingDecorate_sourceLabels`: `SourceLabels[s]` lists the positions of the metrics
  named `s`, in unit order, when `s` is a rule's source and names a metric.
-/

namespace NriPrometheus

open LabelSet

deriving instance DecidableEq for DecorateRule

/-- `DecorationMap`. A label set of `SourceLabels` is a reference to a metric's
attributes: the metric's position in the unit. -/
structure DecorationMap where
  dests : SliceMap DecorateRule
  sourceLabels : SliceMap ℕ

/-- `appendDecorate`. -/
def appendDecorate (m : SliceMap DecorateRule) (key : String) (r : DecorateRule) :
    SliceMap DecorateRule :=
  appendEntry m key r

/-- `appendLabels`. -/
def appendLabels (m : SliceMap ℕ) (key : String) (ls : ℕ) : SliceMap ℕ := appendEntry m key ls

/-- The loop over the metrics for one destination prefix; `dup` is `duplicatedMetrics`. -/
def scanPrefix (r : DecorateRule) (destPrefix : String) :
    List Metric → List String → SliceMap DecorateRule → SliceMap DecorateRule
  | [], _, dests => dests
  | m :: ms, dup, dests =>
    if m.name ∈ dup then scanPrefix r destPrefix ms dup dests
    else scanPrefix r destPrefix ms (m.name :: dup)
      (if hasPrefix m.name destPrefix then appendDecorate dests m.name r else dests)

/-- The first loop, over the rules: `Dests`, and `sources`, the rules by source name. -/
def matchRules (ms : List Metric) :
    List DecorateRule → SliceMap DecorateRule × SliceMap DecorateRule →
      SliceMap DecorateRule × SliceMap DecorateRule
  | [], acc => acc
  | r :: rest, (dests, sources) =>
    matchRules ms rest
      (r.dest.foldl (fun dests destPrefix => scanPrefix r destPrefix ms [] dests) dests,
        appendDecorate sources r.source r)

/-- The second loop, from position `i` on: a reference to the attributes of each metric
named as a source. -/
def cacheSources (sources : SliceMap DecorateRule) : ℕ → List Metric → SliceMap ℕ → SliceMap ℕ
  | _, [], sl => sl
  | i, m :: ms, sl =>
    cacheSources sources (i + 1) ms
      (if (sources m.name).isSome then appendLabels sl m.name i else sl)

/-- `MatchingDecorate`. -/
def matchingDecorate (tm : TargetMetrics) (rules : List DecorateRule) : DecorationMap :=
  let (dests, sources) := matchRules tm.metrics rules (fun _ => none, fun _ => none)
  ⟨dests, cacheSources sources 0 tm.metrics fun _ => none⟩

/-- One copy of `r` for each of its destination prefixes that starts `n`. -/
def destCopies (n : String) (r : DecorateRule) : List DecorateRule :=
  (r.dest.filter (hasPrefix n)).map fun _ => r

/-- The positions, counted from `i`, of the metrics named `n`. -/
def positionsOf (n : String) : ℕ → List Metric → List ℕ
  | _, [] => []
  | i, m :: ms => if m.name = n then i :: positionsOf n (i + 1) ms else positionsOf n (i + 1) ms


/-- One prefix scan appends the rule once to each metric name it starts, unless the name
was seen before. -/
theorem scanPrefix_apply (r : DecorateRule) (p : String) (n : String) :
    ∀ (ms : List Metric) (dup : List String) (d : SliceMap DecorateRule),
      scanPrefix r p ms dup d n =
        if n ∉ dup ∧ n ∈ ms.map (·.name) ∧ hasPrefix n p then some ((d n).getD [] ++ [r]) else d n
  | [], _, _ => by simp [scanPrefix]
  | m :: ms, dup, d => by
    simp only [scanPrefix]
    split
    · rw [scanPrefix_apply r p n ms]
      by_cases hn : n = m.name
      · subst hn; simp [*]
      · simp [hn]
    · rw [scanPrefix_apply r p n ms]
      by_cases hn : n = m.name
      · rw [hn]; by_cases hp : hasPrefix m.name p <;> simp [*, appendDecorate]
      · by_cases hp : hasPrefix m.name p <;> simp [hn, hp, appendDecorate]

theorem foldl_scanPrefix_apply (r : DecorateRule) (ms : List Metric) (n : String) :
    ∀ (ps : List String) (d : SliceMap DecorateRule),
      (ps.foldl (fun d p => scanPrefix r p ms [] d) d) n =
        if n ∈ ms.map (·.name) ∧ ps.filter (hasPrefix n) ≠ [] then
          some ((d n).getD [] ++ (ps.filter (hasPrefix n)).map fun _ => r)
        else d n
  | [], _ => by simp
  | p :: ps, d => by
    rw [List.foldl_cons, foldl_scanPrefix_apply r ms n ps, scanPrefix_apply]
    by_cases hm : n ∈ ms.map (·.name) <;> by_cases hp : hasPrefix n p <;>
      by_cases hf : ps.filter (hasPrefix n) = [] <;> simp [hm, hp, hf, List.filter_cons]

theorem matchRules_dests (ms : List Metric) (n : String) :
    ∀ (rules : List DecorateRule) (d s : SliceMap DecorateRule),
      (matchRules ms rules (d, s)).1 n =
        if n ∈ ms.map (·.name) ∧ rules.flatMap (destCopies n) ≠ [] then
          some ((d n).getD [] ++ rules.flatMap (destCopies n))
        else d n
  | [], d, s => by simp [matchRules]
  | r :: rest, d, s => by
    rw [matchRules, matchRules_dests ms n rest, foldl_scanPrefix_apply]
    by_cases hm : n ∈ ms.map (·.name) <;> by_cases hf : r.dest.filter (hasPrefix n) = [] <;>
      by_cases hr : rest.flatMap (destCopies n) = [] <;> simp [hm, hf, hr, destCopies]

theorem matchRules_sources (ms : List Metric) (n : String) :
    ∀ (rules : List DecorateRule) (d s : SliceMap DecorateRule),
      ((matchRules ms rules (d, s)).2 n).isSome = ((s n).isSome || rules.any (·.source = n))
  | [], d, s => by simp [matchRules]
  | r :: rest, d, s => by
    rw [matchRules, matchRules_sources ms n rest]
    by_cases h : n = r.source <;> simp [h, appendDecorate, eq_comm]

theorem cacheSources_apply (sources : SliceMap DecorateRule) (n : String) :
    ∀ (i : ℕ) (ms : List Metric) (sl : SliceMap ℕ),
      cacheSources sources i ms sl n =
        if (sources n).isSome ∧ positionsOf n i ms ≠ [] then
          some ((sl n).getD [] ++ positionsOf n i ms)
        else sl n
  | _, [], _ => by simp [cacheSources, positionsOf]
  | i, m :: ms, sl => by
    rw [cacheSources, cacheSources_apply sources n (i + 1) ms]
    by_cases hn : m.name = n
    · subst hn; by_cases hs : (sources m.name).isSome <;> simp [hs, positionsOf, appendLabels]
    · by_cases hs : (sources m.name).isSome <;> simp [hs, hn, positionsOf, appendLabels, Ne.symm hn]
theorem positionsOf_eq_nil_iff (n : String) :
    ∀ (i : ℕ) (ms : List Metric), positionsOf n i ms = [] ↔ n ∉ ms.map (·.name)
  | _, [] => by simp [positionsOf]
  | i, m :: ms => by
    by_cases h : m.name = n
    · simp [positionsOf, h]
    · simp [positionsOf, h, Ne.symm h, positionsOf_eq_nil_iff n (i + 1) ms]

/-- **`Dests` in closed form**: one copy of each rule per destination prefix of it that
starts the name, for the names of the unit's metrics. -/
theorem matchingDecorate_dests (tm : TargetMetrics) (rules : List DecorateRule) (n : String) :
    (matchingDecorate tm rules).dests n =
      if n ∈ tm.metrics.map (·.name) ∧ rules.flatMap (destCopies n) ≠ [] then
        some (rules.flatMap (destCopies n))
      else none := by
  simp [matchingDecorate, matchRules_dests]

/-- **`SourceLabels` in closed form**: the positions of the metrics named `s`, in unit
order, for a rule's source `s` that names a metric. -/
theorem matchingDecorate_sourceLabels (tm : TargetMetrics) (rules : List DecorateRule) (s : String) :
    (matchingDecorate tm rules).sourceLabels s =
      if (∃ r ∈ rules, r.source = s) ∧ s ∈ tm.metrics.map (·.name) then
        some (positionsOf s 0 tm.metrics)
      else none := by
  simp [matchingDecorate, cacheSources_apply, matchRules_sources, positionsOf_eq_nil_iff]

/-- A rule whose destination prefixes `a` and `ab` both start `abc` is listed twice in
`Dests[abc]`. -/
theorem matchingDecorate_twice :
    (matchingDecorate ⟨Target.new "" {} ⟨"", "", LabelSet.empty⟩,
        [⟨"abc", 0, LabelSet.empty⟩]⟩ [⟨"x", ["a", "ab"], [], []⟩]).dests "abc" =
      some [⟨"x", ["a", "ab"], [], []⟩, ⟨"x", ["a", "ab"], [], []⟩] := by decide

end NriPrometheus
