import NriPrometheus.Rules
import Mathlib.Data.List.Pairwise

/-!
# Renaming attributes

Mirrors `Rename`. For each metric and each rule whose `MetricPrefix` starts the
metric's name, the loop `for current, updated := range rr.Attributes` copies the value
of `current`, when present, to `updated`; the old attribute stays (an alias, not a
move). Go enumerates a map in a new random order at every `range`, so the model takes
that order as a `MapOrder`, one permutation per metric and rule.

* `rename_order`: the order can change the result: with `a → b` and `b → c` in one rule,
  `c` ends with the old value of `a` or of `b`.
* `rename_eq_listed`: it cannot when, in every rule, no two entries share a new name and
  no entry's new name is another entry's old name; then any enumeration gives the result
  of the listed one.
* `rename_frame`: under every enumeration order, `Rename` removes no attribute and writes
  only the new names of its entries.
-/

namespace NriPrometheus

open LabelSet

/-- The order in which `range` enumerates the entries of a rule's `Attributes` map, for
each metric index and rule index: always a permutation of the entries. -/
structure MapOrder where
  enum : ℕ → ℕ → List (String × String) → List (String × String)
  perm : ∀ mi ri l, (enum mi ri l).Perm l

/-- The entries in the listed order. -/
def MapOrder.listed : MapOrder := ⟨fun _ _ l => l, fun _ _ _ => List.Perm.refl _⟩

/-- The entries in the reverse of the listed order. -/
def MapOrder.reversed : MapOrder := ⟨fun _ _ l => l.reverse, fun _ _ l => List.reverse_perm l⟩

/-- One step of the innermost loop: `attributes[updated] = attributes[current]` when
`current` is present. -/
def renameAttribute (a : LabelSet) (p : String × String) : LabelSet :=
  match a p.1 with
  | some v => a.set p.2 v
  | none => a

/-- The attributes of metric `mi`, named `name`, after the rules from index `ri` on. -/
def renamedAttributes (ord : MapOrder) (mi : ℕ) (name : String) :
    ℕ → List RenameRule → LabelSet → LabelSet
  | _, [], a => a
  | ri, rr :: rest, a =>
    renamedAttributes ord mi name (ri + 1) rest
      (if hasPrefix name rr.metricPrefix then (ord.enum mi ri rr.attributes).foldl renameAttribute a
        else a)

/-- `Rename`, under the enumeration order `ord`. -/
def rename (ord : MapOrder) (tm : TargetMetrics) (rules : List RenameRule) : TargetMetrics :=
  if rules.isEmpty then tm
  else { tm with metrics := tm.metrics.mapIdx fun mi m =>
    { m with attributes := renamedAttributes ord mi m.name 0 rules m.attributes } }

@[simp] theorem rename_target (ord : MapOrder) (tm : TargetMetrics) (rules : List RenameRule) :
    (rename ord tm rules).target = tm.target := by
  unfold rename; split <;> rfl

theorem rename_shape (ord : MapOrder) (tm : TargetMetrics) (rules : List RenameRule) :
    (rename ord tm rules).metrics.map Metric.shape = tm.metrics.map Metric.shape := by
  unfold rename
  split
  · rfl
  · exact map_mapIdx_of fun _ _ => rfl

theorem rename_metrics_congr (ord : MapOrder) {tm tm' : TargetMetrics} (h : tm.metrics = tm'.metrics)
    (rules : List RenameRule) : (rename ord tm rules).metrics = (rename ord tm' rules).metrics := by
  unfold rename; split <;> simp [h]

/-- Two entries of one rule that cannot see each other's writes. -/
def Independent (p q : String × String) : Prop := p.2 ≠ q.2 ∧ p.2 ≠ q.1 ∧ q.2 ≠ p.1

instance : DecidableRel Independent := fun _ _ => inferInstanceAs (Decidable (_ ∧ _ ∧ _))

theorem independent_symm : Symmetric Independent :=
  fun _ _ ⟨h₁, h₂, h₃⟩ => ⟨h₁.symm, h₃, h₂⟩

/-- Independent entries commute. -/
theorem renameAttribute_comm {p q : String × String} (h : Independent p q) (a : LabelSet) :
    renameAttribute (renameAttribute a p) q = renameAttribute (renameAttribute a q) p := by
  obtain ⟨h₁, h₂, h₃⟩ := h
  unfold renameAttribute
  cases hp : a p.1 <;> cases hq : a q.1 <;>
    simp only [hp, hq, set_apply, if_neg (Ne.symm h₂), if_neg (Ne.symm h₃), set_set_comm h₁]

/-- A rule's entries are pairwise independent. -/
def RenameRule.Independent (rr : RenameRule) : Prop := rr.attributes.Pairwise NriPrometheus.Independent

instance (rr : RenameRule) : Decidable rr.Independent := inferInstanceAs (Decidable (List.Pairwise _ _))

/-- For a rule with independent entries, every enumeration gives the same attributes. -/
theorem foldl_renameAttribute_perm {l l' : List (String × String)} (hp : l'.Perm l)
    (hl : l.Pairwise Independent) (a : LabelSet) :
    l'.foldl renameAttribute a = l.foldl renameAttribute a := by
  refine hp.foldl_eq' (fun x hx y hy z => ?_) a
  by_cases hxy : x = y
  · rw [hxy]
  · exact renameAttribute_comm (hl.forall independent_symm (hp.subset hx) (hp.subset hy) hxy) z

theorem renamedAttributes_eq_listed (ord : MapOrder) (mi : ℕ) (name : String) :
    ∀ (rules : List RenameRule) (ri : ℕ) (a : LabelSet), (∀ rr ∈ rules, rr.Independent) →
      renamedAttributes ord mi name ri rules a = renamedAttributes .listed mi name ri rules a
  | [], _, _, _ => rfl
  | rr :: rest, ri, a, h => by
    simp only [renamedAttributes, MapOrder.listed,
      foldl_renameAttribute_perm (ord.perm mi ri rr.attributes) (h rr (List.mem_cons_self _ _))]
    exact renamedAttributes_eq_listed ord mi name rest _ _ fun r hr => h r (List.mem_cons_of_mem _ hr)

/-- A unit with one metric whose attributes `a` and `b` differ, and a rule `a → b, b → c`. -/
def renameChain : TargetMetrics × List RenameRule :=
  (⟨Target.new "" {} ⟨"", "", empty⟩,
    [⟨"m", 0, (empty.set "a" "1").set "b" "2"⟩]⟩, [⟨"", [("a", "b"), ("b", "c")]⟩])

/-- **Enumeration order does not matter for independent entries.** When in every rule no
two entries share a new name and no entry's new name is another entry's old name, `Rename`
gives every enumeration order the result of the listed one. -/
theorem rename_eq_listed (ord : MapOrder) (tm : TargetMetrics) (rules : List RenameRule)
    (h : ∀ rr ∈ rules, rr.Independent) : rename ord tm rules = rename .listed tm rules := by
  unfold rename
  split
  · rfl
  · simp only [renamedAttributes_eq_listed ord _ _ rules 0 _ h]

/-- Disjoint renamings `a → x, b → y` give the same result in either order. -/
theorem rename_eq_listed_disjoint :
    (∀ rr ∈ [(⟨"", [("a", "x"), ("b", "y")]⟩ : RenameRule)], rr.Independent) ∧
      rename .reversed renameChain.1 [⟨"", [("a", "x"), ("b", "y")]⟩] =
        rename .listed renameChain.1 [⟨"", [("a", "x"), ("b", "y")]⟩] :=
  ⟨by decide, rename_eq_listed .reversed renameChain.1 _ (by decide)⟩

/-- **The order matters in general**: the two enumerations of `a → b, b → c` leave `c` with
the old value of `a` and of `b` respectively. -/
theorem rename_order :
    (rename .listed renameChain.1 renameChain.2).metrics.map (·.attributes "c") = [some "1"] ∧
      (rename .reversed renameChain.1 renameChain.2).metrics.map (·.attributes "c") = [some "2"] := by
  decide

theorem foldl_renameAttribute_inv (P : LabelSet → Prop) :
    ∀ (l : List (String × String)) (a : LabelSet), (∀ p ∈ l, ∀ a, P a → P (renameAttribute a p)) →
      P a → P (l.foldl renameAttribute a)
  | [], _, _, ha => ha
  | p :: l, a, hs, ha =>
    foldl_renameAttribute_inv P l _ (fun q hq => hs q (.tail _ hq)) (hs p (.head _) a ha)

theorem renamedAttributes_inv (P : LabelSet → Prop) (ord : MapOrder) (mi : ℕ) (name : String) :
    ∀ (rules : List RenameRule) (ri : ℕ) (a : LabelSet),
      (∀ rr ∈ rules, ∀ p ∈ rr.attributes, ∀ a, P a → P (renameAttribute a p)) →
      P a → P (renamedAttributes ord mi name ri rules a)
  | [], _, _, _, ha => ha
  | rr :: rest, ri, a, hs, ha => by
    refine renamedAttributes_inv P ord mi name rest _ _ (fun r hr => hs r (.tail _ hr)) ?_
    split
    · exact foldl_renameAttribute_inv P _ a
        (fun p hp => hs rr (.head _) p ((ord.perm mi ri _).subset hp)) ha
    · exact ha

/-- The rules remove no attribute, and one that no entry names as new keeps its value. -/
theorem renamedAttributes_frame (ord : MapOrder) (mi : ℕ) (name : String) (rules : List RenameRule)
    (ri : ℕ) (a : LabelSet) (k : String) :
    ((a k).isSome → (renamedAttributes ord mi name ri rules a k).isSome) ∧
      ((∀ rr ∈ rules, ∀ p ∈ rr.attributes, p.2 ≠ k) → renamedAttributes ord mi name ri rules a k = a k) := by
  refine renamedAttributes_inv (fun b => ((a k).isSome → (b k).isSome) ∧
      ((∀ rr ∈ rules, ∀ p ∈ rr.attributes, p.2 ≠ k) → b k = a k))
    ord mi name rules ri a (fun rr hr p hp b hb => ?_) ⟨id, fun _ => rfl⟩
  unfold renameAttribute
  split
  · by_cases hk : p.2 = k
    · exact ⟨fun _ => by simp [hk], fun hw => absurd hk (hw rr hr p hp)⟩
    · simpa only [set_apply, if_neg (Ne.symm hk)] using hb
  · exact hb

/-- **`Rename` never removes an attribute, and writes only the new names of its
entries**, whatever the enumeration order: an attribute present before is present after,
and one that no entry of any rule names as new keeps its value. -/
theorem rename_frame (ord : MapOrder) (tm : TargetMetrics) (rules : List RenameRule) {mi : ℕ}
    {m : Metric} (hm : tm.metrics[mi]? = some m) (k : String) :
    ∃ a, (rename ord tm rules).metrics[mi]? = some { m with attributes := a } ∧
      ((m.attributes k).isSome → (a k).isSome) ∧
      ((∀ rr ∈ rules, ∀ p ∈ rr.attributes, p.2 ≠ k) → a k = m.attributes k) := by
  unfold rename
  split
  · exact ⟨m.attributes, hm, id, fun _ => rfl⟩
  · exact ⟨_, by simp [List.getElem?_mapIdx, hm], renamedAttributes_frame ord mi m.name rules 0 _ k⟩

/-- In the chain `a → b, b → c`, the attribute `a`, which no entry writes, keeps its value. -/
theorem rename_frame_chain :
    renameChain.1.metrics[0]? = some ⟨"m", 0, (empty.set "a" "1").set "b" "2"⟩ ∧
      ∃ a, (rename .reversed renameChain.1 renameChain.2).metrics[0]? =
          some { (⟨"m", 0, (empty.set "a" "1").set "b" "2"⟩ : Metric) with attributes := a } ∧
        ((((empty.set "a" "1").set "b" "2") "a").isSome → (a "a").isSome) ∧
        ((∀ rr ∈ renameChain.2, ∀ p ∈ rr.attributes, p.2 ≠ "a") →
          a "a" = ((empty.set "a" "1").set "b" "2") "a") :=
  ⟨rfl, rename_frame .reversed renameChain.1 renameChain.2 rfl "a"⟩

end NriPrometheus
