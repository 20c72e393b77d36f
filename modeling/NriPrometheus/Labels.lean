import Mathlib.Data.List.Basic

/-!
# Label sets and the Go maps of the rule engine

A `labels.Set` is a Go map from label names to values. The `labels` package is not
part of the sources, so its three operations are modelled from the spec:
`accumulate` (`labels.Accumulate`, copy with overwrite), `accumulateOnly`
(`labels.AccumulateOnly`, the same restricted to a key set) and `join`
(`labels.Join`, which succeeds iff every join key is present in both sets with equal
values, giving the whole source set).

A label set is a function, so two sets are equal exactly when they agree at every
key, whatever order Go enumerated them in. Overwriting is a monoid on label sets
(`accumulate_assoc`, `accumulate_self`); the decoration proofs rest on it.

`hasPrefix`, `hasSuffix` and `contains` are `strings.HasPrefix`, `strings.HasSuffix` and
`strings.Contains`, on the characters of the strings.
-/

namespace NriPrometheus

/-- `strings.HasPrefix s p`. -/
def hasPrefix (s p : String) : Bool := p.data.isPrefixOf s.data

/-- `strings.HasSuffix s x`. -/
def hasSuffix (s x : String) : Bool := x.data.isSuffixOf s.data

/-- `strings.Contains s sub`. -/
def contains (s sub : String) : Bool := s.data.tails.any sub.data.isPrefixOf

/-- A `labels.Set`: the value of each present label name. -/
abbrev LabelSet := String → Option String

namespace LabelSet

/-- The empty set `labels.Set{}`. -/
def empty : LabelSet := fun _ => none

/-- The assignment `m[k] = v`. -/
def set (m : LabelSet) (k v : String) : LabelSet := fun k' => if k' = k then some v else m k'

/-- Builds a set from its entries; a later entry overwrites an earlier one. -/
def ofList (l : List (String × String)) : LabelSet := l.foldl (fun m p => m.set p.1 p.2) empty

/-- `src` restricted to the keys in `keys`. -/
def restrict (src : LabelSet) (keys : List String) : LabelSet :=
  fun k => if k ∈ keys then src k else none

/-- Two sets agree on every key of `keys`. -/
def AgreeOn (keys : List String) (a b : LabelSet) : Prop := ∀ k ∈ keys, a k = b k

@[simp] theorem empty_apply (k : String) : empty k = none := rfl

@[simp] theorem set_apply (m : LabelSet) (k v k' : String) :
    m.set k v k' = if k' = k then some v else m k' := rfl

@[simp] theorem restrict_apply (src : LabelSet) (keys : List String) (k : String) :
    src.restrict keys k = if k ∈ keys then src k else none := rfl

/-- Assignments to different keys commute. -/
theorem set_set_comm {a : LabelSet} {k k' v v' : String} (h : k ≠ k') :
    (a.set k v).set k' v' = (a.set k' v').set k v := by
  funext x; simp only [set_apply]; split_ifs with h1 h2 <;> first | rfl | exact absurd (h2.symm.trans h1) h

theorem AgreeOn.trans {keys : List String} {a b c : LabelSet} (h₁ : AgreeOn keys a b)
    (h₂ : AgreeOn keys b c) : AgreeOn keys a c :=
  fun k hk => (h₁ k hk).trans (h₂ k hk)

end LabelSet

open LabelSet

/-- Modelled from the spec: `labels.Accumulate(dst, src)` copies every key of `src` into
`dst`, overwriting on conflict. -/
def accumulate (dst src : LabelSet) : LabelSet := fun k =>
  match src k with
  | some v => some v
  | none => dst k

/-- Modelled from the spec: `labels.AccumulateOnly(dst, src, attrs)` is `Accumulate`
restricted to the keys present in `attrs`. -/
def accumulateOnly (dst src : LabelSet) (attrs : List String) : LabelSet := fun k =>
  match src k with
  | some v => if k ∈ attrs then some v else dst k
  | none => dst k

/-- Modelled from the spec: `labels.Join(src, dst, criteria)` succeeds iff every key of
`criteria` is present in both sets with equal values (so an empty `criteria` always
succeeds), and then gives the whole of `src` to copy. -/
def join (src dst : LabelSet) (criteria : List String) : Option LabelSet :=
  if criteria.all fun k => (src k).isSome && decide (src k = dst k) then some src else none

theorem accumulate_eq_or (dst src : LabelSet) (k : String) :
    accumulate dst src k = (src k).or (dst k) := by
  unfold accumulate; cases src k <;> rfl

theorem accumulate_of_none {dst src : LabelSet} {k : String} (h : src k = none) :
    accumulate dst src k = dst k := by
  simp [accumulate, h]

@[simp] theorem accumulate_empty (a : LabelSet) : accumulate a empty = a := rfl

@[simp] theorem empty_accumulate (a : LabelSet) : accumulate empty a = a := by
  funext k; unfold accumulate; cases a k <;> rfl

/-- Overwriting is associative: copying `b` then `c` is copying `b` overwritten by `c`. -/
theorem accumulate_assoc (a b c : LabelSet) :
    accumulate (accumulate a b) c = accumulate a (accumulate b c) := by
  funext k; unfold accumulate; cases c k <;> rfl

@[simp] theorem accumulate_self (a : LabelSet) : accumulate a a = a := by
  funext k; unfold accumulate; cases h : a k <;> simp [h]

/-- Copying the same set twice is copying it once. -/
@[simp] theorem accumulate_accumulate_self (a b : LabelSet) :
    accumulate (accumulate a b) b = accumulate a b := by
  rw [accumulate_assoc, accumulate_self]

/-- Copying part of a set onto itself changes nothing. -/
theorem accumulate_restrict_self (a : LabelSet) (keys : List String) :
    accumulate a (a.restrict keys) = a := by
  funext k; unfold accumulate; by_cases hk : k ∈ keys <;> cases h : a k <;> simp [hk, h]

theorem accumulateOnly_eq (dst src : LabelSet) (attrs : List String) :
    accumulateOnly dst src attrs = accumulate dst (src.restrict attrs) := by
  funext k; unfold accumulateOnly accumulate
  by_cases hk : k ∈ attrs <;> cases h : src k <;> simp [hk, h]

theorem join_eq_some_iff {src dst : LabelSet} {criteria : List String} {s : LabelSet} :
    join src dst criteria = some s ↔
      s = src ∧ ∀ k ∈ criteria, (src k).isSome ∧ src k = dst k := by
  simp only [join, List.all_eq_true, Bool.and_eq_true, decide_eq_true_eq]
  split
  · rename_i h
    exact ⟨fun e => ⟨(Option.some.inj e).symm, h⟩, fun e => by rw [e.1]⟩
  · rename_i h
    exact ⟨fun e => Option.noConfusion e, fun e => absurd e.2 h⟩

/-- `join` reads the destination only at the join keys. -/
theorem join_congr {src dst dst' : LabelSet} {criteria : List String}
    (h : AgreeOn criteria dst dst') : join src dst criteria = join src dst' criteria := by
  have hc : (∀ k ∈ criteria, (src k).isSome ∧ src k = dst k) ↔
      ∀ k ∈ criteria, (src k).isSome ∧ src k = dst' k :=
    forall₂_congr fun k hk => by rw [h k hk]
  simp only [join, List.all_eq_true, Bool.and_eq_true, decide_eq_true_eq, hc]

/-- Copying a set that agrees with `dst` on `keys` keeps `dst`'s values there. -/
theorem agreeOn_accumulate {keys : List String} {dst src : LabelSet}
    (h : ∀ k ∈ keys, src k = none ∨ src k = dst k) : AgreeOn keys (accumulate dst src) dst := by
  intro k hk
  rcases h k hk with h | h
  · exact accumulate_of_none h
  · unfold accumulate; rw [h]; cases dst k <;> rfl

/-- A Go map from strings to slices, `map[string][]β`. -/
abbrev SliceMap (β : Type) := String → Option (List β)

/-- Appends `v` to the slice under `key`, creating the slice when absent: the body that
`appendDecorate` and `appendLabels` share. -/
def appendEntry {β : Type} (m : SliceMap β) (key : String) (v : β) : SliceMap β :=
  fun k => if k = key then some ((m key).getD [] ++ [v]) else m k

@[simp] theorem appendEntry_apply {β : Type} (m : SliceMap β) (key k : String) (v : β) :
    appendEntry m key v k = if k = key then some ((m key).getD [] ++ [v]) else m k := rfl

end NriPrometheus
