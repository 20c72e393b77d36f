import NriPrometheus.Processor
import Mathlib.Data.List.Forall2

/-!
# The streaming stage

Mirrors the goroutine of `RuleProcessor`: it ranges over the input channel, processes
each pair, sends it on `processedPairs` (buffered to `queueLength`), and closes
`processedPairs` when the input is closed and drained. The producer sends its units and
then closes the input; the consumer receives until it sees the output closed and empty.
A `Step` is one action of one of the three parties, so a run is any interleaving of
them. Sends block on a full buffer; a sender meets a waiting receiver directly on an
empty one, which is the only way through an unbuffered channel.

Processing a unit involves a choice: Go draws a new enumeration order at every `range`
over a map in `Rename`. The development is generic in a processing `f o a` of the unit `a`
under the choice `o`, which the worker makes anew at each unit; `ruleProcessor_pipeline`
instantiates it with `RuleProcessor`'s processing under the enumeration orders.

* `Inv`: the invariant of every reachable state. What the consumer received, then the
  output buffer and the pair the worker sends, are processings of the first units, one
  each and in order; the unit the worker holds, the input buffer and the producer's units
  are the others, in order. The output is closed exactly when the worker is done, and then
  the input is closed and drained.
* `progress`: a reachable state where the consumer has not seen the end has a step.
* `measure_lt`: every step lowers `measure`, so every run is finite.
* `pipeline_completes`: from every reachable state some run delivers a processing of every
  unit, every run ends, and a run that cannot go on has delivered them.
-/

namespace NriPrometheus

/-- A Go channel: its buffer and whether it was closed. -/
structure Chan (α : Type) where
  buf : List α
  closed : Bool

/-- Where the worker goroutine is in its loop. -/
inductive Worker (α β : Type)
  /-- at `for pair := range targetMetrics` -/
  | ranging
  /-- holding a received pair -/
  | received (pair : α)
  /-- at `processedPairs <- pair` -/
  | sending (pair : β)
  /-- returned, with `processedPairs` closed -/
  | done

/-- The unprocessed pair the worker holds, if any. -/
def Worker.held {α β : Type} : Worker α β → List α
  | .received a => [a]
  | _ => []

/-- The processed pair the worker sends, if any. -/
def Worker.out {α β : Type} : Worker α β → List β
  | .sending b => [b]
  | _ => []

/-- The units the producer still has to send, the input channel, the worker, the output
channel `processedPairs`, what the consumer received, and whether it saw the end. -/
structure Pipeline (α β : Type) where
  pending : List α
  input : Chan α
  worker : Worker α β
  output : Chan β
  received : List β
  ended : Bool

/-- The start of a run on the units `us`. -/
def Pipeline.init {α β : Type} (us : List α) : Pipeline α β :=
  ⟨us, ⟨[], false⟩, .ranging, ⟨[], false⟩, [], false⟩

/-- The units not processed yet, in order: the one the worker holds, the input buffer and
the producer's. -/
def Pipeline.unprocessed {α β : Type} (s : Pipeline α β) : List α :=
  s.worker.held ++ s.input.buf ++ s.pending

/-- The processed units, in order: those the consumer received, the output buffer and the
one the worker sends. -/
def Pipeline.processed {α β : Type} (s : Pipeline α β) : List β :=
  s.received ++ s.output.buf ++ s.worker.out

/-- `b` is a processing of `a`, under some choice. -/
def Processes {α β γ : Type} (f : γ → α → β) (a : α) (b : β) : Prop := ∃ o, f o a = b

section

variable {α β γ : Type} (f : γ → α → β) (inCap queueLength : ℕ)

/-- One action of the producer, the worker or the consumer. `inCap` is the capacity of the
input channel and `queueLength` that of `processedPairs`. -/
inductive Step : Pipeline α β → Pipeline α β → Prop
  /-- The producer buffers its next unit. -/
  | send {s : Pipeline α β} {a : α} {rest : List α} : s.pending = a :: rest →
      s.input.closed = false → s.input.buf.length < inCap →
      Step s { s with pending := rest, input := { s.input with buf := s.input.buf ++ [a] } }
  /-- The producer hands its next unit to the worker waiting on the empty input. -/
  | handIn {s : Pipeline α β} {a : α} {rest : List α} : s.pending = a :: rest →
      s.input.closed = false → s.input.buf = [] → s.worker = .ranging →
      Step s { s with pending := rest, worker := .received a }
  /-- The producer closes the input after its last unit. -/
  | close {s : Pipeline α β} : s.pending = [] → s.input.closed = false →
      Step s { s with input := { s.input with closed := true } }
  /-- The worker receives the head of the input buffer. -/
  | recv {s : Pipeline α β} {a : α} {rest : List α} : s.worker = .ranging →
      s.input.buf = a :: rest →
      Step s { s with input := { s.input with buf := rest }, worker := .received a }
  /-- The worker runs the stages on the pair it holds, under the choice `o`. -/
  | process {s : Pipeline α β} {a : α} (o : γ) : s.worker = .received a →
      Step s { s with worker := .sending (f o a) }
  /-- The worker buffers the processed pair. -/
  | put {s : Pipeline α β} {b : β} : s.worker = .sending b →
      s.output.buf.length < queueLength →
      Step s { s with worker := .ranging, output := { s.output with buf := s.output.buf ++ [b] } }
  /-- The worker hands the processed pair to the consumer waiting on the empty output. -/
  | handOut {s : Pipeline α β} {b : β} : s.worker = .sending b → s.output.buf = [] →
      s.ended = false → Step s { s with worker := .ranging, received := s.received ++ [b] }
  /-- The range ends on the closed, drained input, and the deferred close runs. -/
  | finish {s : Pipeline α β} : s.worker = .ranging → s.input.closed = true →
      s.input.buf = [] → Step s { s with worker := .done, output := { s.output with closed := true } }
  /-- The consumer receives the head of the output buffer. -/
  | take {s : Pipeline α β} {b : β} {rest : List β} : s.output.buf = b :: rest →
      Step s { s with output := { s.output with buf := rest }, received := s.received ++ [b] }
  /-- The consumer sees the output closed and drained. -/
  | stop {s : Pipeline α β} : s.output.closed = true → s.output.buf = [] → s.ended = false →
      Step s { s with ended := true }

/-- The states of the runs on the units `us`. -/
inductive Reachable (us : List α) : Pipeline α β → Prop
  | init : Reachable us (.init us)
  | step {s t : Pipeline α β} : Reachable us s → Step f inCap queueLength s t → Reachable us t

/-- The invariant of the runs on `us`. -/
structure Inv (us : List α) (s : Pipeline α β) : Prop where
  flow : ∃ done, us = done ++ s.unprocessed ∧ List.Forall₂ (Processes f) done s.processed
  closed_pending : s.input.closed = true → s.pending = []
  output_closed : s.output.closed = true ↔ s.worker = .done
  done_drained : s.worker = .done → s.input.closed = true ∧ s.input.buf = []
  ended_drained : s.ended = true → s.output.closed = true ∧ s.output.buf = []
  input_bound : s.input.buf.length ≤ inCap
  output_bound : s.output.buf.length ≤ queueLength

end

section

variable {α β γ : Type} {f : γ → α → β} {inCap queueLength : ℕ} {us : List α}

/-- The invariant holds at the start. -/
theorem inv_init : Inv f inCap queueLength us (.init us) where
  flow := ⟨[], by simp [Pipeline.init, Pipeline.unprocessed, Worker.held], by
    simp [Pipeline.init, Pipeline.processed, Worker.out]⟩
  closed_pending := by simp [Pipeline.init]
  output_closed := by simp [Pipeline.init]
  done_drained := by simp [Pipeline.init]
  ended_drained := by simp [Pipeline.init]
  input_bound := by simp [Pipeline.init]
  output_bound := by simp [Pipeline.init]

/-- **What a step does to the units**: it moves none, or it processes the next unprocessed
one. -/
theorem Step.units {s t : Pipeline α β} (h : Step f inCap queueLength s t) :
    (t.unprocessed = s.unprocessed ∧ t.processed = s.processed) ∨
      ∃ a o, s.unprocessed = a :: t.unprocessed ∧ t.processed = s.processed ++ [f o a] := by
  cases h with
  | @process a o hw =>
    exact .inr ⟨a, o, by simp [Pipeline.unprocessed, hw, Worker.held],
      by simp [Pipeline.processed, hw, Worker.out]⟩
  | send hp => exact .inl ⟨by simp [Pipeline.unprocessed, hp], rfl⟩
  | handIn hp _ hb hw => exact .inl ⟨by simp [Pipeline.unprocessed, hp, hb, hw, Worker.held],
      by simp [Pipeline.processed, hw, Worker.out]⟩
  | close => exact .inl ⟨rfl, rfl⟩
  | recv hw hb => exact .inl ⟨by simp [Pipeline.unprocessed, hb, hw, Worker.held],
      by simp [Pipeline.processed, hw, Worker.out]⟩
  | put hw => exact .inl ⟨by simp [Pipeline.unprocessed, hw, Worker.held],
      by simp [Pipeline.processed, hw, Worker.out]⟩
  | handOut hw hb => exact .inl ⟨by simp [Pipeline.unprocessed, hw, Worker.held],
      by simp [Pipeline.processed, hw, hb, Worker.out]⟩
  | finish hw => exact .inl ⟨by simp [Pipeline.unprocessed, hw, Worker.held],
      by simp [Pipeline.processed, hw, Worker.out]⟩
  | take hb => exact .inl ⟨rfl, by simp [Pipeline.processed, hb]⟩
  | stop => exact .inl ⟨rfl, rfl⟩

/-- Every step keeps the units in their order, each processed once. -/
theorem Step.flow {s t : Pipeline α β} (h : Step f inCap queueLength s t)
    (hflow : ∃ done, us = done ++ s.unprocessed ∧ List.Forall₂ (Processes f) done s.processed) :
    ∃ done, us = done ++ t.unprocessed ∧ List.Forall₂ (Processes f) done t.processed := by
  obtain ⟨done, hu, hd⟩ := hflow
  rcases h.units with ⟨hu', hp'⟩ | ⟨a, o, hu', hp'⟩
  · exact ⟨done, hu'.symm ▸ hu, hp'.symm ▸ hd⟩
  · exact ⟨done ++ [a], by rw [hu, hu']; simp, hp'.symm ▸ List.rel_append hd (.cons ⟨o, rfl⟩ .nil)⟩

/-- **Every step keeps the invariant.** -/
theorem Inv.step {s t : Pipeline α β} (hi : Inv f inCap queueLength us s)
    (h : Step f inCap queueLength s t) : Inv f inCap queueLength us t := by
  have hflow := h.flow hi.flow
  obtain ⟨-, hcp, hoc, hdd, hed, hib, hob⟩ := hi
  cases h with
  | send hp hc hl =>
    exact ⟨hflow, fun h => absurd h (Bool.eq_false_iff.1 hc), hoc,
      fun h => absurd (hdd h).1 (Bool.eq_false_iff.1 hc), hed, by simp; omega, hob⟩
  | handIn hp hc hb hw =>
    exact ⟨hflow, fun h => absurd h (Bool.eq_false_iff.1 hc), by simp [hoc, hw], Worker.noConfusion,
      hed, hib, hob⟩
  | close hp hc => exact ⟨hflow, fun _ => hp, hoc, fun h => ⟨rfl, (hdd h).2⟩, hed, hib, hob⟩
  | recv hw hb =>
    exact ⟨hflow, hcp, by simp [hoc, hw], Worker.noConfusion, hed, by simp [hb] at hib ⊢; omega, hob⟩
  | process o hw => exact ⟨hflow, hcp, by simp [hoc, hw], Worker.noConfusion, hed, hib, hob⟩
  | put hw hl =>
    exact ⟨hflow, hcp, by simp [hoc, hw], Worker.noConfusion,
      fun h => Worker.noConfusion (hw.symm.trans (hoc.1 (hed h).1)), hib, by simp; omega⟩
  | handOut hw hb he =>
    exact ⟨hflow, hcp, by simp [hoc, hw], Worker.noConfusion,
      fun h => absurd h (Bool.eq_false_iff.1 he), hib, hob⟩
  | finish hw hc hb =>
    exact ⟨hflow, hcp, by simp, fun _ => ⟨hc, hb⟩,
      fun h => Worker.noConfusion (hw.symm.trans (hoc.1 (hed h).1)), hib, hob⟩
  | take hb =>
    exact ⟨hflow, hcp, hoc, hdd, fun h => List.noConfusion ((hed h).2.symm.trans hb), hib,
      by simp [hb] at hob ⊢; omega⟩
  | stop hc hb he => exact ⟨hflow, hcp, hoc, hdd, fun _ => ⟨hc, hb⟩, hib, hob⟩

/-- **The invariant of every reachable state.** -/
theorem Reachable.inv {s : Pipeline α β} (h : Reachable f inCap queueLength us s) :
    Inv f inCap queueLength us s := by
  induction h with
  | init => exact inv_init
  | step _ hst ih => exact ih.step hst

/-- A state a run reaches from a reachable state is reachable. -/
theorem Reachable.steps {s t : Pipeline α β} (hs : Reachable f inCap queueLength us s)
    (h : Relation.ReflTransGen (Step f inCap queueLength) s t) : Reachable f inCap queueLength us t := by
  induction h with
  | refl => exact hs
  | tail _ hst ih => exact ih.step hst

/-- The worker's share of `measure`. -/
def Worker.weight {α β : Type} : Worker α β → ℕ
  | .ranging => 1
  | .received _ => 4
  | .sending _ => 3
  | .done => 0

/-- What is left to do: sends, receives and closes, weighted so that every step lowers it. -/
def Pipeline.measure {α β : Type} (s : Pipeline α β) : ℕ :=
  6 * s.pending.length + 5 * s.input.buf.length + s.worker.weight + s.output.buf.length +
    (if s.input.closed then 0 else 1) + (if s.output.closed then 0 else 1) + (if s.ended then 0 else 1)

/-- **Every step lowers the measure**, so every run is finite. -/
theorem measure_lt {s t : Pipeline α β} (h : Step f inCap queueLength s t) : t.measure < s.measure := by
  cases h with
  | send hp hc => simp [Pipeline.measure, hp, hc]; omega
  | handIn hp hc hb hw => simp [Pipeline.measure, hp, hc, hb, hw, Worker.weight]; omega
  | close hp hc => simp [Pipeline.measure, hc]
  | recv hw hb => simp [Pipeline.measure, hb, hw, Worker.weight]; omega
  | process o hw => simp [Pipeline.measure, hw, Worker.weight]
  | put hw => simp [Pipeline.measure, hw, Worker.weight]; omega
  | handOut hw => simp [Pipeline.measure, hw, Worker.weight]
  | finish hw => simp [Pipeline.measure, hw, Worker.weight]; split <;> omega
  | take hb => simp [Pipeline.measure, hb]
  | stop hc hb he => simp [Pipeline.measure, he]

/-- **No deadlock**: while the consumer has not seen the end, some party can move. -/
theorem progress [Inhabited γ] {s : Pipeline α β} (hi : Inv f inCap queueLength us s)
    (he : s.ended = false) : ∃ t, Step f inCap queueLength s t := by
  rcases hob : s.output.buf with _ | ⟨b, rest⟩
  · rcases hw : s.worker with _ | a | b | _
    · rcases hb : s.input.buf with _ | ⟨a, rest⟩
      · rcases hp : s.pending with _ | ⟨a, rest⟩
        · cases hc : s.input.closed
          · exact ⟨_, .close hp hc⟩
          · exact ⟨_, .finish hw hc hb⟩
        · have hc : s.input.closed = false := by
            cases hc : s.input.closed
            · rfl
            · simp [hi.closed_pending hc] at hp
          exact ⟨_, .handIn hp hc hb hw⟩
      · exact ⟨_, .recv hw hb⟩
    · exact ⟨_, .process default hw⟩
    · exact ⟨_, .handOut hw hob he⟩
    · exact ⟨_, .stop (hi.output_closed.2 hw) hob he⟩
  · exact ⟨_, .take hob⟩

/-- Every run is finite. -/
theorem step_wf : WellFounded fun t s : Pipeline α β => Step f inCap queueLength s t :=
  Subrelation.wf (fun h => measure_lt h) (InvImage.wf Pipeline.measure Nat.lt_wfRel.wf)

/-- Once the output is closed, every unit has been processed and sent. -/
theorem Inv.sent {s : Pipeline α β} (hi : Inv f inCap queueLength us s) (hc : s.output.closed = true) :
    s.input.closed = true ∧ List.Forall₂ (Processes f) us (s.received ++ s.output.buf) := by
  have hw := hi.output_closed.1 hc
  obtain ⟨hic, hib⟩ := hi.done_drained hw
  obtain ⟨done, hu, hd⟩ := hi.flow
  have hdone : us = done := by
    simpa [Pipeline.unprocessed, hw, hib, hi.closed_pending hic, Worker.held] using hu
  exact ⟨hic, by simpa [hdone, Pipeline.processed, hw, Worker.out] using hd⟩

/-- Once the consumer has seen the end, it has received a processing of every unit. -/
theorem Inv.received_of_ended {s : Pipeline α β} (hi : Inv f inCap queueLength us s)
    (he : s.ended = true) : List.Forall₂ (Processes f) us s.received := by
  obtain ⟨hc, hb⟩ := hi.ended_drained he
  simpa [hb] using (hi.sent hc).2

/-- What the consumer received is a processing of the first units, one each, in order. -/
theorem Inv.received_prefix {s : Pipeline α β} (hi : Inv f inCap queueLength us s) :
    ∃ done, done <+: us ∧ List.Forall₂ (Processes f) done s.received := by
  obtain ⟨done, hu, hd⟩ := hi.flow
  have htake := List.forall₂_take s.received.length hd
  rw [Pipeline.processed, List.append_assoc, List.take_left] at htake
  exact ⟨_, (List.take_prefix _ _).trans ⟨_, hu.symm⟩, htake⟩

/-- **The guarantees of the streaming stage**, for any processing. -/
theorem pipeline_correct [Inhabited γ] {s : Pipeline α β} (hs : Reachable f inCap queueLength us s) :
    s.output.buf.length ≤ queueLength ∧
      (∃ done, done <+: us ∧ List.Forall₂ (Processes f) done s.received) ∧
      (s.ended = true → List.Forall₂ (Processes f) us s.received) ∧
      (s.output.closed = true → s.input.closed = true ∧
        List.Forall₂ (Processes f) us (s.received ++ s.output.buf)) ∧
      (s.ended = false → ∃ t, Step f inCap queueLength s t) ∧
      Acc (fun t s => Step f inCap queueLength s t) s :=
  have hi := hs.inv
  ⟨hi.output_bound, hi.received_prefix, hi.received_of_ended, hi.sent, progress hi, step_wf.apply s⟩

/-- A reachable state with no step has delivered a processing of every unit. -/
theorem Reachable.delivered_of_stuck [Inhabited γ] {s : Pipeline α β}
    (hs : Reachable f inCap queueLength us s) (hn : ∀ t, ¬Step f inCap queueLength s t) :
    s.ended = true ∧ List.Forall₂ (Processes f) us s.received := by
  cases he : s.ended
  · obtain ⟨t, ht⟩ := progress hs.inv he
    exact (hn t ht).elim
  · exact ⟨rfl, hs.inv.received_of_ended he⟩

/-- **Every run can be completed, and every run ends delivered.** From every reachable state
some run reaches a state where the consumer has seen the end and received a processing of
every unit; every run from it is finite; and every run from it that cannot go on ends in
such a state. -/
theorem pipeline_completes [Inhabited γ] {s : Pipeline α β} (hs : Reachable f inCap queueLength us s) :
    (∃ t, Relation.ReflTransGen (Step f inCap queueLength) s t ∧ t.ended = true ∧
        List.Forall₂ (Processes f) us t.received) ∧
      (∀ t, Relation.ReflTransGen (Step f inCap queueLength) s t →
        (∀ t', ¬Step f inCap queueLength t t') →
          t.ended = true ∧ List.Forall₂ (Processes f) us t.received) ∧
      Acc (fun t s => Step f inCap queueLength s t) s := by
  refine ⟨?_, fun t ht hn => (hs.steps ht).delivered_of_stuck hn, step_wf.apply s⟩
  induction s using (@step_wf α β γ f inCap queueLength).induction with
  | h s ih =>
    cases he : s.ended
    · obtain ⟨t, ht⟩ := progress hs.inv he
      obtain ⟨u, hu, hend⟩ := ih t ht (hs.step ht)
      exact ⟨u, .head ht hu, hend⟩
    · exact ⟨s, .refl, he, hs.inv.received_of_ended he⟩

/-- A processing with a choice, for tests: `true` adds one to the unit, `false` keeps it. -/
def incrOrKeep (o : Bool) (n : ℕ) : ℕ := if o then n + 1 else n

/-- Midway through a run on two units, with an unbuffered input and a one-slot output, where
the worker holds the second unit after sending the first, the run can be completed. -/
theorem pipeline_completes_run :
    ∃ s, Reachable incrOrKeep 0 1 [1, 2] s ∧ s.worker = .received 2 ∧
      (∃ t, Relation.ReflTransGen (Step incrOrKeep 0 1) s t ∧ t.ended = true ∧
          List.Forall₂ (Processes incrOrKeep) [1, 2] t.received) ∧
        (∀ t, Relation.ReflTransGen (Step incrOrKeep 0 1) s t → (∀ t', ¬Step incrOrKeep 0 1 t t') →
          t.ended = true ∧ List.Forall₂ (Processes incrOrKeep) [1, 2] t.received) ∧
        Acc (fun t s => Step incrOrKeep 0 1 s t) s :=
  have h := Reachable.step (.step (.step (.step .init (.handIn rfl rfl rfl rfl)) (.process true rfl))
    (.put rfl (by decide))) (.handIn rfl rfl rfl rfl)
  ⟨_, h, rfl, pipeline_completes h⟩

end

instance : Inhabited MapOrder := ⟨.listed⟩

/-- **`RuleProcessor`'s stage delivers every unit once, in order, through a bounded queue.**
In every interleaving the output buffer stays within `queueLength`; what the consumer
received is, unit for unit and in order, a processing of the first units by the stages with
the rule lists flattened from the bundles; once the consumer has seen the end it holds such
a processing of every unit; the output is closed only after the input was closed and a
processing of every unit was sent; and no run deadlocks or goes on forever. -/
theorem ruleProcessor_pipeline (processingRules : List ProcessingRule) (inCap queueLength : ℕ)
    (us : List TargetMetrics) (s : Pipeline TargetMetrics TargetMetrics)
    (hs : Reachable (fun ord => ruleProcessor ord processingRules) inCap queueLength us s) :
    s.output.buf.length ≤ queueLength ∧
      (∃ done, done <+: us ∧ List.Forall₂ (BundleProcessing processingRules) done s.received) ∧
      (s.ended = true → List.Forall₂ (BundleProcessing processingRules) us s.received) ∧
      (s.output.closed = true → s.input.closed = true ∧
        List.Forall₂ (BundleProcessing processingRules) us (s.received ++ s.output.buf)) ∧
      (s.ended = false →
        ∃ t, Step (fun ord => ruleProcessor ord processingRules) inCap queueLength s t) ∧
      Acc (fun t s => Step (fun ord => ruleProcessor ord processingRules) inCap queueLength s t) s := by
  have e : Processes (fun ord => ruleProcessor ord processingRules) = BundleProcessing processingRules :=
    funext fun u => funext fun v => propext (bundleProcessing_iff processingRules u v).symm
  rw [← e]
  exact pipeline_correct hs

/-- Two units of `bundleTest` through an unbuffered input and a one-slot output: the first
has been received, the second is being sent, each processed under its own map order. -/
theorem ruleProcessor_pipeline_run :
    ∃ s, Reachable (fun ord => ruleProcessor ord bundleTest.2) 0 1 [bundleTest.1, bundleTest.1] s ∧
      s.received.length = 1 ∧
      s.output.buf.length ≤ 1 ∧
      (∃ done, done <+: [bundleTest.1, bundleTest.1] ∧
        List.Forall₂ (BundleProcessing bundleTest.2) done s.received) ∧
      (s.ended = true → List.Forall₂ (BundleProcessing bundleTest.2) [bundleTest.1, bundleTest.1] s.received) ∧
      (s.output.closed = true → s.input.closed = true ∧
        List.Forall₂ (BundleProcessing bundleTest.2) [bundleTest.1, bundleTest.1] (s.received ++ s.output.buf)) ∧
      (s.ended = false → ∃ t, Step (fun ord => ruleProcessor ord bundleTest.2) 0 1 s t) ∧
      Acc (fun t s => Step (fun ord => ruleProcessor ord bundleTest.2) 0 1 s t) s :=
  have h := Reachable.step (.step (.step (.step (.step (.step .init (.handIn rfl rfl rfl rfl))
    (.process .listed rfl)) (.put rfl (by decide))) (.take rfl)) (.handIn rfl rfl rfl rfl))
    (.process .reversed rfl)
  ⟨_, h, rfl, ruleProcessor_pipeline _ _ _ _ _ h⟩

end NriPrometheus
