import Sketchlog.Refine.AgentPosts
import Sketchlog.Refine.ExporterPosts

/-!
# Chunks of a batch

The agent and the exporter carry one count of items across the three collections of a batch. Each is
the cutting of one sequence (`EventBatch.chunks_cuts`, `splitBatch_cuts`), whose chunks lose nothing
and are full but for the last.
-/

namespace Sketchlog

open Chunks

/-- **Chunking is lossless.** Under every limit that is positive, the chunks of every batch hold at
least one item and at most the limit, all but the last are full, and together they hold the batch.
The exporter visits the events in any order and drops those that count zero. -/
theorem chunks_lossless {limit : ℕ} (hlimit : 1 ≤ limit) :
    (∀ batch : Agent.EventBatch,
      (∀ chunk ∈ batch.chunks limit, 0 < chunk.itemCount ∧ chunk.itemCount ≤ limit)
      ∧ (∀ chunk ∈ (batch.chunks limit).dropLast, chunk.itemCount = limit)
      ∧ (batch.chunks limit).flatMap (·.latencies) = batch.latencies
      ∧ (batch.chunks limit).flatMap (·.uniques) = batch.uniques
      ∧ (batch.chunks limit).flatMap (·.events.items) = batch.events.items)
    ∧ ∀ (order : Otel.MapOrder) (batch : Otel.EventBatch),
      let size (chunk : Otel.EventBatch) :=
        chunk.latencies.length + chunk.uniques.length + chunk.events.size
      (∀ chunk ∈ Otel.splitBatch order batch limit, 0 < size chunk ∧ size chunk ≤ limit)
      ∧ (∀ chunk ∈ (Otel.splitBatch order batch limit).dropLast, size chunk = limit)
      ∧ (Otel.splitBatch order batch limit).flatMap (·.latencies) = batch.latencies
      ∧ (Otel.splitBatch order batch limit).flatMap (·.uniques) = batch.uniques
      ∧ ((Otel.splitBatch order batch limit).flatMap (·.events.items)).Perm
        (batch.events.items.filter fun event => event.2 ≠ 0) := by
  constructor
  · -- the agent cuts its three lists one after another
    intro batch
    have hcuts := batch.chunks_cuts limit
    obtain ⟨hbounds, hfull⟩ := hcuts.sizes hlimit
    obtain ⟨hlatencies, huniques, hevents⟩ := hcuts.contents
    exact ⟨hbounds, hfull, hlatencies.trans (firsts_listed _ _ _),
      huniques.trans (seconds_listed _ _ _),
      hevents.trans (thirds_listed _ _ _)⟩
  · -- the exporter leaves out the events with a count of zero, in whatever order the map yields
    intro order batch size
    have hcuts := Otel.splitBatch_cuts order batch hlimit
    obtain ⟨hbounds, hfull⟩ := hcuts.sizes hlimit
    obtain ⟨hlatencies, huniques, hevents⟩ := hcuts.contents
    refine ⟨hbounds, hfull, hlatencies.trans (firsts_listed _ _ _),
      huniques.trans (seconds_listed _ _ _), ?_⟩
    have hitems : (Otel.splitBatch order batch limit).flatMap (·.events.items)
        = (order.events batch.events.items).filter fun event => event.2 ≠ 0 :=
          hevents.trans (thirds_listed _ _ _)
    rw [hitems]
    exact (order.events_perm batch.events.items).filter _

/-- Three items, two in a chunk. -/
theorem chunks_lossless_two :
    let batch : Agent.EventBatch := ⟨[], [['a'], ['b'], ['c']], ∅⟩
    (∀ chunk ∈ (batch.chunks 2).dropLast, chunk.itemCount = 2)
      ∧ (batch.chunks 2).flatMap (·.uniques) = [['a'], ['b'], ['c']] := by
  intro batch
  obtain ⟨-, hfull, -, huniques, -⟩ := (@chunks_lossless 2 (by norm_num)).1 batch
  exact ⟨hfull, huniques⟩

end Sketchlog
