import Abacus.Proofs.Chunk.Listing
import Abacus.Proofs.Compiler.Outcome

/-!
# Listings of sources

The code of a tree is made of whole instructions, and the operands among them count its numbers from the first one on.
So a source that is compiled on its own leaves a chunk that refers to all its constants, and the listing loses nothing.

* `Tree.assemble_instructions`, `Tree.filterMap_operand?_instructions`: the code of a tree as instructions;
* `Parses.shows`: the listing of an accepted source shows all that compiling it leaves;
* `chunk_eq_of_listing_eq`: accepted sources with the same listing leave the same chunk.
-/

namespace Abacus

open Instruction (assemble operand?)

/-! ## The instructions of a tree -/

namespace Tree

/-- The instructions of a tree, each with its line, when `k` constants are there before it. -/
def instructions (k : Nat) : Tree → List (Instruction × Line)
  | number t => [(.constant (UInt8.ofNat k), t.line)]
  | literal l t => [(.plain l.operation, t.line)]
  | group _ e _ => e.instructions k
  | unary op _ e => e.instructions k ++ [(.plain op.operation, e.last.line)]
  | binary op left _ right =>
    left.instructions k ++ right.instructions (k + left.numbers.length) ++
      op.operations.map fun o => (.plain o, right.last.line)

/-- The code of a tree is its instructions, byte by byte. -/
theorem assemble_instructions (e : Tree) (k : Nat) : assemble (e.instructions k) = e.code k := by
  have plain (os : List Operation) (line : Line) :
      assemble (os.map fun o => (.plain o, line)) = os.map fun o => (o.byte, line) := by
    rw [assemble, List.flatMap_map]
    exact List.map_eq_flatMap.symm
  induction e generalizing k with
  | number t => rfl
  | literal l t => rfl
  | group opening e closing ih => exact ih k
  | unary op t e ih =>
    rw [instructions, code, Instruction.assemble_append, ih]
    rfl
  | binary op left t right ihl ihr =>
    rw [instructions, code, Instruction.assemble_append, Instruction.assemble_append, ihl, ihr, plain]

/-- **The operands count the numbers** of the source, in its order. -/
theorem filterMap_operand?_instructions (e : Tree) (k : Nat) :
    (e.instructions k).filterMap (·.1.operand?) = (List.range' k e.numbers.length).map UInt8.ofNat := by
  induction e generalizing k with
  | number t => rfl
  | literal l t => rfl
  | group opening e closing ih => exact ih k
  | unary op t e ih =>
    rw [instructions, List.filterMap_append, ih, numbers]
    simp [operand?]
  | binary op left t right ihl ihr =>
    rw [instructions, List.filterMap_append, List.filterMap_append, ihl, ihr, numbers, List.length_append,
      List.range'_append_1.symm, List.map_append]
    simp [operand?]

/-- While there are indices for the numbers, the instructions are whole. -/
theorem isWhole_instructions (e : Tree) {k m : Nat} (fits : k + e.numbers.length ≤ m) (le : m ≤ 256) :
    ∀ p ∈ e.instructions k, p.1.IsWhole m := by
  induction e generalizing k with
  | number t =>
    have lt : k < m := fits
    have index : (UInt8.ofNat k).toNat = k := UInt8.toNat_ofNat_of_lt' (Nat.lt_of_lt_of_le lt le)
    refine List.forall_mem_singleton.mpr ?_
    show (UInt8.ofNat k).toNat < m
    rwa [index]
  | literal l t => exact List.forall_mem_singleton.mpr trivial
  | group opening e closing ih => exact ih fits
  | unary op t e ih => exact List.forall_mem_append.mpr ⟨ih fits, List.forall_mem_singleton.mpr trivial⟩
  | binary op left t right ihl ihr =>
    rw [numbers, List.length_append] at fits
    refine List.forall_mem_append.mpr ⟨List.forall_mem_append.mpr ⟨ihl (by omega), ihr (by omega)⟩, ?_⟩
    rintro p hp
    obtain ⟨o, -, rfl⟩ := List.mem_map.mp hp
    trivial

theorem not_isNaN_of_mem_constants {e : Tree} : ∀ v ∈ e.constants, ¬ v.IsNaN := by
  intro v hv
  obtain ⟨t, -, rfl⟩ := List.mem_map.mp hv
  show ¬ Binary64.infinity < Binary64.magnitude t.numeral.toFloat
  rw [Decimal.magnitude_toFloat]
  exact Nat.not_lt.mpr t.numeral.magnitude_le_infinity

end Tree

/-! ## Accepted sources -/

/-- **The listing of an accepted source shows all of it**: the instructions of its tree and the return operation. -/
theorem Parses.shows {source : String} {e : Tree} {t : Token} (h : Parses source .empty e t) :
    (compile source .empty).chunk.Shows (e.instructions 0 ++ [(.plain .return, t.line)]) := by
  have size : e.numbers.length ≤ 256 := by
    rcases h.numbers_fit with none | fits
    · simp [none]
    · exact Nat.le_trans (Nat.le_add_left ..) fits
  have code : e.code 0 ++ [(Operation.return.byte, t.line)] =
      assemble (e.instructions 0 ++ [(.plain .return, t.line)]) := by
    rw [Instruction.assemble_append, e.assemble_instructions]
    rfl
  have constants : (Chunk.empty.constants.size + e.constants.length) = e.numbers.length := by
    rw [e.length_constants]
    exact Nat.zero_add _
  rw [h.chunk_eq, code]
  refine ⟨Chunk.consists_empty.extend ?_, fun n hn => ?_, fun v hv => ?_⟩
  · rw [constants]
    have whole := e.isWhole_instructions (k := 0) (Nat.le_of_eq (Nat.zero_add _)) size
    exact List.forall_mem_append.mpr ⟨whole, List.forall_mem_singleton.mpr trivial⟩
  · rw [Chunk.size_constants_extend, constants] at hn
    have operands := e.filterMap_operand?_instructions 0
    have mem : UInt8.ofNat n ∈ (e.instructions 0).filterMap (·.1.operand?) := by
      rw [operands]
      exact List.mem_map_of_mem (List.mem_range'_1.mpr ⟨Nat.zero_le _, by omega⟩)
    obtain ⟨p, hp, operand⟩ := List.mem_filterMap.mp mem
    have lt : n < 256 := Nat.lt_of_lt_of_le hn size
    exact ⟨p, List.mem_append_left _ hp, _, operand, UInt8.toNat_ofNat_of_lt' lt⟩
  · have mem : v ∈ e.constants := by simpa [Chunk.extend, Chunk.empty] using hv
    exact Tree.not_isNaN_of_mem_constants v mem

/-- **The listing of a source loses nothing.**  If two sources are accepted and have, compiled each on its own, the same
listing under some name, then they leave the same bytes, the same lines and the same constants, bit for bit. -/
theorem chunk_eq_of_listing_eq (source source' name : String) (accepted : (compile source .empty).diagnostics = [])
    (accepted' : (compile source' .empty).diagnostics = [])
    (same : (compile source .empty).chunk.listing name = (compile source' .empty).chunk.listing name) :
    (compile source .empty).chunk = (compile source' .empty).chunk := by
  obtain ⟨e, t, parses⟩ := diagnostics_eq_nil_iff.mp accepted
  obtain ⟨e', t', parses'⟩ := diagnostics_eq_nil_iff.mp accepted'
  exact parses.shows.eq_of_listing_eq parses'.shows same

/-- Sources that differ in groups, numerals and gaps only. -/
theorem chunk_eq_of_listing_eq_regrouped :
    (compile "-(1\n) != 2" .empty).chunk = (compile "-((1)\n) != 2.0 // two" .empty).chunk :=
  chunk_eq_of_listing_eq _ _ "listing" (by decide +kernel) (by decide +kernel) (by decide +kernel)

end Abacus
