import Abacus.Json.Chunk
import Abacus.Proofs.Interpreter.ReadBack
import Abacus.Proofs.Json.Numbers

/-!
# What the reader accepts

A number that is read is finite, and so is every constant of a chunk that is read, whatever the text looks like.

* `Json.forall_mem_of_elements`: what holds of every element holds of a list;
* `Chunk.IsFinite`, `Chunk.isFinite_of_ofJson?`.
-/

namespace Abacus

open Json

namespace Json

theorem Numeral.finite_of_toFloat? {n : Numeral} {x : Float} (h : n.toFloat? = some x) :
    Binary64.magnitude x < Binary64.infinity := by
  by_cases finite : magnitude n.decimal < Binary64.infinity
  · obtain rfl := Option.some.inj ((toFloat?_of_finite finite).symm.trans h)
    rwa [(Binary64.parts_signed n.isNegative finite).2]
  · rw [toFloat?, if_neg finite] at h
    cases h

/-! ## Lists -/

section Lists

variable {β : Type} {element : List Char → Option (β × List Char)} {P : β → Prop}
  (each : ∀ {cs b rest}, element cs = some (b, rest) → P b)
include each

theorem forall_mem_of_elementsFrom {bound : Nat} {taken bs : Array β} {cs rest : List Char}
    (h : elementsFrom element bound taken cs = some (bs, rest)) (before : ∀ b ∈ taken, P b) : ∀ b ∈ bs, P b := by
  induction bound generalizing taken cs with
  | zero => cases h
  | succ bound ih =>
    rw [elementsFrom] at h
    split at h
    · cases h
    · next b cs found =>
      have after : ∀ d ∈ taken.push b, P d := by
        intro d hd
        rcases Array.mem_push.mp hd with old | rfl
        · exact before d old
        · exact each found
      split at h
      · exact ih h after
      · obtain ⟨rfl, -⟩ := Prod.mk.inj (Option.some.inj h)
        exact after
      · cases h

/-- **What holds of every element holds of a list.** -/
theorem forall_mem_of_elements {bs : Array β} {cs rest : List Char} (h : elements element cs = some (bs, rest)) :
    ∀ b ∈ bs, P b := by
  obtain ⟨inside, -, h⟩ := Option.bind_eq_some_iff.mp h
  split at h
  · obtain ⟨rfl, -⟩ := Prod.mk.inj (Option.some.inj h)
    exact fun b none => absurd none (Array.not_mem_empty b)
  · exact forall_mem_of_elementsFrom each h fun b none => absurd none (Array.not_mem_empty b)

end Lists

end Json

/-! ## Values -/

namespace Value

theorem isFinite_of_readContent {kind : String} {cs rest : List Char} {v : Value}
    (h : readContent kind cs = some (v, rest)) : v.IsFinite := by
  unfold readContent at h
  dsimp only at h
  split at h
  · obtain ⟨_, -, same⟩ := Option.map_eq_some_iff.mp h
    obtain ⟨rfl, -⟩ := Prod.mk.inj same
    trivial
  · split at h
    · obtain ⟨rfl, -⟩ := Prod.mk.inj (Option.some.inj h)
      trivial
    · obtain ⟨_, -, same⟩ := Option.map_eq_some_iff.mp h
      obtain ⟨rfl, -⟩ := Prod.mk.inj same
      trivial
  · obtain ⟨⟨n, _⟩, -, inside⟩ := Option.bind_eq_some_iff.mp h
    obtain ⟨x, found, same⟩ := Option.bind_eq_some_iff.mp inside
    obtain ⟨rfl, -⟩ := Prod.mk.inj (Option.some.inj same)
    exact Numeral.finite_of_toFloat? found
  · cases h

theorem isFinite_of_read {cs rest : List Char} {v : Value} (h : read cs = some (v, rest)) : v.IsFinite := by
  unfold read at h
  split at h
  · obtain ⟨⟨kind, _⟩, -, inside⟩ := Option.bind_eq_some_iff.mp h
    dsimp only at inside
    split at inside
    · obtain ⟨rfl, -⟩ := Prod.mk.inj (Option.some.inj inside)
      trivial
    · cases inside
  · obtain ⟨⟨kind, _⟩, -, h⟩ := Option.bind_eq_some_iff.mp h
    obtain ⟨_, -, h⟩ := Option.bind_eq_some_iff.mp h
    obtain ⟨⟨w, _⟩, found, h⟩ := Option.bind_eq_some_iff.mp h
    obtain ⟨_, -, h⟩ := Option.bind_eq_some_iff.mp h
    obtain ⟨rfl, -⟩ := Prod.mk.inj (Option.some.inj h)
    exact isFinite_of_readContent found
  · cases h

end Value

/-! ## Chunks -/

namespace Chunk

/-- All constants are finite. -/
def IsFinite (c : Chunk) : Prop :=
  ∀ v ∈ c.constants, v.IsFinite

theorem isFinite_of_readConstants {cs rest : List Char} {vs : Array Value} (h : readConstants cs = some (vs, rest)) :
    ∀ v ∈ vs, v.IsFinite :=
  forall_mem_of_elements Value.isFinite_of_read h

namespace Members

/-- All constants that were read are finite. -/
def IsFinite (m : Members) : Prop :=
  ∀ vs ∈ m.constants, ∀ v ∈ vs, v.IsFinite

variable {m m' : Members} {cs rest : List Char}

theorem IsFinite.readValue {bound : Nat} {name : String} (finite : m.IsFinite)
    (h : m.readValue bound name cs = some (m', rest)) : m'.IsFinite := by
  unfold Members.readValue at h
  split at h
  · split at h
    · cases h
    · obtain ⟨_, -, same⟩ := Option.map_eq_some_iff.mp h
      obtain ⟨rfl, -⟩ := Prod.mk.inj same
      exact finite
  · split at h
    · cases h
    · obtain ⟨_, -, same⟩ := Option.map_eq_some_iff.mp h
      obtain ⟨rfl, -⟩ := Prod.mk.inj same
      exact finite
  · split at h
    · cases h
    · obtain ⟨⟨vs, _⟩, found, same⟩ := Option.map_eq_some_iff.mp h
      obtain ⟨rfl, -⟩ := Prod.mk.inj same
      intro ws same
      obtain rfl := Option.some.inj same
      exact isFinite_of_readConstants found
  · obtain ⟨_, -, same⟩ := Option.map_eq_some_iff.mp h
    obtain ⟨rfl, -⟩ := Prod.mk.inj same
    exact finite

theorem IsFinite.readFrom {bound : Nat} (finite : m.IsFinite) (h : readFrom bound m cs = some (m', rest)) :
    m'.IsFinite := by
  induction bound generalizing m cs with
  | zero => cases h
  | succ bound ih =>
    obtain ⟨⟨name, _⟩, -, h⟩ := Option.bind_eq_some_iff.mp h
    obtain ⟨_, -, h⟩ := Option.bind_eq_some_iff.mp h
    obtain ⟨⟨m, _⟩, found, h⟩ := Option.bind_eq_some_iff.mp h
    have finite := finite.readValue found
    dsimp only at h
    split at h
    · exact ih finite h
    · obtain ⟨rfl, -⟩ := Prod.mk.inj (Option.some.inj h)
      exact finite
    · cases h

theorem IsFinite.toChunk? {c : Chunk} (finite : m.IsFinite) (h : m.toChunk? = some c) : c.IsFinite := by
  obtain ⟨_, -, h⟩ := Option.bind_eq_some_iff.mp h
  obtain ⟨_, -, h⟩ := Option.bind_eq_some_iff.mp h
  obtain ⟨vs, found, h⟩ := Option.bind_eq_some_iff.mp h
  obtain rfl := Option.some.inj h
  exact finite vs found

end Members

variable {c : Chunk} {cs rest : List Char}

theorem isFinite_of_readObject (h : readObject cs = some (c, rest)) : c.IsFinite := by
  have empty : Members.IsFinite {} := fun _ none => nomatch none
  unfold readObject at h
  split at h
  · obtain ⟨⟨m, _⟩, found, h⟩ := Option.bind_eq_some_iff.mp h
    obtain ⟨_, made, h⟩ := Option.bind_eq_some_iff.mp h
    obtain ⟨rfl, -⟩ := Prod.mk.inj (Option.some.inj h)
    obtain ⟨rfl, -⟩ := Prod.mk.inj (Option.some.inj found)
    exact empty.toChunk? made
  · obtain ⟨⟨m, _⟩, found, h⟩ := Option.bind_eq_some_iff.mp h
    obtain ⟨_, made, h⟩ := Option.bind_eq_some_iff.mp h
    obtain ⟨rfl, -⟩ := Prod.mk.inj (Option.some.inj h)
    exact (empty.readFrom found).toChunk? made

theorem isFinite_of_readList (h : readList cs = some (c, rest)) : c.IsFinite := by
  obtain ⟨⟨_, _⟩, -, h⟩ := Option.bind_eq_some_iff.mp h
  obtain ⟨_, -, h⟩ := Option.bind_eq_some_iff.mp h
  obtain ⟨⟨_, _⟩, -, h⟩ := Option.bind_eq_some_iff.mp h
  obtain ⟨_, -, h⟩ := Option.bind_eq_some_iff.mp h
  obtain ⟨⟨vs, _⟩, found, h⟩ := Option.bind_eq_some_iff.mp h
  obtain ⟨_, -, h⟩ := Option.bind_eq_some_iff.mp h
  obtain ⟨rfl, -⟩ := Prod.mk.inj (Option.some.inj h)
  exact isFinite_of_readConstants found

/-- **The constants of every chunk that is read are finite.** -/
theorem isFinite_of_ofJson? {text : String} (h : ofJson? text = some c) : c.IsFinite := by
  have read : ∃ cs rest, readObject cs = some (c, rest) ∨ readList cs = some (c, rest) := by
    unfold ofJson? at h
    split at h
    · next cs _ =>
      obtain ⟨⟨_, rest⟩, found, h⟩ := Option.bind_eq_some_iff.mp h
      dsimp only at h
      split at h
      · obtain rfl := Option.some.inj h
        exact ⟨cs, rest, .inl found⟩
      · cases h
    · next cs _ =>
      obtain ⟨⟨_, rest⟩, found, h⟩ := Option.bind_eq_some_iff.mp h
      dsimp only at h
      split at h
      · obtain rfl := Option.some.inj h
        exact ⟨cs, rest, .inr found⟩
      · cases h
    · cases h
  obtain ⟨cs, rest, object | list⟩ := read
  · exact isFinite_of_readObject object
  · exact isFinite_of_readList list

end Chunk

end Abacus
