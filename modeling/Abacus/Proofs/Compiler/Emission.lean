import Abacus.Proofs.Compiler.Moves
import Abacus.Proofs.Machine.Corruption

/-!
# What a compilation writes

Every move of a compilation appends whole instructions other than the return operation, also after a problem has been
reported, when the operands of an instruction may be missing.  So each compilation adds a sequence of whole instructions
that returns at its end and nowhere else.

* `Compilation.Move.grows`: what one move writes;
* `exists_compile_eq`: what a compilation writes, whatever the source;
* `compile_keeps_wellFormed`: well-formed chunks stay so, and their runs meet no other corruption than an underflow.
-/

namespace Abacus

open Instruction (assemble)

/-! ## Growing -/

/-- A chunk has been continued with whole instructions that do not return, and with constants. -/
def Chunk.Grows (c c' : Chunk) : Prop :=
  ∃ body constants, c' = c.extend (assemble body) constants ∧
    (∀ p ∈ body, p.1.IsWhole c'.constants.size) ∧ ∀ p ∈ body, p.1 ≠ .plain .return

namespace Chunk.Grows

variable {c c' c'' : Chunk}

theorem refl (c : Chunk) : c.Grows c :=
  ⟨[], [], c.extend_nil.symm, nofun, nofun⟩

theorem trans (h : c.Grows c') (h' : c'.Grows c'') : c.Grows c'' := by
  obtain ⟨body, constants, rfl, whole, goesOn⟩ := h
  obtain ⟨body', constants', rfl, whole', goesOn'⟩ := h'
  refine ⟨body ++ body', constants ++ constants', ?_, fun p hp => ?_, fun p hp => ?_⟩
  · rw [extend_extend, Instruction.assemble_append]
  · rcases List.mem_append.mp hp with old | new
    · refine (whole p old).mono ?_
      rw [size_constants_extend _ _ constants']
      exact Nat.le_add_right ..
    · exact whole' p new
  · exact (List.mem_append.mp hp).elim (goesOn p) (goesOn' p)

/-- A chunk grows by one instruction. -/
theorem single {i : Instruction} {constants : List Value} (whole : i.IsWhole (c.constants.size + constants.length))
    (ne : i ≠ .plain .return) (line : Line) : c.Grows (c.extend (Instruction.lined (i, line)) constants) := by
  refine ⟨[(i, line)], constants, ?_, ?_, ?_⟩
  · rw [assemble, List.flatMap_singleton]
  · rw [size_constants_extend]
    exact List.forall_mem_singleton.mpr whole
  · exact List.forall_mem_singleton.mpr ne

end Chunk.Grows

/-! ## Moves -/

namespace Compilation

variable {s t : Compilation}

/-- A number is written with the index of its constant, which is new, or with 0 where the constants are used up. -/
theorem grows_emitConstant (s : Compilation) (v : Value) : s.chunk.Grows (s.emitConstant v).chunk := by
  unfold emitConstant
  by_cases has : 0 < s.chunk.room
  · have lt : s.chunk.constants.size < 256 := by
      unfold Chunk.room Chunk.maxConstants at has
      omega
    have index : (UInt8.ofNat s.chunk.constants.size).toNat = s.chunk.constants.size := UInt8.toNat_ofNat_of_lt' lt
    have whole : (Instruction.constant (UInt8.ofNat s.chunk.constants.size)).IsWhole
        (s.chunk.constants.size + [v].length) := by
      rw [Instruction.IsWhole, index]
      exact Nat.lt_succ_self _
    simp only [Chunk.addConstant_of_room has, emitByte, Chunk.write_eq_extend, Chunk.extend_extend]
    exact .single whole nofun s.previous.line
  · have whole : (Instruction.constant 0).IsWhole (s.chunk.constants.size + ([] : List Value).length) := by
      show 0 < s.chunk.constants.size
      unfold Chunk.room Chunk.maxConstants at has
      omega
    simp only [Chunk.addConstant_of_full has, emitByte, complain, report, Chunk.write_eq_extend,
      Chunk.extend_extend]
    exact .single whole nofun s.previous.line

/-- **Every move appends whole instructions that do not return.** -/
theorem Move.grows (h : Move s t) : s.chunk.Grows t.chunk := by
  cases h with
  | advance => exact .refl s.chunk
  | report d => exact .refl s.chunk
  | emit o ne =>
    simp only [Compilation.emit, emitByte, Chunk.write_eq_extend]
    exact .single (i := .plain o) trivial (fun same => ne (Instruction.plain.inj same)) s.previous.line
  | emitNumber =>
    unfold Compilation.emitNumber
    split
    · exact grows_emitConstant s _
    · exact .refl s.chunk

theorem Moves.grows (h : Moves s t) : s.chunk.Grows t.chunk :=
  h.keeps (P := fun u => s.chunk.Grows u.chunk) (fun move grown => grown.trans move.grows) (.refl s.chunk)

end Compilation

/-! ## Compilations -/

/-- **A compilation appends whole instructions**, of which the last one, and no other, is the return operation. -/
theorem exists_compile_eq (source : String) (c : Chunk) :
    ∃ body line constants, (compile source c).chunk = c.extend (assemble (body ++ [(.plain .return, line)])) constants ∧
      (∀ p ∈ body, p.1.IsWhole (c.constants.size + constants.length)) ∧ ∀ p ∈ body, p.1 ≠ .plain .return := by
  obtain ⟨s, moves, ends⟩ := Compilation.exists_moves (tokens source) c
  obtain ⟨body, constants, written, whole, goesOn⟩ := moves.grows
  refine ⟨body, s.previous.line, constants, ?_, ?_, goesOn⟩
  · show (Compilation.ofTokens (tokens source) c).chunk = _
    rw [ends, Compilation.emit, Compilation.emitByte, Chunk.write_eq_extend, written, Chunk.extend_extend,
      List.append_nil, Instruction.assemble_append]
    rfl
  · rw [written, Chunk.size_constants_extend] at whole
    exact whole

/-- A chunk of whole instructions is continued with whole instructions. -/
theorem Chunk.Consists.compile {c : Chunk} {is : List (Instruction × Line)} (h : c.Consists is) (source : String) :
    ∃ body line, (∀ p ∈ body, p.1 ≠ .plain .return) ∧
      (Abacus.compile source c).chunk.Consists (is ++ body ++ [(.plain .return, line)]) := by
  obtain ⟨body, line, constants, written, whole, goesOn⟩ := exists_compile_eq source c
  refine ⟨body, line, goesOn, ?_⟩
  rw [written, List.append_assoc]
  refine h.extend fun p hp => ?_
  rcases List.mem_append.mp hp with inner | last
  · exact whole p inner
  · rw [List.mem_singleton.mp last]
    trivial

theorem Chunk.WellFormed.compile {c : Chunk} (h : c.WellFormed) (source : String) :
    (Abacus.compile source c).chunk.WellFormed := by
  obtain ⟨is, consists, -⟩ := h
  obtain ⟨body, line, -, consists'⟩ := consists.compile source
  refine ⟨_, consists', ?_⟩
  rw [List.getLast?_concat]
  rintro p ⟨⟩
  rfl

/-- What some sources leave that are compiled one after the other. -/
def compileAll (sources : List String) : Chunk :=
  sources.foldl (fun c source => (compile source c).chunk) .empty

theorem wellFormed_compileAll (sources : List String) : (compileAll sources).WellFormed := by
  -- the fold starts anywhere, so that the induction can go on after the first source
  have kept : ∀ c : Chunk, c.WellFormed →
      (sources.foldl (fun c source => (compile source c).chunk) c).WellFormed := by
    induction sources with
    | nil => exact fun c h => h
    | cons source sources ih => exact fun c h => ih _ (h.compile source)
  exact kept .empty Chunk.wellFormed_empty

/-- **Every compilation keeps chunks well-formed**, whether or not the source is an expression, and its code returns at
its end only.  So chunks that were built by compiling never make the machine meet a byte that is no opcode, an operand
without a constant or the end of the code. -/
theorem compile_keeps_wellFormed :
    (∀ (c : Chunk) (source : String), c.WellFormed →
      (compile source c).chunk.WellFormed ∧
      ∀ is, c.Consists is → ∃ body line, (∀ p ∈ body, p.1 ≠ .plain .return) ∧
        ∀ is', (compile source c).chunk.Consists is' ↔ is' = is ++ body ++ [(.plain .return, line)]) ∧
    ∀ sources, (compileAll sources).code ≠ #[] → ∀ (s : Stack) (traced : Bool) (offset : Nat) (cause : Corruption),
      ((compileAll sources).run s traced).result = .error (.corrupted offset cause) → cause = .stackUnderflow := by
  refine ⟨fun c source h => ⟨h.compile source, fun is consists => ?_⟩, fun sources ne s traced offset cause => ?_⟩
  · obtain ⟨body, line, goesOn, consists'⟩ := consists.compile source
    exact ⟨body, line, goesOn, fun is' => ⟨fun other => other.unique consists', fun same => same ▸ consists'⟩⟩
  · exact (wellFormed_compileAll sources).cause_eq_stackUnderflow ne

end Abacus
