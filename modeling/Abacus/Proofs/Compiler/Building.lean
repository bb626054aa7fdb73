import Abacus.Proofs.Compiler.Emission

/-!
# Building chunks

A chunk is built by calls that write bytes, add constants or compile whole sources, in any order and whether or not they
succeed.  It only ever grows, so whatever an index, an operand or an offset denotes once, it denotes for good.

* `Chunk.Precedes`: the growth that every call keeps to (`Chunk.precedes_perform`) and every history (`Chunk.precedes_after`);
* `Chunk.Aligned`: the shape that every call keeps (`Chunk.Aligned.perform`);
* `Chunk.histories_only_append`: both, and what follows for the things that were once handed out.
-/

namespace Abacus

open Instruction (assemble)

namespace Chunk

/-! ## Calls -/

/-- A call that builds a chunk. -/
inductive Call where
  /-- Writes a byte, whatever it stands for. -/
  | write (byte : UInt8) (line : Line)
  /-- Writes the opcode that a byte stands for. -/
  | writeOpcode (byte : UInt8) (line : Line)
  | addConstant (v : Value)
  | compile (source : String)

/-- What a call answers. -/
inductive Reply where
  | written
  /-- The index of the constant that was added. -/
  | index (i : UInt8)
  | refused (e : ChunkError)
  /-- What the compiler reports, nothing if it accepts the source. -/
  | compiled (ds : List Diagnostic)

/-- The answer to a call, and the chunk after it. -/
def perform (c : Chunk) : Call → Reply × Chunk
  | .write byte line => (.written, c.write byte line)
  | .writeOpcode byte line =>
    match Opcode.ofByte? byte with
    | some op => (.written, c.write op.byte line)
    | none => (.refused (.unknownOpcode byte), c)
  | .addConstant v =>
    match c.addConstant v with
    | .ok (index, grown) => (.index index, grown)
    | .error e => (.refused e, c)
  | .compile source => (.compiled (Abacus.compile source c).diagnostics, (Abacus.compile source c).chunk)

/-- The chunk after some calls. -/
def after (c : Chunk) (calls : List Call) : Chunk :=
  calls.foldl (fun c call => (c.perform call).2) c

/-! ## Growth -/

/-- The code, the lines and the constants of one chunk begin with those of the other. -/
structure Precedes (c c' : Chunk) : Prop where
  code : c.code.toList <+: c'.code.toList
  lines : c.lines.toList <+: c'.lines.toList
  constants : c.constants.toList <+: c'.constants.toList

namespace Precedes

variable {c c' c'' : Chunk}

theorem refl (c : Chunk) : c.Precedes c :=
  ⟨List.prefix_rfl, List.prefix_rfl, List.prefix_rfl⟩

theorem trans (h : c.Precedes c') (h' : c'.Precedes c'') : c.Precedes c'' :=
  ⟨h.code.trans h'.code, h.lines.trans h'.lines, h.constants.trans h'.constants⟩

theorem extend (c : Chunk) (code : List (UInt8 × Line)) (constants : List Value) :
    c.Precedes (c.extend code constants) where
  code := by simp [Chunk.extend]
  lines := by simp [Chunk.extend]
  constants := by simp [Chunk.extend]

/-- What stands somewhere in a table stands there in every longer one. -/
theorem getElem?_of_isPrefix {α : Type} {as bs : Array α} (h : as.toList <+: bs.toList) {n : Nat} {a : α}
    (found : as[n]? = some a) : bs[n]? = some a := by
  obtain ⟨added, grown⟩ := h
  rw [← Array.getElem?_toList] at found ⊢
  rw [← grown, List.getElem?_append_left (List.getElem?_eq_some_iff.mp found).1, found]

/-- What an index denotes, it denotes in every later chunk. -/
theorem constant?_eq (h : c.Precedes c') {i : UInt8} {v : Value} (found : c.constant? i = some v) :
    c'.constant? i = some v :=
  getElem?_of_isPrefix h.constants found

theorem lineAt?_eq (h : c.Precedes c') {offset : Nat} {line : Line} (found : c.lineAt? offset = some line) :
    c'.lineAt? offset = some line :=
  getElem?_of_isPrefix h.lines found

end Precedes

variable {c : Chunk}

theorem precedes_compile (source : String) (c : Chunk) : c.Precedes (Abacus.compile source c).chunk := by
  obtain ⟨body, line, constants, written, -, -⟩ := exists_compile_eq source c
  rw [written]
  exact .extend c _ _

theorem precedes_write (c : Chunk) (byte : UInt8) (line : Line) : c.Precedes (c.write byte line) := by
  rw [write_eq_extend]
  exact .extend c _ _

/-- A constant is added behind the others while there are indices, and its index denotes it. -/
theorem addConstant_eq_ok {v : Value} {index : UInt8} {grown : Chunk} (h : c.addConstant v = .ok (index, grown)) :
    c.constants.size < maxConstants ∧ grown = c.extend [] [v] ∧ grown.constant? index = some v := by
  by_cases has : 0 < c.room
  · rw [addConstant_of_room has] at h
    obtain ⟨rfl, rfl⟩ := Prod.mk.inj (Except.ok.inj h)
    have lt : c.constants.size < 256 := by
      unfold room maxConstants at has
      omega
    refine ⟨lt, rfl, ?_⟩
    rw [constant?, UInt8.toNat_ofNat_of_lt' lt]
    simp [Chunk.extend]
  · rw [addConstant_of_full has] at h
    cases h

/-- **Every call only appends**, or leaves the chunk as it is. -/
theorem precedes_perform (c : Chunk) (call : Call) : c.Precedes (c.perform call).2 := by
  cases call with
  | write byte line => exact precedes_write c byte line
  | writeOpcode byte line =>
    simp only [perform]
    split
    · exact precedes_write c _ line
    · exact .refl c
  | addConstant v =>
    simp only [perform]
    split
    · next added =>
      obtain ⟨-, rfl, -⟩ := addConstant_eq_ok added
      exact .extend c _ _
    · exact .refl c
  | compile source => exact precedes_compile source c

theorem precedes_after (c : Chunk) (calls : List Call) : c.Precedes (c.after calls) := by
  induction calls generalizing c with
  | nil => exact .refl c
  | cons call calls ih => exact (precedes_perform c call).trans (ih _)

theorem after_append (c : Chunk) (calls later : List Call) : c.after (calls ++ later) = (c.after calls).after later :=
  List.foldl_append

/-! ## Shape -/

/-- Every byte has a line, and every constant an index. -/
structure Aligned (c : Chunk) : Prop where
  lines : c.code.size = c.lines.size
  constants : c.constants.size ≤ maxConstants

namespace Aligned

theorem empty : empty.Aligned :=
  ⟨rfl, Nat.zero_le _⟩

theorem write (h : c.Aligned) (byte : UInt8) (line : Line) : (c.write byte line).Aligned where
  lines := by simp [Chunk.write, h.lines]
  constants := h.constants

theorem addConstant (h : c.Aligned) {v : Value} {index : UInt8} {grown : Chunk}
    (added : c.addConstant v = .ok (index, grown)) : grown.Aligned := by
  obtain ⟨room, rfl, -⟩ := addConstant_eq_ok added
  refine ⟨by simp [Chunk.extend, h.lines], ?_⟩
  rw [size_constants_extend]
  exact room

end Aligned

end Chunk

namespace Compilation

variable {s t : Compilation}

/-- Every move keeps the shape of the chunk, also those after a problem was reported. -/
theorem Move.aligned (h : Move s t) (aligned : s.chunk.Aligned) : t.chunk.Aligned := by
  cases h with
  | advance => exact aligned
  | report d => exact aligned
  | emit o ne => exact aligned.write _ _
  | emitNumber =>
    unfold Compilation.emitNumber
    split
    · unfold emitConstant
      split
      · next added => exact ((aligned.addConstant added).write _ _).write _ _
      · exact (aligned.write _ _).write _ _
    · exact aligned

end Compilation

namespace Chunk

variable {c c' : Chunk}

theorem Aligned.compile (h : c.Aligned) (source : String) : (Abacus.compile source c).chunk.Aligned :=
  Compilation.ofTokens_keeps (P := fun s => s.chunk.Aligned) Compilation.Move.aligned (fun h => h.write _ _) h

/-- **Every call keeps the shape of a chunk.** -/
theorem Aligned.perform (h : c.Aligned) (call : Call) : (c.perform call).2.Aligned := by
  cases call with
  | write byte line => exact h.write byte line
  | writeOpcode byte line =>
    simp only [Chunk.perform]
    split
    · exact h.write _ line
    · exact h
  | addConstant v =>
    simp only [Chunk.perform]
    split
    · next added => exact h.addConstant added
    · exact h
  | compile source => exact h.compile source

theorem Aligned.after (h : c.Aligned) (calls : List Call) : (c.after calls).Aligned := by
  induction calls generalizing c with
  | nil => exact h
  | cons call calls ih => exact ih (h.perform call)

/-! ## Operands -/

/-- From the place where whole instructions begin, exactly they are met. -/
theorem mem_of_mem_offsetsFrom {is : List (Instruction × Line)} {k offset : Nat}
    (code : c.code.toList.drop offset = (assemble is).map Prod.fst) (whole : ∀ p ∈ is, p.1.IsWhole k) :
    ∀ o ∈ c.offsetsFrom offset, ∃ p ∈ is, c.instruction? o = some p.1 := by
  induction is generalizing offset with
  | nil =>
    have past : c.code.size ≤ offset := by simpa [assemble, List.drop_eq_nil_iff] using code
    simp [offsetsFrom_of_le past]
  | cons p is ih =>
    obtain ⟨first, rest⟩ := List.forall_mem_cons.mp whole
    rw [Instruction.map_fst_assemble_cons] at code
    obtain ⟨here, behind⟩ := instruction?_of_bytes first code
    rw [← nextOffset_of_instruction? here] at behind
    rw [offsetsFrom_of_lt (lt_size_of_instruction? here)]
    intro o ho
    rcases List.mem_cons.mp ho with rfl | later
    · exact ⟨p, List.mem_cons_self, here⟩
    · obtain ⟨q, hq, found⟩ := ih behind rest o later
      exact ⟨q, List.mem_cons_of_mem _ hq, found⟩

/-- Every operand that a compilation writes denotes a constant, whether or not the source is accepted. -/
theorem exists_constant?_of_compile {source : String} {o : Nat} {index : UInt8}
    (mem : o ∈ (Abacus.compile source c).chunk.offsetsFrom c.code.size)
    (operand : (Abacus.compile source c).chunk.instruction? o = some (.constant index)) :
    ∃ v, (Abacus.compile source c).chunk.constant? index = some v := by
  obtain ⟨body, line, constants, written, whole, -⟩ := exists_compile_eq source c
  rw [written] at mem operand ⊢
  have all : ∀ p ∈ body ++ [(Instruction.plain .return, line)], p.1.IsWhole (c.constants.size + constants.length) :=
    List.forall_mem_append.mpr ⟨whole, List.forall_mem_singleton.mpr trivial⟩
  have code : (c.extend (assemble (body ++ [(.plain .return, line)])) constants).code.toList.drop c.code.size =
      (assemble (body ++ [(.plain .return, line)])).map Prod.fst := by
    simp [Chunk.extend]
  obtain ⟨p, hp, found⟩ := mem_of_mem_offsetsFrom code all o mem
  rw [operand] at found
  have fits := all p hp
  rw [← Option.some.inj found, Instruction.IsWhole, ← size_constants_extend c (assemble _) constants] at fits
  exact ⟨_, Array.getElem?_eq_getElem fits⟩

/-! ## Histories -/

/-- **Chunks only ever grow, in step.**  After any calls every byte has a line and every constant an index.  A further
call appends to each table; one that is refused appends nothing.  So whatever is called later, the index of an added
constant denotes that constant, an operand that compiling a source wrote denotes what it denoted then, and no offset
changes its line. -/
theorem histories_only_append (calls : List Call) :
    (empty.after calls).code.size = (empty.after calls).lines.size ∧ (empty.after calls).constants.size ≤ 256 ∧
      ∀ call, (empty.after calls).Precedes (empty.after (calls ++ [call])) ∧
        (∀ e, ((empty.after calls).perform call).1 = .refused e → empty.after (calls ++ [call]) = empty.after calls) ∧
        ∀ later,
          (∀ v i, call = .addConstant v → ((empty.after calls).perform call).1 = .index i →
            (empty.after (calls ++ call :: later)).constant? i = some v) ∧
          (∀ source, call = .compile source →
            ∀ o ∈ (empty.after (calls ++ [call])).offsetsFrom (empty.after calls).code.size, ∀ i,
              (empty.after (calls ++ [call])).instruction? o = some (.constant i) →
              ∃ v, (empty.after (calls ++ [call])).constant? i = some v ∧
                (empty.after (calls ++ call :: later)).constant? i = some v) ∧
          ∀ offset line, (empty.after (calls ++ [call])).lineAt? offset = some line →
            (empty.after (calls ++ call :: later)).lineAt? offset = some line := by
  have aligned := Aligned.empty.after calls
  refine ⟨aligned.lines, aligned.constants, fun call => ?_⟩
  simp only [after_append]
  generalize empty.after calls = c
  show c.Precedes (c.perform call).2 ∧ (∀ e, _ → (c.perform call).2 = c) ∧ _
  refine ⟨precedes_perform c call, fun e refused => ?_, fun later => ?_⟩
  · cases call with
    | write byte line => cases refused
    | writeOpcode byte line =>
      simp only [perform] at refused ⊢
      split at refused
      · cases refused
      · rfl
    | addConstant v =>
      simp only [perform] at refused ⊢
      split at refused
      · cases refused
      · rfl
    | compile source => cases refused
  · have grown : (c.perform call).2.Precedes (c.after (call :: later)) := precedes_after _ later
    refine ⟨?_, ?_, fun offset line found => grown.lineAt?_eq found⟩
    · rintro v i rfl indexed
      refine grown.constant?_eq ?_
      simp only [perform] at indexed ⊢
      split at indexed
      · next added =>
        cases indexed
        exact (addConstant_eq_ok added).2.2
      · cases indexed
    · rintro source rfl o mem i operand
      obtain ⟨v, found⟩ := exists_constant?_of_compile mem operand
      exact ⟨v, found, grown.constant?_eq found⟩

end Chunk

end Abacus
