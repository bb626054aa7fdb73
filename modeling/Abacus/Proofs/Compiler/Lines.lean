import Abacus.Proofs.Compiler.Building
import Abacus.Proofs.Token.Lines

/-!
# Lines of compiled code

A compilation writes a byte on the line of the token that it took last, and it takes the tokens of a source in their order.
So the lines that it appends never decrease, also after a problem was reported, when it goes on over tokens that fit nowhere
and writes operations without operands.

* `Compilation.Move.inOrder`: what every move keeps of the lines written and the lines to come;
* `exists_lines_of_tokens`: what a compilation appends to the lines of a chunk;
* `lines_exact`: the lines of the tokens of a source, and those of its code.
-/

namespace Abacus

namespace Compilation

variable {s t : Compilation}

/-- The lines of the token that was taken last, of the one that is looked at and of those after it. -/
def linesAhead (s : Compilation) : List Line :=
  (s.previous :: s.current :: s.rest).map Token.line

/-- A compilation that has appended some lines to `lines`: they and those ahead never decrease, and all are in a class. -/
def InOrder (lines : Array Line) (class' : Line → Prop) (s : Compilation) : Prop :=
  ∃ added, s.chunk.lines = lines ++ added.toArray ∧ (added ++ s.linesAhead).Pairwise (· ≤ ·) ∧
    ∀ line ∈ added ++ s.linesAhead, class' line

variable {lines : Array Line} {class' : Line → Prop}

/-- A line may stand twice in a row. -/
theorem pairwise_twice {front back : List Line} {line : Line} (h : (front ++ line :: back).Pairwise (· ≤ ·)) :
    (front ++ [line] ++ line :: back).Pairwise (· ≤ ·) := by
  obtain ⟨ordered, behind, cross⟩ := List.pairwise_append.mp h
  have next : ∀ b ∈ line :: back, line ≤ b := by
    intro b hb
    rcases List.mem_cons.mp hb with rfl | hb
    · exact UInt32.le_refl b
    · exact (List.pairwise_cons.mp behind).1 b hb
  rw [List.append_assoc]
  refine List.pairwise_append.mpr ⟨ordered, List.pairwise_cons.mpr ⟨next, behind⟩, ?_⟩
  intro a ha b hb
  rcases List.mem_cons.mp hb with rfl | hb
  · exact cross a ha b (List.mem_cons_self ..)
  · exact cross a ha b hb

theorem InOrder.advance (h : s.InOrder lines class') : s.advance.InOrder lines class' := by
  obtain ⟨added, written, ordered, mem⟩ := h
  refine ⟨added, written, ?_⟩
  rcases fetch_cases s.current s.diagnostic s.rest with found | ⟨same, none⟩
  · have fewer : (added ++ s.advance.linesAhead).Sublist (added ++ s.linesAhead) := by
      refine List.Sublist.append_left ?_ added
      exact List.Sublist.cons _ ((found.cons_cons s.current).map Token.line)
    exact ⟨ordered.sublist fewer, fun line hl => mem line (fewer.mem hl)⟩
  · -- at the end of the source the end token is met again
    have again : s.advance.linesAhead = [s.current.line] ++ s.current.line :: [] := by
      simp [linesAhead, Compilation.advance, same, none]
    have fewer : (added ++ s.current.line :: []).Sublist (added ++ s.linesAhead) := by
      refine List.Sublist.append_left ?_ added
      exact List.Sublist.cons _ ((List.nil_sublist _).cons_cons _)
    rw [again, ← List.append_assoc]
    refine ⟨pairwise_twice (ordered.sublist fewer), ?_⟩
    intro line hl
    refine mem line (fewer.mem ?_)
    simpa using hl

theorem InOrder.emitByte (h : s.InOrder lines class') (byte : UInt8) : (s.emitByte byte).InOrder lines class' := by
  obtain ⟨added, written, ordered, mem⟩ := h
  refine ⟨added ++ [s.previous.line], ?_, pairwise_twice ordered, ?_⟩
  · simp [Compilation.emitByte, Chunk.write, written]
  · intro line hl
    refine mem line ?_
    simp only [linesAhead, Compilation.emitByte, List.map_cons, List.mem_append, List.mem_cons, List.not_mem_nil,
      or_false] at hl ⊢
    tauto

theorem InOrder.emitConstant (h : s.InOrder lines class') (v : Value) : (s.emitConstant v).InOrder lines class' := by
  unfold Compilation.emitConstant
  split
  · next index chunk added =>
    have grown : ({ s with chunk } : Compilation).InOrder lines class' := by
      obtain ⟨-, rfl, -⟩ := Chunk.addConstant_eq_ok added
      obtain ⟨before, written, ordered⟩ := h
      exact ⟨before, by simp [Chunk.extend, written], ordered⟩
    exact (grown.emitByte _).emitByte _
  · have complained : (s.complain .tooManyConstants).InOrder lines class' := h
    exact (complained.emitByte _).emitByte _

/-- **Every move keeps the lines in order.** -/
theorem Move.inOrder (h : Move s t) (ordered : s.InOrder lines class') : t.InOrder lines class' := by
  cases h with
  | advance => exact ordered.advance
  | report d => exact ordered
  | emit o ne => exact ordered.emitByte o.byte
  | emitNumber =>
    unfold Compilation.emitNumber
    split
    · exact ordered.emitConstant _
    · exact ordered

end Compilation

/-- What a compilation appends to the lines of a chunk, if the lines of the tokens never decrease. -/
theorem exists_lines_of_tokens {source : String} (class' : Line → Prop)
    (ordered : (tokens source).Pairwise fun t u => t.line ≤ u.line) (first : class' 1)
    (mem : ∀ t ∈ tokens source, 1 ≤ t.line ∧ class' t.line) (c : Chunk) :
    ∃ added : List Line, (compile source c).chunk.lines = c.lines ++ added.toArray ∧ added.Pairwise (· ≤ ·) ∧
      ∀ line ∈ added, class' line := by
  have start : (Compilation.start (tokens source) c).InOrder c.lines class' := by
    refine ⟨[], by simp [Compilation.start], ?_, ?_⟩
    · have behind : ∀ line ∈ (tokens source).map Token.line, 1 ≤ line :=
        List.forall_mem_map.mpr fun t ht => (mem t ht).1
      have from' : ([] ++ 1 :: (tokens source).map Token.line).Pairwise (· ≤ ·) :=
        List.pairwise_cons.mpr ⟨behind, List.pairwise_map.mpr ordered⟩
      exact Compilation.pairwise_twice from'
    · intro line hl
      simp only [Compilation.linesAhead, Compilation.start, Token.synthetic, List.nil_append, List.map_cons,
        List.mem_cons, List.mem_map] at hl
      rcases hl with rfl | rfl | ⟨t, ht, rfl⟩
      · exact first
      · exact first
      · exact (mem t ht).2
  have ends : (Compilation.ofTokens (tokens source) c).InOrder c.lines class' :=
    Compilation.ofTokens_keeps Compilation.Move.inOrder (fun h => h.emitByte Operation.return.byte) start
  obtain ⟨added, written, sorted, all⟩ := ends
  exact ⟨added, written, (List.pairwise_append.mp sorted).1, fun line hl => all line (List.mem_append_left _ hl)⟩

/-- **Lines are exact.**  If the lines of a source can be counted, every token is on the line on which it ends, whatever it
is, and lines never decrease along the tokens.  Whether or not the source compiles, the lines that are appended to those of
a chunk never decrease, and all are lines of the source. -/
theorem lines_exact (source : String) (few : source.toList.count '\n' < UInt32.size - 1) :
    (∃ spans last, (Scanner.ofSource source).Yields spans last ∧ tokens source = spans.map Span.token ∧
      ∀ s ∈ spans, s.token.line.toNat = 1 + lineFeedsBefore source s.stop) ∧
    (tokens source).Pairwise (fun t u => t.line ≤ u.line) ∧
    ∀ c : Chunk, ∃ added : List Line, (compile source c).chunk.lines = c.lines ++ added.toArray ∧
      added.Pairwise (· ≤ ·) ∧ ∀ line ∈ added, 1 ≤ line.toNat ∧ line.toNat ≤ 1 + source.toList.count '\n' := by
  obtain ⟨spans, reads, same⟩ := exists_reads_tokens source
  have exact' := toNat_line_of_reads reads few
  have ordered := pairwise_line_of_reads reads few
  rw [← same] at ordered
  refine ⟨⟨spans, _, Scanner.yields_of_reads reads, same, exact'⟩, ordered, ?_⟩
  refine exists_lines_of_tokens (fun line => 1 ≤ line.toNat ∧ line.toNat ≤ 1 + source.toList.count '\n') ordered
    ⟨Nat.le_refl 1, Nat.le_add_right ..⟩ ?_
  intro t ht
  rw [same] at ht
  obtain ⟨s, hs, rfl⟩ := List.mem_map.mp ht
  have le := lineFeedsBefore_le source s.stop
  rw [UInt32.le_iff_toNat_le, exact' s hs]
  exact ⟨Nat.le_add_right .., Nat.le_add_right .., Nat.add_le_add_left le 1⟩

/-- A string over two lines stands where an operand is missing, and the code goes on behind it. -/
theorem lines_exact_misplaced :
    "1 +\n\"é\n\" 2".toList.count '\n' < UInt32.size - 1 ∧
      (tokens "1 +\n\"é\n\" 2").Pairwise (fun t u => t.line ≤ u.line) ∧
      (tokens "1 +\n\"é\n\" 2").map Token.line = [1, 1, 3, 3, 3] ∧
      ∃ added : List Line, (compile "1 +\n\"é\n\" 2" .empty).chunk.lines = #[] ++ added.toArray ∧
        added.Pairwise (· ≤ ·) ∧ added = [1, 1, 3, 3] := by
  have few : "1 +\n\"é\n\" 2".toList.count '\n' < UInt32.size - 1 := by decide +kernel
  have lines : (tokens "1 +\n\"é\n\" 2").map Token.line = [1, 1, 3, 3, 3] := by decide +kernel
  have table : (compile "1 +\n\"é\n\" 2" .empty).chunk.lines = #[1, 1, 3, 3] := by decide +kernel
  obtain ⟨-, ordered, written⟩ := lines_exact _ few
  obtain ⟨added, appended, sorted, -⟩ := written .empty
  refine ⟨few, ordered, lines, added, appended, sorted, ?_⟩
  rw [table] at appended
  simpa [Chunk.empty] using (congrArg Array.toList appended).symm

end Abacus
