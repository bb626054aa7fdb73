import Abacus.Proofs.Compiler.Simulation

/-!
# What compiling leaves

The simulation, carried through to the end of the source.

* `diagnostics_eq_nil_iff`: the sources that are accepted are those of a tree that fits into the chunk;
* `Parses.compile_eq`: what such a source adds to the chunk.
-/

namespace Abacus

namespace Compilation

/-! ## Whole compilations -/

theorem start_matches {ts : List Token} (stream : IsStream ts) (c : Chunk) :
    (expression ts.length maxNesting .equality (start ts c).advance).Matches c
      (Reader.expression ts.length maxNesting .equality c.room (.synthetic .eof 1) ts) := by
  have here := stands_advance (.synthetic .eof 1) (.synthetic .eof 1) c stream.ne_nil
  exact expression_matches ts.length maxNesting .equality _ _ c ts here stream (Nat.le_refl _) rfl

/-- After a tree and the end token nothing is reported, and the code ends with the return operation. -/
theorem ofTokens_of_tree {ts : List Token} {c : Chunk} {e : Tree} {rest : List Token} (stream : IsStream ts)
    (h : Reader.source c.room ts = .tree e rest) :
    ∃ t, rest = [t] ∧ t.kind = .eof ∧
      ofTokens ts c = ⟨t, t, [], (e.writeTo c).extend [(Operation.return.byte, t.line)] [], none⟩ := by
  obtain ⟨e', rest', he, hend⟩ := Reading.bind_eq_tree.mp h
  have here := start_matches stream c
  have after := isStream_of_found stream (Reader.expression_sound _ _ (Nat.le_refl _) he)
  rw [he] at here
  rcases Stands.cases here with ⟨t, ts', rfl, ht, -⟩ | ⟨t, ts', rfl, ht, hs⟩
  · have ne : t.kind ≠ .eof := by
      intro hk
      rw [hk] at ht
      cases ht
    simp only [Reader.ending, if_neg ne] at hend
    cases hend
  · simp only [Reader.ending] at hend
    split at hend
    · next hk =>
      cases hend
      obtain rfl := after.eq_nil hk
      refine ⟨t, rfl, hk, ?_⟩
      simp only [ofTokens]
      rw [hs]
      simp only [expect, hk, if_true, advance, fetch, emit, emitByte, Chunk.write_eq_extend]
    · cases hend

theorem ofTokens_of_stuck {ts : List Token} {c : Chunk} {complaint : Complaint} {rest : List Token}
    (stream : IsStream ts) (h : Reader.source c.room ts = .stuck complaint rest) :
    (ofTokens ts c).diagnostic = some (complaint.report rest) := by
  have here := start_matches stream c
  show (((expression ts.length maxNesting .equality (start ts c).advance).expect .eof .expectEnd).diagnostic) = _
  rcases Reading.bind_eq_stuck.mp h with he | ⟨e, rest', he, hend⟩
  · rw [he] at here
    exact diagnostic_expect here _ _
  · rw [he] at here
    rcases Stands.cases here with ⟨t, ts', rfl, ht, hs⟩ | ⟨t, ts', rfl, ht, hs⟩
    all_goals
      simp only [Reader.ending] at hend
      split at hend <;> cases hend
    · rw [diagnostic_expect hs, report_of_isError _ _ ht]
    · next ne =>
      rw [hs]
      simp [expect, ne, report, Complaint.report, Complaint.lookahead, firstError?, ht]

end Compilation

/-! ## Accepted sources -/

theorem compile_diagnostics_of_stuck {source : String} {c : Chunk} {complaint : Complaint} {rest : List Token}
    (h : Reader.source c.room (tokens source) = .stuck complaint rest) :
    (compile source c).diagnostics = [complaint.report rest] := by
  have reported := Compilation.ofTokens_of_stuck (isStream_tokens source) h
  simp only [compile, reported, Option.toList]

/-- The tokens of a source are those of a tree that fits into a chunk and the end token. -/
structure Parses (source : String) (c : Chunk) (e : Tree) (t : Token) : Prop where
  tokens_eq : tokens source = e.tokens ++ [t]
  ending : t.kind = .eof
  fits : Reader.Fits .equality Compilation.maxNesting c.room e

theorem Parses.source_eq_tree {source : String} {c : Chunk} {e : Tree} {t : Token} (h : Parses source c e t) :
    Reader.source c.room (tokens source) = .tree e [t] :=
  Reader.source_eq_tree_iff.mpr ⟨h.tokens_eq, h.fits, t, rfl, h.ending⟩

/-- **What an accepted source leaves**: the code of its tree and the return operation on the line of the end. -/
theorem Parses.compile_eq {source : String} {c : Chunk} {e : Tree} {t : Token} (h : Parses source c e t) :
    compile source c = ⟨(e.writeTo c).extend [(Operation.return.byte, t.line)] [], []⟩ := by
  obtain ⟨u, hu, -, hs⟩ := Compilation.ofTokens_of_tree (isStream_tokens source) h.source_eq_tree
  cases hu
  simp only [compile, hs, Option.toList]

/-- What an accepted source leaves that is compiled on its own. -/
theorem Parses.chunk_eq {source : String} {e : Tree} {t : Token} (h : Parses source .empty e t) :
    (compile source .empty).chunk =
      Chunk.empty.extend (e.code 0 ++ [(Operation.return.byte, t.line)]) e.constants := by
  rw [h.compile_eq, Tree.writeTo, Chunk.extend_extend, List.append_nil]
  rfl

/-- **A source is accepted** if and only if its tokens are those of a tree that fits. -/
theorem diagnostics_eq_nil_iff {source : String} {c : Chunk} :
    (compile source c).diagnostics = [] ↔ ∃ e t, Parses source c e t := by
  constructor
  · intro h
    cases hr : Reader.source c.room (tokens source) with
    | stuck complaint rest =>
      rw [compile_diagnostics_of_stuck hr] at h
      cases h
    | tree e rest =>
      obtain ⟨t, rfl, ht, -⟩ := Compilation.ofTokens_of_tree (isStream_tokens source) hr
      obtain ⟨htok, fits, -⟩ := Reader.source_eq_tree_iff.mp hr
      exact ⟨e, t, htok, ht, fits⟩
  · rintro ⟨e, t, h⟩
    rw [h.compile_eq]

theorem Chunk.le_room_iff {c : Chunk} {n : Nat} : n ≤ c.room ↔ n = 0 ∨ c.constants.size + n ≤ maxConstants := by
  unfold room
  omega

/-- The number tokens of a source are those of its tree. -/
theorem filter_number_of_derives {ts : List Token} {e : Tree} {t : Token} {level : Level} (h : ts = e.tokens ++ [t])
    (ending : t.kind = .eof) (derives : Derives level e) : ts.filter (·.kind = .number) = e.numbers := by
  rw [h, List.filter_append, ← derives.numbers_eq_filter]
  simp [ending]

namespace Parses

variable {source : String} {c : Chunk} {e : Tree} {t : Token} (h : Parses source c e t)
include h

theorem isError_eq_false : ∀ u ∈ tokens source, u.kind.isError = false := by
  intro u hu
  rw [h.tokens_eq] at hu
  rcases List.mem_append.mp hu with hu | hu
  · exact (h.fits.derives.isProper_of_mem u hu).1
  · rw [List.mem_singleton.mp hu, h.ending]
    rfl

theorem filter_number : (tokens source).filter (·.kind = .number) = e.numbers :=
  filter_number_of_derives h.tokens_eq h.ending h.fits.derives

theorem isSpelled : ∀ u ∈ e.numbers, Decimal.ofNumeral? u.text.toList = some u.numeral := by
  intro u hu
  rw [← h.filter_number, List.mem_filter] at hu
  exact (isStream_tokens source).isSpelled_of_mem u hu.1 (by simpa using hu.2)

/-- There is no number, or there are indices for all of them. -/
theorem numbers_fit : e.numbers = [] ∨ c.constants.size + e.numbers.length ≤ 256 := by
  rcases Chunk.le_room_iff.mp h.fits.numbers with none | some
  · exact .inl (List.eq_nil_of_length_eq_zero none)
  · exact .inr some

end Parses

/-- **Exactly the grammar within its limits is accepted**: no error token, the tokens before the end are those of an
expression, it nests at most 1024 levels deep, and there are indices for its numbers. -/
theorem compile_accepts_iff (source : String) (c : Chunk) :
    (compile source c).diagnostics = [] ↔
      (∀ t ∈ tokens source, t.kind.isError = false) ∧
        ∃ (e : Tree) (eof : Token), tokens source = e.tokens ++ [eof] ∧ eof.kind = .eof ∧ Derives .equality e ∧
          e.nesting ≤ 1024 ∧
          ((tokens source).filter (·.kind = .number) = [] ∨
            c.constants.size + ((tokens source).filter (·.kind = .number)).length ≤ 256) := by
  rw [diagnostics_eq_nil_iff]
  constructor
  · rintro ⟨e, eof, h⟩
    refine ⟨h.isError_eq_false, e, eof, h.tokens_eq, h.ending, h.fits.derives, h.fits.nesting, ?_⟩
    rw [h.filter_number]
    exact h.numbers_fit
  · rintro ⟨-, e, eof, htok, heof, derives, nesting, numbers⟩
    rw [filter_number_of_derives htok heof derives] at numbers
    refine ⟨e, eof, htok, heof, derives, nesting, Chunk.le_room_iff.mpr ?_⟩
    exact numbers.imp_left fun none => by rw [none, List.length_nil]

/-- **Compiling translates the only tree of a source in post-order** and appends the translation: bytes with their
lines, the return operation on the line of the end, and the numbers in the order of the source, all of which have an
index. -/
theorem compile_appends_code (source : String) (c : Chunk) (accepted : (compile source c).diagnostics = []) :
    ∃ (e : Tree) (eof : Token), tokens source = e.tokens ++ [eof] ∧ eof.kind = .eof ∧ Derives .equality e ∧
      (∀ e', Derives .equality e' → e'.tokens = e.tokens → e' = e) ∧
      e.numbers = (tokens source).filter (·.kind = .number) ∧
      (∀ t ∈ e.numbers, Decimal.ofNumeral? t.text.toList = some t.numeral) ∧
      (e.numbers = [] ∨ c.constants.size + e.numbers.length ≤ 256) ∧
      (compile source c).chunk.code =
        c.code ++ ((e.code c.constants.size).map Prod.fst ++ [Operation.return.byte]).toArray ∧
      (compile source c).chunk.lines = c.lines ++ ((e.code c.constants.size).map Prod.snd ++ [eof.line]).toArray ∧
      (compile source c).chunk.constants =
        c.constants ++ (e.numbers.map fun t => Value.number t.numeral.toFloat).toArray := by
  obtain ⟨e, eof, h⟩ := diagnostics_eq_nil_iff.mp accepted
  refine ⟨e, eof, h.tokens_eq, h.ending, h.fits.derives, fun e' he' same => he'.unique h.fits.derives same,
    h.filter_number.symm, h.isSpelled, h.numbers_fit, ?_⟩
  rw [h.compile_eq]
  refine ⟨?_, ?_, ?_⟩
  · simp [Tree.writeTo, Chunk.extend]
  · simp [Tree.writeTo, Chunk.extend]
  · show _ = c.constants ++ e.constants.toArray
    simp [Tree.writeTo, Chunk.extend]

/-- A group on two lines, compiled after a chunk that holds a constant. -/
theorem compile_appends_code_negated :
    (compile "-(1\n) != 2" ⟨#[], #[], #[.nil]⟩).chunk.code = #[0x00, 1, 0x0C, 0x00, 2, 0x04, 0x0B, 0x0D] ∧
      (compile "-(1\n) != 2" ⟨#[], #[], #[.nil]⟩).chunk.lines = #[1, 1, 2, 2, 2, 2, 2, 2] := by
  obtain ⟨e, eof, htok, -, -, unique, -, -, -, code, lines, -⟩ :=
    compile_appends_code "-(1\n) != 2" ⟨#[], #[], #[.nil]⟩ (by decide +kernel)
  have written : tokens "-(1\n) != 2" =
      [⟨.minus, 1, 0, "-"⟩, ⟨.leftParen, 1, 1, "("⟩, ⟨.number, 1, 2, "1"⟩, ⟨.rightParen, 2, 4, ")"⟩,
        ⟨.bangEqual, 2, 6, "!="⟩, ⟨.number, 2, 9, "2"⟩] ++ [⟨.eof, 2, 10, ""⟩] := by
    decide +kernel
  rw [written] at htok
  obtain ⟨same, last⟩ := List.append_inj' htok rfl
  have one : Derives .equality (.number ⟨.number, 1, 2, "1"⟩) := (Derives.number rfl).of_rank_le (Nat.zero_le _)
  have group : Derives .unary (.group ⟨.leftParen, 1, 1, "("⟩ _ ⟨.rightParen, 2, 4, ")"⟩) := .group rfl one rfl
  have negated : Derives .unary (.unary .negate ⟨.minus, 1, 0, "-"⟩ _) := .unary rfl group
  have two : Derives .comparison (.number ⟨.number, 2, 9, "2"⟩) := (Derives.number rfl).of_rank_le (by decide)
  have whole : Derives BinaryOp.notEqual.level (.binary .notEqual _ ⟨.bangEqual, 2, 6, "!="⟩ _) :=
    .binary rfl (negated.of_rank_le (Nat.zero_le _)) two
  obtain rfl := unique _ whole same
  cases last
  exact ⟨code, lines⟩

end Abacus
