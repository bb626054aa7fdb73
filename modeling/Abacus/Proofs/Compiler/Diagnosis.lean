import Abacus.Proofs.Compiler.Outcome
import Abacus.Proofs.Token.Cut

/-!
# Where a source is diagnosed

A compilation that fails reports one problem, and as early as it can: what stands before the token that it names
begins an accepted sequence of tokens, and with that token nothing does.  An error token is reported as soon as it is
looked at, which may be before the token in hand is judged.

* `begins_of_viable`: what can be completed can be completed in a source;
* `not_isPrefix_of_stuck`: what a reader got stuck at cannot be gone on with in any source;
* `compile_reports_earliest`: the only diagnostic of a failed compilation.
-/

namespace Abacus

/-- Tokens that make up, together with an end token, a source that is accepted for a chunk. -/
def Accepted (c : Chunk) (us : List Token) : Prop :=
  ∃ source eof, tokens source = us ++ [eof] ∧ eof.kind = .eof ∧ (compile source c).diagnostics = []

/-- Tokens that begin an accepted sequence. -/
def Begins (c : Chunk) (us : List Token) : Prop :=
  ∃ ws, Accepted c ws ∧ us <+: ws

/-- A located diagnostic of a source with the tokens `ts`: it names the token `t` after `before`, and that token is the
first one that no accepted sequence goes on with. -/
structure NamesObstacle (c : Chunk) (ts : List Token) (d : Diagnostic) (before : List Token) (t : Token) : Prop where
  split : ∃ rest, ts = before ++ t :: rest
  noError : ∀ u ∈ before ++ [t], u.kind.isError = false
  line : d.line = t.line
  location : d.location = if t.kind = .eof then .atEnd else .lexeme t.text
  message : ∃ complaint : Complaint, d.message = complaint.message
  begins : Begins c before
  obstacle : t.kind ≠ .eof → ∀ us, Accepted c us → ¬ (before ++ [t]).map Token.kind <+: us.map Token.kind
  ending : t.kind = .eof → ∀ us, Accepted c us → us.map Token.kind ≠ before.map Token.kind

/-- A diagnostic without a location of a source with the tokens `ts`: it names the first error token `t`, and what
stands before the last token before it begins an accepted sequence. -/
structure NamesErrorToken (c : Chunk) (ts : List Token) (d : Diagnostic) (before : List Token) (t : Token) : Prop where
  split : ∃ rest, ts = before ++ t :: rest
  noError : ∀ u ∈ before, u.kind.isError = false
  isError : t.kind.isError = true
  line : d.line = t.line
  message : d.message = t.text
  begins : Begins c before.dropLast

/-! ## Beginnings -/

theorem Begins.of_isPrefix {c : Chunk} {us vs : List Token} (h : Begins c vs) (le : us <+: vs) : Begins c us := by
  obtain ⟨ws, accepted, hws⟩ := h
  exact ⟨ws, accepted, le.trans hws⟩

theorem begins_of_viable {source : String} {c : Chunk} {us vs : List Token} (h : tokens source = us ++ vs)
    (ne : vs ≠ []) (viable : Reader.Viable .equality Compilation.maxNesting c.room us) : Begins c us := by
  have proper : ∀ t ∈ us, t.kind.isError = false := fun t ht => (viable.isProper_of_mem t ht).1
  obtain ⟨ks, hks, complete⟩ := viable
  obtain ⟨source', w, t, htok, kinds, heof⟩ := exists_source_of_append h ne proper hks
  obtain ⟨e, he, fits⟩ := complete w kinds
  have parses : Parses source' c e t := ⟨by rw [htok, he], heof, fits⟩
  exact ⟨us ++ w, ⟨source', t, htok, heof, diagnostics_eq_nil_iff.mpr ⟨e, t, parses⟩⟩, List.prefix_append us w⟩

theorem not_isPrefix_of_stuck {c : Chunk} {us vs : List Token} {t : Token} {complaint : Complaint}
    (h : Reader.source c.room (us ++ t :: vs) = .stuck complaint (t :: vs)) {source : String}
    (accepted : (compile source c).diagnostics = []) :
    ¬ (us ++ [t]).map Token.kind <+: (tokens source).map Token.kind := by
  rintro ⟨ks, hks⟩
  obtain ⟨y, z, htok, hy, -⟩ := List.map_eq_append_iff.mp hks.symm
  obtain ⟨e, eof, parses⟩ := diagnostics_eq_nil_iff.mp accepted
  have stuck : Reader.source c.room ((us ++ [t]) ++ vs) = .stuck complaint (t :: vs) := by
    rw [List.append_assoc]
    exact h
  obtain ⟨rest', stuck'⟩ : ∃ rest', Reader.source c.room (y ++ z) = .stuck complaint rest' :=
    Reader.source_stuck_of_sameKinds hy.symm stuck (Nat.lt_succ_self _)
  have read := parses.source_eq_tree
  rw [htok, stuck'] at read
  cases read

/-! ## Reports -/

theorem Location.ofToken_of_isError {t : Token} (h : t.kind.isError = true) : ofToken t = unlocated := by
  unfold ofToken
  cases hk : t.kind with
  | error cause => rfl
  | _ => rw [hk] at h; cases h

theorem Location.ofToken_of_noError {t : Token} (h : t.kind.isError = false) :
    ofToken t = if t.kind = .eof then atEnd else lexeme t.text := by
  unfold ofToken
  cases hk : t.kind with
  | error cause => rw [hk] at h; cases h
  | _ => rfl

/-- A report is about the token in front, or about an error token right behind it. -/
theorem Complaint.report_cases (complaint : Complaint) (t : Token) (ts : List Token) :
    (t.kind.isError = true ∧ complaint.report (t :: ts) = .atToken t t.text) ∨
      (t.kind.isError = false ∧ ∃ u us, ts = u :: us ∧ u.kind.isError = true ∧
        complaint.report (t :: ts) = .atToken u u.text) ∨
      (t.kind.isError = false ∧ complaint.report (t :: ts) = .atToken t complaint.message) := by
  cases ht : t.kind.isError with
  | true => exact .inl ⟨rfl, report_of_isError complaint ts ht⟩
  | false =>
    have read : complaint.report (t :: ts) =
        (firstError? (ts.take complaint.lookahead)).getD (.atToken t complaint.message) := by
      rw [report, firstError?_cons _ ht]
    rw [read]
    have ahead : complaint.lookahead = 0 ∨ complaint.lookahead = 1 := by
      cases complaint <;> simp [lookahead]
    rcases ahead with zero | one
    · exact .inr (.inr ⟨rfl, by rw [zero]; rfl⟩)
    cases ts with
    | nil => exact .inr (.inr ⟨rfl, by rw [List.take_nil]; rfl⟩)
    | cons u us =>
      rw [one]
      cases hu : u.kind.isError with
      | true => exact .inr (.inl ⟨rfl, u, us, rfl, hu, by simp [firstError?, hu]⟩)
      | false => exact .inr (.inr ⟨rfl, by simp [firstError?, hu]⟩)

/-! ## Earliest problems -/

theorem noError_of_viable {room : Nat} {us : List Token} {t : Token}
    (viable : Reader.Viable .equality Compilation.maxNesting room us) (ht : t.kind.isError = false) :
    ∀ u ∈ us ++ [t], u.kind.isError = false := by
  intro u hu
  rcases List.mem_append.mp hu with hu | hu
  · exact (viable.isProper_of_mem u hu).1
  · rw [List.mem_singleton.mp hu]
    exact ht

section Stuck

variable {source : String} {c : Chunk} {us ts : List Token} {t : Token} (htok : tokens source = us ++ t :: ts)
  (viable : Reader.Viable .equality Compilation.maxNesting c.room us)
include htok viable

/-- A report about the token that a reader got stuck at. -/
theorem namesObstacle_of_stuck {complaint : Complaint}
    (stuck : Reader.source c.room (tokens source) = .stuck complaint (t :: ts)) (ht : t.kind.isError = false) :
    NamesObstacle c (tokens source) (.atToken t complaint.message) us t := by
  have obstacle : ∀ {source'}, (compile source' c).diagnostics = [] →
      ¬ (us ++ [t]).map Token.kind <+: (tokens source').map Token.kind := not_isPrefix_of_stuck (htok ▸ stuck)
  refine ⟨⟨ts, htok⟩, noError_of_viable viable ht, rfl, Location.ofToken_of_noError ht, ⟨complaint, rfl⟩,
    begins_of_viable htok (List.cons_ne_nil _ _) viable, ?_, ?_⟩
  · rintro - ws ⟨source', eof, htok', -, accepted⟩ le
    apply obstacle accepted
    have longer : ws.map Token.kind <+: (tokens source').map Token.kind := by
      rw [htok', List.map_append]
      exact List.prefix_append _ _
    exact le.trans longer
  · rintro heof ws ⟨source', eof, htok', heof', accepted⟩ same
    apply obstacle accepted
    rw [htok', List.map_append, List.map_append, same]
    simp [heof, heof']

/-- A report about an error token that a reader got stuck at. -/
theorem namesErrorToken_of_isError (ht : t.kind.isError = true) :
    NamesErrorToken c (tokens source) (.atToken t t.text) us t := by
  have begins := begins_of_viable htok (List.cons_ne_nil _ _) viable
  refine ⟨⟨ts, htok⟩, fun u hu => (viable.isProper_of_mem u hu).1, ht, rfl, rfl, ?_⟩
  exact begins.of_isPrefix (List.dropLast_prefix us)

/-- A report about an error token behind the one that a reader got stuck at. -/
theorem namesErrorToken_of_lookahead (ht : t.kind.isError = false) {u : Token} {vs : List Token} (hts : ts = u :: vs)
    (hu : u.kind.isError = true) : NamesErrorToken c (tokens source) (.atToken u u.text) (us ++ [t]) u := by
  have begins := begins_of_viable htok (List.cons_ne_nil _ _) viable
  refine ⟨⟨vs, ?_⟩, noError_of_viable viable ht, hu, rfl, rfl, ?_⟩
  · rw [htok, hts, List.append_assoc]
    rfl
  · rw [List.dropLast_concat]
    exact begins

end Stuck

/-- **A failed compilation reports one problem**, and the earliest one. -/
theorem compile_reports_earliest (source : String) (c : Chunk) (failed : (compile source c).diagnostics ≠ []) :
    ∃ d, (compile source c).diagnostics = [d] ∧
      (d.location ≠ .unlocated → ∃ before t, NamesObstacle c (tokens source) d before t) ∧
      (d.location = .unlocated → ∃ before t, NamesErrorToken c (tokens source) d before t) := by
  cases hr : Reader.source c.room (tokens source) with
  | tree e rest =>
    obtain ⟨t, rfl, ht, -⟩ := Compilation.ofTokens_of_tree (isStream_tokens source) hr
    obtain ⟨htok, fits, -⟩ := Reader.source_eq_tree_iff.mp hr
    exact absurd (diagnostics_eq_nil_iff.mpr ⟨e, t, htok, ht, fits⟩) failed
  | stuck complaint rest =>
    obtain ⟨us, htok, viable⟩ := Reader.source_stuck_viable hr
    have after : IsStream rest :=
      (htok ▸ isStream_tokens source).of_append fun u hu => (viable.isProper_of_mem u hu).2
    obtain ⟨t, ts, rfl⟩ := List.exists_cons_of_ne_nil after.ne_nil
    refine ⟨_, compile_diagnostics_of_stuck hr, ?_⟩
    rcases complaint.report_cases t ts with ⟨ht, hd⟩ | ⟨ht, u, vs, hts, hu, hd⟩ | ⟨ht, hd⟩
    · rw [hd]
      refine ⟨fun located => absurd (Location.ofToken_of_isError ht) located, fun _ => ?_⟩
      exact ⟨us, t, namesErrorToken_of_isError htok viable ht⟩
    · rw [hd]
      refine ⟨fun located => absurd (Location.ofToken_of_isError hu) located, fun _ => ?_⟩
      exact ⟨us ++ [t], u, namesErrorToken_of_lookahead htok viable ht hts hu⟩
    · rw [hd]
      refine ⟨fun _ => ⟨us, t, namesObstacle_of_stuck htok viable hr ht⟩, fun unlocated => ?_⟩
      have located : Location.ofToken t = .unlocated := unlocated
      rw [Location.ofToken_of_noError ht] at located
      split at located <;> cases located

/-- A group that is not closed by the end of the source. -/
theorem compile_reports_earliest_unclosed :
    ∃ before t, NamesObstacle .empty (tokens "(1\n+ 2") ⟨2, .atEnd, "Expect ')' after expression."⟩ before t := by
  have reported : (compile "(1\n+ 2" .empty).diagnostics = [⟨2, .atEnd, "Expect ')' after expression."⟩] := by
    decide +kernel
  obtain ⟨d, hd, located, -⟩ := compile_reports_earliest "(1\n+ 2" .empty (by rw [reported]; nofun)
  rw [reported] at hd
  cases hd
  exact located nofun

end Abacus
