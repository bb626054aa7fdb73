import Abacus.Proofs.Token.ByteScan

/-!
# Tilings

The spans of the tokens lie in a source one behind the other: each is a piece of the source between two characters, and
between two of them there is nothing but white space and comments.

* `Reads.tiles`: the spans of a reading, from any place on;
* `Scanner.yields_tiling`: what a scanner yields, up to the end and behind it.
-/

namespace Abacus

/-! ## Pieces of a source -/

/-- The text of a source between two byte offsets; both of them are between two characters. -/
def IsPiece (source : String) (start stop : Nat) (text : String) : Prop :=
  ∃ p q : source.Pos, p.offset.byteIdx = start ∧ q.offset.byteIdx = stop ∧ p ≤ q ∧ String.extract p q = text

/-- Between two offsets there is nothing but white space and comments. -/
def IsBlankBetween (source : String) (start stop : Nat) : Prop :=
  ∃ gap rest, IsPiece source start stop gap ∧ IsPiece source stop source.utf8ByteSize rest ∧
    IsGap rest.toList gap.toList

/-- A span with a piece of the source in it, which is the text of its token if that is no error. -/
structure IsTile (source : String) (s : Span) : Prop where
  ne_eof : s.token.kind ≠ .eof
  start_lt : s.token.start < s.stop
  piece : ∃ text, IsPiece source s.token.start s.stop text ∧ (s.token.isFromSource = true → s.token.text = text)

/-- The offsets between which a span lies. -/
def Span.bounds (s : Span) : Nat × Nat :=
  (s.token.start, s.stop)

/-- The span of the end token at the end of a text. -/
def Span.ending (offset : Nat) (line : Line) : Span :=
  ⟨⟨.eof, line, offset, ""⟩, offset⟩

section Pieces

variable {source : String} {before text after : List Char}

theorem isPiece_place (split : source.toList = before ++ (text ++ after)) :
    IsPiece source (utf8Length before) (utf8Length (before ++ text)) (String.ofList text) := by
  have slice := ByteCursor.slice_place split
  unfold ByteCursor.slice at slice
  split at slice
  · next valid => exact ⟨⟨_, valid.2.1⟩, ⟨_, valid.2.2⟩, rfl, rfl, valid.1, Except.ok.inj slice⟩
  · cases slice

theorem isBlankBetween_place {gap rest : List Char} (split : source.toList = before ++ (gap ++ rest))
    (isGap : IsGap rest gap) : IsBlankBetween source (utf8Length before) (utf8Length (before ++ gap)) := by
  have tail : source.toList = before ++ gap ++ (rest ++ []) := by simp [split]
  have last := isPiece_place tail
  have size : utf8Length (before ++ gap ++ rest) = source.utf8ByteSize := by
    rw [utf8ByteSize_eq, length_bytesOf, split, List.append_assoc]
  rw [size] at last
  exact ⟨_, _, isPiece_place split, last, by simpa using isGap⟩

theorem isTile_place {gap rest : List Char} {k : Kind} (split : source.toList = before ++ gap ++ (text ++ rest))
    (line : Line) (lexes : Lexes (text ++ rest) k text) :
    IsTile source (.read k (utf8Length before) line gap text) where
  ne_eof := lexes.ne_eof
  start_lt := by
    have := Nat.pos_of_ne_zero (mt utf8Length_eq_zero.mp lexes.ne_nil)
    simp only [Span.read, utf8Length_append]
    omega
  piece := by
    have piece := isPiece_place split
    rw [List.append_assoc before, utf8Length_append before, utf8Length_append before] at piece
    refine ⟨_, piece, fun proper => ?_⟩
    cases k with
    | error cause => cases proper
    | _ => rfl

end Pieces

/-- **The spans of a reading** tile the source from its place on. -/
theorem Reads.tiles {offset : Nat} {line : Line} {cs : List Char} {all : List Span} (h : Reads offset line cs all)
    {source : String} {before : List Char} (split : source.toList = before ++ cs) (place : offset = utf8Length before) :
    ∃ spans, all = spans ++ [.ending (offset + utf8Length cs) (lineAfter line cs)] ∧ (∀ s ∈ spans, IsTile source s) ∧
      ∀ start, ((start, offset) :: all.map Span.bounds).IsChain fun a b => IsBlankBetween source a.2 b.1 := by
  induction h generalizing before with
  | @ending offset line gap isGap =>
    subst place
    have split' : source.toList = before ++ (gap ++ []) := by simpa using split
    have blank := isBlankBetween_place split' isGap
    rw [utf8Length_append] at blank
    refine ⟨[], ?_, nofun, fun start => .cons_cons blank (.singleton _)⟩
    simp only [Span.read, List.append_nil]
    rfl
  | @lexeme offset line gap text rest k spans isGap bare lexes _ ih =>
    subst place
    have split₁ : source.toList = before ++ gap ++ (text ++ rest) := by simpa using split
    have split₂ : source.toList = before ++ (gap ++ text) ++ rest := by simpa using split
    obtain ⟨spans, rfl, tiles, chain⟩ := ih split₂ (by rw [utf8Length_append before])
    have blank := isBlankBetween_place split isGap
    rw [utf8Length_append] at blank
    refine ⟨.read k (utf8Length before) line gap text :: spans, ?_, ?_, fun start => .cons_cons blank (chain _)⟩
    · have offset : utf8Length before + utf8Length (gap ++ (text ++ rest)) =
          utf8Length before + utf8Length (gap ++ text) + utf8Length rest := by simp [Nat.add_assoc]
      have line' : lineAfter line (gap ++ (text ++ rest)) = lineAfter (lineAfter line (gap ++ text)) rest := by simp
      rw [offset, line']
      rfl
    · intro s hs
      rcases List.mem_cons.mp hs with rfl | hs
      · exact isTile_place split₁ line lexes
      · exact tiles s hs

/-- **The tokens tile the source.** -/
theorem Scanner.yields_tiling (source : String) :
    ∃ spans eof last last',
      (ofSource source).Yields (spans ++ [⟨eof, source.utf8ByteSize⟩]) last ∧
      (ByteCursor.ofSource source).Yields (spans ++ [⟨eof, source.utf8ByteSize⟩]) last' ∧
      tokens source = spans.map Span.token ++ [eof] ∧
      eof.kind = .eof ∧ eof.start = source.utf8ByteSize ∧
      (∀ s ∈ spans, IsTile source s) ∧
      ((0, 0) :: spans.map Span.bounds ++ [(eof.start, source.utf8ByteSize)]).IsChain
        (fun a b => IsBlankBetween source a.2 b.1) ∧
      (∀ n, ((fun s => s.scan.2)^[n] last).scan.1 = eof) ∧ last'.scan = .ok (eof, last') := by
  obtain ⟨all, reads⟩ := exists_reads 0 1 source.toList
  have split : source.toList = [] ++ source.toList := rfl
  obtain ⟨spans, rfl, tiles, chain⟩ := reads.tiles split rfl
  have size : 0 + utf8Length source.toList = source.utf8ByteSize := by
    rw [Nat.zero_add, utf8ByteSize_eq, length_bytesOf]
  have yields := yields_of_reads reads
  have yields' := ByteCursor.yields_of_reads reads split rfl
  have ahead := Cursor.ahead_of_reads reads
  have again := ByteCursor.scan_eq (c := ⟨[], 0 + utf8Length source.toList, lineAfter 1 source.toList⟩)
    (List.append_nil source.toList).symm (Nat.zero_add _)
  rw [List.map_append] at chain ahead
  rw [size] at yields yields' chain ahead again
  refine ⟨spans, _, _, _, yields, yields', ahead, rfl, rfl, tiles, chain 0, fun n => ?_, again⟩
  rw [Function.iterate_fixed rfl]
  rfl

end Abacus
