import Abacus.Compiler
import Abacus.Proofs.Syntax.Tree

/-!
# Reading trees

A parser that does what a compilation does and builds a tree in place of code.  It reads off a plain list of
tokens, so that trees can be reasoned about apart from chunks, and it keeps the two limits: `left` levels of nesting
and `room` constants.

* `Reader.expression_eq_tree_iff`: the trees that are read are those of the grammar that fit into the limits, each up
  to the first token that cannot go on with it;
* `Derives.unique`: the grammar is unambiguous.
-/

namespace Abacus

/-- What reading an expression off a list of tokens gives. -/
inductive Reading where
  /-- A tree and the tokens after it. -/
  | tree (e : Tree) (rest : List Token)
  /-- A complaint and the tokens from the one that it is about on. -/
  | stuck (c : Complaint) (rest : List Token)

namespace Reading

/-- Goes on after a tree. -/
def bind (r : Reading) (k : Tree → List Token → Reading) : Reading :=
  match r with
  | tree e rest => k e rest
  | stuck c rest => stuck c rest

/-- The tokens that are left. -/
def rest : Reading → List Token
  | tree _ rest => rest
  | stuck _ rest => rest

theorem bind_eq_tree {r : Reading} {k : Tree → List Token → Reading} {e : Tree} {rest : List Token} :
    r.bind k = tree e rest ↔ ∃ e' rest', r = tree e' rest' ∧ k e' rest' = tree e rest := by
  cases r with
  | tree e' rest' => exact ⟨fun h => ⟨e', rest', rfl, h⟩, fun ⟨_, _, h, hk⟩ => by cases h; exact hk⟩
  | stuck c rest' => exact ⟨nofun, nofun⟩

theorem bind_eq_stuck {r : Reading} {k : Tree → List Token → Reading} {c : Complaint} {rest : List Token} :
    r.bind k = stuck c rest ↔
      r = stuck c rest ∨ ∃ e' rest', r = tree e' rest' ∧ k e' rest' = stuck c rest := by
  cases r with
  | tree e' rest' =>
    exact ⟨fun h => .inr ⟨e', rest', rfl, h⟩, fun h => by
      rcases h with h | ⟨_, _, h, hk⟩
      · cases h
      · cases h; exact hk⟩
  | stuck c' rest' => exact ⟨.inl, fun h => by rcases h with h | ⟨_, _, h, _⟩ <;> cases h; rfl⟩

end Reading

namespace Reader

/-- Closes a group. -/
def closing (opening : Token) (e : Tree) : List Token → Reading
  | [] => .stuck .expectParen []
  | t :: rest =>
    if t.kind = .rightParen then .tree (.group opening e t) rest else .stuck .expectParen (t :: rest)

/-- Reads an operand that starts with the token `t`; `inner` reads what stands inside it. -/
def operand (inner : Level → Nat → Token → List Token → Reading) (room : Nat) (t : Token) (ts : List Token) :
    Reading :=
  match t.kind with
  | .number => if 0 < room then .tree (.number t) ts else .stuck .tooManyConstants (t :: ts)
  | .nilWord => .tree (.literal .nil t) ts
  | .trueWord => .tree (.literal .true t) ts
  | .falseWord => .tree (.literal .false t) ts
  | .leftParen => (inner .equality room t ts).bind (closing t)
  | .bang => (inner .unary room t ts).bind fun e rest => .tree (.unary .not t e) rest
  | .minus => (inner .unary room t ts).bind fun e rest => .tree (.unary .negate t e) rest
  | _ => .stuck .expectExpression (t :: ts)

/-- Reads binary operators of at least the given level after the tree `e`, at most as many as the bound allows. -/
def operators (inner : Level → Nat → Token → List Token → Reading) (level : Level) (room : Nat) :
    Nat → Tree → List Token → Reading
  | 0, e, ts => .tree e ts
  | _ + 1, e, [] => .tree e []
  | bound + 1, e, t :: ts =>
    match t.kind.binaryOp? with
    | some op =>
      if level.rank ≤ op.level.rank then
        (inner op.level.tighter (room - e.numbers.length) t ts).bind fun right rest =>
          operators inner level room bound (.binary op e t right) rest
      else .tree e (t :: ts)
    | none => .tree e (t :: ts)

/-- Reads an expression of at least the given level after the token `before`. -/
def expression (bound : Nat) : Nat → Level → Nat → Token → List Token → Reading
  | 0, _, _, before, ts => .stuck .nestsTooDeeply (before :: ts)
  | _ + 1, _, _, _, [] => .stuck .expectExpression []
  | left + 1, level, room, _, t :: ts =>
    (operand (expression bound left) room t ts).bind (operators (expression bound left) level room bound)

/-- Stops at the end of the source and nowhere else. -/
def ending (e : Tree) : List Token → Reading
  | [] => .stuck .expectEnd []
  | t :: rest => if t.kind = .eof then .tree e (t :: rest) else .stuck .expectEnd (t :: rest)

/-- Reads a source of one expression. -/
def source (room : Nat) (ts : List Token) : Reading :=
  (expression ts.length Compilation.maxNesting .equality room (.synthetic .eof 1) ts).bind ending

/-! ## Operands by their first token -/

section Operand

variable (inner : Level → Nat → Token → List Token → Reading) (room : Nat) {t : Token} (ts : List Token)

theorem operand_number (ht : t.kind = .number) : operand inner room t ts =
    if 0 < room then .tree (.number t) ts else .stuck .tooManyConstants (t :: ts) := by
  simp only [operand, ht]

theorem operand_literal (l : Literal) (ht : t.kind = l.kind) : operand inner room t ts = .tree (.literal l t) ts := by
  cases l <;> simp only [operand, ht, Literal.kind]

theorem operand_group (ht : t.kind = .leftParen) :
    operand inner room t ts = (inner .equality room t ts).bind (closing t) := by
  simp only [operand, ht]

theorem operand_unary (op : UnaryOp) (ht : t.kind = op.kind) :
    operand inner room t ts = (inner .unary room t ts).bind fun e rest => .tree (.unary op t e) rest := by
  cases op <;> simp only [operand, ht, UnaryOp.kind]

theorem operand_none (ht : t.kind.operandStart? = none) :
    operand inner room t ts = .stuck .expectExpression (t :: ts) := by
  unfold operand
  split
  all_goals first | rfl | next hk => simp only [hk, Kind.operandStart?, reduceCtorEq] at ht

end Operand

/-! ## What is read -/

/-- No operator of the given rank or a higher one stands in front. -/
def Stops (rank : Nat) (ts : List Token) : Prop :=
  ∀ t ∈ ts.head?, ∀ op : BinaryOp, t.kind = op.kind → op.level.rank < rank

/-- `e` is a tree of a level that takes at most `left` levels of nesting and `room` constants. -/
structure Fits (level : Level) (left room : Nat) (e : Tree) : Prop where
  derives : Derives level e
  nesting : e.nesting ≤ left
  numbers : e.numbers.length ≤ room

/-- `e` is what a reader finds in front of `rest`. -/
structure Found (level : Level) (left room : Nat) (ts : List Token) (e : Tree) (rest : List Token) : Prop where
  tokens : ts = e.tokens ++ rest
  fits : Fits level left room e
  stops : Stops level.rank rest

/-- A tree takes on a further operator that binds no tighter than its own. -/
theorem Fits.binary {level : Level} {left room : Nat} {op : BinaryOp} {e₀ right : Tree} {t : Token}
    (fits : Fits level (left + 1) room e₀) (ht : t.kind = op.kind) (below : op.level.rank ≤ e₀.level.rank)
    (reach : level.rank ≤ op.level.rank)
    (inner : Fits op.level.tighter left (room - e₀.numbers.length) right) :
    Fits level (left + 1) room (.binary op e₀ t right) := by
  obtain ⟨hd, hn, hc⟩ := fits
  obtain ⟨hd', hn', hc'⟩ := inner
  refine ⟨?_, ?_, ?_⟩
  · have chain : Derives op.level e₀ := hd.at_level.of_rank_le below
    exact (Derives.binary ht chain hd').of_rank_le reach
  · simp only [Tree.nesting]
    omega
  · simp only [Tree.numbers, List.length_append]
    omega

theorem Stops.mono {rank rank' : Nat} {ts : List Token} (h : Stops rank ts) (le : rank ≤ rank') : Stops rank' ts :=
  fun t ht op hk => Nat.lt_of_lt_of_le (h t ht op hk) le

theorem stops_unary (ts : List Token) : Stops Level.unary.rank ts :=
  fun _ _ op _ => op.rank_lt_unary

theorem stops_cons {rank : Nat} {t : Token} {ts : List Token} (op : BinaryOp) (ht : t.kind = op.kind)
    (lt : op.level.rank < rank) : Stops rank (t :: ts) := by
  intro u hu op' hu'
  obtain rfl := Option.some.inj hu
  have same : some op' = some op := by
    rw [← Kind.binaryOp?_eq_some_iff.mpr hu', ← Kind.binaryOp?_eq_some_iff.mpr ht]
  cases same
  exact lt

/-- A reader of inner expressions that finds only trees that fit. -/
def Sound (bound left : Nat) (inner : Level → Nat → Token → List Token → Reading) : Prop :=
  ∀ {level room before ts e rest}, ts.length ≤ bound → inner level room before ts = .tree e rest →
    Found level left room ts e rest

section Soundness

variable {bound left : Nat} {inner : Level → Nat → Token → List Token → Reading} (sound : Sound bound left inner)
include sound

theorem found_unary (op : UnaryOp) {room : Nat} {t : Token} {ts : List Token} {e : Tree} {rest : List Token}
    (ht : t.kind = op.kind) (len : ts.length ≤ bound)
    (h : ((inner .unary room t ts).bind fun e rest => .tree (.unary op t e) rest) = .tree e rest) :
    Found .unary (left + 1) room (t :: ts) e rest := by
  obtain ⟨e', rest', hi, he⟩ := Reading.bind_eq_tree.mp h
  cases he
  obtain ⟨htok, ⟨hd, hn, hc⟩, _⟩ := sound len hi
  refine ⟨by simp [Tree.tokens, htok], ⟨.unary ht hd, ?_, hc⟩, stops_unary _⟩
  simp only [Tree.nesting]
  omega

theorem found_group {room : Nat} {t : Token} {ts : List Token} {e : Tree} {rest : List Token}
    (ht : t.kind = .leftParen) (len : ts.length ≤ bound)
    (h : (inner .equality room t ts).bind (closing t) = .tree e rest) :
    Found .unary (left + 1) room (t :: ts) e rest := by
  obtain ⟨e', rest', hi, he⟩ := Reading.bind_eq_tree.mp h
  obtain ⟨htok, ⟨hd, hn, hc⟩, _⟩ := sound len hi
  unfold closing at he
  split at he
  · cases he
  split at he
  · next u rest' hu =>
    cases he
    refine ⟨by simp [Tree.tokens, htok], ⟨.group ht hd hu, ?_, hc⟩, stops_unary _⟩
    simp only [Tree.nesting]
    omega
  · cases he

theorem operand_sound {room : Nat} {t : Token} {ts : List Token} {e : Tree} {rest : List Token}
    (len : ts.length ≤ bound) (h : operand inner room t ts = .tree e rest) :
    Found .unary (left + 1) room (t :: ts) e rest := by
  rcases t.kind.start_cases with ht | ⟨l, ht⟩ | ht | ⟨op, ht⟩ | ht
  · rw [operand_number _ _ _ ht] at h
    split at h
    · next has => cases h; exact ⟨rfl, ⟨.number ht, Nat.le_add_left .., has⟩, stops_unary _⟩
    · cases h
  · rw [operand_literal _ _ _ l ht] at h
    cases h
    exact ⟨rfl, ⟨.literal ht, Nat.le_add_left .., Nat.zero_le _⟩, stops_unary _⟩
  · rw [operand_group _ _ _ ht] at h
    exact found_group sound ht len h
  · rw [operand_unary _ _ _ op ht] at h
    exact found_unary sound op ht len h
  · rw [operand_none _ _ _ ht] at h
    cases h

/-- After an operand the operators can be read: it is of every level, and any operator may follow it. -/
theorem operand_ready {room : Nat} {t : Token} {ts : List Token} {e : Tree} {rest : List Token}
    (len : (t :: ts).length ≤ bound) (level : Level) (h : operand inner room t ts = .tree e rest) :
    t :: ts = e.tokens ++ rest ∧ Fits level (left + 1) room e ∧ Stops (e.level.rank + 1) rest ∧
      rest.length ≤ bound := by
  obtain ⟨htok, fits, _⟩ := operand_sound sound (Nat.le_of_succ_le len) h
  have own : e.level.rank = Level.unary.rank := Nat.le_antisymm (Level.rank_le_unary _) fits.derives.rank_le
  refine ⟨htok, ?_, (stops_unary _).mono (by omega), ?_⟩
  · exact ⟨fits.derives.of_rank_le level.rank_le_unary, fits.nesting, fits.numbers⟩
  · rw [htok, List.length_append] at len
    omega

/-- The tree grows to the left: the operator that comes next never binds tighter than the one before it. -/
theorem operators_sound {level : Level} {room n : Nat} {e₀ : Tree} {ts : List Token} {e : Tree} {rest : List Token}
    (fits : Fits level (left + 1) room e₀) (stops : Stops (e₀.level.rank + 1) ts) (len : ts.length ≤ n)
    (le : n ≤ bound) (h : operators inner level room n e₀ ts = .tree e rest) :
    Found level (left + 1) room (e₀.tokens ++ ts) e rest := by
  induction n generalizing e₀ ts with
  | zero =>
    obtain rfl := List.eq_nil_of_length_eq_zero (Nat.le_zero.mp len)
    cases h
    exact ⟨rfl, fits, nofun⟩
  | succ n ih =>
    cases ts with
    | nil =>
      cases h
      exact ⟨rfl, fits, nofun⟩
    | cons t ts =>
      simp only [operators] at h
      split at h
      · next op hop =>
        have ht := Kind.binaryOp?_eq_some_iff.mp hop
        split at h
        · next reach =>
          obtain ⟨right, rest', hr, h⟩ := Reading.bind_eq_tree.mp h
          simp only [List.length_cons] at len
          obtain ⟨htok, inner, hs⟩ := sound (by omega) hr
          have below := stops t rfl op ht
          have next := fits.binary ht (by omega) reach inner
          have := ih next (by rwa [op.rank_tighter] at hs) (by rw [htok] at len; simp at len; omega) (by omega) h
          simpa [Tree.tokens, htok] using this
        · next short =>
          cases h
          exact ⟨rfl, fits, stops_cons op ht (by omega)⟩
      · next hop =>
        cases h
        refine ⟨rfl, fits, ?_⟩
        intro u hu op hk
        obtain rfl := Option.some.inj hu
        rw [Kind.binaryOp?_eq_some_iff.mpr hk] at hop
        cases hop

end Soundness

theorem expression_sound (bound left : Nat) : Sound bound left (expression bound left) := by
  induction left with
  | zero => intro level room before ts e rest _ h; cases h
  | succ left ih =>
    intro level room before ts e rest len h
    cases ts with
    | nil => cases h
    | cons t ts =>
      simp only [expression] at h
      obtain ⟨e₀, ts₀, ho, h⟩ := Reading.bind_eq_tree.mp h
      obtain ⟨htok, fits, stops, short⟩ := operand_ready ih len level ho
      rw [htok]
      exact operators_sound ih fits stops short (Nat.le_refl _) h

/-! ## What can be read -/

theorem operators_of_stops {inner : Level → Nat → Token → List Token → Reading} {level : Level} {ts : List Token}
    (h : Stops level.rank ts) (room n : Nat) (e : Tree) : operators inner level room n e ts = .tree e ts := by
  cases n with
  | zero => rfl
  | succ n =>
    cases ts with
    | nil => rfl
    | cons t ts =>
      simp only [operators]
      split
      · next op hop =>
        have := h t rfl op (Kind.binaryOp?_eq_some_iff.mp hop)
        rw [if_neg (by omega)]
      · rfl

/-- Reading the tokens of `e` leads to the operators after `e`. -/
def Continues (e : Tree) : Prop :=
  ∀ (bound left room : Nat) (level : Level) (before : Token) (rest : List Token),
    level.rank ≤ e.level.rank → e.nesting ≤ left + 1 → e.numbers.length ≤ room → Stops (e.level.rank + 1) rest →
    (e.tokens ++ rest).length ≤ bound →
    expression bound (left + 1) level room before (e.tokens ++ rest) =
      operators (expression bound left) level room (bound - e.chain) e rest

theorem Continues.expression_eq {e : Tree} (h : Continues e) {bound left room : Nat} {level : Level}
    (fits : Fits level left room e) (before : Token) {rest : List Token} (stops : Stops level.rank rest)
    (len : (e.tokens ++ rest).length ≤ bound) :
    expression bound left level room before (e.tokens ++ rest) = .tree e rest := by
  have reach := fits.derives.rank_le
  obtain ⟨left, rfl⟩ := Nat.exists_eq_add_of_lt (Nat.lt_of_lt_of_le e.nesting_pos fits.nesting)
  rw [Nat.zero_add] at *
  rw [h bound left room level before rest reach fits.nesting fits.numbers (stops.mono (by omega)) len]
  exact operators_of_stops stops _ _ _

theorem stops_rightParen {rank : Nat} {t : Token} {ts : List Token} (ht : t.kind = .rightParen) :
    Stops rank (t :: ts) := by
  intro u hu op hk
  obtain rfl := Option.some.inj hu
  rw [ht] at hk
  cases op <;> cases hk

theorem continues_binary {op : BinaryOp} {left right : Tree} {t : Token} (ht : t.kind = op.kind)
    (hl : Derives op.level left) (hr : Derives op.level.tighter right) (ihl : Continues left)
    (ihr : Continues right) : Continues (.binary op left t right) := by
  intro bound n room level before rest reach hn hc stops len
  simp only [Tree.level, Tree.nesting, Tree.numbers, Tree.tokens, List.length_append, List.append_assoc,
    List.cons_append, List.length_cons] at reach hn hc stops len ⊢
  have chain := left.chain_lt_length
  have le := hl.rank_le
  rw [ihl bound n room level before _ (by omega) (by omega) (by omega) (stops_cons op ht (by omega))
    (by simp only [List.length_append, List.length_cons]; omega)]
  -- one operator is left to read: the chain of the left operand is shorter than its tokens
  obtain ⟨m, hm⟩ : ∃ m, bound - left.chain = m + 1 := ⟨bound - left.chain - 1, by omega⟩
  have hm' : bound - (Tree.binary op left t right).chain = m := by
    simp only [Tree.chain]
    omega
  have fits : Fits op.level.tighter n (room - left.numbers.length) right := ⟨hr, by omega, by omega⟩
  rw [hm, hm']
  simp only [operators, Kind.binaryOp?_eq_some_iff.mpr ht, if_pos reach]
  rw [ihr.expression_eq fits t (by rwa [op.rank_tighter]) (by simp only [List.length_append]; omega)]
  rfl

theorem expression_of_operand {bound left room : Nat} {t : Token} {ts : List Token} {e : Tree} {rest : List Token}
    (h : operand (expression bound left) room t ts = .tree e rest) (level : Level) (before : Token) :
    expression bound (left + 1) level room before (t :: ts) =
      operators (expression bound left) level room bound e rest := by
  simp only [expression, h, Reading.bind]

theorem continues_unary {op : UnaryOp} {e : Tree} {t : Token} (ht : t.kind = op.kind) (he : Derives .unary e)
    (ih : Continues e) : Continues (.unary op t e) := by
  intro bound n room level before rest reach hn hc stops len
  simp only [Tree.nesting, Tree.numbers, Tree.tokens, List.cons_append, List.length_cons] at hn hc len ⊢
  refine expression_of_operand ?_ level before
  have inner : expression bound n .unary room t (e.tokens ++ rest) = .tree e rest :=
    ih.expression_eq ⟨he, by omega, hc⟩ t (stops_unary rest) (by omega)
  rw [operand_unary _ _ _ op ht, inner]
  rfl

theorem continues_group {opening closing : Token} {e : Tree} (ho : opening.kind = .leftParen)
    (he : Derives .equality e) (hc : closing.kind = .rightParen) (ih : Continues e) :
    Continues (.group opening e closing) := by
  intro bound n room level before rest reach hn hroom stops len
  simp only [Tree.nesting, Tree.numbers, Tree.tokens, List.cons_append, List.append_assoc, List.nil_append,
    List.length_cons] at hn hroom len ⊢
  refine expression_of_operand ?_ level before
  have inner : expression bound n .equality room opening (e.tokens ++ closing :: rest) = .tree e (closing :: rest) :=
    ih.expression_eq ⟨he, by omega, hroom⟩ opening (stops_rightParen hc) (by omega)
  rw [operand_group _ _ _ ho, inner]
  simp only [Reading.bind, Reader.closing, hc, if_true]

theorem continues_of_derives {level : Level} {e : Tree} (h : Derives level e) : Continues e := by
  induction h with
  | tighter _ ih => exact ih
  | binary ht hl hr ihl ihr => exact continues_binary ht hl hr ihl ihr
  | unary ht he ih => exact continues_unary ht he ih
  | group ho he hc ih => exact continues_group ho he hc ih
  | @number t ht =>
    intro bound n room level before rest reach hn hc stops len
    refine expression_of_operand ?_ level before
    have has : 0 < room := hc
    rw [operand_number _ _ _ ht, if_pos has]
    rfl
  | @literal l t ht =>
    intro bound n room level before rest reach hn hc stops len
    refine expression_of_operand ?_ level before
    exact operand_literal _ _ _ l ht

/-- **Reading an expression** finds the tree of the grammar that fits and cannot be gone on with. -/
theorem expression_eq_tree_iff {bound left room : Nat} {level : Level} {before : Token} {ts : List Token} {e : Tree}
    {rest : List Token} (len : ts.length ≤ bound) :
    expression bound left level room before ts = .tree e rest ↔ Found level left room ts e rest := by
  constructor
  · exact expression_sound bound left len
  · rintro ⟨rfl, fits, stops⟩
    exact (continues_of_derives fits.derives).expression_eq fits before stops len

/-- **Reading a source** finds the tree that all its tokens before the end make up. -/
theorem source_eq_tree_iff {room : Nat} {ts : List Token} {e : Tree} {rest : List Token} :
    source room ts = .tree e rest ↔
      ts = e.tokens ++ rest ∧ Fits .equality Compilation.maxNesting room e ∧ ∃ t ∈ rest.head?, t.kind = .eof := by
  unfold source
  rw [Reading.bind_eq_tree]
  constructor
  · rintro ⟨e', rest', he, h⟩
    obtain ⟨htok, fits, _⟩ := (expression_eq_tree_iff (Nat.le_refl _)).mp he
    cases rest' with
    | nil => cases h
    | cons t rest' =>
      simp only [ending] at h
      split at h
      · next ht => cases h; exact ⟨htok, fits, t, rfl, ht⟩
      · cases h
  · rintro ⟨htok, fits, t, hrest, ht⟩
    obtain ⟨rest', rfl⟩ := List.head?_eq_some_iff.mp hrest
    have stops : Stops Level.equality.rank (t :: rest') := by
      intro u hu op hk
      obtain rfl := Option.some.inj hu
      exact absurd (hk ▸ ht) op.isProper_kind.2
    refine ⟨e, t :: rest', (expression_eq_tree_iff (Nat.le_refl _)).mpr ⟨htok, fits, stops⟩, ?_⟩
    simp only [ending, ht, if_true]

end Reader

/-- **The grammar is unambiguous**: tokens that make up a tree make up no other one. -/
theorem Derives.unique {level level' : Level} {e e' : Tree} (h : Derives level e) (h' : Derives level' e')
    (same : e.tokens = e'.tokens) : e = e' := by
  have read : ∀ {l : Level} {e₀ : Tree}, Derives l e₀ → e₀.tokens = e.tokens →
      e₀.nesting ≤ e.nesting + e'.nesting → e₀.numbers.length ≤ e.numbers.length + e'.numbers.length →
      Reader.expression e.tokens.length (e.nesting + e'.nesting) .equality (e.numbers.length + e'.numbers.length)
        (.synthetic .eof 1) e.tokens = .tree e₀ [] := by
    intro l e₀ hd htok hn hc
    refine (Reader.expression_eq_tree_iff (Nat.le_refl _)).mpr ⟨by rw [htok, List.append_nil], ?_, nofun⟩
    exact ⟨hd.of_rank_le (Nat.zero_le _), hn, hc⟩
  have here := read h rfl (by omega) (by omega)
  rw [read h' same.symm (by omega) (by omega)] at here
  cases here
  rfl

end Abacus
