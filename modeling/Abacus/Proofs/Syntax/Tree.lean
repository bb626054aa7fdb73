import Abacus.Expression.Operator
import Abacus.Token

/-!
# Syntax trees

The grammar of the language, loosest level first, with binary operators grouping to the left:

    equality   = comparison (("==" | "!=") comparison)*
    comparison = term (("<" | "<=" | ">" | ">=") term)*
    term       = factor (("+" | "-") factor)*
    factor     = unary (("*" | "/") unary)*
    unary      = ("-" | "!") unary | primary
    primary    = NUMBER | "nil" | "true" | "false" | "(" equality ")"

A tree keeps the tokens that it is written with (`Tree.tokens`).  `Derives level e` says that `e` is a tree of the
grammar at `level`; `Tree.nesting` counts how many operands, groups and operators of it are open at once.
-/

namespace Abacus

/-! ## Tokens of the grammar -/

/-- A literal other than a number. -/
inductive Literal where
  | nil | true | false
  deriving Repr, DecidableEq

/-- The token that writes a literal. -/
def Literal.kind : Literal → Kind
  | nil => .nilWord
  | true => .trueWord
  | false => .falseWord

/-- The token that writes an operator before its operand. -/
def UnaryOp.kind : UnaryOp → Kind
  | not => .bang
  | negate => .minus

/-- The token that writes an operator between its operands. -/
def BinaryOp.kind : BinaryOp → Kind
  | equal => .equalEqual
  | notEqual => .bangEqual
  | greater => .greater
  | greaterEqual => .greaterEqual
  | less => .less
  | lessEqual => .lessEqual
  | add => .plus
  | subtract => .minus
  | multiply => .star
  | divide => .slash

theorem Kind.binaryOp?_eq_some_iff {k : Kind} {op : BinaryOp} : k.binaryOp? = some op ↔ k = op.kind := by
  constructor
  · intro h
    unfold Kind.binaryOp? at h
    split at h <;> cases h <;> rfl
  · rintro rfl
    cases op <;> rfl

/-- The operation that pushes a literal. -/
def Literal.operation : Literal → Operation
  | nil => .nil
  | true => .true
  | false => .false

theorem Literal.operandStart?_kind (l : Literal) : l.kind.operandStart? = some (.literal l.operation) := by
  cases l <;> rfl

theorem UnaryOp.operandStart?_kind (op : UnaryOp) : op.kind.operandStart? = some (.unary op) := by
  cases op <;> rfl

/-- The tokens that start an operand, and all others. -/
theorem Kind.start_cases (k : Kind) : k = .number ∨ (∃ l : Literal, k = l.kind) ∨ k = .leftParen ∨
    (∃ op : UnaryOp, k = op.kind) ∨ k.operandStart? = none := by
  cases k with
  | number => exact .inl rfl
  | nilWord => exact .inr (.inl ⟨.nil, rfl⟩)
  | trueWord => exact .inr (.inl ⟨.true, rfl⟩)
  | falseWord => exact .inr (.inl ⟨.false, rfl⟩)
  | leftParen => exact .inr (.inr (.inl rfl))
  | bang => exact .inr (.inr (.inr (.inl ⟨.not, rfl⟩)))
  | minus => exact .inr (.inr (.inr (.inl ⟨.negate, rfl⟩)))
  | _ => exact .inr (.inr (.inr (.inr rfl)))

/-- A kind that is neither that of an error token nor that of the end token. -/
def Kind.IsProper (k : Kind) : Prop :=
  k.isError = false ∧ k ≠ .eof

theorem BinaryOp.isProper_kind (op : BinaryOp) : op.kind.IsProper := by
  cases op <;> exact ⟨rfl, nofun⟩

theorem UnaryOp.isProper_kind (op : UnaryOp) : op.kind.IsProper := by
  cases op <;> exact ⟨rfl, nofun⟩

theorem Literal.isProper_kind (l : Literal) : l.kind.IsProper := by
  cases l <;> exact ⟨rfl, nofun⟩

/-! ## Levels -/

theorem Level.rank_le_unary (level : Level) : level.rank ≤ Level.unary.rank := by
  cases level <;> decide

theorem Level.rank_le_tighter (level : Level) : level.rank ≤ level.tighter.rank := by
  cases level <;> decide

theorem Level.rank_tighter {level : Level} (h : level.rank < Level.unary.rank) :
    level.tighter.rank = level.rank + 1 := by
  cases level with
  | unary => exact absurd h (Nat.lt_irrefl _)
  | _ => rfl

theorem Level.rank_injective {a b : Level} (h : a.rank = b.rank) : a = b := by
  cases a <;> cases b <;> first | rfl | cases h

theorem BinaryOp.rank_tighter (op : BinaryOp) : op.level.tighter.rank = op.level.rank + 1 := by
  cases op <;> rfl

theorem BinaryOp.rank_lt_unary (op : BinaryOp) : op.level.rank < Level.unary.rank := by
  cases op <;> decide

/-! ## Trees -/

/-- An expression with the tokens that it is written with. -/
inductive Tree where
  | number (t : Token)
  | literal (l : Literal) (t : Token)
  | group (opening : Token) (e : Tree) (closing : Token)
  | unary (op : UnaryOp) (t : Token) (e : Tree)
  | binary (op : BinaryOp) (left : Tree) (t : Token) (right : Tree)

namespace Tree

/-- The tokens of a tree, in the order of the source. -/
def tokens : Tree → List Token
  | number t => [t]
  | literal _ t => [t]
  | group opening e closing => opening :: e.tokens ++ [closing]
  | unary _ t e => t :: e.tokens
  | binary _ left t right => left.tokens ++ t :: right.tokens

/-- The last token of a tree. -/
def last : Tree → Token
  | number t => t
  | literal _ t => t
  | group _ _ closing => closing
  | unary _ _ e => e.last
  | binary _ _ _ right => right.last

/-- The number tokens of a tree, in the order of the source. -/
def numbers : Tree → List Token
  | number t => [t]
  | literal _ _ => []
  | group _ e _ => e.numbers
  | unary _ _ e => e.numbers
  | binary _ left _ right => left.numbers ++ right.numbers

/-- The levels of nesting that a tree takes up. A chain to the left takes no more than its deepest operand. -/
def nesting : Tree → Nat
  | number _ => 1
  | literal _ _ => 1
  | group _ e _ => 1 + e.nesting
  | unary _ _ e => 1 + e.nesting
  | binary _ left _ right => max left.nesting (1 + right.nesting)

/-- How tightly the outermost operator of a tree binds. -/
def level : Tree → Level
  | binary op _ _ _ => op.level
  | _ => .unary

/-- The number of binary operators on the way down to the leftmost operand. -/
def chain : Tree → Nat
  | binary _ left _ _ => left.chain + 1
  | _ => 0

theorem nesting_pos (e : Tree) : 0 < e.nesting := by
  cases e <;> simp only [nesting] <;> omega

theorem chain_lt_length (e : Tree) : e.chain < e.tokens.length := by
  induction e with
  | binary op left t right ihl ihr =>
    simp only [chain, tokens, List.length_append, List.length_cons]
    omega
  | _ => simp [chain, tokens]

end Tree

/-! ## The grammar -/

/-- `e` is a tree of the grammar at `level`. -/
inductive Derives : Level → Tree → Prop
  /-- A level holds whatever binds tighter. -/
  | tighter {level : Level} {e : Tree} : Derives level.tighter e → Derives level e
  /-- The left operand may be a chain of the same level, the right one binds tighter. -/
  | binary {op : BinaryOp} {left right : Tree} {t : Token} : t.kind = op.kind → Derives op.level left →
      Derives op.level.tighter right → Derives op.level (.binary op left t right)
  | unary {op : UnaryOp} {e : Tree} {t : Token} : t.kind = op.kind → Derives .unary e →
      Derives .unary (.unary op t e)
  | number {t : Token} : t.kind = .number → Derives .unary (.number t)
  | literal {l : Literal} {t : Token} : t.kind = l.kind → Derives .unary (.literal l t)
  | group {opening closing : Token} {e : Tree} : opening.kind = .leftParen → Derives .equality e →
      closing.kind = .rightParen → Derives .unary (.group opening e closing)

namespace Derives

theorem rank_le {level : Level} {e : Tree} (h : Derives level e) : level.rank ≤ e.level.rank := by
  induction h with
  | tighter _ ih => exact Nat.le_trans (Level.rank_le_tighter _) ih
  | binary => exact Nat.le_refl _
  | _ => exact Level.rank_le_unary _

/-- A tree of a level is a tree of every looser level. -/
theorem of_rank_le {level looser : Level} {e : Tree} (h : Derives level e) (le : looser.rank ≤ level.rank) :
    Derives looser e := by
  obtain ⟨n, hn⟩ := Nat.le.dest le
  induction n generalizing looser with
  | zero =>
    obtain rfl := Level.rank_injective hn
    exact h
  | succ n ih =>
    have room : looser.rank < Level.unary.rank := by
      have := Level.rank_le_unary level
      omega
    have next := Level.rank_tighter room
    exact .tighter (ih (by omega) (by omega))

/-- What a tree is made of determines the level that it belongs to. -/
theorem at_level {level : Level} {e : Tree} (h : Derives level e) : Derives e.level e := by
  induction h with
  | tighter _ ih => exact ih
  | binary ht hl hr => exact .binary ht hl hr
  | unary ht he => exact .unary ht he
  | number ht => exact .number ht
  | literal ht => exact .literal ht
  | group ho he hc => exact .group ho he hc

/-- The tokens of a tree are neither error tokens nor the end of the source. -/
theorem isProper_of_mem {level : Level} {e : Tree} (h : Derives level e) : ∀ t ∈ e.tokens, t.kind.IsProper := by
  induction h with
  | tighter _ ih => exact ih
  | @binary op left right t ht _ _ ihl ihr =>
    intro u hu
    rcases List.mem_append.mp hu with hu | hu
    · exact ihl u hu
    rcases List.mem_cons.mp hu with rfl | hu
    · exact ht ▸ op.isProper_kind
    · exact ihr u hu
  | @unary op e t ht _ ih =>
    intro u hu
    rcases List.mem_cons.mp hu with rfl | hu
    · exact ht ▸ op.isProper_kind
    · exact ih u hu
  | @number t ht =>
    intro u hu
    obtain rfl := List.mem_singleton.mp hu
    exact ht ▸ ⟨rfl, nofun⟩
  | @literal l t ht =>
    intro u hu
    obtain rfl := List.mem_singleton.mp hu
    exact ht ▸ l.isProper_kind
  | @group opening closing e ho _ hc ih =>
    intro u hu
    rcases List.mem_cons.mp hu with rfl | hu
    · exact ho ▸ ⟨rfl, nofun⟩
    rcases List.mem_append.mp hu with hu | hu
    · exact ih u hu
    · obtain rfl := List.mem_singleton.mp hu
      exact hc ▸ ⟨rfl, nofun⟩

/-- The number tokens of a tree are those of its tokens that are of the kind of numbers. -/
theorem numbers_eq_filter {level : Level} {e : Tree} (h : Derives level e) :
    e.numbers = e.tokens.filter (·.kind = .number) := by
  induction h with
  | tighter _ ih => exact ih
  | @binary op left right t ht _ _ ihl ihr =>
    have : t.kind ≠ .number := by
      rw [ht]
      cases op <;> nofun
    simp [Tree.numbers, Tree.tokens, ihl, ihr, this]
  | @unary op e t ht _ ih =>
    have : t.kind ≠ .number := by
      rw [ht]
      cases op <;> nofun
    simp [Tree.numbers, Tree.tokens, ih, this]
  | @number t ht => simp [Tree.numbers, Tree.tokens, ht]
  | @literal l t ht =>
    have : t.kind ≠ .number := by
      rw [ht]
      cases l <;> nofun
    simp [Tree.numbers, Tree.tokens, this]
  | group ho _ hc ih => simp [Tree.numbers, Tree.tokens, ih, ho, hc]

end Derives

end Abacus
