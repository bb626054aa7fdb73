import Abacus.Proofs.Syntax.Reader

/-!
# Where reading gets stuck

A reader that gets stuck does so as early as it can: the tokens before the place can be completed
(`Reader.source_stuck_viable`), and with the token at the place they cannot, whatever follows
(`Reader.source_stuck_of_sameKinds`).
-/

namespace Abacus

namespace Reading

theorem length_rest_bind_le {r : Reading} {k : Tree → List Token → Reading} {n : Nat} (hr : r.rest.length ≤ n)
    (hk : ∀ e rest, (k e rest).rest.length ≤ rest.length) : (r.bind k).rest.length ≤ n := by
  cases r with
  | tree e rest => exact Nat.le_trans (hk e rest) hr
  | stuck c rest => exact hr

end Reading

namespace Reader

/-! ## Reading goes forward -/

/-- A reader that gives back no more than it got, the token before included only if it gets stuck. -/
structure Forward (inner : Level → Nat → Token → List Token → Reading) : Prop where
  le : ∀ level room before ts, (inner level room before ts).rest.length ≤ ts.length + 1
  tree_le : ∀ {level room before ts e rest}, inner level room before ts = .tree e rest → rest.length ≤ ts.length

section Forward

variable {inner : Level → Nat → Token → List Token → Reading} (forward : Forward inner)

theorem length_rest_closing_le (opening : Token) (e : Tree) (ts : List Token) :
    (closing opening e ts).rest.length ≤ ts.length := by
  cases ts with
  | nil => exact Nat.le_refl _
  | cons t ts =>
    simp only [closing]
    split
    · exact Nat.le_succ _
    · exact Nat.le_refl _

theorem length_rest_ending_le (e : Tree) (ts : List Token) : (ending e ts).rest.length ≤ ts.length := by
  cases ts with
  | nil => exact Nat.le_refl _
  | cons t ts =>
    simp only [ending]
    split <;> exact Nat.le_refl _

include forward

theorem length_rest_operand_le (room : Nat) (t : Token) (ts : List Token) :
    (operand inner room t ts).rest.length ≤ ts.length + 1 := by
  rcases t.kind.start_cases with ht | ⟨l, ht⟩ | ht | ⟨op, ht⟩ | ht
  · rw [operand_number _ _ _ ht]
    split
    · exact Nat.le_succ _
    · exact Nat.le_refl _
  · rw [operand_literal _ _ _ l ht]
    exact Nat.le_succ _
  · rw [operand_group _ _ _ ht]
    exact Reading.length_rest_bind_le (forward.le ..) (length_rest_closing_le t)
  · rw [operand_unary _ _ _ op ht]
    exact Reading.length_rest_bind_le (forward.le ..) fun _ _ => Nat.le_refl _
  · rw [operand_none _ _ _ ht]
    exact Nat.le_refl _

theorem length_rest_operators_le (level : Level) (room n : Nat) (e : Tree) (ts : List Token) :
    (operators inner level room n e ts).rest.length ≤ ts.length := by
  induction n generalizing e ts with
  | zero => exact Nat.le_refl _
  | succ n ih =>
    cases ts with
    | nil => exact Nat.le_refl _
    | cons t ts =>
      simp only [operators]
      split
      · split
        · exact Reading.length_rest_bind_le (forward.le ..) fun right rest => ih _ rest
        · exact Nat.le_refl _
      · exact Nat.le_refl _

end Forward

theorem length_rest_expression_le {bound left : Nat} (forward : Forward (expression bound left)) (level : Level)
    (room : Nat) (before : Token) (ts : List Token) :
    (expression bound (left + 1) level room before ts).rest.length ≤ ts.length := by
  cases ts with
  | nil => exact Nat.le_refl _
  | cons t ts =>
    exact Reading.length_rest_bind_le (length_rest_operand_le forward room t ts)
      (length_rest_operators_le forward level room bound)

theorem forward_expression (bound left : Nat) : Forward (expression bound left) := by
  induction left with
  | zero => exact ⟨fun _ _ _ _ => Nat.le_refl _, nofun⟩
  | succ left ih =>
    refine ⟨fun _ _ _ _ => Nat.le_succ_of_le (length_rest_expression_le ih ..), ?_⟩
    intro level room before ts e rest h
    have := length_rest_expression_le ih level room before ts
    rwa [h] at this

/-! ## Two inputs with a common beginning -/

/-- Tokens of the same kinds. -/
def SameKinds (x y : List Token) : Prop :=
  x.map Token.kind = y.map Token.kind

/-- What two readings give when the first reads off `x ++ r₁` and the second off `y ++ r₂`, where `x` and `y` are of
the same kinds: the same, as long as the first one has not gone past `x`. -/
inductive Agree (r₁ r₂ : List Token) : Reading → Reading → Prop
  | tree {e₁ e₂ : Tree} {x y : List Token} : e₁.numbers.length = e₂.numbers.length → SameKinds x y →
      Agree r₁ r₂ (.tree e₁ (x ++ r₁)) (.tree e₂ (y ++ r₂))
  | stuck {c : Complaint} {x y : List Token} : SameKinds x y → Agree r₁ r₂ (.stuck c (x ++ r₁)) (.stuck c (y ++ r₂))
  | past {R₁ R₂ : Reading} : R₁.rest.length ≤ r₁.length → Agree r₁ r₂ R₁ R₂

section Agree

variable {r₁ r₂ : List Token}

theorem Agree.bind {R₁ R₂ : Reading} {k₁ k₂ : Tree → List Token → Reading} (h : Agree r₁ r₂ R₁ R₂)
    (back : ∀ e rest, (k₁ e rest).rest.length ≤ rest.length)
    (hk : ∀ e₁ e₂ t u x y, R₁ = .tree e₁ (t :: x ++ r₁) → R₂ = .tree e₂ (u :: y ++ r₂) →
      e₁.numbers.length = e₂.numbers.length → t.kind = u.kind → SameKinds x y →
      Agree r₁ r₂ (k₁ e₁ (t :: x ++ r₁)) (k₂ e₂ (u :: y ++ r₂))) :
    Agree r₁ r₂ (R₁.bind k₁) (R₂.bind k₂) := by
  cases h with
  | @tree e₁ e₂ x y hn hs =>
    cases x with
    | nil => exact .past (back e₁ r₁)
    | cons t x =>
      cases y with
      | nil => cases hs
      | cons u y =>
        obtain ⟨ht, hs⟩ := List.cons.inj hs
        exact hk e₁ e₂ t u x y rfl rfl hn ht hs
  | stuck hs => exact .stuck hs
  | past le => exact .past (Reading.length_rest_bind_le le back)

theorem SameKinds.cons {x y : List Token} {t u : Token} (ht : t.kind = u.kind) (h : SameKinds x y) :
    SameKinds (t :: x) (u :: y) :=
  List.cons_eq_cons.mpr ⟨ht, h⟩

variable {inner₁ inner₂ : Level → Nat → Token → List Token → Reading} {b₁ b₂ : Nat}
  (agree : ∀ level room before₁ before₂ x y, before₁.kind = before₂.kind → SameKinds x y →
    (x ++ r₁).length ≤ b₁ → (y ++ r₂).length ≤ b₂ →
    Agree r₁ r₂ (inner₁ level room before₁ (x ++ r₁)) (inner₂ level room before₂ (y ++ r₂)))
include agree

theorem operand_agree (room : Nat) {t u : Token} {x y : List Token} (hk : t.kind = u.kind) (hs : SameKinds x y)
    (len₁ : (x ++ r₁).length ≤ b₁) (len₂ : (y ++ r₂).length ≤ b₂) :
    Agree r₁ r₂ (operand inner₁ room t (x ++ r₁)) (operand inner₂ room u (y ++ r₂)) := by
  rcases u.kind.start_cases with hu | ⟨l, hu⟩ | hu | ⟨op, hu⟩ | hu
  · rw [operand_number _ _ _ (hk.trans hu), operand_number _ _ _ hu]
    split
    · exact .tree rfl hs
    · exact .stuck (hs.cons hk)
  · rw [operand_literal _ _ _ l (hk.trans hu), operand_literal _ _ _ l hu]
    exact .tree rfl hs
  · rw [operand_group _ _ _ (hk.trans hu), operand_group _ _ _ hu]
    refine (agree _ _ _ _ _ _ hk hs len₁ len₂).bind (length_rest_closing_le t) ?_
    intro e₁ e₂ t' u' x' y' _ _ hn hk' hs'
    simp only [closing, List.cons_append, hk']
    split
    · exact .tree hn hs'
    · exact .stuck (hs'.cons hk')
  · rw [operand_unary _ _ _ op (hk.trans hu), operand_unary _ _ _ op hu]
    refine (agree _ _ _ _ _ _ hk hs len₁ len₂).bind (fun _ _ => Nat.le_refl _) ?_
    intro e₁ e₂ t' u' x' y' _ _ hn hk' hs'
    exact .tree hn (hs'.cons hk')
  · rw [operand_none _ _ _ (hk ▸ hu), operand_none _ _ _ hu]
    exact .stuck (hs.cons hk)

theorem operators_agree (forward₁ : Forward inner₁) (forward₂ : Forward inner₂) {level : Level} {room n₁ n₂ : Nat}
    {e₁ e₂ : Tree} {x y : List Token} (hn : e₁.numbers.length = e₂.numbers.length) (hs : SameKinds x y) (len₁ : (x ++ r₁).length ≤ n₁)
    (len₂ : (y ++ r₂).length ≤ n₂) (le₁ : n₁ ≤ b₁) (le₂ : n₂ ≤ b₂) :
    Agree r₁ r₂ (operators inner₁ level room n₁ e₁ (x ++ r₁)) (operators inner₂ level room n₂ e₂ (y ++ r₂)) := by
  induction n₁ generalizing n₂ e₁ e₂ x y with
  | zero => exact .past (Nat.le_trans (length_rest_operators_le forward₁ ..) (by omega))
  | succ n₁ ih =>
    cases x with
    | nil => exact .past (length_rest_operators_le forward₁ ..)
    | cons t x =>
      cases y with
      | nil => cases hs
      | cons u y =>
        obtain ⟨hk, hs⟩ : t.kind = u.kind ∧ SameKinds x y := List.cons.inj hs
        cases n₂ with
        | zero => cases len₂
        | succ n₂ =>
          simp only [List.cons_append, List.length_cons] at len₁ len₂
          simp only [List.cons_append, operators, hk]
          cases u.kind.binaryOp? with
          | none => exact .tree hn (hs.cons hk)
          | some op =>
            by_cases reach : level.rank ≤ op.level.rank
            · simp only [if_pos reach, hn]
              refine (agree _ _ _ _ _ _ hk hs (by omega) (by omega)).bind
                (fun _ _ => length_rest_operators_le forward₁ ..) ?_
              intro e₁' e₂' t' u' x' y' h₁ h₂ hn' hk' hs'
              have short₁ := forward₁.tree_le h₁
              have short₂ := forward₂.tree_le h₂
              have hn'' : (Tree.binary op e₁ t e₁').numbers.length = (Tree.binary op e₂ u e₂').numbers.length := by
                simp only [Tree.numbers, List.length_append, hn, hn']
              exact ih hn'' (hs'.cons hk') (by omega) (by omega) (by omega) (by omega)
            · simp only [if_neg reach]
              exact .tree hn (hs.cons hk)

end Agree

theorem expression_agree {r₁ r₂ : List Token} {b₁ b₂ : Nat} (left : Nat) (level : Level) (room : Nat)
    (before₁ before₂ : Token) (x y : List Token) (hb : before₁.kind = before₂.kind) (hs : SameKinds x y)
    (len₁ : (x ++ r₁).length ≤ b₁) (len₂ : (y ++ r₂).length ≤ b₂) :
    Agree r₁ r₂ (expression b₁ left level room before₁ (x ++ r₁))
      (expression b₂ left level room before₂ (y ++ r₂)) := by
  induction left generalizing level room before₁ before₂ x y with
  | zero => exact .stuck (hs.cons hb)
  | succ left ih =>
    have forward₁ := forward_expression b₁ left
    have forward₂ := forward_expression b₂ left
    cases x with
    | nil => exact .past (length_rest_expression_le forward₁ ..)
    | cons t x =>
      cases y with
      | nil => cases hs
      | cons u y =>
        obtain ⟨hk, hs⟩ : t.kind = u.kind ∧ SameKinds x y := List.cons.inj hs
        simp only [List.cons_append, List.length_cons] at len₁ len₂
        refine (operand_agree ih room hk hs (by omega) (by omega)).bind
          (fun _ _ => length_rest_operators_le forward₁ ..) ?_
        intro e₁ e₂ t' u' x' y' h₁ h₂ hn hk' hs'
        have short₁ := length_rest_operand_le forward₁ room t (x ++ r₁)
        have short₂ := length_rest_operand_le forward₂ room u (y ++ r₂)
        rw [h₁] at short₁
        rw [h₂] at short₂
        exact operators_agree ih forward₁ forward₂ hn (hs'.cons hk') (Nat.le_trans short₁ len₁)
          (Nat.le_trans short₂ len₂) (Nat.le_refl _) (Nat.le_refl _)

/-- A source that gets stuck at a token gets stuck whatever follows that token. -/
theorem source_stuck_of_sameKinds {room : Nat} {x y r₁ r₂ : List Token} {c : Complaint} {rest : List Token}
    (hs : SameKinds x y) (h : source room (x ++ r₁) = .stuck c rest) (short : r₁.length < rest.length) :
    ∃ rest', source room (y ++ r₂) = .stuck c rest' := by
  have agree : Agree r₁ r₂ (source room (x ++ r₁)) (source room (y ++ r₂)) := by
    refine (expression_agree _ _ _ _ _ _ _ rfl hs (Nat.le_refl _) (Nat.le_refl _)).bind length_rest_ending_le ?_
    intro e₁ e₂ t u x' y' _ _ hn hk hs'
    simp only [ending, List.cons_append, hk]
    split
    · exact .tree hn (hs'.cons hk)
    · exact .stuck (hs'.cons hk)
  rw [h] at agree
  generalize source room (y ++ r₂) = R at agree ⊢
  cases agree with
  | stuck hs => exact ⟨_, rfl⟩
  | past le => exact absurd le (Nat.not_le.mpr short)

/-! ## Completing what was read -/

/-- Some words and closing parentheses complete `us` to a tree that fits. -/
def Viable (level : Level) (left room : Nat) (us : List Token) : Prop :=
  ∃ ks : List Kind, (∀ k ∈ ks, k = .nilWord ∨ k = .rightParen) ∧
    ∀ w : List Token, w.map Token.kind = ks → ∃ e : Tree, e.tokens = us ++ w ∧ Fits level left room e

namespace Viable

variable {level : Level} {left room : Nat} {us : List Token}

theorem of_fits {e : Tree} (h : Fits level left room e) : Viable level left room e.tokens := by
  refine ⟨[], nofun, fun w hw => ⟨e, ?_, h⟩⟩
  rw [List.map_eq_nil_iff.mp hw, List.append_nil]

/-- Where an operand is expected `nil` will do. -/
theorem nil : Viable level (left + 1) room [] := by
  refine ⟨[.nilWord], by simp, fun w hw => ?_⟩
  obtain ⟨t, rfl, ht⟩ := List.map_eq_singleton_iff.mp hw
  have derives : Derives .unary (.literal .nil t) := .literal ht
  exact ⟨.literal .nil t, rfl, derives.of_rank_le level.rank_le_unary, Nat.le_add_left .., Nat.zero_le _⟩

theorem of_rank_le {looser : Level} (h : Viable level left room us) (le : looser.rank ≤ level.rank) :
    Viable looser left room us := by
  obtain ⟨ks, hks, complete⟩ := h
  refine ⟨ks, hks, fun w hw => ?_⟩
  obtain ⟨e, he, fits⟩ := complete w hw
  exact ⟨e, he, fits.derives.of_rank_le le, fits.nesting, fits.numbers⟩

theorem unary {op : UnaryOp} {t : Token} (ht : t.kind = op.kind) (h : Viable .unary left room us) :
    Viable .unary (left + 1) room (t :: us) := by
  obtain ⟨ks, hks, complete⟩ := h
  refine ⟨ks, hks, fun w hw => ?_⟩
  obtain ⟨e, he, hd, hn, hc⟩ := complete w hw
  refine ⟨.unary op t e, by simp [Tree.tokens, he], .unary ht hd, ?_, hc⟩
  simp only [Tree.nesting]
  omega

theorem group {t : Token} (ht : t.kind = .leftParen) (h : Viable .equality left room us) :
    Viable .unary (left + 1) room (t :: us) := by
  obtain ⟨ks, hks, complete⟩ := h
  refine ⟨ks ++ [.rightParen], by simpa [or_imp, forall_and] using hks, fun w' hw' => ?_⟩
  obtain ⟨w, last, rfl, hw, hlast⟩ := List.map_eq_append_iff.mp hw'
  obtain ⟨u, rfl, hu⟩ := List.map_eq_singleton_iff.mp hlast
  obtain ⟨e, he, hd, hn, hc⟩ := complete w hw
  refine ⟨.group t e u, by simp [Tree.tokens, he], .group ht hd hu, ?_, hc⟩
  simp only [Tree.nesting]
  omega

theorem binary {op : BinaryOp} {e₀ : Tree} {t : Token} (fits : Fits level (left + 1) room e₀)
    (ht : t.kind = op.kind) (below : op.level.rank ≤ e₀.level.rank) (reach : level.rank ≤ op.level.rank)
    (h : Viable op.level.tighter left (room - e₀.numbers.length) us) :
    Viable level (left + 1) room (e₀.tokens ++ t :: us) := by
  obtain ⟨ks, hks, complete⟩ := h
  refine ⟨ks, hks, fun w hw => ?_⟩
  obtain ⟨e, he, inner⟩ := complete w hw
  exact ⟨.binary op e₀ t e, by simp [Tree.tokens, he], fits.binary ht below reach inner⟩

/-- What is read of a tree holds neither error tokens nor the end of the source. -/
theorem isProper_of_mem (h : Viable level left room us) : ∀ t ∈ us, t.kind.IsProper := by
  obtain ⟨ks, hks, complete⟩ := h
  obtain ⟨e, he, fits⟩ := complete (ks.map (.synthetic · 1)) (by simp [Token.synthetic, Function.comp_def])
  exact fun t ht => fits.derives.isProper_of_mem t (by rw [he]; exact List.mem_append_left _ ht)

end Viable

theorem closing_eq_stuck {opening : Token} {e : Tree} {ts : List Token} {c : Complaint} {rest : List Token}
    (h : closing opening e ts = .stuck c rest) : rest = ts := by
  cases ts with
  | nil => cases h; rfl
  | cons t ts =>
    simp only [closing] at h
    split at h <;> cases h
    rfl

theorem ending_eq_stuck {e : Tree} {ts : List Token} {c : Complaint} {rest : List Token}
    (h : ending e ts = .stuck c rest) : rest = ts := by
  cases ts with
  | nil => cases h; rfl
  | cons t ts =>
    simp only [ending] at h
    split at h <;> cases h
    rfl

/-- Where a reader gets stuck: right after the token before because no nesting is left, or after a viable part. -/
def StuckSound (bound left : Nat) (inner : Level → Nat → Token → List Token → Reading) : Prop :=
  ∀ {level room before ts c rest}, ts.length ≤ bound → inner level room before ts = .stuck c rest →
    (left = 0 ∧ rest = before :: ts) ∨ ∃ us, ts = us ++ rest ∧ Viable level left room us

section Stuck

variable {bound left : Nat} {inner : Level → Nat → Token → List Token → Reading} (sound : Sound bound left inner)
  (stuckSound : StuckSound bound left inner)
include stuckSound

theorem viable_of_inner_stuck {level : Level} {room : Nat} {t : Token} {ts : List Token} {c : Complaint}
    {rest : List Token} {P : List Token → Prop} (len : ts.length ≤ bound)
    (h : inner level room t ts = .stuck c rest) (here : P [])
    (further : ∀ us, Viable level left room us → P (t :: us)) : ∃ us, t :: ts = us ++ rest ∧ P us := by
  rcases stuckSound len h with ⟨_, rfl⟩ | ⟨us, rfl, viable⟩
  · exact ⟨[], rfl, here⟩
  · exact ⟨t :: us, rfl, further us viable⟩

include sound

theorem operand_stuck {room : Nat} {t : Token} {ts : List Token} {c : Complaint} {rest : List Token}
    (len : ts.length ≤ bound) (h : operand inner room t ts = .stuck c rest) :
    ∃ us, t :: ts = us ++ rest ∧ Viable .unary (left + 1) room us := by
  rcases t.kind.start_cases with ht | ⟨l, ht⟩ | ht | ⟨op, ht⟩ | ht
  · rw [operand_number _ _ _ ht] at h
    split at h
    · cases h
    · cases h; exact ⟨[], rfl, .nil⟩
  · rw [operand_literal _ _ _ l ht] at h
    cases h
  · rw [operand_group _ _ _ ht] at h
    rcases Reading.bind_eq_stuck.mp h with hi | ⟨e, rest', hi, hc⟩
    · exact viable_of_inner_stuck stuckSound len hi .nil fun _ viable => viable.group ht
    · obtain ⟨rfl, fits, _⟩ := sound len hi
      rw [closing_eq_stuck hc]
      exact ⟨t :: e.tokens, rfl, (Viable.of_fits fits).group ht⟩
  · rw [operand_unary _ _ _ op ht] at h
    rcases Reading.bind_eq_stuck.mp h with hi | ⟨_, _, _, hu⟩
    · exact viable_of_inner_stuck stuckSound len hi .nil fun _ viable => viable.unary ht
    · cases hu
  · rw [operand_none _ _ _ ht] at h
    cases h
    exact ⟨[], rfl, .nil⟩

theorem operators_stuck {level : Level} {room n : Nat} {e₀ : Tree} {ts : List Token} {c : Complaint}
    {rest : List Token} (fits : Fits level (left + 1) room e₀) (stops : Stops (e₀.level.rank + 1) ts)
    (len : ts.length ≤ n) (le : n ≤ bound) (h : operators inner level room n e₀ ts = .stuck c rest) :
    ∃ us, e₀.tokens ++ ts = us ++ rest ∧ Viable level (left + 1) room us := by
  induction n generalizing e₀ ts with
  | zero => cases h
  | succ n ih =>
    cases ts with
    | nil => cases h
    | cons t ts =>
      simp only [operators] at h
      split at h
      · next op hop =>
        have ht := Kind.binaryOp?_eq_some_iff.mp hop
        have below := Nat.le_of_lt_succ (stops t rfl op ht)
        simp only [List.length_cons] at len
        split at h
        · next reach =>
          rcases Reading.bind_eq_stuck.mp h with hi | ⟨right, rest', hi, ho⟩
          · have here : Viable level (left + 1) room (e₀.tokens ++ []) := by
              simpa using Viable.of_fits fits
            obtain ⟨us, hus, viable⟩ : ∃ us, t :: ts = us ++ rest ∧ Viable level (left + 1) room (e₀.tokens ++ us) :=
              viable_of_inner_stuck stuckSound (by omega) hi here fun _ viable => .binary fits ht below reach viable
            exact ⟨e₀.tokens ++ us, by rw [hus, List.append_assoc], viable⟩
          · obtain ⟨rfl, inner, hs⟩ := sound (by omega) hi
            have next := fits.binary ht below reach inner
            simp only [List.length_append] at len
            obtain ⟨us, hus, viable⟩ := ih next (by rwa [op.rank_tighter] at hs) (by omega) (by omega) ho
            exact ⟨us, by simpa [Tree.tokens] using hus, viable⟩
        · cases h
      · cases h

end Stuck

theorem expression_stuck (bound left : Nat) : StuckSound bound left (expression bound left) := by
  induction left with
  | zero =>
    intro level room before ts c rest _ h
    cases h
    exact .inl ⟨rfl, rfl⟩
  | succ left ih =>
    intro level room before ts c rest len h
    refine .inr ?_
    cases ts with
    | nil =>
      cases h
      exact ⟨[], rfl, .nil⟩
    | cons t ts =>
      rcases Reading.bind_eq_stuck.mp h with ho | ⟨e₀, ts₀, ho, hn⟩
      · obtain ⟨us, hus, viable⟩ := operand_stuck (expression_sound bound left) ih (Nat.le_of_succ_le len) ho
        exact ⟨us, hus, viable.of_rank_le level.rank_le_unary⟩
      · obtain ⟨htok, fits, stops, short⟩ := operand_ready (expression_sound bound left) len level ho
        rw [htok]
        exact operators_stuck (expression_sound bound left) ih fits stops short (Nat.le_refl _) hn

/-- **A source gets stuck after a part that can be completed.** -/
theorem source_stuck_viable {room : Nat} {ts : List Token} {c : Complaint} {rest : List Token}
    (h : source room ts = .stuck c rest) :
    ∃ us, ts = us ++ rest ∧ Viable .equality Compilation.maxNesting room us := by
  rcases Reading.bind_eq_stuck.mp h with he | ⟨e, rest', he, hs⟩
  · rcases expression_stuck _ _ (Nat.le_refl _) he with ⟨none, _⟩ | found
    · cases none
    · exact found
  · obtain ⟨htok, fits, _⟩ := expression_sound _ _ (Nat.le_refl _) he
    exact ⟨e.tokens, ending_eq_stuck hs ▸ htok, .of_fits fits⟩

end Reader

end Abacus
