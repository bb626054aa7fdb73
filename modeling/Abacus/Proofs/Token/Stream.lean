import Abacus.Number.Decimal
import Abacus.Token.Cursor
import Mathlib.Data.List.TakeDrop
import Mathlib.Data.List.TakeWhile

/-!
# Token streams

The tokens of a source, one after the other: each token before the end is scanned where the one before it ends.

* `isStream_tokens`: the end token stands at the end and nowhere else, and every number token writes a number.
-/

namespace Abacus

/-! ## Numerals -/

namespace Decimal

/-- The text of a number: digits, or digits on both sides of a point. -/
inductive IsNumeral : List Char → Prop
  | whole {ds : List Char} : ds ≠ [] → (∀ c ∈ ds, c.isDigit) → IsNumeral ds
  | point {ds fs : List Char} : ds ≠ [] → (∀ c ∈ ds, c.isDigit) → fs ≠ [] → (∀ c ∈ fs, c.isDigit) →
      IsNumeral (ds ++ '.' :: fs)

theorem IsNumeral.exists_cons {text : List Char} (h : IsNumeral text) : ∃ c cs, text = c :: cs ∧ c.isDigit = true := by
  cases h with
  | whole ne digits | point ne digits _ _ =>
    obtain ⟨c, cs, rfl⟩ := List.exists_cons_of_ne_nil ne
    exact ⟨c, _, rfl, digits c (List.mem_cons_self ..)⟩

theorem readDigits_eq {ds : List Char} (h : ∀ c ∈ ds, c.isDigit) (n : Nat) :
    readDigits n ds = some (Nat.ofDigitChars 10 ds n) := by
  induction ds generalizing n with
  | nil => rfl
  | cons c cs ih =>
    have hc := h c (List.mem_cons_self ..)
    have rest := ih (fun d hd => h d (List.mem_cons_of_mem _ hd)) (10 * n + (c.toNat - '0'.toNat))
    simp only [readDigits, digit?, hc, if_true, rest]
    rfl

theorem ne_point_of_isDigit {ds : List Char} (h : ∀ c ∈ ds, c.isDigit) : ∀ c ∈ ds, (c != '.') = true := by
  intro c hc
  have digit := h c hc
  rw [bne_iff_ne]
  rintro rfl
  cases digit

section Digits

variable {ds fs : List Char} (ne : ds ≠ []) (digits : ∀ c ∈ ds, c.isDigit)
include ne digits

theorem ofNumeral?_whole : ofNumeral? ds = some ⟨Nat.ofDigitChars 10 ds 0, 0⟩ := by
  have whole := List.takeWhile_eq_self_iff.mpr (ne_point_of_isDigit digits)
  have rest := List.dropWhile_eq_nil_iff.mpr (ne_point_of_isDigit digits)
  simp [ofNumeral?, List.span_eq_takeWhile_dropWhile, whole, rest, ne, readDigits_eq digits]

theorem ofNumeral?_point (ne' : fs ≠ []) (digits' : ∀ c ∈ fs, c.isDigit) :
    ofNumeral? (ds ++ '.' :: fs) = some ⟨Nat.ofDigitChars 10 (ds ++ fs) 0, -(fs.length : Int)⟩ := by
  simp [ofNumeral?, List.span_eq_takeWhile_dropWhile, List.takeWhile_append_of_pos (ne_point_of_isDigit digits),
    List.dropWhile_append_of_pos (ne_point_of_isDigit digits), ne, ne', readDigits_eq digits, readDigits_eq digits',
    Nat.ofDigitChars_append]

end Digits

theorem exists_ofNumeral? {cs : List Char} (h : IsNumeral cs) : ∃ d, ofNumeral? cs = some d := by
  cases h with
  | whole ne digits => exact ⟨_, ofNumeral?_whole ne digits⟩
  | point ne digits ne' digits' => exact ⟨_, ofNumeral?_point ne digits ne' digits'⟩

end Decimal

namespace Token

/-- The number that a token writes. -/
def numeral (t : Token) : Decimal :=
  (Decimal.ofNumeral? t.text.toList).getD ⟨0, 0⟩

/-- A token that is of the kind of numbers writes a number. -/
def IsSpelled (t : Token) : Prop :=
  t.kind = .number → Decimal.ofNumeral? t.text.toList = some t.numeral

end Token

namespace Kind

/-- A word is a reserved word or an identifier. -/
theorem ofWord_cases (w : String) : ofWord w = .identifier ∨ ofWord w ∈ keywords.map Prod.snd := by
  unfold ofWord
  cases h : keywords.lookup w with
  | none => exact .inl rfl
  | some k =>
    obtain ⟨before, after, split, _⟩ := List.lookup_eq_some_iff.mp h
    refine .inr (List.mem_map.mpr ⟨(w, k), ?_, rfl⟩)
    rw [split]
    exact List.mem_append_right _ (List.mem_cons_self ..)

theorem ofWord_ne_number (w : String) : ofWord w ≠ .number := by
  rcases ofWord_cases w with h | h
  · rw [h]
    nofun
  · intro hw
    rw [hw] at h
    revert h
    decide

end Kind

namespace Lexeme

theorem isNumeral_number {c : Char} (hc : c.isDigit) (cs : List Char) : Decimal.IsNumeral (number c cs).text := by
  have whole : ∀ d ∈ c :: cs.takeWhile Char.isDigit, d.isDigit := by
    intro d hd
    rcases List.mem_cons.mp hd with rfl | hd
    · exact hc
    · exact List.mem_takeWhile_imp hd
  unfold number
  split
  · next d more _ =>
    split
    · next hd =>
      refine .point (List.cons_ne_nil _ _) whole (List.cons_ne_nil _ _) fun e he => ?_
      rcases List.mem_cons.mp he with rfl | he
      · exact hd
      · exact List.mem_takeWhile_imp he
    · exact .whole (List.cons_ne_nil _ _) whole
  · exact .whole (List.cons_ne_nil _ _) whole

theorem isNumeral_scan {c : Char} {cs : List Char} (h : (scan c cs).kind = .number) :
    Decimal.IsNumeral (scan c cs).text := by
  unfold scan at h ⊢
  split
  · next hw =>
    rw [if_pos hw] at h
    exact absurd h (Kind.ofWord_ne_number _)
  · next hw =>
    rw [if_neg hw] at h
    split
    · next hd => exact isNumeral_number hd cs
    · next hd =>
      rw [if_neg hd] at h
      exfalso
      revert h
      unfold operator string
      repeat' split
      all_goals nofun

end Lexeme

/-! ## The tokens from a place on -/

namespace Cursor

theorem isSpelled_scan (c : Cursor) : c.scan.1.IsSpelled := by
  intro h
  suffices ∃ d, Decimal.ofNumeral? c.scan.1.text.toList = some d by
    obtain ⟨d, hd⟩ := this
    rw [hd, Token.numeral, hd, Option.getD_some]
  unfold scan at h ⊢
  dsimp only at h ⊢
  split at h
  · cases h
  · next ch chs start =>
    have numeral := Decimal.exists_ofNumeral? (Lexeme.isNumeral_scan h)
    have kind : (Lexeme.scan ch chs).kind = .number := h
    simpa [kind] using numeral

/-- The tokens from a place on, the end token included. -/
def ahead (c : Cursor) : List Token :=
  (c.collect #[]).1.toList

theorem collect_of_eof {c : Cursor} (h : c.scan.1.kind = .eof) (found : Array Token) :
    c.collect found = (found.push c.scan.1, c.scan.2) := by
  rw [collect]
  simp [h]

theorem collect_of_ne_eof {c : Cursor} (h : c.scan.1.kind ≠ .eof) (found : Array Token) :
    c.collect found = c.scan.2.collect (found.push c.scan.1) := by
  rw [collect]
  simp [h]

/-- The tokens found before are kept. -/
theorem toList_collect (c : Cursor) (found found' : Array Token) :
    (c.collect (found ++ found')).1.toList = found.toList ++ (c.collect found').1.toList := by
  induction c, found' using collect.induct with
  | case1 c found' scanned h =>
    rw [collect_of_eof h, collect_of_eof h]
    simp
  | case2 c found' scanned h ih =>
    rw [collect_of_ne_eof h, collect_of_ne_eof h, ← ih]
    simp [scanned]

theorem ahead_of_eof {c : Cursor} (h : c.scan.1.kind = .eof) : c.ahead = [c.scan.1] := by
  rw [ahead, collect_of_eof h]
  rfl

theorem ahead_of_ne_eof {c : Cursor} (h : c.scan.1.kind ≠ .eof) : c.ahead = c.scan.1 :: c.scan.2.ahead := by
  rw [ahead, collect_of_ne_eof h]
  exact toList_collect c.scan.2 #[c.scan.1] #[]

end Cursor

/-- The tokens of a source: only the last one is an end token, and number tokens write numbers. -/
inductive IsStream : List Token → Prop
  | ending {t : Token} : t.kind = .eof → IsStream [t]
  | cons {t : Token} {ts : List Token} : t.kind ≠ .eof → t.IsSpelled → IsStream ts → IsStream (t :: ts)

namespace IsStream

variable {t : Token} {ts : List Token}

theorem ne_nil (h : IsStream ts) : ts ≠ [] := by
  cases h <;> nofun

theorem tail (h : IsStream (t :: ts)) (ne : t.kind ≠ .eof) : IsStream ts := by
  cases h with
  | ending ht => exact absurd ht ne
  | cons _ _ h => exact h

theorem eq_nil (h : IsStream (t :: ts)) (ht : t.kind = .eof) : ts = [] := by
  cases h with
  | ending => rfl
  | cons ne => exact absurd ht ne

theorem of_append {us : List Token} (h : IsStream (us ++ ts)) (ne : ∀ t ∈ us, t.kind ≠ .eof) : IsStream ts := by
  induction us with
  | nil => exact h
  | cons u us ih =>
    have rest : IsStream (us ++ ts) := h.tail (ne u (List.mem_cons_self ..))
    exact ih rest fun t ht => ne t (List.mem_cons_of_mem _ ht)

theorem isSpelled_of_mem (h : IsStream ts) : ∀ t ∈ ts, t.IsSpelled := by
  induction h with
  | ending ht =>
    intro t mem hn
    rw [List.mem_singleton.mp mem, ht] at hn
    cases hn
  | cons _ hs _ ih =>
    intro t mem
    rcases List.mem_cons.mp mem with rfl | mem
    · exact hs
    · exact ih t mem

end IsStream

theorem Cursor.isStream_ahead (c : Cursor) : IsStream c.ahead := by
  induction hn : c.rest.length using Nat.strongRecOn generalizing c with
  | ind n ih =>
    by_cases h : c.scan.1.kind = .eof
    · rw [ahead_of_eof h]
      exact .ending h
    · rw [ahead_of_ne_eof h]
      exact .cons h c.isSpelled_scan (ih _ (hn ▸ c.length_scan_lt h) _ rfl)

/-- **The tokens of a source** are a stream. -/
theorem isStream_tokens (source : String) : IsStream (tokens source) :=
  (Cursor.ofSource source).isStream_ahead

end Abacus
