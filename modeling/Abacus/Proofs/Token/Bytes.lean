import Abacus.Proofs.Token.Lexical

/-!
# The bytes of a text

A text as the bytes of its characters in UTF-8.  A class of characters that does not tell those beyond 127 apart is the
same for a character and for each of its bytes, so that it can be looked for byte by byte.
-/

namespace Abacus

/-! ## Lengths -/

theorem utf8Length_eq_zero {cs : List Char} : utf8Length cs = 0 ↔ cs = [] := by
  cases cs with
  | nil => simp
  | cons c cs => simp [Nat.ne_of_gt c.utf8Size_pos]

theorem length_le_utf8Length (cs : List Char) : cs.length ≤ utf8Length cs := by
  induction cs with
  | nil => exact Nat.le_refl _
  | cons c cs ih =>
    have := c.utf8Size_pos
    rw [List.length_cons, utf8Length_cons]
    omega

/-! ## The bytes of a text -/

/-- The bytes of a text in UTF-8, each as the character of that number. -/
def bytesOf (cs : List Char) : List Char :=
  (cs.flatMap String.utf8EncodeChar).map Char.ofUInt8

@[simp] theorem bytesOf_nil : bytesOf [] = [] :=
  rfl

@[simp] theorem bytesOf_append (as bs : List Char) : bytesOf (as ++ bs) = bytesOf as ++ bytesOf bs := by
  simp [bytesOf]

theorem bytesOf_cons (c : Char) (cs : List Char) : bytesOf (c :: cs) = bytesOf [c] ++ bytesOf cs :=
  bytesOf_append [c] cs

@[simp] theorem length_bytesOf (cs : List Char) : (bytesOf cs).length = utf8Length cs := by
  induction cs with
  | nil => rfl
  | cons c cs ih =>
    rw [bytesOf_cons, List.length_append, ih, utf8Length_cons]
    simp [bytesOf, String.length_utf8EncodeChar]

theorem toNat_ofUInt8 (b : UInt8) : (Char.ofUInt8 b).toNat = b.toNat :=
  rfl

/-- A character below 128 is its own byte. -/
theorem bytesOf_ascii {c : Char} (h : c.toNat < 128) : bytesOf [c] = [c] := by
  have small : c.val.toNat ≤ 127 := Nat.lt_succ_iff.mp h
  have same : (Char.ofUInt8 (UInt8.ofNat c.val.toNat)).toNat = c.toNat := by
    rw [toNat_ofUInt8, UInt8.toNat_ofNat']
    exact Nat.mod_eq_of_lt (Nat.lt_trans h (by decide))
  rw [bytesOf, List.flatMap_singleton, String.utf8EncodeChar.eq_1, if_pos small, List.map_singleton,
    Char.toNat_inj.mp same]

/-- The bytes of another character: the first one tells where it starts. -/
theorem bytesOf_wide {c : Char} (h : 128 ≤ c.toNat) :
    ∃ b bs, bytesOf [c] = b :: bs ∧ 192 ≤ b.toNat ∧ ∀ d ∈ bs, 128 ≤ d.toNat ∧ d.toNat < 192 := by
  have wide : ¬ c.val.toNat ≤ 127 := Nat.not_le.mpr h
  rw [bytesOf, List.flatMap_singleton, String.utf8EncodeChar.eq_1, if_neg wide]
  split_ifs
  all_goals
    refine ⟨_, _, rfl, ?_, ?_⟩
    · simp only [toNat_ofUInt8, UInt8.toNat_ofNat']
      omega
    · simp [toNat_ofUInt8]
      omega

theorem isEmpty_bytesOf (cs : List Char) : (bytesOf cs).isEmpty = cs.isEmpty := by
  rw [Bool.eq_iff_iff, List.isEmpty_iff_length_eq_zero, length_bytesOf, utf8Length_eq_zero, List.isEmpty_iff]

theorem exists_bytesOf_cons (c : Char) (cs : List Char) : ∃ b bs, bytesOf (c :: cs) = b :: bs ∧ b ∈ bytesOf [c] := by
  rw [bytesOf_cons]
  cases h : bytesOf [c] with
  | nil => simpa [h] using isEmpty_bytesOf [c]
  | cons b bs => exact ⟨b, bs ++ bytesOf cs, rfl, List.mem_cons_self ..⟩

theorem bytesOf_toList (source : String) : bytesOf source.toList = (source.toByteArray.data.toList).map Char.ofUInt8 := by
  rw [bytesOf, ← String.utf8Encode_toList, List.utf8Encode, List.toList_data_toByteArray]

theorem utf8ByteSize_eq (source : String) : source.utf8ByteSize = (bytesOf source.toList).length := by
  rw [bytesOf_toList, List.length_map, Array.length_toList]
  rfl

theorem utf8ByteSize_ofList (cs : List Char) : (String.ofList cs).utf8ByteSize = utf8Length cs := by
  rw [utf8ByteSize_eq, String.toList_ofList, length_bytesOf]

/-! ## Classes of bytes -/

/-- A class of characters that does not tell those beyond 127 apart. -/
def Uniform (p : Char → Bool) (wide : Bool) : Prop :=
  ∀ c : Char, 128 ≤ c.toNat → p c = wide

/-- Such a class is the same for a character and for its bytes. -/
theorem Uniform.bytes {p : Char → Bool} {wide : Bool} (h : Uniform p wide) {c : Char} :
    ∀ b ∈ bytesOf [c], p b = p c := by
  intro b hb
  by_cases ascii : c.toNat < 128
  · rw [bytesOf_ascii ascii] at hb
    rw [List.mem_singleton.mp hb]
  · rw [Nat.not_lt] at ascii
    obtain ⟨first, others, bytes, hfirst, hothers⟩ := bytesOf_wide ascii
    have hb : 128 ≤ b.toNat := by
      rw [bytes] at hb
      rcases List.mem_cons.mp hb with rfl | hb
      · exact Nat.le_trans (by decide) hfirst
      · exact (hothers b hb).1
    rw [h b hb, h c ascii]

theorem exists_of_mem_bytesOf {b : Char} {cs : List Char} (h : b ∈ bytesOf cs) : ∃ c ∈ cs, b ∈ bytesOf [c] := by
  obtain ⟨a, mem, rfl⟩ := List.mem_map.mp h
  obtain ⟨c, hc, ha⟩ := List.mem_flatMap.mp mem
  exact ⟨c, hc, List.mem_map.mpr ⟨a, by simpa using ha, rfl⟩⟩

theorem Uniform.all_bytes {p : Char → Bool} {wide : Bool} (h : Uniform p wide) {cs : List Char}
    (all : ∀ c ∈ cs, p c = true) : ∀ b ∈ bytesOf cs, p b = true := by
  intro b hb
  obtain ⟨c, hc, hb⟩ := exists_of_mem_bytesOf hb
  rw [h.bytes b hb, all c hc]

theorem uniform_isDigit : Uniform Char.isDigit false := by
  intro c h
  simp [Char.isDigit, UInt32.le_iff_toNat_le]
  omega

theorem uniform_isWordChar : Uniform Lexeme.isWordChar false := by
  intro c h
  have notStart : Lexeme.isWordStart c = false := by
    rw [Bool.eq_false_iff, Ne, Lexeme.isWordStart_iff]
    omega
  rw [Lexeme.isWordChar, notStart, uniform_isDigit c h]
  rfl

theorem uniform_bne {d : Char} (h : d.toNat < 128) : Uniform (· != d) true := by
  intro c hc
  rw [bne_iff_ne]
  rintro rfl
  omega

theorem uniform_beq {d : Char} (h : d.toNat < 128) : Uniform (· == d) false := by
  intro c hc
  rw [beq_eq_false_iff_ne]
  rintro rfl
  omega

/-! ## Lines -/

theorem lineAfter_of_not_mem {cs : List Char} (h : '\n' ∉ cs) (line : Line) : lineAfter line cs = line := by
  induction cs with
  | nil => rfl
  | cons c cs ih =>
    have feed : c ≠ '\n' := fun hc => h (hc ▸ List.mem_cons_self ..)
    have inner : '\n' ∉ cs := fun mem => h (List.mem_cons_of_mem _ mem)
    simpa [lineAfter, feed] using ih inner

/-- The line feeds among the bytes of a text are those of the text. -/
theorem lineAfter_bytesOf (line : Line) (cs : List Char) : lineAfter line (bytesOf cs) = lineAfter line cs := by
  induction cs generalizing line with
  | nil => rfl
  | cons c cs ih =>
    have first : lineAfter line (bytesOf [c]) = lineAfter line [c] := by
      by_cases hc : c = '\n'
      · rw [hc]
        rfl
      · have all : ∀ d ∈ [c], (d != '\n') = true := by simpa using hc
        have none : '\n' ∉ bytesOf [c] := fun mem => by simpa using (uniform_bne (by decide)).all_bytes all _ mem
        rw [lineAfter_of_not_mem none, lineAfter_of_not_mem (by simpa using Ne.symm hc)]
    rw [bytesOf_cons, lineAfter_append, first, ih, ← lineAfter_append]
    rfl

end Abacus
