import UiTree.Json.Reader
import UiTree.Json.Writer

/-!
# Strings read back

A string is written with its quotes, backslashes and control characters escaped. The reader takes
each escape for the character it was written for, so any string is read back from its quoted form,
whatever follows the closing quote.
-/

namespace UiTree.Json

variable {c : Char} {rest : List Char}

theorem hexDigit?_digitChar : ∀ d < 16, UiTree.Number.hexDigit? (Nat.digitChar d) = some d := by
  decide

/-- A letter after a backslash stands for the character that it was written for. -/
theorem stringChar?_escapeLetter {letter : Char} (h : escapeLetter? c = some letter) :
    Reader.stringChar? ('\\' :: letter :: rest) = some (some c, rest) := by
  unfold escapeLetter? at h
  split at h <;> cases h <;> rfl

/-- Four digits after the letter `u` stand for the control character that they number. -/
theorem unicodeEscape?_control (h : c.toNat < 32) :
    Reader.unicodeEscape?
        ('0' :: '0' :: Nat.digitChar (c.toNat / 16) :: Nat.digitChar (c.toNat % 16) :: rest) =
      some (some c, rest) := by
  have hunit : Reader.codeUnit?
      ('0' :: '0' :: Nat.digitChar (c.toNat / 16) :: Nat.digitChar (c.toNat % 16) :: rest) =
        some (c.toNat, rest) := by
    have hzero : UiTree.Number.hexDigit? '0' = some 0 := rfl
    have hvalue : ((0 * 16 + 0) * 16 + c.toNat / 16) * 16 + c.toNat % 16 = c.toNat := by omega
    simp only [Reader.codeUnit?, hzero, hexDigit?_digitChar _ (by omega : c.toNat / 16 < 16),
      hexDigit?_digitChar _ (by omega : c.toNat % 16 < 16), Option.bind_eq_bind,
      Option.bind_some, hvalue]
  have hhigh : ¬ 0xD800 ≤ c.toNat := by omega
  have hlow : ¬ 0xDC00 ≤ c.toNat := by omega
  simp [Reader.unicodeEscape?, hunit, hhigh, hlow]

/-- A character is read from the way it stands in a string. -/
theorem stringChar?_escapeChar (c : Char) (rest : List Char) :
    Reader.stringChar? (escapeChar c ++ rest) = some (some c, rest) := by
  unfold escapeChar
  split
  · next letter h => exact stringChar?_escapeLetter h
  · next hnone =>
    split
    · next hcontrol =>
      rw [List.cons_append, List.cons_append, Reader.stringChar?]
      exact unicodeEscape?_control hcontrol
    · next hcontrol =>
      have hquote : c ≠ '"' := by
        rintro rfl
        cases hnone
      have hbackslash : c ≠ '\\' := by
        rintro rfl
        cases hnone
      simp [Reader.stringChar?, hquote, hbackslash, hcontrol]

/-- No character begins with a quote where it stands in a string. -/
theorem exists_escapeChar_eq_cons (c : Char) :
    ∃ head tail, escapeChar c = head :: tail ∧ head ≠ '"' := by
  unfold escapeChar
  split
  · exact ⟨_, _, rfl, by decide⟩
  · next hnone =>
    split
    · exact ⟨_, _, rfl, by decide⟩
    · refine ⟨c, [], rfl, ?_⟩
      rintro rfl
      cases hnone

/-- The characters of a string are read up to the closing quote. -/
theorem stringBody?_escaped {fuel : Nat} (cs : List Char) (h : cs.length ≤ fuel) :
    Reader.stringBody? fuel (cs.flatMap escapeChar ++ '"' :: rest) = some (some cs, rest) := by
  induction cs generalizing fuel with
  | nil => simp [Reader.stringBody?]
  | cons c cs ih =>
      obtain ⟨fuel, rfl⟩ : ∃ n, fuel = n + 1 :=
        Nat.exists_eq_add_one_of_ne_zero (by simp at h; omega)
      obtain ⟨head, tail, hescape, hhead⟩ := exists_escapeChar_eq_cons c
      have hchar := stringChar?_escapeChar c (cs.flatMap escapeChar ++ '"' :: rest)
      rw [List.flatMap_cons, List.append_assoc]
      rw [hescape, List.cons_append] at hchar ⊢
      rw [Reader.stringBody?]
      · simp [hchar, ih (Nat.le_of_succ_le_succ h)]
      · rintro rest' ⟨⟩
        exact hhead rfl

theorem length_le_escaped (cs : List Char) : cs.length ≤ (cs.flatMap escapeChar).length := by
  induction cs with
  | nil => exact Nat.zero_le _
  | cons c cs ih =>
      obtain ⟨head, tail, hescape, -⟩ := exists_escapeChar_eq_cons c
      rw [List.flatMap_cons, hescape, List.length_append, List.length_cons, List.length_cons]
      omega

/-- Any string is read back from its quoted form. -/
theorem parse_quote (s : String) : parse (quote s) = some (.string s) := by
  have hlength : s.toList.length ≤ (s.toList.flatMap escapeChar ++ ['"']).length := by
    rw [List.length_append]
    exact Nat.le_add_right_of_le (length_le_escaped s.toList)
  have hstring : Reader.string? ('"' :: (s.toList.flatMap escapeChar ++ ['"'])) =
      some (some s, []) := by
    rw [Reader.string?, stringBody?_escaped s.toList hlength]
    simp
  have hquote : (quote s).toList = '"' :: (s.toList.flatMap escapeChar ++ ['"']) := by
    rw [quote, String.toList_ofList]
  have hspace : Reader.skipSpace ('"' :: (s.toList.flatMap escapeChar ++ ['"'])) =
      '"' :: (s.toList.flatMap escapeChar ++ ['"']) := rfl
  simp only [parse, hquote, Reader.value?, hspace, hstring]
  rfl

end UiTree.Json
