import UiTree.Query.Scan
import UiTree.Proofs.Text.Cuts
import UiTree.Proofs.Query.Spelling

/-!
# Tokens read by byte positions are the tokens

The walk over a query and the positions at which it is cut never come apart: every cut is sound, and
the tokens that are read by byte positions are the tokens of the query, with the same offsets and
the same faults. In particular the digits that are cut out for a number always are a decimal.
-/

namespace UiTree.Query

open Text (Scan Leaves indexed findByte? byteLength)

variable {query : String} {offset i : Nat} {c : Char} {cs rest : List Char} {pointed : Bool}

theorem startsWith_dots (rest : List Char) :
    Text.startsWith (String.ofList ('.' :: rest)) ".." = beginsWithDot rest := by
  cases rest with
  | nil => rfl
  | cons c rest =>
      rw [Text.startsWith, String.toList_ofList, beginsWithDot_cons]
      simp [List.isPrefixOf, eq_comm]

/-- A point that is looked at is cut off with what comes after it. -/
theorem yields_dots (h : Leaves query i ('.' :: rest)) (g : Bool → Bool) :
    ((do let rest ← Scan.cutFrom query i; pure (g (Text.startsWith rest ".."))) :
      TokenScan Bool).Yields (.ok (g (beginsWithDot rest))) := by
  refine (Text.Scan.yields_cutFrom h).bind_ok ?_
  rw [startsWith_dots]
  exact Text.Scan.yields_pure _

section Names

theorem endsName_yields (h : Leaves query i (c :: rest)) :
    (endsName query i c).Yields
      (.ok (!(isNameChar c && !(c == '.' && beginsWithDot rest)))) := by
  unfold endsName
  split
  · next hname =>
    rw [Bool.not_eq_true'] at hname
    rw [hname]
    exact Text.Scan.yields_pure _
  · next hname =>
    rw [Bool.not_eq_true', Bool.not_eq_false] at hname
    split
    · next hdot =>
      obtain rfl := eq_of_beq hdot
      simpa [hname] using yields_dots h id
    · next hdot =>
      rw [Bool.not_eq_true] at hdot
      rw [hname, hdot]
      exact Text.Scan.yields_pure _

theorem scanName_yields (h : Leaves query i cs) :
    (scanName query i (indexed i cs)).Yields
      (.ok (i + byteLength (nameRest cs), (nameRest cs).length)) := by
  induction cs generalizing i with
  | nil => exact Text.Scan.yields_pure _
  | cons c rest ih =>
      refine (endsName_yields h).bind_ok ?_
      rw [nameRest]
      cases isNameChar c && !(c == '.' && beginsWithDot rest) with
      | false => exact Text.Scan.yields_pure _
      | true =>
          simp only [if_true, List.length_cons, Text.byteLength_cons, ← Nat.add_assoc]
          exact (ih h.cons).bind_ok (Text.Scan.yields_pure _)

end Names

section Numbers

/-- The characters that continue a number before whose end there was a point or not. -/
def numberRest : Bool → List Char → List Char
  | _, [] => []
  | pointed, c :: rest =>
    if c.isDigit || (c == '.' && !pointed && !beginsWithDot rest) then
      c :: numberRest (pointed || c == '.') rest
    else []

theorem continuesNumber_yields (h : Leaves query i (c :: rest)) :
    (continuesNumber query pointed i c).Yields
      (.ok (c.isDigit || (c == '.' && !pointed && !beginsWithDot rest))) := by
  unfold continuesNumber
  split
  · next hdigit =>
    rw [hdigit]
    exact Text.Scan.yields_pure _
  · next hdigit =>
    rw [Bool.not_eq_true] at hdigit
    rw [hdigit, Bool.false_or]
    split
    · next hdot =>
      rw [hdot, Bool.true_and]
      obtain rfl := eq_of_beq (Bool.and_eq_true_iff.mp hdot).1
      exact yields_dots h not
    · next hdot =>
      rw [Bool.not_eq_true] at hdot
      rw [hdot]
      exact Text.Scan.yields_pure _

/-- The characters of a number have one byte each. -/
theorem utf8Size_of_continuesNumber (h : c.isDigit = true ∨ c = '.') : c.utf8Size = 1 := by
  rcases h with h | rfl
  · have hbounds := Text.isDigit_iff.mp h
    rw [Char.utf8Size_eq_one_iff, UInt32.le_iff_toNat_le]
    exact Nat.le_trans hbounds.2 (by decide)
  · rfl

theorem scanNumber_yields (pointed : Bool) (h : Leaves query i cs) :
    (scanNumber query pointed i (indexed i cs)).Yields
      (.ok (i + byteLength (numberRest pointed cs), (numberRest pointed cs).length)) := by
  induction cs generalizing i pointed with
  | nil => exact Text.Scan.yields_pure _
  | cons c rest ih =>
      refine (continuesNumber_yields h).bind_ok ?_
      rw [numberRest]
      split
      · next hc =>
        have hsize : c.utf8Size = 1 := utf8Size_of_continuesNumber (by grind)
        simp only [List.length_cons, Text.byteLength_cons, hsize, ← Nat.add_assoc]
        exact (ih _ (hsize ▸ h.cons)).bind_ok (Text.Scan.yields_pure _)
      · exact Text.Scan.yields_pure _

/-- After the point, a number goes on with digits only. -/
theorem numberRest_true (cs : List Char) : numberRest true cs = leadingDigits cs := by
  induction cs with
  | nil => rfl
  | cons c rest ih => simp [numberRest, ih, leadingDigits, List.takeWhile_cons]

theorem numberParts_cons_of_isDigit (h : c.isDigit = true) :
    numberParts (c :: rest) = (c :: (numberParts rest).1, (numberParts rest).2) := by
  have hdigits : leadingDigits (c :: rest) = c :: leadingDigits rest := by
    simp [leadingDigits, h]
  simp only [numberParts, hdigits, List.length_cons, List.drop_succ_cons]
  split
  · split <;> rfl
  · rfl

/-- The characters that continue a number from its beginning are its digits and its point. -/
theorem numberRest_false (cs : List Char) :
    numberRest false cs =
      (numberParts cs).1 ++ (numberParts cs).2.elim [] ('.' :: ·) := by
  induction cs with
  | nil => rfl
  | cons c rest ih =>
      by_cases hdigit : c.isDigit = true
      · have hdot : (c == '.') = false := by
          rw [beq_eq_false_iff_ne]
          rintro rfl
          exact absurd hdigit (by decide)
        simp [numberRest, numberParts_cons_of_isDigit hdigit, hdigit, hdot, ih]
      · rw [Bool.not_eq_true] at hdigit
        have hwhole : leadingDigits (c :: rest) = [] := by simp [leadingDigits, hdigit]
        by_cases hdot : c = '.'
        · subst hdot
          cases hnext : beginsWithDot rest <;>
            simp [numberRest, numberParts, hwhole, hdigit, hnext, numberRest_true]
        · simp [numberRest, numberParts, hwhole, hdigit, hdot]

theorem Numeral.numberRest_eq_text {n : Numeral} (h : numberParts cs = (n.whole, n.fraction)) :
    numberRest false cs = n.text := by
  rw [numberRest_false, h, Numeral.text]
  cases n.fraction with
  | none => exact List.append_nil _
  | some fraction => rfl

/-- Every numeral is a decimal. -/
theorem Numeral.decimalParts?_text (n : Numeral) :
    decimalParts? n.text = some (n.whole, n.fraction.getD []) := by
  obtain ⟨whole, fraction, hdigits, hne⟩ := n
  have hwhole : ∀ c ∈ whole, c.isDigit = true := fun c hc => hdigits c (List.mem_append_left _ hc)
  cases fraction with
  | none =>
      have hleading : leadingDigits whole = whole := List.takeWhile_eq_self_iff.mpr hwhole
      have hempty : whole.isEmpty = false := by simpa using hne
      simp [Numeral.text, decimalParts?, hleading, hempty]
  | some fraction =>
      have hpoint : leadingDigits (whole ++ '.' :: fraction) = whole := by
        rw [leadingDigits_append (by simp), leadingDigits, List.takeWhile_eq_self_iff.mpr hwhole]
      have hleading : leadingDigits fraction = fraction :=
        List.takeWhile_eq_self_iff.mpr fun c hc => hdigits c (List.mem_append_right _ hc)
      simp only [Option.getD_some, ne_eq, List.append_eq_nil_iff] at hne
      simp [Numeral.text, decimalParts?, hpoint, hleading]
      grind

/-- Where a number begins, its digits are cut out and are a decimal. -/
theorem scanNumeral_yields (h : Leaves query i (c :: rest)) (hstart : startsNumber c rest = true) :
    (scanNumeral query (indexed i (c :: rest))).Yields
      (.ok (.number (numberValue (numberParts (c :: rest))),
        numberLength (numberParts (c :: rest)) - 1 + 1)) := by
  obtain ⟨n, hparts, after, hafter⟩ := exists_numeral hstart
  obtain ⟨d, more, hcons, -⟩ := n.exists_text_eq_cons
  have hlength : n.text.length - 1 + 1 = n.text.length := by rw [hcons]; rfl
  have hleaves : Leaves query i (n.text ++ after) := hafter ▸ h
  have hnumber := scanNumber_yields false h
  rw [n.numberRest_eq_text hparts] at hnumber
  refine hnumber.bind_ok ((Text.Scan.yields_cut hleaves).bind_ok ?_)
  rw [String.toList_ofList, n.decimalParts?_text, hparts, n.length_text, hlength]
  exact Text.Scan.yields_pure _

end Numbers

theorem pointsNumber_yields (h : Leaves query offset (c :: rest)) :
    (pointsNumber (String.ofList (c :: rest)) c).Yields
      (.ok (c == '.' && rest.head?.any Char.isDigit)) := by
  unfold pointsNumber
  split
  · next hdot =>
    obtain rfl := eq_of_beq hdot
    have hafter : Leaves (String.ofList ('.' :: rest)) 1 rest :=
      ⟨['.'], String.toList_ofList, rfl⟩
    refine (Text.Scan.yields_cutFrom hafter).bind_ok ?_
    rw [String.toList_ofList]
    exact Text.Scan.yields_pure _
  · next hdot =>
    rw [Bool.not_eq_true] at hdot
    rw [hdot]
    exact Text.Scan.yields_pure _

/-- A literal ends at the next quote of its kind, which is searched behind the first one. -/
theorem scanLiteral_yields (h : Leaves query offset (c :: rest)) (hc : c.utf8Size = 1) :
    (scanLiteral query offset c).Yields
      (if (rest.takeWhile (· != c)).length < rest.length then
        .ok (.literal (String.ofList (rest.takeWhile (· != c))),
          (rest.takeWhile (· != c)).length + 2)
      else .error (offset, .unterminatedLiteral)) := by
  have hafter : Leaves query (offset + 1) rest := hc ▸ h.cons
  refine (Text.Scan.yields_cutFrom hafter).bind_ok ?_
  have hfound : findByte? (· == c) rest = if (rest.takeWhile (· != c)).length < rest.length then
      some (byteLength (rest.takeWhile (· != c))) else none := Text.findByte?_eq (· == c) rest
  rw [String.toList_ofList, hfound]
  by_cases hlt : (rest.takeWhile (· != c)).length < rest.length
  · rw [if_pos hlt, if_pos hlt]
    have htext : (String.ofList rest).toList =
        rest.takeWhile (· != c) ++ rest.dropWhile (· != c) := by
      rw [String.toList_ofList, List.takeWhile_append_dropWhile]
    refine (Text.Scan.yields_cutTo htext).bind_ok ?_
    rw [String.length_ofList]
    exact Text.Scan.yields_pure _
  · rw [if_neg hlt, if_neg hlt]
    exact Text.Scan.yields_fail _

theorem scanNamed_yields (h : Leaves query offset (c :: rest)) (hc : isNameStart c = true) :
    (scanNamed query offset (indexed offset (c :: rest))).Yields
      (.ok (.name (String.ofList (c :: nameRest rest)), (nameRest rest).length + 1)) := by
  have hname : nameRest (c :: rest) = c :: nameRest rest := by
    have hdot : (c == '.') = false := by
      rw [beq_eq_false_iff_ne]
      rintro rfl
      exact absurd hc (by decide)
    rw [nameRest, isNameChar_of_isNameStart hc, hdot]
    rfl
  obtain ⟨after, hafter⟩ := nameRest_isPrefix (c :: rest)
  have hleaves : Leaves query offset (nameRest (c :: rest) ++ after) := by rwa [hafter]
  have hscan := scanName_yields h
  refine hscan.bind_ok ((Text.Scan.yields_cut hleaves).bind_ok ?_)
  rw [hname]
  exact Text.Scan.yields_pure _

/-- A token that takes some characters after its first one, or a fault, where the token begins. -/
def tokenFrom (offset : Nat) :
    Except SyntaxFault (Token × Nat) → Except (Nat × SyntaxFault) (Token × Nat)
  | .ok (t, taken) => .ok (t, taken + 1)
  | .error fault => .error (offset, fault)

/-- The token that is read by byte positions is the one that its characters are. -/
theorem scanToken_yields (h : Leaves query offset (c :: rest)) :
    (scanToken query offset c (indexed offset (c :: rest))).Yields
      (tokenFrom offset (token c rest)) := by
  refine (Text.Scan.yields_cutFrom h).bind_ok ?_
  rw [String.toList_ofList, token]
  cases hlong : symbolOf? Symbol.long (c :: rest) with
  | some s =>
      have hlength : ∀ s ∈ Symbol.long, s.text.length = 2 := by decide
      simp only [hlength s (text_prefix_of_symbolOf? hlong).1]
      exact Text.Scan.yields_pure _
  | none =>
      refine (pointsNumber_yields h).bind_ok ?_
      by_cases hstart : startsNumber c rest = true
      · have hnumber := scanNumeral_yields h hstart
        rw [if_pos hstart]
        simp only [startsNumber, Bool.or_eq_true] at hstart
        split
        · exact hnumber
        · next hpoint =>
          rw [if_pos (hstart.resolve_right hpoint)]
          exact hnumber
      rw [if_neg hstart]
      simp only [startsNumber, Bool.or_eq_true, not_or] at hstart
      rw [if_neg hstart.2, if_neg hstart.1]
      by_cases hquote : (c == '\'' || c == '"') = true
      · rw [if_pos hquote, if_pos hquote]
        have hsize : c.utf8Size = 1 := by
          simp only [Bool.or_eq_true, beq_iff_eq] at hquote
          rcases hquote with rfl | rfl <;> rfl
        have hliteral := scanLiteral_yields h hsize
        dsimp only
        split at hliteral
        · next hlt =>
          rw [if_pos hlt]
          exact hliteral
        · next hlt =>
          rw [if_neg hlt]
          exact hliteral
      rw [if_neg hquote, if_neg hquote]
      by_cases hname : isNameStart c = true
      · rw [if_pos hname, if_pos hname]
        exact scanNamed_yields h hname
      rw [if_neg hname, if_neg hname]
      cases symbolOf? Symbol.short [c] with
      | some s => exact Text.Scan.yields_pure _
      | none => exact Text.Scan.yields_fail _

theorem scanTokens_yields {passing : Nat} (h : Leaves query offset cs) :
    (scanTokens query passing (indexed offset cs)).Yields (tokens passing offset cs) := by
  induction cs generalizing offset passing with
  | nil => cases passing <;> exact Text.Scan.yields_pure _
  | cons c rest ih =>
      cases passing with
      | succ passing => exact ih h.cons
      | zero =>
          simp only [indexed, scanTokens, tokens]
          split
          · exact ih h.cons
          · have htoken := scanToken_yields h
            cases hread : token c rest with
            | error fault =>
                rw [hread] at htoken
                exact htoken.bind_error
            | ok found =>
                rw [hread] at htoken
                refine htoken.bind_ok ?_
                exact (ih h.cons).bind fun more _ => Text.Scan.yields_pure _

/-- The tokens that are read by byte positions are the tokens of the query, and every cut that is
made on the way is sound. -/
theorem scan_yields (query : String) : (scan query).Yields (tokenize query) :=
  scanTokens_yields (.start query)

end UiTree.Query
