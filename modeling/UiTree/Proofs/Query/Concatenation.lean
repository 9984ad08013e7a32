import UiTree.Proofs.Query.Spelling

/-!
# Texts one after the other

The tokens of a text and of what is written after it are the tokens of the whole, if no token
reaches over the seam. Only the offsets of the later ones are shifted. Where a slash follows there
is such a seam, unless it comes right after another slash.
-/

namespace UiTree.Query

/-- A character that no token before it goes on with, except that a slash goes on with a slash. -/
structure SetsOff (m : Char) : Prop where
  name : isNameChar m = false
  colon : m ≠ ':'
  equal : m ≠ '='

theorem setsOff_space : SetsOff ' ' :=
  ⟨by decide, by decide, by decide⟩

theorem setsOff_slash : SetsOff '/' :=
  ⟨by decide, by decide, by decide⟩

variable {c m : Char} {rest more cs : List Char} {t : Token} {taken passing offset : Nat}
  {found others : List Located}

theorem SetsOff.isDigit (h : SetsOff m) : m.isDigit = false :=
  Bool.eq_false_iff.mpr fun hdigit => by
    have hname := isNameChar_of_isDigit hdigit
    rw [h.name] at hname
    cases hname

theorem SetsOff.dot (h : SetsOff m) : m ≠ '.' := by
  rintro rfl
  exact absurd h.name (by decide)

/-- Whether a symbol of two characters comes first is seen from two characters. -/
theorem symbolOf?_long_append (hmore : ∀ m ∈ more.head?, SetsOff m)
    (hslash : c = '/' → rest = [] → more.head? ≠ some '/') :
    symbolOf? Symbol.long (c :: (rest ++ more)) = symbolOf? Symbol.long (c :: rest) := by
  cases rest with
  | cons d rest => rfl
  | nil =>
      have hnone : symbolOf? Symbol.long [c] = none :=
        symbolOf?_long_eq_none fun d hd => nomatch hd
      rw [hnone, List.nil_append]
      have hlong : ∀ s ∈ Symbol.long, s.text.toList ∈
          [['/', '/'], [':', ':'], ['!', '='], ['<', '='], ['>', '='], ['.', '.']] := by decide
      refine symbolOf?_long_eq_none fun m hm s hs htext => ?_
      have hmem := hlong s hs
      have hsets := hmore m hm
      simp only [htext, List.mem_cons, List.cons.injEq, and_true, List.not_mem_nil,
        or_false] at hmem
      rcases hmem with h | h | h | h | h | h
      · exact hslash h.1 rfl (h.2 ▸ hm)
      · exact hsets.colon h.2
      · exact hsets.equal h.2
      · exact hsets.equal h.2
      · exact hsets.equal h.2
      · exact hsets.dot h.2

theorem startsNumber_append (hmore : ∀ m ∈ more.head?, SetsOff m) :
    startsNumber c (rest ++ more) = startsNumber c rest := by
  cases rest with
  | cons d rest => rfl
  | nil =>
      cases more with
      | nil => rfl
      | cons m more => simp [startsNumber, (hmore m rfl).isDigit]

theorem numberParts_append (hmore : ∀ m ∈ more.head?, SetsOff m) :
    numberParts (cs ++ more) = numberParts cs := by
  have hdigit : ∀ m ∈ more.head?, m.isDigit = false := fun m hm => (hmore m hm).isDigit
  have hdot : ∀ m ∈ more.head?, m ≠ '.' := fun m hm => (hmore m hm).dot
  have hlength : (leadingDigits cs).length ≤ cs.length := (leadingDigits_isPrefix cs).length_le
  simp only [numberParts, leadingDigits_append hdigit, List.drop_append_of_le_length hlength]
  cases hafter : cs.drop (leadingDigits cs).length with
  | nil =>
      cases more with
      | nil => rfl
      | cons m more =>
          rw [List.nil_append]
          split
          · next heq => exact absurd (List.cons.inj heq).1 (hdot m rfl)
          · rfl
  | cons d after =>
      rw [List.cons_append]
      split
      · next heq =>
        obtain ⟨rfl, rfl⟩ := List.cons.inj heq
        simp only [beginsWithDot_append hdot, leadingDigits_append hdigit]
      · next hne =>
        split
        · next heq =>
          obtain ⟨rfl, rfl⟩ := List.cons.inj heq
          exact absurd rfl (hne _)
        · rfl

/-- A token is the same when more follows the text. -/
theorem token_append (h : token c rest = .ok (t, taken)) (hmore : ∀ m ∈ more.head?, SetsOff m)
    (hslash : c = '/' → rest = [] → more.head? ≠ some '/') :
    token c (rest ++ more) = .ok (t, taken) := by
  have hname : ∀ m ∈ more.head?, ¬ isNameChar m = true :=
    fun m hm => Bool.eq_false_iff.mp (hmore m hm).name
  unfold token at h ⊢
  rw [symbolOf?_long_append hmore hslash, startsNumber_append hmore]
  split at h
  · exact h
  split at h
  · next hstart =>
    rw [if_pos hstart, ← List.cons_append, numberParts_append hmore]
    exact h
  · next hstart =>
    rw [if_neg hstart]
    split at h
    · next hquote =>
      rw [if_pos hquote]
      dsimp only at h ⊢
      split at h
      · next hlt =>
        obtain ⟨after, hafter⟩ := exists_of_length_takeWhile_lt hlt
        have hbody : (rest ++ more).takeWhile (· != c) = rest.takeWhile (· != c) := by
          rw [List.takeWhile_append, if_neg (Nat.ne_of_lt hlt)]
        rw [hbody, if_pos (by rw [List.length_append]; omega)]
        exact h
      · cases h
    · next hquote =>
      rw [if_neg hquote, nameRest_append hname]
      exact h

/-- The tokens of a text stay the same when more follows, and are followed by the tokens of that. -/
theorem tokens_append (hpassing : passing ≤ cs.length) (h : tokens passing offset cs = .ok found)
    (hmore : ∀ m ∈ more.head?, SetsOff m)
    (hslash : more.head? = some '/' → ∀ t ∈ found.getLast?, t.token ≠ .symbol .slash)
    (hothers : tokens 0 (offset + Text.byteLength cs) more = .ok others) :
    tokens passing offset (cs ++ more) = .ok (found ++ others) := by
  induction cs generalizing passing offset found with
  | nil =>
      obtain rfl : passing = 0 := Nat.le_zero.mp hpassing
      cases h
      exact hothers
  | cons c rest ih =>
      rw [Text.byteLength_cons, ← Nat.add_assoc] at hothers
      rw [List.cons_append]
      cases passing with
      | succ passing => exact ih (Nat.le_of_succ_le_succ hpassing) h hslash hothers
      | zero =>
          rw [tokens] at h ⊢
          split at h
          · next hblank =>
            rw [if_pos hblank]
            exact ih (Nat.zero_le _) h hslash hothers
          · next hblank =>
            rw [if_neg hblank]
            split at h
            · cases h
            · next t taken htoken =>
              obtain ⟨found, hfound, h⟩ := bind_eq_ok.mp h
              cases h
              have hlast : c = '/' → rest = [] → more.head? ≠ some '/' := by
                rintro rfl rfl hm
                have hsymbol : token '/' [] = .ok (.symbol .slash, 0) := rfl
                rw [hsymbol] at htoken
                cases htoken
                cases hfound
                exact hslash hm _ rfl rfl
              have hslash' : more.head? = some '/' →
                  ∀ u ∈ found.getLast?, u.token ≠ .symbol .slash := by
                intro hm u hu
                refine hslash hm u ?_
                rw [List.getLast?_cons, Option.mem_def.mp hu]
                rfl
              rw [token_append htoken hmore hlast]
              simp only [ih (spelled_of_token htoken).2 hfound hslash' hothers]
              rfl

/-- The tokens of a text do not depend on where it begins. -/
theorem exists_tokens_offset (h : tokens passing offset cs = .ok found) (offset' : Nat) :
    ∃ found', tokens passing offset' cs = .ok found' ∧
      found'.map (·.token) = found.map (·.token) := by
  induction cs generalizing passing offset offset' found with
  | nil =>
      cases passing <;> cases h <;> exact ⟨[], rfl, rfl⟩
  | cons c rest ih =>
      cases passing with
      | succ passing => exact ih h _
      | zero =>
          rw [tokens] at h ⊢
          split at h
          · next hblank =>
            rw [if_pos hblank]
            exact ih h _
          · next hblank =>
            rw [if_neg hblank]
            split at h
            · cases h
            · next t taken htoken =>
              obtain ⟨found, hfound, h⟩ := bind_eq_ok.mp h
              cases h
              obtain ⟨found', hfound', htokens⟩ := ih hfound (offset' + c.utf8Size)
              refine ⟨⟨t, offset'⟩ :: found', ?_, ?_⟩
              · simp only [hfound']
                rfl
              · rw [List.map_cons, List.map_cons, htokens]

theorem hasTokens_of_tokens (h : tokens 0 offset cs = .ok found) :
    HasTokens cs (found.map (·.token)) :=
  exists_tokens_offset h

theorem HasTokens.append {ts us : List Token} (h : HasTokens cs ts) (hmore : HasTokens more us)
    (hsets : ∀ m ∈ more.head?, SetsOff m) (hslash : more.head? ≠ some '/') :
    HasTokens (cs ++ more) (ts ++ us) := by
  intro offset
  obtain ⟨found, hfound, rfl⟩ := h offset
  obtain ⟨others, hothers, rfl⟩ := hmore (offset + Text.byteLength cs)
  refine ⟨found ++ others, ?_, List.map_append⟩
  exact tokens_append (Nat.zero_le _) hfound hsets (fun heq => absurd heq hslash) hothers

end UiTree.Query
