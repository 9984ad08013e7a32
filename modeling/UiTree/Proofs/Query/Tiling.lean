import UiTree.Proofs.Query.Scan

/-!
# Tokens tile a query

A query that is accepted is made of white space and the spellings of its tokens, which follow each
other without a gap and begin where the tokens say. A query that is refused is made of these up to
the offset of the fault, and what stands there is a quote without a second one, or a character with
which no token begins.
-/

namespace UiTree.Query

open Text (byteLength)

variable {offset passing taken : Nat} {c : Char} {t : Token} {cs rest spelling : List Char}
  {found : List Located} {fault : SyntaxFault} {outcome : Except (Nat × SyntaxFault) (List Located)}

/-- Characters from a byte offset on are white space and the spellings of some tokens, each of which
begins at the offset of its token. -/
inductive Tiled : Nat → List Char → List Located → Prop where
  | done {offset : Nat} : Tiled offset [] []
  | blank {offset : Nat} {c : Char} {rest : List Char} {found : List Located}
      (hblank : Text.isBlank c = true) (more : Tiled (offset + c.utf8Size) rest found) :
      Tiled offset (c :: rest) found
  | token {offset : Nat} {t : Token} {spelling rest : List Char} {found : List Located}
      (h : t.Spelled spelling) (more : Tiled (offset + byteLength spelling) rest found) :
      Tiled offset (spelling ++ rest) (⟨t, offset⟩ :: found)

/-- What is found in the characters from a byte offset on: tokens that tile them, with ascending
offsets, or a fault behind some tokens. -/
inductive Reported (offset : Nat) :
    List Char → Except (Nat × SyntaxFault) (List Located) → Prop where
  | tokens {cs : List Char} {found : List Located} (h : Tiled offset cs found)
      (ascending : (found.map (·.offset)).Pairwise (· < ·)) : Reported offset cs (.ok found)
  /-- A literal begins, and its quote does not occur again. -/
  | unterminated {before after : List Char} {quote : Char} {found : List Located}
      (h : Tiled offset before found) (hquote : quote = '\'' ∨ quote = '"')
      (hafter : quote ∉ after) :
      Reported offset (before ++ quote :: after)
        (.error (offset + byteLength before, .unterminatedLiteral))
  /-- No token begins with a character. -/
  | unexpected {before after : List Char} {c : Char} {found : List Located}
      (h : Tiled offset before found) (hblank : Text.isBlank c = false)
      (hnone : ∀ t : Token, ∀ spelling, t.Spelled spelling → ¬ spelling <+: c :: after) :
      Reported offset (before ++ c :: after)
        (.error (offset + byteLength before, .unexpectedCharacter c))

theorem Token.Spelled.ne_nil (h : t.Spelled spelling) : spelling ≠ [] := by
  cases h with
  | symbol s => cases s <;> decide
  | literal => exact List.cons_ne_nil _ _
  | number n =>
      obtain ⟨c, more, hcons, -⟩ := n.exists_text_eq_cons
      rw [hcons]
      exact List.cons_ne_nil _ _
  | name h =>
      obtain ⟨c, more, rfl, -⟩ := h
      exact List.cons_ne_nil _ _

namespace Tiled

theorem le_offset (h : Tiled offset cs found) : ∀ l ∈ found, offset ≤ l.offset := by
  induction h with
  | done => exact fun _ hl => absurd hl List.not_mem_nil
  | blank _ _ ih => exact fun l hl => Nat.le_trans (Nat.le_add_right _ _) (ih l hl)
  | token h _ ih =>
      refine List.forall_mem_cons.mpr ⟨Nat.le_refl _, fun l hl => ?_⟩
      exact Nat.le_trans (Nat.le_add_right _ _) (ih l hl)

/-- No token is empty, so each one begins after the one before it. -/
theorem ascending (h : Tiled offset cs found) : (found.map (·.offset)).Pairwise (· < ·) := by
  induction h with
  | done => exact List.Pairwise.nil
  | blank _ _ ih => exact ih
  | token h more ih =>
      refine List.pairwise_cons.mpr ⟨List.forall_mem_map.mpr fun l hl => ?_, ih⟩
      exact Nat.lt_of_lt_of_le (Nat.lt_add_of_pos_right (Text.byteLength_pos h.ne_nil))
        (more.le_offset l hl)

end Tiled

namespace Reported

theorem of_tiled (h : Tiled offset cs found) : Reported offset cs (.ok found) :=
  .tokens h h.ascending

theorem unterminated_here (hquote : c = '\'' ∨ c = '"') (hrest : c ∉ rest) :
    Reported offset (c :: rest) (.error (offset, .unterminatedLiteral)) :=
  .unterminated .done hquote hrest

theorem unexpected_here (hblank : Text.isBlank c = false)
    (hnone : ∀ t : Token, ∀ spelling, t.Spelled spelling → ¬ spelling <+: c :: rest) :
    Reported offset (c :: rest) (.error (offset, .unexpectedCharacter c)) :=
  .unexpected .done hblank hnone

theorem blank (hblank : Text.isBlank c = true) (h : Reported (offset + c.utf8Size) rest outcome) :
    Reported offset (c :: rest) outcome := by
  cases h with
  | tokens h _ => exact of_tiled (.blank hblank h)
  | unterminated h hquote hafter =>
      rw [Nat.add_assoc, ← Text.byteLength_cons]
      exact .unterminated (.blank hblank h) hquote hafter
  | unexpected h hstart hnone =>
      rw [Nat.add_assoc, ← Text.byteLength_cons]
      exact .unexpected (.blank hblank h) hstart hnone

theorem token (ht : t.Spelled spelling)
    (h : Reported (offset + byteLength spelling) rest outcome) :
    Reported offset (spelling ++ rest)
      (outcome >>= fun found => .ok (⟨t, offset⟩ :: found)) := by
  cases h with
  | tokens h _ => exact of_tiled (.token ht h)
  | unterminated h hquote hafter =>
      rw [Nat.add_assoc, ← Text.byteLength_append, ← List.append_assoc]
      exact .unterminated (.token ht h) hquote hafter
  | unexpected h hstart hnone =>
      rw [Nat.add_assoc, ← Text.byteLength_append, ← List.append_assoc]
      exact .unexpected (.token ht h) hstart hnone

theorem ne_malformedNumber {i : Nat} (h : Reported offset cs (.error (i, fault))) :
    fault ≠ .malformedNumber := by
  cases h <;> exact SyntaxFault.noConfusion

end Reported

/-- A numeral that comes first begins a number. -/
theorem startsNumber_of_isPrefix {n : Numeral} (h : n.text <+: c :: rest) :
    startsNumber c rest = true := by
  obtain ⟨d, more, hcons, hstart⟩ := n.exists_text_eq_cons
  rw [hcons] at h
  obtain ⟨rfl, hmore⟩ := List.cons_prefix_cons.mp h
  rcases hstart with hdigit | ⟨rfl, e, more', rfl, hdigit⟩
  · simp [startsNumber, hdigit]
  · obtain ⟨after, rfl⟩ := hmore
    simp [startsNumber, hdigit]

/-- Where neither a long nor a short symbol is found, none comes first. -/
theorem not_isPrefix_of_symbolOf? (hlong : symbolOf? Symbol.long (c :: rest) = none)
    (hshort : symbolOf? Symbol.short [c] = none) (s : Symbol) :
    ¬ s.text.toList <+: c :: rest := by
  intro hfirst
  have hsymbols : ∀ s ∈ Symbol.short, s.text.toList.length = 1 := by decide
  have hkind : s ∈ Symbol.long ∨ s ∈ Symbol.short := by cases s <;> decide
  rcases hkind with hs | hs
  · exact List.find?_eq_none.mp hlong s hs (List.isPrefixOf_iff_prefix.mpr hfirst)
  · obtain ⟨d, hd⟩ := List.length_eq_one_iff.mp (hsymbols s hs)
    refine List.find?_eq_none.mp hshort s hs (List.isPrefixOf_iff_prefix.mpr ?_)
    rw [hd] at hfirst ⊢
    obtain ⟨rfl, -⟩ := List.cons_prefix_cons.mp hfirst
    exact List.prefix_rfl

/-- Where no token is read, a literal has no end or no token begins. -/
theorem reported_of_token_error (hblank : Text.isBlank c = false)
    (h : token c rest = .error fault) : Reported offset (c :: rest) (.error (offset, fault)) := by
  unfold token at h
  split at h
  · cases h
  next hlong =>
  split at h
  · cases h
  next hnumber =>
  split at h
  · next hquote =>
    dsimp only at h
    split at h
    · cases h
    · next hlt =>
      cases h
      refine .unterminated_here (by simpa using hquote) fun hmem => hlt ?_
      refine (List.takeWhile_prefix _).length_le.lt_of_ne fun heq => ?_
      have hall := List.takeWhile_eq_self_iff.mp ((List.takeWhile_prefix _).eq_of_length heq)
      exact bne_iff_ne.mp (hall c hmem) rfl
  next hquote =>
  split at h
  · cases h
  next hname =>
  split at h
  · cases h
  next hshort =>
  cases h
  refine .unexpected_here hblank fun t spelling hspelled hfirst => ?_
  cases hspelled with
  | symbol s => exact not_isPrefix_of_symbolOf? hlong hshort s hfirst
  | literal hliteral _ =>
      obtain ⟨rfl, -⟩ := List.cons_prefix_cons.mp hfirst
      exact hquote (by simpa using hliteral)
  | number n => exact hnumber (startsNumber_of_isPrefix hfirst)
  | name hstart =>
      obtain ⟨d, more, rfl, hstart, -⟩ := hstart
      obtain ⟨rfl, -⟩ := List.cons_prefix_cons.mp hfirst
      exact hname hstart

/-- Behind a token already read, whatever is found is found from its end on. -/
theorem reported_of_tokens (offset : Nat) (h : passing ≤ cs.length) :
    Reported (offset + byteLength (cs.take passing)) (cs.drop passing)
      (tokens passing offset cs) := by
  induction cs generalizing passing offset with
  | nil => cases passing <;> exact .of_tiled .done
  | cons c rest ih =>
      cases passing with
      | succ passing =>
          have hrest := ih (offset + c.utf8Size) (Nat.le_of_succ_le_succ h)
          rwa [Nat.add_assoc, ← Text.byteLength_cons] at hrest
      | zero =>
          rw [tokens]
          split
          · next hblank => exact (ih _ (Nat.zero_le _)).blank hblank
          · next hblank =>
            rw [Bool.not_eq_true] at hblank
            split
            · next hread => exact reported_of_token_error hblank hread
            · next t taken hread =>
              obtain ⟨hspelled, htaken⟩ := spelled_of_token hread
              have hrest := ih (offset + c.utf8Size) htaken
              rw [Nat.add_assoc, ← Text.byteLength_cons] at hrest
              have hall := hrest.token hspelled
              rwa [List.cons_append, List.take_append_drop] at hall

theorem tokenize_reported (query : String) : Reported 0 query.toList (tokenize query) :=
  reported_of_tokens 0 (Nat.zero_le query.toList.length)

/-- Every query is reported as its tokens, which tile it, or as a fault where it stops being tiled;
and the walk that cuts the query at byte positions reports the same. It never cuts out digits that
are not a decimal. -/
theorem scan_reported (query : String) :
    Reported 0 query.toList (scan query).outcome ∧ (scan query).outcome = tokenize query ∧
      ∀ offset, (scan query).outcome ≠ .error (offset, .malformedNumber) := by
  have hreported := tokenize_reported query
  rw [← (scan_yields query).outcome] at hreported
  refine ⟨hreported, (scan_yields query).outcome, fun offset hfault => ?_⟩
  rw [hfault] at hreported
  exact hreported.ne_malformedNumber rfl

end UiTree.Query
