import UiTree.Predicate.Scan
import UiTree.Proofs.Text.Cuts
import UiTree.Proofs.Query.Refusals
import UiTree.Proofs.Predicate.Scanner

/-!
# Predicates read by byte positions are the predicates

The byte position of the scanner always is the place of the cursor of the reader: every cut is
sound, what is read is the same, and what is refused is refused for the same reason at the same
place, which is at the boundary of a character.
-/

namespace UiTree.Predicate

open Query (Refusal SyntaxFault Judged)
open Text (Scan Leaves indexed findByte? splitBytes? byteLength)

variable {α β γ δ : Type} {text word : String} {pos : Nat} {c : Cursor}

/-- A byte position is the place of a cursor in a text. -/
structure Stands (text : String) (pos : Nat) (c : Cursor) : Prop where
  offset_eq : c.offset = pos
  leaves : Leaves text pos c.rest

namespace Stands

theorem start (text : String) : Stands text 0 (Cursor.ofText text) :=
  ⟨rfl, .start text⟩

theorem advance (h : Stands text pos c) (n : Nat) :
    Stands text (pos + byteLength (c.rest.take n)) (c.advance n) := by
  refine ⟨congrArg (· + _) h.offset_eq, Leaves.advance ?_⟩
  rw [Cursor.advance, List.take_append_drop]
  exact h.leaves

end Stands

/-- What was read and where the reading ended are the same by position and by cursor. -/
inductive ReadAlike (text : String) : α × Nat → α × Cursor → Prop where
  | intro (a : α) {pos : Nat} {c : Cursor} (h : Stands text pos c) : ReadAlike text (a, pos) (a, c)

/-- A scan makes sound cuts and does what a reader does, with related results, and both refuse only
at the boundaries of characters. -/
structure Follows (text : String) (R : α → β → Prop) (x : Scanning α) (r : Except Refusal β) :
    Prop where
  related : Related R x.outcome r
  sound : ∀ cut ∈ x.cuts, cut.Sound
  judged : Judged (Text.Boundary text) (fun _ => True) r

namespace Follows

variable {R : α → β → Prop} {S : γ → δ → Prop} {x : Scanning α} {r : Except Refusal β}
  {a : α} {b : β}

theorem ok (h : x.Yields (.ok a)) (hR : R a b) : Follows text R x (.ok b) := by
  refine ⟨?_, h.sound, trivial⟩
  rw [h.outcome]
  exact .ok hR

theorem pure (hR : R a b) : Follows text R (Pure.pure a) (.ok b) :=
  ok (Text.Scan.yields_pure a) hR

theorem unknownAttribute (name : String) :
    Follows text R (.fail (.unknownAttribute name)) (.error (.unknownAttribute name)) :=
  ⟨.error _, (Text.Scan.yields_fail _).sound, trivial⟩

theorem refuse (h : Stands text pos c) (fault : SyntaxFault) :
    Follows text R (.fail (.malformed pos fault)) (c.refuse fault) := by
  obtain ⟨rfl, hleaves⟩ := h
  exact ⟨.error _, (Text.Scan.yields_fail _).sound, hleaves.boundary⟩

theorem bind {f : α → Scanning γ} {g : β → Except Refusal δ} (hx : Follows text R x r)
    (hf : ∀ a b, R a b → Follows text S (f a) (g b)) : Follows text S (x >>= f) (r >>= g) := by
  obtain ⟨outcome, cuts⟩ := x
  obtain ⟨hrelated, hsound, hjudged⟩ := hx
  cases hrelated with
  | ok hR =>
      have hrest := hf _ _ hR
      refine ⟨hrest.related, Text.Scan.sound_bind hsound fun _ ha => ?_, hrest.judged⟩
      cases ha
      exact hrest.sound
  | error e =>
      refine ⟨.error e, hsound, ?_⟩
      cases e <;> exact hjudged

/-- What a scan sees on its way does not concern the reader. -/
theorem bind_yields {f : α → Scanning γ} {s : Except Refusal δ} (hx : x.Yields (.ok a))
    (hf : Follows text S (f a) s) : Follows text S (x >>= f) s := by
  refine ⟨?_, Text.Scan.sound_bind hx.sound fun a' ha => ?_, hf.judged⟩
  · rw [Text.Scan.outcome_bind, hx.outcome]
    exact hf.related
  · rw [hx.outcome] at ha
    cases ha
    exact hf.sound

end Follows

section Words

theorem headsWith_eq (c : Cursor) (word : String) :
    headsWith c.rest word = c.beginsWithWord word := by
  by_cases hhead : (c.rest.take word.length).map Char.toLower = word.toList.map Char.toLower
  · have hsplit : splitBytes? word.utf8ByteSize c.rest =
        some (c.rest.take word.length, c.rest.drop word.length) := by
      rw [Text.utf8ByteSize_eq_byteLength, ← Text.byteLength_of_map_toLower hhead]
      have happend := Text.splitBytes?_append (c.rest.take word.length) (c.rest.drop word.length)
      rwa [List.take_append_drop] at happend
    rw [headsWith, hsplit]
    rfl
  · have hword : c.beginsWithWord word = false := by
      rw [Cursor.beginsWithWord, beq_eq_false_iff_ne.mpr hhead, Bool.false_and]
    rw [hword, headsWith]
    split
    · next head tail hsplit =>
      obtain ⟨hrest, -⟩ := Text.splitBytes?_eq_some_iff.mp hsplit
      have hne : head.map Char.toLower ≠ word.toList.map Char.toLower := by
        intro heq
        refine hhead ?_
        rwa [hrest, Cursor.length_of_map_toLower heq, List.take_left]
      simp [hne]
    · rfl

/-- What is left behind a word that comes next is as many bytes further as the word has. -/
theorem offset_advance (h : c.beginsWithWord word = true) :
    (c.advance word.length).offset = c.offset + word.utf8ByteSize := by
  simp only [Cursor.beginsWithWord, Bool.and_eq_true, beq_iff_eq] at h
  rw [Cursor.advance, Text.byteLength_of_map_toLower h.1, Text.utf8ByteSize_eq_byteLength]

theorem scanWord_yields (h : Stands text pos c) (words : List String) :
    (scanWord text pos words).Yields (.ok ((c.eatWord? words).map (·.offset))) := by
  refine (Text.Scan.yields_cutFrom h.leaves).bind_ok ?_
  have hwords : headsWith c.rest = c.beginsWithWord := funext (headsWith_eq c)
  have hoffset : (words.find? c.beginsWithWord).map (pos + ·.utf8ByteSize) =
      (c.eatWord? words).map (·.offset) := by
    rw [Cursor.eatWord?, Option.map_map]
    refine Option.map_congr fun word hword => ?_
    rw [Function.comp, offset_advance (List.find?_some hword), h.offset_eq]
  rw [String.toList_ofList, hwords, hoffset]
  exact Text.Scan.yields_pure _

theorem Stands.eatWord? {words : List String} {c' : Cursor} (h : Stands text pos c)
    (heat : c.eatWord? words = some c') : Stands text c'.offset c' := by
  obtain ⟨word, -, rfl⟩ := Option.map_eq_some_iff.mp heat
  have hadvance := h.advance word.length
  rwa [← h.offset_eq] at hadvance

end Words

section Parts

theorem scanBlank_yields (h : Stands text pos c) :
    (scanBlank text pos).Yields (.ok c.skipBlank.offset) := by
  refine (Text.Scan.yields_cutFrom h.leaves).bind_ok ?_
  have htake : c.rest.take (c.rest.takeWhile Text.isBlank).length = c.rest.takeWhile Text.isBlank :=
    (List.prefix_iff_eq_take.mp (List.takeWhile_prefix _)).symm
  have hlength : byteLength c.rest =
      byteLength (c.rest.takeWhile Text.isBlank) + byteLength (Text.trimStart c.rest) := by
    rw [Text.trimStart, ← Text.byteLength_append, List.takeWhile_append_dropWhile]
  have hoffset : pos + (byteLength c.rest - byteLength (Text.trimStart c.rest)) =
      c.skipBlank.offset := by
    rw [hlength, Nat.add_sub_cancel, Cursor.skipBlank, Cursor.advance, htake, h.offset_eq]
  rw [Text.utf8ByteSize_ofList, String.toList_ofList, hoffset]
  exact Text.Scan.yields_pure _

theorem Stands.skipBlank (h : Stands text pos c) : Stands text c.skipBlank.offset c.skipBlank := by
  have hadvance := h.advance (c.rest.takeWhile Text.isBlank).length
  rwa [← h.offset_eq] at hadvance

theorem scanSubject_follows (h : Stands text pos c) :
    Follows text (ReadAlike text) (scanSubject text pos) (readSubject c) := by
  refine .bind_yields (Text.Scan.yields_cutFrom h.leaves) ?_
  have hkey : c.rest.takeWhile isKeyChar ++ c.rest.dropWhile isKeyChar = c.rest :=
    List.takeWhile_append_dropWhile
  have htake : c.rest.take (c.rest.takeWhile isKeyChar).length = c.rest.takeWhile isKeyChar :=
    (List.prefix_iff_eq_take.mp (List.takeWhile_prefix _)).symm
  have hlength : (findByte? (!isKeyChar ·) c.rest).getD (byteLength c.rest) =
      byteLength (c.rest.takeWhile isKeyChar) := by
    rw [Text.getD_findByte?]
    simp only [Bool.not_not]
  simp only [String.toList_ofList, Text.utf8ByteSize_ofList, hlength]
  refine .bind_yields (Text.Scan.yields_cutTo (by rw [String.toList_ofList, hkey])) ?_
  unfold readSubject
  rw [Text.isEmpty_ofList]
  dsimp only
  split
  · exact .refuse h _
  · cases Attribute.ofName? (String.ofList (c.rest.takeWhile isKeyChar)) with
    | none => exact .unknownAttribute _
    | some a =>
        have hadvance := h.advance (c.rest.takeWhile isKeyChar).length
        rw [htake] at hadvance
        exact .pure (.intro a hadvance)

/-- Whichever operators have been tried, the first of the others that comes next is read. -/
theorem scanOperator_follows (h : Stands text pos c) (others : List (String × MatchOp)) :
    Follows text (ReadAlike text) (scanOperator text pos others)
      (match others.find? (c.beginsWithWord ·.1) with
      | some (word, op) => .ok (op, c.advance word.length)
      | none => c.refuse .expectedOperator) := by
  induction others with
  | nil => exact .refuse h _
  | cons first others ih =>
      obtain ⟨word, op⟩ := first
      refine .bind_yields (scanWord_yields h [word]) ?_
      by_cases hword : c.beginsWithWord word = true
      · have heat : c.eatWord? [word] = some (c.advance word.length) := by
          simp [Cursor.eatWord?, hword]
        rw [heat, List.find?_cons_of_pos (a := (word, op)) hword]
        exact .pure (.intro op (h.eatWord? heat))
      · have heat : c.eatWord? [word] = none := by
          simp [Cursor.eatWord?, hword]
        rw [heat, List.find?_cons_of_neg (a := (word, op)) hword]
        exact ih

/-- What a value consists of and where it ends are the same, whatever was read of it before. -/
theorem scanBody_eq (quote : Char) (value : List Char) (i : Nat) (cs : List Char) :
    scanBody quote false value (indexed i cs) =
      (quotedBody? quote cs).map fun (body, n) => (value ++ body, i + byteLength (cs.take n)) := by
  fun_induction quotedBody? quote cs generalizing value i with
  | case1 => rfl
  | case2 c hc => rw [indexed, scanBody, if_pos hc]; rfl
  | case3 c hc escaped rest ih =>
      rw [indexed, scanBody, if_pos hc, indexed, scanBody, ih, Option.map_map]
      refine Option.map_congr fun found _ => ?_
      simp [List.append_assoc, Nat.add_assoc]
  | case4 c rest hc hq =>
      rw [indexed, scanBody, if_neg hc, if_pos hq]
      simp
  | case5 c rest hc hq ih =>
      rw [indexed, scanBody, if_neg hc, if_neg hq, ih, Option.map_map]
      refine Option.map_congr fun found _ => ?_
      simp [List.append_assoc, Nat.add_assoc]

theorem scanQuoted_follows (h : Stands text pos c) :
    Follows text (ReadAlike text) (scanQuoted text pos) (readQuoted c) := by
  refine .bind_yields (Text.Scan.yields_cutFrom h.leaves) ?_
  rw [String.toList_ofList, readQuoted]
  cases hrest : c.rest with
  | nil => exact .refuse h _
  | cons quote rest =>
      dsimp only [indexed]
      split
      · rw [scanBody_eq]
        cases quotedBody? quote rest with
        | none => exact .refuse h _
        | some found =>
            obtain ⟨body, n⟩ := found
            have hadvance := h.advance (n + 1)
            rw [hrest, List.take_succ_cons, Text.byteLength_cons, ← Nat.zero_add quote.utf8Size]
              at hadvance
            exact .pure (.intro _ hadvance)
      · exact .refuse h _

theorem scanCondition_follows (h : Stands text pos c) :
    Follows text (ReadAlike text) (scanCondition text pos) (readCondition c) := by
  refine .bind_yields (scanBlank_yields h) ?_
  refine (scanSubject_follows h.skipBlank).bind fun _ _ hsubject => ?_
  obtain ⟨subject, hstands⟩ := hsubject
  refine .bind_yields (scanBlank_yields hstands) ?_
  refine (scanOperator_follows hstands.skipBlank spellings).bind fun _ _ hop => ?_
  obtain ⟨op, hstands⟩ := hop
  refine .bind_yields (scanBlank_yields hstands) ?_
  refine (scanQuoted_follows hstands.skipBlank).bind fun _ _ hvalue => ?_
  obtain ⟨value, hstands⟩ := hvalue
  exact .pure (.intro _ hstands)

end Parts

theorem scanClauses_follows (h : Stands text pos c) (limit : Nat) :
    Follows text Eq (scanClauses text limit pos) (readClauses limit c) := by
  induction limit generalizing pos c with
  | zero => exact .refuse h _
  | succ limit ih =>
      refine (scanCondition_follows h).bind fun _ _ hcondition => ?_
      obtain ⟨condition, hstands⟩ := hcondition
      refine .bind_yields (scanBlank_yields hstands) ?_
      have hstands := hstands.skipBlank
      refine .bind_yields (Text.Scan.yields_cutFrom hstands.leaves) ?_
      rw [Text.isEmpty_ofList]
      dsimp only
      split
      · exact .pure rfl
      refine .bind_yields (scanWord_yields hstands ["AND", "&&"]) ?_
      cases hand : Cursor.eatWord? _ ["AND", "&&"] with
      | some next =>
          refine (ih (hstands.eatWord? hand)).bind fun found _ hfound => ?_
          cases hfound
          exact .pure rfl
      | none =>
          refine .bind_yields (scanWord_yields hstands ["OR", "||"]) ?_
          cases hor : Cursor.eatWord? _ ["OR", "||"] with
          | some next =>
              refine (ih (hstands.eatWord? hor)).bind fun found _ hfound => ?_
              cases hfound
              exact .pure rfl
          | none => exact .refuse hstands _

section Limit

theorem length_advance_le (c : Cursor) (n : Nat) : (c.advance n).rest.length ≤ c.rest.length :=
  (List.drop_suffix _ _).length_le

theorem readSubject_length_le {a : Attribute} {c' : Cursor} (h : readSubject c = .ok (a, c')) :
    c'.rest.length ≤ c.rest.length := by
  unfold readSubject at h
  dsimp only at h
  split at h
  · cases h
  · split at h
    · cases h
      exact length_advance_le _ _
    · cases h

theorem readOperator_length_le {op : MatchOp} {c' : Cursor} (h : readOperator c = .ok (op, c')) :
    c'.rest.length ≤ c.rest.length := by
  unfold readOperator at h
  split at h
  · cases h
    exact length_advance_le _ _
  · cases h

theorem readQuoted_length_le {value : String} {c' : Cursor} (h : readQuoted c = .ok (value, c')) :
    c'.rest.length ≤ c.rest.length := by
  unfold readQuoted at h
  split at h
  · split at h
    · split at h
      · cases h
        exact length_advance_le _ _
      · cases h
    · cases h
  · cases h

theorem readCondition_length_le {condition : Condition} {c' : Cursor}
    (h : readCondition c = .ok (condition, c')) : c'.rest.length ≤ c.rest.length := by
  obtain ⟨⟨subject, c₁⟩, hsubject, h⟩ := bind_eq_ok.mp h
  obtain ⟨⟨op, c₂⟩, hop, h⟩ := bind_eq_ok.mp h
  obtain ⟨⟨value, c₃⟩, hvalue, h⟩ := bind_eq_ok.mp h
  cases h
  calc c'.rest.length
    _ ≤ c₂.skipBlank.rest.length := readQuoted_length_le hvalue
    _ ≤ c₂.rest.length := length_advance_le _ _
    _ ≤ c₁.skipBlank.rest.length := readOperator_length_le hop
    _ ≤ c₁.rest.length := length_advance_le _ _
    _ ≤ c.skipBlank.rest.length := readSubject_length_le hsubject
    _ ≤ c.rest.length := length_advance_le _ _

/-- Less is left behind a word. -/
theorem length_lt_of_eatWord? {words : List String} {c' : Cursor} (hwords : "" ∉ words)
    (h : c.eatWord? words = some c') : c'.rest.length < c.rest.length := by
  obtain ⟨word, hword, rfl⟩ := Option.map_eq_some_iff.mp h
  have hbegins := List.find?_some hword
  simp only [Cursor.beginsWithWord, Bool.and_eq_true, beq_iff_eq] at hbegins
  have hlength := Cursor.length_of_map_toLower hbegins.1
  have hne : word.length ≠ 0 := fun hzero =>
    hwords (String.length_eq_zero_iff.mp hzero ▸ List.mem_of_find?_eq_some hword)
  rw [List.length_take] at hlength
  rw [Cursor.advance, List.length_drop]
  omega

/-- A limit that exceeds the number of the characters that are left is never reached. -/
theorem readClauses_limit (c : Cursor) {limit : Nat} (limit' : Nat) (h : c.rest.length < limit)
    (h' : c.rest.length < limit') : readClauses limit c = readClauses limit' c := by
  induction limit generalizing c limit' with
  | zero => exact absurd h (Nat.not_lt_zero _)
  | succ limit ih =>
      obtain ⟨limit', rfl⟩ := Nat.exists_eq_succ_of_ne_zero (Nat.ne_zero_of_lt h')
      rw [readClauses, readClauses]
      cases hcondition : readCondition c with
      | error => rfl
      | ok found =>
          obtain ⟨condition, c'⟩ := found
          have hle := readCondition_length_le hcondition
          have hskip : c'.skipBlank.rest.length ≤ c'.rest.length := length_advance_le _ _
          simp only [ok_bind]
          split
          · rfl
          cases hand : c'.skipBlank.eatWord? ["AND", "&&"] with
          | some next =>
              have hlt := length_lt_of_eatWord? (by decide) hand
              simp only [ih next limit' (by omega) (by omega)]
          | none =>
              cases hor : c'.skipBlank.eatWord? ["OR", "||"] with
              | some next =>
                  have hlt := length_lt_of_eatWord? (by decide) hor
                  simp only [ih next limit' (by omega) (by omega)]
              | none => rfl

end Limit

/-- A predicate that is read by byte positions is the predicate that is read by a cursor. -/
theorem scan_follows (text : String) :
    Follows text Eq (scan text) (readClauses (text.toList.length + 1) (Cursor.ofText text)) :=
  scanClauses_follows (.start text) _

end UiTree.Predicate
