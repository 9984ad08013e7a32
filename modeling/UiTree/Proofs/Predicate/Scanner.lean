import UiTree.Predicate.Reader

/-!
# What the predicate scanner reads

A cursor in front of a piece of predicate text reads this piece and stops right behind it, provided
that the next piece cannot be taken for more of it. White space after names, operators and
connectives is enough for that.

## Implementation notes

Words are compared in lower case, so a word is given here by any characters with the same lower
case.
-/

namespace UiTree

open Query (Refusal)

namespace Text

theorem toLower_of_not_isAlphanumeric {c : Char} (h : isAlphanumeric c = false) :
    c.toLower = c := by
  have hupper : ¬ c.isUpper = true := by
    intro hupper
    have hbounds := isUpper_iff.mp hupper
    rw [isAlphanumeric_ascii (by omega), isAlphanum_iff.mpr (.inl (.inl hbounds))] at h
    cases h
  exact dif_neg fun hbounds => hupper (decide_eq_true hbounds)

end Text

namespace Cursor

variable {o : Nat} {b : Char} {spelling tail : List Char} {word : String}

theorem advance_append (o : Nat) (xs ys : List Char) :
    (⟨o, xs ++ ys⟩ : Cursor).advance xs.length = ⟨o + Text.byteLength xs, ys⟩ := by
  simp [advance]

theorem length_of_map_toLower (hword : spelling.map Char.toLower = word.toList.map Char.toLower) :
    word.length = spelling.length := by
  have hlength := congrArg List.length hword
  rw [List.length_map, List.length_map, String.length_toList] at hlength
  exact hlength.symm

/-- No spelling of a word begins with white space unless the word does. -/
theorem isBlank_head_append (hword : spelling.map Char.toLower = word.toList.map Char.toLower)
    (hhead : (word.toList.map Char.toLower).head?.any (!Text.isBlank ·) = true) :
    ∀ c ∈ (spelling ++ tail).head?, Text.isBlank c = false := by
  rw [← hword] at hhead
  cases spelling with
  | nil => cases hhead
  | cons d spelling =>
      intro c hc
      obtain rfl : d = c := by simpa using hc
      rw [Bool.eq_false_iff]
      intro hblank
      have hlower : d.toLower = d :=
        Text.toLower_of_not_isAlphanumeric (Text.isAlphanumeric_eq_false_of_isBlank hblank)
      simp [hlower, hblank] at hhead

theorem skipBlank_append {blanks : List Char} (h : ∀ c ∈ blanks, Text.isBlank c = true)
    (htail : ∀ c ∈ tail.head?, Text.isBlank c = false) :
    (⟨o, blanks ++ tail⟩ : Cursor).skipBlank = ⟨o + Text.byteLength blanks, tail⟩ := by
  have htake : (blanks ++ tail).takeWhile Text.isBlank = blanks := by
    rw [List.takeWhile_append_of_pos h]
    cases tail with
    | nil => simp
    | cons c tail => simp [htail c rfl]
  rw [skipBlank, htake, advance_append]

/-- A word is found in either case, if white space follows. -/
theorem beginsWithWord_append (hword : spelling.map Char.toLower = word.toList.map Char.toLower)
    (hb : Text.isBlank b = true) :
    (⟨o, spelling ++ b :: tail⟩ : Cursor).beginsWithWord word = true := by
  simp [beginsWithWord, length_of_map_toLower hword, hword,
    Text.isAlphanumeric_eq_false_of_isBlank hb]

theorem beginsWithWord_eq_false {c : Cursor}
    (h : ¬ word.toList.map Char.toLower <+: c.rest.map Char.toLower) :
    c.beginsWithWord word = false := by
  rw [Bool.eq_false_iff]
  intro hbegins
  simp only [beginsWithWord, Bool.and_eq_true, beq_iff_eq] at hbegins
  rw [← hbegins.1, List.map_take] at h
  exact h (List.take_prefix ..)

/-- The first of some words is eaten, if white space follows. -/
theorem eatWord?_append (others : List String)
    (hword : spelling.map Char.toLower = word.toList.map Char.toLower)
    (hb : Text.isBlank b = true) :
    (⟨o, spelling ++ b :: tail⟩ : Cursor).eatWord? (word :: others) =
      some ⟨o + Text.byteLength spelling, b :: tail⟩ := by
  simp [eatWord?, beginsWithWord_append hword hb, length_of_map_toLower hword, advance_append]

/-- The second of two words is eaten, if the first does not fit and white space follows. -/
theorem eatWord?_append_second {first : String}
    (hfirst : ¬ first.toList.map Char.toLower <+: (spelling ++ b :: tail).map Char.toLower)
    (hword : spelling.map Char.toLower = word.toList.map Char.toLower)
    (hb : Text.isBlank b = true) :
    (⟨o, spelling ++ b :: tail⟩ : Cursor).eatWord? [first, word] =
      some ⟨o + Text.byteLength spelling, b :: tail⟩ := by
  have hskipped : (⟨o, spelling ++ b :: tail⟩ : Cursor).beginsWithWord first = false :=
    beginsWithWord_eq_false hfirst
  simp [eatWord?, hskipped, beginsWithWord_append hword hb, length_of_map_toLower hword,
    advance_append]

theorem eatWord?_eq_none {c : Cursor} {words : List String}
    (h : ∀ word ∈ words, ¬ word.toList.map Char.toLower <+: c.rest.map Char.toLower) :
    c.eatWord? words = none := by
  rw [eatWord?, Option.map_eq_none_iff, List.find?_eq_none]
  intro word hword
  simp [beginsWithWord_eq_false (h word hword)]

end Cursor

namespace Predicate

variable {o : Nat} {b : Char} {spelling tail : List Char} {word : String}

theorem isKeyChar_eq_false_of_isBlank {c : Char} (h : Text.isBlank c = true) :
    isKeyChar c = false := by
  have hne : c ≠ '_' := by
    rintro rfl
    exact absurd h (by decide)
  simp [isKeyChar, Text.isAlphanumeric_eq_false_of_isBlank h, hne]

theorem ofName?_nil_ne {a : Attribute} : Attribute.ofName? (String.ofList []) ≠ some a := by
  have hempty : Attribute.ofName? (String.ofList []) = none := by decide
  rw [hempty]
  simp

theorem readSubject_append {a : Attribute} {key : List Char}
    (hkey : Attribute.ofName? (String.ofList key) = some a)
    (hchars : ∀ c ∈ key, isKeyChar c = true) (hb : Text.isBlank b = true) :
    readSubject ⟨o, key ++ b :: tail⟩ = .ok (a, ⟨o + Text.byteLength key, b :: tail⟩) := by
  have htake : (key ++ b :: tail).takeWhile isKeyChar = key := by
    rw [List.takeWhile_append_of_pos hchars]
    simp [isKeyChar_eq_false_of_isBlank hb]
  have hne : key ≠ [] := by
    rintro rfl
    exact ofName?_nil_ne hkey
  simp [readSubject, htake, hne, hkey, Cursor.advance_append]

/-- An operator is read by the first spelling that fits, and no spelling before the right one
fits. -/
theorem readOperator_append {op : MatchOp} (hmem : (word, op) ∈ spellings)
    (hword : spelling.map Char.toLower = word.toList.map Char.toLower)
    (hb : Text.isBlank b = true) :
    readOperator ⟨o, spelling ++ b :: tail⟩ =
      .ok (op, ⟨o + Text.byteLength spelling, b :: tail⟩) := by
  have hlower : (spelling ++ b :: tail).map Char.toLower =
      word.toList.map Char.toLower ++ b :: tail.map Char.toLower := by
    have hblank := Text.isAlphanumeric_eq_false_of_isBlank hb
    simp [hword, Text.toLower_of_not_isAlphanumeric hblank]
  have hne : '=' ≠ b := by
    rintro rfl
    exact absurd hb (by decide)
  have hbefore (other : String)
      (h : ¬ other.toList.map Char.toLower <+:
        word.toList.map Char.toLower ++ b :: tail.map Char.toLower) :
      (⟨o, spelling ++ b :: tail⟩ : Cursor).beginsWithWord other = false :=
    Cursor.beginsWithWord_eq_false (hlower ▸ h)
  have hself : (⟨o, spelling ++ b :: tail⟩ : Cursor).beginsWithWord word = true :=
    Cursor.beginsWithWord_append hword hb
  have hfind : spellings.find? ((⟨o, spelling ++ b :: tail⟩ : Cursor).beginsWithWord ·.1) =
      some (word, op) := by
    simp only [spellings, List.mem_cons, Prod.mk.injEq, List.not_mem_nil, or_false] at hmem
    rcases hmem with ⟨rfl, rfl⟩ | ⟨rfl, rfl⟩ | ⟨rfl, rfl⟩ | ⟨rfl, rfl⟩ | ⟨rfl, rfl⟩ | ⟨rfl, rfl⟩ <;>
      simp [spellings, hself, hbefore, hne]
  have hlength := Cursor.length_of_map_toLower hword
  simp only [readOperator, hfind, hlength, Cursor.advance_append]

/-- A value is read up to its closing quote. -/
theorem readQuoted_append {quote : Char} (hquote : quote = '\'' ∨ quote = '"')
    {written value : List Char}
    (hbody : quotedBody? quote (written ++ quote :: tail) = some (value, written.length + 1)) :
    readQuoted ⟨o, quote :: (written ++ quote :: tail)⟩ =
      .ok (String.ofList value, ⟨o + Text.byteLength (quote :: (written ++ [quote])), tail⟩) := by
  have hadvance := Cursor.advance_append o (quote :: (written ++ [quote])) tail
  simp only [List.length_cons, List.length_append, List.length_nil, List.cons_append,
    List.append_assoc, List.nil_append] at hadvance
  simp [readQuoted, hquote, hbody, hadvance]

theorem isBlank_head_key {key : List Char} {a : Attribute}
    (hkey : Attribute.ofName? (String.ofList key) = some a)
    (hchars : ∀ c ∈ key, isKeyChar c = true) :
    ∀ c ∈ (key ++ tail).head?, Text.isBlank c = false := by
  cases key with
  | nil => exact absurd hkey ofName?_nil_ne
  | cons d key =>
      intro c hc
      obtain rfl : d = c := by simpa using hc
      rw [Bool.eq_false_iff]
      intro hblank
      have hkeyChar := hchars d (by simp)
      rw [isKeyChar_eq_false_of_isBlank hblank] at hkeyChar
      cases hkeyChar

theorem isBlank_head_operator : ∀ w ∈ spellings,
    (w.1.toList.map Char.toLower).head?.any (!Text.isBlank ·) = true := by
  decide

/-- A condition is read by its attribute, its operator and its value, whatever white space stands
before each of them. -/
theorem readCondition_append {a : Attribute} {op : MatchOp} {blanks key quoted : List Char}
    {more more' : List Char} {b b' : Char} (hblanks : ∀ c ∈ blanks, Text.isBlank c = true)
    (hkey : Attribute.ofName? (String.ofList key) = some a)
    (hchars : ∀ c ∈ key, isKeyChar c = true) (hmore : ∀ c ∈ b :: more, Text.isBlank c = true)
    (hmem : (word, op) ∈ spellings)
    (hword : spelling.map Char.toLower = word.toList.map Char.toLower)
    (hmore' : ∀ c ∈ b' :: more', Text.isBlank c = true)
    (hquoted : ∀ c ∈ quoted.head?, Text.isBlank c = false) :
    ∃ o', readCondition
        ⟨o, blanks ++ (key ++ (b :: more ++ (spelling ++ (b' :: more' ++ quoted))))⟩ =
      readQuoted ⟨o', quoted⟩ >>= fun (value, c) => .ok (⟨a, op, normalValue a value⟩, c) := by
  have hb : Text.isBlank b = true := hmore b (by simp)
  have hb' : Text.isBlank b' = true := hmore' b' (by simp)
  have hhead : ∀ c ∈ (spelling ++ (b' :: more' ++ quoted)).head?, Text.isBlank c = false :=
    Cursor.isBlank_head_append hword (isBlank_head_operator _ hmem)
  rw [readCondition, Cursor.skipBlank_append hblanks (isBlank_head_key hkey hchars),
    List.cons_append, readSubject_append hkey hchars hb]
  simp only [bind, Except.bind]
  rw [← List.cons_append, Cursor.skipBlank_append hmore hhead,
    List.cons_append, readOperator_append hmem hword hb']
  dsimp only
  rw [← List.cons_append, Cursor.skipBlank_append hmore' hquoted]
  exact ⟨_, rfl⟩

section Connectives

variable {cur : Cursor} {c : Condition} {blanks : List Char}

/-- Nothing follows the last condition. -/
theorem readClauses_end (limit : Nat) (hc : readCondition cur = .ok (c, ⟨o, blanks⟩))
    (hblanks : ∀ b ∈ blanks, Text.isBlank b = true) :
    readClauses (limit + 1) cur = .ok ([c], []) := by
  have hskip : (⟨o, blanks ++ []⟩ : Cursor).skipBlank = ⟨o + Text.byteLength blanks, []⟩ :=
    Cursor.skipBlank_append hblanks (by simp)
  rw [List.append_nil] at hskip
  rw [readClauses, hc]
  simp [bind, Except.bind, hskip]

/-- Behind `AND`, the clause goes on. -/
theorem readClauses_and (limit : Nat)
    (hc : readCondition cur = .ok (c, ⟨o, blanks ++ (spelling ++ b :: tail)⟩))
    (hblanks : ∀ b ∈ blanks, Text.isBlank b = true) (hmem : word ∈ ["AND", "&&"])
    (hword : spelling.map Char.toLower = word.toList.map Char.toLower)
    (hb : Text.isBlank b = true) :
    ∃ o', readClauses (limit + 1) cur =
      readClauses limit ⟨o', b :: tail⟩ >>= fun (clause, others) => .ok (c :: clause, others) := by
  have heads : ∀ w ∈ ["AND", "&&"],
      (w.toList.map Char.toLower).head?.any (!Text.isBlank ·) = true := by decide
  have hhead : ∀ d ∈ (spelling ++ b :: tail).head?, Text.isBlank d = false :=
    Cursor.isBlank_head_append hword (heads word hmem)
  have hskip := Cursor.skipBlank_append (o := o) hblanks hhead
  have hrest : (spelling ++ b :: tail).isEmpty = false := by simp
  have heat (o : Nat) : (⟨o, spelling ++ b :: tail⟩ : Cursor).eatWord? ["AND", "&&"] =
      some ⟨o + Text.byteLength spelling, b :: tail⟩ := by
    obtain rfl | rfl : word = "AND" ∨ word = "&&" := by simpa using hmem
    · exact Cursor.eatWord?_append ["&&"] hword hb
    · exact Cursor.eatWord?_append_second (by simp [hword]) hword hb
  rw [readClauses, hc]
  simp only [bind, Except.bind, hskip, hrest, heat]
  exact ⟨_, rfl⟩

/-- Behind `OR`, the next clause begins. -/
theorem readClauses_or (limit : Nat)
    (hc : readCondition cur = .ok (c, ⟨o, blanks ++ (spelling ++ b :: tail)⟩))
    (hblanks : ∀ b ∈ blanks, Text.isBlank b = true) (hmem : word ∈ ["OR", "||"])
    (hword : spelling.map Char.toLower = word.toList.map Char.toLower)
    (hb : Text.isBlank b = true) :
    ∃ o', readClauses (limit + 1) cur =
      readClauses limit ⟨o', b :: tail⟩ >>= fun (clause, others) =>
        .ok ([c], clause :: others) := by
  have heads : ∀ w ∈ ["OR", "||"],
      (w.toList.map Char.toLower).head?.any (!Text.isBlank ·) = true := by decide
  have hhead : ∀ d ∈ (spelling ++ b :: tail).head?, Text.isBlank d = false :=
    Cursor.isBlank_head_append hword (heads word hmem)
  have hskip := Cursor.skipBlank_append (o := o) hblanks hhead
  have hrest : (spelling ++ b :: tail).isEmpty = false := by simp
  have hand (o : Nat) : (⟨o, spelling ++ b :: tail⟩ : Cursor).eatWord? ["AND", "&&"] = none := by
    apply Cursor.eatWord?_eq_none
    obtain rfl | rfl : word = "OR" ∨ word = "||" := by simpa using hmem
    · simp [hword]
    · simp [hword]
  have heat (o : Nat) : (⟨o, spelling ++ b :: tail⟩ : Cursor).eatWord? ["OR", "||"] =
      some ⟨o + Text.byteLength spelling, b :: tail⟩ := by
    obtain rfl | rfl : word = "OR" ∨ word = "||" := by simpa using hmem
    · exact Cursor.eatWord?_append ["||"] hword hb
    · exact Cursor.eatWord?_append_second (by simp [hword]) hword hb
  rw [readClauses, hc]
  simp only [bind, Except.bind, hskip, hrest, hand, heat]
  exact ⟨_, rfl⟩

end Connectives

end Predicate

end UiTree
