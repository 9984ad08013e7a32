import UiTree.Text.CharClass

/-!
# Searching, trimming and joining text

Prefixes, suffixes and parts of a text, the text without the white space around it, and texts
joined by a separator.
-/

namespace UiTree.Text

/-- Whether `t` begins with `s`. -/
def startsWith (t s : String) : Bool :=
  s.toList.isPrefixOf t.toList

/-- Whether `t` ends with `s`. -/
def endsWith (t s : String) : Bool :=
  s.toList.isSuffixOf t.toList

/-- Whether a list occurs in another one without gaps. -/
def occursIn (s : List Char) : List Char → Bool
  | [] => s.isEmpty
  | c :: rest => s.isPrefixOf (c :: rest) || occursIn s rest

/-- Whether `s` occurs in `t`. -/
def contains (t s : String) : Bool :=
  occursIn s.toList t.toList

theorem startsWith_iff {t s : String} : startsWith t s = true ↔ s.toList <+: t.toList :=
  List.isPrefixOf_iff_prefix

theorem endsWith_iff {t s : String} : endsWith t s = true ↔ s.toList <:+ t.toList :=
  List.isSuffixOf_iff_suffix

theorem occursIn_iff {s t : List Char} : occursIn s t = true ↔ s <:+: t := by
  induction t with
  | nil => cases s <;> simp [occursIn]
  | cons c rest ih =>
      rw [occursIn, Bool.or_eq_true, ih, List.isPrefixOf_iff_prefix, List.infix_cons_iff]

theorem contains_iff {t s : String} : contains t s = true ↔ s.toList <:+: t.toList :=
  occursIn_iff

/-- Leave out white space at the beginning. -/
def trimStart (cs : List Char) : List Char :=
  cs.dropWhile isBlank

/-- Leave out white space at both ends. -/
def trim (cs : List Char) : List Char :=
  (trimStart (trimStart cs).reverse).reverse

/-- The number of bytes that encode some characters. -/
def byteLength (cs : List Char) : Nat :=
  cs.foldr (fun c n => c.utf8Size + n) 0

@[simp] theorem byteLength_nil : byteLength [] = 0 := rfl

@[simp] theorem byteLength_cons (c : Char) (cs : List Char) :
    byteLength (c :: cs) = c.utf8Size + byteLength cs := by
  simp [byteLength]

@[simp] theorem byteLength_append (xs ys : List Char) :
    byteLength (xs ++ ys) = byteLength xs + byteLength ys := by
  induction xs with
  | nil => simp
  | cons c xs ih => rw [List.cons_append, byteLength_cons, ih, byteLength_cons, Nat.add_assoc]

/-- Joined texts are the first one and each further one behind a separator. -/
theorem intercalate_cons (separator x : List Char) (xs : List (List Char)) :
    separator.intercalate (x :: xs) = x ++ xs.flatMap fun y => separator ++ y := by
  induction xs generalizing x with
  | nil => simp [List.intercalate]
  | cons y xs ih =>
      have hstep : separator.intercalate (x :: y :: xs) =
          x ++ separator ++ separator.intercalate (y :: xs) := by
        simp [List.intercalate]
      rw [hstep, ih]
      simp

end UiTree.Text
