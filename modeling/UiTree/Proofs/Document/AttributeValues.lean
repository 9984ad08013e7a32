import Mathlib.Data.List.Basic
import UiTree.Document.PageSource
import UiTree.Number.Hex
import UiTree.Number.Positional

/-!
# Attribute values between quotes

How a reader of XML gets the value of an attribute from the text between its quotes, and what it
gets from the text that page source has there. Line ends are made line feeds, white space that
stands for itself is made a space, and references are replaced by the characters they stand for.

Markup characters and line feeds are written as references and come back. A tab or a carriage
return stands for itself and comes back as a space, and the control characters from 127 to 159,
which a document may have, are dropped. So a value comes back exactly if it has none of these.

## Implementation notes

A reader that leaves white space alone differs only in what it makes of a character that stands for
itself, so this is a parameter.
-/

namespace UiTree

namespace Xml

open Text (inRanges)

/-- The characters that a document may have. -/
def charRanges : List (Nat × Nat) :=
  [(0x9, 0xA), (0xD, 0xD), (0x20, 0xD7FF), (0xE000, 0xFFFD), (0x10000, 0x10FFFF)]

/-- Whether a document may have the character. -/
def isChar (c : Char) : Bool :=
  inRanges charRanges c.toNat

/-- White space: space, tab, line feed and carriage return. -/
def isSpace (c : Char) : Bool :=
  c == ' ' || c == '\t' || c == '\n' || c == '\r'

/-- The entities that need no declaration. -/
def entities : List (String × Char) :=
  [("amp", '&'), ("lt", '<'), ("gt", '>'), ("quot", '"'), ("apos", '\'')]

/-- The character with a number, if a document may have it. -/
def charOfNumber? (n : Nat) : Option Char :=
  if inRanges charRanges n then some (Char.ofNat n) else none

/-- The character that a reference stands for, from the text between ampersand and semicolon: a
hexadecimal or decimal number, or the name of an entity. -/
def reference? : List Char → Option Char
  | '#' :: 'x' :: digits =>
    if digits.isEmpty then none else (Number.hexValue? 0 digits).bind charOfNumber?
  | '#' :: digits =>
    if digits.isEmpty || !digits.all Char.isDigit then none
    else charOfNumber? (Number.digitsValue digits)
  | name => entities.lookup (String.ofList name)

/-- Make every line end a single line feed. -/
def lineEnds : List Char → List Char
  | [] => []
  | '\r' :: '\n' :: rest => '\n' :: lineEnds rest
  | '\r' :: rest => '\n' :: lineEnds rest
  | c :: rest => c :: lineEnds rest

/-- Expand the rest of a value. Inside a reference, `pending` is what has been read of it. -/
def expandFrom (literal : Char → Char) : Option (List Char) → List Char → Option (List Char)
  | none, [] => some []
  | some _, [] => none
  | none, c :: rest =>
    if c == '&' then expandFrom literal (some []) rest
    else if c == '<' then none
    else (expandFrom literal none rest).map (literal c :: ·)
  | some pending, c :: rest =>
    if c == ';' then
      (reference? pending).bind fun d => (expandFrom literal none rest).map (d :: ·)
    else expandFrom literal (some (pending ++ [c])) rest

/-- Replace the references of a value, and every other character by what is made of it. A value
with a start of markup or with a reference to nothing is refused. -/
def expand? (literal : Char → Char) (raw : List Char) : Option (List Char) :=
  expandFrom literal none raw

/-- What is made of a character that stands for itself: white space becomes a space. -/
def spaced (c : Char) : Char :=
  if isSpace c then ' ' else c

/-- The value that a reader of XML gets from the text between the quotes. -/
def attributeValue? (raw : List Char) : Option (List Char) :=
  expand? spaced (lineEnds raw)

/-- A carriage return as a line end of its own. -/
def lineFeed (c : Char) : Char :=
  if c = '\r' then '\n' else c

/-- What page source writes between ampersand and semicolon. -/
def isReferenceChar (c : Char) : Bool :=
  c.isAlphanum || c == '#'

variable {literal : Char → Char} {c d : Char} {xs rest pending body : List Char}

theorem expand?_cons (hamp : c ≠ '&') (hlt : c ≠ '<') :
    expand? literal (c :: rest) = (expand? literal rest).map (literal c :: ·) := by
  simp [expand?, expandFrom, hamp, hlt]

theorem expandFrom_pending (h : ';' ∉ body) :
    expandFrom literal (some pending) (body ++ ';' :: rest) =
      (reference? (pending ++ body)).bind fun d => (expand? literal rest).map (d :: ·) := by
  induction body generalizing pending with
  | nil => simp [expandFrom, expand?]
  | cons c body ih =>
      rw [List.mem_cons, not_or] at h
      have hc : (c == ';') = false := beq_false_of_ne (Ne.symm h.1)
      rw [List.cons_append, expandFrom, hc, if_neg (by decide), ih h.2, List.append_assoc,
        List.singleton_append]

/-- A reference is replaced by the character it stands for. -/
theorem expand?_reference (h : body.all isReferenceChar = true) (hd : reference? body = some d) :
    expand? literal ('&' :: (body ++ ';' :: rest)) =
      (expand? literal rest).map (d :: ·) := by
  have hend : ';' ∉ body := fun hmem => absurd (List.all_eq_true.mp h ';' hmem) (by decide)
  rw [expand?, expandFrom, if_pos (by decide), expandFrom_pending hend, List.nil_append, hd,
    Option.bind_some]

/-- Without line feeds, every carriage return is a line end of its own. -/
theorem lineEnds_of_not_mem (h : '\n' ∉ xs) :
    lineEnds xs = xs.map lineFeed := by
  fun_induction lineEnds xs with
  | case1 => rfl
  | case2 rest ih => simp at h
  | case3 rest hrest ih =>
      rw [List.mem_cons, not_or] at h
      rw [ih h.2, List.map_cons, lineFeed, if_pos rfl]
  | case4 c rest hcrlf hcr ih =>
      rw [List.mem_cons, not_or] at h
      have hc : ¬ c = '\r' := fun hc => hcr hc
      rw [ih h.2, List.map_cons, lineFeed, if_neg hc]

end Xml

namespace PageSource

variable {literal : Char → Char} {c : Char} {rest : List Char}

/-- The characters that are written as references. -/
def isReferred (c : Char) : Bool :=
  ['&', '<', '>', '"', '\'', '\n'].contains c

/-- The characters that are not written. -/
def isDropped (c : Char) : Bool :=
  Text.isControl c && !(['\t', '\n', '\r'].contains c)

/-- What comes back of a character, given what a reader makes of those that stand for
themselves. -/
def comesBack? (literal : Char → Char) (c : Char) : Option Char :=
  if isReferred c then some c else if isDropped c then none else some (literal c)

/-- A character is written as a reference, left out, or written as it is. -/
theorem escapeChar_cases (c : Char) :
    (isReferred c = true ∧ ∃ body, escapeChar c = '&' :: (body ++ [';']) ∧
        body.all Xml.isReferenceChar = true ∧ Xml.reference? body = some c) ∨
      (isReferred c = false ∧ isDropped c = true ∧ escapeChar c = []) ∨
      (isReferred c = false ∧ isDropped c = false ∧ escapeChar c = [c]) := by
  unfold escapeChar
  split
  · exact .inl ⟨by decide, "amp".toList, by decide, by decide, by decide⟩
  · exact .inl ⟨by decide, "lt".toList, by decide, by decide, by decide⟩
  · exact .inl ⟨by decide, "gt".toList, by decide, by decide, by decide⟩
  · exact .inl ⟨by decide, "quot".toList, by decide, by decide, by decide⟩
  · exact .inl ⟨by decide, "apos".toList, by decide, by decide, by decide⟩
  · exact .inl ⟨by decide, "#10".toList, by decide, by decide, by decide⟩
  · exact .inr (.inr ⟨by decide, by decide, rfl⟩)
  · exact .inr (.inr ⟨by decide, by decide, rfl⟩)
  · next hamp hlt hgt hquot hapos hfeed htab hreturn =>
    have hreferred : isReferred c = false := by
      simpa [isReferred] using ⟨hamp, hlt, hgt, hquot, hapos, hfeed⟩
    have hdropped : isDropped c = Text.isControl c := by
      have hkept : ['\t', '\n', '\r'].contains c = false := by
        simpa using ⟨htab, hfeed, hreturn⟩
      rw [isDropped, hkept, Bool.not_false, Bool.and_true]
    rw [hdropped]
    cases hcontrol : Text.isControl c with
    | true => exact .inr (.inl ⟨hreferred, rfl, rfl⟩)
    | false => exact .inr (.inr ⟨hreferred, rfl, rfl⟩)

/-- What stands for itself is no start of markup and no quote. -/
theorem ne_of_isReferred (h : isReferred c = false) : c ≠ '&' ∧ c ≠ '<' ∧ c ≠ '"' := by
  simp only [isReferred, List.contains_eq_mem, decide_eq_false_iff_not, List.mem_cons] at h
  tauto

theorem expand?_escapeChar (literal : Char → Char) (c : Char) (rest : List Char) :
    Xml.expand? literal (escapeChar c ++ rest) =
      (Xml.expand? literal rest).map ((comesBack? literal c).toList ++ ·) := by
  obtain ⟨hreferred, body, hwritten, hbody, hd⟩ | ⟨hreferred, hdropped, hwritten⟩ |
    ⟨hreferred, hdropped, hwritten⟩ := escapeChar_cases c
  · rw [hwritten, List.cons_append, List.append_assoc, List.singleton_append,
      Xml.expand?_reference hbody hd]
    simp [comesBack?, hreferred]
  · rw [hwritten]
    simp [comesBack?, hreferred, hdropped]
  · obtain ⟨hamp, hlt, -⟩ := ne_of_isReferred hreferred
    rw [hwritten, List.singleton_append, Xml.expand?_cons hamp hlt]
    simp [comesBack?, hreferred, hdropped]

/-- A written value is never refused. -/
theorem expand?_escape (literal : Char → Char) (v : String) :
    Xml.expand? literal (escape v) = some (v.toList.filterMap (comesBack? literal)) := by
  unfold escape
  induction v.toList with
  | nil => rfl
  | cons c cs ih =>
      rw [List.flatMap_cons, expand?_escapeChar, ih]
      cases h : comesBack? literal c <;> simp [h]

/-- A value as it is written, without the characters that are not. -/
def legible (v : String) : String :=
  String.ofList (v.toList.filter (!isDropped ·))

theorem isDropped_of_isReferred (h : isReferred c = true) : isDropped c = false := by
  simp only [isReferred, List.contains_eq_mem, decide_eq_true_eq, List.mem_cons,
    List.not_mem_nil, or_false] at h
  rcases h with rfl | rfl | rfl | rfl | rfl | rfl <;> decide

theorem comesBack?_id (c : Char) : comesBack? id c = Option.guard (!isDropped ·) c := by
  cases hreferred : isReferred c with
  | true => simp [comesBack?, hreferred, isDropped_of_isReferred hreferred]
  | false => cases hdropped : isDropped c <;> simp [comesBack?, hreferred, hdropped, Option.guard]

/-- A reader that leaves white space alone gets the legible part of the value. -/
theorem expand?_id_escape (v : String) :
    Xml.expand? id (escape v) = some (legible v).toList := by
  rw [expand?_escape, funext comesBack?_id, List.filterMap_eq_filter, legible,
    String.toList_ofList]

/-- What is written of a character is the character itself or belongs to a reference. -/
theorem mem_escapeChar {d : Char} (h : d ∈ escapeChar c) :
    d = c ∧ isReferred c = false ∧ isDropped c = false ∨
      d = '&' ∨ d = ';' ∨ Xml.isReferenceChar d = true := by
  obtain ⟨-, body, hwritten, hbody, -⟩ | ⟨-, -, hwritten⟩ | ⟨hreferred, hdropped, hwritten⟩ :=
    escapeChar_cases c
  · rw [hwritten, List.mem_cons, List.mem_append, List.mem_singleton] at h
    rcases h with rfl | h | rfl
    · exact .inr (.inl rfl)
    · exact .inr (.inr (.inr (List.all_eq_true.mp hbody d h)))
    · exact .inr (.inr (.inl rfl))
  · rw [hwritten] at h
    cases h
  · rw [hwritten] at h
    exact .inl ⟨List.mem_singleton.mp h, hreferred, hdropped⟩

/-- Only a carriage return is written as a line end. -/
theorem eq_of_mem_escapeChar {d : Char} (hd : d = '\r' ∨ d = '\n') (h : d ∈ escapeChar c) :
    d = '\r' ∧ c = '\r' := by
  obtain ⟨rfl, hreferred, -⟩ | hreference := mem_escapeChar h
  · rcases hd with rfl | rfl
    · exact ⟨rfl, rfl⟩
    · exact absurd hreferred (by decide)
  · rcases hd with rfl | rfl <;> exact absurd hreference (by decide)

/-- No start of markup and no quote stands in a written value. -/
theorem ne_of_mem_escape {v : String} {d : Char} (h : d ∈ escape v) : d ≠ '<' ∧ d ≠ '"' := by
  obtain ⟨c, -, hc⟩ := List.mem_flatMap.mp h
  obtain ⟨rfl, hreferred, -⟩ | hreference := mem_escapeChar hc
  · exact (ne_of_isReferred hreferred).2
  · constructor <;> rintro rfl <;> exact absurd hreference (by decide)

theorem newline_not_mem_escape (v : String) : '\n' ∉ escape v := by
  intro h
  obtain ⟨c, -, hc⟩ := List.mem_flatMap.mp h
  exact absurd (eq_of_mem_escapeChar (.inr rfl) hc).1 (by decide)

/-- What comes back of a carriage return does not depend on line ends. -/
theorem expand?_escapeChar_lineFeed (c : Char) (rest : List Char) :
    Xml.expand? Xml.spaced ((escapeChar c).map Xml.lineFeed ++ rest) =
      (Xml.expand? Xml.spaced rest).map ((comesBack? Xml.spaced c).toList ++ ·) := by
  by_cases hc : c = '\r'
  · subst hc
    exact Xml.expand?_cons (by decide) (by decide)
  · have hsame : (escapeChar c).map Xml.lineFeed = escapeChar c := by
      calc
        (escapeChar c).map Xml.lineFeed = (escapeChar c).map id :=
          List.map_congr_left fun d hd =>
            if_neg fun hreturn => hc (eq_of_mem_escapeChar (.inl hreturn) hd).2
        _ = escapeChar c := List.map_id _
    rw [hsame, expand?_escapeChar]

/-- A reader of XML gets the legible part of a value, with spaces for tabs and carriage returns. -/
theorem attributeValue?_escape (v : String) :
    Xml.attributeValue? (escape v) = some (v.toList.filterMap (comesBack? Xml.spaced)) := by
  rw [Xml.attributeValue?, Xml.lineEnds_of_not_mem (newline_not_mem_escape v), escape]
  induction v.toList with
  | nil => rfl
  | cons c cs ih =>
      rw [List.flatMap_cons, List.map_append, expand?_escapeChar_lineFeed, ih]
      cases h : comesBack? Xml.spaced c <;> simp [h]

theorem filterMap_eq_self_iff {α : Type} {f : α → Option α} {xs : List α} :
    xs.filterMap f = xs ↔ ∀ x ∈ xs, f x = some x := by
  induction xs with
  | nil => simp
  | cons x xs ih =>
      cases h : f x with
      | none =>
          rw [List.filterMap_cons_none h]
          constructor
          · intro heq
            have hlength := List.length_filterMap_le f xs
            rw [heq, List.length_cons] at hlength
            omega
          · intro hall
            have hx := hall x List.mem_cons_self
            rw [h] at hx
            cases hx
      | some y =>
          rw [List.filterMap_cons_some h, List.cons_eq_cons, ih, List.forall_mem_cons, h,
            Option.some_inj]

theorem isSpace_iff :
    Xml.isSpace c = true ↔ c.toNat = 32 ∨ c.toNat = 9 ∨ c.toNat = 10 ∨ c.toNat = 13 := by
  simp [Xml.isSpace, ← Char.toNat_inj, or_assoc]

theorem isDropped_iff :
    isDropped c = true ↔ (c.toNat < 32 ∨ 127 ≤ c.toNat ∧ c.toNat < 160) ∧
      c.toNat ≠ 9 ∧ c.toNat ≠ 10 ∧ c.toNat ≠ 13 := by
  simp [isDropped, Text.isControl, ← Char.toNat_inj]

theorem isReferred_iff :
    isReferred c = true ↔ c.toNat = 38 ∨ c.toNat = 60 ∨ c.toNat = 62 ∨ c.toNat = 34 ∨
      c.toNat = 39 ∨ c.toNat = 10 := by
  simp [isReferred, ← Char.toNat_inj]

/-- Apart from control characters, only the last two code points of the first plane are left out. -/
theorem isChar_iff :
    Xml.isChar c = true ↔ c.toNat = 9 ∨ c.toNat = 10 ∨ c.toNat = 13 ∨
      32 ≤ c.toNat ∧ c.toNat ≠ 0xFFFE ∧ c.toNat ≠ 0xFFFF := by
  have hvalid : c.toNat < 0xD800 ∨ 0xDFFF < c.toNat ∧ c.toNat < 0x110000 := c.valid
  simp only [Xml.isChar, Text.inRanges_iff, Xml.charRanges, List.mem_cons, List.not_mem_nil,
    or_false, exists_eq_or_imp, exists_eq_left]
  omega

theorem spaced_eq_self_iff :
    Xml.spaced c = c ↔ c.toNat ≠ 9 ∧ c.toNat ≠ 10 ∧ c.toNat ≠ 13 := by
  unfold Xml.spaced
  split
  · next h =>
    rw [isSpace_iff] at h
    simp only [← Char.toNat_inj, Char.reduceToNat]
    omega
  · next h =>
    rw [isSpace_iff] at h
    simp only [true_iff]
    omega

/-- Of the characters that a document may have, tabs, carriage returns and the control characters
from 127 to 159 do not come back as they were. -/
theorem comesBack?_spaced_eq_some_iff (h : Xml.isChar c = true) :
    comesBack? Xml.spaced c = some c ↔
      c ≠ '\t' ∧ c ≠ '\r' ∧ ¬ (0x7F ≤ c.toNat ∧ c.toNat ≤ 0x9F) := by
  rw [isChar_iff] at h
  simp only [ne_eq, ← Char.toNat_inj, Char.reduceToNat]
  unfold comesBack?
  split
  · next hreferred =>
    rw [isReferred_iff] at hreferred
    simp only [true_iff]
    omega
  · next hreferred =>
    rw [isReferred_iff] at hreferred
    split
    · next hdropped =>
      rw [isDropped_iff] at hdropped
      simp only [reduceCtorEq, false_iff]
      omega
    · next hdropped =>
      rw [isDropped_iff] at hdropped
      rw [Option.some_inj, spaced_eq_self_iff]
      omega

/-- A value of characters that a document may have comes back from a reader of XML exactly if it has
no tab, no carriage return and no control character from 127 to 159. -/
theorem attributeValue?_escape_iff {v : String} (h : ∀ c ∈ v.toList, Xml.isChar c = true) :
    Xml.attributeValue? (escape v) = some v.toList ↔
      ∀ c ∈ v.toList, c ≠ '\t' ∧ c ≠ '\r' ∧ ¬ (0x7F ≤ c.toNat ∧ c.toNat ≤ 0x9F) := by
  rw [attributeValue?_escape, Option.some_inj, filterMap_eq_self_iff]
  exact forall₂_congr fun c hc => comesBack?_spaced_eq_some_iff (h c hc)

theorem attributeValue?_escape_iff_markup :
    (∀ c ∈ "a <\n\"é&".toList, Xml.isChar c = true) ∧
      Xml.attributeValue? (escape "a <\n\"é&") = some "a <\n\"é&".toList :=
  ⟨Text.forall_mem_of_all (by decide),
    (attributeValue?_escape_iff (Text.forall_mem_of_all (by decide))).mpr
      (Text.forall_mem_of_all (by decide))⟩

/-- A tab comes back as a space, a carriage return too, and a next-line control does not come
back. -/
theorem attributeValue?_escape_tab :
    (∀ c ∈ "a\tb\rc\u0085d".toList, Xml.isChar c = true) ∧
      Xml.attributeValue? (escape "a\tb\rc\u0085d") = some "a b cd".toList :=
  ⟨Text.forall_mem_of_all (by decide), by decide⟩

end PageSource

end UiTree
