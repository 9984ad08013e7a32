import UiTree.Proofs.Document.Markup

/-!
# Names of elements

Page source takes a name for the element to wrap a tree in if it has only letters, digits and some
marks, and letters and digits are what they are in the tables of Unicode. XML has ranges of its own
for the characters of names. The two differ in a few ranges: letters and numerals in the first
supplement and among the enclosed characters, which XML does not allow in a name, and combining
letters, which it does not allow at the start.

## Implementation notes

That nothing else differs is checked range by range: what XML leaves out is a table of ranges as
well, and each overlap of it with a range of letters or of digits lies in one of the ranges listed.
-/

namespace UiTree

open Text (inRanges inRanges_iff)

namespace Xml

/-- The characters with which a name may start. -/
def nameStartRanges : List (Nat × Nat) :=
  [(0x3A, 0x3A), (0x41, 0x5A), (0x5F, 0x5F), (0x61, 0x7A), (0xC0, 0xD6), (0xD8, 0xF6),
   (0xF8, 0x2FF), (0x370, 0x37D), (0x37F, 0x1FFF), (0x200C, 0x200D), (0x2070, 0x218F),
   (0x2C00, 0x2FEF), (0x3001, 0xD7FF), (0xF900, 0xFDCF), (0xFDF0, 0xFFFD), (0x10000, 0xEFFFF)]

/-- The characters that a name may have. -/
def nameRanges : List (Nat × Nat) :=
  nameStartRanges ++
    [(0x2D, 0x2E), (0x30, 0x39), (0xB7, 0xB7), (0x300, 0x36F), (0x203F, 0x2040)]

/-- Whether a text is a name. -/
def isName : List Char → Bool
  | [] => false
  | c :: rest => inRanges nameStartRanges c.toNat && rest.all fun c => inRanges nameRanges c.toNat

/-- What is beyond ASCII and may not start a name. -/
def notStartRanges : List (Nat × Nat) :=
  [(0x80, 0xBF), (0xD7, 0xD7), (0xF7, 0xF7), (0x300, 0x36F), (0x37E, 0x37E), (0x2000, 0x200B),
   (0x200E, 0x206F), (0x2190, 0x2BFF), (0x2FF0, 0x3000), (0xD800, 0xF8FF), (0xFDD0, 0xFDEF),
   (0xFFFE, 0xFFFF), (0xF0000, 0x10FFFF)]

/-- What is beyond ASCII and may not stand in a name. -/
def notNameRanges : List (Nat × Nat) :=
  [(0x80, 0xB6), (0xB8, 0xBF), (0xD7, 0xD7), (0xF7, 0xF7), (0x37E, 0x37E), (0x2000, 0x200B),
   (0x200E, 0x203E), (0x2041, 0x206F), (0x2190, 0x2BFF), (0x2FF0, 0x3000), (0xD800, 0xF8FF),
   (0xFDD0, 0xFDEF), (0xFFFE, 0xFFFF), (0xF0000, 0x10FFFF)]

variable {c : Char}

theorem inRanges_notStartRanges (h : 128 ≤ c.toNat) :
    inRanges nameStartRanges c.toNat = false ↔ inRanges notStartRanges c.toNat = true := by
  have hvalid : c.toNat < 0xD800 ∨ 0xDFFF < c.toNat ∧ c.toNat < 0x110000 := c.valid
  rw [Bool.eq_false_iff, Ne, inRanges_iff, inRanges_iff]
  simp only [notStartRanges, nameStartRanges, List.mem_cons, List.not_mem_nil, or_false,
    exists_eq_or_imp, exists_eq_left]
  omega

theorem inRanges_notNameRanges (h : 128 ≤ c.toNat) :
    inRanges nameRanges c.toNat = false ↔ inRanges notNameRanges c.toNat = true := by
  have hvalid : c.toNat < 0xD800 ∨ 0xDFFF < c.toNat ∧ c.toNat < 0x110000 := c.valid
  rw [Bool.eq_false_iff, Ne, inRanges_iff, inRanges_iff]
  simp only [notNameRanges, nameRanges, nameStartRanges, List.cons_append, List.nil_append,
    List.mem_cons, List.not_mem_nil, or_false, exists_eq_or_imp, exists_eq_left]
  omega

end Xml

namespace PageSource

/-- Letters and numerals that XML does not allow in a name. -/
def unnamedRanges : List (Nat × Nat) :=
  [(0xAA, 0xAA), (0xB2, 0xB3), (0xB5, 0xB5), (0xB9, 0xBA), (0xBC, 0xBE), (0x2460, 0x249B),
   (0x24B6, 0x24FF), (0x2776, 0x2793)]

/-- Letters that XML allows in a name but not at the start. -/
def combiningRanges : List (Nat × Nat) :=
  [(0x345, 0x345), (0x363, 0x36F)]

theorem alphabetic_overlaps_notName :
    Text.OverlapsIn Text.alphabeticRanges Xml.notNameRanges unnamedRanges := by
  decide +kernel

theorem numeric_overlaps_notName :
    Text.OverlapsIn Text.numericRanges Xml.notNameRanges unnamedRanges := by
  decide +kernel

theorem alphabetic_overlaps_notStart :
    Text.OverlapsIn Text.alphabeticRanges Xml.notStartRanges
      (unnamedRanges ++ combiningRanges) := by
  decide +kernel

variable {c : Char}

/-- The ranges listed are beyond ASCII, and XML leaves them out. -/
theorem notName_of_unnamed (h : inRanges unnamedRanges c.toNat = true) :
    128 ≤ c.toNat ∧ inRanges Xml.notNameRanges c.toNat = true := by
  rw [inRanges_iff] at h ⊢
  simp only [unnamedRanges, Xml.notNameRanges, List.mem_cons, List.not_mem_nil, or_false,
    exists_eq_or_imp, exists_eq_left] at h ⊢
  omega

theorem notStart_of_combining
    (h : inRanges (unnamedRanges ++ combiningRanges) c.toNat = true) :
    128 ≤ c.toNat ∧ inRanges Xml.notStartRanges c.toNat = true := by
  rw [inRanges_iff] at h ⊢
  simp only [unnamedRanges, combiningRanges, Xml.notStartRanges, List.cons_append, List.nil_append,
    List.mem_cons, List.not_mem_nil, or_false, exists_eq_or_imp, exists_eq_left] at h ⊢
  omega

/-- Of the characters that a name of an element may have, XML allows those that are not listed. -/
theorem inRanges_nameRanges_iff (h : isNameChar c = true) :
    inRanges Xml.nameRanges c.toNat = true ↔ inRanges unnamedRanges c.toNat = false := by
  by_cases hascii : c.toNat < 128
  · have hunnamed : inRanges unnamedRanges c.toNat = false :=
      Bool.eq_false_iff.mpr fun hn => by
        have := (notName_of_unnamed hn).1
        omega
    rw [isNameChar, Text.isAlphanumeric_ascii hascii] at h
    simp only [Bool.or_eq_true, Text.isAlphanum_iff, beq_iff_eq, ← Char.toNat_inj,
      Char.reduceToNat] at h
    simp only [hunnamed, iff_true, inRanges_iff, Xml.nameRanges, Xml.nameStartRanges,
      List.cons_append, List.nil_append, List.mem_cons, List.not_mem_nil, or_false,
      exists_eq_or_imp, exists_eq_left]
    omega
  · have hbeyond : 128 ≤ c.toNat := by omega
    have hletter : inRanges Text.alphabeticRanges c.toNat = true ∨
        inRanges Text.numericRanges c.toNat = true := by
      simp only [isNameChar, Text.isAlphanumeric, if_neg hascii, Bool.or_eq_true, beq_iff_eq,
        ← Char.toNat_inj, Char.reduceToNat] at h
      rcases h with ((hletter | _) | _) | _
      · exact hletter
      all_goals omega
    rw [← Bool.not_eq_false, Xml.inRanges_notNameRanges hbeyond, ← Bool.not_eq_true, not_iff_not]
    constructor
    · intro hnot
      exact hletter.elim (fun hn => alphabetic_overlaps_notName.inRanges hn hnot)
        fun hn => numeric_overlaps_notName.inRanges hn hnot
    · exact fun hn => (notName_of_unnamed hn).2

theorem inRanges_nameStartRanges_iff (h : isNameStart c = true) :
    inRanges Xml.nameStartRanges c.toNat = true ↔
      inRanges unnamedRanges c.toNat = false ∧ inRanges combiningRanges c.toNat = false := by
  rw [← Bool.or_eq_false_iff, ← Text.inRanges_append]
  by_cases hascii : c.toNat < 128
  · have hunnamed : inRanges (unnamedRanges ++ combiningRanges) c.toNat = false :=
      Bool.eq_false_iff.mpr fun hn => by
        have := (notStart_of_combining hn).1
        omega
    rw [isNameStart, Text.isAlphabetic_ascii hascii] at h
    simp only [Bool.or_eq_true, Text.isAlpha_iff, beq_iff_eq, ← Char.toNat_inj,
      Char.reduceToNat] at h
    simp only [hunnamed, iff_true, inRanges_iff, Xml.nameStartRanges, List.mem_cons,
      List.not_mem_nil, or_false, exists_eq_or_imp, exists_eq_left]
    omega
  · have hbeyond : 128 ≤ c.toNat := by omega
    have hletter : inRanges Text.alphabeticRanges c.toNat = true := by
      simp only [isNameStart, Text.isAlphabetic, if_neg hascii, Bool.or_eq_true, beq_iff_eq,
        ← Char.toNat_inj, Char.reduceToNat] at h
      exact h.resolve_right (by omega)
    rw [← Bool.not_eq_false, Xml.inRanges_notStartRanges hbeyond, ← Bool.not_eq_true, not_iff_not]
    exact ⟨alphabetic_overlaps_notStart.inRanges hletter, fun hn => (notStart_of_combining hn).2⟩

/-- A name of an element is a name of XML unless it has a letter or numeral of the ranges listed or
starts with a combining letter. -/
theorem isName_toList_iff {s : String} (h : isName s = true) :
    Xml.isName s.toList = true ↔
      (∀ c ∈ s.toList, inRanges unnamedRanges c.toNat = false) ∧
        ∀ c ∈ s.toList.head?, inRanges combiningRanges c.toNat = false := by
  obtain ⟨first, rest, hs, hfirst, hrest⟩ := isName_iff.mp h
  rw [hs, Xml.isName, Bool.and_eq_true, inRanges_nameStartRanges_iff hfirst, List.all_eq_true,
    List.forall_mem_cons, forall₂_congr fun c hc => inRanges_nameRanges_iff (hrest c hc)]
  simp only [List.head?_cons, Option.mem_some_iff, forall_eq']
  tauto

end PageSource

end UiTree
