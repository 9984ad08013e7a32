import UiTree.Text.Alphabetic
import UiTree.Text.Numeric

/-!
# Character classes of query and predicate text

White space, letters, digits and control characters over the whole range of `Char`. Below 128
every class is the familiar ASCII one; above, it is read off a table of ranges.
-/

namespace UiTree.Text

/-- Whether `n` lies in one of the closed ranges. -/
def inRanges (ranges : List (Nat × Nat)) (n : Nat) : Bool :=
  ranges.any fun r => r.1 ≤ n && n ≤ r.2

/-- The code points with the property White_Space. -/
def blankRanges : List (Nat × Nat) :=
  [(9, 13), (32, 32), (133, 133), (160, 160), (5760, 5760), (8192, 8202), (8232, 8233),
   (8239, 8239), (8287, 8287), (12288, 12288)]

/-- White space separates tokens and is ignored around numbers. -/
def isBlank (c : Char) : Bool :=
  inRanges blankRanges c.toNat

/-- Letters may start a name. -/
def isAlphabetic (c : Char) : Bool :=
  if c.toNat < 128 then c.isAlpha else inRanges alphabeticRanges c.toNat

/-- Letters, digits and numerals may continue a name. -/
def isAlphanumeric (c : Char) : Bool :=
  if c.toNat < 128 then c.isAlphanum
  else inRanges alphabeticRanges c.toNat || inRanges numericRanges c.toNat

/-- The two blocks of control characters. -/
def isControl (c : Char) : Bool :=
  c.toNat < 32 || (127 ≤ c.toNat && c.toNat < 160)

theorem isUpper_iff {c : Char} : c.isUpper = true ↔ 65 ≤ c.toNat ∧ c.toNat ≤ 90 :=
  decide_eq_true_iff

theorem isLower_iff {c : Char} : c.isLower = true ↔ 97 ≤ c.toNat ∧ c.toNat ≤ 122 :=
  Bool.and_eq_true_iff.trans (and_congr decide_eq_true_iff decide_eq_true_iff)

theorem isDigit_iff {c : Char} : c.isDigit = true ↔ 48 ≤ c.toNat ∧ c.toNat ≤ 57 :=
  Bool.and_eq_true_iff.trans (and_congr decide_eq_true_iff decide_eq_true_iff)

theorem isAlpha_iff {c : Char} :
    c.isAlpha = true ↔ 65 ≤ c.toNat ∧ c.toNat ≤ 90 ∨ 97 ≤ c.toNat ∧ c.toNat ≤ 122 :=
  Bool.or_eq_true_iff.trans (or_congr isUpper_iff isLower_iff)

theorem isAlphanum_iff {c : Char} :
    c.isAlphanum = true ↔ (65 ≤ c.toNat ∧ c.toNat ≤ 90 ∨ 97 ≤ c.toNat ∧ c.toNat ≤ 122) ∨
      48 ≤ c.toNat ∧ c.toNat ≤ 57 :=
  Bool.or_eq_true_iff.trans (or_congr isAlpha_iff isDigit_iff)

theorem inRanges_iff {ranges : List (Nat × Nat)} {n : Nat} :
    inRanges ranges n = true ↔ ∃ r ∈ ranges, r.1 ≤ n ∧ n ≤ r.2 := by
  simp [inRanges]

theorem inRanges_append {ranges others : List (Nat × Nat)} {n : Nat} :
    inRanges (ranges ++ others) n = (inRanges ranges n || inRanges others n) :=
  List.any_append

/-- Whether every overlap of two tables lies in a range of a third one. -/
def OverlapsIn (ranges others shared : List (Nat × Nat)) : Prop :=
  ∀ r ∈ ranges, ∀ s ∈ others,
    r.2 < s.1 ∨ s.2 < r.1 ∨ ∃ g ∈ shared, g.1 ≤ max r.1 s.1 ∧ min r.2 s.2 ≤ g.2

instance (ranges others shared : List (Nat × Nat)) : Decidable (OverlapsIn ranges others shared) :=
  inferInstanceAs (Decidable (∀ r ∈ ranges, ∀ s ∈ others, _))

theorem OverlapsIn.inRanges {ranges others shared : List (Nat × Nat)} {n : Nat}
    (h : OverlapsIn ranges others shared) (hn : inRanges ranges n = true)
    (hothers : inRanges others n = true) : inRanges shared n = true := by
  obtain ⟨r, hr, hlo, hhi⟩ := inRanges_iff.mp hn
  obtain ⟨s, hs, hlo', hhi'⟩ := inRanges_iff.mp hothers
  rcases h r hr s hs with hapart | hapart | ⟨g, hg, hleft, hright⟩
  · omega
  · omega
  · exact inRanges_iff.mpr ⟨g, hg, by omega, by omega⟩

/-- A property of all characters of a text can be checked one by one. -/
theorem forall_mem_of_all {p : Char → Prop} [DecidablePred p] {cs : List Char}
    (h : cs.all (fun c => decide (p c)) = true) : ∀ c ∈ cs, p c := fun c hc =>
  of_decide_eq_true (List.all_eq_true.mp h c hc)

/-- No code point lies in two tables without overlaps. -/
theorem inRanges_eq_false_of_apart {ranges others : List (Nat × Nat)} {n : Nat}
    (apart : OverlapsIn ranges others []) (h : inRanges ranges n = true) :
    inRanges others n = false :=
  Bool.eq_false_iff.mpr fun hothers => Bool.false_ne_true (apart.inRanges h hothers)

/-- No white space is a letter. -/
theorem blankRanges_apart_alphabeticRanges : OverlapsIn blankRanges alphabeticRanges [] := by
  decide +kernel

/-- No white space is a digit or a numeral. -/
theorem blankRanges_apart_numericRanges : OverlapsIn blankRanges numericRanges [] := by
  decide +kernel

/-- What may start a name may also continue it. -/
theorem isAlphanumeric_of_isAlphabetic {c : Char} (h : isAlphabetic c = true) :
    isAlphanumeric c = true := by
  unfold isAlphabetic at h
  unfold isAlphanumeric
  split at h <;> simp_all [Char.isAlphanum]

/-- White space never continues a name. -/
theorem isAlphanumeric_eq_false_of_isBlank {c : Char} (h : isBlank c = true) :
    isAlphanumeric c = false := by
  unfold isAlphanumeric
  split
  · next ascii =>
    obtain ⟨r, hr, hlo, hhi⟩ := inRanges_iff.mp h
    have bounds : c.toNat ≤ 13 ∨ c.toNat = 32 := by
      simp only [blankRanges, List.mem_cons, List.not_mem_nil, or_false] at hr
      rcases hr with rfl | rfl | rfl | rfl | rfl | rfl | rfl | rfl | rfl | rfl <;>
        simp only at hlo hhi <;> omega
    rw [← Bool.not_eq_true, isAlphanum_iff]
    omega
  · simp [inRanges_eq_false_of_apart blankRanges_apart_alphabeticRanges h,
      inRanges_eq_false_of_apart blankRanges_apart_numericRanges h]

theorem isAlphabetic_ascii {c : Char} (h : c.toNat < 128) : isAlphabetic c = c.isAlpha := by
  simp [isAlphabetic, h]

theorem isAlphanumeric_ascii {c : Char} (h : c.toNat < 128) :
    isAlphanumeric c = c.isAlphanum := by
  simp [isAlphanumeric, h]

theorem isAlphabetic_of_isAlpha {c : Char} (h : c.isAlpha = true) : isAlphabetic c = true := by
  have hascii := isAlpha_iff.mp h
  rw [isAlphabetic_ascii (by omega), h]

end UiTree.Text
