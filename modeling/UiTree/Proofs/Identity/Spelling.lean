import Mathlib
import UiTree.Error
import UiTree.Text.Search

/-!
# Spellings of an identity

Which texts are read as an identity. A group of digits is read as a number if it is the printed
group of that number up to the case of its letters, or if it becomes so when a plus sign in front
of it is replaced by a zero. So a text without plus signs spells an identity exactly if it is the
printed text of that identity in some mix of upper and lower case, and every other such text is
refused. A text with a plus sign in front of a group is read although it is never printed.
-/

namespace UiTree

namespace Text

variable {xs ys : List Char} {c d : Char}

theorem toNat_toLower (c : Char) :
    c.toLower.toNat = if c.isUpper then c.toNat + 32 else c.toNat := by
  unfold Char.toLower
  simp only [Char.isUpper, decide_eq_true_eq]
  split
  · next h =>
    have hle := h.2
    simp only [UInt32.le_iff_toNat_le, UInt32.reduceToNat, Char.reduceVal] at hle
    simp only [← Char.toNat_val, UInt32.toNat_add, UInt32.reduceToNat, UInt32.reduceSub,
      Char.reduceVal]
    omega
  · rfl

/-- What is no letter is the lower case of itself alone. -/
theorem toLower_eq_iff (hc : c.isAlpha = false) : d.toLower = c ↔ d = c := by
  have hupper : ¬ c.isUpper = true := by simp_all [Char.isAlpha]
  have hlower : ¬ c.isLower = true := by simp_all [Char.isAlpha]
  rw [isUpper_iff] at hupper
  rw [isLower_iff] at hlower
  simp only [← Char.toNat_inj, toNat_toLower, isUpper_iff]
  split <;> omega

/-- The same text up to the case of ASCII letters. -/
def SameLetters (xs ys : List Char) : Prop :=
  xs.map Char.toLower = ys.map Char.toLower

instance (xs ys : List Char) : Decidable (SameLetters xs ys) :=
  inferInstanceAs (Decidable (xs.map Char.toLower = ys.map Char.toLower))

namespace SameLetters

theorem length_eq (h : SameLetters xs ys) : xs.length = ys.length := by
  simpa using congrArg List.length h

theorem concat_iff :
    SameLetters (xs ++ [c]) (ys ++ [d]) ↔ SameLetters xs ys ∧ c.toLower = d.toLower := by
  simp only [SameLetters, List.map_append, List.map_cons, List.map_nil]
  rw [← List.concat_eq_append, ← List.concat_eq_append, List.concat_inj]

/-- A character that is no letter stands in both texts or in neither. -/
theorem mem_iff (h : SameLetters xs ys) (hc : c.isAlpha = false) : c ∈ xs ↔ c ∈ ys := by
  have hmem (zs : List Char) : c ∈ zs ↔ c ∈ zs.map Char.toLower := by
    simp [List.mem_map, toLower_eq_iff hc]
  rw [hmem xs, hmem ys, h]

/-- A text without letters has no other spelling. -/
theorem eq_of_forall (h : SameLetters xs ys) (hys : ∀ c ∈ ys, c.isAlpha = false) : xs = ys := by
  induction xs generalizing ys with
  | nil => exact (List.map_eq_nil_iff.mp h.symm).symm
  | cons x xs ih =>
      obtain ⟨y, ys, rfl⟩ : ∃ y zs, ys = y :: zs :=
        List.exists_cons_of_length_pos (by rw [← h.length_eq]; exact Nat.succ_pos _)
      rw [List.forall_mem_cons] at hys
      obtain ⟨hxy, hrest⟩ := List.cons_eq_cons.mp h
      have hy : y.toLower = y := (toLower_eq_iff hys.1).mpr rfl
      rw [hy, toLower_eq_iff hys.1] at hxy
      rw [hxy, ih hrest hys.2]

end SameLetters

end Text

open Text (SameLetters)

namespace Number

variable {c : Char} {d n : Nat} {ds : List Char}

theorem bounds_of_hexDigit? (h : hexDigit? c = some d) : d < 16 ∧ c.toNat < 128 := by
  simp only [hexDigit?, Char.le_def, UInt32.le_iff_toNat_le, Bool.and_eq_true, decide_eq_true_eq,
    Char.toNat_val] at h
  simp only [Char.reduceToNat] at h
  split at h
  · obtain rfl := Option.some.inj h
    omega
  · split at h
    · obtain rfl := Option.some.inj h
      omega
    · split at h
      · obtain rfl := Option.some.inj h
        omega
      · cases h

theorem hexDigit?_ascii : ∀ n < 128, ∀ d < 16,
    (hexDigit? (Char.ofNat n) = some d ↔ (Char.ofNat n).toLower = (hexChar d).toLower) := by
  decide +kernel

theorem toNat_hexChar_lt : ∀ d < 16, (hexChar d).toLower.toNat < 128 := by
  decide

/-- The digits with a value are the written digit and its lower case. -/
theorem hexDigit?_eq_some_iff :
    hexDigit? c = some d ↔ d < 16 ∧ c.toLower = (hexChar d).toLower := by
  constructor
  · intro h
    obtain ⟨hd, hc⟩ := bounds_of_hexDigit? h
    have := hexDigit?_ascii c.toNat hc d hd
    rw [Char.ofNat_toNat] at this
    exact ⟨hd, this.mp h⟩
  · rintro ⟨hd, h⟩
    have hc : c.toNat < 128 := by
      have hlower := toNat_hexChar_lt d hd
      rw [← h, Text.toNat_toLower] at hlower
      split at hlower <;> omega
    have := hexDigit?_ascii c.toNat hc d hd
    rw [Char.ofNat_toNat] at this
    exact this.mpr h

/-- The last digit of a digit string is the last digit of its value. -/
theorem hexValue?_concat_eq_some_iff :
    hexValue? 0 (ds ++ [c]) = some n ↔
      hexValue? 0 ds = some (n / 16) ∧ hexDigit? c = some (n % 16) := by
  rw [hexValue?_append, Option.bind_eq_some_iff]
  constructor
  · rintro ⟨m, hm, hlast⟩
    obtain ⟨d, hd, hn⟩ := Option.bind_eq_some_iff.mp hlast
    obtain ⟨hlt, -⟩ := bounds_of_hexDigit? hd
    obtain rfl : 16 * m + d = n := Option.some.inj hn
    have hdiv : (16 * m + d) / 16 = m := by omega
    have hmod : (16 * m + d) % 16 = d := by omega
    exact ⟨by rw [hdiv, hm], by rw [hmod, hd]⟩
  · rintro ⟨hm, hd⟩
    have hn : 16 * (n / 16) + n % 16 = n := Nat.div_add_mod n 16
    exact ⟨n / 16, hm, by simp [hexValue?, hd, hn]⟩

/-- A digit string has the value whose digits it shows. -/
theorem hexValue?_eq_some_iff :
    hexValue? 0 ds = some n ↔ n < 16 ^ ds.length ∧ SameLetters ds (hexText ds.length n) := by
  induction ds using List.reverseRecOn generalizing n with
  | nil => simp [hexValue?, hexText, SameLetters, eq_comm]
  | append_singleton ds c ih =>
      have hlt : n / 16 < 16 ^ ds.length ↔ n < 16 ^ (ds.length + 1) := by
        rw [Nat.div_lt_iff_lt_mul (by decide), Nat.pow_succ]
      have hmod : n % 16 < 16 := Nat.mod_lt n (by decide)
      rw [hexValue?_concat_eq_some_iff, ih, hexDigit?_eq_some_iff, List.length_append,
        List.length_singleton, hexText, SameLetters.concat_iff, hlt]
      simp only [hmod, true_and, and_assoc]

/-- Only the digits that are shown matter. -/
theorem hexText_mod (width n : Nat) : hexText width (n % 16 ^ width) = hexText width n := by
  induction width generalizing n with
  | zero => rfl
  | succ width ih =>
      have hdiv : n % 16 ^ (width + 1) / 16 = n / 16 % 16 ^ width := by
        rw [Nat.pow_succ, Nat.mul_comm, Nat.mod_mul_right_div_self]
      have hmod : n % 16 ^ (width + 1) % 16 = n % 16 :=
        Nat.mod_mod_of_dvd n ⟨16 ^ width, by rw [Nat.pow_succ, Nat.mul_comm]⟩
      rw [hexText, hexText, hdiv, hmod, ih]

end Number

namespace Identity

variable {i : Identity} {s : String} {group : List Char} {width n : Nat}

/-- A group with a zero in place of a plus sign in front. -/
def unsignedGroup : List Char → List Char
  | '+' :: digits => '0' :: digits
  | group => group

/-- The groups of a text with zeros in place of plus signs in front. The fourth group is read as
no number, so it stays as it is. -/
def unsignedGroups (s : String) : List (List Char) :=
  (splitGroups s.toList).mapIdx fun place group => if place = 3 then group else unsignedGroup group

/-- A text with zeros in place of the plus signs in front of its groups. -/
def unsigned (s : String) : List Char :=
  ['-'].intercalate (unsignedGroups s)

@[simp] theorem length_unsignedGroup (group : List Char) :
    (unsignedGroup group).length = group.length := by
  unfold unsignedGroup
  split <;> rfl

theorem groupValue?_eq (h : 1 < group.length) :
    groupValue? group = Number.hexValue? 0 (unsignedGroup group) := by
  unfold groupValue? unsignedGroup
  split
  · next digits =>
    have hne : digits ≠ [] := by
      rintro rfl
      exact absurd h (by decide)
    simp [hne, Number.hexValue?, Number.hexDigit?]
  · have hne : group ≠ [] := List.ne_nil_of_length_pos (by omega)
    simp [hne]

/-- A group is the printed group of a number, up to the case of letters and a plus sign. -/
def ShowsGroup (width n : Nat) (group : List Char) : Prop :=
  SameLetters (unsignedGroup group) (Number.hexText width n)

/-- A group of digits is read as the number whose printed group it shows. -/
theorem showsGroup_iff (h : 1 < width) :
    ShowsGroup width n group ↔
      group.length = width ∧ groupValue? group = some (n % 16 ^ width) := by
  have hlt : n % 16 ^ width < 16 ^ width := Nat.mod_lt n (Nat.pow_pos (by decide))
  constructor
  · intro hshows
    have hlength : group.length = width := by simpa using hshows.length_eq
    subst hlength
    rw [groupValue?_eq h, Number.hexValue?_eq_some_iff, length_unsignedGroup, Number.hexText_mod]
    exact ⟨rfl, hlt, hshows⟩
  · rintro ⟨rfl, hvalue⟩
    rw [groupValue?_eq h, Number.hexValue?_eq_some_iff, length_unsignedGroup,
      Number.hexText_mod] at hvalue
    exact hvalue.2

theorem lt_of_groupValue? (h : 1 < group.length) (hvalue : groupValue? group = some n) :
    n < 16 ^ group.length := by
  rw [groupValue?_eq h, Number.hexValue?_eq_some_iff, length_unsignedGroup] at hvalue
  exact hvalue.1

theorem splitGroups_eq_splitOn (cs : List Char) : splitGroups cs = cs.splitOn '-' := by
  induction cs with
  | nil => rfl
  | cons c rest ih =>
      rw [splitGroups, List.splitOn_cons_eq_if_modifyHead, ih]
      have hne := List.splitOn_ne_nil '-' rest
      cases h : rest.splitOn '-' with
      | nil => exact absurd h hne
      | cons group groups => rfl

theorem hyphen_not_mem_of_mem_splitGroups {cs : List Char} :
    ∀ group ∈ splitGroups cs, '-' ∉ group := by
  induction cs with
  | nil => simp [splitGroups]
  | cons c rest ih =>
      rw [splitGroups]
      split
      · simpa using ih
      · next hc =>
        have hc : ¬ c = '-' := by simpa using hc
        cases h : splitGroups rest with
        | nil => simpa using Ne.symm hc
        | cons group groups =>
            rw [h, List.forall_mem_cons] at ih
            rw [List.forall_mem_cons]
            exact ⟨by simpa [Ne.symm hc] using ih.1, ih.2⟩

/-- Where a text is split does not depend on the case of its letters. -/
theorem splitGroups_map_toLower (cs : List Char) :
    splitGroups (cs.map Char.toLower) = (splitGroups cs).map (·.map Char.toLower) := by
  induction cs with
  | nil => rfl
  | cons c rest ih =>
      have hc : (c.toLower == '-') = (c == '-') :=
        Bool.eq_iff_iff.mpr (by simp [Text.toLower_eq_iff])
      rw [List.map_cons, splitGroups, splitGroups, ih, hc]
      split
      · rfl
      · cases splitGroups rest <;> rfl

theorem joined_eq {high middle low : Nat} (hmiddle : middle < 16 ^ 4) (hlow : low < 16 ^ 4) :
    high <<< 32 ||| middle <<< 16 ||| low = high * 2 ^ 32 + middle * 2 ^ 16 + low := by
  have hupper : high * 2 ^ 32 ||| middle * 2 ^ 16 = high * 2 ^ 32 + middle * 2 ^ 16 := by
    have h := Nat.two_pow_add_eq_or_of_lt (i := 32) (b := middle * 2 ^ 16) (by omega) high
    rw [Nat.mul_comm, ← h]
  have h := Nat.two_pow_add_eq_or_of_lt (i := 16) (b := low) (by omega)
    (high * 2 ^ 16 + middle)
  have hshift : 2 ^ 16 * (high * 2 ^ 16 + middle) = high * 2 ^ 32 + middle * 2 ^ 16 := by omega
  rw [Nat.shiftLeft_eq, Nat.shiftLeft_eq, hupper, ← hshift, h]

/-- What is read, group by group. -/
theorem exists_of_parse? (h : parse? s = some i) :
    ∃ high middle low process a b c d,
      splitGroups s.toList = [high, middle, low, ['0', '0', '0', '0'], process] ∧
        (high.length = 8 ∧ groupValue? high = some a) ∧
        (middle.length = 4 ∧ groupValue? middle = some b) ∧
        (low.length = 4 ∧ groupValue? low = some c) ∧
        (process.length = 12 ∧ groupValue? process = some d) ∧
        d < UInt32.size ∧
        i = ⟨UInt32.ofNat d, UInt64.ofNat (a <<< 32 ||| b <<< 16 ||| c)⟩ := by
  unfold parse? at h
  split at h
  · next high middle low zero process hsplit =>
    split at h
    · next hwidths =>
      obtain ⟨hhigh, hmiddle, hlow, rfl, hprocess⟩ := hwidths
      obtain ⟨a, ha, h⟩ := Option.bind_eq_some_iff.mp h
      obtain ⟨b, hb, h⟩ := Option.bind_eq_some_iff.mp h
      obtain ⟨c, hc, h⟩ := Option.bind_eq_some_iff.mp h
      obtain ⟨d, hd, h⟩ := Option.bind_eq_some_iff.mp h
      split at h
      · next hlt =>
        exact ⟨high, middle, low, process, a, b, c, d, hsplit, ⟨hhigh, ha⟩, ⟨hmiddle, hb⟩,
          ⟨hlow, hc⟩, ⟨hprocess, hd⟩, hlt, (Option.some.inj h).symm⟩
      · cases h
    · cases h
  · cases h

/-- A text is read as an identity if its groups show those of the identity. -/
theorem parse?_eq_some_iff :
    parse? s = some i ↔ ∃ high middle low process,
      splitGroups s.toList = [high, middle, low, ['0', '0', '0', '0'], process] ∧
        ShowsGroup 8 (i.element.toNat >>> 32) high ∧
        ShowsGroup 4 (i.element.toNat >>> 16) middle ∧ ShowsGroup 4 i.element.toNat low ∧
        ShowsGroup 12 i.process.toNat process := by
  simp only [showsGroup_iff (by decide : 1 < 8), showsGroup_iff (by decide : 1 < 4),
    showsGroup_iff (by decide : 1 < 12)]
  constructor
  · intro h
    obtain ⟨high, middle, low, process, a, b, c, d, hsplit, ⟨hhigh, ha⟩, ⟨hmiddle, hb⟩,
      ⟨hlow, hc⟩, ⟨hprocess, hd⟩, hlt, rfl⟩ := exists_of_parse? h
    have hlta := lt_of_groupValue? (by omega) ha
    have hltb := lt_of_groupValue? (by omega) hb
    have hltc := lt_of_groupValue? (by omega) hc
    rw [hhigh] at hlta
    rw [hmiddle] at hltb
    rw [hlow] at hltc
    have helement : (UInt64.ofNat (a <<< 32 ||| b <<< 16 ||| c)).toNat =
        a * 2 ^ 32 + b * 2 ^ 16 + c := by
      rw [joined_eq hltb hltc, UInt64.toNat_ofNat']
      omega
    have hhalf : (a * 2 ^ 32 + b * 2 ^ 16 + c) >>> 32 % 16 ^ 8 = a := by omega
    have hquarter : (a * 2 ^ 32 + b * 2 ^ 16 + c) >>> 16 % 16 ^ 4 = b := by omega
    have hrest : (a * 2 ^ 32 + b * 2 ^ 16 + c) % 16 ^ 4 = c := by omega
    have hd' : (UInt32.ofNat d).toNat % 16 ^ 12 = d := by
      rw [UInt32.toNat_ofNat', Nat.mod_eq_of_lt hlt]
      exact Nat.mod_eq_of_lt (hlt.trans (by decide))
    refine ⟨high, middle, low, process, hsplit, ⟨hhigh, ?_⟩, ⟨hmiddle, ?_⟩, ⟨hlow, ?_⟩,
      hprocess, by rw [hd', hd]⟩
    · rw [helement, hhalf, ha]
    · rw [helement, hquarter, hb]
    · rw [helement, hrest, hc]
  · rintro ⟨high, middle, low, process, hsplit, ⟨hhigh, ha⟩, ⟨hmiddle, hb⟩, ⟨hlow, hc⟩,
      hprocess, hd⟩
    have helement := i.element.toNat_lt
    have hlt : i.process.toNat < UInt32.size := i.process.toNat_lt
    have hd' : i.process.toNat % 16 ^ 12 = i.process.toNat :=
      Nat.mod_eq_of_lt (hlt.trans (by decide))
    have hjoined : (i.element.toNat >>> 32 % 16 ^ 8) <<< 32 |||
        (i.element.toNat >>> 16 % 16 ^ 4) <<< 16 ||| i.element.toNat % 16 ^ 4 =
          i.element.toNat := by
      rw [joined_eq (Nat.mod_lt _ (by decide)) (Nat.mod_lt _ (by decide))]
      omega
    rw [hd'] at hd
    simp only [parse?, hsplit, hhigh, hmiddle, hlow, hprocess, ha, hb, hc, hd, hlt, and_self,
      if_true, Option.bind_eq_bind, Option.bind_some, hjoined, UInt32.ofNat_toNat,
      UInt64.ofNat_toNat]

theorem intercalate_splitGroups (cs : List Char) : ['-'].intercalate (splitGroups cs) = cs := by
  rw [splitGroups_eq_splitOn, List.intercalate_splitOn]

theorem splitGroups_intercalate {groups : List (List Char)} (hne : groups ≠ [])
    (h : ∀ group ∈ groups, '-' ∉ group) : splitGroups (['-'].intercalate groups) = groups := by
  rw [splitGroups_eq_splitOn, List.splitOn_intercalate '-' h hne]

theorem map_toLower_intercalate (groups : List (List Char)) :
    (['-'].intercalate groups).map Char.toLower =
      ['-'].intercalate (groups.map (·.map Char.toLower)) := by
  cases groups with
  | nil => rfl
  | cons group groups =>
      simp only [List.map_cons, Text.intercalate_cons, List.map_append, List.map_flatMap,
        List.flatMap_map]
      rfl

theorem mem_intercalate_iff {groups : List (List Char)} {c : Char} (hc : c ≠ '-') :
    c ∈ ['-'].intercalate groups ↔ ∃ group ∈ groups, c ∈ group := by
  cases groups with
  | nil => simp
  | cons group groups => simp [Text.intercalate_cons, hc]

/-- Two texts agree up to the case of letters if their groups do. -/
theorem sameLetters_intercalate_iff {groups others : List (List Char)} (hne : groups ≠ [])
    (hgroups : ∀ group ∈ groups, '-' ∉ group) (hne' : others ≠ [])
    (hothers : ∀ group ∈ others, '-' ∉ group) :
    SameLetters (['-'].intercalate groups) (['-'].intercalate others) ↔
      groups.map (·.map Char.toLower) = others.map (·.map Char.toLower) := by
  constructor
  · intro h
    have hsplit := congrArg splitGroups h
    rwa [splitGroups_map_toLower, splitGroups_map_toLower, splitGroups_intercalate hne hgroups,
      splitGroups_intercalate hne' hothers] at hsplit
  · intro h
    rw [SameLetters, map_toLower_intercalate, map_toLower_intercalate, h]

theorem isAlphanum_hexChar : ∀ d < 16, (Number.hexChar d).isAlphanum = true := by
  decide

theorem isAlphanum_of_mem_hexText {c : Char} (h : c ∈ Number.hexText width n) :
    c.isAlphanum = true := by
  induction width generalizing n with
  | zero => cases h
  | succ width ih =>
      rw [Number.hexText, List.mem_append, List.mem_singleton] at h
      rcases h with h | rfl
      · exact ih h
      · exact isAlphanum_hexChar _ (Nat.mod_lt n (by decide))

theorem isAlphanum_of_mem_groups : ∀ group ∈ i.groups, ∀ c ∈ group, c.isAlphanum = true := by
  simp only [groups, List.forall_mem_cons]
  exact ⟨fun _ => isAlphanum_of_mem_hexText, fun _ => isAlphanum_of_mem_hexText,
    fun _ => isAlphanum_of_mem_hexText, fun _ => isAlphanum_of_mem_hexText,
    fun _ => isAlphanum_of_mem_hexText, by simp⟩

theorem groups_ne_nil (i : Identity) : i.groups ≠ [] :=
  List.cons_ne_nil _ _

theorem hyphen_not_mem_groups : ∀ group ∈ i.groups, '-' ∉ group := by
  intro group hgroup hmem
  have := isAlphanum_of_mem_groups group hgroup '-' hmem
  contradiction

theorem hyphen_not_mem_unsignedGroup (h : '-' ∉ group) : '-' ∉ unsignedGroup group := by
  unfold unsignedGroup
  split
  · simpa using h
  · exact h

theorem unsignedGroups_ne_nil (s : String) : unsignedGroups s ≠ [] := by
  rw [unsignedGroups, Ne, List.mapIdx_eq_nil_iff, splitGroups_eq_splitOn]
  exact List.splitOn_ne_nil '-' s.toList

theorem hyphen_not_mem_unsignedGroups : ∀ group ∈ unsignedGroups s, '-' ∉ group := by
  intro group hgroup
  obtain ⟨place, hlt, rfl⟩ := List.mem_mapIdx.mp hgroup
  have hmem := hyphen_not_mem_of_mem_splitGroups _ (List.getElem_mem hlt)
  split
  · exact hmem
  · exact hyphen_not_mem_unsignedGroup hmem

theorem unsignedGroups_of_split {high middle low zero process : List Char}
    (h : splitGroups s.toList = [high, middle, low, zero, process]) :
    unsignedGroups s =
      [unsignedGroup high, unsignedGroup middle, unsignedGroup low, zero,
        unsignedGroup process] := by
  rw [unsignedGroups, h]
  rfl

theorem exists_of_length_eq_five {α : Type} {xs : List α} (h : xs.length = 5) :
    ∃ a b c d e, xs = [a, b, c, d, e] := by
  match xs, h with
  | [a, b, c, d, e], _ => exact ⟨a, b, c, d, e, rfl⟩

/-- A text spells an identity if it is the printed text up to the case of letters, once the plus
signs in front of its groups are replaced by zeros. -/
theorem parse?_eq_some_iff_unsigned :
    parse? s = some i ↔ SameLetters (unsigned s) i.text.toList := by
  rw [text, String.toList_ofList, unsigned,
    sameLetters_intercalate_iff (unsignedGroups_ne_nil s) hyphen_not_mem_unsignedGroups
      i.groups_ne_nil hyphen_not_mem_groups, parse?_eq_some_iff]
  constructor
  · rintro ⟨high, middle, low, process, hsplit, hhigh, hmiddle, hlow, hprocess⟩
    rw [unsignedGroups_of_split hsplit]
    simp only [groups, List.map_cons, List.map_nil, List.cons.injEq, and_true]
    exact ⟨hhigh, hmiddle, hlow, by decide, hprocess⟩
  · intro h
    obtain ⟨high, middle, low, zero, process, hsplit⟩ :
        ∃ high middle low zero process,
          splitGroups s.toList = [high, middle, low, zero, process] := by
      have hlength := congrArg List.length h
      rw [List.length_map, List.length_map, unsignedGroups, List.length_mapIdx] at hlength
      exact exists_of_length_eq_five hlength
    rw [unsignedGroups_of_split hsplit] at h
    simp only [groups, List.map_cons, List.map_nil, List.cons.injEq, and_true] at h
    obtain ⟨hhigh, hmiddle, hlow, hzero, hprocess⟩ := h
    have hzero : zero = ['0', '0', '0', '0'] :=
      SameLetters.eq_of_forall hzero (Text.forall_mem_of_all (by decide))
    exact ⟨high, middle, low, process, by rw [hsplit, hzero], hhigh, hmiddle, hlow, hprocess⟩

theorem unsignedGroup_of_not_mem (h : '+' ∉ group) : unsignedGroup group = group := by
  unfold unsignedGroup
  split
  · exact absurd List.mem_cons_self h
  · rfl

/-- A text without plus signs stays as it is. -/
theorem unsigned_of_not_mem (h : '+' ∉ s.toList) : unsigned s = s.toList := by
  have hgroups : ∀ group ∈ splitGroups s.toList, '+' ∉ group := by
    intro group hgroup hmem
    rw [← intercalate_splitGroups s.toList, mem_intercalate_iff (by decide)] at h
    exact h ⟨group, hgroup, hmem⟩
  have hsame : unsignedGroups s = splitGroups s.toList := by
    refine List.ext_getElem List.length_mapIdx fun place hlt hlt' => ?_
    simp only [unsignedGroups, List.getElem_mapIdx]
    split
    · rfl
    · exact unsignedGroup_of_not_mem (hgroups _ (List.getElem_mem hlt'))
  rw [unsigned, hsame, intercalate_splitGroups]

theorem plus_not_mem_text (i : Identity) : '+' ∉ i.text.toList := by
  rw [text, String.toList_ofList, mem_intercalate_iff (by decide)]
  rintro ⟨group, hgroup, hmem⟩
  have := isAlphanum_of_mem_groups group hgroup '+' hmem
  contradiction

theorem parse_eq_ok_iff : parse s = .ok i ↔ parse? s = some i := by
  unfold parse
  cases parse? s <;> simp

/-- A text is read as an identity exactly if, with zeros in place of the plus signs in front of its
groups, it is the printed text of that identity up to the case of letters. What is read is such a
spelling as it stands exactly if it has no plus sign. Every other text is refused as an argument. -/
theorem parse_spelling (s : String) :
    (∀ i, parse s = .ok i ↔ SameLetters (unsigned s) i.text.toList) ∧
      (∀ i, parse s = .ok i → (SameLetters s.toList i.text.toList ↔ '+' ∉ s.toList)) ∧
      ((∀ i, parse s ≠ .ok i) → parse s = .error (.invalidArgument (.notAnIdentity s))) := by
  have hspelling (i : Identity) : parse s = .ok i ↔ SameLetters (unsigned s) i.text.toList := by
    rw [parse_eq_ok_iff, parse?_eq_some_iff_unsigned]
  refine ⟨hspelling, fun i h => ⟨fun hsame => ?_, fun hplus => ?_⟩, fun hnone => ?_⟩
  · rw [hsame.mem_iff (by decide)]
    exact plus_not_mem_text i
  · rw [hspelling, unsigned_of_not_mem hplus] at h
    exact h
  · unfold parse at hnone ⊢
    cases h : parse? s with
    | none => rfl
    | some i => exact absurd (by rw [h]) (hnone i)

/-- A plus sign takes the place of the first digit: the text is read, and it is not the printed text
of what is read. -/
theorem parse_leading_plus :
    parse "+0000001-0002-0003-0000-0000000001F4" = .ok ⟨0x1F4, 0x100020003⟩ ∧
      ¬ SameLetters "+0000001-0002-0003-0000-0000000001F4".toList
        (text ⟨0x1F4, 0x100020003⟩).toList :=
  ⟨rfl, by decide⟩

end Identity

end UiTree
