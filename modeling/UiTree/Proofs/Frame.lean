import UiTree.Frame

/-!
# Frames that agree

Frames agree exactly if no component differs by more than the margin. So a frame agrees with itself
exactly if its components are finite: the difference of an infinity and itself is not a number, and
no margin is as great as that.
-/

namespace UiTree

open Float.Model

namespace Number

/-- The exponent of a bit pattern, before the bias is taken off. -/
def biasedExponent (bits : UInt64) : Nat :=
  ((bits >>> 52) &&& 0x7FF).toNat

theorem toNat_unpackExponent (bits : UInt64) :
    (@UnpackedFloat.unpackExponent .binary64 bits.toBitVec).toNat =
      biasedExponent bits := by
  simp only [UnpackedFloat.unpackExponent, BitVec.toNat_cast, BitVec.extractLsb_toNat,
    biasedExponent, UInt64.toNat_and, UInt64.toNat_shiftRight]
  exact (Nat.and_two_pow_sub_one_eq_mod _ 11).symm

theorem isFinite_iff_biasedExponent {x : Float} :
    isFinite x ↔ biasedExponent x.toBits ≠ 0x7FF := by
  rw [isFinite, reading, Reading.ofBits]
  by_cases h : ((x.toBits >>> 52) &&& 0x7FF).toNat = 0x7FF
  · refine iff_of_false ?_ fun hne => hne h
    by_cases hfraction : (x.toBits &&& 0xFFFFFFFFFFFFF).toNat = 0
    · rw [if_pos h, if_pos hfraction]
      exact nofun
    · rw [if_pos h, if_neg hfraction]
      exact nofun
  · refine iff_of_true ?_ h
    by_cases hexponent : ((x.toBits >>> 52) &&& 0x7FF).toNat = 0
    · rw [if_neg h, if_pos hexponent]
    · rw [if_neg h, if_neg hexponent]

theorem isFinite_unpack_iff {bits : BitVec 64} :
    (UnpackedFloat.unpack .binary64 bits).isFinite ↔
      @UnpackedFloat.unpackExponent .binary64 bits ≠ -1#11 := by
  delta UnpackedFloat.unpack
  dsimp only
  by_cases h : @UnpackedFloat.unpackExponent .binary64 bits = -1#11
  · refine iff_of_false ?_ fun hne => hne h
    rw [if_pos h]
    split <;> exact Bool.false_ne_true
  · refine iff_of_true ?_ h
    rw [if_neg h]
    by_cases hzero : @UnpackedFloat.unpackExponent .binary64 bits = 0#11
    · rw [if_pos hzero]
      by_cases hmantissa : @UnpackedFloat.unpackMantissa .binary64 bits = 0#52
      · rw [dif_pos hmantissa]
        rfl
      · rw [dif_neg hmantissa]
        rfl
    · rw [if_neg hzero]
      rfl

theorem model_isFinite_iff_biasedExponent {x : Float} :
    x.toModel.unpack.isFinite ↔ biasedExponent x.toBits ≠ 0x7FF := by
  have hones : @UnpackedFloat.unpackExponent .binary64 x.toBits.toBitVec = -1#11 ↔
      biasedExponent x.toBits = 0x7FF := by
    rw [← toNat_unpackExponent, ← BitVec.toNat_inj]
    rfl
  rw [Ne, ← hones]
  exact isFinite_unpack_iff

/-- A number is finite in the sense of its bits exactly if it is in the sense of the arithmetic. -/
theorem isFinite_iff {x : Float} : isFinite x ↔ x.toModel.unpack.isFinite :=
  isFinite_iff_biasedExponent.trans model_isFinite_iff_biasedExponent.symm

theorem sub_self_of_isFinite {x : Float} (h : isFinite x) : x - x = 0 := by
  rw [isFinite_iff] at h
  have hunpacked : UnpackedFloat.sub .binary64 x.toModel.unpack x.toModel.unpack =
      .zero .positive := by
    cases hx : x.toModel.unpack with
    | notANumber | infinity =>
        rw [hx] at h
        cases h
    | zero s => cases s <;> rfl
    | finite s m e hm =>
        let k := s.apply (UnpackedFloat.decreaseExponent m e (min e e)).1
        calc
          _ = UnpackedFloat.normalize .binary64 (k - k) (min e e) .positive := rfl
          _ = UnpackedFloat.normalize .binary64 0 (min e e) .positive := by rw [Int.sub_self]
          _ = .zero .positive := rfl
  calc
    x - x = .ofModel (.pack (.zero .positive)) := congrArg (Float.ofModel ∘ pack) hunpacked
    _ = 0 := by decide +kernel

theorem sub_self_of_not_isFinite {x : Float} (h : ¬ isFinite x) :
    x - x = .ofModel (.pack .notANumber) := by
  rw [isFinite_iff] at h
  have hunpacked : UnpackedFloat.sub .binary64 x.toModel.unpack x.toModel.unpack =
      .notANumber := by
    cases hx : x.toModel.unpack with
    | notANumber => rfl
    | infinity s => cases s <;> rfl
    | zero | finite =>
        rw [hx] at h
        exact absurd rfl h
  exact congrArg (Float.ofModel ∘ pack) hunpacked

theorem abs_zero : Float.abs 0 = 0 := by decide +kernel

theorem abs_notANumber :
    Float.abs (.ofModel (.pack .notANumber)) = .ofModel (.pack .notANumber) := by
  decide +kernel

theorem not_notANumber_le (y : Float) : ¬ Float.ofModel (.pack .notANumber) ≤ y := by
  have hunpacked : (pack .notANumber).unpack = .notANumber := rfl
  have hle : ¬ (pack .notANumber).le y.toModel := by
    rw [Float.Model.le, hunpacked]
    exact nofun
  intro h
  exact hle (of_decide_eq_true h)

end Number

namespace Frame

open Number

/-- A number is near itself exactly if it is finite. -/
theorem near_self_iff {x margin : Float} (h : 0 ≤ margin) : near x x margin ↔ isFinite x := by
  rw [near, decide_eq_true_iff]
  by_cases hx : isFinite x
  · rw [sub_self_of_isFinite hx, abs_zero]
    exact iff_of_true h hx
  · rw [sub_self_of_not_isFinite hx, abs_notANumber]
    exact iff_of_false (not_notANumber_le margin) hx

/-- No component of one frame differs from that of the other by more than the margin. -/
structure Within (f g : Frame) (margin : Float) : Prop where
  x : (f.x - g.x).abs ≤ margin
  y : (f.y - g.y).abs ≤ margin
  width : (f.width - g.width).abs ≤ margin
  height : (f.height - g.height).abs ≤ margin

theorem agrees_iff {f g : Frame} {margin : Float} : f.agrees g margin ↔ f.Within g margin := by
  simp only [agrees, near, Bool.and_eq_true, decide_eq_true_iff, and_assoc]
  constructor
  · rintro ⟨hx, hy, hwidth, hheight⟩
    exact ⟨hx, hy, hwidth, hheight⟩
  · rintro ⟨hx, hy, hwidth, hheight⟩
    exact ⟨hx, hy, hwidth, hheight⟩

/-- Whether all components of a frame are finite. -/
def finite (f : Frame) : Bool :=
  isFinite f.x && isFinite f.y && isFinite f.width && isFinite f.height

theorem within_self_iff {f : Frame} {margin : Float} (h : 0 ≤ margin) :
    f.Within f margin ↔ f.finite := by
  simp only [← agrees_iff, agrees, finite, Bool.and_eq_true, near_self_iff h]

/-- A frame that may not be known agrees with itself exactly if it is known and finite. -/
theorem exists_within_self_iff {frame : Option Frame} {margin : Float} (h : 0 ≤ margin) :
    (∃ f g, frame = some f ∧ frame = some g ∧ f.Within g margin) ↔
      ∃ f, frame = some f ∧ f.finite := by
  constructor
  · rintro ⟨f, g, hf, hg, hwithin⟩
    obtain rfl : f = g := Option.some.inj (hf.symm.trans hg)
    exact ⟨f, hf, (within_self_iff h).mp hwithin⟩
  · rintro ⟨f, hf, hfinite⟩
    exact ⟨f, f, hf, hf, (within_self_iff h).mpr hfinite⟩

end Frame

end UiTree
