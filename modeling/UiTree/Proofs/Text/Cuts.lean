import UiTree.Text.Cut

/-!
# Cuts that are sound

A byte position leaves some characters of a text if it comes right before them. Such a position is
at the boundary of a character, so what is cut out between two of them is what stands there. A scan
yields an outcome if it has this outcome and all its cuts are sound.
-/

namespace UiTree.Text

variable {cs xs ys before after rest : List Char} {n pos : Nat} {text : String}

theorem splitBytes?_append (before after : List Char) :
    splitBytes? (byteLength before) (before ++ after) = some (before, after) := by
  induction before with
  | nil => cases after <;> rfl
  | cons c before ih =>
      obtain ⟨n, hn⟩ := Nat.exists_eq_succ_of_ne_zero (Nat.ne_of_gt c.utf8Size_pos)
      have hleft : c.utf8Size + byteLength before = n + byteLength before + 1 := by omega
      have hsub : n + byteLength before + 1 - c.utf8Size = byteLength before := by omega
      rw [byteLength_cons, hleft, List.cons_append, splitBytes?, if_pos (by omega), hsub, ih]
      rfl

theorem splitBytes?_eq_some_iff :
    splitBytes? n cs = some (before, after) ↔ cs = before ++ after ∧ byteLength before = n := by
  constructor
  · intro h
    induction cs generalizing n before with
    | nil =>
        cases n with
        | zero =>
            cases h
            exact ⟨rfl, rfl⟩
        | succ n => cases h
    | cons c cs ih =>
        cases n with
        | zero =>
            cases h
            exact ⟨rfl, rfl⟩
        | succ n =>
            rw [splitBytes?] at h
            obtain ⟨hle, h⟩ := Option.ite_none_right_eq_some.mp h
            obtain ⟨⟨before, after⟩, hsplit, heq⟩ := Option.map_eq_some_iff.mp h
            cases heq
            obtain ⟨rfl, hlength⟩ := ih hsplit
            exact ⟨rfl, by rw [byteLength_cons]; omega⟩
  · rintro ⟨rfl, rfl⟩
    exact splitBytes?_append before after

theorem byteLength_pos (h : cs ≠ []) : 0 < byteLength cs := by
  obtain ⟨c, rest, rfl⟩ := List.exists_cons_of_ne_nil h
  have := c.utf8Size_pos
  rw [byteLength_cons]
  omega

theorem utf8ByteSize_ofList (cs : List Char) : (String.ofList cs).utf8ByteSize = byteLength cs := by
  induction cs with
  | nil => rfl
  | cons c cs ih =>
      have hsplit : String.ofList (c :: cs) = String.singleton c ++ String.ofList cs := by
        rw [String.singleton_eq_ofList, ← String.ofList_append]
        rfl
      rw [hsplit, String.utf8ByteSize_append, String.utf8ByteSize_singleton, ih, byteLength_cons]

theorem utf8ByteSize_eq_byteLength (text : String) :
    text.utf8ByteSize = byteLength text.toList := by
  rw [← utf8ByteSize_ofList, String.ofList_toList]

theorem isEmpty_ofList (cs : List Char) : (String.ofList cs).isEmpty = cs.isEmpty := by
  rw [Bool.eq_iff_iff, String.isEmpty_iff, List.isEmpty_iff, String.ofList_eq_empty_iff]

theorem utf8Size_toLower (c : Char) : c.toLower.utf8Size = c.utf8Size := by
  unfold Char.toLower
  split
  · next hupper =>
    simp only [ge_iff_le, UInt32.le_iff_toNat_le] at hupper
    have hsize : c.utf8Size = 1 := by
      rw [Char.utf8Size_eq_one_iff, UInt32.le_iff_toNat_le]
      exact Nat.le_trans hupper.2 (by decide)
    rw [hsize, Char.utf8Size_eq_one_iff, UInt32.le_iff_toNat_le]
    simp [UInt32.toNat_add] at hupper ⊢
    omega
  · rfl

/-- Characters that are the same in lower case take as many bytes. -/
theorem byteLength_of_map_toLower {xs ys : List Char}
    (h : xs.map Char.toLower = ys.map Char.toLower) : byteLength xs = byteLength ys := by
  have hlower (zs : List Char) : byteLength (zs.map Char.toLower) = byteLength zs := by
    induction zs with
    | nil => rfl
    | cons z zs ih =>
        rw [List.map_cons, byteLength_cons, ih, utf8Size_toLower, byteLength_cons]
  rw [← hlower, h, hlower]

/-- The first character with a property comes right after the characters without it. -/
theorem findByte?_eq (p : Char → Bool) (cs : List Char) :
    findByte? p cs = if (cs.takeWhile (!p ·)).length < cs.length then
      some (byteLength (cs.takeWhile (!p ·))) else none := by
  induction cs with
  | nil => rfl
  | cons c cs ih =>
      by_cases hc : p c = true
      · simp [findByte?, hc]
      · simp only [Bool.not_eq_true] at hc
        simp only [findByte?, hc, ih, Bool.false_eq_true, if_false, List.takeWhile_cons,
          Bool.not_false, if_true, List.length_cons, Nat.add_lt_add_iff_right, byteLength_cons]
        split <;> rfl

theorem getD_findByte? (p : Char → Bool) (cs : List Char) :
    (findByte? p cs).getD (byteLength cs) = byteLength (cs.takeWhile (!p ·)) := by
  rw [findByte?_eq]
  split
  · rfl
  · next hlt =>
    have hfirst : cs.takeWhile (!p ·) <+: cs := List.takeWhile_prefix _
    rw [hfirst.eq_of_length (Nat.le_antisymm hfirst.length_le (Nat.not_lt.mp hlt))]
    rfl

/-- A byte position of a text comes right before some characters, which go on to its end. -/
def Leaves (text : String) (pos : Nat) (rest : List Char) : Prop :=
  ∃ before, text.toList = before ++ rest ∧ byteLength before = pos

namespace Leaves

theorem start (text : String) : Leaves text 0 text.toList :=
  ⟨[], rfl, rfl⟩

theorem advance (h : Leaves text pos (xs ++ ys)) : Leaves text (pos + byteLength xs) ys := by
  obtain ⟨before, htext, rfl⟩ := h
  exact ⟨before ++ xs, by rw [htext, List.append_assoc], byteLength_append before xs⟩

theorem cons {c : Char} (h : Leaves text pos (c :: rest)) :
    Leaves text (pos + c.utf8Size) rest := by
  rw [← List.singleton_append] at h
  exact h.advance

theorem boundary (h : Leaves text pos rest) : Boundary text pos := by
  obtain ⟨before, htext, rfl⟩ := h
  refine String.Pos.Raw.isValid_iff_exists_append.mpr
    ⟨String.ofList before, String.ofList rest, ?_, ?_⟩
  · rw [← String.ofList_append, ← htext, String.ofList_toList]
  · rw [String.Pos.Raw.ext_iff, String.byteIdx_rawEndPos, utf8ByteSize_ofList]

theorem stop_eq (h : Leaves text pos rest) : text.utf8ByteSize = pos + byteLength rest := by
  obtain ⟨before, htext, rfl⟩ := h
  rw [utf8ByteSize_eq_byteLength, htext, byteLength_append]

theorem of_boundary (h : Boundary text pos) :
    ∃ rest, Leaves text pos rest := by
  obtain ⟨before, after, rfl, hpos⟩ := String.Pos.Raw.isValid_iff_exists_append.mp h
  refine ⟨after.toList, before.toList, String.toList_append, ?_⟩
  rw [← utf8ByteSize_eq_byteLength]
  exact (congrArg String.Pos.Raw.byteIdx hpos).symm

/-- What lies between two boundaries is a part of the text. -/
theorem exists_append {start stop : Nat} {rest after : List Char}
    (hstart : Leaves text start rest) (hstop : Leaves text stop after) (hle : start ≤ stop) :
    ∃ piece, rest = piece ++ after ∧ stop = start + byteLength piece := by
  obtain ⟨before, htext, rfl⟩ := hstart
  obtain ⟨through, hthrough, rfl⟩ := hstop
  have happend : before ++ rest = through ++ after := htext.symm.trans hthrough
  rcases List.append_eq_append_iff.mp happend with ⟨piece, rfl, rfl⟩ | ⟨piece, rfl, rfl⟩
  · exact ⟨piece, rfl, byteLength_append _ _⟩
  · cases piece with
    | nil => exact ⟨[], rfl, by rw [List.append_nil]; rfl⟩
    | cons c piece =>
        have hsize := c.utf8Size_pos
        rw [byteLength_append, byteLength_cons] at hle
        omega

end Leaves

theorem Boundary.le (h : Boundary text pos) : pos ≤ text.utf8ByteSize := by
  obtain ⟨rest, hleaves⟩ := Leaves.of_boundary h
  rw [hleaves.stop_eq]
  exact Nat.le_add_right _ _

theorem Cut.Sound.of_leaves (h : Leaves text pos (xs ++ ys)) :
    (Cut.mk text pos (pos + byteLength xs)).Sound :=
  ⟨Nat.le_add_right _ _, h.boundary, h.advance.boundary⟩

theorem Cut.piece?_of_leaves (h : Leaves text pos (xs ++ ys)) :
    (Cut.mk text pos (pos + byteLength xs)).piece? = some (String.ofList xs) := by
  obtain ⟨before, htext, rfl⟩ := h
  rw [Cut.piece?, if_pos (Nat.le_add_right _ _), htext, splitBytes?_append, Nat.add_sub_cancel_left]
  exact congrArg (Option.bind · _) (splitBytes?_append xs ys)

/-- A sound cut cuts something out. -/
theorem Cut.Sound.isSome_piece? {cut : Cut} (h : cut.Sound) : cut.piece?.isSome = true := by
  obtain ⟨text, start, stop⟩ := cut
  obtain ⟨rest, hrest⟩ := Leaves.of_boundary h.start_boundary
  obtain ⟨after, hafter⟩ := Leaves.of_boundary h.stop_boundary
  obtain ⟨piece, rfl, hstop⟩ := hrest.exists_append hafter h.le
  dsimp only at hstop hrest
  rw [hstop, Cut.piece?_of_leaves hrest]
  rfl

namespace Scan

variable {ε α β : Type} {a : α} {e : ε} {x : Scan ε α} {f : α → Scan ε β}

/-- The scan has an outcome, and all its cuts are sound. -/
structure Yields (x : Scan ε α) (r : Except ε α) : Prop where
  outcome : x.outcome = r
  sound : ∀ cut ∈ x.cuts, cut.Sound

theorem yields_pure (a : α) : (pure a : Scan ε α).Yields (.ok a) :=
  ⟨rfl, fun _ h => absurd h List.not_mem_nil⟩

theorem yields_fail (e : ε) : (fail e : Scan ε α).Yields (.error e) :=
  ⟨rfl, fun _ h => absurd h List.not_mem_nil⟩

theorem outcome_bind (x : Scan ε α) (f : α → Scan ε β) :
    (x >>= f).outcome = x.outcome >>= fun a => (f a).outcome := by
  obtain ⟨outcome, cuts⟩ := x
  cases outcome <;> rfl

/-- The cuts of scans one after the other are those of both, if there is a second one. -/
theorem sound_bind (hx : ∀ cut ∈ x.cuts, cut.Sound)
    (hf : ∀ a, x.outcome = .ok a → ∀ cut ∈ (f a).cuts, cut.Sound) :
    ∀ cut ∈ (x >>= f).cuts, cut.Sound := by
  obtain ⟨outcome, cuts⟩ := x
  cases outcome with
  | error e => exact hx
  | ok a => exact fun cut hcut => (List.mem_append.mp hcut).elim (hx cut) (hf a rfl cut)

/-- Scans one after the other yield what their outcomes do one after the other. -/
theorem Yields.bind {r : Except ε α} {g : α → Except ε β} (hx : x.Yields r)
    (hf : ∀ a, r = .ok a → (f a).Yields (g a)) : (x >>= f).Yields (r >>= g) := by
  obtain ⟨rfl, hsound⟩ := hx
  refine ⟨?_, sound_bind hsound fun a ha => (hf a ha).sound⟩
  rw [outcome_bind]
  cases h : x.outcome with
  | error e => rfl
  | ok a => exact (hf a h).outcome

theorem Yields.bind_error (hx : x.Yields (.error e)) : (x >>= f).Yields (.error e) := by
  refine ⟨by rw [outcome_bind, hx.outcome]; rfl, sound_bind hx.sound fun a ha => ?_⟩
  rw [hx.outcome] at ha
  cases ha

theorem Yields.bind_ok {r : Except ε β} (hx : x.Yields (.ok a)) (hf : (f a).Yields r) :
    (x >>= f).Yields r := by
  refine ⟨by rw [outcome_bind, hx.outcome]; exact hf.outcome, sound_bind hx.sound fun a' ha => ?_⟩
  rw [hx.outcome] at ha
  cases ha
  exact hf.sound

theorem yields_cut (h : Leaves text pos (xs ++ ys)) :
    (cut text pos (pos + byteLength xs) : Scan ε String).Yields (.ok (String.ofList xs)) := by
  rw [cut, Cut.piece?_of_leaves h]
  exact ⟨rfl, List.forall_mem_singleton.mpr (.of_leaves h)⟩

theorem yields_cutFrom (h : Leaves text pos rest) :
    (cutFrom text pos : Scan ε String).Yields (.ok (String.ofList rest)) := by
  rw [cutFrom, h.stop_eq]
  rw [← rest.append_nil] at h
  exact yields_cut h

theorem yields_cutTo (h : text.toList = xs ++ ys) :
    (cutTo text (byteLength xs) : Scan ε String).Yields (.ok (String.ofList xs)) := by
  have hcut := yields_cut (ε := ε) (⟨[], h, rfl⟩ : Leaves text 0 (xs ++ ys))
  rwa [Nat.zero_add] at hcut

end Scan

end UiTree.Text
