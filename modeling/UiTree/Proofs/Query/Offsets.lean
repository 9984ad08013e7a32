import UiTree.Proofs.Query.Tiling
import UiTree.Proofs.Predicate.Scan

/-!
# Offsets that point into the text

A query or a predicate that is refused is refused with its own text and an offset at the boundary of
a character of it. On the way there, every cut of the text is sound, so nothing that is cut out ever
had to count as the empty text.
-/

namespace UiTree

open Text (Boundary Leaves)
open Query (Refusal Judged)

variable {α : Type} {text : String} {pos : Nat}

/-- The error of a text that was refused carries the text and the offset of the boundary of a
character of it. -/
def Error.PointsInto (text : String) : Error → Prop
  | .invalidQuery query offset _ =>
    query = text ∧ offset ≤ text.utf8ByteSize ∧ Boundary text offset
  | _ => True

namespace Query

theorem Refusal.pointsInto {refusal : Refusal} {R : α → Prop}
    (h : Judged (Boundary text) R (.error refusal)) :
    (refusal.toError text).PointsInto text := by
  cases refusal with
  | malformed offset fault => exact ⟨rfl, h.le, h⟩
  | unknownAttribute => trivial

theorem Tiled.within {offset : Nat} {cs : List Char} {found : List Located}
    (h : Tiled offset cs found) (hleaves : Leaves text offset cs) :
    Within (Boundary text) found := by
  induction h with
  | done => exact fun _ ht => absurd ht List.not_mem_nil
  | blank _ _ ih => exact ih hleaves.cons
  | token _ _ ih => exact List.forall_mem_cons.mpr ⟨hleaves.boundary, ih hleaves.advance⟩

theorem Reported.boundary_of_error {offset i : Nat} {cs : List Char} {fault : SyntaxFault}
    (h : Reported offset cs (.error (i, fault))) (hleaves : Leaves text offset cs) :
    Boundary text i := by
  cases h <;> exact hleaves.advance.boundary

theorem Reported.within_of_ok {offset : Nat} {cs : List Char} {found : List Located}
    (h : Reported offset cs (.ok found)) (hleaves : Leaves text offset cs) :
    Within (Boundary text) found := by
  cases h with
  | tokens h _ => exact h.within hleaves

theorem parse_judged (text : String) :
    Judged (Boundary text) (fun _ => True) (parse text) := by
  have hreported := tokenize_reported text
  unfold parse
  split
  · next heq => exact (heq ▸ hreported).boundary_of_error (.start text)
  · next ts heq =>
    refine parseTokens_judged String.Pos.Raw.isValid_zero String.Pos.Raw.isValid_rawEndPos ?_
    exact (heq ▸ hreported).within_of_ok (.start text)

theorem compile_pointsInto {e : Error} (h : compile text = .error e) : e.PointsInto text := by
  have hjudged := parse_judged text
  unfold compile at h
  split at h
  · next refusal heq =>
    cases h
    exact Refusal.pointsInto (heq ▸ hjudged)
  · split at h
    · cases h
    · cases h
      exact ⟨rfl, Nat.zero_le _, String.Pos.Raw.isValid_zero⟩

end Query

theorem Predicate.parse_pointsInto {e : Error} (h : Predicate.parse text = .error e) :
    e.PointsInto text := by
  have hjudged := (Predicate.scan_follows text).judged
  unfold Predicate.parse at h
  split at h
  · cases h
  · next refusal heq =>
    cases h
    exact Query.Refusal.pointsInto (heq ▸ hjudged)

/-- Every query or predicate that is refused is refused at a boundary of its own text; and whoever
reads it by byte positions reads the same and never cuts where nothing can be cut out. -/
theorem errors_and_cuts_at_boundaries (text : String) :
    (∀ e, Query.compile text = .error e → e.PointsInto text) ∧
    (∀ e, Predicate.parse text = .error e → e.PointsInto text) ∧
    ((Query.scan text).outcome = Query.tokenize text ∧
      ∀ cut ∈ (Query.scan text).cuts, cut.Sound ∧ cut.piece?.isSome = true) ∧
    (∀ limit, text.toList.length < limit →
      (Predicate.scanClauses text limit 0).outcome =
        Predicate.readClauses (text.toList.length + 1) (Cursor.ofText text)) ∧
    ∀ limit, ∀ cut ∈ (Predicate.scanClauses text limit 0).cuts,
      cut.Sound ∧ cut.piece?.isSome = true := by
  refine ⟨fun e => Query.compile_pointsInto, fun e => Predicate.parse_pointsInto,
    ⟨(Query.scan_yields text).outcome, fun cut hcut => ?_⟩,
    fun limit hlimit => ?_, fun limit cut hcut => ?_⟩
  · have hsound := (Query.scan_yields text).sound cut hcut
    exact ⟨hsound, hsound.isSome_piece?⟩
  · rw [(Predicate.scanClauses_follows (.start text) limit).related.eq]
    exact Predicate.readClauses_limit _ _ hlimit (Nat.lt_succ_self _)
  · have hsound := (Predicate.scanClauses_follows (.start text) limit).sound cut hcut
    exact ⟨hsound, hsound.isSome_piece?⟩

theorem dollar_pointsInto :
    (Error.invalidQuery "//a[$x]" 4 (.unexpectedCharacter '$')).PointsInto "//a[$x]" :=
  (errors_and_cuts_at_boundaries "//a[$x]").1 _ (by rfl)

end UiTree
