import UiTree.Json.Forms
import UiTree.Proofs.Identity.Spelling
import UiTree.Proofs.Json.Strings

/-!
# Identities read back

An identity is read back from its text, in whatever case the digits are spelled, and from its JSON
text. So no two identities have the same text, not even up to the case of digits.
-/

namespace UiTree.Identity

open Text (SameLetters)

variable {i j : Identity} {s : String}

/-- The printed text has no plus sign, and neither has another spelling of it. -/
theorem parse_of_sameLetters (h : SameLetters s.toList i.text.toList) : parse s = .ok i := by
  have hplus : '+' ∉ s.toList := by
    rw [h.mem_iff (by decide)]
    exact plus_not_mem_text i
  rw [parse_eq_ok_iff, parse?_eq_some_iff_unsigned, unsigned_of_not_mem hplus]
  exact h

theorem parse_text_self (i : Identity) : parse i.text = .ok i :=
  parse_of_sameLetters rfl

theorem eq_of_sameLetters_text (h : SameLetters j.text.toList i.text.toList) : j = i := by
  have hj := parse_text_self j
  rw [parse_of_sameLetters h] at hj
  exact (Except.ok.inj hj).symm

/-- The JSON text of an identity holds its JSON form, which is read as the identity. -/
theorem ofValue?_parse_render (i : Identity) :
    (Json.parse i.toValue.render).bind ofValue? = some i := by
  have hparse : Json.parse i.toValue.render = some i.toValue := by
    rw [toValue, Json.Value.render]
    exact Json.parse_quote i.text
  have htext : parse? i.text = some i := parse_eq_ok_iff.mp (parse_text_self i)
  rw [hparse, Option.bind_some, toValue, ofValue?]
  exact htext

/-- An identity is read back from its text in any mix of upper and lower case, and from its JSON
text. No other identity has its text. -/
theorem parse_recased_text (i : Identity) :
    (∀ s : String, SameLetters s.toList i.text.toList → parse s = .ok i) ∧
      (Json.parse i.toValue.render).bind ofValue? = some i ∧
        ∀ j : Identity, j.text = i.text → j = i := by
  refine ⟨fun s => parse_of_sameLetters, ofValue?_parse_render i, ?_⟩
  intro j htext
  apply eq_of_sameLetters_text
  rw [htext, SameLetters]

/-- A text with letters in every group but the fourth, spelled in both cases. -/
theorem parse_recased_text_mixed :
    let i : Identity := ⟨0xFACE, 0xDEADBEEFCAFEF00D⟩
    i.text = "DEADBEEF-CAFE-F00D-0000-00000000FACE" ∧
      SameLetters "deadBEEF-cafe-F00d-0000-00000000fAcE".toList i.text.toList ∧
        parse "deadBEEF-cafe-F00d-0000-00000000fAcE" = .ok i := by
  intro i
  have hsame : SameLetters "deadBEEF-cafe-F00d-0000-00000000fAcE".toList i.text.toList := by decide
  exact ⟨by decide, hsame, (parse_recased_text i).1 _ hsame⟩

end UiTree.Identity
