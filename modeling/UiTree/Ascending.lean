/-!
# Ascending lists

The members of a list are put in the order of a comparison by inserting one after the other. A
member that neither comes before nor after one that is there already is not inserted again, so the
result has each member once.
-/

namespace UiTree.Ascending

variable {α : Type}

/-- Put a member into an ascending list, unless it is there. -/
def insert (before : α → α → Bool) (a : α) : List α → List α
  | [] => [a]
  | b :: rest =>
    if before a b then a :: b :: rest
    else if before b a then b :: insert before a rest
    else b :: rest

/-- The members of a list in ascending order, each once. -/
def ofList (before : α → α → Bool) (as : List α) : List α :=
  as.foldr (insert before) []

/-- Of any two different things one comes before the other. -/
def Separates (before : α → α → Bool) : Prop :=
  ∀ a b, before a b = false → before b a = false → a = b

theorem mem_insert {before : α → α → Bool} (h : Separates before) {a b : α} {bs : List α} :
    b ∈ insert before a bs ↔ b = a ∨ b ∈ bs := by
  induction bs with
  | nil => simp [insert]
  | cons c rest ih =>
      rw [insert]
      split
      · simp
      · split
        · simp only [List.mem_cons, ih]
          exact or_left_comm
        · rename_i hac hca
          have := h a c (Bool.eq_false_iff.mpr hac) (Bool.eq_false_iff.mpr hca)
          subst this
          simp

theorem mem_ofList {before : α → α → Bool} (h : Separates before) {a : α} {as : List α} :
    a ∈ ofList before as ↔ a ∈ as := by
  induction as with
  | nil => simp [ofList]
  | cons b rest ih =>
      simp only [ofList, List.foldr_cons, mem_insert h, List.mem_cons] at ih ⊢
      rw [ih]

end UiTree.Ascending
