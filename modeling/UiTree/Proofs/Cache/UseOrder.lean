import UiTree.Cache.Lru

/-!
# The order of use

What a bounded map shows to its clients is a list of entries with distinct keys, the most recently
used entry first. Each operation is described here by what it answers and by what it makes of this
list, without slots, links or an index.
-/

namespace UiTree

variable {K V : Type}

/-- An operation on a bounded map. -/
inductive MapOperation (K V : Type) where
  | put (key : K) (value : V)
  | get (key : K)
  | modify (key : K) (f : V → V)
  | peek (key : K)
  | contains (key : K)
  | remove (key : K)
  | values
  | entries
  | size
  | isEmpty
  | clear

/-- What an operation answers. -/
inductive MapAnswer (K V : Type) where
  | dropped (entry : Option (K × V))
  | found (value : Option V)
  | truth (b : Bool)
  | values (vs : List V)
  | entries (es : List (K × V))
  | count (n : Nat)
  | done

namespace UseOrder

variable [BEq K]

/-- The entry with a key. -/
def find? (es : List (K × V)) (key : K) : Option (K × V) :=
  es.find? (·.1 == key)

/-- The entries without the one with a key. -/
def without (es : List (K × V)) (key : K) : List (K × V) :=
  es.eraseP (·.1 == key)

/-- The answer to an operation, and the entries afterwards. An entry that is written, read or
changed comes to the front; a new one takes the place of the last one if there is no room. -/
def step (capacity : Nat) (es : List (K × V)) :
    MapOperation K V → MapAnswer K V × List (K × V)
  | .put key value =>
    if (find? es key).isSome then (.dropped none, (key, value) :: without es key)
    else if es.length < capacity then (.dropped none, (key, value) :: es)
    else (.dropped es.getLast?, (key, value) :: es.dropLast)
  | .get key =>
    match find? es key with
    | none => (.found none, es)
    | some e => (.found (some e.2), e :: without es key)
  | .modify key f =>
    match find? es key with
    | none => (.found none, es)
    | some e => (.found (some (f e.2)), (e.1, f e.2) :: without es key)
  | .peek key => (.found ((find? es key).map (·.2)), es)
  | .contains key => (.truth (find? es key).isSome, es)
  | .remove key => (.found ((find? es key).map (·.2)), without es key)
  | .values => (.values (es.map (·.2)), es)
  | .entries => (.entries es, es)
  | .size => (.count es.length, es)
  | .isEmpty => (.truth es.isEmpty, es)
  | .clear => (.done, [])

/-- The answers to some operations in a row, each with the entries after it. -/
def run (capacity : Nat) (es : List (K × V)) :
    List (MapOperation K V) → List (MapAnswer K V × List (K × V))
  | [] => []
  | op :: ops =>
    let (answer, es) := step capacity es op
    (answer, es) :: run capacity es ops

/-- No key occurs twice. -/
def Distinct (es : List (K × V)) : Prop :=
  es.Pairwise fun e e' => (e.1 == e'.1) = false

section Split

variable {key : K} {e : K × V} {pre post : List (K × V)}

theorem find?_append_cons (hkey : (e.1 == key) = true) (hpre : ∀ d ∈ pre, (d.1 == key) = false) :
    find? (pre ++ e :: post) key = some e := by
  have hnone : pre.find? (·.1 == key) = none := by
    rw [List.find?_eq_none]
    intro d hd
    simp [hpre d hd]
  simp [find?, List.find?_append, hnone, hkey]

theorem without_append_cons (hkey : (e.1 == key) = true)
    (hpre : ∀ d ∈ pre, (d.1 == key) = false) : without (pre ++ e :: post) key = pre ++ post := by
  rw [without, List.eraseP_append_right _ (fun d hd => by simp [hpre d hd])]
  simp [hkey]

theorem find?_eq_none {es : List (K × V)} (h : ∀ d ∈ es, (d.1 == key) = false) :
    find? es key = none := by
  rw [find?, List.find?_eq_none]
  intro d hd
  simp [h d hd]

theorem without_eq_self {es : List (K × V)} (h : ∀ d ∈ es, (d.1 == key) = false) :
    without es key = es := by
  rw [without, List.eraseP_of_forall_not]
  intro d hd
  simp [h d hd]

end Split

end UseOrder

namespace Lru

variable [BEq K] [Hashable K]

/-- The answer to an operation, and the map afterwards. -/
def step (c : Lru K V) : MapOperation K V → MapAnswer K V × Lru K V
  | .put key value =>
    let (c, dropped) := c.put key value
    (.dropped dropped, c)
  | .get key =>
    let (c, value) := c.get key
    (.found value, c)
  | .modify key f =>
    let (c, value) := c.modify key f
    (.found value, c)
  | .peek key => (.found (c.peek? key), c)
  | .contains key => (.truth (c.contains key), c)
  | .remove key =>
    let (c, value) := c.remove key
    (.found value, c)
  | .values => (.values c.values, c)
  | .entries => (.entries c.toList, c)
  | .size => (.count c.size, c)
  | .isEmpty => (.truth c.isEmpty, c)
  | .clear => (.done, c.clear)

/-- The answers to some operations in a row, each with the entries that the map lists after it. -/
def run (c : Lru K V) : List (MapOperation K V) → List (MapAnswer K V × List (K × V))
  | [] => []
  | op :: ops =>
    let (answer, c) := c.step op
    (answer, c.toList) :: c.run ops

end Lru

end UiTree
