import UiTree.Proofs.Cache.Refinement

/-!
# Bounded maps that stop where there is no slot

The operations of a bounded map once more, with a guard at each access to a slot: where no slot has
the number that is accessed, the operation stops and has no answer. Entries are listed in as many
steps as there are entries, and a listing that has not come to the end by then stops as well.

In a map that shows some cells no guard stops an operation, so each answers what it answers without
guards, and leaves the same map.

## Implementation notes

Without guards a change of a missing slot changes nothing, and a missing slot has no entry. Nothing
else tells the operations of this module from the plain ones.
-/

namespace UiTree.Lru

variable {K V : Type} [BEq K] [Hashable K]

namespace Guarded

/-- Change a slot. -/
def modifySlot (c : Lru K V) (i : Nat) (f : Slot K V → Slot K V) : Option (Lru K V) :=
  if i < c.slots.size then some (c.modifySlot i f) else none

/-- Set the less recently used neighbour of a slot, or the head when there is no slot. -/
def setNext (c : Lru K V) (i : Option Nat) (next : Option Nat) : Option (Lru K V) :=
  match i with
  | none => some { c with head := next }
  | some i => modifySlot c i fun s => { s with next }

/-- Set the more recently used neighbour of a slot, or the tail when there is no slot. -/
def setPrev (c : Lru K V) (i : Option Nat) (prev : Option Nat) : Option (Lru K V) :=
  match i with
  | none => some { c with tail := prev }
  | some i => modifySlot c i fun s => { s with prev }

/-- Take a slot out of the order of use. -/
def unlink (c : Lru K V) (i : Nat) : Option (Lru K V) := do
  let s ← c.slots[i]?
  let c ← setNext c s.prev s.next
  let c ← setPrev c s.next s.prev
  modifySlot c i fun s => { s with prev := none, next := none }

/-- Make a slot that is not linked the most recently used one. -/
def pushFront (c : Lru K V) (i : Nat) : Option (Lru K V) := do
  let linked ← modifySlot c i fun s => { s with prev := none, next := c.head }
  let linked ← setPrev linked c.head (some i)
  some { linked with head := some i }

/-- Make a linked slot the most recently used one. -/
def promote (c : Lru K V) (i : Nat) : Option (Lru K V) :=
  if c.head = some i then some c
  else do
    let c ← unlink c i
    pushFront c i

/-- Put an entry into an empty slot, or into a new one. -/
def allocate (c : Lru K V) (key : K) (value : V) : Option (Nat × Lru K V) :=
  let slot := ⟨some (key, value), none, none⟩
  match c.free with
  | i :: free => do
    let c ← modifySlot { c with free } i fun _ => slot
    some (i, c)
  | [] => some (c.slots.size, { c with slots := c.slots.push slot })

/-- Empty a slot. The second component was its entry. -/
def release (c : Lru K V) (i : Nat) : Option (Lru K V × Option (K × V)) := do
  let s ← c.slots[i]?
  let c ← modifySlot { c with free := i :: c.free } i fun s => { s with entry := none }
  some (c, s.entry)

/-- Drop the least recently used entry. -/
def dropLast (c : Lru K V) : Option (Lru K V × Option (K × V)) :=
  match c.tail with
  | none => some (c, none)
  | some i => do
    let c ← unlink c i
    match ← release c i with
    | (c, some entry) => some ({ c with index := c.index.erase entry.1 }, some entry)
    | (c, none) => some (c, none)

/-- Write a new entry when there is room for it. -/
def added (c : Lru K V) (key : K) (value : V) : Option (Lru K V) := do
  let (i, c) ← allocate c key value
  let c ← pushFront c i
  some { c with index := c.index.insert key i }

/-- Write an entry. The second component is the entry that was dropped to make room. -/
def put (c : Lru K V) (key : K) (value : V) : Option (Lru K V × Option (K × V)) :=
  match c.index[key]? with
  | some i => do
    let c ← modifySlot c i fun s => { s with entry := some (key, value) }
    let c ← promote c i
    some (c, none)
  | none => do
    let (c, dropped) ← if c.capacity ≤ c.size then dropLast c else some (c, none)
    let c ← added c key value
    some (c, dropped)

/-- The value in a slot, if the slot holds an entry. -/
def valueAt (c : Lru K V) (i : Nat) : Option (Option V) := do
  let s ← c.slots[i]?
  some (s.entry.map (·.2))

/-- Read a value, which makes its entry the most recently used one. -/
def get (c : Lru K V) (key : K) : Option (Lru K V × Option V) :=
  match c.index[key]? with
  | none => some (c, none)
  | some i => do
    let c ← promote c i
    let value ← valueAt c i
    some (c, value)

/-- Change a value, which makes its entry the most recently used one. The second component is the
new value. -/
def modify (c : Lru K V) (key : K) (f : V → V) : Option (Lru K V × Option V) :=
  match c.index[key]? with
  | none => some (c, none)
  | some i => do
    let c ← promote c i
    let c ← modifySlot c i fun s => { s with entry := s.entry.map fun (k, v) => (k, f v) }
    let value ← valueAt c i
    some (c, value)

/-- Read a value and leave the order of use as it is. -/
def peek (c : Lru K V) (key : K) : Option (Option V) :=
  match c.index[key]? with
  | none => some none
  | some i => valueAt c i

/-- Remove an entry. The second component is its value. -/
def remove (c : Lru K V) (key : K) : Option (Lru K V × Option V) :=
  match c.index[key]? with
  | none => some (c, none)
  | some i => do
    let c ← unlink { c with index := c.index.erase key } i
    let (c, entry) ← release c i
    some (c, entry.map (·.2))

/-- The entries from a slot on, in at most `limit` steps to the end. A slot without entry ends the
listing. -/
def entriesFrom (c : Lru K V) : Nat → Option Nat → Option (List (K × V))
  | _, none => some []
  | 0, some _ => none
  | limit + 1, some i => do
    let s ← c.slots[i]?
    match s.entry with
    | none => some []
    | some entry => do
      let more ← entriesFrom c limit s.next
      some (entry :: more)

/-- The entries from the most to the least recently used one, in as many steps as there are
entries. -/
def toList (c : Lru K V) : Option (List (K × V)) :=
  entriesFrom c c.size c.head

/-- The answer to an operation, and the map afterwards. -/
def step (c : Lru K V) : MapOperation K V → Option (MapAnswer K V × Lru K V)
  | .put key value => do
    let (c, dropped) ← put c key value
    some (.dropped dropped, c)
  | .get key => do
    let (c, value) ← get c key
    some (.found value, c)
  | .modify key f => do
    let (c, value) ← modify c key f
    some (.found value, c)
  | .peek key => do
    let value ← peek c key
    some (.found value, c)
  | .contains key => some (.truth (c.contains key), c)
  | .remove key => do
    let (c, value) ← remove c key
    some (.found value, c)
  | .values => do
    let entries ← toList c
    some (.values (entries.map (·.2)), c)
  | .entries => do
    let entries ← toList c
    some (.entries entries, c)
  | .size => some (.count c.size, c)
  | .isEmpty => some (.truth c.isEmpty, c)
  | .clear => some (.done, c.clear)

end Guarded

variable {c : Lru K V} {is pre post : List Nat} {i : Nat}

namespace Guarded

section Slots

theorem modifySlot_eq (hi : i < c.slots.size) (f : Slot K V → Slot K V) :
    modifySlot c i f = some (c.modifySlot i f) :=
  if_pos hi

theorem setNext_eq {o : Option Nat} (ho : ∀ i ∈ o, i < c.slots.size) (next : Option Nat) :
    setNext c o next = some (c.setNext o next) := by
  cases o with
  | none => rfl
  | some i => exact modifySlot_eq (ho i rfl) _

theorem setPrev_eq {o : Option Nat} (ho : ∀ i ∈ o, i < c.slots.size) (prev : Option Nat) :
    setPrev c o prev = some (c.setPrev o prev) := by
  cases o with
  | none => rfl
  | some i => exact modifySlot_eq (ho i rfl) _

/-- Unlinking goes to the neighbours of a slot, and those are in use as well. -/
theorem unlink_eq (h : c.Ordered (pre ++ i :: post)) : unlink c i = some (c.unlink i) := by
  obtain ⟨-, -, hi, -⟩ := ordered_append_iff.mp h
  rw [Option.or_none, linksAt?, Option.map_eq_some_iff] at hi
  obtain ⟨⟨entry, prev, next⟩, hs, hlinks⟩ := hi
  obtain ⟨rfl, rfl⟩ := Prod.mk.inj hlinks
  have hprev : ∀ j ∈ pre.getLast?, j < c.slots.size := fun j hj =>
    h.lt_size (List.mem_append_left _ (List.mem_of_getLast? hj))
  have hnext : ∀ j ∈ post.head?, j < c.slots.size := fun j hj =>
    h.lt_size (List.mem_append_right _ (List.mem_cons_of_mem _ (List.mem_of_head? hj)))
  have hsize := (Relinked.setNext (c := c) pre.getLast? post.head?).size
  have hsize' := (Relinked.setPrev (c := c.setNext pre.getLast? post.head?) post.head?
    pre.getLast?).size
  have hi : i < c.slots.size := h.lt_size (by simp)
  rw [Guarded.unlink, Lru.unlink, hs]
  simp only [Option.bind_eq_bind, Option.bind_some]
  rw [setNext_eq hprev, Option.bind_some, setPrev_eq (hsize ▸ hnext), Option.bind_some,
    modifySlot_eq (by omega)]

/-- Pushing goes to the slot that was the first one, if there was one. -/
theorem pushFront_eq (h : c.Ordered is) (hi : i < c.slots.size) :
    pushFront c i = some (c.pushFront i) := by
  have hhead : ∀ j ∈ c.head, j < c.slots.size := fun j hj =>
    h.lt_size (List.mem_of_head? (h.head ▸ hj))
  rw [Guarded.pushFront, modifySlot_eq hi]
  simp only [Option.bind_eq_bind, Option.bind_some]
  rw [setPrev_eq (by rwa [size_modifySlot]), Option.bind_some, Lru.pushFront]

theorem promote_eq (h : c.Ordered (pre ++ i :: post)) (hn : (pre ++ i :: post).Nodup) :
    promote c i = some (c.promote i) := by
  have hi : i < (c.unlink i).slots.size :=
    (Relinked.unlink (c := c) i).size ▸ h.lt_size (by simp)
  rw [Guarded.promote, Lru.promote]
  split
  · rfl
  · rw [unlink_eq h]
    exact pushFront_eq (h.unlink hn) hi

theorem release_eq (hi : i < c.slots.size) : release c i = some (c.release i) := by
  rw [Guarded.release, Lru.release, Array.getElem?_eq_getElem hi]
  simp only [Option.bind_eq_bind, Option.bind_some]
  rw [modifySlot_eq (c := { c with free := i :: c.free }) hi]
  rfl

theorem release_unlink_eq (h : c.Ordered (pre ++ i :: post)) :
    release (c.unlink i) i = some ((c.unlink i).release i) :=
  release_eq ((Relinked.unlink (c := c) i).size ▸ h.lt_size (by simp))

theorem valueAt_eq (hi : i < c.slots.size) : valueAt c i = some (c.valueAt? i) := by
  rw [valueAt, valueAt?, Array.getElem?_eq_getElem hi]
  rfl

end Slots

section Operations

variable {cells pre post : List (Nat × K × V)} {e : K × V}

theorem lt_size_promoted (h : c.Shows (pre ++ (i, e) :: post)) : i < (c.promote i).slots.size :=
  (Relinked.promote (c := c) i).size ▸ h.lt_size_split

theorem promote_cell (h : c.Shows (pre ++ (i, e) :: post)) : promote c i = some (c.promote i) :=
  promote_eq h.ordered_split h.nodup_split

theorem dropLast_eq (h : c.Shows cells) : dropLast c = some c.dropLast := by
  obtain rfl | ⟨pre, ⟨i, e⟩, rfl⟩ := List.eq_nil_or_concat cells
  · have htail : c.tail = none := h.ordered.tail
    rw [Guarded.dropLast, Lru.dropLast, htail]
  · rw [List.concat_eq_append] at h
    have hordered := h.ordered_split
    rw [Guarded.dropLast, Lru.dropLast, h.tail_eq]
    simp only [unlink_eq hordered, release_unlink_eq hordered, Option.bind_eq_bind,
      Option.bind_some]
    generalize (c.unlink i).release i = released
    obtain ⟨d, _ | entry⟩ := released
    · rfl
    · rfl

/-- An emptied slot that is used again is there. -/
theorem allocate_eq (h : c.Shows cells) (key : K) (value : V) :
    allocate c key value = some (c.allocate key value) := by
  cases hfree : c.free with
  | nil => simp only [Guarded.allocate, Lru.allocate, hfree]
  | cons i free =>
      have hi : i < c.slots.size := h.lt_size (by simp [hfree])
      simp only [Guarded.allocate, Lru.allocate, hfree]
      rw [modifySlot_eq (c := { c with free }) hi]
      rfl

theorem added_eq (h : c.Shows cells) (key : K) (value : V) (hroom : cells.length < c.capacity) :
    added c key value = some (c.added key value) := by
  have hallocated := h.allocate key value hroom
  have hi := hallocated.slots.mem_iff.mp List.mem_cons_self
  rw [Guarded.added, Lru.added, allocate_eq h]
  simp only [Option.bind_eq_bind, Option.bind_some]
  rw [pushFront_eq hallocated.ordered (List.mem_range.mp hi), Option.bind_some]

theorem peek_eq (h : c.Shows cells) (key : K) : peek c key = some (c.peek? key) := by
  cases hi : c.index[key]? with
  | none => simp only [peek, peek?, hi, Option.bind_none]
  | some i =>
      obtain ⟨pre, e, post, rfl, -, -⟩ := h.exists_split hi
      simp only [peek, peek?, hi, Option.bind_some, valueAt_eq h.lt_size_split]

theorem get_eq (h : c.Shows cells) (key : K) : get c key = some (c.get key) := by
  cases hi : c.index[key]? with
  | none => simp only [Guarded.get, Lru.get, hi]
  | some i =>
      obtain ⟨pre, e, post, rfl, -, -⟩ := h.exists_split hi
      simp only [Guarded.get, Lru.get, hi, promote_cell h, Option.bind_eq_bind, Option.bind_some,
        valueAt_eq (lt_size_promoted h)]

theorem modify_eq (h : c.Shows cells) (key : K) (f : V → V) :
    modify c key f = some (c.modify key f) := by
  cases hi : c.index[key]? with
  | none => simp only [Guarded.modify, Lru.modify, hi]
  | some i =>
      obtain ⟨pre, e, post, rfl, -, -⟩ := h.exists_split hi
      have hlt := lt_size_promoted h
      simp only [Guarded.modify, Lru.modify, hi, promote_cell h, Option.bind_eq_bind,
        Option.bind_some, modifySlot_eq hlt]
      rw [valueAt_eq (by rwa [size_modifySlot]), Option.bind_some]

theorem remove_eq (h : c.Shows cells) (key : K) : remove c key = some (c.remove key) := by
  cases hi : c.index[key]? with
  | none => simp only [Guarded.remove, Lru.remove, hi]
  | some i =>
      obtain ⟨pre, e, post, rfl, -, -⟩ := h.exists_split hi
      have hordered := h.ordered_split.withIndex (c.index.erase key)
      simp only [Guarded.remove, Lru.remove, hi, unlink_eq hordered, release_unlink_eq hordered,
        Option.bind_eq_bind, Option.bind_some]

section Listing

/-- A listing comes to the end in exactly as many steps as there are cells. -/
theorem entriesFrom_eq {before : Option Nat} (limit : Nat)
    (hchain : Chain c.linksAt? before (cells.map (·.1)) none)
    (hentries : ∀ x ∈ cells, c.entryAt? x.1 = some x.2) :
    entriesFrom c limit (cells.map (·.1)).head? =
      if cells.length ≤ limit then some (cells.map (·.2)) else none := by
  induction cells generalizing before limit with
  | nil => cases limit <;> rfl
  | cons x cells ih =>
      cases limit with
      | zero => rfl
      | succ limit =>
          obtain ⟨hlinks, hchain⟩ := hchain
          have ih := ih limit hchain fun y hy => hentries y (by simp [hy])
          have hs := getElem?_slots hlinks (hentries x (by simp))
          rw [Option.or_none] at hs
          simp only [List.map_cons, List.head?_cons, entriesFrom, hs, Option.bind_eq_bind,
            Option.bind_some, ih, List.length_cons, Nat.add_le_add_iff_right]
          split
          · rfl
          · rfl

theorem entriesFrom_head (h : c.Shows cells) (limit : Nat) :
    entriesFrom c limit c.head = if c.size ≤ limit then some c.toList else none := by
  rw [h.ordered.head, h.toList_eq, h.size_eq, List.length_map]
  exact entriesFrom_eq limit h.ordered.chain h.entries

theorem toList_eq (h : c.Shows cells) : toList c = some c.toList := by
  rw [toList, entriesFrom_head h, if_pos (Nat.le_refl _)]

end Listing

variable [EquivBEq K] [LawfulHashable K]

theorem put_eq (h : c.Shows cells) (key : K) (value : V) :
    put c key value = some (c.put key value) := by
  cases hi : c.index[key]? with
  | some i =>
      obtain ⟨pre, e, post, rfl, hkey, -⟩ := h.exists_split hi
      -- The entry is written first, and promoted in the map that shows it.
      have hwritten := h.write (g := fun _ => some (key, value)) rfl (BEq.symm hkey)
      simp only [Guarded.put, Lru.put, hi, modifySlot_eq h.lt_size_split, promote_cell hwritten,
        Option.bind_eq_bind, Option.bind_some]
  | none =>
      have hsize := h.size_eq
      rw [put_of_new hi]
      -- Either way the new entry goes into a map with room for it.
      by_cases hfull : c.capacity ≤ c.size
      · obtain ⟨d, pre, e, hdrop, hd, -, hroom, -, -⟩ := h.exists_dropLast hfull
        simp only [Guarded.put, hi, if_pos hfull, dropLast_eq h, hdrop, added_eq hd key value hroom,
          Option.bind_eq_bind, Option.bind_some]
      · have hroom : cells.length < c.capacity := by
          rw [List.length_map] at hsize
          omega
        simp only [Guarded.put, hi, if_neg hfull, added_eq h key value hroom, Option.bind_eq_bind,
          Option.bind_some]

/-- No guard stops an operation on a map that shows some cells. -/
theorem step_eq (h : c.Shows cells) (op : MapOperation K V) : step c op = some (c.step op) := by
  cases op with
  | put key value => rw [step, put_eq h]; rfl
  | get key => rw [step, get_eq h]; rfl
  | modify key f => rw [step, modify_eq h]; rfl
  | peek key => rw [step, peek_eq h]; rfl
  | contains key => rfl
  | remove key => rw [step, remove_eq h]; rfl
  | values => rw [step, toList_eq h]; rfl
  | entries => rw [step, toList_eq h]; rfl
  | size => rfl
  | isEmpty => rfl
  | clear => rfl

end Operations

end Guarded

end UiTree.Lru
