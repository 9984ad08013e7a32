import UiTree.Proofs.Cache.Links
import UiTree.Proofs.Cache.Index

/-!
# How slots hold the entries

A map shows its cells in the order of use: the links run through their slots, and each slot holds
its entry. Every slot is in use or free and not both, and free slots are empty.
-/

namespace UiTree.Lru

variable {K V : Type} [BEq K] [Hashable K] {c c' : Lru K V}
  {cells pre post : List (Nat × K × V)} {i : Nat} {e : K × V} {key : K}

/-- The slots and the index hold some cells. -/
structure Shows (c : Lru K V) (cells : List (Nat × K × V)) : Prop where
  ordered : c.Ordered (cells.map (·.1))
  entries : ∀ x ∈ cells, c.entryAt? x.1 = some x.2
  slots : (cells.map (·.1) ++ c.free).Perm (List.range c.slots.size)
  emptied : ∀ i ∈ c.free, c.entryAt? i = none
  indexed : Indexes c.index cells
  bounded : c.slots.size ≤ c.capacity

namespace Shows

theorem nodup (h : c.Shows cells) : (cells.map (·.1) ++ c.free).Nodup :=
  h.slots.nodup_iff.mpr List.nodup_range

theorem nodup_cells (h : c.Shows cells) : (cells.map (·.1)).Nodup :=
  (List.nodup_append.mp h.nodup).1

theorem not_mem_free (h : c.Shows cells) {x : Nat × K × V} (hx : x ∈ cells) : x.1 ∉ c.free :=
  fun hfree => (List.nodup_append.mp h.nodup).2.2 _ (List.mem_map_of_mem hx) _ hfree rfl

theorem lt_size (h : c.Shows cells) (hi : i ∈ cells.map (·.1) ++ c.free) : i < c.slots.size :=
  List.mem_range.mp (h.slots.mem_iff.mp hi)

theorem lt_size_split (h : c.Shows (pre ++ (i, e) :: post)) : i < c.slots.size :=
  h.lt_size (by simp)

theorem ordered_split (h : c.Shows (pre ++ (i, e) :: post)) :
    c.Ordered (pre.map (·.1) ++ i :: post.map (·.1)) := by
  have hordered := h.ordered
  rwa [List.map_append, List.map_cons] at hordered

theorem nodup_split (h : c.Shows (pre ++ (i, e) :: post)) :
    (pre.map (·.1) ++ i :: post.map (·.1)).Nodup := by
  have hnodup := h.nodup_cells
  rwa [List.map_append, List.map_cons] at hnodup

theorem tail_eq (h : c.Shows (pre ++ [(i, e)])) : c.tail = some i := by
  rw [h.ordered_split.tail, List.getLast?_append]
  rfl

theorem length_add (h : c.Shows cells) : cells.length + c.free.length = c.slots.size := by
  simpa using h.slots.length_eq

theorem length_le (h : c.Shows cells) : cells.length ≤ c.capacity := by
  have hadd := h.length_add
  have hbounded := h.bounded
  omega

theorem empty (capacity : Nat) (hpos : 0 < capacity) :
    (Lru.empty capacity hpos : Lru K V).Shows [] where
  ordered := ⟨rfl, rfl, trivial⟩
  entries := by simp
  slots := .nil
  emptied := by simp [Lru.empty]
  indexed := .empty
  bounded := Nat.zero_le _

/-- A key that the index knows belongs to one cell. -/
theorem exists_split (h : c.Shows cells) (hi : c.index[key]? = some i) :
    ∃ pre e post, cells = pre ++ (i, e) :: post ∧ (e.1 == key) = true ∧
      ∀ d ∈ pre.map (·.2), (d.1 == key) = false :=
  h.indexed.exists_split h.nodup_cells hi

/-- Only the links change when the order of use does. -/
theorem relink (h : c.Shows cells) (hrelinked : Relinked c c') {cells' : List (Nat × K × V)}
    (hperm : cells'.Perm cells) (hordered : c'.Ordered (cells'.map (·.1))) :
    c'.Shows cells' where
  ordered := hordered
  entries x hx := (hrelinked.entryAt? x.1).trans (h.entries x (hperm.mem_iff.mp hx))
  slots := by
    rw [hrelinked.free, hrelinked.size]
    exact ((hperm.map _).append_right _).trans h.slots
  emptied i hi := (hrelinked.entryAt? i).trans (h.emptied i (hrelinked.free ▸ hi))
  indexed := hrelinked.index ▸ h.indexed.perm hperm
  bounded := by
    rw [hrelinked.size, hrelinked.capacity]
    exact h.bounded

/-- Promoting moves a cell to the front. -/
theorem promote (h : c.Shows (pre ++ (i, e) :: post)) :
    (c.promote i).Shows ((i, e) :: (pre ++ post)) := by
  refine h.relink (Relinked.promote i) List.perm_middle.symm ?_
  rw [List.map_cons, List.map_append]
  exact h.ordered_split.promote h.nodup_split h.lt_size_split

end Shows

section Entries

variable {f : Slot K V → Slot K V}

@[simp] theorem size_modifySlot : (c.modifySlot i f).slots.size = c.slots.size :=
  Array.size_modify

theorem entryAt?_modifySlot (c : Lru K V) (i j : Nat) (f : Slot K V → Slot K V) :
    (c.modifySlot i f).entryAt? j =
      if i = j then (c.slots[j]?).bind fun s => (f s).entry else c.entryAt? j := by
  simp only [entryAt?, modifySlot, Array.getElem?_modify]
  split
  · cases c.slots[j]? <;> rfl
  · rfl

/-- Writing entries leaves the links as they are. -/
theorem Ordered.modifyEntry {is : List Nat} (h : c.Ordered is) (i : Nat)
    (hf : ∀ s, (f s).prev = s.prev ∧ (f s).next = s.next) : (c.modifySlot i f).Ordered is where
  head := h.head
  tail := h.tail
  chain := h.chain.congr fun j _ => by
    rw [linksAt?_modifySlot]
    split
    · simp only [hf, linksAt?]
    · rfl

theorem entryAt?_release (c : Lru K V) (i j : Nat) :
    (c.release i).1.entryAt? j = if i = j then none else c.entryAt? j := by
  have hslots : (c.release i).1.entryAt? j =
      (c.modifySlot i fun s => { s with entry := none }).entryAt? j := rfl
  rw [hslots, entryAt?_modifySlot]
  cases c.slots[j]? <;> rfl

end Entries

namespace Shows

variable [EquivBEq K]

/-- Writing an entry with the same key into its slot keeps its place in the order of use. -/
theorem write (h : c.Shows (pre ++ (i, e) :: post)) {g : Option (K × V) → Option (K × V)}
    {e' : K × V} (hg : g (some e) = some e') (hkey : (e'.1 == e.1) = true) :
    (c.modifySlot i fun s => { s with entry := g s.entry }).Shows (pre ++ (i, e') :: post) := by
  have hentry : c.entryAt? i = some e := h.entries (i, e) (by simp)
  have hwritten : (c.slots[i]?).bind (fun s => g s.entry) = some e' := by
    rw [entryAt?, Option.bind_eq_some_iff] at hentry
    obtain ⟨s, hs, hentry⟩ := hentry
    rw [hs, Option.bind_some, hentry, hg]
  have hslots : (pre ++ (i, e') :: post).map (·.1) = (pre ++ (i, e) :: post).map (·.1) := by simp
  refine ⟨?_, ?_, ?_, ?_, h.indexed.replace hkey, ?_⟩
  · rw [hslots]
    exact h.ordered.modifyEntry i fun _ => ⟨rfl, rfl⟩
  · intro x hx
    obtain rfl | hx := List.mem_cons.mp (List.perm_middle.mem_iff.mp hx)
    · rw [entryAt?_modifySlot, if_pos rfl, hwritten]
    · have hmem : x ∈ pre ++ (i, e) :: post :=
        List.perm_middle.mem_iff.mpr (List.mem_cons_of_mem _ hx)
      rw [entryAt?_modifySlot, if_neg (ne_of_nodup_split h.nodup_cells hx), h.entries x hmem]
  · rw [hslots, size_modifySlot]
    exact h.slots
  · intro j hj
    have hne : i ≠ j := fun heq => h.not_mem_free (x := (i, e)) (by simp) (heq ▸ hj)
    rw [entryAt?_modifySlot, if_neg hne]
    exact h.emptied j hj
  · rw [size_modifySlot]
    exact h.bounded

variable [LawfulHashable K]

/-- Releasing an unlinked slot and forgetting its key leaves the other cells. -/
theorem drop (h : c.Shows (pre ++ (i, e) :: post)) (hkey : (e.1 == key) = true) :
    ({ ((c.unlink i).release i).1 with index := c.index.erase key } : Lru K V).Shows
      (pre ++ post) := by
  have hrelinked : Relinked c (c.unlink i) := Relinked.unlink i
  have hunlinked := (h.ordered_split.unlink h.nodup_split).modifyEntry i
    (f := fun s => { s with entry := none }) fun _ => ⟨rfl, rfl⟩
  have hentry (j : Nat) (hj : i ≠ j) : ((c.unlink i).release i).1.entryAt? j = c.entryAt? j := by
    rw [entryAt?_release, if_neg hj, hrelinked.entryAt?]
  have hfree : ((c.unlink i).release i).1.free = i :: c.free := by
    rw [release, hrelinked.free]
  have hsize : ((c.unlink i).release i).1.slots.size = c.slots.size :=
    size_modifySlot.trans hrelinked.size
  refine ⟨?_, ?_, ?_, ?_, h.indexed.erase h.nodup_cells hkey, ?_⟩
  · rw [List.map_append]
    exact ⟨hunlinked.head, hunlinked.tail, hunlinked.chain⟩
  · intro x hx
    have hmem : x ∈ pre ++ (i, e) :: post :=
      List.perm_middle.mem_iff.mpr (List.mem_cons_of_mem _ hx)
    exact (hentry x.1 (ne_of_nodup_split h.nodup_cells hx)).trans (h.entries x hmem)
  · have hslots := h.slots
    rw [List.map_append, List.map_cons] at hslots
    rw [hfree, hsize, List.map_append]
    refine (List.perm_middle.trans ?_).trans hslots
    exact (List.perm_middle.append_right c.free).symm
  · intro j hj
    rw [hfree, List.mem_cons] at hj
    by_cases hij : i = j
    · exact (entryAt?_release _ i j).trans (if_pos hij)
    · have hj : j ∈ c.free := hj.resolve_left (Ne.symm hij)
      exact (hentry j hij).trans (h.emptied j hj)
  · have hcapacity : ((c.unlink i).release i).1.capacity = c.capacity := hrelinked.capacity
    rw [hsize, hcapacity]
    exact h.bounded

end Shows

/-- One slot more than those of the cells is in use, but not linked yet. -/
structure Allocated (c d : Lru K V) (cells : List (Nat × K × V)) (i : Nat) (e : K × V) :
    Prop where
  index : d.index = c.index
  capacity : d.capacity = c.capacity
  ordered : d.Ordered (cells.map (·.1))
  entryAt? : ∀ j, d.entryAt? j = if i = j then some e else c.entryAt? j
  slots : (i :: (cells.map (·.1) ++ d.free)).Perm (List.range d.slots.size)
  free_subset : ∀ j ∈ d.free, j ∈ c.free
  bounded : d.slots.size ≤ c.capacity

theorem Shows.allocate (h : c.Shows cells) (key : K) (value : V)
    (hroom : cells.length < c.capacity) :
    Allocated c (c.allocate key value).2 cells (c.allocate key value).1 (key, value) := by
  rw [Lru.allocate]
  cases hfree : c.free with
  | nil =>
      have hlength := h.length_add
      have hslots := h.slots
      rw [hfree, List.length_nil] at hlength
      rw [hfree, List.append_nil] at hslots
      refine ⟨rfl, rfl, ⟨h.ordered.head, h.ordered.tail, ?_⟩, ?_, ?_, ?_, ?_⟩
      · apply h.ordered.chain.congr
        intro j hj
        have hlt : j < c.slots.size := h.lt_size (List.mem_append_left _ hj)
        simp only [linksAt?, Array.getElem?_push, if_neg (Nat.ne_of_lt hlt)]
      · intro j
        simp only [Lru.entryAt?, Array.getElem?_push, eq_comm]
        split
        · rfl
        · rfl
      · simp only [Array.size_push, List.range_succ, List.append_nil]
        exact (hslots.cons _).trans (List.perm_append_singleton _ _).symm
      · intro j hj
        rw [hfree]
        exact hj
      · simp only [Array.size_push]
        omega
  | cons i free =>
      have hslots := h.slots
      have hnot (x : Nat × K × V) (hx : x ∈ cells) : i ≠ x.1 := fun heq =>
        h.not_mem_free hx (by simp [hfree, ← heq])
      have hlt : i < c.slots.size := h.lt_size (by simp [hfree])
      rw [hfree] at hslots
      refine ⟨rfl, rfl, ⟨h.ordered.head, h.ordered.tail, ?_⟩, ?_, ?_, ?_, ?_⟩
      · apply h.ordered.chain.congr
        intro j hj
        obtain ⟨x, hx, rfl⟩ := List.mem_map.mp hj
        exact (linksAt?_modifySlot c i x.1 _).trans (if_neg (hnot x hx))
      · intro j
        refine (entryAt?_modifySlot c i j _).trans ?_
        split
        · next hij =>
          rw [← hij, Array.getElem?_eq_getElem hlt]
          rfl
        · rfl
      · simp only [Array.size_modify]
        exact List.perm_middle.symm.trans hslots
      · intro j hj
        rw [hfree]
        exact List.mem_cons_of_mem _ hj
      · simp only [Array.size_modify]
        exact h.bounded

/-- The map with a new entry, when there is room for it. -/
def added (c : Lru K V) (key : K) (value : V) : Lru K V :=
  let (i, c) := c.allocate key value
  let c := c.pushFront i
  { c with index := c.index.insert key i }

theorem put_of_new {c : Lru K V} {key : K} (h : c.index[key]? = none) (value : V) :
    c.put key value =
      let (d, dropped) := if c.capacity ≤ c.size then c.dropLast else (c, none)
      (d.added key value, dropped) := by
  rw [put, h]
  rfl

/-- A new entry in an emptied or new slot comes first. -/
theorem Shows.added [EquivBEq K] [LawfulHashable K] (h : c.Shows cells) (value : V)
    (hkey : c.index[key]? = none) (hroom : cells.length < c.capacity) :
    ∃ i, (c.added key value).Shows ((i, key, value) :: cells) ∧
      (c.added key value).capacity = c.capacity := by
  have hallocated := h.allocate key value hroom
  rw [Lru.added]
  generalize c.allocate key value = allocated at hallocated ⊢
  obtain ⟨i, d⟩ := allocated
  refine ⟨i, ?_, (Relinked.pushFront i).capacity.trans hallocated.capacity⟩
  have hnodup : (i :: (cells.map (·.1) ++ d.free)).Nodup :=
    hallocated.slots.nodup_iff.mpr List.nodup_range
  have hlt : i < d.slots.size := List.mem_range.mp (hallocated.slots.mem_iff.mp (by simp))
  have hpushed : Relinked d (d.pushFront i) := Relinked.pushFront i
  obtain ⟨hnot, hrest⟩ := List.nodup_cons.mp hnodup
  have hne (x : Nat × K × V) (hx : x ∈ cells) : i ≠ x.1 := fun heq =>
    hnot (List.mem_append_left _ (heq ▸ List.mem_map_of_mem hx))
  have hnotFree : i ∉ d.free := fun hmem => hnot (List.mem_append_right _ hmem)
  have hentry (j : Nat) :
      (d.pushFront i).entryAt? j = if i = j then some (key, value) else c.entryAt? j :=
    (hpushed.entryAt? j).trans (hallocated.entryAt? j)
  refine ⟨?_, ?_, ?_, ?_, ?_, ?_⟩
  · have hcells : (i :: cells.map (·.1)).Nodup :=
      List.nodup_cons.mpr ⟨fun hmem => hnot (List.mem_append_left _ hmem),
        (List.nodup_append.mp hrest).1⟩
    have hordered := hallocated.ordered.pushFront hcells hlt
    exact ⟨hordered.head, hordered.tail, hordered.chain⟩
  · intro x hx
    obtain rfl | hx := List.mem_cons.mp hx
    · exact (hentry i).trans (if_pos rfl)
    · exact (hentry x.1).trans ((if_neg (hne x hx)).trans (h.entries x hx))
  · have hslots := hallocated.slots
    rw [← hpushed.free, ← hpushed.size] at hslots
    exact hslots
  · intro j hj
    have hj : j ∈ d.free := hpushed.free ▸ hj
    have hij : i ≠ j := fun heq => hnotFree (heq ▸ hj)
    exact (hentry j).trans ((if_neg hij).trans (h.emptied j (hallocated.free_subset j hj)))
  · have hindexed := h.indexed.insert hkey i value
    rw [← hallocated.index, ← hpushed.index] at hindexed
    exact hindexed
  · have hbounded := hallocated.bounded
    rw [← hpushed.size, ← hallocated.capacity, ← hpushed.capacity] at hbounded
    exact hbounded

end UiTree.Lru
