import UiTree.Cache.Lru

/-!
# The links of the order of use

The slots in use form one chain, which the links run through in both directions. Taking a slot out
of the chain and putting one in front of it change links only, and change no more of them than the
neighbours' and their own.

## Implementation notes

The end of a chain is where its last link points to, so that a part of a chain is a chain as well.
Setting a link of no slot sets the head or the tail, hence the first and the last slot are no
special cases.
-/

namespace UiTree.Lru

variable {K V : Type} [BEq K] [Hashable K] {c : Lru K V}

/-- The links of a slot to the slots used next more and next less recently. -/
def linksAt? (c : Lru K V) (i : Nat) : Option (Option Nat × Option Nat) :=
  (c.slots[i]?).map fun s => (s.prev, s.next)

/-- The entry in a slot. -/
def entryAt? (c : Lru K V) (i : Nat) : Option (K × V) :=
  (c.slots[i]?).bind (·.entry)

theorem getElem?_slots {i : Nat} {e : K × V} {prev next : Option Nat}
    (hlinks : c.linksAt? i = some (prev, next)) (hentry : c.entryAt? i = some e) :
    c.slots[i]? = some ⟨some e, prev, next⟩ := by
  rw [linksAt?, Option.map_eq_some_iff] at hlinks
  obtain ⟨⟨entry, prev', next'⟩, hs, hlinks⟩ := hlinks
  obtain ⟨rfl, rfl⟩ := Prod.mk.inj hlinks
  rw [entryAt?, hs, Option.bind_some] at hentry
  rw [hs, ← hentry]

/-- The links run through some slots, from the one before them to the one after them and back. -/
def Chain (links : Nat → Option (Option Nat × Option Nat)) :
    Option Nat → List Nat → Option Nat → Prop
  | _, [], _ => True
  | before, i :: is, after =>
    links i = some (before, is.head?.or after) ∧ Chain links (some i) is after

namespace Chain

variable {links links' : Nat → Option (Option Nat × Option Nat)} {before after : Option Nat}
  {is js : List Nat}

theorem getLast?_cons_or (i : Nat) (is : List Nat) (before : Option Nat) :
    (i :: is).getLast?.or before = is.getLast?.or (some i) := by
  rw [List.getLast?_cons]
  cases is.getLast? <;> rfl

theorem append_iff : Chain links before (is ++ js) after ↔
    Chain links before is (js.head?.or after) ∧ Chain links (is.getLast?.or before) js after := by
  induction is generalizing before with
  | nil => simp [Chain]
  | cons i is ih =>
      have hhead : (is ++ js).head?.or after = is.head?.or (js.head?.or after) := by
        rw [List.head?_append, Option.or_assoc]
      rw [List.cons_append, Chain, Chain, ih, hhead, getLast?_cons_or, and_assoc]

theorem exists_links (h : Chain links before is after) {i : Nat} (hi : i ∈ is) :
    ∃ l, links i = some l := by
  induction is generalizing before with
  | nil => cases hi
  | cons j is ih =>
      obtain ⟨hj, his⟩ := h
      obtain rfl | hi := List.mem_cons.mp hi
      · exact ⟨_, hj⟩
      · exact ih his hi

theorem congr (h : ∀ i ∈ is, links' i = links i) (hchain : Chain links before is after) :
    Chain links' before is after := by
  induction is generalizing before with
  | nil => trivial
  | cons i is ih =>
      obtain ⟨hi, his⟩ := hchain
      exact ⟨(h i (by simp)).trans hi, ih (fun j hj => h j (by simp [hj])) his⟩

end Chain

/-- The slots in use, from the most to the least recently used one. -/
structure Ordered (c : Lru K V) (is : List Nat) : Prop where
  head : c.head = is.head?
  tail : c.tail = is.getLast?
  chain : Chain c.linksAt? none is none

/-- The slots in use are there. -/
theorem Ordered.lt_size {is : List Nat} (h : c.Ordered is) {i : Nat} (hi : i ∈ is) :
    i < c.slots.size := by
  obtain ⟨l, hl⟩ := h.chain.exists_links hi
  rw [linksAt?, Option.map_eq_some_iff] at hl
  obtain ⟨s, hs, -⟩ := hl
  exact (Array.getElem?_eq_some_iff.mp hs).1

/-- The index does not matter for the order of use. -/
theorem Ordered.withIndex {is : List Nat} (h : c.Ordered is) (index : Std.HashMap K Nat) :
    ({ c with index } : Lru K V).Ordered is :=
  ⟨h.head, h.tail, h.chain⟩

/-- The first slots in use, up to the one after them. -/
structure Front (c : Lru K V) (is : List Nat) (after : Option Nat) : Prop where
  head : c.head = is.head?.or after
  chain : Chain c.linksAt? none is after

/-- The last slots in use, from the one before them on. -/
structure Back (c : Lru K V) (before : Option Nat) (is : List Nat) : Prop where
  tail : c.tail = is.getLast?.or before
  chain : Chain c.linksAt? before is none

theorem ordered_append_iff {is js : List Nat} :
    c.Ordered (is ++ js) ↔ c.Front is js.head? ∧ c.Back is.getLast? js := by
  constructor
  · rintro ⟨hhead, htail, hchain⟩
    rw [Chain.append_iff, Option.or_none, Option.or_none] at hchain
    rw [List.head?_append] at hhead
    rw [List.getLast?_append] at htail
    exact ⟨⟨hhead, hchain.1⟩, ⟨htail, hchain.2⟩⟩
  · rintro ⟨⟨hhead, hfront⟩, ⟨htail, hback⟩⟩
    refine ⟨?_, ?_, ?_⟩
    · rw [List.head?_append, hhead]
    · rw [List.getLast?_append, htail]
    · rw [Chain.append_iff, Option.or_none, Option.or_none]
      exact ⟨hfront, hback⟩

/-- Two maps that differ in links only. -/
structure Relinked (c c' : Lru K V) : Prop where
  index : c'.index = c.index
  free : c'.free = c.free
  capacity : c'.capacity = c.capacity
  size : c'.slots.size = c.slots.size
  entryAt? : ∀ i, c'.entryAt? i = c.entryAt? i

namespace Relinked

variable {c' d : Lru K V}

theorem refl (c : Lru K V) : Relinked c c :=
  ⟨rfl, rfl, rfl, rfl, fun _ => rfl⟩

theorem trans (h : Relinked c c') (h' : Relinked c' d) : Relinked c d where
  index := h'.index.trans h.index
  free := h'.free.trans h.free
  capacity := h'.capacity.trans h.capacity
  size := h'.size.trans h.size
  entryAt? i := (h'.entryAt? i).trans (h.entryAt? i)

theorem modifySlot (i : Nat) {f : Slot K V → Slot K V} (hf : ∀ s, (f s).entry = s.entry) :
    Relinked c (c.modifySlot i f) where
  index := rfl
  free := rfl
  capacity := rfl
  size := Array.size_modify
  entryAt? j := by
    simp only [Lru.entryAt?, Lru.modifySlot, Array.getElem?_modify]
    split
    · subst_vars
      cases c.slots[j]? <;> simp [hf]
    · rfl

theorem setNext (o next : Option Nat) : Relinked c (c.setNext o next) := by
  cases o with
  | none => exact ⟨rfl, rfl, rfl, rfl, fun _ => rfl⟩
  | some i => exact modifySlot i fun _ => rfl

theorem setPrev (o prev : Option Nat) : Relinked c (c.setPrev o prev) := by
  cases o with
  | none => exact ⟨rfl, rfl, rfl, rfl, fun _ => rfl⟩
  | some i => exact modifySlot i fun _ => rfl

theorem unlink (i : Nat) : Relinked c (c.unlink i) := by
  rw [Lru.unlink]
  split
  · exact refl c
  · exact ((setNext _ _).trans (setPrev _ _)).trans (modifySlot i fun _ => rfl)

theorem pushFront (i : Nat) : Relinked c (c.pushFront i) := by
  have hlinked := (modifySlot (c := c) i (f := fun s => { s with prev := none, next := c.head })
    fun _ => rfl).trans (setPrev c.head (some i))
  exact ⟨hlinked.index, hlinked.free, hlinked.capacity, hlinked.size, hlinked.entryAt?⟩

theorem promote (i : Nat) : Relinked c (c.promote i) := by
  rw [Lru.promote]
  split
  · exact refl c
  · exact (unlink i).trans (pushFront i)

end Relinked

section SetLinks

variable {is : List Nat} {before after : Option Nat}

theorem linksAt?_modifySlot (c : Lru K V) (i j : Nat) (f : Slot K V → Slot K V) :
    (c.modifySlot i f).linksAt? j =
      if i = j then (c.slots[j]?).map fun s => ((f s).prev, (f s).next) else c.linksAt? j := by
  simp only [linksAt?, modifySlot, Array.getElem?_modify]
  split
  · cases c.slots[j]? <;> rfl
  · rfl

theorem linksAt?_setNext (c : Lru K V) (o next : Option Nat) (j : Nat) :
    (c.setNext o next).linksAt? j =
      if o = some j then (c.linksAt? j).map fun l => (l.1, next) else c.linksAt? j := by
  cases o with
  | none => rfl
  | some i =>
      simp only [setNext, linksAt?_modifySlot, Option.some_inj]
      simp only [linksAt?, Option.map_map]
      rfl

theorem linksAt?_setPrev (c : Lru K V) (o prev : Option Nat) (j : Nat) :
    (c.setPrev o prev).linksAt? j =
      if o = some j then (c.linksAt? j).map fun l => (prev, l.2) else c.linksAt? j := by
  cases o with
  | none => rfl
  | some i =>
      simp only [setPrev, linksAt?_modifySlot, Option.some_inj]
      simp only [linksAt?, Option.map_map]
      rfl

theorem tail_setNext (c : Lru K V) (o next : Option Nat) : (c.setNext o next).tail = c.tail := by
  cases o <;> rfl

theorem head_setPrev (c : Lru K V) (o prev : Option Nat) : (c.setPrev o prev).head = c.head := by
  cases o <;> rfl

/-- The next link of the first slots leads elsewhere. -/
theorem Front.setNext (h : c.Front is after) (hn : is.Nodup) (next : Option Nat) :
    (c.setNext is.getLast? next).Front is next := by
  obtain rfl | ⟨js, j, rfl⟩ := List.eq_nil_or_concat is
  · exact ⟨rfl, trivial⟩
  · rw [List.concat_eq_append] at h hn ⊢
    obtain ⟨hhead, hchain⟩ := h
    obtain ⟨-, -, hdisjoint⟩ := List.nodup_append.mp hn
    rw [Chain.append_iff] at hchain
    rw [List.getLast?_concat]
    refine ⟨?_, Chain.append_iff.mpr ⟨?_, ?_⟩⟩
    · rw [List.head?_append, Option.or_assoc] at hhead ⊢
      exact hhead
    · apply hchain.1.congr
      intro i hi
      rw [linksAt?_setNext, if_neg]
      intro heq
      exact hdisjoint i hi j (by simp) (Option.some.inj heq).symm
    · refine ⟨?_, trivial⟩
      rw [linksAt?_setNext, if_pos rfl, hchain.2.1]
      rfl

/-- The previous link of the last slots leads elsewhere. -/
theorem Back.setPrev (h : c.Back before is) (hn : is.Nodup) (prev : Option Nat) :
    (c.setPrev is.head? prev).Back prev is := by
  cases is with
  | nil => exact ⟨rfl, trivial⟩
  | cons i is =>
      obtain ⟨htail, hi, hchain⟩ := h
      obtain ⟨hnot, -⟩ := List.nodup_cons.mp hn
      refine ⟨?_, ?_, ?_⟩
      · rw [List.getLast?_cons] at htail ⊢
        exact htail
      · rw [linksAt?_setPrev, if_pos (by rfl), hi]
        rfl
      · apply hchain.congr
        intro j hj
        rw [linksAt?_setPrev, if_neg]
        intro heq
        exact hnot (Option.some.inj heq ▸ hj)

theorem Front.setPrev (h : c.Front is after) {o : Option Nat} (ho : ∀ i ∈ is, o ≠ some i)
    (prev : Option Nat) : (c.setPrev o prev).Front is after where
  head := (head_setPrev ..).trans h.head
  chain := h.chain.congr fun i hi => by rw [linksAt?_setPrev, if_neg (ho i hi)]

theorem Back.setNext (h : c.Back before is) {o : Option Nat} (ho : ∀ i ∈ is, o ≠ some i)
    (next : Option Nat) : (c.setNext o next).Back before is where
  tail := (tail_setNext ..).trans h.tail
  chain := h.chain.congr fun i hi => by rw [linksAt?_setNext, if_neg (ho i hi)]

theorem Front.modifySlot (h : c.Front is after) {i : Nat} (hi : i ∉ is)
    (f : Slot K V → Slot K V) : (c.modifySlot i f).Front is after where
  head := h.head
  chain := h.chain.congr fun j hj => by
    have hne : i ≠ j := fun heq => hi (heq ▸ hj)
    rw [linksAt?_modifySlot, if_neg hne]

theorem Back.modifySlot (h : c.Back before is) {i : Nat} (hi : i ∉ is)
    (f : Slot K V → Slot K V) : (c.modifySlot i f).Back before is where
  tail := h.tail
  chain := h.chain.congr fun j hj => by
    have hne : i ≠ j := fun heq => hi (heq ▸ hj)
    rw [linksAt?_modifySlot, if_neg hne]

end SetLinks

section Operations

variable {i : Nat} {is pre post : List Nat}

theorem unlink_eq {prev next : Option Nat} (h : c.linksAt? i = some (prev, next)) :
    c.unlink i = ((c.setNext prev next).setPrev next prev).modifySlot i fun s =>
      { s with prev := none, next := none } := by
  rw [linksAt?, Option.map_eq_some_iff] at h
  obtain ⟨s, hs, heq⟩ := h
  obtain ⟨rfl, rfl⟩ := Prod.mk.inj heq
  rw [unlink, hs]

/-- Unlinking takes a slot out of the chain. -/
theorem Ordered.unlink (h : c.Ordered (pre ++ i :: post)) (hn : (pre ++ i :: post).Nodup) :
    (c.unlink i).Ordered (pre ++ post) := by
  obtain ⟨hfront, htail, hi, hchain⟩ := ordered_append_iff.mp h
  obtain ⟨hpre, hipost, hdisjoint⟩ := List.nodup_append.mp hn
  obtain ⟨hnot, hpost⟩ := List.nodup_cons.mp hipost
  have hnot' : i ∉ pre := fun hmem => hdisjoint i hmem i (by simp) rfl
  have hnext (j : Nat) (hj : j ∈ pre) : post.head? ≠ some j := fun heq =>
    hdisjoint j hj j (List.mem_cons_of_mem _ (List.mem_of_head? heq)) rfl
  have hprev (j : Nat) (hj : j ∈ post) : pre.getLast? ≠ some j := fun heq =>
    hdisjoint j (List.mem_of_getLast? heq) j (List.mem_cons_of_mem _ hj) rfl
  have hback : c.Back (some i) post := ⟨by rw [htail, Chain.getLast?_cons_or], hchain⟩
  rw [Option.or_none] at hi
  rw [unlink_eq hi]
  refine ordered_append_iff.mpr ⟨?_, ?_⟩
  · exact ((hfront.setNext hpre post.head?).setPrev hnext pre.getLast?).modifySlot hnot' _
  · exact ((hback.setNext hprev post.head?).setPrev hpost pre.getLast?).modifySlot hnot _

/-- Pushing links a slot in front of the chain. -/
theorem Ordered.pushFront (h : c.Ordered is) (hn : (i :: is).Nodup) (hi : i < c.slots.size) :
    (c.pushFront i).Ordered (i :: is) := by
  obtain ⟨hhead, htail, hchain⟩ := h
  obtain ⟨hnot, his⟩ := List.nodup_cons.mp hn
  have hback : c.Back none is := ⟨by rw [htail, Option.or_none], hchain⟩
  let own := c.modifySlot i fun s => { s with prev := none, next := c.head }
  have hlinked : (own.setPrev c.head (some i)).Back (some i) is := by
    rw [hhead]
    exact (hback.modifySlot hnot _).setPrev his (some i)
  have hown : (own.setPrev c.head (some i)).linksAt? i = some (none, is.head?.or none) := by
    have hne : c.head ≠ some i := fun heq => hnot (List.mem_of_head? (hhead ▸ heq))
    rw [linksAt?_setPrev, if_neg hne, linksAt?_modifySlot, if_pos rfl,
      Array.getElem?_eq_getElem hi, hhead, Option.or_none]
    rfl
  refine ⟨rfl, ?_, hown, hlinked.chain⟩
  rw [← Option.or_none (o := (i :: is).getLast?), Chain.getLast?_cons_or]
  exact hlinked.tail

/-- Promoting moves a slot of the chain to its front. -/
theorem Ordered.promote (h : c.Ordered (pre ++ i :: post)) (hn : (pre ++ i :: post).Nodup)
    (hi : i < c.slots.size) : (c.promote i).Ordered (i :: (pre ++ post)) := by
  have hperm : (pre ++ i :: post).Perm (i :: (pre ++ post)) := List.perm_middle
  rw [Lru.promote]
  split
  · next hfirst =>
    cases pre with
    | nil => exact h
    | cons j pre =>
        have hij : i = j := Option.some.inj (hfirst.symm.trans h.head)
        subst hij
        simp at hn
  · have hsize : i < (c.unlink i).slots.size := (Relinked.unlink (c := c) i).size ▸ hi
    exact (h.unlink hn).pushFront (hperm.nodup_iff.mp hn) hsize

end Operations

end UiTree.Lru
