import UiTree.Proofs.Cache.Guarded

/-!
# Links, index and free slots agree

A bounded map knows of an entry in several ways at once: a slot holds it, the links of the slots
lead to that slot in both directions, and the index gives the slot for the key. Whatever operations
are made, these agree with each other, and the slots that hold nothing are the free ones. Hence no
slot is lost, none serves two entries, no operation goes to a slot that is not there, and a listing
ends.

## Implementation notes

Agreement is stated by what one meets on the way along the links, in each direction on its own. It
is shown to say of a map no more and no less than that the map shows some cells, so an operation
keeps it because an operation on cells leaves cells.
-/

namespace UiTree.Lru

variable {K V : Type} [BEq K] [Hashable K] {c : Lru K V} {used : List Nat}

/-- Following the links from a start passes some slots one after the other and leads to a stop. Only
a slot that is there can be passed. -/
def Trail (link : Nat → Option (Option Nat)) : Option Nat → List Nat → Option Nat → Prop
  | start, [], stop => start = stop
  | start, i :: is, stop => start = some i ∧ ∃ next, link i = some next ∧ Trail link next is stop

/-- Where a slot leads to, less recently used. -/
def nextAt? (c : Lru K V) (i : Nat) : Option (Option Nat) := (c.slots[i]?).map (·.next)

/-- Where a slot leads to, more recently used. -/
def prevAt? (c : Lru K V) (i : Nat) : Option (Option Nat) := (c.slots[i]?).map (·.prev)

/-- The parts of a map agree about the slots in use, which are listed from the most to the least
recently used one. -/
structure Consistent (c : Lru K V) (used : List Nat) : Prop where
  /-- The links lead from the head through the slots in use to the end. -/
  forth : Trail c.nextAt? c.head used none
  /-- The links in the other direction lead from the tail through the same slots. -/
  back : Trail c.prevAt? c.tail used.reverse none
  nodup : used.Nodup
  indexed : ∀ i, i ∈ used ↔ ∃ key : K, c.index[key]? = some i
  /-- The slot that the index gives for a key holds the entry with this key. -/
  holds : ∀ (key : K) i, c.index[key]? = some i → ∃ e, c.entryAt? i = some e ∧ (e.1 == key) = true
  size : c.size = used.length
  free_nodup : c.free.Nodup
  /-- The free slots are all those that are not in use. -/
  mem_free_iff : ∀ i, i ∈ c.free ↔ i < c.slots.size ∧ i ∉ used
  emptied : ∀ i ∈ c.free, c.entryAt? i = none
  bounded : c.slots.size ≤ c.capacity

section Trails

variable {link : Nat → Option (Option Nat)} {links : Nat → Option (Option Nat × Option Nat)}
  {start finish stop before after : Option Nat} {is : List Nat} {i : Nat}

theorem trail_concat_iff :
    Trail link start (is ++ [i]) stop ↔ Trail link start is (some i) ∧ link i = some stop := by
  induction is generalizing start with
  | nil => simp [Trail]
  | cons j is ih => simp only [List.cons_append, Trail, ih, ← and_assoc, exists_and_right]

/-- The slots that are passed on the way to the end depend on the links alone. -/
theorem Trail.unique {js : List Nat} (h : Trail link start is none)
    (h' : Trail link start js none) : is = js := by
  induction is generalizing start js with
  | nil =>
      obtain rfl : start = none := h
      cases js with
      | nil => rfl
      | cons j js => cases h'.1
  | cons i is ih =>
      obtain ⟨rfl, next, hnext, his⟩ := h
      cases js with
      | nil => cases h'
      | cons j js =>
          obtain ⟨hj, next', hnext', hjs⟩ := h'
          obtain rfl := Option.some.inj hj
          obtain rfl := Option.some.inj (hnext.symm.trans hnext')
          rw [ih his hjs]

/-- Links run through some slots and back if they can be followed in one direction and, passing the
same slots the other way round, in the other. -/
theorem trails_iff_chain :
    Trail (fun i => (links i).map (·.2)) start is after ∧
        Trail (fun i => (links i).map (·.1)) finish is.reverse before ↔
      start = is.head?.or after ∧ finish = is.getLast?.or before ∧
        Chain links before is after := by
  induction is generalizing start before with
  | nil => simp [Trail, Chain]
  | cons i is ih =>
      rw [List.reverse_cons, trail_concat_iff, Chain.getLast?_cons_or, Chain, List.head?_cons,
        Option.some_or, Trail]
      constructor
      · rintro ⟨⟨rfl, next, hnext, hforth⟩, hback, hprev⟩
        obtain ⟨rfl, hfinish, hchain⟩ := ih.mp ⟨hforth, hback⟩
        obtain ⟨l, hl, hlnext⟩ := Option.map_eq_some_iff.mp hnext
        rw [hl, Option.map_some, Option.some_inj] at hprev
        exact ⟨rfl, hfinish, hl.trans (congrArg some (Prod.ext hprev hlnext)), hchain⟩
      · rintro ⟨rfl, hfinish, hlinks, hchain⟩
        obtain ⟨hforth, hback⟩ := ih.mpr ⟨rfl, hfinish, hchain⟩
        exact ⟨⟨rfl, _, by rw [hlinks, Option.map_some], hforth⟩, hback,
          by rw [hlinks, Option.map_some]⟩

theorem ordered_iff_trails : c.Ordered is ↔
    Trail c.nextAt? c.head is none ∧ Trail c.prevAt? c.tail is.reverse none := by
  have hnext : c.nextAt? = fun i => (c.linksAt? i).map (·.2) := by
    funext i
    rw [nextAt?, linksAt?, Option.map_map]
    rfl
  have hprev : c.prevAt? = fun i => (c.linksAt? i).map (·.1) := by
    funext i
    rw [prevAt?, linksAt?, Option.map_map]
    rfl
  rw [hnext, hprev, trails_iff_chain, Option.or_none, Option.or_none]
  exact ⟨fun h => ⟨h.head, h.tail, h.chain⟩, fun h => ⟨h.1, h.2.1, h.2.2⟩⟩

end Trails

/-- The slots in use and the free ones are all the slots, each of them once. -/
theorem Consistent.partition (h : c.Consistent used) :
    (used ++ c.free).Perm (List.range c.slots.size) := by
  have hordered := ordered_iff_trails.mpr ⟨h.forth, h.back⟩
  have hnodup : (used ++ c.free).Nodup := List.nodup_append.mpr
    ⟨h.nodup, h.free_nodup, fun i hi j hj heq => ((h.mem_free_iff j).mp hj).2 (heq ▸ hi)⟩
  rw [List.perm_ext_iff_of_nodup hnodup List.nodup_range]
  intro i
  rw [List.mem_append, h.mem_free_iff, List.mem_range]
  constructor
  · rintro (hi | ⟨hi, -⟩)
    · exact hordered.lt_size hi
    · exact hi
  · intro hi
    exact (Decidable.em (i ∈ used)).imp_right fun hnot => ⟨hi, hnot⟩

/-- Slots that hold entries are the slots of cells. -/
theorem exists_cells (h : ∀ i ∈ used, ∃ e, c.entryAt? i = some e) :
    ∃ cells : List (Nat × K × V), cells.map (·.1) = used ∧
      ∀ x ∈ cells, c.entryAt? x.1 = some x.2 := by
  induction used with
  | nil => exact ⟨[], rfl, by simp⟩
  | cons i used ih =>
      obtain ⟨e, he⟩ := h i (by simp)
      obtain ⟨cells, rfl, hcells⟩ := ih fun j hj => h j (List.mem_cons_of_mem _ hj)
      exact ⟨(i, e) :: cells, rfl, List.forall_mem_cons.mpr ⟨he, hcells⟩⟩

/-- All slots have numbers below the capacity, so any number from there on is free to mark a missing
link. -/
theorem Consistent.lt_capacity (h : c.Consistent used) : ∀ i ∈ used ++ c.free, i < c.capacity := by
  intro i hi
  exact Nat.lt_of_lt_of_le (List.mem_range.mp (h.partition.mem_iff.mp hi)) h.bounded

variable [EquivBEq K]

theorem Shows.consistent {cells : List (Nat × K × V)} (h : c.Shows cells) :
    c.Consistent (cells.map (·.1)) where
  forth := (ordered_iff_trails.mp h.ordered).1
  back := (ordered_iff_trails.mp h.ordered).2
  nodup := h.nodup_cells
  indexed i := by
    rw [List.mem_map]
    constructor
    · rintro ⟨x, hx, rfl⟩
      exact ⟨x.2.1, (h.indexed.found _ _).mpr ⟨x, hx, rfl, BEq.refl _⟩⟩
    · rintro ⟨key, hi⟩
      obtain ⟨x, hx, hxi, -⟩ := (h.indexed.found key i).mp hi
      exact ⟨x, hx, hxi⟩
  holds key i hi := by
    obtain ⟨x, hx, rfl, hkey⟩ := (h.indexed.found key i).mp hi
    exact ⟨x.2, h.entries x hx, hkey⟩
  size := by rw [h.size_eq, List.length_map, List.length_map]
  free_nodup := (List.nodup_append.mp h.nodup).2.1
  mem_free_iff i := by
    have hall := h.slots.mem_iff (a := i)
    have hdisjoint := (List.nodup_append.mp h.nodup).2.2
    rw [List.mem_append, List.mem_range] at hall
    constructor
    · intro hi
      exact ⟨hall.mp (.inr hi), fun hused => hdisjoint i hused i hi rfl⟩
    · rintro ⟨hi, hnot⟩
      exact (hall.mpr hi).resolve_left hnot
  emptied := h.emptied
  bounded := h.bounded

variable [LawfulHashable K]

/-- A consistent map shows the cells in the slots in use. -/
theorem Consistent.exists_shows (h : c.Consistent used) :
    ∃ cells, c.Shows cells ∧ cells.map (·.1) = used := by
  have hheld : ∀ i ∈ used, ∃ e, c.entryAt? i = some e := by
    intro i hi
    obtain ⟨key, hkey⟩ := (h.indexed i).mp hi
    obtain ⟨e, he, -⟩ := h.holds key i hkey
    exact ⟨e, he⟩
  obtain ⟨cells, rfl, hcells⟩ := exists_cells hheld
  have hfound (key : K) (i : Nat) :
      c.index[key]? = some i ↔ ∃ x ∈ cells, x.1 = i ∧ (x.2.1 == key) = true := by
    constructor
    · intro hi
      obtain ⟨x, hx, rfl⟩ := List.mem_map.mp ((h.indexed i).mpr ⟨key, hi⟩)
      obtain ⟨e, he, hkey⟩ := h.holds key x.1 hi
      obtain rfl := Option.some.inj ((hcells x hx).symm.trans he)
      exact ⟨x, hx, rfl, hkey⟩
    · rintro ⟨x, hx, rfl, hkey⟩
      obtain ⟨key', hi⟩ := (h.indexed x.1).mp (List.mem_map_of_mem hx)
      obtain ⟨e, he, hkey'⟩ := h.holds key' x.1 hi
      obtain rfl := Option.some.inj ((hcells x hx).symm.trans he)
      rw [← hi]
      exact Std.HashMap.getElem?_congr (BEq.trans (BEq.symm hkey) hkey')
  have hsize : c.index.size = cells.length := h.size.trans (List.length_map _)
  exact ⟨cells, ⟨ordered_iff_trails.mpr ⟨h.forth, h.back⟩, hcells, h.partition, h.emptied,
    ⟨hfound, hsize⟩, h.bounded⟩, rfl⟩

/-- An operation keeps a map consistent. -/
theorem Consistent.step (h : c.Consistent used) (op : MapOperation K V) :
    ∃ used', (c.step op).2.Consistent used' ∧ (c.step op).2.capacity = c.capacity := by
  obtain ⟨cells, hshows, -⟩ := h.exists_shows
  obtain ⟨cells', hshows', hcapacity, -⟩ := hshows.follows op
  exact ⟨cells'.map (·.1), hshows'.consistent, hcapacity⟩

/-- The map after some operations in a row. -/
def after (c : Lru K V) (ops : List (MapOperation K V)) : Lru K V :=
  ops.foldl (fun c op => (c.step op).2) c

theorem Consistent.after (h : c.Consistent used) (ops : List (MapOperation K V)) :
    ∃ used', (c.after ops).Consistent used' ∧ (c.after ops).capacity = c.capacity := by
  induction ops generalizing c used with
  | nil => exact ⟨used, h, rfl⟩
  | cons op ops ih =>
      obtain ⟨used', hstep, hcapacity⟩ := h.step op
      obtain ⟨used'', hafter, hcapacity'⟩ := ih hstep
      exact ⟨used'', hafter, hcapacity'.trans hcapacity⟩

/-- From the empty map on, every run leaves a map whose links, index and free slots agree. Each of
its slots is in use or free, and not twice, and has a number below the capacity. A listing comes to
the end in exactly as many steps as there are entries, and no further operation goes to a slot that
is not there. -/
theorem consistent_after_create (capacity : Nat) (hpos : 0 < capacity) :
    ∃ c : Lru K V, create capacity = .ok c ∧ ∀ ops : List (MapOperation K V), ∃ d used,
      c.after ops = d ∧ d.Consistent used ∧ d.capacity = capacity ∧
        (used ++ d.free).Perm (List.range d.slots.size) ∧ (∀ i ∈ used ++ d.free, i < capacity) ∧
        (∀ limit, Guarded.entriesFrom d limit d.head =
          if d.size ≤ limit then some d.toList else none) ∧
        ∀ op, Guarded.step d op = some (d.step op) := by
  refine ⟨empty capacity hpos, dif_pos hpos, ?_⟩
  intro ops
  have hempty : (empty capacity hpos : Lru K V).Shows [] := Shows.empty capacity hpos
  obtain ⟨used, hafter, hcapacity⟩ := hempty.consistent.after ops
  obtain ⟨cells, hshows, -⟩ := hafter.exists_shows
  exact ⟨_, used, rfl, hafter, hcapacity, hafter.partition,
    fun i hi => Nat.lt_of_lt_of_eq (hafter.lt_capacity i hi) hcapacity,
    Guarded.entriesFrom_head hshows, Guarded.step_eq hshows⟩

/-- An entry was displaced and its slot used again, the last entry came to the front, and an entry
between two others was removed. -/
theorem consistent_after_create_three :
    0 < 3 ∧ ∃ c d : Lru Nat Nat, create 3 = .ok c ∧
      c.after [.put 1 10, .put 2 20, .put 3 30, .get 1, .put 4 40, .modify 3 (· + 5),
        .remove 4] = d ∧
      d.Consistent [2, 0] ∧ d.free = [1] ∧ Guarded.entriesFrom d 1 d.head = none ∧
      Guarded.entriesFrom d 2 d.head = some [(3, 35), (1, 10)] ∧
      Guarded.step d (.remove 1) = some (d.step (.remove 1)) := by
  obtain ⟨c, hc, hrun⟩ := consistent_after_create (K := Nat) (V := Nat) 3 (by decide)
  obtain ⟨d, used, hd, hconsistent, -, -, -, hlisting, hguarded⟩ := hrun [.put 1 10, .put 2 20,
    .put 3 30, .get 1, .put 4 40, .modify 3 (· + 5), .remove 4]
  obtain rfl : empty 3 (by decide) = c := Except.ok.inj hc
  obtain ⟨hslots, hfree, hhead, hsize⟩ : d.slots = #[⟨some (1, 10), some 2, none⟩,
      ⟨none, none, none⟩, ⟨some (3, 35), none, some 0⟩] ∧ d.free = [1] ∧ d.head = some 2 ∧
      d.size = 2 := by
    subst hd
    simp [after, step, put, get, modify, remove, empty, size, allocate, pushFront, setPrev,
      setNext, modifySlot, promote, unlink, dropLast, release, Std.HashMap.size_insert,
      Std.HashMap.size_erase, Std.HashMap.getElem_insert]
  have htrail : Trail d.nextAt? d.head [2, 0] none := by simp [Trail, nextAt?, hhead, hslots]
  have hlist : d.toList = [(3, 35), (1, 10)] := by simp [toList, entriesFrom, hhead, hslots]
  obtain rfl := hconsistent.forth.unique htrail
  exact ⟨by decide, _, d, hc, hd, hconsistent, hfree, by simp [hlisting, hsize],
    by simp [hlisting, hsize, hlist], hguarded _⟩

end UiTree.Lru
