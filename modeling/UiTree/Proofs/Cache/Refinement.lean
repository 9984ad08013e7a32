import UiTree.Proofs.Cache.Representation

/-!
# Bounded maps keep the order of use

Every operation of a bounded map answers like the order of use and leaves the entries that the order
of use describes. Hence from the empty map on, clients see nothing of slots, links and index, in
however long a run.
-/

namespace UiTree.Lru

variable {K V : Type} [BEq K] [Hashable K] {c : Lru K V} {cells pre post : List (Nat × K × V)}
  {i : Nat} {e : K × V} {key : K}

/-- An operation answers as the order of use does, and leaves cells in this order. -/
def Follows (c : Lru K V) (es : List (K × V)) (op : MapOperation K V) : Prop :=
  ∃ cells, (c.step op).2.Shows cells ∧ (c.step op).2.capacity = c.capacity ∧
    UseOrder.step c.capacity es op = ((c.step op).1, cells.map (·.2))

theorem Follows.intro {d : Lru K V} {es : List (K × V)} {op : MapOperation K V}
    (answer : MapAnswer K V) (hstep : c.step op = (answer, d)) (hd : d.Shows cells)
    (hcapacity : d.capacity = c.capacity)
    (hspec : UseOrder.step c.capacity es op = (answer, cells.map (·.2))) : c.Follows es op := by
  refine ⟨cells, ?_⟩
  rw [hstep]
  exact ⟨hd, hcapacity, hspec⟩

theorem unlink_index (c : Lru K V) (index : Std.HashMap K Nat) (i : Nat) :
    ({ c with index } : Lru K V).unlink i = { c.unlink i with index } := by
  cases hs : c.slots[i]? with
  | none => simp only [unlink, hs]
  | some s =>
      obtain ⟨entry, prev, next⟩ := s
      simp only [unlink, hs]
      cases prev <;> cases next <;> rfl

/-- Forgetting the key before or after the slot is released makes no difference. -/
theorem remove_of_found (hi : c.index[key]? = some i) :
    c.remove key = ({ ((c.unlink i).release i).1 with index := c.index.erase key },
      ((c.unlink i).release i).2.map (·.2)) := by
  simp only [remove, hi, unlink_index]
  rfl

namespace Shows

section Observations

theorem entriesFrom_eq {cells : List (Nat × K × V)} {before : Option Nat} {limit : Nat}
    (hchain : Chain c.linksAt? before (cells.map (·.1)) none)
    (hentries : ∀ x ∈ cells, c.entryAt? x.1 = some x.2) (hlimit : cells.length ≤ limit) :
    c.entriesFrom limit (cells.map (·.1)).head? = cells.map (·.2) := by
  induction cells generalizing before limit with
  | nil => cases limit <;> rfl
  | cons x cells ih =>
      obtain ⟨limit, rfl⟩ : ∃ l, limit = l + 1 := ⟨limit - 1, by simp at hlimit; omega⟩
      obtain ⟨hlinks, hchain⟩ := hchain
      have ih := ih hchain (fun y hy => hentries y (by simp [hy])) (by simpa using hlimit)
      have hs := getElem?_slots hlinks (hentries x (by simp))
      rw [Option.or_none] at hs
      simp only [List.map_cons, List.head?_cons, entriesFrom, hs, ih]

/-- The entries are listed in the order of use. -/
theorem toList_eq (h : c.Shows cells) : c.toList = cells.map (·.2) := by
  have hadd := h.length_add
  rw [toList, h.ordered.head]
  exact entriesFrom_eq h.ordered.chain h.entries (by omega)

theorem size_eq (h : c.Shows cells) : c.size = (cells.map (·.2)).length := by
  rw [List.length_map, ← h.indexed.size, Lru.size]

theorem isEmpty_eq (h : c.Shows cells) : c.isEmpty = (cells.map (·.2)).isEmpty := by
  rw [Lru.isEmpty, Std.HashMap.isEmpty_eq_size_eq_zero, h.indexed.size]
  cases cells <;> rfl

theorem find?_eq_none (h : c.Shows cells) (hi : c.index[key]? = none) :
    UseOrder.find? (cells.map (·.2)) key = none :=
  UseOrder.find?_eq_none (h.indexed.forall_ne hi)

theorem valueAt?_eq (h : c.Shows (pre ++ (i, e) :: post)) : c.valueAt? i = some e.2 := by
  have hentry : c.entryAt? i = some e := h.entries (i, e) (by simp)
  rw [entryAt?] at hentry
  rw [valueAt?, hentry]
  rfl

/-- The slot that is unlinked to be released still holds its entry. -/
theorem release_eq (h : c.Shows (pre ++ (i, e) :: post)) :
    ((c.unlink i).release i).2 = some e :=
  ((Relinked.unlink i).entryAt? i).trans (h.entries (i, e) (by simp))

end Observations

section Operations

theorem peek_follows (h : c.Shows cells) (key : K) : c.Follows (cells.map (·.2)) (.peek key) := by
  refine .intro _ rfl h rfl ?_
  cases hi : c.index[key]? with
  | none => simp [UseOrder.step, h.find?_eq_none hi, peek?, hi]
  | some i =>
      obtain ⟨pre, e, post, rfl, hkey, hpre⟩ := h.exists_split hi
      simp [UseOrder.step, UseOrder.find?_append_cons hkey hpre, peek?, hi, h.valueAt?_eq]

theorem get_follows (h : c.Shows cells) (key : K) : c.Follows (cells.map (·.2)) (.get key) := by
  cases hi : c.index[key]? with
  | none =>
      refine .intro (.found none) ?_ h rfl ?_
      · simp only [step, get, hi]
      · simp only [UseOrder.step, h.find?_eq_none hi]
  | some i =>
      obtain ⟨pre, e, post, rfl, hkey, hpre⟩ := h.exists_split hi
      have hpromoted : (c.promote i).Shows ([] ++ (i, e) :: (pre ++ post)) := h.promote
      refine .intro (.found (some e.2)) ?_ hpromoted (Relinked.promote i).capacity ?_
      · simp only [step, get, hi, hpromoted.valueAt?_eq]
      · simp [UseOrder.step, UseOrder.find?_append_cons hkey hpre,
          UseOrder.without_append_cons hkey hpre]

variable [EquivBEq K]

theorem modify_follows (h : c.Shows cells) (key : K) (f : V → V) :
    c.Follows (cells.map (·.2)) (.modify key f) := by
  cases hi : c.index[key]? with
  | none =>
      refine .intro (.found none) ?_ h rfl ?_
      · simp only [step, modify, hi]
      · simp only [UseOrder.step, h.find?_eq_none hi]
  | some i =>
      obtain ⟨pre, e, post, rfl, hkey, hpre⟩ := h.exists_split hi
      have hpromoted : (c.promote i).Shows ([] ++ (i, e) :: (pre ++ post)) := h.promote
      have hchange : (some e).map (fun e => (e.1, f e.2)) = some (e.1, f e.2) := rfl
      have hwritten := hpromoted.write (g := Option.map fun e => (e.1, f e.2)) hchange
        (BEq.refl e.1)
      refine .intro (.found (some (f e.2))) ?_ hwritten (Relinked.promote i).capacity ?_
      · simp only [step, modify, hi]
        rw [hwritten.valueAt?_eq]
      · simp [UseOrder.step, UseOrder.find?_append_cons hkey hpre,
          UseOrder.without_append_cons hkey hpre]

variable [LawfulHashable K]

/-- Dropping takes the last cell away. -/
theorem dropLast_eq (h : c.Shows (pre ++ [(i, e)])) :
    ∃ d, c.dropLast = (d, some e) ∧ d.Shows pre ∧ d.index = c.index.erase e.1 ∧
      d.capacity = c.capacity := by
  have htail := h.tail_eq
  have hrelinked : Relinked c (c.unlink i) := Relinked.unlink i
  have hdropped := h.drop (BEq.refl e.1)
  rw [List.append_nil] at hdropped
  have hreleased := h.release_eq
  have hindex : ((c.unlink i).release i).1.index = c.index := hrelinked.index
  have hcapacity : ((c.unlink i).release i).1.capacity = c.capacity := hrelinked.capacity
  refine ⟨_, ?_, hdropped, rfl, hcapacity⟩
  simp only [Lru.dropLast, htail]
  generalize (c.unlink i).release i = released at hreleased hindex ⊢
  obtain ⟨d, entry⟩ := released
  obtain rfl : entry = some e := hreleased
  simp only [← hindex]

/-- When there is no room, dropping takes the last cell away and so makes room for a new one. -/
theorem exists_dropLast (h : c.Shows cells) (hfull : c.capacity ≤ c.size) :
    ∃ d pre e, c.dropLast = (d, some e) ∧ d.Shows pre ∧ d.capacity = c.capacity ∧
      pre.length < d.capacity ∧ cells.map (·.2) = pre.map (·.2) ++ [e] ∧
        ∀ key : K, c.index[key]? = none → d.index[key]? = none := by
  obtain ⟨pre, ⟨i, e⟩, rfl⟩ : ∃ pre x, cells = pre ++ [x] := by
    obtain rfl | ⟨pre, x, hx⟩ := List.eq_nil_or_concat cells
    · have hsize := h.size_eq
      have hpos := c.capacity_pos
      rw [List.map_nil, List.length_nil] at hsize
      omega
    · exact ⟨pre, x, by rw [hx, List.concat_eq_append]⟩
  obtain ⟨d, hdrop, hd, hindex, hcapacity⟩ := h.dropLast_eq
  have hroom : pre.length < d.capacity := by
    have hle := h.length_le
    rw [List.length_append, List.length_singleton] at hle
    omega
  refine ⟨d, pre, e, hdrop, hd, hcapacity, hroom, by simp, ?_⟩
  intro key hkey
  rw [hindex, Std.HashMap.getElem?_erase, hkey, ite_self]

theorem put_follows (h : c.Shows cells) (key : K) (value : V) :
    c.Follows (cells.map (·.2)) (.put key value) := by
  cases hi : c.index[key]? with
  | some i =>
      obtain ⟨pre, e, post, rfl, hkey, hpre⟩ := h.exists_split hi
      have hwritten := (h.write (g := fun _ => some (key, value)) rfl (BEq.symm hkey)).promote
      refine .intro (.dropped none) ?_ hwritten (Relinked.promote i).capacity ?_
      · simp only [step, put, hi]
      · simp [UseOrder.step, UseOrder.find?_append_cons hkey hpre,
          UseOrder.without_append_cons hkey hpre]
  | none =>
      have hnone := h.find?_eq_none hi
      have hsize := h.size_eq
      by_cases hfull : c.capacity ≤ c.size
      · obtain ⟨d, pre, e, hdrop, hd, hcapacity, hroom, hes, hforgets⟩ :=
          h.exists_dropLast hfull
        obtain ⟨j, hadded, hbound⟩ := hd.added value (hforgets key hi) hroom
        refine .intro (.dropped (some e)) ?_ hadded (hbound.trans hcapacity) ?_
        · simp only [step, put_of_new hi, if_pos hfull, hdrop]
        · have hnoroom : ¬ (cells.map (·.2)).length < c.capacity := by omega
          rw [UseOrder.step, hnone, if_neg (by simp), if_neg hnoroom, hes]
          simp
      · have hroom : (cells.map (·.2)).length < c.capacity := by omega
        obtain ⟨j, hadded, hbound⟩ := h.added value hi (by simpa using hroom)
        refine .intro (.dropped none) ?_ hadded hbound ?_
        · simp only [step, put_of_new hi, if_neg hfull]
        · rw [UseOrder.step, hnone, if_neg (by simp), if_pos hroom]
          rfl

theorem remove_follows (h : c.Shows cells) (key : K) :
    c.Follows (cells.map (·.2)) (.remove key) := by
  cases hi : c.index[key]? with
  | none =>
      refine .intro (.found none) ?_ h rfl ?_
      · simp only [step, remove, hi]
      · rw [UseOrder.step, h.find?_eq_none hi, UseOrder.without_eq_self (h.indexed.forall_ne hi)]
        rfl
  | some i =>
      obtain ⟨pre, e, post, rfl, hkey, hpre⟩ := h.exists_split hi
      have hcapacity : ((c.unlink i).release i).1.capacity = c.capacity :=
        (Relinked.unlink (c := c) i).capacity
      refine .intro (.found (some e.2)) ?_ (h.drop hkey) hcapacity ?_
      · simp only [step, remove_of_found hi, h.release_eq]
        rfl
      · simp [UseOrder.step, UseOrder.find?_append_cons hkey hpre,
          UseOrder.without_append_cons hkey hpre]

theorem contains_follows (h : c.Shows cells) (key : K) :
    c.Follows (cells.map (·.2)) (.contains key) := by
  refine .intro _ rfl h rfl ?_
  rw [Lru.contains, Std.HashMap.contains_eq_isSome_getElem?]
  cases hi : c.index[key]? with
  | none => simp [UseOrder.step, h.find?_eq_none hi]
  | some i =>
      obtain ⟨pre, e, post, rfl, hkey, hpre⟩ := h.exists_split hi
      simp [UseOrder.step, UseOrder.find?_append_cons hkey hpre]

/-- Every operation follows the order of use. -/
theorem follows (h : c.Shows cells) (op : MapOperation K V) : c.Follows (cells.map (·.2)) op := by
  cases op with
  | put key value => exact h.put_follows key value
  | get key => exact h.get_follows key
  | modify key f => exact h.modify_follows key f
  | peek key => exact h.peek_follows key
  | contains key => exact h.contains_follows key
  | remove key => exact h.remove_follows key
  | values => exact .intro _ rfl h rfl (by rw [Lru.values, h.toList_eq]; rfl)
  | entries => exact .intro _ rfl h rfl (by rw [h.toList_eq]; rfl)
  | size => exact .intro _ rfl h rfl (by rw [h.size_eq]; rfl)
  | isEmpty => exact .intro _ rfl h rfl (by rw [h.isEmpty_eq]; rfl)
  | clear => exact .intro .done rfl (Shows.empty c.capacity c.capacity_pos) rfl rfl

/-- So does every run, and the entries have distinct keys and are no more than the capacity. -/
theorem run_eq (h : c.Shows cells) (ops : List (MapOperation K V)) :
    c.run ops = UseOrder.run c.capacity (cells.map (·.2)) ops ∧
      ∀ x ∈ c.run ops, UseOrder.Distinct x.2 ∧ x.2.length ≤ c.capacity := by
  induction ops generalizing c cells with
  | nil => exact ⟨rfl, by simp [Lru.run]⟩
  | cons op ops ih =>
      obtain ⟨cells', hshows, hcapacity, hstep⟩ := h.follows op
      obtain ⟨hrun, hall⟩ := ih hshows
      rw [hcapacity] at hrun hall
      constructor
      · simp only [Lru.run, UseOrder.run, hstep, hshows.toList_eq, hrun]
      · simp only [Lru.run, List.forall_mem_cons, hshows.toList_eq]
        refine ⟨⟨hshows.indexed.distinct hshows.nodup_cells, ?_⟩, hall⟩
        rw [List.length_map, ← hcapacity]
        exact hshows.length_le

end Operations

end Shows

/-- From the empty map on, every run answers and orders the entries as the order of use does, a list
with distinct keys that is never longer than the capacity. -/
theorem run_create [EquivBEq K] [LawfulHashable K] (capacity : Nat) (hpos : 0 < capacity) :
    ∃ c : Lru K V, create capacity = .ok c ∧ ∀ ops : List (MapOperation K V),
      c.run ops = UseOrder.run capacity [] ops ∧
        ∀ x ∈ UseOrder.run capacity ([] : List (K × V)) ops,
          UseOrder.Distinct x.2 ∧ x.2.length ≤ capacity := by
  refine ⟨empty capacity hpos, dif_pos hpos, ?_⟩
  intro ops
  have hshows : (empty capacity hpos : Lru K V).Shows [] := Shows.empty capacity hpos
  obtain ⟨hrun, hall⟩ := hshows.run_eq ops
  have hrun : (empty capacity hpos : Lru K V).run ops = UseOrder.run capacity [] ops := hrun
  exact ⟨hrun, hrun ▸ hall⟩

/-- With room for two entries, a value that was read is kept, and its emptied slot is used again. -/
theorem run_create_two : ∃ c : Lru Nat Nat, create 2 = .ok c ∧
    c.run [.put 1 10, .put 2 20, .get 1, .put 3 30, .modify 1 (· + 5), .remove 3, .put 4 40,
        .entries] =
      [(.dropped none, [(1, 10)]), (.dropped none, [(2, 20), (1, 10)]),
        (.found (some 10), [(1, 10), (2, 20)]), (.dropped (some (2, 20)), [(3, 30), (1, 10)]),
        (.found (some 15), [(1, 15), (3, 30)]), (.found (some 30), [(1, 15)]),
        (.dropped none, [(4, 40), (1, 15)]),
        (.entries [(4, 40), (1, 15)], [(4, 40), (1, 15)])] := by
  obtain ⟨c, hc, hrun⟩ := run_create (K := Nat) (V := Nat) 2 (by decide)
  exact ⟨c, hc, (hrun _).1.trans rfl⟩

end UiTree.Lru
