import UiTree.Proofs.Cache.UseOrder
import Std.Data.HashMap

/-!
# The index of the slots

A cell is a slot with its entry. The index leads from the key of every cell to its slot and knows no
other key, so it tells which entry of the order of use has a key.
-/

namespace UiTree.Lru

variable {K V : Type} {cells pre post : List (Nat × K × V)} {i : Nat} {e : K × V} {key : K}

/-- In a list with distinct slots, no other cell has the slot of a cell. -/
theorem ne_of_nodup_split (h : ((pre ++ (i, e) :: post).map (·.1)).Nodup) {x : Nat × K × V}
    (hx : x ∈ pre ++ post) : i ≠ x.1 := by
  have hperm : (pre ++ (i, e) :: post).Perm ((i, e) :: (pre ++ post)) := List.perm_middle
  rw [(hperm.map (·.1)).nodup_iff, List.map_cons, List.nodup_cons] at h
  have hmem : x.1 ∈ (pre ++ post).map (·.1) := List.mem_map_of_mem hx
  intro heq
  exact h.1 (heq ▸ hmem)

variable [BEq K] [Hashable K] {index : Std.HashMap K Nat}

/-- The index leads from the keys of some cells to their slots. -/
structure Indexes (index : Std.HashMap K Nat) (cells : List (Nat × K × V)) : Prop where
  found : ∀ key i, index[key]? = some i ↔ ∃ x ∈ cells, x.1 = i ∧ (x.2.1 == key) = true
  size : index.size = cells.length

namespace Indexes

theorem empty : Indexes (∅ : Std.HashMap K Nat) ([] : List (Nat × K × V)) where
  found := by simp
  size := by simp

theorem perm (h : Indexes index cells) {cells' : List (Nat × K × V)} (hperm : cells'.Perm cells) :
    Indexes index cells' where
  found key i := by simp only [h.found, hperm.mem_iff]
  size := h.size.trans hperm.length_eq.symm

/-- A key that is known belongs to one cell. -/
theorem exists_split (h : Indexes index cells) (hnodup : (cells.map (·.1)).Nodup)
    (hi : index[key]? = some i) :
    ∃ pre e post, cells = pre ++ (i, e) :: post ∧ (e.1 == key) = true ∧
      ∀ d ∈ pre.map (·.2), (d.1 == key) = false := by
  obtain ⟨⟨j, e⟩, hmem, rfl, hkey⟩ := (h.found key i).mp hi
  obtain ⟨pre, post, rfl⟩ := List.append_of_mem hmem
  refine ⟨pre, e, post, rfl, hkey, ?_⟩
  rw [List.forall_mem_map]
  intro x hx
  rw [Bool.eq_false_iff]
  intro hother
  have hfound : index[key]? = some x.1 := (h.found key x.1).mpr ⟨x, by simp [hx], rfl, hother⟩
  have hne := ne_of_nodup_split hnodup (List.mem_append_left post hx)
  exact hne (Option.some.inj (hi.symm.trans hfound))

/-- A key that is not known belongs to no cell. -/
theorem forall_ne (h : Indexes index cells) (hi : index[key]? = none) :
    ∀ d ∈ cells.map (·.2), (d.1 == key) = false := by
  rw [List.forall_mem_map]
  intro x hx
  rw [Bool.eq_false_iff]
  intro hkey
  rw [(h.found key x.1).mpr ⟨x, hx, rfl, hkey⟩] at hi
  cases hi

section Equivalence

variable [EquivBEq K]

/-- Cells with distinct slots have distinct keys. -/
theorem distinct (h : Indexes index cells) (hnodup : (cells.map (·.1)).Nodup) :
    UseOrder.Distinct (cells.map (·.2)) := by
  have hslots : cells.Pairwise fun x y => x.1 ≠ y.1 := List.pairwise_map.mp hnodup
  apply List.pairwise_map.mpr
  refine hslots.imp_of_mem fun {x y} hx hy hne => ?_
  rw [Bool.eq_false_iff]
  intro hkey
  have hx : index[y.2.1]? = some x.1 := (h.found _ _).mpr ⟨x, hx, rfl, hkey⟩
  have hy : index[y.2.1]? = some y.1 := (h.found _ _).mpr ⟨y, hy, rfl, BEq.refl _⟩
  exact hne (Option.some.inj (hx.symm.trans hy))

/-- A cell may change its entry as long as it keeps its key. -/
theorem replace (h : Indexes index (pre ++ (i, e) :: post)) {e' : K × V}
    (hkey : (e'.1 == e.1) = true) : Indexes index (pre ++ (i, e') :: post) where
  found k j := by
    have hfound := h.found k j
    have hkeys : (e'.1 == k) = (e.1 == k) := BEq.congr_left hkey
    simp only [List.mem_append, List.mem_cons, or_and_right, exists_or, exists_eq_left] at hfound ⊢
    rw [hkeys]
    exact hfound
  size := by
    have hsize := h.size
    rw [List.length_append, List.length_cons] at hsize ⊢
    exact hsize

variable [LawfulHashable K]

theorem erase (h : Indexes index (pre ++ (i, e) :: post))
    (hnodup : ((pre ++ (i, e) :: post).map (·.1)).Nodup) (hkey : (e.1 == key) = true) :
    Indexes (index.erase key) (pre ++ post) := by
  have hfound : index[key]? = some i := (h.found key i).mpr ⟨(i, e), by simp, rfl, hkey⟩
  constructor
  · intro k j
    rw [Std.HashMap.getElem?_erase]
    split
    · next hk =>
      apply iff_of_false (by simp)
      rintro ⟨x, hx, -, hxk⟩
      have hxkey : (x.2.1 == key) = true := PartialEquivBEq.trans hxk (BEq.symm hk)
      have hmem : x ∈ pre ++ (i, e) :: post :=
        List.perm_middle.mem_iff.mpr (List.mem_cons_of_mem _ hx)
      have hother := (h.found key x.1).mpr ⟨x, hmem, rfl, hxkey⟩
      exact ne_of_nodup_split hnodup hx (Option.some.inj (hfound.symm.trans hother))
    · next hk =>
      have hek : (e.1 == k) = (key == k) := BEq.congr_left hkey
      rw [h.found]
      simp only [List.mem_append, List.mem_cons, or_and_right, exists_or, exists_eq_left, hek, hk,
        Bool.false_eq_true, and_false, false_or]
  · have hsize := h.size
    have hin : key ∈ index := by
      rw [Std.HashMap.mem_iff_isSome_getElem?, hfound]
      rfl
    rw [List.length_append, List.length_cons] at hsize
    rw [Std.HashMap.size_erase, if_pos hin, List.length_append]
    omega

theorem insert (h : Indexes index cells) (hkey : index[key]? = none) (i : Nat) (value : V) :
    Indexes (index.insert key i) ((i, key, value) :: cells) := by
  constructor
  · intro k j
    rw [Std.HashMap.getElem?_insert]
    split
    · next hk =>
      constructor
      · intro heq
        exact ⟨(i, key, value), by simp, Option.some.inj heq, hk⟩
      · rintro ⟨x, hx, rfl, hxk⟩
        obtain rfl | hx := List.mem_cons.mp hx
        · rfl
        · have hxkey : (x.2.1 == key) = true := PartialEquivBEq.trans hxk (BEq.symm hk)
          have hother := h.forall_ne hkey x.2 (List.mem_map_of_mem hx)
          rw [hxkey] at hother
          cases hother
    · next hk =>
      rw [h.found]
      simp only [List.mem_cons, or_and_right, exists_or, exists_eq_left, hk, Bool.false_eq_true,
        and_false, false_or]
  · have hout : key ∉ index := by
      rw [Std.HashMap.mem_iff_isSome_getElem?, hkey]
      simp
    rw [Std.HashMap.size_insert, if_neg hout, h.size, List.length_cons]

end Equivalence

end Indexes

end UiTree.Lru
