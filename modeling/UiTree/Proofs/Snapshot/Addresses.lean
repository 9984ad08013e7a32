import Mathlib.Data.List.Basic
import Mathlib.Data.List.Induction
import Mathlib.Data.Nat.Find
import UiTree.Provider.RawNode

/-!
# Addresses in a reported tree

The address of a node says how to come to it from the root: at each level, the place among the
siblings. In the order of a dictionary an address comes before its extensions, and these come
before whatever follows the address. So this order is the document order of the nodes, and what
lies below one node is not interrupted.
-/

namespace UiTree

/-- The way to a node from the root: for each level, the place among the siblings. -/
abbrev Address := List Nat

/-- Between an address and one of its extensions there are only extensions. -/
theorem Address.isPrefix_of_between {a b c : Address} (hc : a <+: c) (hab : a < b) (hbc : b < c) :
    a <+: b := by
  induction a generalizing b c with
  | nil => exact List.nil_prefix
  | cons x a ih =>
      obtain ⟨c, rfl⟩ := hc
      cases b with
      | nil => exact absurd hab (List.not_lt_nil _)
      | cons y b =>
          rw [List.cons_lt_cons_iff] at hab
          rw [List.cons_append, List.cons_lt_cons_iff] at hbc
          obtain ⟨rfl, hab, hbc⟩ : x = y ∧ a < b ∧ b < a ++ c := by
            rcases hab with hab | ⟨rfl, hab⟩ <;> rcases hbc with hbc | ⟨hyx, hbc⟩
            · omega
            · omega
            · omega
            · exact ⟨rfl, hab, hbc⟩
          exact List.cons_prefix_cons.mpr ⟨rfl, ih (List.prefix_append a c) hab hbc⟩

theorem Address.lt_of_isPrefix {a b : Address} (h : a <+: b) (hne : a ≠ b) : a < b := by
  induction a generalizing b with
  | nil =>
      cases b with
      | nil => exact absurd rfl hne
      | cons y b => exact List.nil_lt_cons _ _
  | cons x a ih =>
      obtain ⟨b, rfl⟩ := h
      rw [List.cons_append, List.cons_lt_cons_iff]
      exact .inr ⟨rfl, ih (List.prefix_append a b) fun h => hne (by rw [List.cons_append, ← h])⟩

theorem Address.append_lt_append {a b c : Address} (h : b < c) : a ++ b < a ++ c := by
  induction a with
  | nil => exact h
  | cons x a ih => exact List.cons_lt_cons_iff.mpr (.inr ⟨rfl, ih⟩)

namespace RawNode

variable {limit index : Nat} {a : Address} {r : RawNode}

/-- The node at an address. -/
def at? : RawNode → Address → Option RawNode
  | raw, [] => some raw
  | raw, index :: rest => (raw.children.bind (·[index]?)).bind (·.at? rest)

theorem at?_append (raw : RawNode) (a b : Address) :
    raw.at? (a ++ b) = (raw.at? a).bind (·.at? b) := by
  induction a generalizing raw with
  | nil => rfl
  | cons index a ih =>
      cases h : raw.children.bind (·[index]?) with
      | none => simp [at?, h]
      | some child => simp [at?, h, ih]

/-- The node at a longer address is a child of the node before it. -/
theorem at?_concat_eq_some_iff {raw : RawNode} :
    raw.at? (a ++ [index]) = some r ↔
      ∃ above children, raw.at? a = some above ∧ above.children = some children ∧
        children[index]? = some r := by
  rw [at?_append]
  simp [at?, Option.bind_eq_some_iff]

mutual

/-- The nodes of a subtree with their addresses, in document order. What is deeper than the limit
is left out. -/
def listing (limit : Nat) (here : Address) : RawNode → List (Address × RawNode)
  | .mk ref properties none => [(here, .mk ref properties none)]
  | .mk ref properties (some children) =>
    (here, .mk ref properties (some children)) ::
      if here.length < limit then listingOfSiblings limit here 0 children else []

/-- The nodes below some siblings with their addresses, one subtree after the other. -/
def listingOfSiblings (limit : Nat) (parent : Address) (index : Nat) :
    List RawNode → List (Address × RawNode)
  | [] => []
  | sibling :: siblings =>
    listing limit (parent ++ [index]) sibling ++
      listingOfSiblings limit parent (index + 1) siblings

end

/-- A listing begins with the node itself. -/
theorem listing_eq_cons (limit : Nat) (here : Address) (raw : RawNode) :
    ∃ below, raw.listing limit here = (here, raw) :: below := by
  obtain ⟨ref, properties, _ | children⟩ := raw
  · exact ⟨[], by rw [listing]⟩
  · exact ⟨_, by rw [listing]⟩

mutual

/-- A listing has the nodes that an address within the limit leads to. -/
theorem mem_listing_iff {here : Address} (raw : RawNode) (hlimit : here.length ≤ limit) :
    (a, r) ∈ raw.listing limit here ↔
      ∃ b, a = here ++ b ∧ a.length ≤ limit ∧ raw.at? b = some r := by
  match raw with
  | .mk ref properties none =>
      rw [listing, List.mem_singleton, Prod.mk.injEq]
      constructor
      · rintro ⟨rfl, rfl⟩
        exact ⟨[], (List.append_nil _).symm, hlimit, rfl⟩
      · rintro ⟨_ | ⟨index, b⟩, rfl, -, hat⟩
        · exact ⟨List.append_nil _, (Option.some.inj hat).symm⟩
        · simp [at?, children] at hat
  | .mk ref properties (some cs) =>
      rw [listing, List.mem_cons, Prod.mk.injEq]
      constructor
      · rintro (⟨rfl, rfl⟩ | hmem)
        · exact ⟨[], (List.append_nil _).symm, hlimit, rfl⟩
        · split at hmem
          · rename_i hlt
            obtain ⟨k, b, child, rfl, hlength, hk, hat⟩ :=
              (mem_listingOfSiblings_iff cs hlt).mp hmem
            exact ⟨k :: b, by rw [Nat.zero_add], hlength, by simp [at?, children, hk, hat]⟩
          · exact absurd hmem List.not_mem_nil
      · rintro ⟨_ | ⟨k, b⟩, ha, hlength, hat⟩
        · exact .inl ⟨by rw [ha, List.append_nil], (Option.some.inj hat).symm⟩
        · have hlt : here.length < limit := by
            rw [ha, List.length_append, List.length_cons] at hlength
            omega
          obtain ⟨child, hk, hat⟩ := Option.bind_eq_some_iff.mp hat
          rw [if_pos hlt]
          exact .inr ((mem_listingOfSiblings_iff cs hlt).mpr
            ⟨k, b, child, by rw [ha, Nat.zero_add], hlength, hk, hat⟩)

theorem mem_listingOfSiblings_iff {parent : Address} {index : Nat} (siblings : List RawNode)
    (hlimit : parent.length < limit) :
    (a, r) ∈ listingOfSiblings limit parent index siblings ↔
      ∃ k b child, a = parent ++ (index + k) :: b ∧ a.length ≤ limit ∧
        siblings[k]? = some child ∧ child.at? b = some r := by
  match siblings with
  | [] => simp [listingOfSiblings]
  | sibling :: siblings =>
      have hbelow : (parent ++ [index]).length ≤ limit := by
        rw [List.length_append, List.length_singleton]
        omega
      rw [listingOfSiblings, List.mem_append, mem_listing_iff sibling hbelow,
        mem_listingOfSiblings_iff siblings hlimit]
      constructor
      · rintro (⟨b, rfl, hlength, hat⟩ | ⟨k, b, child, rfl, hlength, hk, hat⟩)
        · exact ⟨0, b, sibling, by simp, hlength, rfl, hat⟩
        · exact ⟨k + 1, b, child, by rw [Nat.add_right_comm, Nat.add_assoc], hlength, hk, hat⟩
      · rintro ⟨_ | k, b, child, rfl, hlength, hk, hat⟩
        · obtain rfl := Option.some.inj hk
          exact .inl ⟨b, by simp, hlength, hat⟩
        · exact .inr ⟨k, b, child, by rw [Nat.add_right_comm, Nat.add_assoc], hlength, hk, hat⟩

end

mutual

/-- A listing is in document order and has each node once. -/
theorem listing_ascending {here : Address} (raw : RawNode) :
    (raw.listing limit here).Pairwise fun x y => x.1 < y.1 := by
  match raw with
  | .mk ref properties none =>
      rw [listing]
      exact List.pairwise_singleton _ _
  | .mk ref properties (some children) =>
      rw [listing]
      split
      · rename_i hlt
        refine List.pairwise_cons.mpr ⟨?_, listingOfSiblings_ascending children hlt⟩
        rintro ⟨a, r⟩ hmem
        obtain ⟨k, b, -, rfl, -⟩ := (mem_listingOfSiblings_iff children hlt).mp hmem
        exact Address.lt_of_isPrefix (List.prefix_append _ _) (by simp)
      · exact List.pairwise_singleton _ _

theorem listingOfSiblings_ascending {parent : Address} {index : Nat} (siblings : List RawNode)
    (hlimit : parent.length < limit) :
    (listingOfSiblings limit parent index siblings).Pairwise fun x y => x.1 < y.1 := by
  match siblings with
  | [] =>
      rw [listingOfSiblings]
      exact List.Pairwise.nil
  | sibling :: siblings =>
      have hbelow : (parent ++ [index]).length ≤ limit := by
        rw [List.length_append, List.length_singleton]
        omega
      rw [listingOfSiblings]
      refine List.pairwise_append.mpr ⟨listing_ascending sibling,
        listingOfSiblings_ascending siblings hlimit, ?_⟩
      rintro ⟨a, r⟩ ha ⟨a', r'⟩ ha'
      obtain ⟨b, rfl, -⟩ := (mem_listing_iff sibling hbelow).mp ha
      obtain ⟨k, b', -, rfl, -⟩ := (mem_listingOfSiblings_iff siblings hlimit).mp ha'
      rw [List.append_assoc]
      exact Address.append_lt_append (List.cons_lt_cons_iff.mpr (.inl (by omega)))

end

end RawNode

end UiTree
