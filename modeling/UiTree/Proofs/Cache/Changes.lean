import UiTree.Proofs.Cache.Entries
import Mathlib.Logic.Relation

/-!
# Changes of the cache

Operations change the cache in five ways only, and a property of cached handles that stored
handles have, and that is asked of every handle written over a cached one, holds of all entries
after any of these changes.
-/

namespace UiTree.ElementCache

variable {P : Identity → Handle → Prop} {c c' : ElementCache} {i : Identity} {h : Handle}

/-- One change of a cache. A handle that is written over a cached one has the property `P` for its
identity. -/
inductive Change (P : Identity → Handle → Prop) (c : ElementCache) : ElementCache → Prop where
  | store (s : SnapshotRef) : Change P c (c.store s).1
  | evictStale (i : Identity) : Change P c (c.evictStale i)
  | reset : Change P c c.reset
  | use (i : Identity) : Change P c (c.use i).1
  | overwrite {i : Identity} {h : Handle} (hP : P i h) : Change P c (c.overwrite i h).1

/-- Some changes one after the other. -/
abbrev Changes (P : Identity → Handle → Prop) : ElementCache → ElementCache → Prop :=
  Relation.ReflTransGen (Change P)

/-- The map behind the cache is in order, and every entry has a property. -/
structure Holds (P : Identity → Handle → Prop) (c : ElementCache) : Prop where
  sound : c.Sound
  entries : ∀ e ∈ c.held, P e.1 e.2

namespace Sound

theorem exists_mem_of_has (hc : c.Sound) (hi : c.has i = true) : ∃ h, (i, h) ∈ c.held :=
  mem_identities_iff.mp (hc.has_iff.mp hi)

theorem mem_without_iff (hc : c.Sound) {e : Identity × Handle} :
    e ∈ UseOrder.without c.held i ↔ e ∈ c.held ∧ e.1 ≠ i :=
  UseOrder.mem_without_iff (Lru.Sound.distinct hc)

/-- What is evicted is not cached any more. -/
theorem has_evictStale (hc : c.Sound) (i : Identity) : (c.evictStale i).has i = false := by
  cases hi : c.has i with
  | false => rw [evictStale_of_not_has hi, hi]
  | true =>
      obtain ⟨h, hmem⟩ := hc.exists_mem_of_has hi
      obtain ⟨hsound, -, -, hheld⟩ := evictStale_of_mem hc hmem
      apply Bool.eq_false_iff.mpr
      intro hhas
      obtain ⟨h', hmem'⟩ := hsound.exists_mem_of_has hhas
      rw [hheld] at hmem'
      exact (hc.mem_without_iff.mp hmem').2 rfl

end Sound

namespace Holds

theorem mono {Q : Identity → Handle → Prop} (hc : c.Holds P) (hPQ : ∀ i h, P i h → Q i h) :
    c.Holds Q :=
  ⟨hc.sound, fun e he => hPQ e.1 e.2 (hc.entries e he)⟩

theorem store (hc : c.Holds P) {s : SnapshotRef}
    (hcaptured : ∀ i, s.node.ref.identity? = some i → P i (.captured (some i) s)) :
    (c.store s).1.Holds P ∧ (c.store s).1.capacity = c.capacity := by
  cases hs : s.node.ref.identity? with
  | none =>
      rw [store_of_none hs]
      exact ⟨hc, rfl⟩
  | some i =>
      obtain ⟨hsound, hcapacity, -, hstored⟩ := store_of_some hc.sound hs
      refine ⟨⟨hsound, ?_⟩, hcapacity⟩
      have hnew := hcaptured i hs
      cases hstored with
      | replaced _ hheld =>
          rw [hheld, List.forall_mem_cons]
          exact ⟨hnew, fun e he => hc.entries e (hc.sound.mem_without_iff.mp he).1⟩
      | added _ hheld =>
          rw [hheld, List.forall_mem_cons]
          exact ⟨hnew, hc.entries⟩
      | displaced _ _ kept j old hlast hheld =>
          rw [hheld, List.forall_mem_cons]
          exact ⟨hnew, fun e he => hc.entries e (by rw [hlast]; exact List.mem_append_left _ he)⟩

theorem evictStale (hc : c.Holds P) (i : Identity) :
    (c.evictStale i).Holds P ∧ (c.evictStale i).capacity = c.capacity := by
  cases hi : c.has i with
  | false =>
      rw [evictStale_of_not_has hi]
      exact ⟨hc, rfl⟩
  | true =>
      obtain ⟨h, hmem⟩ := hc.sound.exists_mem_of_has hi
      obtain ⟨hsound, hcapacity, -, hheld⟩ := evictStale_of_mem hc.sound hmem
      refine ⟨⟨hsound, ?_⟩, hcapacity⟩
      rw [hheld]
      exact fun e he => hc.entries e (hc.sound.mem_without_iff.mp he).1

theorem reset (hc : c.Holds P) : c.reset.Holds P ∧ c.reset.capacity = c.capacity := by
  obtain ⟨hsound, hcapacity, -, hheld⟩ := reset_eq hc.sound
  refine ⟨⟨hsound, ?_⟩, hcapacity⟩
  rw [hheld]
  exact fun e he => absurd he List.not_mem_nil

theorem use (hc : c.Holds P) (i : Identity) :
    (c.use i).1.Holds P ∧ (c.use i).1.capacity = c.capacity ∧
      ∀ h, (c.use i).2 = some h → P i h := by
  cases hi : c.has i with
  | false =>
      rw [use_of_not_has hi]
      exact ⟨hc, rfl, fun h hh => by cases hh⟩
  | true =>
      obtain ⟨h, hmem⟩ := hc.sound.exists_mem_of_has hi
      obtain ⟨hsound, hcapacity, -, hheld, hfound⟩ := use_of_mem hc.sound hmem
      refine ⟨⟨hsound, ?_⟩, hcapacity, ?_⟩
      · rw [hheld, List.forall_mem_cons]
        exact ⟨hc.entries _ hmem, fun e he => hc.entries e (hc.sound.mem_without_iff.mp he).1⟩
      · intro h' hh'
        obtain rfl := Option.some.inj (hfound.symm.trans hh')
        exact hc.entries _ hmem

theorem overwrite (hc : c.Holds P) (hP : P i h) :
    (c.overwrite i h).1.Holds P ∧ (c.overwrite i h).1.capacity = c.capacity := by
  cases hi : c.has i with
  | false =>
      rw [overwrite_of_not_has hi]
      exact ⟨hc, rfl⟩
  | true =>
      obtain ⟨old, hmem⟩ := hc.sound.exists_mem_of_has hi
      obtain ⟨hsound, hcapacity, -, hheld⟩ := overwrite_of_mem hc.sound hmem h
      refine ⟨⟨hsound, ?_⟩, hcapacity⟩
      rw [hheld, List.forall_mem_cons]
      exact ⟨hP, fun e he => hc.entries e (hc.sound.mem_without_iff.mp he).1⟩

/-- What holds of every entry holds after a change. -/
theorem change (hc : c.Holds P) (hcaptured : ∀ i s, s.node.ref.identity? = some i →
    P i (.captured (some i) s)) (hchange : Change P c c') :
    c'.Holds P ∧ c'.capacity = c.capacity := by
  cases hchange with
  | store s => exact hc.store fun i => hcaptured i s
  | evictStale i => exact hc.evictStale i
  | reset => exact hc.reset
  | use i => exact ⟨(hc.use i).1, (hc.use i).2.1⟩
  | overwrite hP => exact hc.overwrite hP

theorem changes (hc : c.Holds P) (hcaptured : ∀ i s, s.node.ref.identity? = some i →
    P i (.captured (some i) s)) (hchanges : Changes P c c') :
    c'.Holds P ∧ c'.capacity = c.capacity := by
  induction hchanges with
  | refl => exact ⟨hc, rfl⟩
  | tail _ hchange ih =>
      obtain ⟨hholds, hcapacity⟩ := ih.1.change hcaptured hchange
      exact ⟨hholds, hcapacity.trans ih.2⟩

end Holds

end UiTree.ElementCache
