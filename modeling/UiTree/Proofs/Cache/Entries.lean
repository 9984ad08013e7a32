import UiTree.Proofs.Cache.Refinement
import UiTree.Cache.Elements
import Mathlib.Data.Finset.Card
import Mathlib.Data.Finset.Dedup

/-!
# The entries of the cache

The cache of elements is seen here as the list of its entries, the most recently used one first.
Each change of the cache is described by what it makes of this list and by what it tells the feed.
-/

namespace UiTree

namespace UseOrder

variable {K V : Type} [BEq K] [LawfulBEq K] {es : List (K × V)} {key : K} {value : V}

theorem find?_eq_some (hdistinct : Distinct es) (hmem : (key, value) ∈ es) :
    find? es key = some (key, value) := by
  obtain ⟨pre, post, rfl⟩ := List.append_of_mem hmem
  apply find?_append_cons (beq_self_eq_true key)
  intro d hd
  exact (List.pairwise_append.mp hdistinct).2.2 d hd (key, value) List.mem_cons_self

theorem perm_cons_without (hdistinct : Distinct es) (hmem : (key, value) ∈ es) :
    es.Perm ((key, value) :: without es key) := by
  obtain ⟨pre, post, rfl⟩ := List.append_of_mem hmem
  have hpre : ∀ d ∈ pre, (d.1 == key) = false := fun d hd =>
    (List.pairwise_append.mp hdistinct).2.2 d hd (key, value) List.mem_cons_self
  have hwithout : without (pre ++ (key, value) :: post) key = pre ++ post :=
    without_append_cons (beq_self_eq_true key) hpre
  rw [hwithout]
  exact List.perm_middle

theorem Distinct.nodup (hdistinct : Distinct es) : (es.map (·.1)).Nodup := by
  apply List.pairwise_map.mpr
  exact hdistinct.imp fun hne heq => by simp [heq] at hne

theorem mem_without_iff (hdistinct : Distinct es) {e : K × V} :
    e ∈ without es key ↔ e ∈ es ∧ e.1 ≠ key := by
  by_cases hkey : ∃ value, (key, value) ∈ es
  · obtain ⟨value, hmem⟩ := hkey
    have hperm := perm_cons_without hdistinct hmem
    have hnodup := (hperm.map (·.1)).nodup_iff.mp hdistinct.nodup
    rw [List.map_cons, List.nodup_cons] at hnodup
    rw [hperm.mem_iff, List.mem_cons]
    constructor
    · intro he
      refine ⟨Or.inr he, ?_⟩
      intro heq
      have hkey : e.1 ∈ (without es key).map (·.1) := List.mem_map_of_mem he
      exact hnodup.1 (heq ▸ hkey)
    · rintro ⟨rfl | he, hne⟩
      · exact absurd rfl hne
      · exact he
  · have hall : ∀ d ∈ es, (d.1 == key) = false := by
      intro d hd
      rw [beq_eq_false_iff_ne]
      rintro rfl
      exact hkey ⟨d.2, hd⟩
    rw [without_eq_self hall]
    constructor
    · intro he
      exact ⟨he, beq_eq_false_iff_ne.mp (hall e he)⟩
    · intro he
      exact he.1

section Keys

variable [DecidableEq K]

/-- The keys of some entries. -/
def keys (es : List (K × V)) : Finset K := (es.map (·.1)).toFinset

omit [BEq K] [LawfulBEq K] in
theorem mem_keys_iff : key ∈ keys es ↔ ∃ value, (key, value) ∈ es := by
  simp [keys]

omit [BEq K] [LawfulBEq K] in
theorem keys_cons (e : K × V) (es : List (K × V)) : keys (e :: es) = insert e.1 (keys es) := by
  simp [keys]

theorem card_keys (hdistinct : Distinct es) : (keys es).card = es.length := by
  rw [keys, List.toFinset_card_of_nodup hdistinct.nodup, List.length_map]

theorem keys_without (hdistinct : Distinct es) : keys (without es key) = (keys es).erase key := by
  ext k
  simp only [mem_keys_iff, Finset.mem_erase, mem_without_iff hdistinct]
  constructor
  · rintro ⟨value, hmem, hne⟩
    exact ⟨hne, value, hmem⟩
  · rintro ⟨hne, value, hmem⟩
    exact ⟨value, hmem, hne⟩

/-- Without its last entry a list lacks the key of this entry. -/
theorem keys_dropLast (hdistinct : Distinct (es ++ [(key, value)])) :
    keys es = (keys (es ++ [(key, value)])).erase key := by
  have hperm : (es ++ [(key, value)]).Perm ((key, value) :: es) := List.perm_append_singleton _ _
  have hkeys : keys (es ++ [(key, value)]) = insert key (keys es) := by
    rw [keys, List.toFinset_eq_of_perm _ _ (hperm.map (·.1))]
    exact keys_cons (key, value) es
  have hnodup := (hperm.map (·.1)).nodup_iff.mp hdistinct.nodup
  have hnot : key ∉ keys es := by
    rw [keys, List.mem_toFinset]
    exact (List.nodup_cons.mp hnodup).1
  rw [hkeys, Finset.erase_insert hnot]

end Keys

end UseOrder

namespace Lru

variable {K V : Type} [BEq K] [Hashable K] {c : Lru K V}

/-- The slots and the index hold some cells. -/
def Sound (c : Lru K V) : Prop := ∃ cells, c.Shows cells

theorem Sound.length_le (h : c.Sound) : c.toList.length ≤ c.capacity := by
  obtain ⟨cells, hshows⟩ := h
  rw [hshows.toList_eq, List.length_map]
  exact hshows.length_le

theorem Sound.size_eq (h : c.Sound) : c.size = c.toList.length := by
  obtain ⟨cells, hshows⟩ := h
  rw [hshows.toList_eq, hshows.size_eq]

theorem Sound.distinct [EquivBEq K] (h : c.Sound) : UseOrder.Distinct c.toList := by
  obtain ⟨cells, hshows⟩ := h
  rw [hshows.toList_eq]
  exact hshows.indexed.distinct hshows.nodup_cells

/-- An operation answers as the order of use does and makes of the entries what the order of use
says. -/
theorem Sound.follows [EquivBEq K] [LawfulHashable K] (h : c.Sound) (op : MapOperation K V) :
    (c.step op).2.Sound ∧ (c.step op).2.capacity = c.capacity ∧
      UseOrder.step c.capacity c.toList op = ((c.step op).1, (c.step op).2.toList) := by
  obtain ⟨cells, hshows⟩ := h
  obtain ⟨cells', hshows', hcapacity, hstep⟩ := hshows.follows op
  refine ⟨⟨cells', hshows'⟩, hcapacity, ?_⟩
  rw [hshows.toList_eq, hshows'.toList_eq]
  exact hstep

end Lru

namespace ElementCache

variable {c : ElementCache} {i : Identity} {h : Handle}

/-- The entries from the most to the least recently used one. -/
def held (c : ElementCache) : List (Identity × Handle) := c.entries.toList

/-- The map behind the cache is in order. -/
def Sound (c : ElementCache) : Prop := c.entries.Sound

/-- The number of entries that there is room for. -/
def capacity (c : ElementCache) : Nat := c.entries.capacity

/-- The identities that are cached. -/
def identities (c : ElementCache) : Finset Identity := UseOrder.keys c.held

theorem mem_identities_iff : i ∈ c.identities ↔ ∃ h, (i, h) ∈ c.held :=
  UseOrder.mem_keys_iff

namespace Sound

theorem card_identities (hc : c.Sound) : c.identities.card = c.held.length :=
  UseOrder.card_keys (Lru.Sound.distinct hc)

/-- An entry that is written to the front changes no identity but its own. -/
theorem identities_of_cons_without (hc : c.Sound) {c' : ElementCache}
    (hheld : c'.held = (i, h) :: UseOrder.without c.held i) :
    c'.identities = insert i c.identities := by
  have hwithout : UseOrder.keys (UseOrder.without c.held i) = c.identities.erase i :=
    UseOrder.keys_without (Lru.Sound.distinct hc)
  rw [identities, hheld, UseOrder.keys_cons, hwithout]
  ext j
  by_cases hj : j = i <;> simp [hj]

theorem length_held_le (hc : c.Sound) : c.held.length ≤ c.capacity := Lru.Sound.length_le hc

theorem size_eq (hc : c.Sound) : c.size = c.held.length := Lru.Sound.size_eq hc

theorem has_iff (hc : c.Sound) : c.has i = true ↔ i ∈ c.identities := by
  obtain ⟨-, -, hstep⟩ := Lru.Sound.follows hc (.contains i)
  have htruth : (UseOrder.find? c.held i).isSome = c.has i :=
    MapAnswer.truth.inj (congrArg Prod.fst hstep)
  rw [← htruth, UseOrder.find?, List.find?_isSome, mem_identities_iff]
  constructor
  · rintro ⟨⟨j, h⟩, hmem, hkey⟩
    obtain rfl : j = i := eq_of_beq hkey
    exact ⟨h, hmem⟩
  · rintro ⟨h, hmem⟩
    exact ⟨(i, h), hmem, beq_self_eq_true i⟩

end Sound

theorem sound_create {capacity : Nat} {feed : Feed} (hc : create capacity feed = .ok c) :
    c.Sound ∧ c.capacity = capacity ∧ c.held = [] ∧ c.feed = feed := by
  obtain ⟨entries, hentries, rfl⟩ : ∃ entries : Lru Identity Handle,
      Lru.create capacity = .ok entries ∧ c = ⟨entries, feed⟩ := by
    rw [create] at hc
    cases hentries : (Lru.create capacity : Outcome (Lru Identity Handle)) with
    | error e =>
        rw [hentries] at hc
        cases hc
    | ok entries =>
        rw [hentries] at hc
        exact ⟨entries, rfl, (Except.ok.inj hc).symm⟩
  rw [Lru.create] at hentries
  split at hentries
  · next hpos =>
    obtain rfl := Except.ok.inj hentries
    have hshows := Lru.Shows.empty (K := Identity) (V := Handle) capacity hpos
    exact ⟨⟨[], hshows⟩, rfl, hshows.toList_eq, rfl⟩
  · cases hentries

section Changes

/-! ### Changes of an identity that is not cached -/

theorem index_of_not_has (hi : c.has i = false) : c.entries.index[i]? = none := by
  rw [has, Lru.contains] at hi
  exact Std.HashMap.getElem?_eq_none_of_contains_eq_false hi

theorem use_of_not_has (hi : c.has i = false) : c.use i = (c, none) := by
  simp only [use, Lru.get, index_of_not_has hi]

theorem overwrite_of_not_has (hi : c.has i = false) (h : Handle) :
    c.overwrite i h = (c, ()) := by
  simp only [overwrite, Lru.modify, index_of_not_has hi]

theorem evictStale_of_not_has (hi : c.has i = false) : c.evictStale i = c := by
  simp only [evictStale, Lru.remove, index_of_not_has hi]

/-! ### Changes of an entry -/

theorem use_of_mem (hc : c.Sound) (hmem : (i, h) ∈ c.held) :
    (c.use i).1.Sound ∧ (c.use i).1.capacity = c.capacity ∧ (c.use i).1.feed = c.feed ∧
      (c.use i).1.held = (i, h) :: UseOrder.without c.held i ∧ (c.use i).2 = some h := by
  have hfound := UseOrder.find?_eq_some hc.distinct hmem
  obtain ⟨hsound, hcapacity, hstep⟩ := Lru.Sound.follows hc (.get i)
  rw [UseOrder.step, hfound] at hstep
  obtain ⟨hanswer, hheld⟩ := Prod.mk.inj hstep
  exact ⟨hsound, hcapacity, rfl, hheld.symm, (MapAnswer.found.inj hanswer).symm⟩

theorem overwrite_of_mem (hc : c.Sound) (hmem : (i, h) ∈ c.held) (h' : Handle) :
    (c.overwrite i h').1.Sound ∧ (c.overwrite i h').1.capacity = c.capacity ∧
      (c.overwrite i h').1.feed = c.feed ∧
        (c.overwrite i h').1.held = (i, h') :: UseOrder.without c.held i := by
  have hfound := UseOrder.find?_eq_some hc.distinct hmem
  obtain ⟨hsound, hcapacity, hstep⟩ := Lru.Sound.follows hc (.modify i fun _ => h')
  rw [UseOrder.step, hfound] at hstep
  obtain ⟨-, hheld⟩ := Prod.mk.inj hstep
  exact ⟨hsound, hcapacity, rfl, hheld.symm⟩

theorem evictStale_of_mem (hc : c.Sound) (hmem : (i, h) ∈ c.held) :
    (c.evictStale i).Sound ∧ (c.evictStale i).capacity = c.capacity ∧
      (c.evictStale i).feed = c.feed.send (.evicted i .stale) ∧
        (c.evictStale i).held = UseOrder.without c.held i := by
  have hfound := UseOrder.find?_eq_some hc.distinct hmem
  obtain ⟨hsound, hcapacity, hstep⟩ := Lru.Sound.follows hc (.remove i)
  rw [UseOrder.step, hfound] at hstep
  obtain ⟨hanswer, hheld⟩ := Prod.mk.inj hstep
  have hremoved : c.entries.remove i = ((c.entries.remove i).1, some h) :=
    Prod.ext rfl (MapAnswer.found.inj hanswer).symm
  rw [evictStale, hremoved]
  exact ⟨hsound, hcapacity, rfl, hheld.symm⟩

theorem reset_eq (hc : c.Sound) :
    c.reset.Sound ∧ c.reset.capacity = c.capacity ∧
      c.reset.feed = c.feed.send (.reset c.held.length) ∧ c.reset.held = [] := by
  obtain ⟨hsound, hcapacity, hstep⟩ := Lru.Sound.follows hc .clear
  obtain ⟨-, hheld⟩ := Prod.mk.inj hstep
  refine ⟨hsound, hcapacity, ?_, hheld.symm⟩
  rw [← hc.size_eq]
  rfl

/-! ### Storing -/

theorem store_of_none {s : SnapshotRef} (hs : s.node.ref.identity? = none) :
    c.store s = (c, none) := by
  rw [store, hs]

/-- What storing a node under an identity makes of a cache. -/
inductive Stored (c : ElementCache) (i : Identity) (h : Handle) (c' : ElementCache) : Prop where
  /-- The entry of the identity is written over. -/
  | replaced (hmem : i ∈ c.identities) (hheld : c'.held = (i, h) :: UseOrder.without c.held i)
      (hfeed : c'.feed = c.feed.send (.stored i))
  /-- There is room for a new entry. -/
  | added (hmem : i ∉ c.identities) (hheld : c'.held = (i, h) :: c.held)
      (hfeed : c'.feed = c.feed.send (.stored i))
  /-- The new entry takes the place of the last one. -/
  | displaced (hmem : i ∉ c.identities) (hfull : c.held.length = c.capacity)
      (kept : List (Identity × Handle)) (j : Identity) (old : Handle)
      (hlast : c.held = kept ++ [(j, old)]) (hheld : c'.held = (i, h) :: kept)
      (hfeed : c'.feed = (c.feed.send (.stored i)).send (.evicted j .capacity))

/-- A cache without room has a last entry. -/
theorem exists_last (hfull : c.held.length = c.capacity) :
    ∃ kept j old, c.held = kept ++ [(j, old)] := by
  obtain hnil | ⟨kept, ⟨j, old⟩, hlast⟩ := List.eq_nil_or_concat c.held
  · have hpos : 0 < c.capacity := c.entries.capacity_pos
    rw [hnil, List.length_nil] at hfull
    omega
  · exact ⟨kept, j, old, by rw [hlast, List.concat_eq_append]⟩

theorem store_eq {s : SnapshotRef} (hs : s.node.ref.identity? = some i) :
    c.store s =
      (({ c with entries := (c.entries.put i (.captured (some i) s)).1 }.emit
        (.stored i)).emitDropped (c.entries.put i (.captured (some i) s)).2, some i) := by
  simp only [store, hs]

/-- Storing a node answers with the identity that the node has. -/
theorem store_snd (c : ElementCache) (s : SnapshotRef) :
    (c.store s).2 = s.node.ref.identity? := by
  cases hs : s.node.ref.identity? with
  | none => rw [store_of_none hs]
  | some i => rw [store_eq hs]

/-- Caching a captured node makes a captured handle of it. -/
theorem handleFor_snd (c : ElementCache) (s : SnapshotRef) :
    (c.handleFor s).2 = .captured s.node.ref.identity? s := by
  rw [← c.store_snd s]
  rfl

/-- Nodes that are stored one after the other become captured handles. -/
theorem handlesFor_snd (c : ElementCache) (refs : List SnapshotRef) :
    (c.handlesFor refs).2 = refs.map fun s => .captured s.node.ref.identity? s := by
  induction refs generalizing c with
  | nil => rfl
  | cons s refs ih =>
      rw [List.map_cons, ← ih (c.handleFor s).1, ← c.handleFor_snd s]
      rfl

theorem store_of_some (hc : c.Sound) {s : SnapshotRef} (hs : s.node.ref.identity? = some i) :
    (c.store s).1.Sound ∧ (c.store s).1.capacity = c.capacity ∧ (c.store s).2 = some i ∧
      Stored c i (.captured (some i) s) (c.store s).1 := by
  obtain ⟨hsound, hcapacity, hstep⟩ := Lru.Sound.follows hc (.put i (.captured (some i) s))
  rw [store_eq hs]
  simp only [Lru.step, UseOrder.step] at hsound hcapacity hstep
  generalize c.entries.put i (.captured (some i) s) = put at hsound hcapacity hstep ⊢
  obtain ⟨entries, dropped⟩ := put
  by_cases hmem : i ∈ c.identities
  · obtain ⟨old, hold⟩ := mem_identities_iff.mp hmem
    have hfound : (UseOrder.find? c.entries.toList i).isSome = true := by
      rw [UseOrder.find?_eq_some hc.distinct hold]
      rfl
    rw [if_pos hfound] at hstep
    obtain ⟨hanswer, hheld⟩ := Prod.mk.inj hstep
    obtain rfl := MapAnswer.dropped.inj hanswer
    exact ⟨hsound, hcapacity, rfl, .replaced hmem hheld.symm rfl⟩
  · have hnone : ¬ (UseOrder.find? c.entries.toList i).isSome = true := by
      rw [UseOrder.find?_eq_none, Option.isSome_none]
      · exact Bool.false_ne_true
      · rintro ⟨j, old⟩ hold
        rw [beq_eq_false_iff_ne]
        rintro rfl
        exact hmem (mem_identities_iff.mpr ⟨old, hold⟩)
    rw [if_neg hnone] at hstep
    by_cases hroom : c.entries.toList.length < c.entries.capacity
    · rw [if_pos hroom] at hstep
      obtain ⟨hanswer, hheld⟩ := Prod.mk.inj hstep
      obtain rfl := MapAnswer.dropped.inj hanswer
      exact ⟨hsound, hcapacity, rfl, .added hmem hheld.symm rfl⟩
    · rw [if_neg hroom] at hstep
      obtain ⟨hanswer, hheld⟩ := Prod.mk.inj hstep
      have hfull : c.held.length = c.capacity :=
        Nat.le_antisymm hc.length_held_le (Nat.le_of_not_lt hroom)
      obtain ⟨kept, j, old, hlast⟩ := exists_last hfull
      have hdropped : c.entries.toList.getLast? = some (j, old) := by
        rw [← held, hlast, List.getLast?_append]
        rfl
      have hkept : c.entries.toList.dropLast = kept := by
        rw [← held, hlast, List.dropLast_concat]
      rw [hdropped] at hanswer
      rw [hkept] at hheld
      obtain rfl := MapAnswer.dropped.inj hanswer
      exact ⟨hsound, hcapacity, rfl, .displaced hmem hfull kept j old hlast hheld.symm rfl⟩

/-- What is stored first is the only entry. -/
theorem exists_create_store {capacity : Nat} (hpos : 0 < capacity) (feed : Feed) {s : SnapshotRef}
    (hs : s.node.ref.identity? = some i) : ∃ c, create capacity feed = .ok c ∧
      (c.store s).1.held = [(i, .captured (some i) s)] ∧
        (c.store s).1.feed = feed.send (.stored i) := by
  have hcreate : create capacity feed = .ok ⟨.empty capacity hpos, feed⟩ := by
    rw [create, Lru.create, dif_pos hpos]
    rfl
  refine ⟨_, hcreate, ?_⟩
  obtain ⟨hsound, hcapacity, hheld, hfeed⟩ := sound_create hcreate
  have hnew (h : Handle) : (i, h) ∉ (⟨.empty capacity hpos, feed⟩ : ElementCache).held := by
    rw [hheld]
    exact List.not_mem_nil
  obtain ⟨-, -, -, hstored⟩ := store_of_some hsound hs
  cases hstored with
  | replaced hmem =>
      obtain ⟨h, hmem⟩ := mem_identities_iff.mp hmem
      exact absurd hmem (hnew h)
  | added _ hheld' hfeed' => exact ⟨by rw [hheld', hheld], hfeed'⟩
  | displaced _ hfull => rw [hheld, hcapacity, List.length_nil] at hfull; omega

end Changes

end ElementCache

end UiTree
