import UiTree.Proofs.Session.Activity

/-!
# What the events tell

The events of a cache are an account of it: who follows them from the empty cache on knows at any
time which identities are cached, and every single event is true of what was told before it. This
is so for any commands, in any order and within each other, as long as no event is lost.
-/

namespace UiTree

namespace CacheEvent

/-- The identities that are cached after an event. -/
def follow (known : Finset Identity) : CacheEvent → Finset Identity
  | stored i => insert i known
  | evicted i _ => known.erase i
  | reset _ => ∅

/-- The identities that are cached after some events, from the empty cache on. -/
def replay (events : List CacheEvent) : Finset Identity :=
  events.foldl follow ∅

/-- What has to be so, after the events before it, for an event to be told. -/
def Justified (capacity : Nat) (before : List CacheEvent) : CacheEvent → Prop
  | stored _ => True
  | evicted i .stale => i ∈ replay before
  | evicted i .capacity =>
    i ∈ replay before ∧ ∃ earlier j, before = earlier ++ [stored j] ∧ j ≠ i ∧
      j ∉ replay earlier ∧ (replay before).card = capacity + 1
  | reset dropped => dropped = (replay before).card

/-- Some events are each justified, and lead to some identities. -/
structure Tell (capacity : Nat) (events : List CacheEvent) (known : Finset Identity) : Prop where
  replay_eq : replay events = known
  justified : ∀ before e after, events = before ++ e :: after → Justified capacity before e

variable {capacity : Nat} {events : List CacheEvent} {known : Finset Identity}

theorem replay_append_singleton (events : List CacheEvent) (e : CacheEvent) :
    replay (events ++ [e]) = follow (replay events) e := by
  rw [replay, List.foldl_append]
  rfl

theorem Tell.nil : Tell capacity [] ∅ where
  replay_eq := rfl
  justified before e after h := by simp at h

/-- A justified event goes on with the account. -/
theorem Tell.snoc (h : Tell capacity events known) {e : CacheEvent}
    (he : Justified capacity events e) : Tell capacity (events ++ [e]) (follow known e) where
  replay_eq := by rw [replay_append_singleton, h.replay_eq]
  justified before d after hsplit := by
    obtain ⟨rest, rfl, hrest⟩ | ⟨rest, rfl, hrest⟩ := List.append_eq_append_iff.mp hsplit
    · cases rest with
      | nil =>
          obtain ⟨rfl, -⟩ := List.cons.inj hrest
          rwa [List.append_nil]
      | cons x rest => simp at hrest
    · cases rest with
      | nil =>
          obtain ⟨rfl, -⟩ := List.cons.inj hrest
          rwa [List.append_nil] at he
      | cons x rest =>
          obtain ⟨rfl, rfl⟩ := List.cons.inj hrest
          exact h.justified before d rest rfl

end CacheEvent

namespace Feed

variable {f : Feed} {e : CacheEvent}

/-- Add some events. -/
def sendAll (f : Feed) (events : List CacheEvent) : Feed :=
  events.foldl send f

theorem lost_le_send (f : Feed) (e : CacheEvent) : f.lost ≤ (f.send e).lost := by
  rw [send]
  split
  · exact le_rfl
  · split <;> exact Nat.le_succ _

theorem pending_send (h : (f.send e).lost = f.lost) : (f.send e).pending = f.pending ++ [e] := by
  rw [send] at h ⊢
  split at h
  · rw [if_pos ‹_›]
  · split at h <;> simp at h

theorem sendAll_cons (f : Feed) (e : CacheEvent) (events : List CacheEvent) :
    f.sendAll (e :: events) = (f.send e).sendAll events := rfl

theorem lost_le_sendAll (f : Feed) (events : List CacheEvent) :
    f.lost ≤ (f.sendAll events).lost := by
  induction events generalizing f with
  | nil => exact le_rfl
  | cons e events ih => exact (f.lost_le_send e).trans (ih (f.send e))

/-- A feed that loses nothing keeps all events in order. -/
theorem pending_sendAll {events : List CacheEvent} (h : (f.sendAll events).lost = f.lost) :
    (f.sendAll events).pending = f.pending ++ events := by
  induction events generalizing f with
  | nil => exact (List.append_nil _).symm
  | cons e events ih =>
      have hfirst := f.lost_le_send e
      have hrest := (f.send e).lost_le_sendAll events
      rw [sendAll_cons] at h ⊢
      rw [ih (by omega), pending_send (by omega), List.append_assoc, List.singleton_append]

end Feed

namespace ElementCache

open CacheEvent

variable {P : Identity → Handle → Prop} {c c' : ElementCache} {i : Identity} {h : Handle}

/-- From one cache to another, events were told that go on with any account of the first one. -/
def Accounts (c c' : ElementCache) : Prop :=
  ∃ events, c'.feed = c.feed.sendAll events ∧ ∀ before, Tell c.capacity before c.identities →
    Tell c.capacity (before ++ events) c'.identities

/-- A change that leaves the feed and the identities as they are needs no event. -/
theorem Accounts.silent (hfeed : c'.feed = c.feed) (hidentities : c'.identities = c.identities) :
    Accounts c c' := by
  refine ⟨[], hfeed, ?_⟩
  intro before hbefore
  rw [List.append_nil, hidentities]
  exact hbefore

theorem Accounts.stored (hfeed : c'.feed = c.feed.send (.stored i))
    (hidentities : c'.identities = insert i c.identities) : Accounts c c' := by
  refine ⟨[.stored i], hfeed, ?_⟩
  intro before hbefore
  rw [hidentities]
  exact hbefore.snoc trivial

/-- An entry that takes the place of the last one is told of first. -/
theorem Accounts.displaced (hc : c.Sound) (hnew : i ∉ c.identities)
    (hfull : c.held.length = c.capacity) {kept : List (Identity × Handle)} {j : Identity}
    {old : Handle} (hlast : c.held = kept ++ [(j, old)]) (hheld : c'.held = (i, h) :: kept)
    (hfeed : c'.feed = (c.feed.send (.stored i)).send (.evicted j .capacity)) :
    Accounts c c' := by
  have hold : j ∈ c.identities := mem_identities_iff.mpr ⟨old, by simp [hlast]⟩
  have hne : i ≠ j := fun heq => hnew (heq ▸ hold)
  have hkept : UseOrder.keys kept = c.identities.erase j := by
    have hdistinct := Lru.Sound.distinct hc
    rw [identities, hlast]
    exact UseOrder.keys_dropLast (hlast ▸ hdistinct)
  have hidentities : c'.identities = (insert i c.identities).erase j := by
    rw [identities, hheld, UseOrder.keys_cons, hkept, Finset.erase_insert_of_ne hne]
  refine ⟨[.stored i, .evicted j .capacity], hfeed, ?_⟩
  intro before hbefore
  have hstored : Tell c.capacity (before ++ [.stored i]) (insert i c.identities) :=
    hbefore.snoc trivial
  have hcard : (insert i c.identities).card = c.capacity + 1 := by
    rw [Finset.card_insert_of_notMem hnew, hc.card_identities, hfull]
  have hevicted : Justified c.capacity (before ++ [.stored i]) (.evicted j .capacity) := by
    refine ⟨?_, before, i, rfl, hne, ?_, ?_⟩
    · rw [hstored.replay_eq]
      exact Finset.mem_insert_of_mem hold
    · rw [hbefore.replay_eq]
      exact hnew
    · rw [hstored.replay_eq, hcard]
  have htold := hstored.snoc hevicted
  rw [List.append_assoc, List.singleton_append] at htold
  rw [hidentities]
  exact htold

theorem store_accounts (hc : c.Sound) (s : SnapshotRef) : Accounts c (c.store s).1 := by
  cases hs : s.node.ref.identity? with
  | none =>
      rw [store_of_none hs]
      exact .silent rfl rfl
  | some i =>
      obtain ⟨-, -, -, hstored⟩ := store_of_some hc hs
      cases hstored with
      | replaced _ hheld hfeed => exact .stored hfeed (hc.identities_of_cons_without hheld)
      | added _ hheld hfeed =>
          refine .stored hfeed ?_
          rw [identities, hheld, UseOrder.keys_cons, ← identities]
      | displaced hnew hfull kept j old hlast hheld hfeed =>
          exact .displaced hc hnew hfull hlast hheld hfeed

theorem evictStale_accounts (hc : c.Sound) (i : Identity) : Accounts c (c.evictStale i) := by
  cases hi : c.has i with
  | false =>
      rw [evictStale_of_not_has hi]
      exact .silent rfl rfl
  | true =>
      obtain ⟨h, hmem⟩ := hc.exists_mem_of_has hi
      obtain ⟨-, -, hfeed, hheld⟩ := evictStale_of_mem hc hmem
      refine ⟨[.evicted i .stale], hfeed, ?_⟩
      intro before hbefore
      have hidentities : (c.evictStale i).identities = c.identities.erase i := by
        rw [identities, hheld]
        exact UseOrder.keys_without (Lru.Sound.distinct hc)
      rw [hidentities]
      apply hbefore.snoc
      rw [Justified, hbefore.replay_eq]
      exact hc.has_iff.mp hi

theorem reset_accounts (hc : c.Sound) : Accounts c c.reset := by
  obtain ⟨-, -, hfeed, hheld⟩ := reset_eq hc
  refine ⟨[.reset c.held.length], hfeed, ?_⟩
  intro before hbefore
  have hidentities : c.reset.identities = ∅ := by
    rw [identities, hheld]
    rfl
  rw [hidentities]
  apply hbefore.snoc
  rw [Justified, hbefore.replay_eq, hc.card_identities]

/-- An entry that moves to the front, or whose handle is written over, stays cached. -/
theorem Accounts.moved (hc : c.Sound) (hi : i ∈ c.identities) (hfeed : c'.feed = c.feed)
    (hheld : c'.held = (i, h) :: UseOrder.without c.held i) : Accounts c c' := by
  refine .silent hfeed ?_
  rw [hc.identities_of_cons_without hheld, Finset.insert_eq_of_mem hi]

theorem use_accounts (hc : c.Sound) (i : Identity) : Accounts c (c.use i).1 := by
  cases hi : c.has i with
  | false =>
      rw [use_of_not_has hi]
      exact .silent rfl rfl
  | true =>
      obtain ⟨h, hmem⟩ := hc.exists_mem_of_has hi
      obtain ⟨-, -, hfeed, hheld, -⟩ := use_of_mem hc hmem
      exact .moved hc (hc.has_iff.mp hi) hfeed hheld

theorem overwrite_accounts (hc : c.Sound) (i : Identity) (h : Handle) :
    Accounts c (c.overwrite i h).1 := by
  cases hi : c.has i with
  | false =>
      rw [overwrite_of_not_has hi]
      exact .silent rfl rfl
  | true =>
      obtain ⟨old, hmem⟩ := hc.exists_mem_of_has hi
      obtain ⟨-, -, hfeed, hheld⟩ := overwrite_of_mem hc hmem h
      exact .moved hc (hc.has_iff.mp hi) hfeed hheld

/-- Every change is accounted for. -/
theorem Change.accounts (hc : c.Sound) (hchange : Change P c c') : Accounts c c' := by
  cases hchange with
  | store s => exact store_accounts hc s
  | evictStale i => exact evictStale_accounts hc i
  | reset => exact reset_accounts hc
  | use i => exact use_accounts hc i
  | overwrite _ => exact overwrite_accounts hc _ _

/-- So are changes one after the other. -/
theorem Changes.accounts (hc : c.Holds P) (hcaptured : ∀ i s, s.node.ref.identity? = some i →
    P i (.captured (some i) s)) (hchanges : Changes P c c') : Accounts c c' := by
  induction hchanges with
  | refl => exact .silent rfl rfl
  | tail hchanges hchange ih =>
      obtain ⟨hholds, hcapacity⟩ := hc.changes hcaptured hchanges
      obtain ⟨first, hfirst, htell⟩ := ih
      obtain ⟨second, hsecond, hgoesOn⟩ := hchange.accounts hholds.sound
      rw [hcapacity] at hgoesOn
      refine ⟨first ++ second, ?_, ?_⟩
      · rw [hsecond, hfirst, Feed.sendAll, Feed.sendAll, Feed.sendAll, List.foldl_append]
      · intro before hbefore
        rw [← List.append_assoc]
        exact hgoesOn _ (htell before hbefore)

end ElementCache

namespace Activity

open CacheEvent

variable {admits : Answering} {capacity : Nat} {a b : Activity}

/-- A step goes on with the account, if no event is lost. -/
theorem Step.tells (hstep : Step admits a b) (ha : a.Orderly (lasting_true admits) capacity)
    (htell : a.missed = 0 → Tell capacity a.told a.cache.identities) (hb : b.missed = 0) :
    Tell capacity b.told b.cache.identities := by
  obtain ⟨-, rfl | ⟨hchanges, hreceived, hlost⟩⟩ := hstep.orderly (lasting_true admits) ha
  · have htold : a.receive.told = a.told := List.append_nil _
    rw [htold]
    exact htell hb
  · obtain ⟨events, hfeed, hgoesOn⟩ := hchanges.accounts ha.holds fun _ _ _ => trivial
    have hle := a.cache.feed.lost_le_sendAll events
    rw [missed, hfeed, hlost] at hb
    have hkept : (a.cache.feed.sendAll events).lost = a.cache.feed.lost := by omega
    have htold : b.told = a.told ++ events := by
      rw [told, hreceived, hfeed, Feed.pending_sendAll hkept, ← List.append_assoc]
      rfl
    rw [htold, ← ha.capacity]
    apply hgoesOn
    rw [ha.capacity]
    exact htell (by rw [missed]; omega)

/-- As long as no event is lost, the events that were told so far lead from the empty set to the
identities that are cached, and each of them is justified by those before it. -/
theorem Reachable.told_replays (ha : Reachable admits capacity a) (hmissed : a.missed = 0) :
    replay a.told = a.cache.identities ∧
      ∀ before e after, a.told = before ++ e :: after → Justified capacity before e := by
  suffices htell : a.missed = 0 → Tell capacity a.told a.cache.identities from
    ⟨(htell hmissed).replay_eq, (htell hmissed).justified⟩
  clear hmissed
  induction ha with
  | create hc =>
      obtain ⟨-, -, hheld, hfeed⟩ := ElementCache.sound_create hc
      intro _
      rw [told, hfeed, ElementCache.identities, hheld]
      exact .nil
  | step ha hstep ih => exact hstep.tells (ha.orderly _) ih

/-- Where there is room for one element only, a second one that is stored displaces the first. -/
theorem Reachable.told_replays_displaced :
    let i : Identity := ⟨100, 1⟩
    let j : Identity := ⟨100, 2⟩
    ∃ a : Activity, Reachable (fun _ _ => True) 1 a ∧ a.missed = 0 ∧
      a.told = [.stored i, .stored j, .evicted i .capacity] ∧
        replay a.told = a.cache.identities ∧
          ∀ before e after, a.told = before ++ e :: after → Justified 1 before e := by
  intro i j
  obtain ⟨c, hc, hheld, hfeed⟩ := exists_reachable_store (fun _ _ => True) Nat.one_pos
    (SnapshotRef.identity?_bare (i := i) (by decide))
  have hstore := hc.store (SnapshotRef.bare j)
  obtain ⟨⟨hsound, -⟩, hcapacity, -⟩ := hc.orderly (lasting_true _)
  obtain ⟨-, -, -, hstored⟩ :=
    ElementCache.store_of_some hsound (SnapshotRef.identity?_bare (i := j) (by decide))
  have hevents : ((c.store (SnapshotRef.bare j)).1).feed =
      (c.feed.send (.stored j)).send (.evicted i .capacity) := by
    cases hstored with
    | replaced hmem =>
        obtain ⟨h, hmem⟩ := ElementCache.mem_identities_iff.mp hmem
        simp [hheld, i, j] at hmem
    | added _ hheld' =>
        have hle := (hstore.orderly (lasting_true _)).holds.sound.length_held_le
        have hcapacity' := (hstore.orderly (lasting_true _)).capacity
        simp only [hheld', hheld, hcapacity', List.length_cons, List.length_nil] at hle
        omega
    | displaced _ _ kept k old hlast _ hfeed' =>
        have honly : [] ++ [(i, _)] = kept ++ [(k, old)] := hheld.symm.trans hlast
        obtain ⟨-, hentry⟩ := List.append_inj' honly rfl
        obtain ⟨rfl, -⟩ := Prod.mk.inj (List.cons.inj hentry).1
        exact hfeed'
  have hmissed : Activity.missed { cache := (c.store (SnapshotRef.bare j)).1 } = 0 := by
    rw [missed, hevents, hfeed]
    rfl
  refine ⟨_, hstore, hmissed, ?_, hstore.told_replays hmissed⟩
  rw [told, hevents, hfeed]
  rfl

end Activity

end UiTree
