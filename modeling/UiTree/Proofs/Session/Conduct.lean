import UiTree.Proofs.Cache.Changes
import UiTree.Proofs.Session.Discipline
import UiTree.Session.Resolve

/-!
# How a session works on its cache

Every operation of a session, between any two questions, does to the cache what a few of the five
changes do, and writes over a cached handle only what it made from that handle and from a fresh
capture of the same element. Other operations may have done the same meanwhile.

## Implementation notes

What operations need to be permitted is listed once. That they keep a discipline is proved from the
list, so it holds of every discipline that permits as much, and the description of what they return
speaks of captured snapshots and of the property that cached handles have.
-/

namespace UiTree

/-- A property of cached handles that holds when a handle is stored and when it is captured
again. -/
structure Lasting (admits : Answering) (P : Identity → Handle → Prop) : Prop where
  captured : ∀ i s, s.node.ref.identity? = some i → P i (.captured (some i) s)
  refreshed : ∀ {i h h'} {q : CaptureRequest} {now raw}, P i h →
    admits (.capture i.ref q.attributes.provided q.maxDepth q.timeout) (.ok raw) →
      h.refreshed (.ofRoot (q.snapshot now raw)) = .ok h' → P i h'

/-- The property that asks nothing of a handle. -/
theorem lasting_true (admits : Answering) : Lasting admits fun _ _ => True :=
  ⟨fun _ _ _ => trivial, fun _ _ _ => trivial⟩

variable {admits : Answering} {P : Identity → Handle → Prop}

/-- The discipline of operations on a cache: every entry has a lasting property, and the cache is
changed by its five changes only. -/
def Lasting.discipline (hP : Lasting admits P) : Discipline ElementCache where
  admits := admits
  invariant := ElementCache.Holds P
  change := ElementCache.Changes P
  refl _ := .refl
  trans := .trans
  keeps hchanges hc := (hc.changes hP.captured hchanges).1

/-- A request is answered with a snapshot of some target. -/
def CaptureRequest.Yields (admits : Answering) (q : CaptureRequest) (s : Snapshot) : Prop :=
  ∃ target raw time,
    admits (.capture target q.attributes.provided q.maxDepth q.timeout) (.ok raw) ∧
      s = q.snapshot time raw

/-- A handle of a node of a snapshot that answers a request of some kind. -/
def Handle.Yielded (admits : Answering) (kind : CaptureRequest → Prop) (h : Handle) : Prop :=
  ∃ q s, kind q ∧ q.Yields admits s.tree ∧ h = .captured s.node.ref.identity? s

/-- What a discipline has to permit so that sessions keep it. They need to capture with requests of
some kind only, which is the case with all requests for what it takes to look for a node again. The
handles that are cached have the property `P`. -/
structure Discipline.Permits (d : Discipline ElementCache) (kind : CaptureRequest → Prop)
    (P : Identity → Handle → Prop) : Prop where
  relocation : ∀ {q : CaptureRequest}, (∀ a ∈ AttributeSet.relocation, a ∈ q.attributes) → kind q
  store : ∀ {q : CaptureRequest} {s : SnapshotRef} (c : ElementCache), kind q →
    q.Yields d.admits s.tree → d.change c (c.store s).1
  evictStale : ∀ (i : Identity) (c : ElementCache), d.change c (c.evictStale i)
  use : ∀ (i : Identity) {c : ElementCache}, d.invariant c →
    d.change c (c.use i).1 ∧ ∀ h, (c.use i).2 = some h → P i h
  refreshed : ∀ {i h h'} {q : CaptureRequest} {now raw}, kind q → P i h →
    d.admits (.capture i.ref q.attributes.provided q.maxDepth q.timeout) (.ok raw) →
      h.refreshed (.ofRoot (q.snapshot now raw)) = .ok h' → P i h'
  overwrite : ∀ {i h} (c : ElementCache), P i h → d.change c (c.overwrite i h).1

/-- The five changes of a cache permit all that sessions do. -/
theorem Lasting.permits (hP : Lasting admits P) : hP.discipline.Permits (fun _ => True) P where
  relocation _ := trivial
  store {_ s} _ _ _ := .single (.store s)
  evictStale i _ := .single (.evictStale i)
  use i _ hc := ⟨.single (.use i), (hc.use i).2.2⟩
  refreshed _ := hP.refreshed
  overwrite _ hh := .single (.overwrite hh)

theorem SnapshotRef.tree_of_of? {s : Snapshot} {i : Nat} {r : SnapshotRef} (h : of? s i = some r) :
    r.tree = s := by
  rw [of?] at h
  split at h
  · rw [← Option.some.inj h]
  · cases h

theorem Locator.mem_attributes_of_relocation {l : Locator} {a : Attribute}
    (ha : a ∈ AttributeSet.relocation) : a ∈ l.attributes := by
  rw [attributes, AttributeSet.mem_union]
  exact .inr ha

variable (d : Discipline ElementCache)

namespace ElementCache

/-- A capture keeps any discipline, as it leaves the cache as it is. -/
theorem capture_obeys (q : CaptureRequest) (target : NodeRef) :
    (capture q target).Obeys d fun s => ∃ raw now,
      d.admits (.capture target q.attributes.provided q.maxDepth q.timeout) (.ok raw) ∧
        s = q.snapshot now raw := by
  rw [capture]
  apply Operation.Obeys.bind (.ask _)
  intro answer hanswer
  cases answer with
  | error e => exact .fail _
  | ok raw =>
      apply Operation.Obeys.bind (.ask _)
      intro now _
      exact .pure ⟨raw, now, hanswer, rfl⟩

theorem evictingStale_obeys {α : Type} {m : CacheOperation α} {post : α → Prop} {i : Identity}
    (hevict : ∀ c, d.change c (c.evictStale i)) (hm : m.Obeys d post) :
    (evictingStale i m).Obeys d post := by
  rw [evictingStale]
  apply Operation.Obeys.bind hm.attempt
  intro r hr
  split
  · next a => exact .pure (hr a rfl)
  · apply Operation.Obeys.bind (.change hevict)
    intro _ _
    exact .fail _
  · exact .fail _

variable {d} {kind : CaptureRequest → Prop}

theorem resolve_obeys (hd : d.Permits kind P) (i : Identity) (recency : Recency)
    {q : CaptureRequest} (hq : kind q) : (resolve i recency q).Obeys d (P i) := by
  have huse : Operation.Obeys d (Operation.update (·.use i)) fun found =>
      ∀ h, found = some h → P i h :=
    .update fun _ hc => hd.use i hc
  rw [resolve]
  apply Operation.Obeys.bind huse
  intro found hfound
  cases found with
  | none => exact .fail _
  | some cached =>
      apply Operation.Obeys.bind (.ask _)
      intro now _
      split
      · exact .pure (hfound cached rfl)
      · apply Operation.Obeys.bind
          (evictingStale_obeys _ (hd.evictStale i) (capture_obeys _ q i.ref))
        rintro s ⟨raw, time, hraw, rfl⟩
        apply Operation.Obeys.bind (.ofOutcome _)
        intro h hrefreshed
        have hh : P i h := hd.refreshed hq (hfound cached rfl) hraw hrefreshed
        apply Operation.Obeys.bind (.change fun c => hd.overwrite c hh)
        intro _ _
        exact .pure hh

theorem handlesFor_change (hd : d.Permits kind P) {q : CaptureRequest} (hq : kind q)
    {refs : List SnapshotRef} (hrefs : ∀ s ∈ refs, q.Yields d.admits s.tree) (c : ElementCache) :
    d.change c (c.handlesFor refs).1 := by
  induction refs generalizing c with
  | nil => exact d.refl c
  | cons s refs ih =>
      obtain ⟨hs, hrest⟩ := List.forall_mem_cons.mp hrefs
      exact d.trans (hd.store c hq hs) (ih hrest _)

theorem yielded_of_mem_handlesFor {q : CaptureRequest} (hq : kind q) {refs : List SnapshotRef}
    (hrefs : ∀ s ∈ refs, q.Yields admits s.tree) {c : ElementCache} {h : Handle}
    (hmem : h ∈ (c.handlesFor refs).2) : h.Yielded admits kind := by
  rw [handlesFor_snd] at hmem
  obtain ⟨s, hs, rfl⟩ := List.mem_map.mp hmem
  exact ⟨q, s, hq, hrefs s hs, rfl⟩

end ElementCache

namespace Session

open ElementCache

theorem activeRoot_obeys : activeRoot.Obeys d fun _ => True := by
  rw [activeRoot]
  apply Operation.Obeys.bind (.ask _)
  intro answer _
  split
  · exact .fail _
  · exact .fail _
  · exact .pure trivial

theorem captureActive_obeys (q : CaptureRequest) :
    (activeRoot >>= capture q).Obeys d (q.Yields d.admits) := by
  apply Operation.Obeys.bind (activeRoot_obeys d)
  intro root _
  exact (capture_obeys d q root).mono fun _ hs => ⟨root, hs⟩

/-- Whatever the scope is, some target is captured. -/
theorem captureScope_obeys (settings : Settings) (scope : Option Identity)
    (attributes : AttributeSet) (hevict : ∀ i c, d.change c (c.evictStale i)) :
    (captureScope settings scope attributes).Obeys d
      ((settings.captureRequest attributes).Yields d.admits) := by
  cases scope with
  | none =>
      rw [captureScope]
      exact captureActive_obeys _ _
  | some i =>
      rw [captureScope]
      apply Operation.Obeys.bind (.read _)
      intro cached _
      split
      · exact (evictingStale_obeys d (hevict i) (capture_obeys _ _ i.ref)).mono
          fun _ hs => ⟨i.ref, hs⟩
      · exact .fail _

variable {d} {kind : CaptureRequest → Prop}

theorem find_obeys (hd : d.Permits kind P) (settings : Settings) (l : Locator)
    (scope : Option Identity) :
    (find settings l scope).Obeys d fun hs => ∀ h ∈ hs, h.Yielded d.admits kind := by
  rw [find]
  apply Operation.Obeys.bind (captureScope_obeys _ settings scope l.attributes hd.evictStale)
  intro s hs
  apply Operation.Obeys.bind (.ofOutcome _)
  intro positions _
  have hq : kind (settings.captureRequest l.attributes) :=
    hd.relocation fun _ ha => Locator.mem_attributes_of_relocation ha
  have hrefs : ∀ r ∈ positions.filterMap (SnapshotRef.of? s),
      (settings.captureRequest l.attributes).Yields d.admits r.tree := by
    intro r hr
    obtain ⟨i, -, hi⟩ := List.mem_filterMap.mp hr
    rwa [SnapshotRef.tree_of_of? hi]
  apply Operation.Obeys.update
  intro c _
  exact ⟨handlesFor_change hd hq hrefs c, fun h hh => yielded_of_mem_handlesFor hq hrefs hh⟩

theorem findFirst_obeys (hd : d.Permits kind P) (settings : Settings) (l : Locator)
    (scope : Option Identity) :
    (findFirst settings l scope).Obeys d fun found =>
      ∀ h ∈ found.toList, h.Yielded d.admits kind := by
  rw [findFirst]
  apply Operation.Obeys.bind (find_obeys hd settings l scope)
  intro hs hall
  apply Operation.Obeys.pure
  intro h hh
  exact hall h (List.mem_of_head? (Option.mem_toList.mp hh))

theorem pageSource_obeys (hd : d.Permits kind P) (settings : Settings) (scope : Option Identity)
    (options : PageSourceOptions) :
    (pageSource settings scope options).Obeys d fun _ => True := by
  rw [pageSource]
  apply Operation.Obeys.bind (captureScope_obeys _ settings scope .all hd.evictStale)
  intro s _
  exact (Operation.Obeys.ofOutcome _).mono fun _ _ => trivial

/-- A session captures cached elements with all attributes. -/
theorem resolve_obeys (hd : d.Permits kind P) (settings : Settings) (i : Identity)
    (recency : Recency) : (resolve settings i recency).Obeys d (P i) :=
  ElementCache.resolve_obeys hd i recency (hd.relocation fun a _ => AttributeSet.mem_all a)

theorem resolveText_obeys (hd : d.Permits kind P) (settings : Settings) (text : String)
    (recency : Recency) :
    (resolveText settings text recency).Obeys d fun h => ∃ i, P i h := by
  rw [resolveText]
  apply Operation.Obeys.bind (.ofOutcome _)
  intro i _
  exact (resolve_obeys hd settings i recency).mono fun _ hh => ⟨i, hh⟩

/-- What is asked for when a node is looked for again. -/
def relocationRequest (settings : Settings) (old : SnapshotRef) : CaptureRequest :=
  ⟨old.tree.attributes ∪ .relocation, old.tree.maxDepth, settings.axTimeout⟩

theorem relocate_obeys (hd : d.Permits kind P) (settings : Settings) (h : Handle) :
    (relocate settings h).Obeys d fun found => ∀ h ∈ found.toList, h.Yielded d.admits kind := by
  rw [relocate]
  split
  · exact .fail _
  · next old _ =>
    have hq : kind (relocationRequest settings old) :=
      hd.relocation fun _ ha => AttributeSet.mem_union.mpr (.inr ha)
    apply Operation.Obeys.bind
      (capture_obeys _ (relocationRequest settings old) old.tree.root.ref)
    intro fresh hfresh
    split
    · exact .pure fun h hh => absurd hh List.not_mem_nil
    · next found hfound =>
      obtain ⟨i, -, hi⟩ := Option.bind_eq_some_iff.mp hfound
      have hyields : (relocationRequest settings old).Yields d.admits found.tree := by
        rw [SnapshotRef.tree_of_of? hi]
        exact ⟨_, hfresh⟩
      have hupdate : Operation.Obeys d (Operation.update (·.handleFor found))
          (Handle.Yielded d.admits kind) := by
        apply Operation.Obeys.update
        intro c _
        exact ⟨hd.store c hq hyields, _, found, hq, hyields, c.handleFor_snd found⟩
      apply Operation.Obeys.bind hupdate
      intro h hh
      apply Operation.Obeys.pure
      intro h' hh'
      obtain rfl := List.mem_singleton.mp hh'
      exact hh

/-- The handle that is brought up to date is left as it is, becomes stale, is found again or adopts
what is cached. -/
theorem refresh_obeys (hd : d.Permits kind P) (settings : Settings) (h : Handle)
    (recency : Recency) :
    (refresh settings h recency).Obeys d fun result =>
      result.1 = h ∨ result.1 = h.gone ∨ result.1.Yielded d.admits kind ∨
        ∃ i resolved, P i resolved ∧ h.adopted resolved = .ok result.1 := by
  rw [refresh]
  split
  · exact .pure (.inl rfl)
  · split
    · apply Operation.Obeys.bind (.ask _)
      intro now _
      split
      · exact .pure (.inl rfl)
      · apply Operation.Obeys.bind (relocate_obeys hd settings h).attempt
        intro r hr
        split
        · next found =>
          exact .pure (.inr (.inr (.inl (hr _ rfl found List.mem_cons_self))))
        · exact .pure (.inr (.inl rfl))
        · exact .pure (.inl rfl)
    · next i _ =>
      apply Operation.Obeys.bind (resolve_obeys hd settings i recency).attempt
      intro r hr
      split
      · next resolved =>
        split
        · next hadopted =>
          exact .pure (.inr (.inr (.inr ⟨i, resolved, hr resolved rfl, hadopted⟩)))
        · exact .pure (.inl rfl)
      · exact .pure (.inr (.inl rfl))
      · exact .pure (.inl rfl)

end Session

namespace StabilityRule

/-- Reading an element leaves the cache as it is. The induction is on the time that is left. -/
theorem poll_obeys (rule : StabilityRule) (target : NodeRef) (deadline now : Nat)
    (previous : Option Properties) :
    (rule.poll target deadline now previous).Obeys d fun _ => True := by
  induction hleft : deadline - now using Nat.strong_induction_on generalizing now previous with
  | _ left ih =>
    subst hleft
    rw [poll]
    apply Operation.Obeys.bind (.ask _)
    intro answer _
    split
    · exact .pure trivial
    · exact .fail _
    · next reading _ =>
      apply Operation.Obeys.bind (.ask _)
      intro time _
      dsimp only
      split
      · exact .pure trivial
      · apply Operation.Obeys.bind (.ask _)
        intro woken _
        split
        · exact .pure trivial
        · exact ih _ (by omega) _ _ rfl

theorem wait_obeys (rule : StabilityRule) (target : NodeRef) (timeout : Nat) :
    (rule.wait target timeout).Obeys d fun _ => True := by
  rw [wait]
  apply Operation.Obeys.bind (.ask _)
  intro now _
  exact poll_obeys d rule target _ now none

end StabilityRule

namespace Session

open ElementCache

variable {d} {kind : CaptureRequest → Prop}

theorem waitUntilStable_obeys (hd : d.Permits kind P) (settings : Settings) (i : Identity)
    (timeout : Option Nat) :
    (waitUntilStable settings i timeout).Obeys d fun _ => True := by
  rw [waitUntilStable]
  apply Operation.Obeys.bind (.read _)
  intro cached _
  split
  · exact evictingStale_obeys _ (hd.evictStale i) (StabilityRule.wait_obeys _ _ i.ref _)
  · exact .fail _

end Session

end UiTree
