import UiTree.Proofs.Session.Recapture

/-!
# The life of a handle

A handle is unresolved, resolved or stale, in this order, and bringing it up to date never leads
back. A handle that is resolved has a snapshot. A handle that has an identity keeps it, and what
goes wrong costs a handle neither identity nor snapshot. A stale handle is refused at once: nobody
is asked, and neither the handle nor the cache is touched.

## Implementation notes

Between two times that a handle is brought up to date, and during each of them, others may do
anything, so every such step may begin on any cache and find any cache with an answer. Only where
handles come from, the cache has to be one that can come about.
-/

namespace UiTree

/-- How far a handle has come in its life. -/
def HandleState.stage : HandleState → Nat
  | unresolved => 0
  | resolved => 1
  | stale => 2

variable {settings : Settings} {recency : Recency} {h h' : Handle} {c t : ElementCache}
  {history : List (Exchange ElementCache)} {i : Identity}

/-- What comes of a handle that is brought up to date. -/
inductive Handle.Becomes (h : Handle) : Outcome Unit → Handle → Prop where
  /-- A stale handle is refused. -/
  | refused (hh : h.state = .stale) : Becomes h (.error h.staleError) h
  /-- The handle is fresh enough, or something else has gone wrong. -/
  | kept {outcome : Outcome Unit} (hh : h.state ≠ .stale) : Becomes h outcome h
  /-- The element is gone. -/
  | gone {e : Error} (hh : h.state ≠ .stale) : Becomes h (.error e) h.gone
  /-- The element was found again. An ephemeral handle may come to have an identity. -/
  | captured {found : Option Identity} {s : SnapshotRef} (hh : h.state ≠ .stale)
      (hi : ∀ i, h.identity = some i → found = some i) : Becomes h (.ok ()) (.captured found s)

namespace Handle

theorem adopted_ok {resolved : Handle} (hadopted : h.adopted resolved = .ok h') :
    ∃ s, resolved.snapshot = some s ∧ h' = .captured h.identity s := by
  rw [adopted] at hadopted
  split at hadopted
  · next s hs =>
    split at hadopted
    · rw [refreshed] at hadopted
      split at hadopted
      · cases hadopted
      · obtain rfl := Except.ok.inj hadopted
        exact ⟨s, hs, rfl⟩
    · cases hadopted
  · cases hadopted

/-- Whether the handle has a snapshot if it is resolved. -/
def Backed (h : Handle) : Prop :=
  h.state = .resolved → h.snapshot.isSome = true

theorem backed_unresolved (i : Identity) : (unresolved i).Backed :=
  HandleState.noConfusion

theorem backed_captured (found : Option Identity) (s : SnapshotRef) : (captured found s).Backed :=
  fun _ => rfl

namespace Becomes

variable {outcome : Outcome Unit}

theorem stage_le (hbecomes : h.Becomes outcome h') : h.state.stage ≤ h'.state.stage := by
  cases hbecomes with
  | refused | kept => exact le_rfl
  | gone => cases hstate : h.state <;> simp [Handle.gone, HandleState.stage]
  | captured hh => cases hstate : h.state <;> simp_all [Handle.captured, HandleState.stage]

theorem identity (hbecomes : h.Becomes outcome h') (hi : h.identity = some i) :
    h'.identity = some i := by
  cases hbecomes with
  | refused | kept | gone => exact hi
  | captured _ hfound => exact hfound i hi

theorem backed (hbecomes : h.Becomes outcome h') (hh : h.Backed) : h'.Backed := by
  cases hbecomes with
  | refused | kept => exact hh
  | gone => exact HandleState.noConfusion
  | captured => exact backed_captured _ _

/-- What goes wrong costs a handle neither its identity nor its snapshot. -/
theorem of_error {e : Error} (hbecomes : h.Becomes (.error e) h') :
    h'.identity = h.identity ∧ h'.snapshot = h.snapshot := by
  cases hbecomes with
  | refused | kept | gone => exact ⟨rfl, rfl⟩

end Becomes

end Handle

namespace ElementCache

theorem captured_of_mem_handlesFor {refs : List SnapshotRef} (hmem : h ∈ (c.handlesFor refs).2) :
    ∃ found s, h = .captured found s := by
  rw [handlesFor_snd] at hmem
  obtain ⟨s, -, rfl⟩ := List.mem_map.mp hmem
  exact ⟨_, s, rfl⟩

end ElementCache

namespace Session

/-- What a locator matches becomes captured handles. -/
theorem captured_of_find {l : Locator} {scope : Option Identity} {hs : List Handle}
    (hcourse : (find settings l scope).Course c history (.ok hs) t) (hmem : h ∈ hs) :
    ∃ found s, h = .captured found s := by
  obtain ⟨e, hr, -⟩ | ⟨first, second, s, t', -, -, hselect⟩ := hcourse.of_bind
  · cases hr
  · obtain ⟨e, hr, -⟩ | ⟨first', second', positions, u, -, -, hupdate⟩ := hselect.of_bind
    · cases hr
    · obtain ⟨-, hr, -⟩ := Operation.course_update_iff.mp hupdate
      obtain rfl := Except.ok.inj hr
      exact ElementCache.captured_of_mem_handlesFor hmem

/-- What is found again in a new capture is a captured handle. -/
theorem relocate_ok {found : Handle}
    (hcourse : (relocate settings h).Course c history (.ok (some found)) t) :
    ∃ i s, found = .captured i s := by
  rw [relocate] at hcourse
  split at hcourse
  · obtain ⟨-, hr, -⟩ := Operation.course_fail_iff.mp hcourse
    cases hr
  · obtain ⟨e, hr, -⟩ | ⟨first, second, fresh, t', -, -, hrest⟩ := hcourse.of_bind
    · cases hr
    · split at hrest
      · obtain ⟨-, hr, -⟩ := Operation.course_pure_iff.mp hrest
        cases hr
      · next s _ =>
        rw [Operation.course_update_bind_iff] at hrest
        obtain ⟨-, hr, -⟩ := Operation.course_pure_iff.mp hrest
        obtain rfl := Option.some.inj (Except.ok.inj hr)
        exact ⟨_, s, t'.handleFor_snd s⟩

/-- Whatever happens, a handle that is brought up to date is kept, marked, or replaced by a captured
one. -/
theorem refresh_becomes {r : Outcome (Handle × Outcome Unit)}
    (hcourse : (refresh settings h recency).Course c history r t) :
    ∃ h' outcome, r = .ok (h', outcome) ∧ h.Becomes outcome h' := by
  obtain ⟨h', outcome, rfl, hrefreshing⟩ := refreshing_of_course hcourse
  refine ⟨h', outcome, rfl, ?_⟩
  cases hrefreshing with
  | refused hstale => exact .refused hstale
  | fresh hh | unreached hh | declined hh | failed hh => exact .kept hh
  | lost hh | gone hh => exact .gone hh
  | found hh hi hrelocate =>
      obtain ⟨i, s, rfl⟩ := relocate_ok hrelocate
      refine .captured hh fun j hj => ?_
      rw [hi] at hj
      cases hj
  | adopted hh _ _ hadopted =>
      obtain ⟨s, -, rfl⟩ := Handle.adopted_ok hadopted
      exact .captured hh fun j hj => hj

/-- A stale handle is refused without a question. -/
theorem refresh_of_stale (hh : h.state = .stale) (settings : Settings) (recency : Recency)
    (c : ElementCache) :
    refresh settings h recency c = .done (.ok (h, .error h.staleError)) c := by
  rw [refresh, if_pos hh]
  rfl

end Session

namespace ElementCache

/-- Every cached handle has a snapshot, whatever the provider answers. -/
theorem lasting_snapshot (admits : Answering) :
    Lasting admits fun _ h => h.snapshot.isSome = true where
  captured _ _ _ := rfl
  refreshed {i h h' q now raw} _ _ hrefreshed := by
    rw [Handle.refreshed] at hrefreshed
    split at hrefreshed
    · cases hrefreshed
    · obtain rfl := Except.ok.inj hrefreshed
      rfl

end ElementCache

namespace Command

/-- The handle that a command is given. -/
def takes : Command → Option Handle
  | refresh _ h _ | relocate _ h => some h
  | _ => none

/-- The handles that a command returns. -/
def returns : (k : Command) → k.Result → List Handle
  | resolve .., h | resolveText .., h => [h]
  | find .., hs => hs
  | findFirst .., found | relocate .., found => found.toList
  | refresh .., (h, _) => [h]
  | store _, _ | evictStale _, _ | reset, _ | pageSource .., _ | waitUntilStable .., _ => []

end Command

namespace Handle

/-- How clients come by handles. -/
inductive Obtained (admits : Answering) (capacity : Nat) : Handle → Prop where
  /-- They make one of an identity. -/
  | unresolved (i : Identity) : Obtained admits capacity (.unresolved i)
  /-- They are shown what is cached. -/
  | cached {a : Activity} (ha : Activity.Reachable admits capacity a) {h : Handle}
      (hmem : h ∈ a.cache.handles) : Obtained admits capacity h
  /-- A command returns it, whatever others do while the command waits. -/
  | returned {a : Activity} (ha : Activity.Reachable admits capacity a) {k : Command}
      (htakes : ∀ h, k.takes = some h → Obtained admits capacity h)
      {history : List (Exchange ElementCache)} {result : k.Result} {c : ElementCache}
      (hcourse : k.perform.Course a.cache history (.ok result) c) {h : Handle}
      (hmem : h ∈ k.returns result) : Obtained admits capacity h

/-- A handle is brought up to date once. -/
def Refreshes (h h' : Handle) : Prop :=
  ∃ settings recency c history outcome t,
    (Session.refresh settings h recency).Course c history (.ok (h', outcome)) t

theorem Refreshes.becomes (hstep : h.Refreshes h') : ∃ outcome, h.Becomes outcome h' := by
  obtain ⟨settings, recency, c, history, outcome, t, hcourse⟩ := hstep
  obtain ⟨h'', outcome', hr, hbecomes⟩ := Session.refresh_becomes hcourse
  obtain ⟨rfl, rfl⟩ := Prod.mk.inj (Except.ok.inj hr)
  exact ⟨_, hbecomes⟩

variable {admits : Answering} {capacity : Nat}

/-- A handle that a command returns has a snapshot if it is resolved, provided that the handle that
the command was given has one. -/
theorem backed_of_returned {a : Activity} (ha : Activity.Reachable admits capacity a) {k : Command}
    (htakes : ∀ h, k.takes = some h → h.Backed) {result : k.Result}
    (hcourse : k.perform.Course a.cache history (.ok result) c) (hmem : h ∈ k.returns result) :
    h.Backed := by
  have hstands := (ha.orderly (lasting_standsFor admits)).holds
  cases k with
  | store | evictStale | reset | pageSource | waitUntilStable => exact absurd hmem List.not_mem_nil
  | resolve i recency q =>
      obtain rfl := List.mem_singleton.mp hmem
      exact fun _ => (ElementCache.resolve_ok hstands hcourse).2
  | resolveText settings text recency =>
      obtain rfl := List.mem_singleton.mp hmem
      obtain ⟨e, hr, -⟩ | ⟨first, second, i, t, -, hparse, hresolve⟩ := hcourse.of_bind
      · cases hr
      · obtain ⟨-, -, rfl⟩ := Operation.course_ofOutcome_iff.mp hparse
        exact fun _ => (ElementCache.resolve_ok hstands hresolve).2
  | find settings l scope =>
      obtain ⟨found, s, rfl⟩ := Session.captured_of_find hcourse hmem
      exact backed_captured found s
  | findFirst settings l scope =>
      obtain ⟨e, hr, -⟩ | ⟨first, second, hs, t, -, hfind, hpure⟩ := hcourse.of_bind
      · cases hr
      · obtain ⟨-, hr, -⟩ := Operation.course_pure_iff.mp hpure
        obtain rfl := Except.ok.inj hr
        obtain ⟨found, s, rfl⟩ :=
          Session.captured_of_find hfind (List.mem_of_head? (Option.mem_toList.mp hmem))
        exact backed_captured found s
  | relocate settings h' =>
      obtain rfl := Option.mem_toList.mp hmem
      obtain ⟨i, s, rfl⟩ := Session.relocate_ok hcourse
      exact backed_captured i s
  | refresh settings h' recency =>
      obtain ⟨h'', outcome, hr, hbecomes⟩ := Session.refresh_becomes hcourse
      obtain rfl := Except.ok.inj hr
      obtain rfl := List.mem_singleton.mp hmem
      exact hbecomes.backed (htakes h' rfl)

/-- A handle that clients have come by has a snapshot if it is resolved. -/
theorem Obtained.backed (hobtained : Obtained admits capacity h) : h.Backed := by
  induction hobtained with
  | unresolved i => exact backed_unresolved i
  | @cached a ha h hmem =>
      obtain ⟨⟨i, h⟩, hheld, rfl⟩ := List.mem_map.mp hmem
      exact fun _ => (ha.orderly (ElementCache.lasting_snapshot admits)).holds.entries _ hheld
  | returned ha _ hcourse hmem ih => exact backed_of_returned ha ih hcourse hmem

/-- What a handle has and keeps in one step, it has and keeps in any number of steps. -/
theorem keeps_of_refreshes (hh : h.Backed) (hlife : Relation.ReflTransGen Refreshes h h') :
    h.state.stage ≤ h'.state.stage ∧ h'.Backed ∧
      ∀ i, h.identity = some i → h'.identity = some i := by
  induction hlife with
  | refl => exact ⟨le_rfl, hh, fun i hi => hi⟩
  | tail _ hstep ih =>
      obtain ⟨hstage, hbacked, hidentity⟩ := ih
      obtain ⟨outcome, hbecomes⟩ := hstep.becomes
      exact ⟨hstage.trans hbecomes.stage_le, hbecomes.backed hbacked,
        fun i hi => hbecomes.identity (hidentity i hi)⟩

/-- A handle that is brought up to date again and again, among any other operations, moves forward
only, has a snapshot whenever it is resolved, and keeps the identity that it has. If it is brought
up to date once more, a handle results, with the same identity and the same snapshot if that goes
wrong; and if it is stale, it is refused at once, without a question and without a change of the
cache. -/
theorem Obtained.lives (hobtained : Obtained admits capacity h)
    (hlife : Relation.ReflTransGen Refreshes h h') :
    h.state.stage ≤ h'.state.stage ∧ (h'.state = .resolved → h'.snapshot.isSome = true) ∧
      (∀ i, h.identity = some i → h'.identity = some i) ∧
      (∀ settings recency c history r t,
        (Session.refresh settings h' recency).Course c history r t →
          ∃ h'' outcome, r = .ok (h'', outcome) ∧ ∀ e, outcome = .error e →
            h''.identity = h'.identity ∧ h''.snapshot = h'.snapshot) ∧
      (h'.state = .stale → ∀ settings recency c,
        Session.refresh settings h' recency c = .done (.ok (h', .error h'.staleError)) c) := by
  obtain ⟨hstage, hbacked, hidentity⟩ := keeps_of_refreshes hobtained.backed hlife
  refine ⟨hstage, hbacked, hidentity, ?_, fun hh => Session.refresh_of_stale hh⟩
  intro settings recency c history r t hcourse
  obtain ⟨h'', outcome, rfl, hbecomes⟩ := Session.refresh_becomes hcourse
  refine ⟨h'', outcome, rfl, ?_⟩
  rintro e rfl
  exact hbecomes.of_error

/-- A handle made of a cached identity is resolved, its element leaves the tree, and the handle
becomes stale. It has gone through all of its life. -/
theorem Obtained.lives_gone :
    let i : Identity := ⟨100, 1⟩
    let h := Handle.captured (some i) (.bare i)
    Obtained (fun _ _ => True) 1 (.unresolved i) ∧ (Handle.unresolved i).Refreshes h ∧
      h.Refreshes h.gone ∧ h.gone.identity = some i ∧
        ∀ settings recency c, Session.refresh settings h.gone recency c =
          .done (.ok (h.gone, .error (.stale i))) c := by
  intro i h
  obtain ⟨c, hc, hmem, -⟩ :=
    Activity.exists_reachable_has (fun _ _ => True) (i := i) (by decide)
  have hstands := (hc.orderly (lasting_standsFor _)).holds
  let q := Settings.captureRequest {} .all
  have hresolve : (Session.resolve {} i .any).Course c
      [ElementCache.clocked (c.use i).1 0 c] (.ok h) c :=
    (ElementCache.course_resolve_iff (q := q) hstands).mpr (.fresh hmem rfl)
  have hresolved : (Handle.unresolved i).Refreshes h := by
    refine ⟨{}, .any, c, [ElementCache.clocked (c.use i).1 0 c], .ok (), c, ?_⟩
    rw [Session.refresh, if_neg HandleState.noConfusion]
    exact Operation.course_attempt_bind_iff.mpr
      ⟨_, [], _, _, rfl, hresolve, Operation.course_pure_iff.mpr ⟨rfl, rfl, rfl⟩⟩
  have hrefuse : (Session.resolve {} i .current).Course c
      [ElementCache.clocked (c.use i).1 0 c, ElementCache.refusal q i.ref .notFound c c]
      (.error (.stale i)) (c.evictStale i) :=
    (ElementCache.course_resolve_iff (q := q) hstands).mpr (.refused hmem (h.isFresh_current 0))
  have hgone : h.Refreshes h.gone := by
    refine ⟨{}, .current, c, [ElementCache.clocked (c.use i).1 0 c,
      ElementCache.refusal q i.ref .notFound c c], .error (.stale i), c.evictStale i, ?_⟩
    rw [Session.refresh, if_neg HandleState.noConfusion]
    exact Operation.course_attempt_bind_iff.mpr
      ⟨_, [], _, _, rfl, hrefuse, Operation.course_pure_iff.mpr ⟨rfl, rfl, rfl⟩⟩
  have hobtained : Obtained (fun _ _ => True) 1 (.unresolved i) := .unresolved i
  obtain ⟨-, -, hidentity, -, hrefused⟩ :=
    hobtained.lives ((Relation.ReflTransGen.single hresolved).tail hgone)
  exact ⟨hobtained, hresolved, hgone, hidentity i rfl, hrefused rfl⟩

end Handle

end UiTree
