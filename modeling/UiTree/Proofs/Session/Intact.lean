import UiTree.Proofs.Session.Lifecycle

/-!
# What goes wrong leaves the cache intact

While nobody else works on the cache, a command that goes wrong leaves the entries, their order and
the feed as they were, with two exceptions. If an element is gone, its entry may go as well, and the
feed is told of that and of nothing else. If a cached handle was read before something else went
wrong, it has come to the front. The page source and the wait for an element to settle change
nothing when they succeed, either.

## Implementation notes

An operation that changes nothing keeps the strictest discipline, so that which was shown for every
discipline is used here for that one.
-/

namespace UiTree

section

variable {σ α : Type} {s t : σ} {first second history : List (Exchange σ)}

/-- Nobody works on the state while a question is open. -/
def Undisturbed (history : List (Exchange σ)) : Prop :=
  ∀ x ∈ history, x.found = x.handed

theorem undisturbed_cons_iff {x : Exchange σ} :
    Undisturbed (x :: history) ↔ x.found = x.handed ∧ Undisturbed history :=
  List.forall_mem_cons

theorem undisturbed_append_iff :
    Undisturbed (first ++ second) ↔ Undisturbed first ∧ Undisturbed second :=
  List.forall_mem_append

/-- The discipline of operations that change nothing, whatever they are answered. -/
def Discipline.idle (σ : Type) : Discipline σ where
  admits _ _ := True
  invariant _ := True
  change s t := t = s
  refl _ := rfl
  trans hst htu := htu.trans hst
  keeps _ _ := trivial

theorem Dialogue.Obeys.eq_of_course {x : Dialogue σ α} {post : α → Prop} {a : α}
    (hx : x.Obeys (.idle σ) post s) (hcourse : x.Course history a t)
    (hhistory : Undisturbed history) : t = s := by
  induction hcourse generalizing s with
  | done => exact hx.1
  | ask _ ih =>
      obtain ⟨hfound, hrest⟩ := undisturbed_cons_iff.mp hhistory
      exact (ih (hx.2 _ _ trivial trivial) hrest).trans (hfound.trans hx.1)

/-- An operation that changes nothing ends in the state that it began with. -/
theorem Operation.Obeys.eq_of_course {m : Operation σ α} {post : α → Prop} {r : Outcome α}
    (hm : m.Obeys (.idle σ) post) (hcourse : m.Course s history r t)
    (hhistory : Undisturbed history) : t = s :=
  Dialogue.Obeys.eq_of_course (hm s trivial) hcourse hhistory

end

variable {c t : ElementCache} {history : List (Exchange ElementCache)} {e : Error} {i : Identity}
  {h : Handle}

/-- What an operation that goes wrong leaves of a cache. It may have read the entry of an
identity. -/
inductive Leaves (read : Option Identity) (history : List (Exchange ElementCache)) (e : Error)
    (c t : ElementCache) : Prop where
  /-- The cache is as it was, and there was no entry to read. -/
  | untouched (hread : ∀ i, read = some i → c.has i = false) (ht : t = c)
  /-- The entry that was read has come to the front. -/
  | used {i : Identity} {h : Handle} (hread : read = some i) (he : ∀ j, e ≠ .stale j)
      (hmem : (i, h) ∈ c.held) (hheld : t.held = (i, h) :: UseOrder.without c.held i)
      (hfeed : t.feed = c.feed)
  /-- The entry of an element that is gone has gone, and the feed is told. -/
  | evicted {i : Identity} {h : Handle} (he : e = .stale i)
      (hgone : ∃ found, ReportedGone i found history) (hmem : (i, h) ∈ c.held)
      (hheld : t.held = UseOrder.without c.held i)
      (hfeed : t.feed = c.feed.send (.evicted i .stale))

/-- An operation that reads no entry and changes nothing. -/
theorem Leaves.of_eq (ht : t = c) : Leaves none history e c t :=
  .untouched (fun _ hi => by cases hi) ht

/-- What an operation that reads no entry leaves of a cache: everything, if it succeeds. -/
def Spares {α : Type} (history : List (Exchange ElementCache)) (c t : ElementCache) :
    Outcome α → Prop
  | .ok _ => t = c
  | .error e => Leaves none history e c t

theorem Spares.of_eq {α : Type} {r : Outcome α} (ht : t = c) : Spares history c t r := by
  cases r with
  | ok => exact ht
  | error => exact Leaves.of_eq ht

/-- The identity whose entry is read when a handle is brought up to date. -/
def Handle.entry? (h : Handle) : Option Identity :=
  if h.state = .stale then none else h.identity

namespace Command

/-- The identity whose entry a command reads. -/
def entry? : Command → Option Identity
  | resolve i _ _ => some i
  | resolveText _ text _ => (Identity.parse text).toOption
  | refresh _ h _ => h.entry?
  | _ => none

/-- Whether a command only looks at the tree. -/
def inspects : Command → Bool
  | pageSource .. | waitUntilStable .. => true
  | _ => false

end Command

namespace ElementCache

/-- An entry that is read on the way leaves no trace when it is evicted. -/
theorem evictStale_use (hc : c.Sound) (hmem : (i, h) ∈ c.held) :
    ((c.use i).1.evictStale i).held = UseOrder.without c.held i ∧
      ((c.use i).1.evictStale i).feed = c.feed.send (.evicted i .stale) := by
  obtain ⟨hsound, -, hfeed, hheld, -⟩ := use_of_mem hc hmem
  have hfront : (i, h) ∈ (c.use i).1.held := by
    rw [hheld]
    exact List.mem_cons_self
  obtain ⟨-, -, hfeed', hheld'⟩ := evictStale_of_mem hsound hfront
  constructor
  · rw [hheld', hheld]
    exact List.eraseP_cons_of_pos (beq_self_eq_true i)
  · rw [hfeed', hfeed]

/-- An operation about a cached element that changes nothing by itself, and fails only if the
provider refuses a capture of the element. -/
theorem evictingStale_spares {α : Type} {m : CacheOperation α} {post : α → Prop} {r : Outcome α}
    (hm : m.Obeys (.idle _) post)
    (herror : ∀ {e found}, m.Course c history (.error e) found →
      ∃ p : ProviderError, Refused i.ref p found history ∧ e = p.toError i.ref)
    (hc : c.Sound) (hi : c.has i = true) (hcourse : (evictingStale i m).Course c history r t)
    (hhistory : Undisturbed history) : Spares history c t r := by
  cases r with
  | ok a => exact hm.eq_of_course (course_evictingStale_ok_iff.mp hcourse) hhistory
  | error e =>
      obtain ⟨found, hfailed, rfl⟩ := course_evictingStale_error_iff.mp hcourse
      obtain rfl := hm.eq_of_course hfailed hhistory
      obtain ⟨p, hrefused, he⟩ := herror hfailed
      obtain ⟨h, hmem⟩ := hc.exists_mem_of_has hi
      cases e with
      | stale j =>
          obtain ⟨rfl, hgone⟩ := hrefused.reportedGone_ref he.symm
          obtain ⟨-, -, hfeed, hheld⟩ := evictStale_of_mem hc hmem
          exact Leaves.evicted rfl ⟨_, hgone⟩ hmem hheld hfeed
      | _ => exact Leaves.of_eq rfl

theorem Resolving.leaves {recency : Recency} {q : CaptureRequest}
    (hcourse : Resolving c i recency q history (.error e) t) (hc : c.Sound)
    (hhistory : Undisturbed history) : Leaves (some i) history e c t := by
  cases hcourse with
  | notCached hi =>
      refine .untouched ?_ rfl
      rintro j ⟨⟩
      exact hi
  | @refused cached now p asked found hmem =>
      obtain ⟨hasked, hhistory⟩ := undisturbed_cons_iff.mp hhistory
      obtain ⟨hfound, -⟩ := undisturbed_cons_iff.mp hhistory
      obtain rfl : asked = (c.use i).1 := hasked
      obtain rfl : found = (c.use i).1 := hfound
      have hrefused : Refused i.ref p (c.use i).1
          [clocked (c.use i).1 now (c.use i).1, refusal q i.ref p (c.use i).1 (c.use i).1] :=
        .intro [_] _ _ _ _
      cases he : p.toError i.ref with
      | stale j =>
          obtain ⟨rfl, hgone⟩ := hrefused.reportedGone_ref he
          obtain ⟨hheld, hfeed⟩ := evictStale_use hc hmem
          exact .evicted rfl ⟨_, hgone⟩ hmem hheld hfeed
      | _ =>
          obtain ⟨-, -, hfeed, hheld, -⟩ := use_of_mem hc hmem
          exact .used rfl (fun _ => Error.noConfusion) hmem hheld hfeed

end ElementCache

namespace Session

open ElementCache

variable {settings : Settings} {scope : Option Identity} {l : Locator} {recency : Recency}

theorem captureScope_spares {attributes : AttributeSet} {r : Outcome Snapshot} (hc : c.Sound)
    (hcourse : (captureScope settings scope attributes).Course c history r t)
    (hhistory : Undisturbed history) : Spares history c t r := by
  cases scope with
  | none =>
      rw [captureScope] at hcourse
      exact .of_eq ((captureActive_obeys _ _).eq_of_course hcourse hhistory)
  | some i =>
      rw [captureScope, Operation.course_read_bind_iff] at hcourse
      split at hcourse
      · next hi =>
        exact evictingStale_spares (capture_obeys _ _ i.ref) capture_error hc hi hcourse hhistory
      · obtain ⟨-, -, rfl⟩ := Operation.course_fail_iff.mp hcourse
        exact .of_eq rfl

theorem find_leaves (hc : c.Sound)
    (hcourse : (find settings l scope).Course c history (.error e) t)
    (hhistory : Undisturbed history) : Leaves none history e c t := by
  rw [find] at hcourse
  obtain ⟨e', he, hcapture⟩ | ⟨first, second, s, t', rfl, hcapture, hselect⟩ := hcourse.of_bind
  · obtain rfl := Except.error.inj he
    exact captureScope_spares hc hcapture hhistory
  · obtain ⟨hfirst, -⟩ := undisturbed_append_iff.mp hhistory
    obtain rfl : t' = c := captureScope_spares hc hcapture hfirst
    obtain ⟨e', he, hfailed⟩ | ⟨first', second', positions, t'', -, -, hupdate⟩ := hselect.of_bind
    · obtain ⟨-, -, rfl⟩ := Operation.course_ofOutcome_iff.mp hfailed
      exact .of_eq rfl
    · exact absurd hupdate Operation.not_course_update_error

theorem findFirst_leaves (hc : c.Sound)
    (hcourse : (findFirst settings l scope).Course c history (.error e) t)
    (hhistory : Undisturbed history) : Leaves none history e c t := by
  rw [findFirst] at hcourse
  obtain ⟨e', he, hfind⟩ | ⟨first, second, hs, t', -, -, hpure⟩ := hcourse.of_bind
  · obtain rfl := Except.error.inj he
    exact find_leaves hc hfind hhistory
  · exact absurd hpure Operation.not_course_pure_error

/-- Once the tree is captured, the page source is a matter of the document alone. -/
theorem pageSource_spares {options : PageSourceOptions} {r : Outcome String} (hc : c.Sound)
    (hcourse : (pageSource settings scope options).Course c history r t)
    (hhistory : Undisturbed history) : Spares history c t r := by
  rw [pageSource] at hcourse
  obtain ⟨e, rfl, hcapture⟩ | ⟨first, second, s, t', rfl, hcapture, hsource⟩ := hcourse.of_bind
  · exact captureScope_spares hc hcapture hhistory
  · obtain ⟨hfirst, -⟩ := undisturbed_append_iff.mp hhistory
    obtain ⟨-, -, rfl⟩ := Operation.course_ofOutcome_iff.mp hsource
    exact .of_eq (captureScope_spares hc hcapture hfirst)

theorem waitUntilStable_spares {timeout : Option Nat} {r : Outcome Bool} (hc : c.Sound)
    (hcourse : (waitUntilStable settings i timeout).Course c history r t)
    (hhistory : Undisturbed history) : Spares history c t r := by
  rw [waitUntilStable, Operation.course_read_bind_iff] at hcourse
  split at hcourse
  · next hi =>
    exact evictingStale_spares (StabilityRule.wait_obeys _ _ i.ref _) StabilityRule.wait_error hc hi
      hcourse hhistory
  · obtain ⟨-, -, rfl⟩ := Operation.course_fail_iff.mp hcourse
    exact .of_eq rfl

theorem resolve_leaves (hc : c.Holds fun i h => h.StandsFor i)
    (hcourse : (resolve settings i recency).Course c history (.error e) t)
    (hhistory : Undisturbed history) : Leaves (some i) history e c t :=
  ((course_resolve_iff hc).mp hcourse).leaves hc.sound hhistory

theorem resolveText_leaves {text : String} (hc : c.Holds fun i h => h.StandsFor i)
    (hcourse : (resolveText settings text recency).Course c history (.error e) t)
    (hhistory : Undisturbed history) :
    Leaves (Identity.parse text).toOption history e c t := by
  rw [resolveText] at hcourse
  cases hparse : Identity.parse text with
  | error e' =>
      rw [hparse] at hcourse
      obtain ⟨-, -, rfl⟩ := Operation.course_fail_iff.mp hcourse
      exact .of_eq rfl
  | ok i =>
      rw [hparse] at hcourse
      exact resolve_leaves hc hcourse hhistory

/-- A handle is cached only if it was found. -/
theorem relocate_eq {r : Outcome (Option Handle)}
    (hcourse : (relocate settings h).Course c history r t) (hr : ∀ found, r ≠ .ok (some found))
    (hhistory : Undisturbed history) : t = c := by
  rw [relocate] at hcourse
  split at hcourse
  · exact (Operation.course_fail_iff.mp hcourse).2.2
  · next old _ =>
    have hcapture (q : CaptureRequest) := capture_obeys (.idle _) q old.tree.root.ref
    obtain ⟨e, -, hfailed⟩ | ⟨first, second, fresh, t', rfl, hdone, hrest⟩ := hcourse.of_bind
    · exact (hcapture _).eq_of_course hfailed hhistory
    · obtain ⟨hfirst, -⟩ := undisturbed_append_iff.mp hhistory
      obtain rfl := (hcapture _).eq_of_course hdone hfirst
      split at hrest
      · exact (Operation.course_pure_iff.mp hrest).2.2
      · rw [Operation.course_update_bind_iff] at hrest
        exact absurd (Operation.course_pure_iff.mp hrest).2.1 (hr _)

/-- A handle that is not stale takes over what was resolved for its identity. -/
theorem adopted_of_resolve {resolved : Handle} (hc : c.Holds fun i h => h.StandsFor i)
    (hh : h.state ≠ .stale) (hi : h.identity = some i)
    (hcourse : (resolve settings i recency).Course c history (.ok resolved) t) :
    h.adopted resolved ≠ .error e := by
  obtain ⟨hidentity, hsnapshot⟩ := resolve_ok hc hcourse
  obtain ⟨s, hs⟩ := Option.isSome_iff_exists.mp hsnapshot
  rw [Handle.adopted, hs]
  dsimp only
  rw [if_pos (hi.trans hidentity.symm), Handle.refreshed, if_neg hh]
  intro he
  cases he

theorem refresh_leaves {h' : Handle} (hc : c.Holds fun i h => h.StandsFor i)
    (hcourse : (refresh settings h recency).Course c history (.ok (h', .error e)) t)
    (hhistory : Undisturbed history) : Leaves h.entry? history e c t := by
  obtain ⟨_, _, hr, hrefreshing⟩ := refreshing_of_course hcourse
  obtain ⟨rfl, rfl⟩ := Prod.mk.inj (Except.ok.inj hr)
  rw [Handle.entry?]
  cases hrefreshing with
  | refused hstale =>
      rw [if_pos hstale]
      exact .of_eq rfl
  | lost hh hi hrelocate | unreached hh hi hrelocate =>
      obtain ⟨hasked, hrest⟩ := undisturbed_cons_iff.mp hhistory
      have ht := relocate_eq hrelocate (fun _ hr => by cases hr) hrest
      rw [if_neg hh, hi]
      exact .of_eq (ht.trans hasked)
  | declined hh hi hresolve hadopted => exact absurd hadopted (adopted_of_resolve hc hh hi hresolve)
  | gone hh hi hresolve | failed hh hi _ hresolve =>
      rw [if_neg hh, hi]
      exact resolve_leaves hc hresolve hhistory

end Session

namespace Command

variable {k : Command} {r : Outcome k.Result}

/-- What a command that goes wrong leaves of the cache that it began with. -/
theorem perform_leaves (hc : c.Holds fun i h => h.StandsFor i)
    (hcourse : k.perform.Course c history r t) (hhistory : Undisturbed history)
    (he : k.failure r = some e) : Leaves k.entry? history e c t := by
  cases r with
  | error e' =>
      obtain rfl : e' = e := by cases k <;> exact Option.some.inj he
      cases k with
      | store | evictStale | reset =>
          rw [perform] at hcourse
          exact absurd hcourse Operation.not_course_update_error
      | resolve => exact ((ElementCache.course_resolve_iff hc).mp hcourse).leaves hc.sound hhistory
      | resolveText => exact Session.resolveText_leaves hc hcourse hhistory
      | find => exact Session.find_leaves hc.sound hcourse hhistory
      | findFirst => exact Session.findFirst_leaves hc.sound hcourse hhistory
      | pageSource => exact Session.pageSource_spares hc.sound hcourse hhistory
      | refresh =>
          obtain ⟨h', outcome, hr, -⟩ := Session.refresh_becomes hcourse
          cases hr
      | relocate =>
          exact .of_eq (Session.relocate_eq hcourse (fun _ hr => by cases hr) hhistory)
      | waitUntilStable => exact Session.waitUntilStable_spares hc.sound hcourse hhistory
  | ok result =>
      cases k with
      | refresh settings h recency =>
          obtain ⟨h', outcome⟩ := result
          cases outcome with
          | ok => cases he
          | error e' =>
              obtain rfl := Option.some.inj he
              exact Session.refresh_leaves hc hcourse hhistory
      | _ => cases he

theorem perform_inspects {result : k.Result} (hc : c.Sound) (hk : k.inspects = true)
    (hcourse : k.perform.Course c history (.ok result) t) (hhistory : Undisturbed history) :
    t = c := by
  cases k with
  | pageSource => exact Session.pageSource_spares hc hcourse hhistory
  | waitUntilStable => exact Session.waitUntilStable_spares hc hcourse hhistory
  | _ => cases hk

end Command

namespace Activity

open ElementCache

variable {admits : Answering} {capacity : Nat} {a : Activity}

/-- While nobody else works on the cache, a command that goes wrong leaves entries, order and feed
as they were; but an element that is gone may lose its entry, which the feed is then told, and a
cached entry that the command has read comes to the front if anything else goes wrong. A command
that only looks at the tree leaves everything as it was when it succeeds, too. -/
theorem Reachable.failure_leaves (ha : Reachable admits capacity a) {k : Command}
    {r : Outcome k.Result} (hcourse : k.perform.Course a.cache history r c)
    (hhistory : Undisturbed history) :
    (∀ e, k.failure r = some e → Leaves k.entry? history e a.cache c) ∧
      (k.inspects = true → ∀ result, r = .ok result → c = a.cache) := by
  have hstands := (ha.orderly (Handle.lasting_standsFor admits)).holds
  constructor
  · intro e he
    exact k.perform_leaves hstands hcourse hhistory he
  · rintro hk result rfl
    exact k.perform_inspects hstands.sound hk hcourse hhistory

/-- Of two cached elements, the one that was used less recently is captured again, and the provider
does not answer in time. Its handle comes to the front, and nothing else changes. -/
theorem Reachable.failure_leaves_timeout :
    let i : Identity := ⟨100, 1⟩
    let j : Identity := ⟨100, 2⟩
    let k : Command := .resolve i .current {}
    ∃ (c t : ElementCache) (history : List (Exchange ElementCache)),
      Reachable (fun _ _ => True) 2 { cache := c } ∧
        k.perform.Course c history (.error (.timeout 7)) t ∧ Undisturbed history ∧
          c.held = [(j, .captured (some j) (.bare j)), (i, .captured (some i) (.bare i))] ∧
            t.held = [(i, .captured (some i) (.bare i)), (j, .captured (some j) (.bare j))] ∧
              t.feed = c.feed := by
  intro i j k
  obtain ⟨c, hc, hheld⟩ :=
    exists_reachable_pair (fun _ _ => True) (i := i) (j := j) (by decide) (by decide) (by decide)
  have hstands := (hc.orderly (Handle.lasting_standsFor _)).holds
  have hmem : (i, Handle.captured (some i) (.bare i)) ∈ c.held := by simp [hheld]
  have hcourse : k.perform.Course c
      [clocked (c.use i).1 0 (c.use i).1,
        refusal {} i.ref (.timeout (ofMilliseconds 7)) (c.use i).1 (c.use i).1]
      (.error (.timeout 7)) (c.use i).1 :=
    (course_resolve_iff hstands).mpr (.refused hmem (Handle.isFresh_current _ 0))
  have hhistory : Undisturbed [clocked (c.use i).1 0 (c.use i).1,
      refusal {} i.ref (.timeout (ofMilliseconds 7)) (c.use i).1 (c.use i).1] := by
    simp [Undisturbed, clocked, refusal]
  refine ⟨c, _, _, hc, hcourse, hhistory, hheld, ?_⟩
  obtain ⟨hleaves, -⟩ := hc.failure_leaves hcourse hhistory
  cases hleaves _ rfl with
  | untouched hread => exact absurd (hstands.sound.has_of_mem hmem) (by simp [hread i rfl])
  | used hread _ hmem' hfront hfeed =>
      obtain rfl := Option.some.inj hread
      obtain rfl := hstands.sound.eq_of_mem hmem hmem'
      refine ⟨?_, hfeed⟩
      rw [hfront, hheld]
      rfl
  | evicted he => cases he

end Activity

end UiTree
