import UiTree.Proofs.Cache.Changes
import UiTree.Proofs.Session.Course
import UiTree.Session.Resolve

/-!
# Where failures come from

An operation that fails on an answer of the provider fails at once, with the error that the provider
gave for the target it was asked about. The lemmas say so of every operation, and say what is left
of the cache when the error is that an element has left the tree.
-/

namespace UiTree

variable {σ : Type}

/-- The last of some exchanges is a capture of a target that the provider refused. -/
inductive Refused (target : NodeRef) (p : ProviderError) (found : σ) :
    List (Exchange σ) → Prop where
  | intro (earlier : List (Exchange σ)) (attributes : AttributeSet) (maxDepth budget : Nat)
      (handed : σ) : Refused target p found
        (earlier ++ [⟨.capture target attributes maxDepth budget, handed, .error p, found⟩])

/-- The last of some exchanges is a capture of a node with an identity, and reports that the node is
not in the tree. -/
def ReportedGone (i : Identity) (found : σ) (history : List (Exchange σ)) : Prop :=
  ∃ target : NodeRef, target.identity? = some i ∧ Refused target .notFound found history

section

variable {target : NodeRef} {p : ProviderError} {found : σ} {history : List (Exchange σ)}
  {i j : Identity}

namespace Refused

theorem prepend (h : Refused target p found history) (earlier : List (Exchange σ)) :
    Refused target p found (earlier ++ history) := by
  cases h with
  | intro between attributes maxDepth budget handed =>
      rw [← List.append_assoc]
      exact .intro _ attributes maxDepth budget handed

theorem exists_mem (h : Refused target p found history) : ∃ x ∈ history, x.found = found := by
  cases h with
  | intro earlier attributes maxDepth budget handed =>
      exact ⟨_, List.mem_append_right _ (List.mem_singleton_self _), rfl⟩

end Refused

theorem ProviderError.toError_eq_stale_iff :
    p.toError target = .stale i ↔ p = .notFound ∧ target.identity? = some i := by
  cases p with
  | timeout budget => simp [toError]
  | failed reason => simp [toError]
  | notFound => cases htarget : target.identity? <;> simp [toError, htarget]

theorem Identity.eq_of_identity?_ref (h : i.ref.identity? = some j) : j = i := by
  obtain ⟨href, -⟩ := identity?_eq_some_iff.mp h
  obtain ⟨hprocess, helement⟩ := NodeRef.mk.inj href
  obtain ⟨p, e⟩ := i
  obtain ⟨p', e'⟩ := j
  obtain rfl := Option.some.inj hprocess
  obtain rfl := helement
  rfl

namespace Refused

theorem reportedGone (h : Refused target p found history)
    (hstale : p.toError target = .stale i) : ReportedGone i found history := by
  obtain ⟨rfl, htarget⟩ := ProviderError.toError_eq_stale_iff.mp hstale
  exact ⟨target, htarget, h⟩

/-- An identity that is the target is itself what is reported gone. -/
theorem reportedGone_ref (h : Refused i.ref p found history)
    (hstale : p.toError i.ref = .stale j) : j = i ∧ ReportedGone i found history := by
  obtain ⟨-, hidentity⟩ := ProviderError.toError_eq_stale_iff.mp hstale
  obtain rfl := Identity.eq_of_identity?_ref hidentity
  exact ⟨rfl, h.reportedGone hstale⟩

end Refused

end

theorem Handle.refreshed_of_resolved {h : Handle} (hh : h.state = .resolved) (s : SnapshotRef) :
    h.refreshed s = .ok { h with snapshot := some s, state := .resolved } := by
  rw [refreshed, hh, if_neg HandleState.noConfusion]

variable {c t : ElementCache} {history : List (Exchange ElementCache)} {e : Error}
  {i j : Identity}

/-- Some exchanges end on the report that a node is gone, and a cache is left as it was found with
the report, without the entry of the node unless that is kept. -/
def Vanished (keeps : Bool) (i : Identity) (history : List (Exchange ElementCache))
    (t : ElementCache) : Prop :=
  ∃ found, ReportedGone i found history ∧ t = if keeps then found else found.evictStale i

namespace ElementCache

/-- What the failure of an operation about an element leaves of the cache: not the entry of an
element that has left the tree. -/
def afterFailure (c : ElementCache) (i : Identity) : Error → ElementCache
  | .stale _ => c.evictStale i
  | _ => c

theorem capture_error {q : CaptureRequest} {target : NodeRef}
    (h : (capture q target).Course c history (.error e) t) :
    ∃ p : ProviderError, Refused target p t history ∧ e = p.toError target := by
  rw [capture, Operation.course_ask_bind_iff] at h
  obtain ⟨answer, found, rest, rfl, h⟩ := h
  cases answer with
  | error p =>
      obtain ⟨rfl, he, rfl⟩ := Operation.course_fail_error_iff.mp h
      exact ⟨p, .intro [] _ _ _ _, he⟩
  | ok raw =>
      obtain ⟨now, found', rest', rfl, hpure⟩ := Operation.course_ask_bind_iff.mp h
      exact absurd hpure Operation.not_course_pure_error

theorem evictingStale_error {α : Type} {m : CacheOperation α}
    (h : (evictingStale i m).Course c history (.error e) t) :
    ∃ t', m.Course c history (.error e) t' ∧ t = t'.afterFailure i e := by
  rw [evictingStale, Operation.course_attempt_bind_iff] at h
  obtain ⟨first, second, r, t', rfl, hm, h⟩ := h
  split at h
  · exact absurd h Operation.not_course_pure_error
  · rw [Operation.course_update_bind_iff] at h
    obtain ⟨rfl, rfl, rfl⟩ := Operation.course_fail_error_iff.mp h
    exact ⟨t', by rwa [List.append_nil], rfl⟩
  · next e' hne =>
    obtain ⟨rfl, rfl, rfl⟩ := Operation.course_fail_error_iff.mp h
    refine ⟨t, by rwa [List.append_nil], ?_⟩
    cases e with
    | stale gone => exact absurd rfl (hne gone)
    | _ => rfl

/-- Capturing a cached element again fails only if the element is not cached, or if the provider
refuses: a handle that is not stale takes the new snapshot. -/
theorem resolve_error {recency : Recency} {q : CaptureRequest}
    (hc : c.Holds fun _ h => h.state = .resolved)
    (h : (resolve i recency q).Course c history (.error e) t) :
    (c.has i = false ∧ history = [] ∧ e = .notCached i) ∨
      ∃ (p : ProviderError) (found : ElementCache), Refused i.ref p found history ∧
        e = p.toError i.ref ∧ t = found.afterFailure i e := by
  rw [resolve, Operation.course_update_bind_iff] at h
  cases hused : (c.use i).2 with
  | none =>
      rw [hused] at h
      obtain ⟨rfl, he, -⟩ := Operation.course_fail_error_iff.mp h
      refine .inl ⟨?_, rfl, he⟩
      apply Bool.eq_false_iff.mpr
      intro hi
      obtain ⟨h', hmem⟩ := hc.sound.exists_mem_of_has hi
      obtain ⟨-, -, -, -, hfound⟩ := use_of_mem hc.sound hmem
      cases hused.symm.trans hfound
  | some cached =>
      have hcached : cached.state = .resolved := (hc.use i).2.2 cached hused
      rw [hused] at h
      obtain ⟨now, found, rest, rfl, hrest⟩ := Operation.course_ask_bind_iff.mp h
      split at hrest
      · exact absurd hrest Operation.not_course_pure_error
      · obtain ⟨e', he, hevicting⟩ | ⟨first, second, s, t', -, -, hok⟩ := hrest.of_bind
        · obtain rfl := Except.error.inj he
          obtain ⟨t', hcapture, rfl⟩ := evictingStale_error hevicting
          obtain ⟨p, hrefused, rfl⟩ := capture_error hcapture
          exact .inr ⟨p, t', hrefused.prepend [_], rfl, rfl⟩
        · rw [Handle.refreshed_of_resolved hcached] at hok
          exact absurd hok Operation.not_course_pure_error

theorem resolve_stale {recency : Recency} {q : CaptureRequest}
    (hc : c.Holds fun _ h => h.state = .resolved)
    (h : (resolve i recency q).Course c history (.error (.stale j)) t) :
    j = i ∧ Vanished false i history t := by
  obtain ⟨-, -, he⟩ | ⟨p, found, hrefused, hstale, rfl⟩ := resolve_error hc h
  · cases he
  · obtain ⟨rfl, hgone⟩ := hrefused.reportedGone_ref hstale.symm
    exact ⟨rfl, found, hgone, rfl⟩

end ElementCache

namespace StabilityRule

/-- Waiting for a node to settle fails on a reading that the provider refused. The induction is on
the time that is left. -/
theorem poll_error {rule : StabilityRule} {target : NodeRef} {deadline now : Nat}
    {previous : Option Properties}
    (h : (rule.poll target deadline now previous).Course c history (.error e) t) :
    ∃ p : ProviderError, Refused target p t history ∧ e = p.toError target := by
  induction hleft : deadline - now using Nat.strong_induction_on
    generalizing now previous c history with
  | _ left ih =>
    subst hleft
    rw [poll, Operation.course_ask_bind_iff] at h
    obtain ⟨answer, found, rest, rfl, h⟩ := h
    split at h
    · exact absurd h Operation.not_course_pure_error
    · next e' hverdict =>
      obtain ⟨rfl, rfl, rfl⟩ := Operation.course_fail_error_iff.mp h
      cases answer with
      | ok raw =>
          rw [verdict] at hverdict
          split at hverdict <;> cases hverdict
      | error p =>
          refine ⟨p, .intro [] _ _ _ _, ?_⟩
          cases p <;> simp_all [verdict]
    · next reading _ =>
      obtain ⟨time, found', rest', rfl, hread⟩ := Operation.course_ask_bind_iff.mp h
      dsimp only at hread
      split at hread
      · exact absurd hread Operation.not_course_pure_error
      · obtain ⟨woken, found'', rest'', rfl, hwoken⟩ := Operation.course_ask_bind_iff.mp hread
        split at hwoken
        · exact absurd hwoken Operation.not_course_pure_error
        · obtain ⟨p, hrefused, he⟩ := ih _ (by omega) hwoken rfl
          exact ⟨p, hrefused.prepend [_, _, _], he⟩

theorem wait_error {rule : StabilityRule} {target : NodeRef} {timeout : Nat}
    (h : (rule.wait target timeout).Course c history (.error e) t) :
    ∃ p : ProviderError, Refused target p t history ∧ e = p.toError target := by
  rw [wait, Operation.course_ask_bind_iff] at h
  obtain ⟨now, found, rest, rfl, hpoll⟩ := h
  obtain ⟨p, hrefused, he⟩ := poll_error hpoll
  exact ⟨p, hrefused.prepend [_], he⟩

end StabilityRule

namespace Session

open ElementCache

variable {settings : Settings} {scope : Option Identity} {h : Handle}

theorem activeRoot_error (hcourse : activeRoot.Course c history (.error e) t) : e ≠ .stale i := by
  rw [activeRoot, Operation.course_ask_bind_iff] at hcourse
  obtain ⟨answer, found, rest, rfl, hcourse⟩ := hcourse
  split at hcourse
  · next p =>
    obtain ⟨-, rfl, -⟩ := Operation.course_fail_error_iff.mp hcourse
    intro hstale
    obtain ⟨-, hnone⟩ := ProviderError.toError_eq_stale_iff.mp hstale
    cases hnone
  · obtain ⟨-, rfl, -⟩ := Operation.course_fail_error_iff.mp hcourse
    exact Error.noConfusion
  · exact absurd hcourse Operation.not_course_pure_error

/-- A capture that finds its target gone evicts a cached element, and leaves the cache as it is when
the target is the root of the frontmost application. -/
theorem captureScope_stale {attributes : AttributeSet}
    (hcourse : (captureScope settings scope attributes).Course c history (.error (.stale i)) t) :
    Vanished scope.isNone i history t := by
  cases scope with
  | none =>
      rw [captureScope] at hcourse
      obtain ⟨e, he, hroot⟩ | ⟨first, second, root, t', rfl, -, hcapture⟩ := hcourse.of_bind
      · exact absurd (Except.error.inj he).symm (activeRoot_error hroot)
      · obtain ⟨p, hrefused, hstale⟩ := capture_error hcapture
        exact ⟨t, (hrefused.prepend first).reportedGone hstale.symm, rfl⟩
  | some j =>
      rw [captureScope, Operation.course_read_bind_iff] at hcourse
      split at hcourse
      · obtain ⟨t', hcapture, rfl⟩ := evictingStale_error hcourse
        obtain ⟨p, hrefused, hstale⟩ := capture_error hcapture
        obtain ⟨rfl, hgone⟩ := hrefused.reportedGone_ref hstale.symm
        exact ⟨t', hgone, rfl⟩
      · obtain ⟨-, he, -⟩ := Operation.course_fail_error_iff.mp hcourse
        cases he

theorem select_ne_stale {l : Locator} {s : Snapshot} : l.select s ≠ .error (.stale i) := by
  cases l with
  | query q =>
      rw [Locator.select]
      dsimp only
      split <;> simp
  | predicate p => simp [Locator.select]

theorem find_stale {l : Locator}
    (hcourse : (find settings l scope).Course c history (.error (.stale i)) t) :
    Vanished scope.isNone i history t := by
  rw [find] at hcourse
  obtain ⟨e, he, hcapture⟩ | ⟨first, second, s, t', rfl, -, hselect⟩ := hcourse.of_bind
  · obtain rfl := Except.error.inj he
    exact captureScope_stale hcapture
  · obtain ⟨e, he, hfailed⟩ | ⟨first', second', positions, t'', rfl, -, hupdate⟩ :=
      hselect.of_bind
    · obtain rfl := Except.error.inj he
      obtain ⟨-, hselect, -⟩ := Operation.course_ofOutcome_iff.mp hfailed
      exact absurd hselect.symm select_ne_stale
    · exact absurd hupdate Operation.not_course_update_error

theorem findFirst_stale {l : Locator}
    (hcourse : (findFirst settings l scope).Course c history (.error (.stale i)) t) :
    Vanished scope.isNone i history t := by
  rw [findFirst] at hcourse
  obtain ⟨e, he, hfind⟩ | ⟨first, second, hs, t', rfl, -, hpure⟩ := hcourse.of_bind
  · obtain rfl := Except.error.inj he
    exact find_stale hfind
  · exact absurd hpure Operation.not_course_pure_error

theorem pageSource_stale {options : PageSourceOptions}
    (hcourse : (pageSource settings scope options).Course c history (.error (.stale i)) t) :
    Vanished scope.isNone i history t := by
  rw [pageSource] at hcourse
  obtain ⟨e, he, hcapture⟩ | ⟨first, second, s, t', rfl, -, hsource⟩ := hcourse.of_bind
  · obtain rfl := Except.error.inj he
    exact captureScope_stale hcapture
  · obtain ⟨-, hsource, -⟩ := Operation.course_ofOutcome_iff.mp hsource
    rw [Document.pageSource] at hsource
    split at hsource
    · cases hsource
    · split at hsource <;> cases hsource

theorem resolveText_stale {text : String} {recency : Recency}
    (hc : c.Holds fun _ h => h.state = .resolved)
    (hcourse : (resolveText settings text recency).Course c history (.error (.stale i)) t) :
    Vanished false i history t := by
  rw [resolveText] at hcourse
  cases hparse : Identity.parse text with
  | error e =>
      rw [hparse] at hcourse
      obtain ⟨-, he, -⟩ := Operation.course_fail_error_iff.mp hcourse
      rw [Identity.parse] at hparse
      split at hparse
      · cases hparse
      · cases he.trans (Except.error.inj hparse).symm
  | ok j =>
      rw [hparse] at hcourse
      obtain ⟨rfl, hgone⟩ := resolve_stale hc hcourse
      exact hgone

theorem waitUntilStable_stale {timeout : Option Nat}
    (hcourse : (waitUntilStable settings i timeout).Course c history (.error (.stale j)) t) :
    Vanished false j history t := by
  rw [waitUntilStable, Operation.course_read_bind_iff] at hcourse
  split at hcourse
  · obtain ⟨t', hwait, rfl⟩ := evictingStale_error hcourse
    obtain ⟨p, hrefused, hstale⟩ := StabilityRule.wait_error hwait
    obtain ⟨rfl, hgone⟩ := hrefused.reportedGone_ref hstale.symm
    exact ⟨t', hgone, rfl⟩
  · obtain ⟨-, he, -⟩ := Operation.course_fail_error_iff.mp hcourse
    cases he

theorem relocate_error (hcourse : (relocate settings h).Course c history (.error e) t) :
    (h.snapshot = none ∧ e = .invalidArgument .handleNeverResolved) ∨
      ∃ (s : SnapshotRef) (p : ProviderError), h.snapshot = some s ∧
        Refused s.tree.root.ref p t history ∧ e = p.toError s.tree.root.ref := by
  rw [relocate] at hcourse
  split at hcourse
  · next hnone =>
    obtain ⟨-, rfl, -⟩ := Operation.course_fail_error_iff.mp hcourse
    exact .inl ⟨hnone, rfl⟩
  · next old hold =>
    obtain ⟨e', he, hcapture⟩ | ⟨first, second, fresh, t', -, -, hrest⟩ := hcourse.of_bind
    · obtain rfl := Except.error.inj he
      obtain ⟨p, hrefused, he⟩ := capture_error hcapture
      exact .inr ⟨old, p, hold, hrefused, he⟩
    · split at hrest
      · exact absurd hrest Operation.not_course_pure_error
      · rw [Operation.course_update_bind_iff] at hrest
        exact absurd hrest Operation.not_course_pure_error

/-- The courses of bringing a handle up to date: what becomes of the handle, and what went wrong. -/
inductive Refreshing (settings : Settings) (h : Handle) (recency : Recency) (c : ElementCache) :
    List (Exchange ElementCache) → Handle → Outcome Unit → ElementCache → Prop where
  /-- A stale handle is refused. -/
  | refused (hh : h.state = .stale) :
    Refreshing settings h recency c [] h (.error h.staleError) c
  /-- An ephemeral handle is fresh enough. -/
  | fresh {now : Nat} {asked : ElementCache} (hh : h.state ≠ .stale) (hi : h.identity = none) :
    Refreshing settings h recency c [⟨.time, c, now, asked⟩] h (.ok ()) asked
  /-- The element of an ephemeral handle is found again. -/
  | found {now : Nat} {asked t : ElementCache} {history : List (Exchange ElementCache)}
      {relocated : Handle} (hh : h.state ≠ .stale) (hi : h.identity = none)
      (hrelocate : (relocate settings h).Course asked history (.ok (some relocated)) t) :
    Refreshing settings h recency c (⟨.time, c, now, asked⟩ :: history) relocated (.ok ()) t
  /-- The element of an ephemeral handle is not found again. -/
  | lost {now : Nat} {asked t : ElementCache} {history : List (Exchange ElementCache)}
      (hh : h.state ≠ .stale) (hi : h.identity = none)
      (hrelocate : (relocate settings h).Course asked history (.ok none) t) :
    Refreshing settings h recency c (⟨.time, c, now, asked⟩ :: history) h.gone
      (.error h.staleError) t
  /-- The element of an ephemeral handle cannot be looked for. -/
  | unreached {now : Nat} {asked t : ElementCache} {history : List (Exchange ElementCache)}
      {e : Error} (hh : h.state ≠ .stale) (hi : h.identity = none)
      (hrelocate : (relocate settings h).Course asked history (.error e) t) :
    Refreshing settings h recency c (⟨.time, c, now, asked⟩ :: history) h (.error e) t
  /-- A stable handle takes over what its identity is resolved to. -/
  | adopted {i : Identity} {t : ElementCache} {history : List (Exchange ElementCache)}
      {resolved adopted : Handle} (hh : h.state ≠ .stale) (hi : h.identity = some i)
      (hresolve : (resolve settings i recency).Course c history (.ok resolved) t)
      (hadopted : h.adopted resolved = .ok adopted) :
    Refreshing settings h recency c history adopted (.ok ()) t
  /-- What the identity of a stable handle is resolved to does not fit. -/
  | declined {i : Identity} {t : ElementCache} {history : List (Exchange ElementCache)}
      {resolved : Handle} {e : Error} (hh : h.state ≠ .stale) (hi : h.identity = some i)
      (hresolve : (resolve settings i recency).Course c history (.ok resolved) t)
      (hadopted : h.adopted resolved = .error e) :
    Refreshing settings h recency c history h (.error e) t
  /-- The element of a stable handle is gone. -/
  | gone {i j : Identity} {t : ElementCache} {history : List (Exchange ElementCache)}
      (hh : h.state ≠ .stale) (hi : h.identity = some i)
      (hresolve : (resolve settings i recency).Course c history (.error (.stale j)) t) :
    Refreshing settings h recency c history h.gone (.error (.stale j)) t
  /-- The identity of a stable handle is not resolved for another reason. -/
  | failed {i : Identity} {t : ElementCache} {history : List (Exchange ElementCache)} {e : Error}
      (hh : h.state ≠ .stale) (hi : h.identity = some i) (hne : ∀ j, e ≠ .stale j)
      (hresolve : (resolve settings i recency).Course c history (.error e) t) :
    Refreshing settings h recency c history h (.error e) t

/-- Bringing a handle up to date always yields a handle, by one of the courses that are listed. -/
theorem refreshing_of_course {recency : Recency} {r : Outcome (Handle × Outcome Unit)}
    (hcourse : (refresh settings h recency).Course c history r t) :
    ∃ h' outcome, r = .ok (h', outcome) ∧ Refreshing settings h recency c history h' outcome t := by
  rw [refresh] at hcourse
  split at hcourse
  · next hstale =>
    obtain ⟨rfl, rfl, rfl⟩ := Operation.course_pure_iff.mp hcourse
    exact ⟨_, _, rfl, .refused hstale⟩
  · next hh =>
    split at hcourse
    · next hi =>
      obtain ⟨now, asked, rest, rfl, hfresh⟩ := Operation.course_ask_bind_iff.mp hcourse
      split at hfresh
      · obtain ⟨rfl, rfl, rfl⟩ := Operation.course_pure_iff.mp hfresh
        exact ⟨_, _, rfl, .fresh hh hi⟩
      · obtain ⟨first, second, r', t', rfl, hrelocate, hrest⟩ :=
          Operation.course_attempt_bind_iff.mp hfresh
        split at hrest
        all_goals
          obtain ⟨rfl, rfl, rfl⟩ := Operation.course_pure_iff.mp hrest
          rw [List.append_nil]
        · exact ⟨_, _, rfl, .found hh hi hrelocate⟩
        · exact ⟨_, _, rfl, .lost hh hi hrelocate⟩
        · exact ⟨_, _, rfl, .unreached hh hi hrelocate⟩
    · next i hi =>
      obtain ⟨first, second, r', t', rfl, hresolve, hrest⟩ :=
        Operation.course_attempt_bind_iff.mp hcourse
      split at hrest
      · split at hrest
        · next hadopted =>
          obtain ⟨rfl, rfl, rfl⟩ := Operation.course_pure_iff.mp hrest
          rw [List.append_nil]
          exact ⟨_, _, rfl, .adopted hh hi hresolve hadopted⟩
        · next hadopted =>
          obtain ⟨rfl, rfl, rfl⟩ := Operation.course_pure_iff.mp hrest
          rw [List.append_nil]
          exact ⟨_, _, rfl, .declined hh hi hresolve hadopted⟩
      · obtain ⟨rfl, rfl, rfl⟩ := Operation.course_pure_iff.mp hrest
        rw [List.append_nil]
        exact ⟨_, _, rfl, .gone hh hi hresolve⟩
      · next hne =>
        obtain ⟨rfl, rfl, rfl⟩ := Operation.course_pure_iff.mp hrest
        rw [List.append_nil]
        exact ⟨_, _, rfl, .failed hh hi hne hresolve⟩

/-- How bringing a handle up to date can go wrong: the error, and what becomes of the handle. The
first four are about a stable handle, the others about an ephemeral one. -/
inductive RefreshFailure (h : Handle) (history : List (Exchange ElementCache)) (t : ElementCache) :
    Error → Handle → Prop where
  | notCached {i : Identity} (hi : h.identity = some i) :
      RefreshFailure h history t (.notCached i) h
  | gone {i : Identity} (hi : h.identity = some i) (hgone : Vanished false i history t) :
      RefreshFailure h history t (.stale i) h.gone
  | refused {i : Identity} {p : ProviderError} (hi : h.identity = some i)
      (hne : ∀ j, p.toError i.ref ≠ .stale j) : RefreshFailure h history t (p.toError i.ref) h
  | ofAnother {i : Identity} (hi : h.identity = some i) :
      RefreshFailure h history t (.invalidArgument .handleOfAnother) h
  | neverResolved (hi : h.identity = none) :
      RefreshFailure h history t (.invalidArgument .handleNeverResolved) h
  | rootRefused {s : SnapshotRef} {p : ProviderError} (hi : h.identity = none)
      (hs : h.snapshot = some s) (hrefused : Refused s.tree.root.ref p t history) :
      RefreshFailure h history t (p.toError s.tree.root.ref) h
  | matchesNothing (hi : h.identity = none) :
      RefreshFailure h history t (.invalidArgument .handleMatchesNothing) h.gone

/-- A handle that is not stale fails to take over only the snapshot of another identity. -/
theorem adopted_error {resolved : Handle} (hh : h.state ≠ .stale)
    (he : h.adopted resolved = .error e) : e = .invalidArgument .handleOfAnother := by
  rw [Handle.adopted] at he
  split at he
  · split at he
    · rw [Handle.refreshed, if_neg hh] at he
      cases he
    · exact (Except.error.inj he).symm
  · exact (Except.error.inj he).symm

/-- A handle results, together with what went wrong. -/
def Yields (r : Outcome (Handle × Outcome Unit)) (P : Error → Handle → Prop) : Prop :=
  ∃ h' outcome, r = .ok (h', outcome) ∧ ∀ e, outcome = .error e → P e h'

namespace Yields

variable {P : Error → Handle → Prop}

theorem ok (h : Handle) : Yields (.ok (h, .ok ())) P :=
  ⟨h, .ok (), rfl, fun e he => by cases he⟩

theorem error (hP : P e h) : Yields (.ok (h, .error e)) P := by
  refine ⟨h, .error e, rfl, ?_⟩
  intro e' he
  obtain rfl := Except.error.inj he
  exact hP

end Yields

/-- Bringing a handle up to date always yields a handle, and goes wrong in the ways listed. -/
theorem refresh_failure {recency : Recency} {r : Outcome (Handle × Outcome Unit)}
    (hc : c.Holds fun _ h => h.state = .resolved) (hh : h.state ≠ .stale)
    (hcourse : (refresh settings h recency).Course c history r t) :
    Yields r (RefreshFailure h history t) := by
  obtain ⟨h', outcome, rfl, hrefreshing⟩ := refreshing_of_course hcourse
  cases hrefreshing with
  | refused hstale => exact absurd hstale hh
  | fresh => exact .ok h
  | found => exact .ok h'
  | lost _ hi =>
      rw [Handle.staleError, hi]
      exact .error (.matchesNothing hi)
  | unreached _ hi hrelocate =>
      obtain ⟨-, rfl⟩ | ⟨s, p, hs, hrefused, rfl⟩ := relocate_error hrelocate
      · exact .error (.neverResolved hi)
      · exact .error (.rootRefused hi hs (hrefused.prepend [_]))
  | adopted => exact .ok h'
  | declined _ hi _ hadopted =>
      obtain rfl := adopted_error hh hadopted
      exact .error (.ofAnother hi)
  | gone _ hi hresolve =>
      obtain ⟨rfl, hgone⟩ := resolve_stale hc hresolve
      exact .error (.gone hi hgone)
  | failed _ hi hne hresolve =>
      obtain ⟨-, -, rfl⟩ | ⟨p, found, -, rfl, -⟩ := resolve_error hc hresolve
      · exact .error (.notCached hi)
      · exact .error (.refused hi hne)

end Session

end UiTree
