import UiTree.Proofs.Session.Activity
import UiTree.Proofs.Session.Failures

/-!
# Elements that have left the tree

When the provider reports that an element is gone, its entry is evicted and its handle becomes
stale. This is so of every element that is captured because it is cached. The root of a tree that is
captured for another reason, the root of the frontmost application or of the tree that an ephemeral
handle was captured in, is reported gone as well, but keeps its entry, and the handle stays as it
is.

## Implementation notes

What a command does between its questions is the same wherever it runs, so a command is followed
along its own course, and only the caches it finds with the answers are asked to be reachable.
-/

namespace UiTree

namespace Command

/-- The error of a command that goes wrong. Bringing a handle up to date yields it beside the
handle. -/
def failure : (k : Command) → Outcome k.Result → Option Error
  | refresh .., .ok (_, .error e) => some e
  | _, .error e => some e
  | _, .ok _ => none

/-- Whether a command captures a tree from its root on, be the root cached or not. -/
def capturesRoot : Command → Bool
  | find _ _ scope | findFirst _ _ scope | pageSource _ scope _ => scope.isNone
  | refresh _ h _ => h.identity.isNone
  | relocate .. => true
  | _ => false

variable {k : Command} {c t : ElementCache} {history : List (Exchange ElementCache)} {i : Identity}

/-- A command that fails because an element is gone ends on the answer that reports it, and evicts
the element unless it captures a tree from its root on. -/
theorem perform_stale (hc : c.Holds fun _ h => h.state = .resolved)
    (hk : ∀ settings h recency, k = .refresh settings h recency → h.state ≠ .stale)
    (hcourse : k.perform.Course c history (.error (.stale i)) t) :
    Vanished k.capturesRoot i history t := by
  cases k with
  | store | evictStale | reset =>
      rw [perform] at hcourse
      exact absurd hcourse Operation.not_course_update_error
  | resolve j recency q =>
      obtain ⟨rfl, hgone⟩ := ElementCache.resolve_stale hc hcourse
      exact hgone
  | resolveText settings text recency => exact Session.resolveText_stale hc hcourse
  | find settings l scope => exact Session.find_stale hcourse
  | findFirst settings l scope => exact Session.findFirst_stale hcourse
  | pageSource settings scope options => exact Session.pageSource_stale hcourse
  | refresh settings h recency =>
      obtain ⟨h', outcome, hr, -⟩ := Session.refresh_failure hc (hk settings h recency rfl) hcourse
      cases hr
  | relocate settings h =>
      obtain ⟨-, he⟩ | ⟨s, p, -, hrefused, hstale⟩ := Session.relocate_error hcourse
      · cases he
      · exact ⟨t, hrefused.reportedGone hstale.symm, rfl⟩
  | waitUntilStable settings j timeout => exact Session.waitUntilStable_stale hcourse

end Command

namespace ElementCache

variable {c t : ElementCache} {history : List (Exchange ElementCache)} {i j : Identity}

/-- The provider refuses a capture. -/
def refusal (q : CaptureRequest) (target : NodeRef) (p : ProviderError) (c t : ElementCache) :
    Exchange ElementCache :=
  ⟨.capture target q.attributes.provided q.maxDepth q.timeout, c, .error p, t⟩

theorem course_capture_refused (q : CaptureRequest) (target : NodeRef) (p : ProviderError)
    (c t : ElementCache) :
    (capture q target).Course c [refusal q target p c t] (.error (p.toError target)) t := by
  rw [capture]
  exact Operation.course_ask_bind_iff.mpr
    ⟨_, _, _, rfl, Operation.course_fail_iff.mpr ⟨rfl, rfl, rfl⟩⟩

theorem course_evictingStale {α : Type} {m : CacheOperation α}
    (hm : m.Course c history (.error (.stale j)) t) :
    (evictingStale i m).Course c history (.error (.stale j)) (t.evictStale i) := by
  rw [evictingStale]
  refine Operation.course_attempt_bind_iff.mpr
    ⟨history, [], _, t, (List.append_nil history).symm, hm, ?_⟩
  exact Operation.course_fail_iff.mpr ⟨rfl, rfl, rfl⟩

end ElementCache

/-- No snapshot is as fresh as a new one. -/
theorem Handle.isFresh_current (h : Handle) (now : Nat) :
    h.isFresh Recency.current.accepts now = false := by
  rw [isFresh]
  cases h.snapshot <;> rfl

/-- Whether an error says that an element is gone: by its identity, or because nothing matches it
any more. -/
def Error.isGone : Error → Bool
  | .stale _ | .invalidArgument .handleMatchesNothing => true
  | _ => false

theorem ProviderError.isGone_toError {p : ProviderError} {target : NodeRef}
    (hne : ∀ i, p.toError target ≠ .stale i) : (p.toError target).isGone = false := by
  cases p with
  | timeout budget => rfl
  | failed reason => rfl
  | notFound =>
      cases htarget : target.identity? with
      | none => simp [toError, htarget, Error.isGone]
      | some i => exact absurd (toError_eq_stale_iff.mpr ⟨rfl, htarget⟩) (hne i)

namespace Session

variable {settings : Settings} {h h' : Handle} {c t : ElementCache}
  {history : List (Exchange ElementCache)} {i : Identity}

/-- Bringing a stable handle up to date evicts an element that is gone, but a root that is gone
keeps its entry. -/
theorem RefreshFailure.stale {e : Error} (hfailed : RefreshFailure h history t e h')
    (he : e = .stale i) : Vanished h.identity.isNone i history t := by
  cases hfailed with
  | gone hi hgone =>
      obtain rfl := Error.stale.inj he
      rw [hi]
      exact hgone
  | refused _ hne => exact absurd he (hne i)
  | rootRefused hi _ hrefused =>
      rw [hi]
      exact ⟨t, hrefused.reportedGone he, rfl⟩
  | notCached | ofAnother | neverResolved | matchesNothing => cases he

/-- A handle is marked if and only if the error says that its own element is gone. -/
theorem RefreshFailure.marks {e : Error} (hfailed : RefreshFailure h history t e h')
    (hown : h.identity = none → ∀ i, e ≠ .stale i) : h' = if e.isGone then h.gone else h := by
  cases hfailed with
  | refused _ hne => rw [ProviderError.isGone_toError hne]; rfl
  | rootRefused hi => rw [ProviderError.isGone_toError (hown hi)]; rfl
  | notCached | ofAnother | neverResolved => rfl
  | gone | matchesNothing => rfl

/-- An ephemeral handle is left as it is when the root of its tree is gone. -/
theorem RefreshFailure.spares (hfailed : RefreshFailure h history t (.stale i) h')
    (hi : h.identity = none) :
    h' = h ∧ ∃ s, h.snapshot = some s ∧ s.tree.root.ref.identity? = some i := by
  generalize he : Error.stale i = e at hfailed
  cases hfailed with
  | rootRefused _ hs => exact ⟨rfl, _, hs, (ProviderError.toError_eq_stale_iff.mp he.symm).2⟩
  | gone hsome => cases hi.symm.trans hsome
  | refused hsome => cases hi.symm.trans hsome
  | notCached | ofAnother | neverResolved | matchesNothing => cases he

end Session

namespace Activity

open ElementCache

variable {admits : Answering} {capacity : Nat} {a : Activity} {c : ElementCache} {i : Identity}
  {history : List (Exchange ElementCache)}

/-- The handles in the cache are never stale. -/
theorem lasting_resolved (admits : Answering) :
    Lasting admits fun _ h => h.state = .resolved where
  captured _ _ _ := rfl
  refreshed {i h h' q now raw} hh _ hrefreshed := by
    rw [Handle.refreshed_of_resolved hh] at hrefreshed
    obtain rfl := Except.ok.inj hrefreshed
    rfl

/-- A command that reports an element stale was told so by the provider, and evicts the element
unless the element was captured as the root of a tree. In that case the cache stays as the answer
found it. What other operations do to the cache during a call of the provider may be anything that
can come about. -/
theorem Reachable.stale_evicted (ha : Reachable admits capacity a) {k : Command}
    (hk : ∀ settings h recency, k = .refresh settings h recency → h.state ≠ .stale)
    {r : Outcome k.Result} (hcourse : k.perform.Course a.cache history r c)
    (hfound : ∀ x ∈ history, ∃ b, Reachable admits capacity b ∧ b.cache = x.found)
    (hr : k.failure r = some (.stale i)) :
    ∃ found, ReportedGone i found history ∧ (k.capturesRoot = false → c.has i = false) ∧
      (k.capturesRoot = true → c = found) := by
  have hc := (ha.orderly (lasting_resolved admits)).holds
  have hgone : Vanished k.capturesRoot i history c := by
    cases r with
    | error e =>
        obtain rfl : e = .stale i := by cases k <;> exact Option.some.inj hr
        exact k.perform_stale hc hk hcourse
    | ok result =>
        cases k with
        | refresh settings h recency =>
            obtain ⟨h', outcome, hresult, hfailed⟩ :=
              Session.refresh_failure hc (hk settings h recency rfl) hcourse
            obtain rfl := Except.ok.inj hresult
            cases outcome with
            | ok => cases hr
            | error e => exact (hfailed e rfl).stale (Option.some.inj hr)
        | _ => cases hr
  obtain ⟨found, hreported, hleft⟩ := hgone
  refine ⟨found, hreported, ?_, ?_⟩
  · intro hroot
    obtain ⟨target, -, hrefused⟩ := hreported
    obtain ⟨x, hx, rfl⟩ := hrefused.exists_mem
    obtain ⟨b, hb, hcache⟩ := hfound x hx
    have hsound := (hb.orderly (lasting_resolved admits)).holds.sound
    rw [hleft, hroot, ← hcache]
    exact hsound.has_evictStale i
  · intro hroot
    rw [hleft, hroot]
    rfl

/-- The page source of a cached element that is gone: the element is evicted. -/
theorem Reachable.stale_evicted_scope :
    let i : Identity := ⟨100, 1⟩
    let k : Command := .pageSource {} (some i) {}
    let q := Settings.captureRequest {} .all
    ∃ c : ElementCache, Reachable (fun _ _ => True) 1 { cache := c } ∧ c.has i = true ∧
      k.perform.Course c [refusal q i.ref .notFound c c] (.error (.stale i)) (c.evictStale i) ∧
        (c.evictStale i).has i = false := by
  intro i k q
  obtain ⟨c, hc, -, hhas⟩ := exists_reachable_has (fun _ _ => True) (i := i) (by decide)
  have hscope : (Session.captureScope {} (some i) .all).Course c [refusal q i.ref .notFound c c]
      (.error (.stale i)) (c.evictStale i) := by
    rw [Session.captureScope, Operation.course_read_bind_iff, if_pos hhas]
    exact course_evictingStale (course_capture_refused q i.ref .notFound c c)
  have hcourse : k.perform.Course c [refusal q i.ref .notFound c c] (.error (.stale i))
      (c.evictStale i) := .bind_error hscope
  obtain ⟨-, -, hevicted, -⟩ := hc.stale_evicted (fun _ _ _ => Command.noConfusion) hcourse
    (fun x hx => ⟨_, hc, by rw [List.mem_singleton.mp hx]; rfl⟩) rfl
  exact ⟨c, hc, hhas, hcourse, hevicted rfl⟩

/-- The page source of the frontmost application, whose root is cached and turns out to be gone: the
root stays in the cache. -/
theorem pageSource_keeps_root :
    let i : Identity := ⟨100, 1⟩
    let k : Command := .pageSource {} none {}
    let q := Settings.captureRequest {} .all
    ∃ c : ElementCache, Reachable (fun _ _ => True) 1 { cache := c } ∧
      k.perform.Course c
        [⟨.activeRoots, c, .ok [.mk i.ref {} none], c⟩, refusal q i.ref .notFound c c]
        (.error (.stale i)) c ∧ c.has i = true := by
  intro i k q
  obtain ⟨c, hc, -, hhas⟩ := exists_reachable_has (fun _ _ => True) (i := i) (by decide)
  have hroot : Session.activeRoot.Course c [⟨.activeRoots, c, .ok [.mk i.ref {} none], c⟩]
      (.ok i.ref) c := by
    rw [Session.activeRoot]
    exact Operation.course_ask_bind_iff.mpr
      ⟨_, _, _, rfl, Operation.course_pure_iff.mpr ⟨rfl, rfl, rfl⟩⟩
  have hscope : (Session.captureScope {} none .all).Course c
      [⟨.activeRoots, c, .ok [.mk i.ref {} none], c⟩, refusal q i.ref .notFound c c]
      (.error (.stale i)) c := by
    rw [Session.captureScope]
    exact .bind hroot (course_capture_refused q i.ref .notFound c c)
  exact ⟨c, hc, .bind_error hscope, hhas⟩

variable {settings : Settings} {h : Handle} {recency : Recency}

/-- Bringing a handle up to date that goes wrong marks the handle as stale if its element is gone,
and otherwise leaves it as it is. It also leaves an ephemeral handle as it is when what is gone is
the root of the tree that the handle was captured in. -/
theorem Reachable.refresh_marks (ha : Reachable admits capacity a) (hh : h.state ≠ .stale)
    {r : Outcome (Handle × Outcome Unit)}
    (hcourse : (Session.refresh settings h recency).Course a.cache history r c) :
    ∃ h' outcome, r = .ok (h', outcome) ∧ ∀ e, outcome = .error e →
      ((h.identity = none → ∀ i, e ≠ .stale i) → h' = if e.isGone then h.gone else h) ∧
        ∀ i, h.identity = none → e = .stale i →
          h' = h ∧ ∃ s, h.snapshot = some s ∧ s.tree.root.ref.identity? = some i := by
  have hc := (ha.orderly (lasting_resolved admits)).holds
  obtain ⟨h', outcome, hr, hfailed⟩ := Session.refresh_failure hc hh hcourse
  refine ⟨h', outcome, hr, ?_⟩
  intro e he
  refine ⟨(hfailed e he).marks, ?_⟩
  rintro i hi rfl
  exact (hfailed _ he).spares hi

/-- The handle of a cached element that is gone becomes stale. -/
theorem Reachable.refresh_marks_cached :
    let i : Identity := ⟨100, 1⟩
    let h := Handle.captured (some i) (.bare i)
    ∃ (c t : ElementCache) (history : List (Exchange ElementCache)) (h' : Handle),
      Reachable (fun _ _ => True) 1 { cache := c } ∧ h.state ≠ .stale ∧
        (Session.refresh {} h .current).Course c history (.ok (h', .error (.stale i))) t ∧
          h' = h.gone := by
  intro i h
  obtain ⟨c, hc, hmem, -⟩ := exists_reachable_has (fun _ _ => True) (i := i) (by decide)
  have hsound := (hc.orderly (lasting_true _)).holds.sound
  obtain ⟨-, -, -, -, hused⟩ := use_of_mem hsound hmem
  let used := (c.use i).1
  let q := Settings.captureRequest {} .all
  have hresolve : (Session.resolve {} i .current).Course c
      [⟨.time, used, (0 : Nat), used⟩, refusal q i.ref .notFound used used] (.error (.stale i))
      (used.evictStale i) := by
    rw [Session.resolve, resolve, Operation.course_update_bind_iff, hused]
    refine Operation.course_ask_bind_iff.mpr ⟨_, _, _, rfl, ?_⟩
    rw [Handle.isFresh_current, if_neg Bool.false_ne_true]
    exact .bind_error (course_evictingStale (course_capture_refused q i.ref .notFound used used))
  have hcourse : (Session.refresh {} h .current).Course c
      ([⟨.time, used, (0 : Nat), used⟩, refusal q i.ref .notFound used used] ++ [])
      (.ok (h.gone, .error (.stale i))) (used.evictStale i) := by
    rw [Session.refresh, if_neg HandleState.noConfusion]
    exact Operation.course_attempt_bind_iff.mpr ⟨_, [], _, _, rfl, hresolve,
      Operation.course_pure_iff.mpr ⟨rfl, rfl, rfl⟩⟩
  obtain ⟨h', outcome, hr, hmarks⟩ := hc.refresh_marks HandleState.noConfusion hcourse
  obtain ⟨rfl, rfl⟩ := Prod.mk.inj (Except.ok.inj hr)
  have hstable : h.identity = none → ∀ j, Error.stale i ≠ .stale j := fun hi => by cases hi
  exact ⟨c, _, _, h.gone, hc, HandleState.noConfusion, hcourse, (hmarks _ rfl).1 hstable⟩

/-- A node without identity was captured below a root that is gone when the handle of the node is
brought up to date. The root is reported stale, but the handle is not. -/
theorem refresh_spares_ephemeral :
    let i : Identity := ⟨100, 1⟩
    let tree := CaptureRequest.snapshot {} 0 (.mk i.ref {} (some [.mk ⟨none, 3⟩ {} none]))
    ∃ (hposition : 1 < tree.size) (c : ElementCache) (history : List (Exchange ElementCache)),
      let h := Handle.captured none ⟨tree, 1, hposition⟩
      Reachable (fun _ _ => True) 1 { cache := c } ∧
        (Session.refresh {} h .current).Course c history (.ok (h, .error (.stale i))) c ∧
          h.state = .resolved := by
  intro i tree
  obtain ⟨c, hc, -, -⟩ := exists_reachable_has (fun _ _ => True) (i := i) (by decide)
  have hposition : 1 < tree.size := by decide +kernel
  let h := Handle.captured none ⟨tree, 1, hposition⟩
  let q : CaptureRequest :=
    ⟨tree.attributes ∪ .relocation, tree.maxDepth, Settings.axTimeout {}⟩
  have hrelocate : (Session.relocate {} h).Course c [refusal q i.ref .notFound c c]
      (.error (.stale i)) c := by
    rw [Session.relocate]
    exact .bind_error (course_capture_refused q i.ref .notFound c c)
  refine ⟨hposition, c, [⟨.time, c, (0 : Nat), c⟩, refusal q i.ref .notFound c c], hc, ?_, rfl⟩
  rw [Session.refresh, if_neg HandleState.noConfusion]
  refine Operation.course_ask_bind_iff.mpr ⟨_, _, _, rfl, ?_⟩
  rw [Handle.isFresh_current, if_neg Bool.false_ne_true]
  exact Operation.course_attempt_bind_iff.mpr ⟨_, [], _, _, (List.append_nil _).symm, hrelocate,
    Operation.course_pure_iff.mpr ⟨rfl, rfl, rfl⟩⟩

end Activity

end UiTree
