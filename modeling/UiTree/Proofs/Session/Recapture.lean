import UiTree.Proofs.Session.Staleness

/-!
# Capturing a cached element again

A handle that is not fresh enough is read from the cache, captured again and written back, and the
cache is open to everybody else between these steps. The new handle takes the place of the entry
that is found in the end, and no entry is made for it if there is none any more. So whatever others
did meanwhile is neither lost nor undone.

## Implementation notes

All courses of the operation are listed once. A course names the cache that is found with each
answer, so what others do meanwhile is a matter of which caches these may be.
-/

namespace UiTree

variable {i j : Identity} {h : Handle}

/-- A handle of an element with an identity, whatever its snapshot shows. -/
structure Handle.StandsFor (h : Handle) (i : Identity) : Prop where
  resolved : h.state = .resolved
  identity : h.identity = some i
  element_ne : i.element ≠ 0

namespace Handle

/-- Every cached handle stands for the identity that it is cached under, whatever the provider
answers. -/
theorem lasting_standsFor (admits : Answering) : Lasting admits fun i h => h.StandsFor i where
  captured _ _ hs := ⟨rfl, rfl, (Identity.identity?_eq_some_iff.mp hs).2⟩
  refreshed hh _ hrefreshed := by
    rw [refreshed_of_resolved hh.resolved] at hrefreshed
    obtain rfl := Except.ok.inj hrefreshed
    exact ⟨rfl, hh.identity, hh.element_ne⟩

theorem StandsFor.refreshed_eq (hh : h.StandsFor i) (s : SnapshotRef) :
    h.refreshed s = .ok (.captured (some i) s) := by
  rw [refreshed_of_resolved hh.resolved, hh.identity]
  rfl

/-- A target that is not there is reported by the identity that it was captured by. -/
theorem StandsFor.toError_notFound (hh : h.StandsFor i) :
    ProviderError.notFound.toError i.ref = .stale i := by
  have hidentity : i.ref.identity? = some i :=
    Identity.identity?_eq_some_iff.mpr ⟨rfl, hh.element_ne⟩
  rw [ProviderError.toError, hidentity]

end Handle

namespace ElementCache

variable {recency : Recency} {q : CaptureRequest} {c t : ElementCache}
  {history : List (Exchange ElementCache)} {r : Outcome Handle}

/-- The clock is asked and answers. -/
def clocked (handed : ElementCache) (now : Nat) (found : ElementCache) : Exchange ElementCache :=
  ⟨.time, handed, now, found⟩

/-- The provider answers a capture. -/
def granted (q : CaptureRequest) (target : NodeRef) (raw : RawNode) (handed found : ElementCache) :
    Exchange ElementCache :=
  ⟨.capture target q.attributes.provided q.maxDepth q.timeout, handed, .ok raw, found⟩

/-- The courses of resolving an identity from a cache on. -/
inductive Resolving (c : ElementCache) (i : Identity) (recency : Recency) (q : CaptureRequest) :
    List (Exchange ElementCache) → Outcome Handle → ElementCache → Prop where
  /-- The identity is not cached. -/
  | notCached (hi : c.has i = false) : Resolving c i recency q [] (.error (.notCached i)) c
  /-- The cached handle is fresh enough. -/
  | fresh {cached : Handle} {now : Nat} {found : ElementCache} (hmem : (i, cached) ∈ c.held)
      (hfresh : cached.isFresh recency.accepts now = true) :
      Resolving c i recency q [clocked (c.use i).1 now found] (.ok cached) found
  /-- The element is captured again, and its new handle is written over the old one. -/
  | captured {cached : Handle} {now time : Nat} {raw : RawNode} {asked between found : ElementCache}
      (hmem : (i, cached) ∈ c.held) (hfresh : cached.isFresh recency.accepts now = false) :
      Resolving c i recency q
        [clocked (c.use i).1 now asked, granted q i.ref raw asked between,
          clocked between time found]
        (.ok (.captured (some i) (.ofRoot (q.snapshot time raw))))
        (found.overwrite i (.captured (some i) (.ofRoot (q.snapshot time raw)))).1
  /-- The provider refuses. -/
  | refused {cached : Handle} {now : Nat} {p : ProviderError} {asked found : ElementCache}
      (hmem : (i, cached) ∈ c.held) (hfresh : cached.isFresh recency.accepts now = false) :
      Resolving c i recency q
        [clocked (c.use i).1 now asked, refusal q i.ref p asked found]
        (.error (p.toError i.ref)) (found.afterFailure i (p.toError i.ref))

theorem course_capture_iff {target : NodeRef} {r : Outcome Snapshot} :
    (capture q target).Course c history r t ↔
      (∃ raw between time, history = [granted q target raw c between, clocked between time t] ∧
        r = .ok (q.snapshot time raw)) ∨
      ∃ p : ProviderError, history = [refusal q target p c t] ∧
        r = .error (p.toError target) := by
  rw [capture, Operation.course_ask_bind_iff]
  constructor
  · rintro ⟨answer, between, rest, rfl, hrest⟩
    cases answer with
    | error p =>
        obtain ⟨rfl, rfl, rfl⟩ := Operation.course_fail_iff.mp hrest
        exact .inr ⟨p, rfl, rfl⟩
    | ok raw =>
        obtain ⟨time, found, rest', rfl, hpure⟩ := Operation.course_ask_bind_iff.mp hrest
        obtain ⟨rfl, rfl, rfl⟩ := Operation.course_pure_iff.mp hpure
        exact .inl ⟨raw, between, time, rfl, rfl⟩
  · rintro (⟨raw, between, time, rfl, rfl⟩ | ⟨p, rfl, rfl⟩)
    · refine ⟨.ok raw, between, _, rfl, ?_⟩
      exact Operation.course_ask_bind_iff.mpr
        ⟨time, t, [], rfl, Operation.course_pure_iff.mpr ⟨rfl, rfl, rfl⟩⟩
    · exact ⟨.error p, t, [], rfl, Operation.course_fail_iff.mpr ⟨rfl, rfl, rfl⟩⟩

theorem course_evictingStale_ok_iff {α : Type} {m : CacheOperation α} {a : α} :
    (evictingStale i m).Course c history (.ok a) t ↔ m.Course c history (.ok a) t := by
  rw [evictingStale, Operation.course_attempt_bind_iff]
  constructor
  · rintro ⟨first, second, r, u, rfl, hm, hrest⟩
    split at hrest
    · obtain ⟨rfl, hr, rfl⟩ := Operation.course_pure_iff.mp hrest
      obtain rfl := Except.ok.inj hr
      rwa [List.append_nil]
    · obtain ⟨-, hr, -⟩ := Operation.course_fail_iff.mp hrest
      cases hr
    · obtain ⟨-, hr, -⟩ := Operation.course_fail_iff.mp hrest
      cases hr
  · intro hm
    exact ⟨history, [], .ok a, t, (List.append_nil _).symm, hm,
      Operation.course_pure_iff.mpr ⟨rfl, rfl, rfl⟩⟩

theorem course_evictingStale_error_iff {α : Type} {m : CacheOperation α} {e : Error} :
    (evictingStale i m).Course c history (.error e) t ↔
      ∃ found, m.Course c history (.error e) found ∧ t = found.afterFailure i e := by
  constructor
  · exact evictingStale_error
  · rintro ⟨found, hm, rfl⟩
    rw [evictingStale, Operation.course_attempt_bind_iff]
    refine ⟨history, [], .error e, found, (List.append_nil _).symm, hm, ?_⟩
    cases e <;> exact Operation.course_fail_iff.mpr ⟨rfl, rfl, rfl⟩

/-- Only an element that is gone is evicted. -/
theorem afterFailure_toError {p : ProviderError} (hp : p ≠ .notFound) (target : NodeRef) :
    c.afterFailure i (p.toError target) = c := by
  cases p with
  | notFound => exact absurd rfl hp
  | timeout | failed => rfl

/-- What was stored last comes first. -/
theorem Stored.exists_held {c' : ElementCache} (hstored : Stored c i h c') :
    ∃ others, c'.held = (i, h) :: others := by
  cases hstored with
  | replaced _ hheld => exact ⟨_, hheld⟩
  | added _ hheld => exact ⟨_, hheld⟩
  | displaced _ _ kept _ _ _ hheld => exact ⟨kept, hheld⟩

theorem Sound.has_of_mem (hc : c.Sound) (hmem : (i, h) ∈ c.held) : c.has i = true :=
  hc.has_iff.mpr (mem_identities_iff.mpr ⟨h, hmem⟩)

theorem Sound.eq_of_mem (hc : c.Sound) {h' : Handle} (hmem : (i, h) ∈ c.held)
    (hmem' : (i, h') ∈ c.held) : h = h' := by
  obtain ⟨-, -, -, -, hused⟩ := use_of_mem hc hmem
  obtain ⟨-, -, -, -, hused'⟩ := use_of_mem hc hmem'
  exact Option.some.inj (hused.symm.trans hused')

/-- A handle that is captured again is written back, unless the provider refuses. -/
theorem course_recapture_iff {cached : Handle} (hcached : cached.StandsFor i) :
    (do
      let s ← evictingStale i (capture q i.ref)
      let handle ← Operation.ofOutcome (cached.refreshed (.ofRoot s))
      Operation.update (·.overwrite i handle)
      return handle : CacheOperation Handle).Course c history r t ↔
      (∃ raw between time found,
        history = [granted q i.ref raw c between, clocked between time found] ∧
          r = .ok (.captured (some i) (.ofRoot (q.snapshot time raw))) ∧
            t = (found.overwrite i (.captured (some i) (.ofRoot (q.snapshot time raw)))).1) ∨
      ∃ (p : ProviderError) (found : ElementCache), history = [refusal q i.ref p c found] ∧
        r = .error (p.toError i.ref) ∧ t = found.afterFailure i (p.toError i.ref) := by
  constructor
  · intro hcourse
    obtain ⟨e, rfl, hfailed⟩ | ⟨first, second, s, found, rfl, hcapture, hwrite⟩ := hcourse.of_bind
    · obtain ⟨found, hcapture, rfl⟩ := course_evictingStale_error_iff.mp hfailed
      obtain ⟨raw, between, time, rfl, hr⟩ | ⟨p, rfl, hr⟩ := course_capture_iff.mp hcapture
      · cases hr
      · obtain rfl := Except.error.inj hr
        exact .inr ⟨p, found, rfl, rfl, rfl⟩
    · obtain ⟨raw, between, time, rfl, hr⟩ | ⟨p, rfl, hr⟩ :=
        course_capture_iff.mp (course_evictingStale_ok_iff.mp hcapture)
      · obtain rfl := Except.ok.inj hr
        rw [hcached.refreshed_eq] at hwrite
        obtain ⟨rfl, rfl, rfl⟩ := Operation.course_pure_iff.mp hwrite
        exact .inl ⟨raw, between, time, found, rfl, rfl, rfl⟩
      · cases hr
  · rintro (⟨raw, between, time, found, rfl, rfl, rfl⟩ | ⟨p, found, rfl, rfl, rfl⟩)
    · have hcapture : (evictingStale i (capture q i.ref)).Course c
          [granted q i.ref raw c between, clocked between time found]
          (.ok (q.snapshot time raw)) found :=
        course_evictingStale_ok_iff.mpr (course_capture_iff.mpr
          (.inl ⟨raw, between, time, rfl, rfl⟩))
      rw [← List.append_nil [granted q i.ref raw c between, clocked between time found]]
      refine .bind hcapture ?_
      rw [hcached.refreshed_eq]
      exact Operation.course_pure_iff.mpr ⟨rfl, rfl, rfl⟩
    · have hcapture : (capture q i.ref).Course c [refusal q i.ref p c found]
          (.error (p.toError i.ref)) found :=
        course_capture_iff.mpr (.inr ⟨p, rfl, rfl⟩)
      exact .bind_error (course_evictingStale_error_iff.mpr ⟨found, hcapture, rfl⟩)

/-- The courses of resolving are those that are listed. -/
theorem course_resolve_iff (hc : c.Holds fun i h => h.StandsFor i) :
    (resolve i recency q).Course c history r t ↔ Resolving c i recency q history r t := by
  rw [resolve, Operation.course_update_bind_iff]
  cases hi : c.has i with
  | false =>
      rw [use_of_not_has hi]
      constructor
      · intro hcourse
        obtain ⟨rfl, rfl, rfl⟩ := Operation.course_fail_iff.mp hcourse
        exact .notCached hi
      · intro hresolving
        cases hresolving with
        | notCached => exact Operation.course_fail_iff.mpr ⟨rfl, rfl, rfl⟩
        | fresh hmem | captured hmem | refused hmem =>
            exact absurd (hc.sound.has_of_mem hmem) (Bool.eq_false_iff.mp hi)
  | true =>
      obtain ⟨cached, hmem⟩ := hc.sound.exists_mem_of_has hi
      have hcached : cached.StandsFor i := hc.entries _ hmem
      obtain ⟨-, -, -, -, hused⟩ := use_of_mem hc.sound hmem
      rw [hused]
      constructor
      · intro hcourse
        obtain ⟨now, asked, rest, rfl, hrest⟩ := Operation.course_ask_bind_iff.mp hcourse
        cases hfresh : cached.isFresh recency.accepts now with
        | true =>
            rw [if_pos hfresh] at hrest
            obtain ⟨rfl, rfl, rfl⟩ := Operation.course_pure_iff.mp hrest
            exact .fresh hmem hfresh
        | false =>
            rw [if_neg (Bool.eq_false_iff.mp hfresh), course_recapture_iff hcached] at hrest
            obtain ⟨raw, between, time, found, rfl, rfl, rfl⟩ | ⟨p, found, rfl, rfl, rfl⟩ := hrest
            · exact .captured hmem hfresh
            · exact .refused hmem hfresh
      · intro hresolving
        refine Operation.course_ask_bind_iff.mpr ?_
        cases hresolving with
        | notCached hnot => exact absurd hi (Bool.eq_false_iff.mp hnot)
        | fresh hmem' hfresh =>
            obtain rfl := hc.sound.eq_of_mem hmem hmem'
            refine ⟨_, t, [], rfl, ?_⟩
            rw [if_pos hfresh]
            exact Operation.course_pure_iff.mpr ⟨rfl, rfl, rfl⟩
        | @captured _ now time raw asked between found hmem' hfresh =>
            obtain rfl := hc.sound.eq_of_mem hmem hmem'
            refine ⟨now, asked, _, rfl, ?_⟩
            rw [if_neg (Bool.eq_false_iff.mp hfresh), course_recapture_iff hcached]
            exact .inl ⟨raw, between, time, found, rfl, rfl, rfl⟩
        | @refused _ now p asked found hmem' hfresh =>
            obtain rfl := hc.sound.eq_of_mem hmem hmem'
            refine ⟨now, asked, _, rfl, ?_⟩
            rw [if_neg (Bool.eq_false_iff.mp hfresh), course_recapture_iff hcached]
            exact .inr ⟨p, found, rfl, rfl, rfl⟩

/-- What is resolved has the identity, and a snapshot. -/
theorem resolve_ok (hc : c.Holds fun i h => h.StandsFor i)
    (hcourse : (resolve i recency q).Course c history (.ok h) t) :
    h.identity = some i ∧ h.snapshot.isSome = true := by
  generalize hr : (Except.ok h : Outcome Handle) = r at hcourse
  cases (course_resolve_iff hc).mp hcourse with
  | notCached | refused => cases hr
  | captured =>
      obtain rfl := Except.ok.inj hr
      exact ⟨rfl, rfl⟩
  | fresh hmem hfresh =>
      obtain rfl := Except.ok.inj hr
      exact ⟨(hc.entries _ hmem).identity, Option.isSome_of_any hfresh⟩

section

variable {cached : Handle} {now time : Nat} {raw : RawNode} {p : ProviderError}
  {asked between found : ElementCache}

/-- What comes of a capture that succeeds. -/
theorem course_resolve_captured_iff (hc : c.Holds fun i h => h.StandsFor i)
    (hmem : (i, cached) ∈ c.held) (hfresh : cached.isFresh recency.accepts now = false) :
    (resolve i recency q).Course c
        [clocked (c.use i).1 now asked, granted q i.ref raw asked between,
          clocked between time found] r t ↔
      r = .ok (.captured (some i) (.ofRoot (q.snapshot time raw))) ∧
        t = (found.overwrite i (.captured (some i) (.ofRoot (q.snapshot time raw)))).1 := by
  rw [course_resolve_iff hc]
  constructor
  · rintro ⟨⟩
    exact ⟨rfl, rfl⟩
  · rintro ⟨rfl, rfl⟩
    exact .captured hmem hfresh

/-- What comes of a capture that is refused. -/
theorem course_resolve_refused_iff (hc : c.Holds fun i h => h.StandsFor i)
    (hmem : (i, cached) ∈ c.held) (hfresh : cached.isFresh recency.accepts now = false) :
    (resolve i recency q).Course c
        [clocked (c.use i).1 now asked, refusal q i.ref p asked found] r t ↔
      r = .error (p.toError i.ref) ∧ t = found.afterFailure i (p.toError i.ref) := by
  rw [course_resolve_iff hc]
  constructor
  · rintro ⟨⟩
    exact ⟨rfl, rfl⟩
  · rintro ⟨rfl, rfl⟩
    exact .refused hmem hfresh

end

/-- A course adds no identity to the cache: neither to the cache that it begins with nor to any that
it finds with an answer. -/
def AddsNone : ElementCache → List (Exchange ElementCache) → ElementCache → Prop
  | c, [], t => t.identities ⊆ c.identities
  | c, x :: rest, t => x.handed.identities ⊆ c.identities ∧ AddsNone x.found rest t

theorem Sound.identities_use (hc : c.Sound) (i : Identity) :
    (c.use i).1.identities = c.identities := by
  cases hi : c.has i with
  | false => rw [use_of_not_has hi]
  | true =>
      obtain ⟨h, hmem⟩ := hc.exists_mem_of_has hi
      obtain ⟨-, -, -, hheld, -⟩ := use_of_mem hc hmem
      rw [hc.identities_of_cons_without hheld, Finset.insert_eq_of_mem (hc.has_iff.mp hi)]

theorem Sound.identities_overwrite (hc : c.Sound) (i : Identity) (h : Handle) :
    (c.overwrite i h).1.identities = c.identities := by
  cases hi : c.has i with
  | false => rw [overwrite_of_not_has hi]
  | true =>
      obtain ⟨old, hmem⟩ := hc.exists_mem_of_has hi
      obtain ⟨-, -, -, hheld⟩ := overwrite_of_mem hc hmem h
      rw [hc.identities_of_cons_without hheld, Finset.insert_eq_of_mem (hc.has_iff.mp hi)]

theorem Sound.held_evictStale (hc : c.Sound) (i : Identity) :
    (c.evictStale i).held = UseOrder.without c.held i := by
  cases hi : c.has i with
  | false =>
      have hall : ∀ e ∈ c.held, (e.1 == i) = false := by
        intro e he
        rw [beq_eq_false_iff_ne]
        rintro rfl
        exact Bool.eq_false_iff.mp hi (hc.has_of_mem (h := e.2) he)
      rw [evictStale_of_not_has hi, UseOrder.without_eq_self hall]
  | true =>
      obtain ⟨h, hmem⟩ := hc.exists_mem_of_has hi
      exact (evictStale_of_mem hc hmem).2.2.2

theorem Sound.identities_afterFailure_subset (hc : c.Sound) (i : Identity) (e : Error) :
    (c.afterFailure i e).identities ⊆ c.identities := by
  cases e with
  | stale j =>
      intro k hk
      obtain ⟨h, hmem⟩ := mem_identities_iff.mp hk
      rw [afterFailure, hc.held_evictStale, hc.mem_without_iff] at hmem
      exact mem_identities_iff.mpr ⟨h, hmem.1⟩
  | _ => exact subset_rfl

/-- Resolving never adds an identity, whatever is found with the answers. -/
theorem Resolving.addsNone (hcourse : Resolving c i recency q history r t) (hc : c.Sound)
    (hfound : ∀ x ∈ history, x.found.Sound) : AddsNone c history t := by
  have huse : (c.use i).1.identities ⊆ c.identities := (hc.identities_use i).subset
  cases hcourse with
  | notCached => exact subset_rfl
  | fresh => exact ⟨huse, subset_rfl⟩
  | @captured _ now time raw asked between found =>
      have hlast : found.Sound := hfound (clocked between time found) (by simp)
      exact ⟨huse, subset_rfl, subset_rfl, (hlast.identities_overwrite i _).subset⟩
  | @refused _ now p asked found =>
      have hlast : found.Sound := hfound (refusal q i.ref p asked found) (by simp)
      exact ⟨huse, subset_rfl, hlast.identities_afterFailure_subset i _⟩

end ElementCache

namespace Activity

open ElementCache

variable {admits : Answering} {capacity : Nat} {a b : Activity}

/-- A cached handle that is not fresh enough is captured again, and others may do anything to the
cache during the call. If the capture succeeds, the new handle is returned; it takes the place of
the entry in the cache that is found in the end and comes to its front, and if there is no such
entry, that cache is left as it is. If the element is gone, the cache loses its entry, and on any
other error it is left as it is. Resolving never adds an identity. -/
theorem Reachable.resolve_recaptures (ha : Reachable admits capacity a) {cached : Handle}
    (hmem : (i, cached) ∈ a.cache.entries.toList) (hb : Reachable admits capacity b) :
    (∀ recency q now asked, cached.isFresh recency.accepts now = false →
      let begun := clocked (a.cache.use i).1 now asked
      (∀ raw between time,
        let h := Handle.captured (some i) (.ofRoot (q.snapshot time raw))
        ∃ c, (∀ r t, (resolve i recency q).Course a.cache
            [begun, granted q i.ref raw asked between, clocked between time b.cache] r t ↔
              r = .ok h ∧ t = c) ∧
          (b.cache.has i = true → c.feed = b.cache.feed ∧
            c.entries.toList = (i, h) :: UseOrder.without b.cache.entries.toList i) ∧
          (b.cache.has i = false → c = b.cache)) ∧
      (∃ c, (∀ r t, (resolve i recency q).Course a.cache
          [begun, refusal q i.ref .notFound asked b.cache] r t ↔
            r = .error (.stale i) ∧ t = c) ∧
        c.entries.toList = UseOrder.without b.cache.entries.toList i) ∧
      ∀ p ≠ ProviderError.notFound, ∀ r t, (resolve i recency q).Course a.cache
        [begun, refusal q i.ref p asked b.cache] r t ↔
          r = .error (p.toError i.ref) ∧ t = b.cache) ∧
    ∀ j recency q history r t, (resolve j recency q).Course a.cache history r t →
      (∀ x ∈ history, ∃ d, Reachable admits capacity d ∧ d.cache = x.found) →
        AddsNone a.cache history t := by
  have hstands := (ha.orderly (Handle.lasting_standsFor admits)).holds
  have hsound (d : Activity) (hd : Reachable admits capacity d) : d.cache.Sound :=
    (hd.orderly (Handle.lasting_standsFor admits)).holds.sound
  constructor
  · intro recency q now asked hfresh begun
    refine ⟨?_, ?_, ?_⟩
    · intro raw between time h
      refine ⟨(b.cache.overwrite i h).1, ?_, ?_, ?_⟩
      · intro r t
        exact course_resolve_captured_iff hstands hmem hfresh
      · intro hi
        obtain ⟨old, hold⟩ := (hsound b hb).exists_mem_of_has hi
        obtain ⟨-, -, hfeed, hheld⟩ := overwrite_of_mem (hsound b hb) hold h
        exact ⟨hfeed, hheld⟩
      · intro hi
        rw [overwrite_of_not_has hi]
    · refine ⟨b.cache.evictStale i, ?_, (hsound b hb).held_evictStale i⟩
      intro r t
      rw [course_resolve_refused_iff hstands hmem hfresh,
        (hstands.entries _ hmem).toError_notFound]
      rfl
    · intro p hp r t
      rw [course_resolve_refused_iff hstands hmem hfresh, afterFailure_toError hp]
  · intro j recency q history r t hcourse hfound
    refine ((course_resolve_iff hstands).mp hcourse).addsNone hstands.sound ?_
    intro x hx
    obtain ⟨d, hd, hcache⟩ := hfound x hx
    exact hcache ▸ hsound d hd

/-- Where there is room for one element only, another element is stored while the first one is
captured again. The first one is not put back, and the other one stays. -/
theorem Reachable.resolve_recaptures_displaced :
    let i : Identity := ⟨100, 1⟩
    let j : Identity := ⟨100, 2⟩
    let raw : RawNode := .mk i.ref {} none
    ∃ c s : ElementCache, Reachable (fun _ _ => True) 1 { cache := c } ∧
      Reachable (fun _ _ => True) 1 { cache := s } ∧
        (i, Handle.captured (some i) (.bare i)) ∈ c.entries.toList ∧
          (resolve i .current {}).Course c
            [clocked (c.use i).1 3 c, granted {} i.ref raw c s, clocked s 5 s]
            (.ok (.captured (some i) (.ofRoot (CaptureRequest.snapshot {} 5 raw)))) s ∧
              s.entries.toList = [(j, .captured (some j) (.bare j))] := by
  intro i j raw
  obtain ⟨c, hc, hmem, -⟩ := exists_reachable_has (fun _ _ => True) (i := i) (by decide)
  have hs := hc.store (SnapshotRef.bare j)
  have hfresh := Handle.isFresh_current (Handle.captured (some i) (.bare i)) 3
  have horderly := hs.orderly (lasting_true _)
  have hheld : (c.store (SnapshotRef.bare j)).1.held = [(j, .captured (some j) (.bare j))] := by
    obtain ⟨-, -, -, hstored⟩ := store_of_some (hc.orderly (lasting_true _)).holds.sound
      (SnapshotRef.identity?_bare (i := j) (by decide))
    obtain ⟨others, hheld⟩ := hstored.exists_held
    have hlength := horderly.holds.sound.length_held_le
    rw [hheld, horderly.capacity, List.length_cons] at hlength
    rw [hheld, List.length_eq_zero_iff.mp (by omega : others.length = 0)]
  have hgone : (c.store (SnapshotRef.bare j)).1.has i = false := by
    apply Bool.eq_false_iff.mpr
    intro hhas
    obtain ⟨h, hmem⟩ := horderly.holds.sound.exists_mem_of_has hhas
    simp [hheld, i, j] at hmem
  obtain ⟨hrecaptures, -⟩ := hc.resolve_recaptures hmem hs
  obtain ⟨hcaptured, -, -⟩ := hrecaptures .current {} 3 c hfresh
  obtain ⟨t, hcourse, -, hkept⟩ := hcaptured raw (c.store (SnapshotRef.bare j)).1 5
  obtain rfl := hkept hgone
  exact ⟨c, _, hc, hs, hmem, (hcourse _ _).mpr ⟨rfl, rfl⟩, hheld⟩

end Activity

end UiTree
