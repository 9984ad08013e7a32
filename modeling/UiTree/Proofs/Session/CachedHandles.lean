import UiTree.Proofs.Session.Activity
import UiTree.Proofs.Session.Failures

/-!
# What is cached

If a capture of a target always yields a node with the target's reference, every cached handle is a
resolved handle of the identity it is cached under, with a snapshot of a node of that identity. So a
handle that is captured again always takes the new snapshot, and a cached handle is served without a
call whenever its age does not matter.
-/

namespace UiTree

/-- A capture of a target yields a node with the target's reference. Other answers are free. -/
def Answering.faithful : Answering
  | .capture target _ _ _, answer => ∀ raw, answer = .ok raw → raw.ref = target
  | _, _ => True

/-- A handle of an element with an identity, as it was captured. -/
structure Handle.Presents (h : Handle) (i : Identity) : Prop where
  resolved : h.state = .resolved
  identity : h.identity = some i
  snapshot : ∃ s, h.snapshot = some s ∧ s.node.ref.identity? = some i

variable {i : Identity} {h : Handle}

namespace CaptureRequest

theorem exists_nodesOf_eq_cons (q : CaptureRequest) (start : Nat) (parent : Option Nat)
    (depth index : Nat) (raw : RawNode) :
    ∃ n rest, q.nodesOf start parent depth index raw = n :: rest ∧ n.ref = raw.ref := by
  obtain ⟨ref, properties, children⟩ := raw
  cases children with
  | none => exact ⟨_, _, rfl, rfl⟩
  | some children =>
      rw [nodesOf]
      split <;> exact ⟨_, _, rfl, rfl⟩

/-- The root of a snapshot has the reference of the node that was reported. -/
theorem ref_root_snapshot (q : CaptureRequest) (time : Nat) (raw : RawNode) :
    (q.snapshot time raw).root.ref = raw.ref := by
  obtain ⟨n, rest, hnodes, href⟩ := q.exists_nodesOf_eq_cons 0 none 0 0 raw
  simp [Snapshot.root, snapshot, hnodes, href]

end CaptureRequest

namespace Handle

theorem presents_captured {s : SnapshotRef} (hs : s.node.ref.identity? = some i) :
    (captured (some i) s).Presents i :=
  ⟨rfl, rfl, s, rfl, hs⟩

/-- An identity that some node has determines a reference that determines it. -/
theorem Presents.identity?_ref (hh : h.Presents i) : i.ref.identity? = some i := by
  obtain ⟨s, -, hs⟩ := hh.snapshot
  exact Identity.identity?_eq_some_iff.mpr ⟨rfl, (Identity.identity?_eq_some_iff.mp hs).2⟩

theorem lasting_presents : Lasting Answering.faithful fun i h => h.Presents i where
  captured _ _ := presents_captured
  refreshed {i h h' q now raw} hh hadmits hrefreshed := by
    rw [refreshed_of_resolved hh.resolved] at hrefreshed
    obtain rfl := Except.ok.inj hrefreshed
    refine ⟨rfl, hh.identity, _, rfl, ?_⟩
    rw [SnapshotRef.node_ofRoot, CaptureRequest.ref_root_snapshot, hadmits raw rfl]
    exact hh.identity?_ref

end Handle

namespace ElementCache

variable {c : ElementCache}

/-- A cached handle is served whatever its age, and only the clock is asked. -/
theorem resolve_any (hc : c.Holds fun i h => h.Presents i) (hi : c.has i = true)
    (q : CaptureRequest) : ∃ h c', (i, h) ∈ c.held ∧
      resolve i .any q c = .ask .time c' fun _ c'' => .done (.ok h) c'' := by
  obtain ⟨h, hmem⟩ := hc.sound.exists_mem_of_has hi
  obtain ⟨s, hs, -⟩ := (hc.entries _ hmem).snapshot
  obtain ⟨-, -, -, -, hused⟩ := use_of_mem hc.sound hmem
  have hfresh (now : Nat) : h.isFresh Recency.any.accepts now = true := by
    rw [Handle.isFresh, hs]
    rfl
  refine ⟨h, (c.use i).1, hmem, ?_⟩
  rw [resolve, Operation.update_bind_apply, hused]
  refine congrArg (Dialogue.ask Question.time (c.use i).1) ?_
  funext now c''
  exact congrArg (fun m : CacheOperation Handle => m c'') (if_pos (hfresh now))

end ElementCache

namespace Activity

variable {capacity : Nat} {a : Activity}

/-- Whatever happens, the cache holds no more handles than there is room for, each of them resolved
and with a snapshot of the element that it is cached under. A cached handle takes any new snapshot,
so it fails to be captured again only when the provider refuses, and whatever its age it is served
at once. -/
theorem Reachable.presents (ha : Reachable .faithful capacity a) :
    (a.cache.size ≤ capacity ∧ ∀ i h, (i, h) ∈ a.cache.entries.toList → h.Presents i) ∧
      (∀ i cached, (a.cache.use i).2 = some cached →
        ∀ s, ∃ h, cached.refreshed s = .ok h) ∧
      (∀ i recency q history e c,
        (ElementCache.resolve i recency q).Course a.cache history (.error e) c →
          (a.cache.has i = false ∧ e = .notCached i) ∨
            ∃ p found, Refused i.ref p found history ∧ e = p.toError i.ref) ∧
      ∀ i q, a.cache.has i = true → ∃ h c, (i, h) ∈ a.cache.entries.toList ∧
        ElementCache.resolve i .any q a.cache = .ask .time c fun _ c' => .done (.ok h) c' := by
  obtain ⟨hholds, hcapacity, -⟩ := ha.orderly Handle.lasting_presents
  have hresolved : a.cache.Holds fun _ h => h.state = .resolved :=
    hholds.mono fun _ _ hh => hh.resolved
  refine ⟨⟨?_, fun i h hmem => hholds.entries _ hmem⟩, ?_, ?_, ?_⟩
  · rw [hholds.sound.size_eq, ← hcapacity]
    exact hholds.sound.length_held_le
  · intro i cached hused s
    exact ⟨_, Handle.refreshed_of_resolved ((hresolved.use i).2.2 cached hused) s⟩
  · intro i recency q history e c hcourse
    obtain ⟨hi, -, he⟩ | ⟨p, found, hrefused, he, -⟩ :=
      ElementCache.resolve_error hresolved hcourse
    · exact .inl ⟨hi, he⟩
    · exact .inr ⟨p, found, hrefused, he⟩
  · intro i q hi
    exact ElementCache.resolve_any hholds hi q

/-- An element that was stored is presented, and served without a call. -/
theorem Reachable.presents_stored :
    let i : Identity := ⟨100, 1⟩
    ∃ c : ElementCache, Reachable .faithful 1 { cache := c } ∧ c.size ≤ 1 ∧
      (∃ h, (i, h) ∈ c.entries.toList ∧ h.Presents i) ∧
        ∃ h c', ElementCache.resolve i .any {} c =
          .ask .time c' fun _ c'' => .done (.ok h) c'' := by
  intro i
  obtain ⟨c, hc, hmem, hhas⟩ := exists_reachable_has .faithful (i := i) (by decide)
  obtain ⟨⟨hsize, hpresents⟩, -, -, hserved⟩ := hc.presents
  obtain ⟨h, c', -, hresolve⟩ := hserved i {} hhas
  exact ⟨c, hc, hsize, ⟨_, hmem, hpresents i _ hmem⟩, h, c', hresolve⟩

end Activity

end UiTree
