import UiTree.Proofs.Frame
import UiTree.Provider.LiveTree
import UiTree.Proofs.Session.CachedHandles
import UiTree.Proofs.Session.Finding
import UiTree.Proofs.Session.Provenance
import UiTree.Proofs.Snapshot.Narrowing

/-!
# Finding an element in a tree that has not changed

A node without identity is looked for in a fresh capture of the root of its snapshot. If the live
tree is still the one that the snapshot was taken of, and some text of the node is known, the search
succeeds: the fresh capture asks for what the old one asked for, so it has the same nodes, and at
the latest the node itself is recognised by its texts.

## Implementation notes

The fresh capture asks for the texts and the frame in any case. If the old capture had not asked for
them, the same node would show texts in one capture and none in the other. So the argument rests on
what is known of every handle that a session hands out.
-/

namespace UiTree

/-- The nodes of a live tree, by their references. -/
structure LiveNodes where
  node? : NodeRef → Option RawNode
  ref_eq : ∀ {target node}, node? target = some node → node.ref = target

/-- Captures are answered from a live tree, with the nodes and the values that were asked for, and
perhaps with more. -/
def LiveNodes.answers (live : LiveNodes) : Answering
  | .capture target attributes maxDepth _, answer =>
    match live.node? target with
    | some node => ∃ raw, answer = .ok raw ∧ node.AgreeWithin attributes maxDepth raw
    | none => answer = .error .notFound
  | _, _ => True

namespace RawNode

mutual

theorem of_find?_eq_some {p : RawNode → Bool} {n m : RawNode} (h : n.find? p = some m) :
    p m = true := by
  obtain ⟨ref, properties, children⟩ := n
  cases children with
  | none =>
      rw [find?] at h
      obtain ⟨hp, hm⟩ := Option.ite_none_right_eq_some.mp h
      exact Option.some.inj hm ▸ hp
  | some children =>
      rw [find?] at h
      split at h
      · next hp => exact Option.some.inj h ▸ hp
      · exact of_findIn?_eq_some h

theorem of_findIn?_eq_some {p : RawNode → Bool} {ns : List RawNode} {m : RawNode}
    (h : findIn? p ns = some m) : p m = true := by
  match ns with
  | [] => cases h
  | n :: rest =>
      rw [findIn?] at h
      obtain hfirst | ⟨-, hrest⟩ := Option.or_eq_some_iff.mp h
      · exact of_find?_eq_some hfirst
      · exact of_findIn?_eq_some hrest

end

theorem AgreeWithin.refl (attributes : AttributeSet) (limit : Nat) (raw : RawNode) :
    raw.AgreeWithin attributes limit raw where
  refs _ _ := rfl
  omitted a r r' _ hr hr' := by
    obtain rfl := Option.some.inj (hr.symm.trans hr')
    rfl
  values a r r' _ hr hr' k _ := by
    obtain rfl := Option.some.inj (hr.symm.trans hr')
    cases k <;> first | rfl | trivial

theorem AgreeWithin.ref_eq {attributes : AttributeSet} {limit : Nat} {raw raw' : RawNode}
    (h : raw.AgreeWithin attributes limit raw') : raw.ref = raw'.ref :=
  Option.some.inj (h.refs [] (Nat.zero_le limit))

/-- Trees that agree on what a provider is asked for agree on what is asked of it. -/
theorem AgreeWithin.of_provided {attributes : AttributeSet} {limit : Nat} {raw raw' : RawNode}
    (h : raw.AgreeWithin attributes.provided limit raw') :
    raw.AgreeWithin attributes limit raw' where
  refs := h.refs
  omitted := h.omitted
  values a r r' ha hr hr' k hk := by
    cases hprovided : k.isProvided with
    | true => exact h.values a r r' ha hr hr' k (AttributeSet.mem_filter.mpr ⟨hk, hprovided⟩)
    | false => cases k <;> trivial

end RawNode

/-- The nodes of a tree in memory. -/
def LiveTree.nodes (t : LiveTree) : LiveNodes where
  node? target := t.root.find? (·.ref == target)
  ref_eq h := eq_of_beq (RawNode.of_find?_eq_some h)

/-- A tree in memory for which nothing was scheduled answers from its nodes and stays as it is. -/
theorem LiveTree.capture_answers {t : LiveTree} (hfailures : t.failures = [])
    (hscripts : t.scripts = []) (target : NodeRef) (attributes : AttributeSet)
    (maxDepth budget : Nat) :
    t.nodes.answers (.capture target attributes maxDepth budget) (t.capture target budget).1 ∧
      (t.capture target budget).2 = t := by
  have hcapture : t.capture target budget = (t.report target, t) := by
    simp [capture, takeFailure, takeEntry, hfailures, hscripts]
  rw [hcapture]
  refine ⟨?_, rfl⟩
  simp only [LiveNodes.answers, nodes, report]
  cases t.root.find? (·.ref == target) with
  | some node => exact ⟨node, rfl, .refl attributes maxDepth node⟩
  | none => rfl

namespace CaptureRequest

variable {q q' : CaptureRequest}

/-- The nodes of a capture do not depend on how much time there was. -/
theorem snapshot_nodes_congr (hattributes : q.attributes = q'.attributes)
    (hdepth : q.maxDepth = q'.maxDepth) (time time' : Nat) (raw : RawNode) :
    (q.snapshot time raw).nodes = (q'.snapshot time' raw).nodes :=
  calc
    (q.snapshot time raw).nodes =
        (q'.snapshot time' raw).nodes.map (·.restrict q.attributes) :=
      snapshot_nodes_restrict hdepth (fun _ ha => hattributes ▸ ha) time time' raw
    _ = (q'.snapshot time' raw).nodes.map (·.restrict q'.attributes) := by rw [hattributes]
    _ = (q'.snapshot time' raw).nodes :=
      (snapshot_nodes_restrict rfl (fun _ ha => ha) time' time' raw).symm

/-- A capture that is answered from a live tree is a capture of the live tree. -/
theorem exists_of_answers {live : LiveNodes} {target : NodeRef} {budget : Nat} {raw : RawNode}
    (h : live.answers (.capture target q.attributes.provided q.maxDepth budget) (.ok raw)) :
    ∃ node, live.node? target = some node ∧ raw.ref = target ∧
      ∀ time time', (q.snapshot time raw).nodes = (q.snapshot time' node).nodes := by
  simp only [LiveNodes.answers] at h
  split at h
  · next node hnode =>
    obtain ⟨raw', hraw, hagree⟩ := h
    obtain rfl := Except.ok.inj hraw
    refine ⟨node, hnode, hagree.ref_eq.symm.trans (live.ref_eq hnode), ?_⟩
    intro time time'
    exact (nodes_eq_of_agree hagree.of_provided time' time).symm
  · cases h

end CaptureRequest

/-- A node that was found for an old one. -/
structure SnapshotRef.Recovers (new old : SnapshotRef) (margin : Float) : Prop where
  type : old.node.properties.type = new.node.properties.type
  depth : old.node.depth = new.node.depth
  index : old.node.index = new.node.index
  frame_or_text : old.node.sameFrame new.node margin = true ∨
    old.node.properties.label = new.node.properties.label ∧
      old.node.properties.name = new.node.properties.name ∧
        old.node.properties.value = new.node.properties.value
  position_le : new.position ≤ old.position

namespace SnapshotNode

variable {old candidate : SnapshotNode} {margin : Float}

/-- The frames of two nodes are the same exactly if both are known and no component differs by more
than the margin. -/
theorem sameFrame_iff : old.sameFrame candidate margin = true ↔
    ∃ f g, old.properties.frame = some f ∧ candidate.properties.frame = some g ∧
      f.Within g margin := by
  rw [sameFrame]
  cases old.properties.frame <;> cases candidate.properties.frame <;> simp [Frame.agrees_iff]

theorem mayBe_iff : old.mayBe candidate margin = true ↔
    (old.properties.type = candidate.properties.type ∧ old.depth = candidate.depth ∧
      old.index = candidate.index) ∧
    (old.sameFrame candidate margin = true ∨ old.hasText = true ∧
      old.properties.label = candidate.properties.label ∧
        old.properties.name = candidate.properties.name ∧
          old.properties.value = candidate.properties.value) := by
  simp [mayBe, samePlace, sameText, and_assoc]

/-- A node with a text is recognised. -/
theorem mayBe_self (htext : old.hasText = true) (margin : Float) :
    old.mayBe old margin = true :=
  mayBe_iff.mpr ⟨⟨rfl, rfl, rfl⟩, .inr ⟨htext, rfl, rfl, rfl⟩⟩

/-- Without a text, a node is recognised only by a frame whose components are finite. -/
theorem mayBe_self_iff (hmargin : 0 ≤ margin) : old.mayBe old margin = true ↔
    old.hasText = true ∨ ∃ f, old.properties.frame = some f ∧ f.finite := by
  rw [mayBe_iff, and_iff_right ⟨rfl, rfl, rfl⟩, and_iff_left ⟨rfl, rfl, rfl⟩, sameFrame_iff,
    Frame.exists_within_self_iff hmargin, or_comm]

end SnapshotNode

/-- The node that is taken for an old one in a fresh snapshot, if there is one. -/
def SnapshotRef.foundIn? (old : SnapshotRef) (s : Snapshot) (margin : Float) :
    Option SnapshotRef :=
  (old.relocate? s margin).bind (of? s)

/-- A node with a text is found among the same nodes. -/
theorem SnapshotRef.exists_recovers {old : SnapshotRef} {s : Snapshot}
    (hnodes : s.nodes = old.tree.nodes) (htext : old.node.hasText = true) (margin : Float) :
    ∃ new, old.foundIn? s margin = some new ∧ new.tree = s ∧ new.Recovers old margin := by
  have hlt : old.position < s.nodes.size := hnodes ▸ old.position_lt
  have hself : old.node.mayBe s.nodes[old.position] margin = true := by
    have hsame : s.nodes[old.position] = old.node := by
      simp only [hnodes]
      rfl
    rw [hsame]
    exact SnapshotNode.mayBe_self htext margin
  obtain ⟨i, hi⟩ : ∃ i, old.relocate? s margin = some i :=
    ⟨_, Array.findIdx?_eq_some_of_exists ⟨_, Array.getElem_mem hlt, hself⟩⟩
  obtain ⟨hlt', hmayBe, hfirst⟩ := Array.findIdx?_eq_some_iff_getElem.mp hi
  have hle : i ≤ old.position := by
    apply Nat.le_of_not_lt
    intro hbefore
    exact hfirst old.position hbefore hself
  refine ⟨⟨s, i, hlt'⟩, ?_, rfl, ?_⟩
  · rw [foundIn?, hi]
    exact dif_pos hlt'
  · obtain ⟨⟨htype, hdepth, hindex⟩, hframe | ⟨-, htexts⟩⟩ := SnapshotNode.mayBe_iff.mp hmayBe
    · exact ⟨htype, hdepth, hindex, .inl hframe, hle⟩
    · exact ⟨htype, hdepth, hindex, .inr htexts, hle⟩

/-- Cache the node that was found, if one was. -/
def ElementCache.handleForFound (c : ElementCache) :
    Option SnapshotRef → ElementCache × Option Handle
  | none => (c, none)
  | some s => ((c.handleFor s).1, some (c.handleFor s).2)

namespace Session

open ElementCache

variable {settings : Settings} {h : Handle} {old : SnapshotRef} {c t : ElementCache}
  {history : List (Exchange ElementCache)} {r : Outcome (Option Handle)}

/-- Looking for a node again is one capture and one change of the cache. -/
theorem relocate_of_snapshot (hold : h.snapshot = some old) :
    relocate settings h = capture (relocationRequest settings old) old.tree.root.ref >>= fun s =>
      Operation.update (·.handleForFound (old.foundIn? s settings.frameEpsilon)) := by
  rw [relocate, hold]
  refine congrArg (Bind.bind _) (funext fun fresh => ?_)
  rw [SnapshotRef.foundIn?]
  split
  · next hnone =>
    rw [hnone]
    rfl
  · next new hnew =>
    rw [hnew]
    rfl

theorem course_relocate_iff (hold : h.snapshot = some old) :
    (relocate settings h).Course c history r t ↔
      (∃ raw between time found,
        history = [granted (relocationRequest settings old) old.tree.root.ref raw c between,
          clocked between time found] ∧
        let fresh := (relocationRequest settings old).snapshot time raw
        let result := found.handleForFound (old.foundIn? fresh settings.frameEpsilon)
        r = .ok result.2 ∧ t = result.1) ∨
      ∃ p : ProviderError,
        history = [refusal (relocationRequest settings old) old.tree.root.ref p c t] ∧
          r = .error (p.toError old.tree.root.ref) := by
  rw [relocate_of_snapshot hold]
  constructor
  · intro hcourse
    obtain ⟨e, rfl, hfailed⟩ | ⟨first, second, fresh, found, rfl, hcapture, hupdate⟩ :=
      hcourse.of_bind
    · obtain ⟨raw, between, time, -, hr⟩ | ⟨p, rfl, hr⟩ := course_capture_iff.mp hfailed
      · cases hr
      · exact .inr ⟨p, rfl, congrArg Except.error (Except.error.inj hr)⟩
    · obtain ⟨raw, between, time, rfl, hr⟩ | ⟨p, -, hr⟩ := course_capture_iff.mp hcapture
      · obtain rfl := Except.ok.inj hr
        obtain ⟨rfl, rfl, rfl⟩ := Operation.course_update_iff.mp hupdate
        exact .inl ⟨raw, between, time, found, rfl, rfl, rfl⟩
      · cases hr
  · rintro (⟨raw, between, time, found, rfl, rfl, rfl⟩ | ⟨p, rfl, rfl⟩)
    · rw [← List.append_nil [granted _ _ raw c between, clocked between time found]]
      refine .bind (course_capture_iff.mpr (.inl ⟨raw, between, time, rfl, rfl⟩)) ?_
      exact Operation.course_update_iff.mpr ⟨rfl, rfl, rfl⟩
    · exact .bind_error (course_capture_iff.mpr (.inr ⟨p, rfl, rfl⟩))

end Session

/-- A snapshot that was taken of a live tree. -/
def Snapshot.TakenOf (live : LiveNodes) (s : Snapshot) : Prop :=
  ∃ q : CaptureRequest, q.Yields live.answers s

namespace Snapshot.TakenOf

variable {live : LiveNodes} {s : Snapshot}

/-- The root is in the live tree, and the nodes are those that it shows there. -/
theorem exists_node (hs : s.TakenOf live) : ∃ node, live.node? s.root.ref = some node ∧
    ∃ q : CaptureRequest, q.attributes = s.attributes ∧ q.maxDepth = s.maxDepth ∧
      ∀ time, (q.snapshot time node).nodes = s.nodes := by
  obtain ⟨q, target, raw, time, hraw, rfl⟩ := hs
  obtain ⟨node, hnode, rfl, hnodes⟩ := CaptureRequest.exists_of_answers hraw
  rw [CaptureRequest.ref_root_snapshot]
  exact ⟨node, hnode, q, rfl, rfl, fun time' => (hnodes time time').symm⟩

/-- A live tree that has not changed shows the nodes that it showed before. -/
theorem nodes_eq (hs : s.TakenOf live) {q : CaptureRequest}
    (hattributes : q.attributes = s.attributes) (hdepth : q.maxDepth = s.maxDepth) {raw : RawNode}
    (hraw : live.answers (.capture s.root.ref q.attributes.provided q.maxDepth q.timeout)
      (.ok raw)) (time : Nat) : (q.snapshot time raw).nodes = s.nodes := by
  obtain ⟨node, hnode, q', hattributes', hdepth', hnodes'⟩ := hs.exists_node
  obtain ⟨same, hsame, -, hnodes⟩ := CaptureRequest.exists_of_answers hraw
  obtain rfl := Option.some.inj (hnode.symm.trans hsame)
  calc
    (q.snapshot time raw).nodes = (q.snapshot time node).nodes := hnodes time time
    _ = (q'.snapshot time node).nodes :=
      CaptureRequest.snapshot_nodes_congr (hattributes.trans hattributes'.symm)
        (hdepth.trans hdepth'.symm) time time node
    _ = s.nodes := hnodes' time

end Snapshot.TakenOf

namespace Handle

open ElementCache Session

variable {admits : Answering} {capacity : Nat} {h : Handle} {live : LiveNodes} {old : SnapshotRef}

/-- The fresh capture asks for the attributes that the old one asked for. -/
theorem Traceable.attributes_union (hh : h.Traceable admits) (hold : h.snapshot = some old) :
    old.tree.attributes ∪ .relocation = old.tree.attributes := by
  obtain ⟨q, hq, target, raw, time, -, htree⟩ := hh old hold
  rw [htree]
  ext a
  rw [AttributeSet.mem_union]
  constructor
  · rintro (ha | ha)
    · exact ha
    · exact hq a ha
  · exact Or.inl

/-- If a session is answered from a live tree all the time, its handles are of that tree. -/
theorem Produced.takenOf (hproduced : Produced live.answers capacity h)
    (hold : h.snapshot = some old) : old.tree.TakenOf live := by
  obtain ⟨q, -, hyields⟩ := hproduced.traceable old hold
  exact ⟨q, hyields⟩

/-- A handle that a session has produced, of a node with a label, a name or a value, is relocated as
long as the live tree does not change. The handle that results is resolved, and its node in the
fresh capture has the type, the depth and the place among its siblings of the old node, and its
frame within the margin or its texts, and stands no later than the old node did. -/
theorem Produced.relocates (hproduced : Produced admits capacity h)
    (hold : h.snapshot = some old) (htaken : old.tree.TakenOf live)
    (htext : old.node.hasText = true) {settings : Settings} {c t : ElementCache}
    {history : List (Exchange ElementCache)} {r : Outcome (Option Handle)}
    (hcourse : (relocate settings h).Course c history r t)
    (hanswers : ∀ x ∈ history, live.answers x.question x.answer) :
    ∃ raw between time found h' new,
      history = [granted (relocationRequest settings old) old.tree.root.ref raw c between,
        clocked between time found] ∧
      r = .ok (some h') ∧ h'.state = .resolved ∧ h'.snapshot = some new ∧
        new.tree = (relocationRequest settings old).snapshot time raw ∧
          new.Recovers old settings.frameEpsilon := by
  obtain ⟨raw, between, time, found, rfl, rfl, -⟩ | ⟨p, rfl, -⟩ :=
    (course_relocate_iff hold).mp hcourse
  · have hraw := hanswers _ List.mem_cons_self
    have hattributes : (relocationRequest settings old).attributes = old.tree.attributes :=
      hproduced.traceable.attributes_union hold
    obtain ⟨new, hnew, htree, hrecovers⟩ := SnapshotRef.exists_recovers
      (htaken.nodes_eq hattributes rfl hraw time) htext settings.frameEpsilon
    refine ⟨raw, between, time, found, (found.handleFor new).2, new, rfl, ?_, rfl, rfl, htree,
      hrecovers⟩
    rw [hnew]
    rfl
  · have hrefused := hanswers _ List.mem_cons_self
    obtain ⟨node, hnode, -⟩ := htaken.exists_node
    simp only [refusal, LiveNodes.answers, hnode] at hrefused
    obtain ⟨raw, hraw, -⟩ := hrefused
    cases hraw

/-- An application with a button that has no process. -/
def labelledButton : LiveTree where
  root := .mk ⟨some 100, 1⟩ { type := some .application } (some [
    .mk ⟨none, 3⟩ { type := some .button, label := some "OK" } none])

theorem labelledButton_answers (q : CaptureRequest) : labelledButton.nodes.answers
    (.capture ⟨some 100, 1⟩ q.attributes.provided q.maxDepth q.timeout)
      (.ok labelledButton.root) :=
  (LiveTree.capture_answers (t := labelledButton) rfl rfl ⟨some 100, 1⟩ _ _ 0).1

/-- The button is found by its type alone. -/
theorem exists_produced_button : ∃ (c : ElementCache) (old : SnapshotRef),
    Activity.Managed labelledButton.nodes.answers 1 { cache := c } ∧
      Produced labelledButton.nodes.answers 1 (.captured none old) ∧ old.node.hasText = true ∧
        old.tree.root.ref = ⟨some 100, 1⟩ := by
  let l : Locator := .predicate ⟨[[⟨.type, .equals, "XCUIElementTypeButton"⟩]]⟩
  let q : CaptureRequest := ({} : Settings).captureRequest l.attributes
  let s := q.snapshot 0 labelledButton.root
  let old : SnapshotRef := ⟨s, 1, by decide +kernel⟩
  obtain ⟨c, hc, -, -⟩ := exists_create_store Nat.one_pos ⟨Session.feedCapacity, true, [], 0⟩
    (SnapshotRef.identity?_bare (i := ⟨100, 1⟩) (by decide))
  have hmanaged : Activity.Managed labelledButton.nodes.answers 1 { cache := c } := .create hc
  have hselect : l.select s = .ok [1] := congrArg Except.ok (by decide +kernel)
  have hhandles : (c.handlesFor ([1].filterMap (SnapshotRef.of? s))).2 = [.captured none old] := by
    have hrefs : [1].filterMap (SnapshotRef.of? s) = [old] := by
      rw [List.filterMap_cons, SnapshotRef.of?, dif_pos old.position_lt]
      rfl
    have hidentity : old.node.ref.identity? = none := by decide +kernel
    rw [hrefs, handlesFor_snd, List.map_singleton, hidentity]
  let history : List (Exchange ElementCache) :=
    [⟨.activeRoots, c, .ok [labelledButton.root], c⟩,
      granted q labelledButton.root.ref labelledButton.root c c, clocked c 0 c]
  have hhistory : ∀ x ∈ history,
      labelledButton.nodes.answers x.question x.answer ∧ x.found = c := by
    intro x hx
    simp only [history, List.mem_cons, List.not_mem_nil, or_false] at hx
    obtain rfl | rfl | rfl := hx
    · exact ⟨trivial, rfl⟩
    · exact ⟨labelledButton_answers q, rfl⟩
    · exact ⟨trivial, rfl⟩
  have hfind : (Command.find {} l none).perform.Course c history (.ok [.captured none old])
      (c.handlesFor ([1].filterMap (SnapshotRef.of? s))).1 := by
    refine (course_find_ok_iff ?_).mpr ⟨s, [1], .active, hselect, ?_⟩
    · simp [Undisturbed, history, granted, clocked]
    · rw [← hhandles]
  refine ⟨c, old, hmanaged, ?_, by decide +kernel, by decide +kernel⟩
  refine .returned hmanaged (k := .find {} l none) trivial (fun _ hh => by cases hh) hfind ?_
    List.mem_cons_self
  intro x hx
  obtain ⟨hanswers, hfound⟩ := hhistory x hx
  exact ⟨hanswers, _, hmanaged, hfound.symm⟩

/-- The button is found again by its label, as long as nobody touches the tree. -/
theorem Produced.relocates_button :
    let live := labelledButton.nodes
    ∃ (h h' : Handle) (old new : SnapshotRef) (c t : ElementCache)
      (history : List (Exchange ElementCache)),
      Activity.Managed live.answers 1 { cache := c } ∧ Produced live.answers 1 h ∧
        h.identity = none ∧ h.snapshot = some old ∧ old.tree.TakenOf live ∧
          old.node.hasText = true ∧ (relocate {} h).Course c history (.ok (some h')) t ∧
            (∀ x ∈ history, live.answers x.question x.answer) ∧ h'.state = .resolved ∧
              h'.snapshot = some new ∧ new.Recovers old ({} : Settings).frameEpsilon := by
  intro live
  obtain ⟨c, old, hmanaged, hproduced, htext, hroot⟩ := exists_produced_button
  have htaken : old.tree.TakenOf live := hproduced.takenOf rfl
  obtain ⟨history, hhistory⟩ : ∃ history, history =
      [granted (relocationRequest {} old) old.tree.root.ref labelledButton.root c c,
        clocked c 5 c] := ⟨_, rfl⟩
  have hcourse : (relocate {} (.captured none old)).Course c history _ _ :=
    (course_relocate_iff rfl).mpr
      (.inl ⟨labelledButton.root, c, 5, c, hhistory, rfl, rfl⟩)
  have hanswers : ∀ x ∈ history, live.answers x.question x.answer := by
    rw [hhistory, hroot]
    exact List.forall_mem_cons.mpr ⟨labelledButton_answers (relocationRequest {} old),
      List.forall_mem_singleton.mpr trivial⟩
  obtain ⟨raw, between, time, found, h', new, -, hr, hstate, hsnapshot, -, hrecovers⟩ :=
    hproduced.relocates rfl htaken htext hcourse hanswers
  exact ⟨_, h', old, new, c, _, history, hmanaged, hproduced, rfl, rfl, htaken, htext,
    hr ▸ hcourse, hanswers, hstate, hsnapshot, hrecovers⟩

end Handle

end UiTree
