import UiTree.Proofs.Cache.Latest
import UiTree.Proofs.Query.Selection
import UiTree.Proofs.Session.Intact

/-!
# What is found and what is cached of it

Finding elements takes one capture. The matches are handed out in document order, those with an
identity as stable handles and the others as ephemeral ones. The stable ones are stored in the same
order, so the last match is the most recently used element afterwards. A match may be displaced by
the matches after it, and so may the element that was searched.

## Implementation notes

While nobody else works on the cache, nothing happens to it before the matches are stored.
-/

namespace UiTree

variable {positions : List Nat} {s : Snapshot}

namespace Query

end Query

namespace Snapshot

end Snapshot

namespace Query

end Query

namespace Locator

end Locator

namespace SnapshotRef

end SnapshotRef

namespace Session

open ElementCache

variable {settings : Settings} {attributes : AttributeSet} {c t : ElementCache}
  {scope : Option Identity} {l : Locator} {history : List (Exchange ElementCache)}

/-- The courses of a capture of a cached element, or of the frontmost application, that succeeds
while nobody else works on the cache. -/
inductive Captures (settings : Settings) (attributes : AttributeSet) (c : ElementCache) :
    Option Identity → List (Exchange ElementCache) → Snapshot → Prop where
  /-- The frontmost application is captured. -/
  | active {root : RawNode} {others : List RawNode} {raw : RawNode} {time : Nat} :
      Captures settings attributes c none
        [⟨.activeRoots, c, .ok (root :: others), c⟩,
          granted (settings.captureRequest attributes) root.ref raw c c, clocked c time c]
        ((settings.captureRequest attributes).snapshot time raw)
  /-- A cached element is captured. -/
  | cached {i : Identity} {raw : RawNode} {time : Nat} (hi : c.has i = true) :
      Captures settings attributes c (some i)
        [granted (settings.captureRequest attributes) i.ref raw c c, clocked c time c]
        ((settings.captureRequest attributes).snapshot time raw)

/-- The answers determine the snapshot. -/
theorem Captures.unique {s' : Snapshot} (h : Captures settings attributes c scope history s)
    (h' : Captures settings attributes c scope history s') : s = s' := by
  cases h with
  | active => cases h'; rfl
  | cached => cases h'; rfl

theorem course_activeRoot_ok_iff {target : NodeRef} :
    activeRoot.Course c history (.ok target) t ↔ ∃ root others,
      history = [⟨.activeRoots, c, .ok (root :: others), t⟩] ∧ target = root.ref := by
  rw [activeRoot, Operation.course_ask_bind_iff]
  constructor
  · rintro ⟨answer, found, rest, rfl, hrest⟩
    split at hrest
    · obtain ⟨-, hr, -⟩ := Operation.course_fail_iff.mp hrest
      cases hr
    · obtain ⟨-, hr, -⟩ := Operation.course_fail_iff.mp hrest
      cases hr
    · obtain ⟨rfl, hr, rfl⟩ := Operation.course_pure_iff.mp hrest
      exact ⟨_, _, rfl, Except.ok.inj hr⟩
  · rintro ⟨root, others, rfl, rfl⟩
    exact ⟨.ok (root :: others), t, [], rfl, Operation.course_pure_iff.mpr ⟨rfl, rfl, rfl⟩⟩

/-- A capture that succeeds while nobody else works on the cache. -/
theorem course_capture_ok_iff {q : CaptureRequest} {target : NodeRef}
    (hhistory : Undisturbed history) :
    (capture q target).Course c history (.ok s) t ↔ ∃ raw time,
      history = [granted q target raw c c, clocked c time c] ∧ s = q.snapshot time raw ∧ t = c := by
  rw [course_capture_iff]
  constructor
  · rintro (⟨raw, between, time, rfl, hr⟩ | ⟨p, rfl, hr⟩)
    · obtain ⟨hgranted, hrest⟩ := undisturbed_cons_iff.mp hhistory
      obtain ⟨hclocked, -⟩ := undisturbed_cons_iff.mp hrest
      obtain rfl : between = c := hgranted
      obtain rfl : t = between := hclocked
      exact ⟨raw, time, rfl, Except.ok.inj hr, rfl⟩
    · cases hr
  · rintro ⟨raw, time, rfl, rfl, rfl⟩
    exact .inl ⟨raw, t, time, rfl, rfl⟩

theorem course_captureScope_ok_iff (hhistory : Undisturbed history) :
    (captureScope settings scope attributes).Course c history (.ok s) t ↔
      Captures settings attributes c scope history s ∧ t = c := by
  cases scope with
  | none =>
      rw [captureScope]
      constructor
      · intro hcourse
        obtain ⟨e, hr, -⟩ | ⟨first, second, target, t', rfl, hroot, hcapture⟩ := hcourse.of_bind
        · cases hr
        · obtain ⟨hfirst, hsecond⟩ := undisturbed_append_iff.mp hhistory
          obtain ⟨root, others, rfl, rfl⟩ := course_activeRoot_ok_iff.mp hroot
          obtain ⟨hasked, -⟩ := undisturbed_cons_iff.mp hfirst
          obtain rfl : t' = c := hasked
          obtain ⟨raw, time, rfl, rfl, rfl⟩ := (course_capture_ok_iff hsecond).mp hcapture
          exact ⟨.active, rfl⟩
      · rintro ⟨⟨⟩, rfl⟩
        obtain ⟨-, hsecond⟩ := undisturbed_cons_iff.mp hhistory
        exact .bind (course_activeRoot_ok_iff.mpr ⟨_, _, rfl, rfl⟩)
          ((course_capture_ok_iff hsecond).mpr ⟨_, _, rfl, rfl, rfl⟩)
  | some i =>
      rw [captureScope, Operation.course_read_bind_iff]
      constructor
      · intro hcourse
        split at hcourse
        · next hi =>
          obtain ⟨raw, time, rfl, rfl, rfl⟩ :=
            (course_capture_ok_iff hhistory).mp (course_evictingStale_ok_iff.mp hcourse)
          exact ⟨.cached hi, rfl⟩
        · obtain ⟨-, hr, -⟩ := Operation.course_fail_iff.mp hcourse
          cases hr
      · rintro ⟨hcaptures, rfl⟩
        cases hcaptures with
        | cached hi =>
            rw [if_pos hi, course_evictingStale_ok_iff]
            exact (course_capture_ok_iff hhistory).mpr ⟨_, _, rfl, rfl, rfl⟩

theorem course_find_ok_iff {hs : List Handle} (hhistory : Undisturbed history) :
    (find settings l scope).Course c history (.ok hs) t ↔ ∃ s positions,
      Captures settings l.attributes c scope history s ∧ l.select s = .ok positions ∧
        c.handlesFor (positions.filterMap (SnapshotRef.of? s)) = (t, hs) := by
  rw [find]
  constructor
  · intro hcourse
    obtain ⟨e, hr, -⟩ | ⟨first, second, s, t', rfl, hcapture, hselect⟩ := hcourse.of_bind
    · cases hr
    · obtain ⟨hfirst, -⟩ := undisturbed_append_iff.mp hhistory
      obtain ⟨hcaptures, rfl⟩ := (course_captureScope_ok_iff hfirst).mp hcapture
      obtain ⟨e, hr, -⟩ | ⟨first', second', positions, t'', rfl, hselected, hupdate⟩ :=
        hselect.of_bind
      · cases hr
      · obtain ⟨rfl, hpositions, rfl⟩ := Operation.course_ofOutcome_iff.mp hselected
        obtain ⟨rfl, hr, rfl⟩ := Operation.course_update_iff.mp hupdate
        obtain rfl := Except.ok.inj hr
        rw [List.append_nil, List.append_nil]
        exact ⟨s, positions, hcaptures, hpositions.symm, rfl⟩
  · rintro ⟨s, positions, hcaptures, hpositions, hstored⟩
    have hselect : (Operation.ofOutcome (l.select s)).Course c [] (.ok positions) c :=
      Operation.course_ofOutcome_iff.mpr ⟨rfl, hpositions.symm, rfl⟩
    have hupdate : (Operation.update
        (·.handlesFor (positions.filterMap (SnapshotRef.of? s)))).Course c [] (.ok hs) t :=
      Operation.course_update_iff.mpr ⟨rfl, by rw [hstored], by rw [hstored]⟩
    rw [← List.append_nil history]
    exact .bind ((course_captureScope_ok_iff hhistory).mpr ⟨hcaptures, rfl⟩)
      (.bind hselect hupdate)

end Session

namespace Activity

open ElementCache

variable {admits : Answering} {capacity : Nat} {a : Activity}

end Activity

end UiTree
