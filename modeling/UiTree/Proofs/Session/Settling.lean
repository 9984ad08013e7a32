import UiTree.Proofs.Frame
import UiTree.Proofs.Session.Polling

/-!
# Waiting for an element that does not move

Two readings of an element that has not changed settle a wait if the frame of the element is finite.
Elements off the screen may have infinite frames. No reading of such an element agrees with another,
so a wait for it goes on until its time is over.
-/

namespace UiTree

variable {σ : Type}

/-- Whether two readings have the same frame, and are both enabled and visible, or not. -/
structure Properties.Unmoved (a b : Properties) : Prop where
  frame : a.frame = b.frame
  enabled : a.enabled = b.enabled
  visible : a.visible = b.visible

/-- The reading has a frame only if all its components are finite. -/
def Properties.Bounded (p : Properties) : Prop :=
  ∀ f, p.frame = some f → f.finite

namespace Properties

variable {a b : Properties} {epsilon : Float}

theorem framesAgree_iff : a.framesAgree b epsilon ↔ a.frame = none ∧ b.frame = none ∨
    ∃ f g, a.frame = some f ∧ b.frame = some g ∧ f.Within g epsilon := by
  rw [framesAgree]
  cases a.frame <;> cases b.frame <;> simp [Frame.agrees_iff]

/-- Readings agree exactly if both are without a frame, or both have one and no component differs by
more than the margin, and if they are both enabled and visible, or not. -/
theorem settled_iff : a.settled b epsilon ↔
    (a.frame = none ∧ b.frame = none ∨
      ∃ f g, a.frame = some f ∧ b.frame = some g ∧ f.Within g epsilon) ∧
    a.enabled = b.enabled ∧ a.visible = b.visible := by
  rw [← framesAgree_iff]
  simp only [settled, Bool.and_eq_true, beq_iff_eq, and_assoc]

theorem Unmoved.settled_iff (h : a.Unmoved b) (hepsilon : 0 ≤ epsilon) :
    a.settled b epsilon ↔ a.Bounded := by
  rw [Properties.settled_iff, ← h.frame, and_iff_left ⟨h.enabled, h.visible⟩, and_self_iff,
    Frame.exists_within_self_iff hepsilon]
  constructor
  · rintro (hnone | ⟨f, hf, hfinite⟩) f' hf'
    · cases hnone.symm.trans hf'
    · exact Option.some.inj (hf.symm.trans hf') ▸ hfinite
  · intro hbounded
    cases hframe : a.frame with
    | none => exact .inl rfl
    | some f => exact .inr ⟨f, rfl, hbounded f hframe⟩

end Properties

namespace StabilityRule

variable {rule : StabilityRule} {target : NodeRef} {started timeout : Nat} {s t : σ}
  {history : List (Exchange σ)} {r : Outcome Bool} {earlier later : List Poll} {a b : RawNode}

/-- Two polls in a row settle a wait exactly if their readings agree. -/
theorem Concludes.settles_iff (h : rule.Concludes target started timeout history r)
    (hpolls : polls history = earlier ++ .ok a :: .ok b :: later) :
    a.properties.settled b.properties rule.epsilon ↔ r = .ok true ∧ later = [] := by
  have hsplit : polls history = earlier ++ [.ok a] ++ [.ok b] ++ later := by
    rw [hpolls, List.append_assoc, List.append_assoc]
    rfl
  have hdecides : rule.Decides target (earlier ++ [.ok a] ++ [.ok b]) (.ok true) ↔
      a.properties.settled b.properties rule.epsilon :=
    decides_readings_iff.trans (and_iff_left rfl)
  have hresult := h.decides_iff (.ok true) nofun
  constructor
  · intro hsettled
    have hlater : later = [] := Classical.byContradiction fun hlater =>
      h.undecided _ _ hsplit hlater _ (hdecides.mpr hsettled)
    rw [hsplit, hlater, List.append_nil, hdecides] at hresult
    exact ⟨hresult.mp hsettled, hlater⟩
  · rintro ⟨hr, hlater⟩
    rw [hsplit, hlater, List.append_nil, hdecides] at hresult
    exact hresult.mpr hr

/-- A wait that reads an element twice in a row without any change in between ends well with the
second reading exactly if the frame of the element, if it has one, is finite. -/
theorem wait_settles_iff_bounded (hepsilon : 0 ≤ rule.epsilon)
    (h : (rule.wait target timeout).Course s history r t)
    (hpolls : polls history = earlier ++ .ok a :: .ok b :: later)
    (hunmoved : a.properties.Unmoved b.properties) :
    (r = .ok true ∧ later = []) ↔ a.properties.Bounded := by
  obtain ⟨started, found, rest, rfl, hpolling⟩ := course_wait_iff.mp h
  rw [← hpolling.concludes.settles_iff hpolls, hunmoved.settled_iff hepsilon]

/-- A button at rest on the screen. -/
theorem wait_settles_button :
    let rule : StabilityRule := ⟨4, 0.5, 5⟩
    let button : RawNode := .mk ⟨some 100, 1⟩ { frame := some ⟨10, 20, 30, 40⟩ } none
    ∃ history : List (Exchange Unit), 0 ≤ rule.epsilon ∧
      (rule.wait button.ref 10).Course () history (.ok true) () ∧
        polls history = [.ok button, .ok button] ∧ button.properties.Bounded := by
  intro rule button
  have hepsilon : 0 ≤ rule.epsilon := by decide +kernel
  have hsettled : button.properties.settled button.properties rule.epsilon := by decide +kernel
  let history : List (Exchange Unit) :=
    [⟨.time, (), (0 : Nat), ()⟩, ⟨rule.pollQuestion button.ref 10 0, (), .ok button, ()⟩,
      ⟨.time, (), (1 : Nat), ()⟩, ⟨.sleep 4, (), (5 : Nat), ()⟩,
      ⟨rule.pollQuestion button.ref 10 5, (), .ok button, ()⟩]
  have hcourse : (rule.wait button.ref 10).Course () history (.ok true) () := by
    refine course_wait_iff.mpr ⟨0, (), _, rfl, ?_⟩
    refine .again rfl rfl (by decide) rfl rfl (by decide) ?_
    exact .decided (by rw [verdict_of_settled hsettled]; rfl)
  have hunmoved : button.properties.Unmoved button.properties := ⟨rfl, rfl, rfl⟩
  have hpolls : polls history = [] ++ .ok button :: .ok button :: [] := rfl
  exact ⟨history, hepsilon, hcourse, rfl,
    (wait_settles_iff_bounded hepsilon hcourse hpolls hunmoved).mp ⟨rfl, rfl⟩⟩

/-- A button at rest off the screen: the wait is given up when its time is over, although the second
reading is the same as the first. -/
theorem wait_gives_up_offscreen :
    let rule : StabilityRule := ⟨4, 0.5, 5⟩
    let button : RawNode := .mk ⟨some 100, 1⟩ { frame := some ⟨1 / 0, 20, 30, 40⟩ } none
    ∃ history : List (Exchange Unit), 0 ≤ rule.epsilon ∧
      (rule.wait button.ref 10).Course () history (.ok false) () ∧
        polls history = [.ok button, .ok button] := by
  intro rule button
  have hepsilon : 0 ≤ rule.epsilon := by decide +kernel
  have hsettled : ¬ button.properties.settled button.properties rule.epsilon := by decide +kernel
  refine ⟨[⟨.time, (), (0 : Nat), ()⟩, ⟨rule.pollQuestion button.ref 10 0, (), .ok button, ()⟩,
    ⟨.time, (), (1 : Nat), ()⟩, ⟨.sleep 4, (), (5 : Nat), ()⟩,
    ⟨rule.pollQuestion button.ref 10 5, (), .ok button, ()⟩, ⟨.time, (), (6 : Nat), ()⟩,
    ⟨.sleep 4, (), (10 : Nat), ()⟩], hepsilon, ?_, rfl⟩
  refine course_wait_iff.mpr ⟨0, (), _, rfl, ?_⟩
  refine .again rfl rfl (by decide) rfl rfl (by decide) ?_
  exact .overslept (verdict_of_not_settled hsettled) rfl (by decide) rfl rfl (by decide)

end StabilityRule

end UiTree
