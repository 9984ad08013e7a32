import Mathlib
import UiTree.Session.Settings
import UiTree.Proofs.Outcome

/-!
# What members make of settings

The members of an object give settings: each member reads as the value of the setting that it names,
and a setting that no member names is as it was. The order of the members does not matter for that,
so settings that are written as an object, overridden and read again are those that the overriding
members give, and it makes no difference whether members override each other before or after.
-/

namespace UiTree

open Json (Value)

variable {s t u : Settings} {v : Value} {name : String} {setting other : Setting}
  {members patch more : List (String × Value)}

namespace Setting

/-- What a setting is set to, a count or a measure. -/
def amount (s : Settings) : Setting → UInt64 ⊕ Float
  | elementCacheSize => .inl s.elementCacheSize
  | snapshotMaxDepth => .inl s.snapshotMaxDepth
  | frameEpsilon => .inr s.frameEpsilon
  | stabilityPollIntervalMs => .inl s.stabilityPollIntervalMs
  | stabilityTimeoutMs => .inl s.stabilityTimeoutMs
  | axTimeoutMs => .inl s.axTimeoutMs

/-- What a value sets a setting to. -/
def amount? (v : Value) : Setting → Option (UInt64 ⊕ Float)
  | frameEpsilon => v.toMeasure?.map .inr
  | _ => v.toCount?.map .inl

theorem eq_of_amount_eq (h : ∀ setting : Setting, setting.amount s = setting.amount t) : s = t := by
  obtain ⟨a, b, c, d, e, f⟩ := s
  obtain ⟨a', b', c', d', e', f'⟩ := t
  cases h elementCacheSize
  cases h snapshotMaxDepth
  cases h frameEpsilon
  cases h stabilityPollIntervalMs
  cases h stabilityTimeoutMs
  cases h axTimeoutMs
  rfl

/-- A value that sets a setting to something can be given to it. -/
theorem exists_set? {x : UInt64 ⊕ Float} (h : setting.amount? v = some x) (s : Settings) :
    ∃ t, setting.set? s v = some t := by
  cases setting <;> obtain ⟨y, hy, -⟩ := Option.map_eq_some_iff.mp h <;>
    exact ⟨_, Option.map_eq_some_iff.mpr ⟨y, hy, rfl⟩⟩

/-- A setting that is given a value is set to it, and all others are as before. -/
theorem amount_of_set? (h : setting.set? s v = some t) :
    setting.amount? v = some (setting.amount t) ∧
      ∀ other, other ≠ setting → other.amount t = other.amount s := by
  cases setting <;> obtain ⟨y, hy, rfl⟩ := Option.map_eq_some_iff.mp h <;>
    refine ⟨Option.map_eq_some_iff.mpr ⟨y, hy, rfl⟩, fun other hother => ?_⟩ <;>
    cases other <;> first | rfl | exact absurd rfl hother

theorem name_injective (h : setting.name = other.name) : setting = other := by
  revert h
  cases setting <;> cases other <;> decide

theorem ofName?_eq_some_iff : ofName? name = some setting ↔ setting.name = name := by
  constructor
  · intro h
    exact eq_of_beq (List.find?_some (p := fun setting : Setting => setting.name == name) h)
  · rintro rfl
    cases setting <;> decide

/-- A setting is written as what it is set to, as far as that has a form. -/
theorem amount?_get (h : Number.isFinite s.frameEpsilon = true) (setting : Setting) :
    setting.amount? (setting.get s) = some (setting.amount s) := by
  cases setting with
  | frameEpsilon =>
      rw [get, measureValue, if_pos h]
      rfl
  | _ => rfl

end Setting

namespace Settings

/-- What members make of settings: every member reads as the value of the setting with its name, and
the settings without members are as before. -/
structure Gives (s : Settings) (members : List (String × Value)) (t : Settings) : Prop where
  named : ∀ m ∈ members, ∃ setting : Setting,
    setting.name = m.1 ∧ setting.amount? m.2 = some (setting.amount t)
  kept : ∀ setting : Setting, setting.name ∉ members.map Prod.fst →
    setting.amount t = setting.amount s

theorem gives_of_withMembers? (hnodup : (members.map Prod.fst).Nodup)
    (h : s.withMembers? members = some t) : s.Gives members t := by
  induction members generalizing s with
  | nil =>
      cases h
      exact ⟨fun _ hm => absurd hm List.not_mem_nil, fun _ _ => rfl⟩
  | cons m rest ih =>
      obtain ⟨name, v⟩ := m
      obtain ⟨hname, hnodup⟩ := List.nodup_cons.mp hnodup
      obtain ⟨setting, hsetting, h⟩ := Option.bind_eq_some_iff.mp h
      obtain ⟨s', hset, h⟩ := Option.bind_eq_some_iff.mp h
      have hrest := ih hnodup h
      have hsetting := Setting.ofName?_eq_some_iff.mp hsetting
      obtain ⟨hamount, hothers⟩ := Setting.amount_of_set? hset
      refine ⟨List.forall_mem_cons.mpr ⟨⟨setting, hsetting, ?_⟩, hrest.named⟩,
        fun other hother => ?_⟩
      · -- No further member has the name, so the setting stays as it is.
        rw [hamount, hrest.kept setting (hsetting ▸ hname)]
      · obtain ⟨hne, hother⟩ := not_or.mp (fun h => hother (List.mem_cons.mpr h))
        rw [hrest.kept other hother]
        refine hothers other fun heq => hne ?_
        rw [heq, hsetting]

theorem withMembers?_of_gives (hnodup : (members.map Prod.fst).Nodup) (h : s.Gives members t) :
    s.withMembers? members = some t := by
  induction members generalizing s with
  | nil =>
      have hsame := Setting.eq_of_amount_eq fun setting => h.kept setting List.not_mem_nil
      rw [hsame]
      rfl
  | cons m rest ih =>
      obtain ⟨name, v⟩ := m
      obtain ⟨hname, hnodup⟩ := List.nodup_cons.mp hnodup
      obtain ⟨⟨setting, hsetting, hamount⟩, hnamed⟩ := List.forall_mem_cons.mp h.named
      obtain ⟨s', hset⟩ := Setting.exists_set? hamount s
      obtain ⟨hamount', hothers⟩ := Setting.amount_of_set? hset
      have hrest : s'.Gives rest t := by
        refine ⟨hnamed, fun other hother => ?_⟩
        by_cases heq : other = setting
        · subst heq
          exact Option.some.inj (hamount.symm.trans hamount')
        · rw [hothers other heq]
          refine h.kept other fun hmem => ?_
          rcases List.mem_cons.mp hmem with hmem | hmem
          · exact heq (Setting.name_injective (hmem.trans hsetting.symm))
          · exact hother hmem
      rw [withMembers?, Setting.ofName?_eq_some_iff.mpr hsetting, Option.bind_eq_bind,
        Option.bind_some, hset]
      exact ih hnodup hrest

section Overlay

theorem names_putMember (name : String) (v : Value) (members : List (String × Value)) :
    (putMember name v members).map Prod.fst =
      if name ∈ members.map Prod.fst then members.map Prod.fst
      else members.map Prod.fst ++ [name] := by
  induction members with
  | nil => rfl
  | cons m rest ih =>
      obtain ⟨n, w⟩ := m
      by_cases hn : n = name
      · simp [putMember, hn]
      · have hne : ¬ name = n := Ne.symm hn
        simp only [putMember, if_neg hn, List.map_cons, ih, List.mem_cons, hne, false_or]
        split <;> rfl

theorem nodup_putMember (h : (members.map Prod.fst).Nodup) (name : String) (v : Value) :
    ((putMember name v members).map Prod.fst).Nodup := by
  rw [names_putMember]
  split
  · exact h
  · next hname =>
    refine List.nodup_append.mpr ⟨h, List.nodup_singleton name, fun n hn n' hn' heq => ?_⟩
    rw [List.mem_singleton.mp hn'] at heq
    exact hname (heq ▸ hn)

/-- A member that is put in takes the place of the one with its name. -/
theorem mem_putMember (h : (members.map Prod.fst).Nodup) {m : String × Value} :
    m ∈ putMember name v members ↔ m = (name, v) ∨ m ∈ members ∧ m.1 ≠ name := by
  induction members with
  | nil => simp [putMember]
  | cons first rest ih =>
      obtain ⟨n, w⟩ := first
      obtain ⟨hname, hnodup⟩ := List.nodup_cons.mp h
      by_cases hn : n = name
      · subst hn
        have hrest (hm : m ∈ rest) : m.1 ≠ n := by
          intro heq
          have hmem := List.mem_map_of_mem (f := Prod.fst) hm
          rw [heq] at hmem
          exact hname hmem
        rw [putMember, if_pos rfl, List.mem_cons, List.mem_cons]
        constructor
        · rintro (rfl | hm)
          · exact .inl rfl
          · exact .inr ⟨.inr hm, hrest hm⟩
        · rintro (rfl | ⟨rfl | hm, hne⟩)
          · exact .inl rfl
          · exact absurd rfl hne
          · exact .inr hm
      · rw [putMember, if_neg hn, List.mem_cons, List.mem_cons, ih hnodup]
        constructor
        · rintro (rfl | rfl | ⟨hm, hne⟩)
          · exact .inr ⟨.inl rfl, hn⟩
          · exact .inl rfl
          · exact .inr ⟨.inr hm, hne⟩
        · rintro (rfl | ⟨rfl | hm, hne⟩)
          · exact .inr (.inl rfl)
          · exact .inl rfl
          · exact .inr (.inr ⟨hm, hne⟩)

theorem nodup_overlay (h : (members.map Prod.fst).Nodup) (patch : List (String × Value)) :
    ((overlay members patch).map Prod.fst).Nodup := by
  induction patch generalizing members with
  | nil => exact h
  | cons m rest ih => exact ih (nodup_putMember h m.1 m.2)

/-- Members that override others stand beside those with other names. -/
theorem mem_overlay (h : (members.map Prod.fst).Nodup) (hpatch : (patch.map Prod.fst).Nodup)
    {m : String × Value} :
    m ∈ overlay members patch ↔ m ∈ patch ∨ m ∈ members ∧ m.1 ∉ patch.map Prod.fst := by
  induction patch generalizing members with
  | nil => simp [overlay]
  | cons first rest ih =>
      obtain ⟨n, w⟩ := first
      obtain ⟨hname, hnodup⟩ := List.nodup_cons.mp hpatch
      have hrest : m ∈ overlay members ((n, w) :: rest) ↔
          m ∈ overlay (putMember n w members) rest := Iff.rfl
      rw [hrest, ih (nodup_putMember h n w) hnodup, mem_putMember h, List.mem_cons,
        List.map_cons, List.mem_cons]
      constructor
      · rintro (hm | ⟨rfl | ⟨hm, hne⟩, hother⟩)
        · exact .inl (.inr hm)
        · exact .inl (.inl rfl)
        · exact .inr ⟨hm, not_or.mpr ⟨hne, hother⟩⟩
      · rintro ((rfl | hm) | ⟨hm, hother⟩)
        · exact .inr ⟨.inl rfl, hname⟩
        · exact .inl hm
        · obtain ⟨hne, hother⟩ := not_or.mp hother
          exact .inr ⟨.inr ⟨hm, hne⟩, hother⟩

theorem mem_names_overlay (h : (members.map Prod.fst).Nodup)
    (hpatch : (patch.map Prod.fst).Nodup) :
    name ∈ (overlay members patch).map Prod.fst ↔
      name ∈ patch.map Prod.fst ∨ name ∈ members.map Prod.fst := by
  constructor
  · intro hname
    obtain ⟨m, hm, rfl⟩ := List.mem_map.mp hname
    rcases (mem_overlay h hpatch).mp hm with hm | ⟨hm, -⟩
    · exact .inl (List.mem_map_of_mem hm)
    · exact .inr (List.mem_map_of_mem hm)
  · intro hname
    by_cases hpatched : name ∈ patch.map Prod.fst
    · obtain ⟨m, hm, rfl⟩ := List.mem_map.mp hpatched
      exact List.mem_map_of_mem ((mem_overlay h hpatch).mpr (.inl hm))
    · obtain ⟨m, hm, rfl⟩ := List.mem_map.mp (hname.resolve_left hpatched)
      exact List.mem_map_of_mem ((mem_overlay h hpatch).mpr (.inr ⟨hm, hpatched⟩))

end Overlay

section Merge

theorem map_fst_members (s : Settings) : s.members.map Prod.fst = Setting.all.map Setting.name := by
  rw [members, List.map_map]
  rfl

theorem nodup_members (s : Settings) : (s.members.map Prod.fst).Nodup := by
  rw [map_fst_members]
  decide

theorem mem_members {m : String × Value} :
    m ∈ s.members ↔ ∃ setting : Setting, m = (setting.name, setting.get s) := by
  have hall (setting : Setting) : setting ∈ Setting.all := by cases setting <;> decide
  rw [members, List.mem_map]
  exact ⟨fun ⟨setting, _, heq⟩ => ⟨setting, heq.symm⟩, fun ⟨setting, heq⟩ =>
    ⟨setting, hall setting, heq.symm⟩⟩

theorem name_mem_members (s : Settings) (setting : Setting) :
    setting.name ∈ s.members.map Prod.fst :=
  List.mem_map_of_mem (mem_members.mpr ⟨setting, rfl⟩)

/-- Settings that are written, overridden and read are those that the overriding members give. -/
theorem gives_overlay_iff (hfinite : Number.isFinite s.frameEpsilon = true)
    (hpatch : (patch.map Prod.fst).Nodup) :
    u.Gives (overlay s.members patch) t ↔ s.Gives patch t := by
  have hmem {m : String × Value} := mem_overlay (m := m) s.nodup_members hpatch
  constructor
  · intro h
    refine ⟨fun m hm => h.named m (hmem.mpr (.inl hm)), fun setting hsetting => ?_⟩
    obtain ⟨other, hname, hamount⟩ := h.named (setting.name, setting.get s)
      (hmem.mpr (.inr ⟨mem_members.mpr ⟨setting, rfl⟩, hsetting⟩))
    obtain rfl := Setting.name_injective hname
    exact (Option.some.inj ((Setting.amount?_get hfinite other).symm.trans hamount)).symm
  · intro h
    refine ⟨fun m hm => ?_, fun setting hsetting => ?_⟩
    · rcases hmem.mp hm with hm | ⟨hm, hother⟩
      · exact h.named m hm
      · obtain ⟨setting, rfl⟩ := mem_members.mp hm
        exact ⟨setting, rfl, by rw [Setting.amount?_get hfinite, h.kept setting hother]⟩
    · exact absurd ((mem_names_overlay s.nodup_members hpatch).mpr
        (.inr (s.name_mem_members setting))) hsetting

theorem ofMembers?_eq_some_iff (h : (members.map Prod.fst).Nodup) :
    ofMembers? members = some t ↔ ({} : Settings).Gives members t := by
  have hmembers : ofMembers? members = ({} : Settings).withMembers? members := if_pos h
  rw [hmembers]
  exact ⟨gives_of_withMembers? h, withMembers?_of_gives h⟩

/-- Settings pass the check as they are and with a finite threshold, or they are refused as an
argument. -/
theorem checked_cases (s : Settings) :
    (s.checked = .ok s ∧ Number.isFinite s.frameEpsilon = true) ∨
      ∃ fault, s.checked = .error (.invalidArgument fault) := by
  unfold checked
  split
  · exact .inr ⟨_, rfl⟩
  split
  · exact .inr ⟨_, rfl⟩
  split
  · exact .inr ⟨_, rfl⟩
  · next hepsilon _ =>
    simp only [Bool.or_eq_true, Bool.not_eq_true', not_or, Bool.not_eq_false] at hepsilon
    exact .inl ⟨rfl, hepsilon.1⟩

theorem eq_and_isFinite_of_checked (h : s.checked = .ok t) :
    s = t ∧ Number.isFinite s.frameEpsilon = true := by
  rcases s.checked_cases with ⟨hchecked, hfinite⟩ | ⟨fault, hchecked⟩
  · exact ⟨Except.ok.inj (hchecked.symm.trans h), hfinite⟩
  · cases hchecked.symm.trans h

/-- Checking leaves settings as they are. -/
theorem eq_of_checked (h : s.checked = .ok t) : s = t :=
  (eq_and_isFinite_of_checked h).1

theorem isFinite_of_checked (h : s.checked = .ok t) : Number.isFinite s.frameEpsilon = true :=
  (eq_and_isFinite_of_checked h).2

theorem exists_of_checked_error {e : Error} (h : s.checked = .error e) :
    ∃ fault, e = .invalidArgument fault := by
  rcases s.checked_cases with ⟨hchecked, -⟩ | ⟨fault, hchecked⟩
  · cases hchecked.symm.trans h
  · exact ⟨fault, Except.error.inj (h.symm.trans hchecked)⟩

theorem checkedRead_eq_ok_iff {r : Option Settings} :
    checkedRead r = .ok t ↔ r = some t ∧ t.checked = .ok t := by
  constructor
  · intro h
    cases r with
    | none => cases h
    | some s =>
        obtain rfl := eq_of_checked h
        exact ⟨rfl, h⟩
  · rintro ⟨rfl, h⟩
    exact h

/-- What is read fails only as an argument. -/
theorem exists_of_checkedRead_error {r : Option Settings} {e : Error}
    (h : checkedRead r = .error e) : ∃ fault, e = .invalidArgument fault := by
  cases r with
  | none =>
      cases h
      exact ⟨_, rfl⟩
  | some s => exact exists_of_checked_error h

/-- Members change settings to what they give, if that can be used. -/
theorem merge_eq_ok_iff (hfinite : Number.isFinite s.frameEpsilon = true)
    (hpatch : (patch.map Prod.fst).Nodup) :
    s.merge (.object patch) = .ok t ↔ s.Gives patch t ∧ t.checked = .ok t := by
  rw [merge, checkedRead_eq_ok_iff, ofMembers?_eq_some_iff (nodup_overlay s.nodup_members patch),
    gives_overlay_iff hfinite hpatch]

/-- Settings read from the text of an object are the defaults changed by the object. -/
theorem ofText_eq_merge {text : String} (hparse : Json.parse text = some (.object members))
    (hmembers : (members.map Prod.fst).Nodup) :
    ofText text = ({} : Settings).merge (.object members) := by
  have hfinite : Number.isFinite ({} : Settings).frameEpsilon = true := by decide
  have hread : ofMembers? members = ofMembers? (overlay ({} : Settings).members members) := by
    refine Option.ext fun t => ?_
    rw [ofMembers?_eq_some_iff hmembers, ofMembers?_eq_some_iff
      (nodup_overlay ({} : Settings).nodup_members members), gives_overlay_iff hfinite hmembers]
  rw [ofText, hparse, merge, ← hread]
  rfl

/-- Members that give settings one after the other give them at once, if the later ones override
the earlier ones. -/
theorem Gives.overlay (hpatch : (patch.map Prod.fst).Nodup) (hmore : (more.map Prod.fst).Nodup)
    (h : s.Gives patch t) (h' : t.Gives more u) : s.Gives (overlay patch more) u := by
  refine ⟨fun m hm => ?_, fun setting hsetting => ?_⟩
  · rcases (mem_overlay hpatch hmore).mp hm with hm | ⟨hm, hother⟩
    · exact h'.named m hm
    · obtain ⟨setting, hname, hamount⟩ := h.named m hm
      refine ⟨setting, hname, ?_⟩
      rw [hamount, h'.kept setting (hname ▸ hother)]
  · rw [mem_names_overlay hpatch hmore, not_or] at hsetting
    rw [h'.kept setting hsetting.1, h.kept setting hsetting.2]

/-- Both ways to apply an object agree: its text is read like its members change the defaults; and
two objects change usable settings one after the other like the first overridden by the second. -/
theorem apply_agree :
    (∀ text members, Json.parse text = some (.object members) → (members.map Prod.fst).Nodup →
      (∃ c, ofText text = .ok c ∧ ({} : Settings).merge (.object members) = .ok c) ∨
      ∃ fault fault', ofText text = .error (.invalidArgument fault) ∧
        ({} : Settings).merge (.object members) = .error (.invalidArgument fault')) ∧
    ∀ c c₁ c₂ : Settings, c.checked = .ok c → ∀ p q : List (String × Value),
      (p.map Prod.fst).Nodup → (q.map Prod.fst).Nodup →
      c.merge (.object p) = .ok c₁ → c₁.merge (.object q) = .ok c₂ →
      c.merge (.object (Settings.overlay p q)) = .ok c₂ ∧
        (∀ setting : Setting, setting.name ∉ p.map Prod.fst → setting.name ∉ q.map Prod.fst →
          setting.amount c₂ = setting.amount c) ∧
        c₂.checked = .ok c₂ := by
  constructor
  · intro text members hparse hmembers
    have hsame := ofText_eq_merge hparse hmembers
    cases hmerge : ({} : Settings).merge (.object members) with
    | ok c => exact .inl ⟨c, hsame.trans hmerge, rfl⟩
    | error e =>
        obtain ⟨fault, rfl⟩ := exists_of_checkedRead_error hmerge
        exact .inr ⟨fault, fault, hsame.trans hmerge, rfl⟩
  · intro c c₁ c₂ hc p q hp hq h₁ h₂
    have hfinite := isFinite_of_checked hc
    obtain ⟨hgives₁, hc₁⟩ := (merge_eq_ok_iff hfinite hp).mp h₁
    obtain ⟨hgives₂, hc₂⟩ := (merge_eq_ok_iff (isFinite_of_checked hc₁) hq).mp h₂
    have hgives := hgives₁.overlay hp hq hgives₂
    refine ⟨(merge_eq_ok_iff hfinite (nodup_overlay hp q)).mpr ⟨hgives, hc₂⟩, ?_, hc₂⟩
    intro setting hsp hsq
    rw [hgives₂.kept setting hsq, hgives₁.kept setting hsp]

theorem apply_agree_depth :
    (ofText "\x7b\"snapshotMaxDepth\":5\x7d" = .ok { snapshotMaxDepth := 5 } ∧
      ({} : Settings).merge (.object [("snapshotMaxDepth", .ofCount 5)]) =
        .ok { snapshotMaxDepth := 5 }) ∧
    ({} : Settings).merge (.object (Settings.overlay
      [("snapshotMaxDepth", .ofCount 5), ("axTimeoutMs", .ofCount 7)]
      [("snapshotMaxDepth", .ofCount 6)])) =
        .ok { snapshotMaxDepth := 6, axTimeoutMs := 7 } := by
  have hparse : Json.parse "\x7b\"snapshotMaxDepth\":5\x7d" =
      some (.object [("snapshotMaxDepth", .ofCount 5)]) := by cbv
  have hmerge : ({} : Settings).merge (.object [("snapshotMaxDepth", .ofCount 5)]) =
      .ok { snapshotMaxDepth := 5 } := rfl
  have htext : ofText "\x7b\"snapshotMaxDepth\":5\x7d" = .ok { snapshotMaxDepth := 5 } := by
    obtain ⟨c, htext, hsame⟩ | ⟨_, _, -, hfailed⟩ :=
      apply_agree.1 _ _ hparse (List.nodup_singleton _)
    · obtain rfl := Except.ok.inj (hmerge.symm.trans hsame)
      exact htext
    · cases hmerge.symm.trans hfailed
  refine ⟨⟨htext, hmerge⟩, ?_⟩
  have hfirst : ({} : Settings).merge
      (.object [("snapshotMaxDepth", .ofCount 5), ("axTimeoutMs", .ofCount 7)]) =
        .ok { snapshotMaxDepth := 5, axTimeoutMs := 7 } := rfl
  have hsecond : ({ snapshotMaxDepth := 5, axTimeoutMs := 7 } : Settings).merge
      (.object [("snapshotMaxDepth", .ofCount 6)]) =
        .ok { snapshotMaxDepth := 6, axTimeoutMs := 7 } := rfl
  exact (apply_agree.2 {} _ _ rfl _ _ (by decide) (by decide) hfirst hsecond).1

end Merge

end Settings

end UiTree
