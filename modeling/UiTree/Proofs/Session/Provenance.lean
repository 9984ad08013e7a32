import UiTree.Proofs.Session.Lifecycle

/-!
# Where the snapshots of a session come from

Clients who work with a cache through its session only cannot put snapshots of their own into it.
What is cached, and what they are handed, was captured by the session, with the frame and the texts
of every node. So there is all that it takes to look for an element again, whatever its locator was
interested in.

## Implementation notes

A command owes the others that the cache holds nothing else, and it may count on the same of every
cache that it finds with an answer. What a command is given by its client does not matter for that:
what it has to say of the handles that it returns is the only place where the given handle is asked
for.
-/

namespace UiTree

section

variable {σ α : Type} {d : Discipline σ} {post : α → Prop} {s t : σ} {a : α}
  {history : List (Exchange σ)}

/-- The answers that a discipline counts on, with states that it counts on. -/
def Discipline.Allows (d : Discipline σ) (history : List (Exchange σ)) : Prop :=
  ∀ x ∈ history, d.admits x.question x.answer ∧ d.invariant x.found

theorem Dialogue.Obeys.of_course {x : Dialogue σ α} (hx : x.Obeys d post s)
    (hcourse : x.Course history a t) (hhistory : d.Allows history) : post a := by
  induction hcourse generalizing s with
  | done => exact hx.2
  | ask _ ih =>
      obtain ⟨⟨hadmits, hfound⟩, hrest⟩ := List.forall_mem_cons.mp hhistory
      exact ih (hx.2 _ _ hadmits hfound) hrest

/-- An operation that keeps a discipline succeeds with what it is said to succeed with, if it is
answered as the discipline says. -/
theorem Operation.Obeys.of_course {m : Operation σ α} (hm : m.Obeys d post) (hs : d.invariant s)
    (hcourse : m.Course s history (.ok a) t) (hhistory : d.Allows history) : post a :=
  Dialogue.Obeys.of_course (hm s hs) hcourse hhistory a rfl

end

variable {admits : Answering}

/-- The snapshot of a capture that was answered, which holds what it takes to look for its nodes
again. -/
def Snapshot.Traceable (admits : Answering) (s : Snapshot) : Prop :=
  ∃ q : CaptureRequest, (∀ a ∈ AttributeSet.relocation, a ∈ q.attributes) ∧ q.Yields admits s

/-- The node of a handle can be looked for again, if the handle has one. -/
def Handle.Traceable (admits : Answering) (h : Handle) : Prop :=
  ∀ s, h.snapshot = some s → s.tree.Traceable admits

/-- Nothing but traceable handles is cached. -/
def ElementCache.Traceable (admits : Answering) (c : ElementCache) : Prop :=
  c.Holds fun _ h => h.Traceable admits

/-- Operations that keep what is cached traceable. -/
def tracing (admits : Answering) : Discipline ElementCache :=
  .keeping admits (ElementCache.Traceable admits)

namespace Handle

variable {h h' : Handle} {s : SnapshotRef}

theorem traceable_unresolved (i : Identity) : (unresolved i).Traceable admits :=
  fun _ hs => by cases hs

theorem traceable_captured {i : Option Identity} (hs : s.tree.Traceable admits) :
    (captured i s).Traceable admits := by
  intro s' hs'
  obtain rfl := Option.some.inj hs'
  exact hs

theorem traceable_of_refreshed (hs : s.tree.Traceable admits)
    (hrefreshed : h.refreshed s = .ok h') : h'.Traceable admits := by
  rw [refreshed] at hrefreshed
  split at hrefreshed
  · cases hrefreshed
  · obtain rfl := Except.ok.inj hrefreshed
    exact traceable_captured (i := h.identity) hs

theorem Traceable.adopted {resolved : Handle} (hresolved : resolved.Traceable admits)
    (hadopted : h.adopted resolved = .ok h') : h'.Traceable admits := by
  obtain ⟨s, hs, rfl⟩ := adopted_ok hadopted
  exact traceable_captured (hresolved s hs)

theorem Traceable.gone (hh : h.Traceable admits) : h.gone.Traceable admits :=
  hh

end Handle

theorem CaptureRequest.Yields.traceable {q : CaptureRequest} {s : Snapshot}
    (hs : q.Yields admits s) (hq : ∀ a ∈ AttributeSet.relocation, a ∈ q.attributes) :
    s.Traceable admits :=
  ⟨q, hq, hs⟩

theorem Handle.Yielded.traceable {h : Handle}
    (hh : h.Yielded admits fun q => ∀ a ∈ AttributeSet.relocation, a ∈ q.attributes) :
    h.Traceable admits := by
  obtain ⟨q, s, hq, hs, rfl⟩ := hh
  exact traceable_captured (hs.traceable hq)

/-- All that sessions do keeps what is cached traceable. -/
theorem tracing_permits (admits : Answering) :
    (tracing admits).Permits (fun q => ∀ a ∈ AttributeSet.relocation, a ∈ q.attributes)
      fun _ h => h.Traceable admits where
  relocation := id
  store {_ s} _ hq hs hc :=
    (ElementCache.Holds.store hc fun _ _ => Handle.traceable_captured (hs.traceable hq)).1
  evictStale i _ hc := (hc.evictStale i).1
  use i _ hc := ⟨fun hc => (hc.use i).1, (ElementCache.Holds.use hc i).2.2⟩
  refreshed {i _ _ q now raw} hq _ hraw hrefreshed := by
    have hs : q.Yields admits (q.snapshot now raw) := ⟨i.ref, raw, now, hraw, rfl⟩
    exact Handle.traceable_of_refreshed (hs.traceable hq) hrefreshed
  overwrite _ hh hc := (hc.overwrite hh).1

/-- Clients who work with the session only store nothing themselves, and a session captures a cached
element with all attributes. -/
def Command.OfSession : Command → Prop
  | .store _ => False
  | .resolve _ _ q => ∃ settings : Settings, q = settings.captureRequest .all
  | _ => True

/-- What a session does keeps the cached handles traceable, and so are the handles that it returns,
if the handle that it was given is. -/
theorem Command.OfSession.traces {k : Command} (hk : k.OfSession) :
    k.perform.Obeys (tracing admits) fun result =>
      (∀ h, k.takes = some h → h.Traceable admits) →
        ∀ h ∈ k.returns result, h.Traceable admits := by
  cases k with
  | store => exact hk.elim
  | evictStale i =>
      rw [perform]
      refine (Operation.Obeys.change fun c hc => (hc.evictStale i).1).mono fun _ _ _ h hh => ?_
      exact absurd hh List.not_mem_nil
  | reset =>
      rw [perform]
      refine (Operation.Obeys.change fun c hc => hc.reset.1).mono fun _ _ _ h hh => ?_
      exact absurd hh List.not_mem_nil
  | resolve i recency q =>
      obtain ⟨settings, rfl⟩ := hk
      refine (Session.resolve_obeys (tracing_permits admits) settings i recency).mono ?_
      exact fun h hh _ => List.forall_mem_singleton.mpr hh
  | resolveText settings text recency =>
      refine (Session.resolveText_obeys (tracing_permits admits) settings text recency).mono ?_
      rintro h ⟨i, hh⟩ _
      exact List.forall_mem_singleton.mpr hh
  | find settings l scope =>
      refine (Session.find_obeys (tracing_permits admits) settings l scope).mono ?_
      exact fun hs hall _ h hh => (hall h hh).traceable
  | findFirst settings l scope =>
      refine (Session.findFirst_obeys (tracing_permits admits) settings l scope).mono ?_
      exact fun found hall _ h hh => (hall h hh).traceable
  | pageSource settings scope options =>
      refine (Session.pageSource_obeys (tracing_permits admits) settings scope options).mono ?_
      exact fun _ _ _ h hh => absurd hh List.not_mem_nil
  | refresh settings h recency =>
      refine (Session.refresh_obeys (tracing_permits admits) settings h recency).mono ?_
      intro result hresult htakes
      have hh : h.Traceable admits := htakes h rfl
      have hnew : result.1.Traceable admits := by
        obtain hsame | hgone | hyielded | ⟨i, resolved, hresolved, hadopted⟩ := hresult
        · rwa [hsame]
        · rw [hgone]
          exact hh.gone
        · exact hyielded.traceable
        · exact hresolved.adopted hadopted
      exact List.forall_mem_singleton.mpr hnew
  | relocate settings h =>
      refine (Session.relocate_obeys (tracing_permits admits) settings h).mono ?_
      exact fun found hall _ h hh => (hall h hh).traceable
  | waitUntilStable settings i timeout =>
      refine (Session.waitUntilStable_obeys (tracing_permits admits) settings i timeout).mono ?_
      exact fun _ _ _ h hh => absurd hh List.not_mem_nil

namespace Activity

variable {capacity : Nat} {a : Activity}

/-- What can come about from an empty cache if clients work with the session only. -/
inductive Managed (admits : Answering) (capacity : Nat) : Activity → Prop where
  | create {c : ElementCache} {feedCapacity : Nat} {dropsOldest : Bool}
      (hc : ElementCache.create capacity { capacity := feedCapacity, dropsOldest } = .ok c) :
      Managed admits capacity { cache := c }
  | start {a : Activity} (ha : Managed admits capacity a) {k : Command} (hk : k.OfSession) :
      Managed admits capacity (a.settle a.waiting k (k.perform a.cache))
  | answer {a : Activity} (ha : Managed admits capacity a) {pre post : List Waiting} {w : Waiting}
      (hwaiting : a.waiting = pre ++ w :: post) (answer : w.question.Answer)
      (hadmits : admits w.question answer) :
      Managed admits capacity (a.settle (pre ++ post) w.command (w.resume answer a.cache))
  | receive {a : Activity} (ha : Managed admits capacity a) : Managed admits capacity a.receive

theorem Managed.reachable (ha : Managed admits capacity a) : Reachable admits capacity a := by
  induction ha with
  | create hc => exact .create hc
  | start _ _ ih => exact .step ih (.start _)
  | answer _ hwaiting answer hadmits ih => exact .step ih (.answer hwaiting answer hadmits)
  | receive _ ih => exact .step ih .receive

/-- What is cached is traceable, and stays so when the operations that wait go on. -/
structure Traceable (admits : Answering) (a : Activity) : Prop where
  cache : a.cache.Traceable admits
  waiting : ∀ w ∈ a.waiting, ∀ answer c, admits w.question answer → c.Traceable admits →
    (w.resume answer c).Obeys (tracing admits) (fun _ => True) c

theorem Traceable.settle (ha : a.Traceable admits) {others : List Waiting}
    (hothers : ∀ w ∈ others, w ∈ a.waiting) {k : Command}
    {x : Dialogue ElementCache (Outcome k.Result)}
    (hx : x.Obeys (tracing admits) (fun _ => True) a.cache) :
    (a.settle others k x).Traceable admits := by
  cases x with
  | done r c => exact ⟨hx.1 ha.cache, fun w hw => ha.waiting w (hothers w hw)⟩
  | ask q c resume =>
      refine ⟨hx.1 ha.cache, List.forall_mem_cons.mpr ⟨?_, ?_⟩⟩
      · exact hx.2
      · exact fun w hw => ha.waiting w (hothers w hw)

theorem Managed.traceable (ha : Managed admits capacity a) : a.Traceable admits := by
  induction ha with
  | create hc =>
      obtain ⟨hsound, -, hheld, -⟩ := ElementCache.sound_create hc
      refine ⟨⟨hsound, ?_⟩, fun w hw => absurd hw List.not_mem_nil⟩
      rw [hheld]
      exact fun e he => absurd he List.not_mem_nil
  | @start a _ k hk ih =>
      exact ih.settle (fun _ hw => hw) ((hk.traces a.cache ih.cache).mono fun _ _ => trivial)
  | @answer a _ pre post w hwaiting answer hadmits ih =>
      have hothers : ∀ w' ∈ pre ++ post, w' ∈ a.waiting := by
        intro w' hw'
        rw [hwaiting]
        exact List.perm_middle.mem_iff.mpr (List.mem_cons_of_mem _ hw')
      have hw : w ∈ a.waiting := by
        rw [hwaiting]
        exact List.mem_append_right _ List.mem_cons_self
      exact ih.settle hothers (ih.waiting w hw answer a.cache hadmits ih.cache)
  | receive _ ih => exact ⟨⟨ih.cache.sound, ih.cache.entries⟩, ih.waiting⟩

end Activity

namespace Handle

/-- How clients come by handles if they work with the session only. -/
inductive Produced (admits : Answering) (capacity : Nat) : Handle → Prop where
  /-- They make one of an identity. -/
  | unresolved (i : Identity) : Produced admits capacity (.unresolved i)
  /-- They are shown what is cached. -/
  | cached {a : Activity} (ha : Activity.Managed admits capacity a) {h : Handle}
      (hmem : h ∈ a.cache.handles) : Produced admits capacity h
  /-- A command returns it. What others do while the command waits, they do through the session,
  too. -/
  | returned {a : Activity} (ha : Activity.Managed admits capacity a) {k : Command}
      (hk : k.OfSession) (htakes : ∀ h, k.takes = some h → Produced admits capacity h)
      {history : List (Exchange ElementCache)} {result : k.Result} {c : ElementCache}
      (hcourse : k.perform.Course a.cache history (.ok result) c)
      (hhistory : ∀ x ∈ history, admits x.question x.answer ∧
        ∃ b, Activity.Managed admits capacity b ∧ b.cache = x.found)
      {h : Handle} (hmem : h ∈ k.returns result) : Produced admits capacity h

variable {capacity : Nat} {h : Handle}

/-- Whatever a session hands out was captured with all that it takes to look for it again. -/
theorem Produced.traceable (hproduced : Produced admits capacity h) : h.Traceable admits := by
  induction hproduced with
  | unresolved i => exact traceable_unresolved i
  | cached ha hmem =>
      obtain ⟨e, hheld, rfl⟩ := List.mem_map.mp hmem
      exact ha.traceable.cache.entries e hheld
  | returned ha hk _ hcourse hhistory hmem ih =>
      refine hk.traces.of_course ha.traceable.cache hcourse ?_ ih _ hmem
      intro x hx
      obtain ⟨hadmits, b, hb, hcache⟩ := hhistory x hx
      exact ⟨hadmits, hcache ▸ hb.traceable.cache⟩

end Handle

end UiTree
