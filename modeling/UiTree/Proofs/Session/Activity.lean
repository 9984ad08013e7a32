import UiTree.Proofs.Outcome
import UiTree.Proofs.Session.Conduct
import UiTree.Proofs.Session.Settings

/-!
# Everything that happens to a cache

Clients give commands, operations wait for answers, answers come in, and the events of the cache are
received. While an operation waits, other commands may be given and may end, and operations that
wait may be answered in any order. An operation that runs while a provider is called is one that
begins and ends while another waits.

## Implementation notes

What a step does to the cache was said once, by the discipline of operations, so a property of all
reachable caches needs to be checked for the five changes of a cache only.
-/

namespace UiTree

/-- What clients ask of a session and of its cache. -/
inductive Command where
  | store (s : SnapshotRef)
  | evictStale (i : Identity)
  /-- Empty the cache, as the end of a session does. -/
  | reset
  | resolve (i : Identity) (recency : Recency) (q : CaptureRequest)
  | resolveText (settings : Settings) (text : String) (recency : Recency)
  | find (settings : Settings) (l : Locator) (scope : Option Identity)
  | findFirst (settings : Settings) (l : Locator) (scope : Option Identity)
  | pageSource (settings : Settings) (scope : Option Identity) (options : PageSourceOptions)
  | refresh (settings : Settings) (h : Handle) (recency : Recency)
  | relocate (settings : Settings) (h : Handle)
  | waitUntilStable (settings : Settings) (i : Identity) (timeout : Option Nat)

namespace Command

/-- What a command yields if it succeeds. -/
abbrev Result : Command → Type
  | store _ => Option Identity
  | evictStale _ | reset => Unit
  | resolve .. | resolveText .. => Handle
  | find .. => List Handle
  | findFirst .. | relocate .. => Option Handle
  | pageSource .. => String
  | refresh .. => Handle × Outcome Unit
  | waitUntilStable .. => Bool

/-- Carry out a command. -/
def perform : (k : Command) → CacheOperation k.Result
  | store s => Operation.update (·.store s)
  | evictStale i => Operation.update fun c => (c.evictStale i, ())
  | reset => Operation.update fun c => (c.reset, ())
  | resolve i recency q => ElementCache.resolve i recency q
  | resolveText settings text recency => Session.resolveText settings text recency
  | find settings l scope => Session.find settings l scope
  | findFirst settings l scope => Session.findFirst settings l scope
  | pageSource settings scope options => Session.pageSource settings scope options
  | refresh settings h recency => Session.refresh settings h recency
  | relocate settings h => Session.relocate settings h
  | waitUntilStable settings i timeout => Session.waitUntilStable settings i timeout

/-- Every command keeps the discipline of the cache. -/
theorem perform_obeys {admits : Answering} {P : Identity → Handle → Prop}
    (hP : Lasting admits P) (k : Command) : k.perform.Obeys hP.discipline fun _ => True := by
  cases k with
  | store s =>
      rw [perform]
      apply Operation.Obeys.change
      intro c
      exact Relation.ReflTransGen.single (.store s)
  | evictStale i =>
      rw [perform]
      apply Operation.Obeys.change
      intro c
      exact Relation.ReflTransGen.single (.evictStale i)
  | reset =>
      rw [perform]
      apply Operation.Obeys.change
      intro c
      exact Relation.ReflTransGen.single .reset
  | resolve i recency q =>
      exact (ElementCache.resolve_obeys hP.permits i recency trivial).mono fun _ _ => trivial
  | resolveText settings text recency =>
      exact (Session.resolveText_obeys hP.permits settings text recency).mono fun _ _ => trivial
  | find settings l scope =>
      exact (Session.find_obeys hP.permits settings l scope).mono fun _ _ => trivial
  | findFirst settings l scope =>
      exact (Session.findFirst_obeys hP.permits settings l scope).mono fun _ _ => trivial
  | pageSource settings scope options =>
      exact Session.pageSource_obeys hP.permits settings scope options
  | refresh settings h recency =>
      exact (Session.refresh_obeys hP.permits settings h recency).mono fun _ _ => trivial
  | relocate settings h =>
      exact (Session.relocate_obeys hP.permits settings h).mono fun _ _ => trivial
  | waitUntilStable settings i timeout =>
      exact Session.waitUntilStable_obeys hP.permits settings i timeout

end Command

/-- A capture of an element without content. -/
def SnapshotRef.bare (i : Identity) : SnapshotRef :=
  .ofRoot (CaptureRequest.snapshot {} 0 (.mk i.ref {} none))

theorem SnapshotRef.identity?_bare {i : Identity} (hi : i.element ≠ 0) :
    (bare i).node.ref.identity? = some i :=
  Identity.identity?_eq_some_iff.mpr ⟨rfl, hi⟩

/-- A command whose operation waits for an answer. -/
structure Waiting where
  command : Command
  question : Question
  resume : question.Answer → ElementCache → Dialogue ElementCache (Outcome command.Result)

/-- A cache and what goes on around it. -/
structure Activity where
  cache : ElementCache
  /-- The operations that wait. -/
  waiting : List Waiting := []
  /-- The events that were received. -/
  received : List CacheEvent := []
  /-- The number of events that were lost before events were last received. -/
  lost : Nat := 0

namespace Activity

/-- An operation, beside those that wait, goes on until it ends or waits in turn. -/
def settle (a : Activity) (others : List Waiting) (k : Command) :
    Dialogue ElementCache (Outcome k.Result) → Activity
  | .done _ c => { a with cache := c, waiting := others }
  | .ask q c resume => { a with cache := c, waiting := ⟨k, q, resume⟩ :: others }

/-- The events of the cache are received. -/
def receive (a : Activity) : Activity where
  cache := { a.cache with feed := a.cache.feed.receive.2 }
  waiting := a.waiting
  received := a.received ++ a.cache.feed.pending
  lost := a.lost + a.cache.feed.lost

/-- The events that were told so far, in order. -/
def told (a : Activity) : List CacheEvent := a.received ++ a.cache.feed.pending

/-- The number of events that were lost so far. -/
def missed (a : Activity) : Nat := a.lost + a.cache.feed.lost

/-- One step of what goes on. -/
inductive Step (admits : Answering) (a : Activity) : Activity → Prop where
  /-- A command is given. -/
  | start (k : Command) : Step admits a (a.settle a.waiting k (k.perform a.cache))
  /-- An operation that waits is answered. -/
  | answer {pre post : List Waiting} {w : Waiting} (hwaiting : a.waiting = pre ++ w :: post)
      (answer : w.question.Answer) (hadmits : admits w.question answer) :
      Step admits a (a.settle (pre ++ post) w.command (w.resume answer a.cache))
  | receive : Step admits a a.receive

/-- What can come about from an empty cache of some capacity with an empty feed. -/
inductive Reachable (admits : Answering) (capacity : Nat) : Activity → Prop where
  | create {c : ElementCache} {feedCapacity : Nat} {dropsOldest : Bool}
      (hc : ElementCache.create capacity { capacity := feedCapacity, dropsOldest } = .ok c) :
      Reachable admits capacity { cache := c }
  | step {a b : Activity} (ha : Reachable admits capacity a) (hstep : Step admits a b) :
      Reachable admits capacity b

/-- A session begins with a cache that is reachable. -/
theorem reachable_of_create {admits : Answering} {settings : Settings} {s : Session}
    (hs : Session.create settings = .ok s) :
    Reachable admits settings.elementCacheSize.toNat { cache := s.cache } := by
  rw [Session.create] at hs
  obtain ⟨checked, hchecked, hs⟩ := bind_eq_ok.mp hs
  obtain rfl := Settings.eq_of_checked hchecked
  obtain ⟨cache, hcache, hs⟩ := bind_eq_ok.mp hs
  obtain rfl := Except.ok.inj hs
  exact .create hcache

variable {admits : Answering} {capacity : Nat} {a b : Activity} {P : Identity → Handle → Prop}

/-- The entries have a lasting property, and the operations that wait keep the discipline when they
go on. -/
structure Orderly (hP : Lasting admits P) (capacity : Nat) (a : Activity) : Prop where
  holds : a.cache.Holds P
  capacity : a.cache.capacity = capacity
  waiting : ∀ w ∈ a.waiting, ∀ answer c, admits w.question answer → c.Holds P →
    (w.resume answer c).Obeys hP.discipline (fun _ => True) c

theorem settle_orderly (hP : Lasting admits P) (ha : a.Orderly hP capacity) {others : List Waiting}
    (hothers : ∀ w ∈ others, w ∈ a.waiting) {k : Command}
    {x : Dialogue ElementCache (Outcome k.Result)}
    (hx : x.Obeys hP.discipline (fun _ => True) a.cache) :
    (a.settle others k x).Orderly hP capacity ∧
      ElementCache.Changes P a.cache (a.settle others k x).cache := by
  cases x with
  | done r c =>
      obtain ⟨hholds, hcapacity⟩ := ha.holds.changes hP.captured hx.1
      exact ⟨⟨hholds, hcapacity.trans ha.capacity, fun w hw => ha.waiting w (hothers w hw)⟩, hx.1⟩
  | ask q c resume =>
      obtain ⟨hholds, hcapacity⟩ := ha.holds.changes hP.captured hx.1
      refine ⟨⟨hholds, hcapacity.trans ha.capacity, ?_⟩, hx.1⟩
      intro w hw
      obtain rfl | hw := List.mem_cons.mp hw
      · exact hx.2
      · exact ha.waiting w (hothers w hw)

/-- A step keeps the order, and the cache is changed by its five changes or its events are
received. -/
theorem Step.orderly (hP : Lasting admits P) (ha : a.Orderly hP capacity)
    (hstep : Step admits a b) :
    b.Orderly hP capacity ∧ (b = a.receive ∨
      ElementCache.Changes P a.cache b.cache ∧ b.received = a.received ∧ b.lost = a.lost) := by
  cases hstep with
  | start k =>
      have hx := (k.perform_obeys hP a.cache ha.holds).mono fun _ _ => trivial
      obtain ⟨horderly, hchanges⟩ := settle_orderly hP ha (fun _ hw => hw) hx
      refine ⟨horderly, Or.inr ⟨hchanges, ?_⟩⟩
      cases k.perform a.cache <;> exact ⟨rfl, rfl⟩
  | @answer pre post w hwaiting answer hadmits =>
      have hmem : w ∈ a.waiting := by simp [hwaiting]
      have hothers : ∀ w' ∈ pre ++ post, w' ∈ a.waiting := by
        intro w' hw'
        rw [hwaiting]
        exact List.perm_middle.mem_iff.mpr (List.mem_cons_of_mem _ hw')
      have hx := ha.waiting w hmem answer a.cache hadmits ha.holds
      obtain ⟨horderly, hchanges⟩ := settle_orderly hP ha hothers hx
      refine ⟨horderly, Or.inr ⟨hchanges, ?_⟩⟩
      cases w.resume answer a.cache <;> exact ⟨rfl, rfl⟩
  | receive =>
      exact ⟨⟨⟨ha.holds.sound, ha.holds.entries⟩, ha.capacity, ha.waiting⟩, Or.inl rfl⟩

/-- Whatever can come about is in order. -/
theorem Reachable.orderly (hP : Lasting admits P) (ha : Reachable admits capacity a) :
    a.Orderly hP capacity := by
  induction ha with
  | create hc =>
      obtain ⟨hsound, hcapacity, hheld, -⟩ := ElementCache.sound_create hc
      refine ⟨⟨hsound, ?_⟩, hcapacity, fun w hw => absurd hw List.not_mem_nil⟩
      rw [hheld]
      exact fun e he => absurd he List.not_mem_nil
  | step _ hstep ih => exact (hstep.orderly hP ih).1

theorem Reachable.store (ha : Reachable admits capacity a) (s : SnapshotRef) :
    Reachable admits capacity { a with cache := (a.cache.store s).1 } :=
  .step ha (.start (.store s))

/-- A cache of any capacity may come to hold a single captured node. -/
theorem exists_reachable_store (admits : Answering) (hpos : 0 < capacity) {s : SnapshotRef}
    {i : Identity} (hs : s.node.ref.identity? = some i) :
    ∃ c : ElementCache, Reachable admits capacity { cache := c } ∧
      c.held = [(i, .captured (some i) s)] ∧
        c.feed = Feed.send ⟨Session.feedCapacity, true, [], 0⟩ (.stored i) := by
  obtain ⟨c, hc, hheld, hfeed⟩ :=
    ElementCache.exists_create_store hpos ⟨Session.feedCapacity, true, [], 0⟩ hs
  exact ⟨(c.store s).1, (Reachable.create hc).store s, hheld, hfeed⟩

theorem exists_reachable_has (admits : Answering) {i : Identity} (hi : i.element ≠ 0) :
    ∃ c : ElementCache, Reachable admits 1 { cache := c } ∧
      (i, .captured (some i) (.bare i)) ∈ c.held ∧ c.has i = true := by
  obtain ⟨c, hc, hheld, -⟩ :=
    exists_reachable_store admits Nat.one_pos (SnapshotRef.identity?_bare hi)
  have hsound := (hc.orderly (lasting_true admits)).holds.sound
  have hmem : (i, Handle.captured (some i) (.bare i)) ∈ c.held := by
    rw [hheld]
    exact List.mem_singleton_self _
  exact ⟨c, hc, hmem, hsound.has_iff.mpr (ElementCache.mem_identities_iff.mpr ⟨_, hmem⟩)⟩

/-- A cache may come to hold two elements, the one that was stored last in front. -/
theorem exists_reachable_pair (admits : Answering) {i j : Identity} (hi : i.element ≠ 0)
    (hj : j.element ≠ 0) (hne : j ≠ i) :
    ∃ c : ElementCache, Reachable admits 2 { cache := c } ∧
      c.held = [(j, .captured (some j) (.bare j)), (i, .captured (some i) (.bare i))] := by
  obtain ⟨c, hc, hheld, -⟩ :=
    exists_reachable_store admits Nat.two_pos (SnapshotRef.identity?_bare hi)
  have horderly := hc.orderly (lasting_true admits)
  have hnew : j ∉ c.identities := by
    rw [ElementCache.mem_identities_iff, hheld]
    simp [hne]
  obtain ⟨-, -, -, hstored⟩ :=
    ElementCache.store_of_some horderly.holds.sound (SnapshotRef.identity?_bare hj)
  refine ⟨_, hc.store (.bare j), ?_⟩
  cases hstored with
  | replaced hmem => exact absurd hmem hnew
  | added _ hheld' => rw [hheld', hheld]
  | displaced _ hfull => rw [hheld, horderly.capacity, List.length_singleton] at hfull; omega

end Activity

end UiTree
