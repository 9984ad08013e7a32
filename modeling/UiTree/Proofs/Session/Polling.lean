import UiTree.Proofs.Session.Course
import UiTree.Session.Stability

/-!
# The polls of a wait

A wait for an element to settle is a row of polls with pauses between them. Two polls in a row whose
readings agree decide it, and so does a poll that fails otherwise than for want of time. The first
poll that decides is the last one. A row without such a poll is cut off by the deadline.

## Implementation notes

What a row of polls decides is said of the answers alone. A reading can be compared only with the
answer just before it, so a poll that found no time to answer stands between the readings around it.
The time is what the wait itself takes it to be: it does not go back, and passes with every pause.
-/

namespace UiTree

variable {σ : Type}

/-- What a poll was answered with. -/
abbrev Poll := Except ProviderError RawNode

namespace Exchange

/-- The answer to a capture. -/
def poll? : Exchange σ → Option Poll
  | ⟨.capture _ _ _ _, _, answer, _⟩ => some answer
  | ⟨.activeRoots, _, _, _⟩ | ⟨.time, _, _, _⟩ | ⟨.sleep _, _, _, _⟩ => none

/-- The time after an exchange that began at the time `now`. -/
def clock (now : Nat) : Exchange σ → Nat
  | ⟨.time, _, answer, _⟩ => max now answer
  | ⟨.sleep pause, _, answer, _⟩ => max (now + max pause 1) answer
  | ⟨.activeRoots, _, _, _⟩ | ⟨.capture _ _ _ _, _, _, _⟩ => now

/-- A later poll among some exchanges that begin with no poll. -/
theorem exists_of_cons_eq_append {x y : Exchange σ} {earlier later history : List (Exchange σ)}
    (hy : y.poll? = none) (h : y :: history = earlier ++ x :: later) (hx : x.poll?.isSome) :
    ∃ between, earlier = y :: between ∧ history = between ++ x :: later := by
  obtain ⟨-, hhead⟩ | ⟨between, hearlier, hrest⟩ := List.cons_eq_append_iff.mp h
  · obtain ⟨rfl, -⟩ := List.cons.inj hhead
    rw [hy] at hx
    cases hx
  · exact ⟨between, hearlier, hrest⟩

end Exchange

/-- The answers to the captures among some exchanges, in order. -/
def polls (history : List (Exchange σ)) : List Poll :=
  history.filterMap Exchange.poll?

/-- The time after some exchanges that began at the time `now`. -/
def clockAfter (now : Nat) (history : List (Exchange σ)) : Nat :=
  history.foldl Exchange.clock now

section

variable {target : NodeRef} {attributes : AttributeSet} {maxDepth budget pause now : Nat}
  {s found : σ} {answer : Poll} {time : Nat} {history : List (Exchange σ)}

@[simp] theorem polls_nil : polls ([] : List (Exchange σ)) = [] := rfl

@[simp] theorem polls_capture :
    polls (⟨.capture target attributes maxDepth budget, s, answer, found⟩ :: history) =
      answer :: polls history := rfl

@[simp] theorem polls_time :
    polls (⟨.time, s, time, found⟩ :: history) = polls history := rfl

@[simp] theorem polls_sleep :
    polls (⟨.sleep pause, s, time, found⟩ :: history) = polls history := rfl

@[simp] theorem clockAfter_nil : clockAfter now ([] : List (Exchange σ)) = now := rfl

@[simp] theorem clockAfter_capture :
    clockAfter now (⟨.capture target attributes maxDepth budget, s, answer, found⟩ :: history) =
      clockAfter now history := rfl

@[simp] theorem clockAfter_time :
    clockAfter now (⟨.time, s, time, found⟩ :: history) = clockAfter (max now time) history := rfl

@[simp] theorem clockAfter_sleep :
    clockAfter now (⟨.sleep pause, s, time, found⟩ :: history) =
      clockAfter (max (now + max pause 1) time) history := rfl

end

/-- The reading that an answer carries. -/
def Poll.reading? : Poll → Option Properties
  | .ok raw => some raw.properties
  | .error _ => none

/-- The reading that the next poll is compared with. -/
def lastReading (answers : List Poll) : Option Properties :=
  answers.getLast?.bind Poll.reading?

theorem lastReading_concat (answers : List Poll) (answer : Poll) :
    lastReading (answers ++ [answer]) = answer.reading? := by
  rw [lastReading, List.getLast?_concat, Option.bind_some]

theorem lastReading_eq_some_iff {answers : List Poll} {p : Properties} :
    lastReading answers = some p ↔
      ∃ earlier raw, answers = earlier ++ [.ok raw] ∧ raw.properties = p := by
  constructor
  · intro h
    obtain ⟨answer, hlast, hreading⟩ := Option.bind_eq_some_iff.mp h
    obtain ⟨earlier, rfl⟩ := List.getLast?_eq_some_iff.mp hlast
    cases answer with
    | ok raw => exact ⟨earlier, raw, rfl, Option.some.inj hreading⟩
    | error p => cases hreading
  · rintro ⟨earlier, raw, rfl, rfl⟩
    exact lastReading_concat earlier (.ok raw)

namespace StabilityRule

variable {rule : StabilityRule} {target : NodeRef} {deadline now timeout : Nat}
  {previous reading : Option Properties} {answers before : List Poll} {answer : Poll}
  {d r : Outcome Bool} {s t : σ} {history : List (Exchange σ)}

/-- The last of some answers decides the wait. -/
inductive Decides (rule : StabilityRule) (target : NodeRef) : List Poll → Outcome Bool → Prop where
  /-- It is a reading that agrees with the reading just before it. -/
  | settled (earlier : List Poll) {a b : RawNode}
      (h : a.properties.settled b.properties rule.epsilon) :
      Decides rule target (earlier ++ [.ok a] ++ [.ok b]) (.ok true)
  /-- It is a failure, and not for want of time. -/
  | refused (earlier : List Poll) {p : ProviderError} (h : ∀ budget, p ≠ .timeout budget) :
      Decides rule target (earlier ++ [.error p]) (.error (p.toError target))

/-- How a verdict ends the wait, unless it goes on. -/
def Verdict.decision? : Verdict → Option (Outcome Bool)
  | .settled => some (.ok true)
  | .failed e => some (.error e)
  | .unsettled _ => none

theorem Verdict.decision?_ne_false (v : Verdict) : v.decision? ≠ some (.ok false) := by
  cases v <;> exact nofun

theorem not_decides_nil : ¬ rule.Decides target [] d := by
  intro h
  generalize hanswers : ([] : List Poll) = answers at h
  cases h <;> simp at hanswers

/-- A row of two readings decides exactly if they agree. -/
theorem decides_readings_iff {a b : RawNode} :
    rule.Decides target (before ++ [.ok a] ++ [.ok b]) d ↔
      a.properties.settled b.properties rule.epsilon ∧ d = .ok true := by
  constructor
  · intro h
    generalize hanswers : before ++ [.ok a] ++ [.ok b] = answers at h
    cases h with
    | settled earlier h =>
        obtain ⟨hbefore, hb⟩ := List.append_inj' hanswers rfl
        obtain ⟨-, ha⟩ := List.append_inj' hbefore rfl
        cases hb
        cases ha
        exact ⟨h, rfl⟩
    | refused earlier h =>
        obtain ⟨-, hb⟩ := List.append_inj' hanswers rfl
        cases hb
  · rintro ⟨h, rfl⟩
    exact .settled before h

theorem verdict_of_settled {p : Properties} {raw : RawNode}
    (h : p.settled raw.properties rule.epsilon) :
    rule.verdict target (some p) (.ok raw) = .settled := by
  rw [verdict, Option.any_some, if_pos h]

theorem verdict_of_not_settled {p : Properties} {raw : RawNode}
    (h : ¬ p.settled raw.properties rule.epsilon) :
    rule.verdict target (some p) (.ok raw) = .unsettled (some raw.properties) := by
  rw [verdict, Option.any_some, if_neg h]

/-- A wait takes the verdict of a poll on the answers so far. -/
theorem decides_concat_iff :
    rule.Decides target (before ++ [answer]) d ↔
      (rule.verdict target (lastReading before) answer).decision? = some d := by
  cases answer with
  | error p =>
      constructor
      · intro h
        generalize hanswers : before ++ [.error p] = answers at h
        cases h with
        | settled earlier h =>
            obtain ⟨-, hp⟩ := List.append_inj' hanswers rfl
            cases hp
        | refused earlier h =>
            obtain ⟨-, hp⟩ := List.append_inj' hanswers rfl
            cases hp
            cases p with
            | timeout budget => exact absurd rfl (h budget)
            | notFound => rfl
            | failed reason => rfl
      · intro h
        cases p with
        | timeout budget => cases h
        | notFound =>
            obtain rfl := Option.some.inj h
            exact .refused before fun _ => nofun
        | failed reason =>
            obtain rfl := Option.some.inj h
            exact .refused before fun _ => nofun
  | ok b =>
      cases hlast : lastReading before with
      | some p =>
          obtain ⟨earlier, a, rfl, rfl⟩ := lastReading_eq_some_iff.mp hlast
          rw [decides_readings_iff]
          by_cases h : a.properties.settled b.properties rule.epsilon
          · rw [verdict_of_settled h]
            simp only [h, true_and, Verdict.decision?, Option.some.injEq, eq_comm]
          · rw [verdict_of_not_settled h]
            simp only [h, false_and, Verdict.decision?, reduceCtorEq]
      | none =>
          constructor
          · intro h
            generalize hanswers : before ++ [.ok b] = answers at h
            cases h with
            | settled earlier h =>
                obtain ⟨rfl, -⟩ := List.append_inj' hanswers rfl
                rw [lastReading_concat] at hlast
                cases hlast
            | refused earlier h =>
                obtain ⟨-, hp⟩ := List.append_inj' hanswers rfl
                cases hp
          · intro h
            simp [verdict, Verdict.decision?] at h

theorem not_decides_of_unsettled
    (h : rule.verdict target (lastReading before) answer = .unsettled reading) :
    ¬ rule.Decides target (before ++ [answer]) d := by
  rw [decides_concat_iff, h]
  exact nofun

/-- A poll that decides nothing is what the next one is compared with. -/
theorem reading_of_unsettled (h : rule.verdict target previous answer = .unsettled reading) :
    reading = answer.reading? := by
  cases answer with
  | ok raw =>
      rw [verdict] at h
      split at h
      · cases h
      · exact (Verdict.unsettled.inj h).symm
  | error p =>
      cases p with
      | timeout budget => exact (Verdict.unsettled.inj h).symm
      | notFound => cases h
      | failed reason => cases h

/-- What a poll at the time `now` asks. -/
abbrev pollQuestion (rule : StabilityRule) (target : NodeRef) (deadline now : Nat) : Question :=
  .capture target .stability 0 (min rule.axTimeout (deadline - now))

/-- How polling goes on from the time `now`, after the previous reading. -/
inductive Polling (rule : StabilityRule) (target : NodeRef) (deadline : Nat) :
    Nat → Option Properties → σ → List (Exchange σ) → Outcome Bool → σ → Prop where
  /-- The poll decides. -/
  | decided {now : Nat} {previous : Option Properties} {s t : σ} {answer : Poll} {r : Outcome Bool}
      (h : (rule.verdict target previous answer).decision? = some r) :
      Polling rule target deadline now previous s
        [⟨rule.pollQuestion target deadline now, s, answer, t⟩] r t
  /-- The time is over when the poll is answered. -/
  | expired {now time read : Nat} {previous reading : Option Properties} {s u t : σ} {answer : Poll}
      (h : rule.verdict target previous answer = .unsettled reading)
      (hread : read = max now time) (hover : deadline ≤ read) :
      Polling rule target deadline now previous s
        [⟨rule.pollQuestion target deadline now, s, answer, u⟩, ⟨.time, u, time, t⟩] (.ok false) t
  /-- The time is over after the pause. -/
  | overslept {now time read pause waking woken : Nat} {previous reading : Option Properties}
      {s u v t : σ} {answer : Poll}
      (h : rule.verdict target previous answer = .unsettled reading)
      (hread : read = max now time) (hleft : read < deadline)
      (hpause : pause = min rule.pollInterval (deadline - read))
      (hwoken : woken = max (read + max pause 1) waking) (hover : deadline ≤ woken) :
      Polling rule target deadline now previous s
        [⟨rule.pollQuestion target deadline now, s, answer, u⟩, ⟨.time, u, time, v⟩,
          ⟨.sleep pause, v, waking, t⟩] (.ok false) t
  /-- There is time for another poll. -/
  | again {now time read pause waking woken : Nat} {previous reading : Option Properties}
      {s u v w t : σ} {answer : Poll} {rest : List (Exchange σ)} {r : Outcome Bool}
      (h : rule.verdict target previous answer = .unsettled reading)
      (hread : read = max now time) (hleft : read < deadline)
      (hpause : pause = min rule.pollInterval (deadline - read))
      (hwoken : woken = max (read + max pause 1) waking) (hmore : woken < deadline)
      (hrest : Polling rule target deadline woken reading w rest r t) :
      Polling rule target deadline now previous s
        (⟨rule.pollQuestion target deadline now, s, answer, u⟩ :: ⟨.time, u, time, v⟩ ::
          ⟨.sleep pause, v, waking, w⟩ :: rest) r t

/-- The induction is on the time that is left. -/
theorem polling_of_course
    (h : (rule.poll target deadline now previous).Course s history r t) :
    rule.Polling target deadline now previous s history r t := by
  induction hleft : deadline - now using Nat.strongRecOn generalizing now previous s history with
  | ind left ih =>
    subst hleft
    rw [poll, Operation.course_ask_bind_iff] at h
    obtain ⟨answer, u, rest, rfl, h⟩ := h
    split at h
    · next hverdict =>
      obtain ⟨rfl, rfl, rfl⟩ := Operation.course_pure_iff.mp h
      exact .decided (by rw [hverdict]; rfl)
    · next e hverdict =>
      obtain ⟨rfl, rfl, rfl⟩ := Operation.course_fail_iff.mp h
      exact .decided (by rw [hverdict]; rfl)
    · next reading hverdict =>
      obtain ⟨time, v, rest, rfl, hread⟩ := Operation.course_ask_bind_iff.mp h
      dsimp only at hread
      split at hread
      · next hover =>
        obtain ⟨rfl, rfl, rfl⟩ := Operation.course_pure_iff.mp hread
        exact .expired hverdict rfl hover
      · next hleft =>
        obtain ⟨waking, w, rest, rfl, hrest⟩ := Operation.course_ask_bind_iff.mp hread
        split at hrest
        · next hover =>
          obtain ⟨rfl, rfl, rfl⟩ := Operation.course_pure_iff.mp hrest
          exact .overslept hverdict rfl (Nat.lt_of_not_le hleft) rfl rfl hover
        · next hmore =>
          exact .again hverdict rfl (Nat.lt_of_not_le hleft) rfl rfl (Nat.lt_of_not_le hmore)
            (ih _ (by omega) hrest rfl)

theorem course_of_polling (h : rule.Polling target deadline now previous s history r t) :
    (rule.poll target deadline now previous).Course s history r t := by
  induction h with
  | @decided _ previous _ _ answer _ h =>
      rw [poll, Operation.course_ask_bind_iff]
      refine ⟨_, _, _, rfl, ?_⟩
      cases hverdict : rule.verdict target previous answer with
      | settled =>
          rw [hverdict] at h
          obtain rfl := Option.some.inj h
          exact Operation.course_pure_iff.mpr ⟨rfl, rfl, rfl⟩
      | failed e =>
          rw [hverdict] at h
          obtain rfl := Option.some.inj h
          exact Operation.course_fail_iff.mpr ⟨rfl, rfl, rfl⟩
      | unsettled reading =>
          rw [hverdict] at h
          cases h
  | expired h hread hover =>
      subst hread
      rw [poll, Operation.course_ask_bind_iff]
      refine ⟨_, _, _, rfl, ?_⟩
      rw [h]
      refine Operation.course_ask_bind_iff.mpr ⟨_, _, _, rfl, ?_⟩
      dsimp only
      rw [if_pos hover]
      exact Operation.course_pure_iff.mpr ⟨rfl, rfl, rfl⟩
  | overslept h hread hleft hpause hwoken hover =>
      subst hread hpause hwoken
      rw [poll, Operation.course_ask_bind_iff]
      refine ⟨_, _, _, rfl, ?_⟩
      rw [h]
      refine Operation.course_ask_bind_iff.mpr ⟨_, _, _, rfl, ?_⟩
      dsimp only
      rw [if_neg (Nat.not_le_of_lt hleft)]
      refine Operation.course_ask_bind_iff.mpr ⟨_, _, _, rfl, ?_⟩
      rw [dif_pos hover]
      exact Operation.course_pure_iff.mpr ⟨rfl, rfl, rfl⟩
  | again h hread hleft hpause hwoken hmore _ ih =>
      subst hread hpause hwoken
      rw [poll, Operation.course_ask_bind_iff]
      refine ⟨_, _, _, rfl, ?_⟩
      rw [h]
      refine Operation.course_ask_bind_iff.mpr ⟨_, _, _, rfl, ?_⟩
      dsimp only
      rw [if_neg (Nat.not_le_of_lt hleft)]
      refine Operation.course_ask_bind_iff.mpr ⟨_, _, _, rfl, ?_⟩
      rw [dif_neg (Nat.not_le_of_lt hmore)]
      exact ih

/-- The row of polls, from a time on, in all its ways to go. -/
theorem course_poll_iff : (rule.poll target deadline now previous).Course s history r t ↔
    rule.Polling target deadline now previous s history r t :=
  ⟨polling_of_course, course_of_polling⟩

theorem course_wait_iff : (rule.wait target timeout).Course s history r t ↔
    ∃ started found rest, history = ⟨.time, s, started, found⟩ :: rest ∧
      rule.Polling target (started + timeout) started none found rest r t := by
  rw [wait, Operation.course_ask_bind_iff]
  simp only [course_poll_iff]

namespace Polling

theorem polls_ne_nil (h : rule.Polling target deadline now previous s history r t) :
    polls history ≠ [] := by
  cases h <;> exact List.cons_ne_nil _ _

/-- Each poll is put to the target, with what is left of the time as its budget, and every poll but
the first begins before the deadline. -/
theorem asked (h : rule.Polling target deadline now previous s history r t)
    {earlier later : List (Exchange σ)} {x : Exchange σ} (hx : history = earlier ++ x :: later)
    (hpoll : x.poll?.isSome) :
    x.question = rule.pollQuestion target deadline (clockAfter now earlier) ∧
      (earlier = [] ∨ clockAfter now earlier < deadline) := by
  induction h generalizing earlier with
  | decided =>
      obtain ⟨rfl, hhead⟩ | ⟨between, rfl, htail⟩ := List.cons_eq_append_iff.mp hx
      · cases hhead
        exact ⟨rfl, .inl rfl⟩
      · cases between <;> cases htail
  | expired =>
      obtain ⟨rfl, hhead⟩ | ⟨between, rfl, htail⟩ := List.cons_eq_append_iff.mp hx
      · cases hhead
        exact ⟨rfl, .inl rfl⟩
      · obtain ⟨between, rfl, hrest⟩ := Exchange.exists_of_cons_eq_append rfl htail hpoll
        cases between <;> cases hrest
  | overslept =>
      obtain ⟨rfl, hhead⟩ | ⟨between, rfl, htail⟩ := List.cons_eq_append_iff.mp hx
      · cases hhead
        exact ⟨rfl, .inl rfl⟩
      · obtain ⟨between, rfl, hrest⟩ := Exchange.exists_of_cons_eq_append rfl htail hpoll
        obtain ⟨between, rfl, hmore⟩ := Exchange.exists_of_cons_eq_append rfl hrest hpoll
        cases between <;> cases hmore
  | again h hread hleft hpause hwoken hmore _ ih =>
      subst hread hwoken
      obtain ⟨rfl, hhead⟩ | ⟨between, rfl, htail⟩ := List.cons_eq_append_iff.mp hx
      · cases hhead
        exact ⟨rfl, .inl rfl⟩
      · obtain ⟨between, rfl, hrest⟩ := Exchange.exists_of_cons_eq_append rfl htail hpoll
        obtain ⟨between, rfl, hlater⟩ := Exchange.exists_of_cons_eq_append rfl hrest hpoll
        obtain ⟨hquestion, hbegins⟩ := ih hlater
        refine ⟨hquestion, .inr ?_⟩
        obtain rfl | hbegins := hbegins
        · exact hmore
        · exact hbegins

theorem deadline_le (h : rule.Polling target deadline now previous s history (.ok false) t) :
    deadline ≤ clockAfter now history := by
  generalize hr : (.ok false : Outcome Bool) = r at h
  induction h with
  | decided h =>
      subst hr
      exact absurd h (Verdict.decision?_ne_false _)
  | expired h hread hover =>
      subst hread
      exact hover
  | overslept h hread hleft hpause hwoken hover =>
      subst hread hwoken
      exact hover
  | again h hread hleft hpause hwoken hmore _ ih =>
      subst hread hwoken
      exact ih hr

/-- No poll before the last one decides. -/
theorem undecided (h : rule.Polling target deadline now previous s history r t)
    (before : List Poll) (hbefore : lastReading before = previous) {earlier later : List Poll}
    (hpolls : polls history = earlier ++ later) (hearlier : earlier ≠ []) (hlater : later ≠ []) :
    ¬ rule.Decides target (before ++ earlier) d := by
  induction h generalizing before earlier with
  | decided | expired | overslept =>
      obtain ⟨rfl, -⟩ | ⟨-, rfl⟩ := List.singleton_eq_append_iff.mp hpolls <;> contradiction
  | @again _ _ _ _ _ _ _ _ _ _ _ _ _ answer rest _ h hread hleft hpause hwoken hmore _ ih =>
      obtain ⟨rfl, -⟩ | ⟨between, rfl, hrest⟩ := List.cons_eq_append_iff.mp hpolls
      · contradiction
      · subst hbefore
        rw [List.append_cons]
        cases between with
        | nil =>
            rw [List.append_nil]
            exact not_decides_of_unsettled h
        | cons next between =>
            obtain rfl := reading_of_unsettled h
            exact ih _ (lastReading_concat _ _) hrest (List.cons_ne_nil _ _)

/-- The last poll decides the result, unless it is left to the deadline. -/
theorem decides_iff (h : rule.Polling target deadline now previous s history r t)
    (before : List Poll) (hbefore : lastReading before = previous) (hd : d ≠ .ok false) :
    rule.Decides target (before ++ polls history) d ↔ r = d := by
  induction h generalizing before with
  | decided h =>
      subst hbefore
      rw [polls_capture, polls_nil, decides_concat_iff, h, Option.some.injEq]
  | expired h | overslept h =>
      subst hbefore
      exact iff_of_false (not_decides_of_unsettled h) hd.symm
  | again h hread hleft hpause hwoken hmore _ ih =>
      subst hbefore
      obtain rfl := reading_of_unsettled h
      rw [polls_capture, List.append_cons]
      exact ih _ (lastReading_concat _ _)

theorem length_polls_of_over (h : rule.Polling target deadline now previous s history r t)
    (hover : deadline ≤ now) : (polls history).length = 1 := by
  cases h with
  | decided | expired | overslept => rfl
  | again => omega

end Polling

theorem Decides.two_le_length (h : rule.Decides target answers (.ok true)) :
    2 ≤ answers.length := by
  cases h with
  | settled earlier h => simp only [List.length_append, List.length_singleton]; omega

/-- The exchanges of a wait that started at some time, and what it concludes from them. -/
structure Concludes (rule : StabilityRule) (target : NodeRef) (started timeout : Nat)
    (history : List (Exchange σ)) (r : Outcome Bool) : Prop where
  /-- There is a poll. -/
  polled : polls history ≠ []
  /-- Each poll is a reading of the target, and all but the first begin before the deadline. -/
  asked : ∀ earlier x later, history = earlier ++ x :: later → x.poll?.isSome →
    x.question = rule.pollQuestion target (started + timeout) (clockAfter started earlier) ∧
      (earlier = [] ∨ clockAfter started earlier < started + timeout)
  /-- No poll before the last one decides. -/
  undecided : ∀ earlier later, polls history = earlier ++ later → later ≠ [] →
    ∀ d, ¬ rule.Decides target earlier d
  /-- The result is what the last poll decides. -/
  decides_iff : ∀ d, d ≠ .ok false → (rule.Decides target (polls history) d ↔ r = d)
  /-- Only the deadline ends the wait otherwise. -/
  expired : r = .ok false → started + timeout ≤ clockAfter started history
  /-- Without any time there is one poll, and it does not settle anything. -/
  hasty : timeout = 0 → (polls history).length = 1 ∧ r ≠ .ok true

theorem Polling.concludes {started : Nat}
    (h : rule.Polling target (started + timeout) started none s history r t) :
    rule.Concludes target started timeout history r where
  polled := h.polls_ne_nil
  asked _ _ _ hx hpoll := h.asked hx hpoll
  undecided := by
    intro earlier later hpolls hlater d
    by_cases hearlier : earlier = []
    · subst hearlier
      exact not_decides_nil
    · exact h.undecided [] rfl hpolls hearlier hlater
  decides_iff _ hd := h.decides_iff [] rfl hd
  expired := by
    rintro rfl
    exact h.deadline_le
  hasty := by
    intro htimeout
    have hone := h.length_polls_of_over (by omega)
    refine ⟨hone, ?_⟩
    intro hr
    have hsettled : rule.Decides target ([] ++ polls history) r :=
      (h.decides_iff [] rfl (by rw [hr]; exact nofun)).mpr rfl
    rw [hr] at hsettled
    have htwo := hsettled.two_le_length
    rw [List.nil_append, hone] at htwo
    omega

/-- A wait comes to an end, whoever answers it. It polls its target until the first poll that
decides, and takes its result from there, unless the deadline ends it before. -/
theorem wait_concludes (rule : StabilityRule) (target : NodeRef) (timeout : Nat) (s : σ) :
    (∀ (ω : Type) (host : (q : Question) → ω → σ → q.Answer × ω × σ) (w : ω), ∃ history,
      (rule.wait target timeout).Course s history ((rule.wait target timeout s).run host w).1
        ((rule.wait target timeout s).run host w).2.2) ∧
    ∀ history r t, (rule.wait target timeout).Course s history r t →
      ∃ started found rest, history = ⟨.time, s, started, found⟩ :: rest ∧
        rule.Concludes target started timeout rest r := by
  refine ⟨fun ω host w => Dialogue.Course.exists_of_run host _ w, ?_⟩
  intro history r t h
  obtain ⟨started, found, rest, rfl, hpolling⟩ := course_wait_iff.mp h
  exact ⟨started, found, rest, rfl, hpolling.concludes⟩

/-- A poll that found no time, then two readings of a button at rest. -/
theorem wait_concludes_at_rest :
    ∃ rule : StabilityRule, ∃ target : NodeRef, ∃ button : RawNode, ∃ rest : List (Exchange Unit),
      polls rest = [.error (.timeout 5), .ok button, .ok button] ∧
        rule.Concludes target 0 10 rest (.ok true) := by
  let rule : StabilityRule := ⟨2, 0.5, 5⟩
  let button : RawNode := .mk ⟨some 100, 1⟩ { frame := some ⟨10, 20, 30, 40⟩ } none
  let rest : List (Exchange Unit) :=
    [⟨rule.pollQuestion button.ref 10 0, (), .error (.timeout 5), ()⟩, ⟨.time, (), (5 : Nat), ()⟩,
      ⟨.sleep 2, (), (7 : Nat), ()⟩, ⟨rule.pollQuestion button.ref 10 7, (), .ok button, ()⟩,
      ⟨.time, (), (7 : Nat), ()⟩, ⟨.sleep 2, (), (9 : Nat), ()⟩,
      ⟨rule.pollQuestion button.ref 10 9, (), .ok button, ()⟩]
  have hsettled : button.properties.settled button.properties rule.epsilon := by decide +kernel
  have hcourse : (rule.wait button.ref 10).Course () (⟨.time, (), (0 : Nat), ()⟩ :: rest)
      (.ok true) () := by
    refine course_wait_iff.mpr ⟨0, (), rest, rfl, ?_⟩
    refine .again rfl rfl (by decide) rfl rfl (by decide) ?_
    refine .again rfl rfl (by decide) rfl rfl (by decide) ?_
    exact .decided (by rw [verdict_of_settled hsettled]; rfl)
  obtain ⟨-, hconcludes⟩ := wait_concludes rule button.ref 10 ()
  obtain ⟨started, found, rest', hrest, h⟩ := hconcludes _ _ _ hcourse
  cases hrest
  exact ⟨rule, button.ref, button, rest, rfl, h⟩

end StabilityRule

end UiTree
