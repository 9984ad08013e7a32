import UiTree.Session.Dialogue

/-!
# Operations among other operations

While an operation waits for an answer, other operations may work on its state. A discipline says
what an operation can count on, the answers that are given and an invariant of the state that comes
back with them, and what it owes in return: from one question to the next it changes the state in
permitted ways only.

## Implementation notes

An operation that keeps the discipline is described by the property of its results alone, so it is
put together from its parts without a look at the state. The property of a result may be used by
what follows in the same operation, whatever has become of the state by then.
-/

namespace UiTree

variable {σ α β : Type}

/-- Which answers are given to questions. -/
abbrev Answering := (q : Question) → q.Answer → Prop

/-- What the operations on a state count on and what they owe each other. -/
structure Discipline (σ : Type) where
  /-- The answers that are given. -/
  admits : Answering
  /-- What holds of the state that comes with an answer. -/
  invariant : σ → Prop
  /-- What may become of the state from one question to the next. -/
  change : σ → σ → Prop
  refl : ∀ s, change s s
  trans : ∀ {s t u}, change s t → change t u → change s u
  keeps : ∀ {s t}, change s t → invariant s → invariant t

/-- The discipline of operations that owe each other an invariant and nothing else. -/
def Discipline.keeping (admits : Answering) (invariant : σ → Prop) : Discipline σ where
  admits := admits
  invariant := invariant
  change s t := invariant s → invariant t
  refl _ := id
  trans hst htu := fun hs => htu (hst hs)
  keeps hchange := hchange

namespace Dialogue

variable {d : Discipline σ} {post : α → Prop} {s t : σ} {x : Dialogue σ α}

/-- From a state on the discipline is kept, and the result has a property. -/
def Obeys (d : Discipline σ) (post : α → Prop) : Dialogue σ α → σ → Prop
  | done a s, s₀ => d.change s₀ s ∧ post a
  | ask q s resume, s₀ =>
    d.change s₀ s ∧ ∀ answer s', d.admits q answer → d.invariant s' →
      (resume answer s').Obeys d post s'

namespace Obeys

theorem change_trans (h : d.change s t) (hx : x.Obeys d post t) : x.Obeys d post s := by
  cases x with
  | done a u => exact ⟨d.trans h hx.1, hx.2⟩
  | ask q u resume => exact ⟨d.trans h hx.1, hx.2⟩

theorem mono {post' : α → Prop} (hx : x.Obeys d post s) (h : ∀ a, post a → post' a) :
    x.Obeys d post' s := by
  induction x generalizing s with
  | done a t => exact ⟨hx.1, h a hx.2⟩
  | ask q t resume ih =>
      refine ⟨hx.1, ?_⟩
      intro answer s' hadmits hinvariant
      exact ih answer s' (hx.2 answer s' hadmits hinvariant)

theorem bind {post' : β → Prop} {f : α → σ → Dialogue σ β} (hx : x.Obeys d post s)
    (hs : d.invariant s)
    (hf : ∀ a t, post a → d.invariant t → (f a t).Obeys d post' t) :
    (x.bind f).Obeys d post' s := by
  induction x generalizing s with
  | done a t => exact (hf a t hx.2 (d.keeps hx.1 hs)).change_trans hx.1
  | ask q t resume ih =>
      refine ⟨hx.1, ?_⟩
      intro answer s' hadmits hinvariant
      exact ih answer s' (hx.2 answer s' hadmits hinvariant) hinvariant

end Obeys

end Dialogue

namespace Operation

variable {d : Discipline σ} {m : Operation σ α} {post : α → Prop}

/-- An operation keeps the discipline, and what it succeeds with has a property. -/
def Obeys (d : Discipline σ) (m : Operation σ α) (post : α → Prop) : Prop :=
  ∀ s, d.invariant s → (m s).Obeys d (fun r => ∀ a, r = .ok a → post a) s

namespace Obeys

theorem mono {post' : α → Prop} (hm : m.Obeys d post) (h : ∀ a, post a → post' a) :
    m.Obeys d post' := by
  intro s hs
  exact (hm s hs).mono fun r hr a ha => h a (hr a ha)

theorem pure {a : α} (ha : post a) : Obeys d (pure a : Operation σ α) post := by
  intro s _
  refine ⟨d.refl s, ?_⟩
  intro b hb
  obtain rfl := Except.ok.inj hb
  exact ha

theorem fail (e : Error) : Obeys d (fail e : Operation σ α) post := by
  intro s _
  exact ⟨d.refl s, fun a ha => by cases ha⟩

theorem ofOutcome (r : Outcome α) : Obeys d (ofOutcome r) fun a => r = .ok a := by
  intro s _
  exact ⟨d.refl s, fun _ ha => ha⟩

theorem read (f : σ → α) : Obeys d (read f) fun _ => True := by
  intro s _
  exact ⟨d.refl s, fun _ _ => trivial⟩

theorem update {f : σ → σ × α}
    (hf : ∀ s, d.invariant s → d.change s (f s).1 ∧ post (f s).2) :
    Obeys d (update f) post := by
  intro s hs
  obtain ⟨hchange, hpost⟩ := hf s hs
  refine ⟨hchange, ?_⟩
  intro a ha
  obtain rfl := Except.ok.inj ha
  exact hpost

/-- A change that is made for its effect alone. -/
theorem change {f : σ → σ × α} (hf : ∀ s, d.change s (f s).1) :
    Obeys d (Operation.update f) fun _ => True :=
  .update fun s _ => ⟨hf s, trivial⟩

theorem ask (q : Question) : Obeys d (ask q) (d.admits q) := by
  intro s _
  refine ⟨d.refl s, ?_⟩
  intro answer s' hadmits _
  refine ⟨d.refl s', ?_⟩
  intro a ha
  obtain rfl := Except.ok.inj ha
  exact hadmits

theorem attempt (hm : m.Obeys d post) : m.attempt.Obeys d fun r => ∀ a, r = .ok a → post a := by
  intro s hs
  refine (hm s hs).bind hs ?_
  intro r t hr _
  refine ⟨d.refl t, ?_⟩
  intro r' hr'
  obtain rfl := Except.ok.inj hr'
  exact hr

theorem bind {f : α → Operation σ β} {post' : β → Prop} (hm : m.Obeys d post)
    (hf : ∀ a, post a → (f a).Obeys d post') : (m >>= f).Obeys d post' := by
  intro s hs
  refine (hm s hs).bind hs ?_
  intro r t hr ht
  cases r with
  | ok a => exact hf a (hr a rfl) t ht
  | error e => exact ⟨d.refl t, fun a ha => by cases ha⟩

end Obeys

end Operation

end UiTree
