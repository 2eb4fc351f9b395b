import EntityQuery.Proofs.Layer

/-!
# Steps that run alike

A step runs alongside another one if each of its runs is matched by a run of the other, from a related state
to a related state, with a result that is related (`Alongside`). Two steps are in lockstep from some point if
either one runs alongside the other from there and both end in the same state (`Lockstep`). Rebuilding two
expressions with the same head keeps this if rewriting their parts does.
-/

namespace EntityQuery

open EntityQuery.Expr

variable {α β γ δ : Type} {M : Model} {p q : Progress}

/-- What is related of two runs: the states that they are in at the same time, and for each the states that come
after it. -/
structure Course where
  together : Progress → Progress → Prop
  after : Progress → Progress → Prop
  refl : ∀ p, after p p
  trans : ∀ {p p' p''}, after p p' → after p' p'' → after p p''

/-- Both runs are in one state, of which `I` holds. -/
def Course.within (I : Progress → Prop) : Course where
  together p q := p = q ∧ I p
  after _ _ := True
  refl _ := trivial
  trans _ _ := trivial

/-- Each run of the first step from `p` is matched by one of the second step from `q`, up to `S` on what they
return. -/
structure Alongside (M : Model) (C : Course) (S : Progress → Progress → α → β → Prop) (p q : Progress)
    (x : Expansion α) (y : Expansion β) : Prop where
  run : ∀ {a p'}, Runs x M p a p' → ∃ b q', Runs y M q b q' ∧ C.together p' q' ∧ C.after p p' ∧ C.after q q' ∧
    S p' q' a b

namespace Alongside

variable {C : Course} {S : Progress → Progress → α → β → Prop} {T : Progress → Progress → γ → δ → Prop}
  {x : Expansion α} {y : Expansion β}

theorem pure (here : C.together p q) {a : α} {b : β} (h : S p q a b) :
    Alongside M C S p q (Pure.pure a) (Pure.pure b) where
  run hrun := by
    obtain ⟨rfl, rfl⟩ := Runs.pure_iff.1 hrun
    exact ⟨b, q, Runs.pure_iff.2 ⟨rfl, rfl⟩, here, C.refl _, C.refl _, h⟩

theorem bind {f : α → Expansion γ} {g : β → Expansion δ} (h : Alongside M C S p q x y)
    (k : ∀ {a b p' q'}, Runs x M p a p' → Runs y M q b q' → C.together p' q' → C.after p p' → C.after q q' →
      S p' q' a b → Alongside M C T p' q' (f a) (g b)) : Alongside M C T p q (x >>= f) (y >>= g) where
  run hrun := by
    obtain ⟨a, p', hx, hf⟩ := Runs.bind_iff.1 hrun
    obtain ⟨b, q', hy, here, hp, hq, hS⟩ := h.run hx
    obtain ⟨d, q'', hg, here', hp', hq', hT⟩ := (k hx hy here hp hq hS).run hf
    exact ⟨d, q'', Runs.bind_iff.2 ⟨b, q', hy, hg⟩, here', C.trans hp hp', C.trans hq hq', hT⟩

section Parts

variable {R S : Progress → Progress → Expr → Expr → Prop} {f g : Expr → Expansion Expr}
  (older : ∀ {p q p' q' c d}, C.after p p' → C.after q q' → R p q c d → R p' q' c d)
  (later : ∀ {p q p' q' c d}, C.after p p' → C.after q q' → S p q c d → S p' q' c d)
  (step : ∀ {c d p q}, R p q c d → C.together p q → Alongside M C S p q (f c) (g d))

include older later step

variable (R S) in
theorem mapItems {es ds : List Expr} (h : List.Forall₂ (R p q) es ds) (here : C.together p q) :
    Alongside M C (fun p q => List.Forall₂ (S p q)) p q (Expr.mapItems f es) (Expr.mapItems g ds) := by
  induction es generalizing ds p q with
  | nil =>
    cases h
    exact .pure here .nil
  | cons e es ih =>
    cases h with
    | cons hc rest =>
      refine (step hc here).bind fun _ _ here hp hq hS => ?_
      refine (ih (rest.imp fun _ _ => older hp hq) here).bind fun _ _ here hp hq hrest => ?_
      exact .pure here (.cons (later hp hq hS) hrest)

variable (R S) in
theorem mapFields {es ds : List (String × Expr)}
    (h : List.Forall₂ (fun x y => x.1 = y.1 ∧ R p q x.2 y.2) es ds) (here : C.together p q) :
    Alongside M C (fun p q => List.Forall₂ fun x y => x.1 = y.1 ∧ S p q x.2 y.2) p q (Expr.mapFields f es)
      (Expr.mapFields g ds) := by
  induction es generalizing ds p q with
  | nil =>
    cases h
    exact .pure here .nil
  | cons e es ih =>
    cases h with
    | cons hc rest =>
      refine (step hc.2 here).bind fun _ _ here hp hq hS => ?_
      refine (ih (rest.imp fun _ _ h => ⟨h.1, older hp hq h.2⟩) here).bind fun _ _ here hp hq hrest => ?_
      exact .pure here (.cons ⟨hc.1, later hp hq hS⟩ hrest)

/-- Rebuilding two expressions with the same head from parts that are rewritten alongside. -/
theorem mapChildren {e d : Expr} (h : SameHead (R p q) e d) (here : C.together p q) :
    Alongside M C (fun p q => SameHead (S p q)) p q (e.mapChildren f) (d.mapChildren g) := by
  cases h with
  | entitySet entity => exact .pure here (.entitySet entity)
  | const value => exact .pure here (.const value)
  | param name => exact .pure here (.param name)
  | rowRef ref => exact .pure here (.rowRef ref)
  | member name h => exact (step h here).bind fun _ _ here _ _ hS => .pure here (.member name hS)
  | not h => exact (step h here).bind fun _ _ here _ _ hS => .pure here (.not hS)
  | convert dataType nullable h =>
    exact (step h here).bind fun _ _ here _ _ hS => .pure here (.convert dataType nullable hS)
  | lambda params h => exact (step h here).bind fun _ _ here _ _ hS => .pure here (.lambda params hS)
  | entityShape entity h => exact (step h here).bind fun _ _ here _ _ hS => .pure here (.entityShape entity hS)
  | binary op ha hb =>
    exact (step ha here).bind fun _ _ here hp hq hA => (step (older hp hq hb) here).bind fun _ _ here hp hq hB =>
      .pure here (.binary op (later hp hq hA) hB)
  | stream frame hr hs =>
    exact (step hr here).bind fun _ _ here hp hq hA => (step (older hp hq hs) here).bind fun _ _ here hp hq hB =>
      .pure here (.stream frame (later hp hq hA) hB)
  | cond ha hb hc =>
    refine (step ha here).bind fun _ _ here hp hq hA => ?_
    refine (step (older hp hq hb) here).bind fun _ _ here hp' hq' hB => ?_
    refine (step (older hp' hq' (older hp hq hc)) here).bind fun _ _ here hp hq hC => ?_
    exact .pure here (.cond (later (C.trans hp' hp) (C.trans hq' hq) hA) (later hp hq hB) hC)
  | record h =>
    exact (mapFields R S older later step h here).bind fun _ _ here _ _ hS => .pure here (.record hS)
  | tuple h => exact (mapItems R S older later step h here).bind fun _ _ here _ _ hS => .pure here (.tuple hS)
  | function name h =>
    exact (mapItems R S older later step h here).bind fun _ _ here _ _ hS => .pure here (.function name hS)
  | call operator note h =>
    exact (mapItems R S older later step h here).bind fun _ _ here _ _ hS => .pure here (.call operator note hS)
  | nullSafeEqual h ha hb =>
    refine (mapItems R S older later step h here).bind fun _ _ here hp hq hS => ?_
    refine (step (older hp hq ha) here).bind fun _ _ here hp' hq' hA => ?_
    refine (step (older hp' hq' (older hp hq hb)) here).bind fun _ _ here hp hq hB => ?_
    exact .pure here (.nullSafeEqual (hS.imp fun _ _ => later (C.trans hp' hp) (C.trans hq' hq))
      (later hp hq hA) hB)

end Parts

end Alongside

/-- The two steps have the same runs from `p`, up to `S` on what they return. -/
structure Lockstep (M : Model) (p : Progress) (S : α → β → Prop) (x : Expansion α) (y : Expansion β) : Prop where
  forward : ∀ {a p'}, Runs x M p a p' → ∃ b, Runs y M p b p' ∧ S a b
  backward : ∀ {b p'}, Runs y M p b p' → ∃ a, Runs x M p a p' ∧ S a b

namespace Lockstep

variable {S : α → β → Prop} {T : γ → δ → Prop} {x : Expansion α} {y : Expansion β}

theorem refl {S : α → α → Prop} (hS : ∀ a, S a a) (x : Expansion α) : Lockstep M p S x x :=
  ⟨fun h => ⟨_, h, hS _⟩, fun h => ⟨_, h, hS _⟩⟩

theorem symm (h : Lockstep M p S x y) : Lockstep M p (fun b a => S a b) y x := ⟨h.backward, h.forward⟩

/-- A step with a run from `p` is in lockstep with any other one that has the like. -/
theorem of_runs {a : α} {b : β} {p' : Progress} (hx : Runs x M p a p') (hy : Runs y M p b p') (h : S a b) :
    Lockstep M p S x y where
  forward hrun := by
    obtain ⟨rfl, rfl⟩ := Prod.mk.inj (Except.ok.inj (hx.symm.trans hrun))
    exact ⟨b, hy, h⟩
  backward hrun := by
    obtain ⟨rfl, rfl⟩ := Prod.mk.inj (Except.ok.inj (hy.symm.trans hrun))
    exact ⟨a, hx, h⟩

theorem pure {a : α} {b : β} (h : S a b) : Lockstep M p S (Pure.pure a) (Pure.pure b) :=
  .of_runs (Runs.pure_iff.2 ⟨rfl, rfl⟩) (Runs.pure_iff.2 ⟨rfl, rfl⟩) h

theorem bind {f : α → Expansion γ} {g : β → Expansion δ} (h : Lockstep M p S x y)
    (k : ∀ {a b q}, Runs x M p a q → S a b → Lockstep M q T (f a) (g b)) :
    Lockstep M p T (x >>= f) (y >>= g) where
  forward hrun := by
    obtain ⟨a, q, hx, hf⟩ := Runs.bind_iff.1 hrun
    obtain ⟨b, hy, hS⟩ := h.forward hx
    obtain ⟨d, hg, hT⟩ := (k hx hS).forward hf
    exact ⟨d, Runs.bind_iff.2 ⟨b, q, hy, hg⟩, hT⟩
  backward hrun := by
    obtain ⟨b, q, hy, hg⟩ := Runs.bind_iff.1 hrun
    obtain ⟨a, hx, hS⟩ := h.backward hy
    obtain ⟨c, hf, hT⟩ := (k hx hS).backward hg
    exact ⟨c, Runs.bind_iff.2 ⟨a, q, hx, hf⟩, hT⟩

/-- Steps in lockstep up to equality have the same runs. -/
theorem runs_iff {y : Expansion α} (h : Lockstep M p Eq x y) {a : α} {p' : Progress} :
    Runs x M p a p' ↔ Runs y M p a p' := by
  constructor
  · intro hrun
    obtain ⟨_, hy, rfl⟩ := h.forward hrun
    exact hy
  · intro hrun
    obtain ⟨_, hx, rfl⟩ := h.backward hrun
    exact hx

/-- A step runs alongside one that it is in lockstep with. -/
theorem alongside {I : Progress → Prop} (h : Lockstep M p S x y) (keeps : ∀ {a q}, Runs x M p a q → I q) :
    Alongside M (.within I) (fun _ _ => S) p p x y where
  run hrun := by
    obtain ⟨b, hy, hS⟩ := h.forward hrun
    exact ⟨b, _, hy, ⟨rfl, keeps hrun⟩, trivial, trivial, hS⟩

/-- Rebuilding two expressions with the same head from parts that are rewritten in lockstep. -/
theorem mapChildren {R S : Expr → Expr → Prop} {I : Progress → Prop} {f g : Expr → Expansion Expr}
    (keeps : ∀ {c q c' q'}, I q → Runs (f c) M q c' q' → I q')
    (step : ∀ {c d q}, R c d → I q → Lockstep M q S (f c) (g d)) {e d : Expr} (h : SameHead R e d)
    (hp : I p) : Lockstep M p (SameHead S) (e.mapChildren f) (d.mapChildren g) where
  forward hrun := by
    have parts {c d : Expr} {p q : Progress} (hR : R c d) (here : p = q ∧ I p) :
        Alongside M (.within I) (fun _ _ => S) p q (f c) (g d) := by
      obtain ⟨rfl, hI⟩ := here
      exact (step hR hI).alongside (keeps hI)
    have whole : Alongside M (.within I) (fun _ _ => SameHead S) p p (e.mapChildren f) (d.mapChildren g) :=
      .mapChildren (fun _ _ => id) (fun _ _ => id) parts h ⟨rfl, hp⟩
    obtain ⟨b, _, hy, ⟨rfl, -⟩, -, -, hS⟩ := whole.run hrun
    exact ⟨b, hy, hS⟩
  backward hrun := by
    have parts {c d : Expr} {p q : Progress} (hR : R c d) (here : p = q ∧ I p) :
        Alongside M (.within I) (fun _ _ d c => S c d) p q (g d) (f c) := by
      obtain ⟨rfl, hI⟩ := here
      refine (step hR hI).symm.alongside fun hy => ?_
      obtain ⟨_, hx, -⟩ := (step hR hI).backward hy
      exact keeps hI hx
    have whole : Alongside M (.within I) (fun _ _ => SameHead fun d c => S c d) p p (d.mapChildren g)
        (e.mapChildren f) := .mapChildren (fun _ _ => id) (fun _ _ => id) parts h.flip ⟨rfl, hp⟩
    obtain ⟨a, _, hx, ⟨rfl, -⟩, -, -, hS⟩ := whole.run hrun
    exact ⟨a, hx, hS.flip⟩

end Lockstep

end EntityQuery
