import Mathlib
import EntityQuery.Proofs.Resolving
import EntityQuery.Proofs.Tables

/-!
# Binders and the paths put under them

When references are resolved, paths that start with the row parameter are put under lambdas, and lambdas
that would capture them are renamed. `Placed` says that this went well: every reference to the row has become
a path whose root no lambda binds, and every other parameter refers to the same binder as before.

A lambda gets a generated name, and nobody looks whether that name is taken. Where no such name occurs in the
expression, resolving it captures nothing (`resolve_placed`); where it does occur, a parameter can end up
under another lambda (`not_placed_sameTotal`).
-/

namespace EntityQuery

/-- What a parameter refers to: a parameter of a lambda around it, told by the number of lambdas between
them and by its place, counted from the last one, or nothing. -/
inductive Referent where
  | bound (level place : Nat)
  | free (name : String)
  deriving DecidableEq, Repr

/-- The same seen from inside of one more lambda. -/
def Referent.under : Referent → Referent
  | .bound level place => .bound (level + 1) place
  | .free name => .free name

/-- What a name refers to under lambdas with these parameters, the innermost first. -/
def referent : List (List String) → String → Referent
  | [], x => .free x
  | params :: Γ, x => if x ∈ params then .bound 0 (params.reverse.idxOf x) else (referent Γ x).under

section Referents

variable {params : List String} {Γ Δ : List (List String)} {x old new : String}

theorem referent_of_mem (h : x ∈ params) : referent (params :: Γ) x = .bound 0 (params.reverse.idxOf x) :=
  if_pos h

theorem referent_of_not_mem (h : x ∉ params) : referent (params :: Γ) x = (referent Γ x).under :=
  if_neg h

theorem referent_congr (h : x ∉ params → referent Γ x = referent Δ x) :
    referent (params :: Γ) x = referent (params :: Δ) x := by
  by_cases hx : x ∈ params
  · rw [referent_of_mem hx, referent_of_mem hx]
  · rw [referent_of_not_mem hx, referent_of_not_mem hx, h hx]

theorem idxOf_map {l : List String} {g : String → String} (inj : ∀ y ∈ l, g y = g x → y = x) :
    (l.map g).idxOf (g x) = l.idxOf x := by
  induction l with
  | nil => rfl
  | cons y l ih =>
    simp only [List.map_cons, List.idxOf_cons, ih fun z hz => inj z (.tail _ hz)]
    by_cases hy : y = x
    · rw [hy, beq_self_eq_true, beq_self_eq_true]
    · rw [beq_false_of_ne hy, beq_false_of_ne fun h => hy (inj y (.head _) h)]

/-- A parameter with a new name is found where it was under the old one. -/
theorem referent_rename (hparams : new ∉ params) (hx : x ≠ new)
    (h : x ∉ params → referent Γ x = referent Δ (if x = old then new else x)) :
    referent (params :: Γ) x =
      referent ((params.map fun y => if y = old then new else y) :: Δ) (if x = old then new else x) := by
  have inj : ∀ y ∈ params, (if y = old then new else y) = (if x = old then new else x) → y = x := by
    intro y hy heq
    have hne : y ≠ new := fun h => hparams (h ▸ hy)
    split at heq <;> split at heq <;> simp_all
  by_cases hmem : x ∈ params
  · rw [referent_of_mem hmem, referent_of_mem (List.mem_map_of_mem hmem), ← List.map_reverse,
      idxOf_map fun y hy => inj y (List.mem_reverse.1 hy)]
  · rw [referent_of_not_mem hmem, referent_of_not_mem, h hmem]
    intro hm
    obtain ⟨y, hy, heq⟩ := List.mem_map.1 hm
    exact hmem (inj y hy heq ▸ hy)

end Referents

open EntityQuery.Expr

/-- The node stays as it is but for its parts: it is no parameter, no lambda and no reference to the row. -/
def RowScope.passes (s : RowScope) : Expr → Bool
  | .param _ | .lambda .. => false
  | .rowRef r => !s.owns r
  | _ => true

/-- The second expression is the first one with all references to a row resolved. The lambdas around the
two have the parameters `Γ` and `Δ`. -/
inductive Placed (f : Forest) (s : RowScope) : List (List String) → List (List String) → Expr → Expr → Prop where
  | path {Γ Δ : List (List String)} {r : RowRef} {path : List String} (owns : s.owns r = true)
    (present : f.rowPath? r.node = some path) (unbound : ∀ params ∈ Δ, s.parameter ∉ params) :
    Placed f s Γ Δ (.rowRef r) (.readPath s.parameter path)
  | entity {Γ Δ : List (List String)} {r : RowRef} {path : List String} (entity : String)
    (owns : s.owns r = true) (present : f.rowPath? r.node = some path)
    (unbound : ∀ params ∈ Δ, s.parameter ∉ params) :
    Placed f s Γ Δ (.rowRef r) (.entityShape entity (.readPath s.parameter path))
  /-- The parameters may have different names, but they refer to the same binder. -/
  | param {Γ Δ : List (List String)} {x y : String} (h : referent Γ x = referent Δ y) :
    Placed f s Γ Δ (.param x) (.param y)
  | lambda {Γ Δ : List (List String)} {params params' : List String} {body body' : Expr}
    (length : params'.length = params.length) (h : Placed f s (params :: Γ) (params' :: Δ) body body') :
    Placed f s Γ Δ (.lambda params body) (.lambda params' body')
  | node {Γ Δ : List (List String)} {e e' : Expr} (kind : s.passes e = true)
    (head : SameHead (fun _ _ => True) e e')
    (parts : ∀ c c', (c, c') ∈ e.children.zip e'.children → Placed f s Γ Δ c c') : Placed f s Γ Δ e e'

namespace Placed

variable {f : Forest} {s : RowScope} {Γ Δ Θ : List (List String)} {e e' d : Expr}

theorem of_sameHead (kind : s.passes e = true) (h : SameHead (Placed f s Γ Δ) e e') : Placed f s Γ Δ e e' :=
  .node kind (h.mono fun _ _ _ => trivial) fun _ _ => (List.forall₂_iff_zip.1 h.parts).2

/-- Outside of all rows no reference is resolved, so this is the same expression with other names. -/
theorem of_names (h : ∀ x ∈ e.names, referent Γ x = referent Δ x) : Placed f .outside Γ Δ e e := by
  induction e using children_induction generalizing Γ Δ with
  | step e ih =>
    cases e with
    | param x => exact .param (h x (by simp [names, nodes, ownNames]))
    | lambda params body =>
      refine .lambda rfl (ih body (.head _) fun x hx => referent_congr fun _ => ?_)
      exact h x (mem_names_of_child (.head _) hx)
    | _ =>
      refine of_sameHead rfl (SameHead.refl_of _ fun c hc => ih c hc fun x hx => ?_)
      exact h x (mem_names_of_child hc hx)

/-- A parameter may get a new name. -/
theorem rename {old new : String} (hn : new ∉ e.names)
    (h : ∀ x, x ≠ new → referent Γ x = referent Δ (if x = old then new else x)) :
    Placed f .outside Γ Δ e (e.substitute old (.param new)) := by
  induction e using children_induction generalizing Γ Δ with
  | step e ih =>
    cases e with
    | param name =>
      have hname : name ≠ new := by
        rintro rfl
        exact hn (by simp [names, nodes, ownNames])
      have := h name hname
      rw [substitute_param]
      split at this
      · next heq => exact if_pos heq ▸ .param this
      · next hne => exact if_neg hne ▸ .param this
    | lambda params body =>
      have hbody : new ∉ body.names := fun hx => hn (mem_names_of_child (.head _) hx)
      have hparams : new ∉ params := fun hx => hn (by simp [names, nodes, ownNames, hx])
      rw [substitute_lambda]
      split
      · next hold =>
        -- The lambda binds the old name itself, so nothing changes below it.
        refine .lambda rfl (of_names fun x hx => referent_congr fun hxp => ?_)
        have := h x (fun heq => hbody (heq ▸ hx))
        rwa [if_neg fun heq : x = old => hxp (heq ▸ hold)] at this
      · next hold =>
        refine .lambda rfl (ih body (.head _) hbody fun x hx => ?_)
        by_cases heq : x = old
        · subst heq
          -- Neither name is bound here, so both are looked up further out.
          rw [if_pos rfl, referent_of_not_mem hold, referent_of_not_mem hparams]
          simpa using congrArg Referent.under (h x hx)
        · rw [if_neg heq]
          refine referent_congr fun _ => ?_
          simpa [heq] using h x hx
    | _ =>
      rw [substitute_of_none rfl]
      refine of_sameHead rfl ((SameHead.of_map _ _).mono ?_)
      rintro c c' ⟨hc, rfl⟩
      exact ih c hc (fun hx => hn (mem_names_of_child hc hx)) h

theorem passes_of_sameHead {R : Expr → Expr → Prop} (h : SameHead R e d) : s.passes d = s.passes e := by
  cases h <;> rfl

/-- Names may be changed first. -/
theorem trans (h : Placed f .outside Γ Δ e d) (k : Placed f s Δ Θ d e') : Placed f s Γ Θ e e' := by
  induction h generalizing Θ e' with
  | path owns | entity _ owns => cases owns
  | param h =>
    cases k with
    | param k => exact .param (h.trans k)
    | node kind => cases kind
  | lambda length _ ih =>
    cases k with
    | lambda length' k => exact .lambda (length'.trans length) (ih k)
    | node kind => cases kind
  | node kind head parts ih =>
    cases k with
    | path owns present unbound =>
      cases head
      exact .path owns present unbound
    | entity entity owns present unbound =>
      cases head
      exact .entity entity owns present unbound
    | param _ | lambda _ _ =>
      cases head
      cases kind
    | node kind' head' parts' =>
      refine of_sameHead ((passes_of_sameHead head).symm.trans kind') ?_
      have steps : SameHead (fun c d => ∀ {e'}, Placed f s _ Θ d e' → Placed f s _ Θ c e') _ _ :=
        head.of_zip fun _ hc => ih _ _ hc
      have parts' : SameHead (Placed f s _ Θ) _ _ := head'.of_zip fun _ => parts' _ _
      exact steps.comp parts' fun _ _ _ step k => step k

end Placed

section Renaming

variable {f : Forest} {Γ Δ : List (List String)} {params : List String} {body : Expr} {old new : String}

/-- The new name is bound where the old one was. -/
theorem not_mem_params_rename (hne : new ≠ old) : old ∉ (Lambda.rename ⟨params, body⟩ old new).params := by
  intro hold
  obtain ⟨y, -, heq⟩ := List.mem_map.1 hold
  split at heq
  · exact hne heq
  · next h => exact h heq

/-- Names that stand for the same in two places do so in the body of a renamed lambda. -/
theorem referent_body_rename (hold : old ∈ params) (h : ∀ x ∈ body.names, referent Γ x = referent Δ x) :
    ∀ x ∈ (Lambda.rename ⟨params, body⟩ old new).body.names,
      referent ((Lambda.rename ⟨params, body⟩ old new).params :: Γ) x =
        referent ((Lambda.rename ⟨params, body⟩ old new).params :: Δ) x := by
  refine fun x hx => referent_congr fun hxp => ?_
  rcases mem_names_substitute hx with hx | hx
  · obtain rfl : x = new := by simpa [names, nodes, ownNames] using hx
    exact (hxp (List.mem_map.2 ⟨old, hold, if_pos rfl⟩)).elim
  · exact h x hx

/-- The body of a lambda that is renamed is the same under the new parameters. -/
theorem Placed.rename_lambda (hold : old ∈ params) (hnew : new ∉ (Expr.lambda params body).names) :
    Placed f .outside (params :: Γ) ((Lambda.rename ⟨params, body⟩ old new).params :: Γ) body
      (Lambda.rename ⟨params, body⟩ old new).body := by
  have hparams : new ∉ params := fun hx => hnew (by simp [names, nodes, ownNames, hx])
  refine .rename (fun hx => hnew (mem_names_of_child (.head _) hx)) fun x hx => ?_
  refine referent_rename hparams hx fun hxp => ?_
  rw [if_neg fun heq : x = old => hxp (heq ▸ hold)]

end Renaming

section Resolving

variable {M : Model} {again : RowScope → Expr → Expansion Expr} {s : RowScope} {p p' : Progress} {e e' c : Expr}
  {Γ Δ : List (List String)} {old new : String} {params : List String} {body : Expr}

/-- The name that a lambda gets that would capture the row. -/
def RowScope.lambdaName (s : RowScope) (n : Nat) : String := rowParameter s.parameter ++ toString n

/-- None of the names that are generated from now on for lambdas is the row parameter or occurs in the
expression. -/
def RowScope.Untaken (s : RowScope) (k : Nat) (e : Expr) : Prop :=
  ∀ n > k, s.lambdaName n ≠ s.parameter ∧ s.lambdaName n ∉ e.names

namespace RowScope.Untaken

variable {k l : Nat}

theorem mono (h : s.Untaken k e) (hkl : k ≤ l) : s.Untaken l e := fun n hn => h n (Nat.lt_of_le_of_lt hkl hn)

theorem child (h : s.Untaken k e) (hc : c ∈ e.children) : s.Untaken k c :=
  fun n hn => (h n hn).imp_right fun hname hmem => hname (mem_names_of_child hc hmem)

/-- The name that is generated next is not generated again. -/
theorem substitute (h : s.Untaken k e) :
    s.Untaken (k + 1) (e.substitute old (.param (s.lambdaName (k + 1)))) := by
  refine fun n hn => (h n (Nat.lt_of_succ_lt hn)).imp_right fun hname hmem => ?_
  rcases mem_names_substitute hmem with hmem | hmem
  · obtain ⟨letter, hletter⟩ := rowParameter_eq s.parameter
    have heq : generatedName letter n = generatedName letter (k + 1) := by
      simpa [names, nodes, ownNames, generatedName, lambdaName, hletter] using hmem
    exact Nat.ne_of_gt hn (generatedName_inj heq)
  · exact hname hmem

end RowScope.Untaken

theorem refersTo_of_child {sources : List SourceId} (hc : c ∈ e.children) (h : c.refersTo sources = true) :
    e.refersTo sources = true := by
  obtain ⟨r, hr, hsource⟩ := List.any_eq_true.1 h
  exact List.any_eq_true.2 ⟨r, mem_rowRefs_of_child hc hr, hsource⟩

theorem refersTo_of_owns {r : RowRef} (h : s.owns r = true) : (Expr.rowRef r).refersTo s.sources = true :=
  List.any_eq_true.2 ⟨r, .head _, h⟩

/-- The paths of a row can be put under these lambdas: none of them binds the row parameter, unless there
are no references to put a path for. -/
def RowScope.Clear (s : RowScope) (Δ : List (List String)) (e : Expr) : Prop :=
  e.refersTo s.sources = true → ∀ params ∈ Δ, s.parameter ∉ params

/-- A lambda of the expression would capture a path that is put into it. -/
def RowScope.Captures (s : RowScope) (e : Expr) : Prop :=
  ∃ params body, .lambda params body ∈ e.nodes ∧ s.capturedBy params body = true

theorem RowScope.Captures.of_child (h : s.Captures c) (hc : c ∈ e.children) : s.Captures e := by
  obtain ⟨params, body, hmem, captured⟩ := h
  exact ⟨params, body, mem_nodes_of_child hc hmem, captured⟩

/-- Whenever the action ends, only names have been generated, and it has put the paths of the row into the
expression. The nodes are where they are at `p`. -/
def RowScope.Places (s : RowScope) (M : Model) (p : Progress) (Γ Δ : List (List String))
    (action : Expansion Expr) (e : Expr) : Prop :=
  ∀ ⦃q e' q'⦄, OnlyNames p q → Runs action M q e' q' → OnlyNames q q' ∧ Placed p.forest s Γ Δ e e'

section Cases

variable {r : RowRef} {t : Expr} {name : String} {guards : List Expr} {a b : Expr}

theorem RowScope.Places.later (hp : OnlyNames p p') {action : Expansion Expr}
    (h : s.Places M p' Γ Δ action e) {q q' : Progress} (hq : OnlyNames p' q) (hrun : Runs action M q e' q') :
    OnlyNames p q' ∧ Placed p.forest s Γ Δ e e' := by
  obtain ⟨names, placed⟩ := h hq hrun
  exact ⟨hp.trans (hq.trans names), hp.forest ▸ placed⟩

theorem places_parts (parts : e.isResolvedByParts = true) (kind : s.passes e = true)
    (ih : ∀ c ∈ e.children, s.Places M p Γ Δ (resolveWith again s c) c) :
    s.Places M p Γ Δ (resolveWith again s e) e := by
  intro q e' q' hq h
  rw [resolveWith_parts parts] at h
  obtain ⟨names, head⟩ := Runs.mapChildren_within OnlyNames OnlyNames.refl OnlyNames.trans
    (fun c hc r c' r' hr hrun => (ih c hc (hq.trans hr) hrun).1) h
  refine ⟨names, .of_sameHead kind (head.mono ?_)⟩
  rintro c c' ⟨hc, r, r', hr, -, hrun⟩
  exact (ih c hc (hq.trans hr) hrun).2

theorem places_rowRef (clear : s.Clear Δ (.rowRef r)) :
    s.Places M p Γ Δ (resolveWith again s (.rowRef r)) (.rowRef r) := by
  intro q e' q' hq h
  rw [resolveWith] at h
  split at h
  · next owns =>
    have unbound := clear (refersTo_of_owns owns)
    obtain ⟨path, present, rfl, rfl | ⟨entity, rfl⟩⟩ := Runs.readRow h
    · exact ⟨.refl _, .path owns (hq.forest ▸ present) unbound⟩
    · exact ⟨.refl _, .entity entity owns (hq.forest ▸ present) unbound⟩
  · next owns =>
    obtain ⟨rfl, rfl⟩ := Runs.pure_iff.1 h
    exact ⟨.refl _, .of_sameHead (by simpa [RowScope.passes] using owns) (.rowRef r)⟩

/-- A property of the row is a member of its path. -/
theorem places_member_rowRef (clear : s.Clear Δ (.rowRef r)) :
    s.Places M p Γ Δ (resolveWith again s (.member (.rowRef r) name)) (.member (.rowRef r) name) := by
  intro q e' q' hq h
  rw [resolveWith] at h
  split at h
  · next owns =>
    obtain ⟨path, present, rfl, rfl⟩ := Runs.readProperty h
    exact ⟨.refl _, .of_sameHead rfl
      (.member name (.path owns (hq.forest ▸ present) (clear (refersTo_of_owns owns))))⟩
  · next owns =>
    obtain ⟨rfl, rfl⟩ := Runs.pure_iff.1 h
    refine ⟨.refl _, .of_sameHead rfl (.member name (.of_sameHead ?_ (.rowRef r)))⟩
    simpa [RowScope.passes] using owns

/-- A lambda that would capture the row is renamed first, and nothing is captured then. -/
theorem places_captured (captured : s.capturedBy params body = true)
    (untaken : s.Untaken p.names (.lambda params body))
    (ih : ∀ {q : Progress}, p.names ≤ q.names →
      let l := Lambda.rename ⟨params, body⟩ s.parameter (s.lambdaName (q.names + 1))
      s.Places M { q with names := q.names + 1 } (l.params :: Γ) (l.params :: Δ) (resolveWith again s l.body)
        l.body) :
    s.Places M p Γ Δ (resolveWith again s (.lambda params body)) (.lambda params body) := by
  intro q e' q' hq h
  rw [resolveWith, if_pos captured] at h
  simp only [RowScope.capturedBy, Bool.and_eq_true, List.contains_iff_mem] at captured
  simp only [Runs.bind_iff, Runs.freshName_iff, Runs.pure_iff] at h
  obtain ⟨name, _, ⟨hname, rfl⟩, body', _, hbody, rfl, rfl⟩ := h
  obtain rfl : name = s.lambdaName (q.names + 1) := hname
  obtain ⟨-, hnew⟩ := untaken (q.names + 1) (Nat.lt_succ_of_le hq.names)
  have next : OnlyNames q { q with names := q.names + 1 } := ⟨rfl, Nat.le_succ _⟩
  obtain ⟨names, placed⟩ := (ih hq.names).later next (.refl _) hbody
  refine ⟨names, hq.forest ▸ .lambda (List.length_map ..) ?_⟩
  exact (Placed.rename_lambda captured.1 hnew).trans placed

theorem places_lambda (kept : s.capturedBy params body = false)
    (ih : s.Places M p (params :: Γ) (params :: Δ) (resolveWith again s body) body) :
    s.Places M p Γ Δ (resolveWith again s (.lambda params body)) (.lambda params body) := by
  intro q e' q' hq h
  rw [resolveWith, if_neg (Bool.not_eq_true _ ▸ kept)] at h
  simp only [Runs.bind_iff, Runs.pure_iff] at h
  obtain ⟨body', _, hbody, rfl, rfl⟩ := h
  exact (ih hq hbody).imp_right (.lambda rfl)

/-- A guard may be the row itself, which becomes its path. -/
theorem places_guard (clear : s.Clear Δ c) (ih : s.Places M p Γ Δ (resolveWith again s c) c) :
    s.Places M p Γ Δ ((s.readGuard? c).getD (resolveWith again s c)) c := by
  intro q e' q' hq h
  cases c with
  | rowRef r =>
    by_cases owns : s.owns r = true
    · simp only [RowScope.readGuard?, owns, if_true, Option.getD_some, Runs.path_iff] at h
      obtain ⟨path, present, rfl, rfl⟩ := h
      exact ⟨.refl _, .path owns (hq.forest ▸ present) (clear (refersTo_of_owns owns))⟩
    · simp only [RowScope.readGuard?, owns] at h
      exact ih hq h
  | _ => exact ih hq h

theorem places_nullSafeEqual (clear : s.Clear Δ (.nullSafeEqual guards a b))
    (ih : ∀ c ∈ (Expr.nullSafeEqual guards a b).children, s.Places M p Γ Δ (resolveWith again s c) c) :
    s.Places M p Γ Δ (resolveWith again s (.nullSafeEqual guards a b)) (.nullSafeEqual guards a b) := by
  intro q e' q' hq h
  rw [resolveWith] at h
  simp only [Runs.bind_iff, mapItemsIn_eq, Runs.pure_iff] at h
  obtain ⟨guards', q₁, hguards, a', q₂, ha, b', q₃, hb, rfl, rfl⟩ := h
  have guard {c} (hc : c ∈ guards) : s.Places M p Γ Δ ((s.readGuard? c).getD (resolveWith again s c)) c := by
    have hc : c ∈ (Expr.nullSafeEqual guards a b).children := by simp [children, hc]
    exact places_guard (fun h => clear (refersTo_of_child hc h)) (ih c hc)
  obtain ⟨h₁, guards⟩ := Runs.mapItems_within OnlyNames OnlyNames.refl OnlyNames.trans
    (fun c hc r c' r' hr hrun => (guard hc (hq.trans hr) hrun).1) hguards
  obtain ⟨h₂, ha⟩ := ih a (by simp [children]) (hq.trans h₁) ha
  obtain ⟨h₃, hb⟩ := ih b (by simp [children]) (hq.trans (h₁.trans h₂)) hb
  refine ⟨h₁.trans (h₂.trans h₃), .of_sameHead rfl (.nullSafeEqual (guards.imp ?_) ha hb)⟩
  rintro c c' ⟨hc, r, r', hr, -, hrun⟩
  exact (guard hc (hq.trans hr) hrun).2

end Cases

/-- Resolving puts the paths of a row into an expression. The induction is on the size, since a lambda that
is renamed is not a part of the expression. -/
theorem resolveWith_places (n : Nat) (hsize : e.size ≤ n) (plain : e.hasStream = false)
    (untaken : s.Captures e → s.Untaken p.names e) (same : ∀ x ∈ e.names, referent Γ x = referent Δ x)
    (clear : s.Clear Δ e) : s.Places M p Γ Δ (resolveWith again s e) e := by
  induction n generalizing e Γ Δ p with
  | zero => cases e <;> simp [size] at hsize
  | succ n ih =>
    have part {c} (hc : c ∈ e.children) {Γ Δ : List (List String)}
        (same : ∀ x ∈ c.names, referent Γ x = referent Δ x) (clear : s.Clear Δ c) :
        s.Places M p Γ Δ (resolveWith again s c) c := by
      have smaller := size_lt_of_mem_children hc
      exact ih (by omega) ((hasStream_eq_false_iff.1 plain).2 c hc)
        (fun captures => (untaken (captures.of_child hc)).child hc) same clear
    have inPlace (c) (hc : c ∈ e.children) : s.Places M p Γ Δ (resolveWith again s c) c :=
      part hc (fun x hx => same x (mem_names_of_child hc hx)) fun h => clear (refersTo_of_child hc h)
    cases e with
    | param x =>
      intro q e' q' hq h
      rw [resolveWith_parts rfl] at h
      obtain ⟨rfl, rfl⟩ := Runs.pure_iff.1 h
      exact ⟨.refl _, .param (same x (by simp [names, nodes, ownNames]))⟩
    | rowRef r => exact places_rowRef clear
    | member t name =>
      cases t with
      | rowRef r => exact places_member_rowRef fun h => clear (refersTo_of_child (.head _) h)
      | _ => exact places_parts rfl rfl inPlace
    | lambda params body =>
      have ofBody {x : String} (hx : x ∈ body.names) : x ∈ (Expr.lambda params body).names :=
        mem_names_of_child (.head _) hx
      by_cases captured : s.capturedBy params body = true
      · have untaken := untaken ⟨params, body, self_mem_nodes _, captured⟩
        refine places_captured captured untaken fun {q} hq => ?_
        have hnames : q.names + 1 > p.names := Nat.lt_succ_of_le hq
        simp only [RowScope.capturedBy, Bool.and_eq_true, List.contains_iff_mem] at captured
        refine ih ?_ (hasStream_substitute ((hasStream_eq_false_iff.1 plain).2 body (.head _)))
          (fun _ => ((untaken.mono hq).child (.head _)).substitute)
          (referent_body_rename captured.1 fun x hx => same x (ofBody hx)) fun _ => ?_
        · rw [Lambda.size_body_rename]
          exact Nat.le_of_succ_le_succ hsize
        · exact List.forall_mem_cons.2 ⟨not_mem_params_rename (untaken _ hnames).1,
            clear (refersTo_of_child (.head _) captured.2)⟩
      · refine places_lambda (Bool.of_not_eq_true captured) (part (.head _) ?_ fun refers => ?_)
        · exact fun x hx => referent_congr fun _ => same x (ofBody hx)
        · refine List.forall_mem_cons.2 ⟨?_, clear (refersTo_of_child (.head _) refers)⟩
          simpa [RowScope.capturedBy, refers] using captured
    | nullSafeEqual guards a b => exact places_nullSafeEqual clear inPlace
    | stream rows selector frame => exact absurd rfl ((hasStream_eq_false_iff.1 plain).1 rows selector frame)
    | _ => exact places_parts rfl rfl inPlace

/-- Resolving an expression without streams captures nothing, if no name is taken that a lambda can get which
would capture the row: every reference to the row becomes a path whose root is bound by no lambda of the
result, and every other parameter refers to the binder that it referred to before. -/
theorem resolve_placed (plain : e.hasStream = false) (untaken : s.Captures e → s.Untaken p.names e)
    (h : Runs (resolve s e) M p e' p') : Placed p.forest s [] [] e e' :=
  have clear : s.Clear [] e := fun _ _ hl => by cases hl
  (resolveWith_places e.size (Nat.le_refl _) plain untaken (fun _ _ => rfl) clear (.refl p) h).2

/-- Old names are not taken. -/
theorem RowScope.untaken_of_old {k : Nat} (hs : OldName k s.parameter) (he : e.NamesOld k) : s.Untaken k e := by
  intro n hn
  obtain ⟨letter, hletter⟩ := rowParameter_eq s.parameter
  have generated : s.lambdaName n = generatedName letter n := congrArg (· ++ toString n) hletter
  exact ⟨fun heq => hs letter n hn (heq.symm.trans generated),
    fun hmem => he _ hmem letter n hn generated⟩

end Resolving

namespace Shop

/-- Where orders are the rows of the only source. -/
def ordersOnly : Progress where
  forest := (Forest.empty.addSource "Order" false).2

def overOrders : RowScope := ⟨"o", [⟨0⟩]⟩

def total (e : Expr) : Expr := .member e "Total"

/-- The total of the row. -/
def rowTotal : Expr := total (.rowRef ⟨⟨0⟩, ⟨0⟩, []⟩)

/-- A lambda that takes the row parameter's name, and what it becomes. -/
def largerTotal : Expr := .lambda ["o"] (.binary .greater (total (.param "o")) rowTotal)

def largerTotalRead : Expr := .lambda ["o1"] (.binary .greater (total (.param "o1")) (total (.param "o")))

/-- The same with a lambda inside that has the name already. -/
def sameTotal : Expr := .lambda ["o"] (.lambda ["o1"] (.binary .equal (total (.param "o")) rowTotal))

def sameTotalRead : Expr :=
  .lambda ["o1"] (.lambda ["o1"] (.binary .equal (total (.param "o1")) (total (.param "o"))))

end Shop

/-- The lambda is renamed, and the path is put beside its parameter. -/
theorem placed_largerTotal : ∃ p',
    Runs (resolve Shop.overOrders Shop.largerTotal) ⟨Shop.catalog, {}⟩ Shop.ordersOnly Shop.largerTotalRead
      p' ∧
    Placed Shop.ordersOnly.forest Shop.overOrders [] [] Shop.largerTotal Shop.largerTotalRead := by
  have h : Runs (resolve Shop.overOrders Shop.largerTotal) ⟨Shop.catalog, {}⟩ Shop.ordersOnly
      Shop.largerTotalRead { Shop.ordersOnly with names := 1 } := by cbv
  have digitless : ∀ x ∈ Shop.largerTotal.names, endsInDigit x = false := by decide
  refine ⟨_, h, resolve_placed (by decide) (fun _ => RowScope.untaken_of_old ?_ ?_) h⟩
  · exact .of_not_endsInDigit (by decide)
  · exact fun x hx => .of_not_endsInDigit (digitless x hx)

/-- The outer parameter ends up under the inner lambda, since the name for the outer one is taken there. -/
theorem not_placed_sameTotal : ∃ p',
    Shop.sameTotal.hasStream = false ∧
    Runs (resolve Shop.overOrders Shop.sameTotal) ⟨Shop.catalog, {}⟩ Shop.ordersOnly Shop.sameTotalRead p' ∧
    ¬ Placed Shop.ordersOnly.forest Shop.overOrders [] [] Shop.sameTotal Shop.sameTotalRead := by
  refine ⟨{ Shop.ordersOnly with names := 1 }, by decide, by cbv, fun placed => ?_⟩
  cases placed with
  | node kind => cases kind
  | lambda _ placed =>
    cases placed with
    | node kind => cases kind
    | lambda _ placed =>
      cases placed with
      | node _ _ parts =>
        cases parts (Shop.total (.param "o")) (Shop.total (.param "o1")) (.head _) with
        | node _ _ parts =>
          cases parts (.param "o") (.param "o1") (.head _) with
          | param h => cases h
          | node kind => cases kind

end EntityQuery
