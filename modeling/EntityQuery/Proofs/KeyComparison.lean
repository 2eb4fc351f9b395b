import EntityQuery.Expansion.KeyEquality
import EntityQuery.Proofs.Binding
import EntityQuery.Proofs.Names

/-!
# Comparisons of scalars

Where equalities compare scalars only, comparing by keys changes nothing, unless equalities are to
be guarded against missing rows.
-/

namespace EntityQuery

open EntityQuery.Expr

variable {M : Model} {p p' : Progress} {opens : List SourceId} {S : Setting}

/-- An action that changes no node of an expression changes the expression not. -/
theorem Runs.rewrite_unchanged {act : Expr → Expansion Expr} {e : Expr}
    (hact : ∀ d ∈ e.nodes, ∀ p' d', Runs (act d) M p d' p' → d' = d ∧ p = p') {e' : Expr}
    (h : Runs (rewrite act e) M p e' p') : e' = e ∧ p = p' := by
  induction e using children_induction generalizing e' p' with
  | step e ih =>
    rw [rewrite_eq, Runs.bind_iff] at h
    obtain ⟨e₁, q, hchildren, h⟩ := h
    have part {c : Expr} (hc : c ∈ e.children) {q' : Progress} {c' : Expr}
        (hrun : Runs (rewrite act c) M p c' q') : c' = c ∧ p = q' :=
      ih c hc (fun d hd => hact d (mem_nodes_of_child hc hd)) hrun
    obtain ⟨rfl, head⟩ := Runs.mapChildren_within (fun q q' => q = q') (fun _ => rfl)
      (fun h k => h.trans k) (fun c hc q c' q' hq hrun => by subst hq; exact (part hc hrun).2)
      hchildren
    have heq : e = e₁ := by
      refine (head.mono ?_).eq
      rintro c c' ⟨hc, q, q', rfl, rfl, hrun⟩
      exact (part hc hrun).1.symm
    subst heq
    exact hact e (self_mem_nodes e) _ _ h

namespace HasShape

/-- What is compared in an expression that has a shape. -/
def ComparesScalars (S : Setting) (d : Expr) : Prop :=
  (∀ name args, d ≠ .function name args) ∧
    ∀ op a b, d = .binary op a b → op.isEquality = true →
      ∃ f n Γ, HasShape S f n Γ a .scalar ∧ HasShape S f n Γ b .scalar

theorem comparesScalars {f : Form} {n : Bool} {Γ : Shapes} {e : Expr} {s : Shape}
    (h : HasShape S f n Γ e s) : ∀ d ∈ e.nodes, ComparesScalars S d := by
  intro d hd
  rcases h.part.of_node d hd with ⟨f, Γ', t, hd, -⟩ | ⟨-, x, body, -, -, rfl, -, -⟩
  · refine ⟨fun name args => ?_, ?_⟩
    · rintro rfl
      cases hd
    · rintro op a b rfl heq
      cases hd with
      | binary _ ha hb hop =>
        obtain ⟨rfl, rfl⟩ := hop heq
        exact ⟨_, _, _, ha, hb⟩
  · exact ⟨by simp, by simp⟩

end HasShape

/-- A scalar is compared as it is. -/
theorem Operand.of_scalar (hp : p.forest.Sound M.catalog) (hS : S.Le (p.setting M.catalog opens))
    {f : Form} {n : Bool} {Γ : Shapes} {e : Expr} (h : HasShape S f n Γ e .scalar) :
    Operand.of p.forest e = .null ∨ Operand.of p.forest e = .other := by
  cases e with
  | rowRef r =>
    cases h with
    | ref hr href _ _ =>
    have hshape := Progress.shapeOf_eq hp (hS.refs href) (hS.shapeOf hr)
    cases hc : (p.forest.node r.node).isCollection with
    | true =>
      obtain ⟨edge, he, -⟩ := (Option.any_eq_true _ _).1 hc
      rw [Forest.shapeAt_collection he hc] at hshape
      cases hshape
    | false =>
      obtain ⟨_, -, hs⟩ := Forest.shapeAt_single hp (hS.refs href).1 hc
      rw [hs] at hshape
      cases hshape
  | _ =>
    simp only [Operand.of]
    split
    · exact .inl rfl
    · exact .inr rfl

/-- Without guards, comparing by keys leaves comparisons of scalars alone. -/
theorem compareByKeys_run (hset : M.settings.nullSafeEquality = false)
    (hp : p.forest.Sound M.catalog) (hS : S.Le (p.setting M.catalog opens)) {f : Form} {n : Bool}
    {Γ : Shapes} {e e' : Expr} {s : Shape} (ht : HasShape S f n Γ e s)
    (h : Runs (compareByKeys e) M p e' p') : e' = e ∧ p = p' := by
  refine Runs.rewrite_unchanged (fun d hd q d' hrun => ?_) h
  obtain ⟨hfun, hbin⟩ := ht.comparesScalars d hd
  split at hrun
  · next op a b =>
    split at hrun
    · next hop =>
      obtain ⟨f, n, Γ, ha, hb⟩ := hbin op a b rfl hop
      simp only [compareSides, Runs.bind_iff, Runs.forest_iff] at hrun
      obtain ⟨_, _, ⟨rfl, rfl⟩, hrun⟩ := hrun
      have equality (hrun : Runs (equality op a b) M p d' q) : d' = .binary op a b ∧ p = q := by
        simp only [EntityQuery.equality, Runs.bind_iff, Runs.settings_iff] at hrun
        obtain ⟨_, _, ⟨rfl, rfl⟩, hrun⟩ := hrun
        rw [hset, Bool.and_false, if_neg Bool.false_ne_true] at hrun
        exact Runs.pure_iff.1 hrun
      rcases Operand.of_scalar hp hS ha with hoa | hoa <;>
        rcases Operand.of_scalar hp hS hb with hob | hob <;> rw [hoa, hob] at hrun <;>
        exact equality hrun
    · exact Runs.pure_iff.1 hrun
  · exact absurd rfl (hfun _ _)
  · exact Runs.pure_iff.1 hrun

end EntityQuery
