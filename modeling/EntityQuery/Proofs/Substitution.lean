import EntityQuery.Proofs.Weakening

/-!
# Selectors for row parameters

The selector of a stream is put for the row parameter of a lambda body. Nothing is captured if it has
no parameters of its own, or if the body has no lambdas, and both the shape and the value of the body
stay.
-/

namespace EntityQuery

open EntityQuery.Expr

/-- The shapes of the parameters once the parameter `x`, which has the shape `s`, is gone. -/
structure Shapes.Without (Γ Γ' : Shapes) (x : String) (s : Shape) : Prop where
  here : Γ.lookup x = some s
  rest : ∀ y t, y ≠ x → Γ.lookup y = some t → Γ'.lookup y = some t

namespace Shapes.Without

variable {Γ Γ' : Shapes} {x : String} {s : Shape}

theorem single (x : String) (s : Shape) : Shapes.Without [(x, s)] Γ x s where
  here := List.lookup_cons_self
  rest := by
    intro y t hy h
    simp only [List.lookup_cons, beq_false_of_ne hy] at h
    cases h

theorem cons (h : Γ.Without Γ' x s) {y : String} (hy : y ≠ x) (t : Shape) :
    Shapes.Without ((y, t) :: Γ) ((y, t) :: Γ') x s where
  here := by
    simp only [List.lookup_cons, beq_false_of_ne hy.symm]
    exact h.here
  rest := by
    intro z u hz hu
    rw [List.lookup_cons] at hu ⊢
    split at hu
    · exact hu
    · exact h.rest z u hz hu

theorem shadowed (h : Γ.Without Γ' x s) (t : Shape) :
    Shapes.Le ((x, t) :: Γ) ((x, t) :: Γ') := by
  intro y u hu
  rw [List.lookup_cons] at hu ⊢
  split at hu
  · exact hu
  · next hy => exact h.rest y u (by simpa using hy) hu

end Shapes.Without

section Equations

variable {x : String} {d : Expr}

theorem substitute_lambda_one (y : String) (body : Expr) :
    (Expr.lambda [y] body).substitute x d =
      .lambda [y] (if y = x then body else body.substitute x d) := by
  rw [substitute_lambda]
  simp only [List.mem_singleton, eq_comm (a := x)]
  split <;> rfl

theorem substitute_call_two (op : Operator) (a b : Expr) (note : Option CallNote) :
    (Expr.call op [a, b] note).substitute x d =
      .call op [a.substitute x d, b.substitute x d] note :=
  substitute_of_none rfl

theorem substitute_record_cons (name : String) (e : Expr) (fields : List (String × Expr)) :
    ∃ fields', (Expr.record fields).substitute x d = .record fields' ∧
      (Expr.record ((name, e) :: fields)).substitute x d =
        .record ((name, e.substitute x d) :: fields') :=
  ⟨_, substitute_of_none rfl, substitute_of_none rfl⟩

end Equations

namespace HasShape

variable {S : Setting} {f g : Form} {n : Bool} {Γ Γ' Δ : Shapes} {e d : Expr} {s t : Shape}
  {x : String}

/-- A lambda whose own parameter has the name that is replaced keeps its body. -/
theorem substitute_under {y : String} {body : Expr} {u : Shape} (hΓ : Γ.Without Γ' x s)
    (hb : HasShape S .raw true ((y, u) :: Γ) body .scalar)
    (other : y ≠ x → HasShape S .raw true ((y, u) :: Γ') (body.substitute x d) .scalar) :
    HasShape S .raw true ((y, u) :: Γ') (if y = x then body else body.substitute x d) .scalar := by
  split
  · next hy =>
    subst hy
    exact hb.weaken (.refl S) (.inl rfl) id (hΓ.shadowed u)
  · next hy => exact other hy

/-- A selector for a parameter keeps shapes. -/
theorem substitute (h : HasShape S f n Γ e t) (hf : f = .raw) (hd : HasShape S g false Δ d s)
    (hn : n = true → Δ = []) (hΔ : Δ.Le Γ') (hΓ : Γ.Without Γ' x s) :
    HasShape S .raw n Γ' (e.substitute x d) t := by
  induction h generalizing Γ' with
  | @param _ _ _ y _ h hy =>
    rw [substitute_param]
    split
    · next heq =>
      subst heq
      obtain rfl := Option.some.inj (h.symm.trans hΓ.here)
      exact hd.weaken (.refl S) (.inr rfl) (fun h => nomatch h) hΔ
    · next hne => exact .param (hΓ.rest _ _ hne h) hy
  | const value => exact .const value
  | ref h hr hrows _ => exact .ref h hr hrows (fun h => nomatch h)
  | set h => exact .set h
  | property _ ht hnav hp ih => exact .property (ih hf hn hΔ hΓ) ht hnav hp
  | navigation _ hnav hc _ ih => exact .navigation (ih hf hn hΔ hΓ) hnav hc (fun h => absurd rfl h)
  | field _ hs _ ih => exact .field (ih hf hn hΔ hΓ) hs (fun h => absurd rfl h)
  | size _ hnav hc _ ih => exact .size (ih hf hn hΔ hΓ) hnav hc (fun h => absurd rfl h)
  | refSize h hr _ => exact .refSize h hr (fun h => nomatch h)
  | binary op _ _ hop iha ihb => exact .binary op (iha hf hn hΔ hΓ) (ihb hf hn hΔ hΓ) hop
  | not _ ih => exact .not (ih hf hn hΔ hΓ)
  | cond _ _ _ iha ihb ihd => exact .cond (iha hf hn hΔ hΓ) (ihb hf hn hΔ hΓ) (ihd hf hn hΔ hΓ)
  | nil => exact .nil
  | @cons _ _ _ name e _ fields _ _ _ ihe ihf =>
    obtain ⟨fields', hfields, heq⟩ := substitute_record_cons (x := x) (d := d) name e fields
    have ihf := ihf hf hn hΔ hΓ
    rw [hfields] at ihf
    rw [heq]
    exact .cons (ihe hf hn hΔ hΓ) ihf
  | convert t nullable _ ih => exact .convert t nullable (ih hf hn hΔ hΓ)
  | filter note _ hb hy ihs ihb =>
    rw [substitute_call_two, substitute_lambda_one]
    exact .filter note (ihs hf hn hΔ hΓ) (substitute_under hΓ hb fun hne => ihb rfl hn (hn rfl ▸ .nil _) (hΓ.cons hne _)) hy
  | total note ho _ ihs => exact .total note ho (ihs hf hn hΔ hΓ)
  | totalWhere note ho _ hb hy ihs ihb =>
    rw [substitute_call_two, substitute_lambda_one]
    exact .totalWhere note ho (ihs hf hn hΔ hΓ) (substitute_under hΓ hb fun hne => ihb rfl hn (hn rfl ▸ .nil _) (hΓ.cons hne _)) hy

/-- The same for values, with one more value bound on both sides. -/
theorem denote_substitute_under {tables : Tables} {o : OpenRows} (ho : S.Within o) {v : Value}
    {y : String} {body : Expr} {u : Shape} {scope scope' : Scope} (hΓ : Γ.Without Γ' x s)
    (hx : scope.lookup x = some v)
    (hscope : ∀ y t, y ≠ x → Γ.lookup y = some t → scope'.lookup y = scope.lookup y)
    (hb : HasShape S .raw true ((y, u) :: Γ) body .scalar)
    (other : y ≠ x → ∀ {scope scope' : Scope}, scope.lookup x = some v →
      (∀ z t, z ≠ x → List.lookup z ((y, u) :: Γ) = some t → scope'.lookup z = scope.lookup z) →
      (body.substitute x d).denote S.catalog tables o ((y, u) :: Γ') scope' =
        body.denote S.catalog tables o ((y, u) :: Γ) scope) (w : Value) :
    (if y = x then body else body.substitute x d).denote S.catalog tables o ((y, u) :: Γ')
      (scope'.bind [y] [w]) = body.denote S.catalog tables o ((y, u) :: Γ) (scope.bind [y] [w]) := by
  change Expr.denote S.catalog tables o ((y, u) :: Γ') ((y, w) :: scope') _ =
    body.denote S.catalog tables o ((y, u) :: Γ) ((y, w) :: scope)
  have bound : ∀ z t, z ≠ x → List.lookup z ((y, u) :: Γ) = some t →
      List.lookup z ((y, w) :: scope') = List.lookup z ((y, w) :: scope) := by
    intro z t hne hz
    rw [List.lookup_cons] at hz ⊢
    rw [List.lookup_cons]
    split at hz
    · rfl
    · exact hscope z t hne hz
  split
  · next hy =>
    subst hy
    refine hb.denote_weaken ho ho (fun _ => rfl) (hΓ.shadowed u) fun z t hz => ?_
    by_cases hne : z = y
    · subst hne
      simp only [List.lookup_cons_self]
    · exact bound z t hne hz
  · next hy =>
    refine other hy ?_ bound
    simp only [List.lookup_cons, beq_false_of_ne (Ne.symm hy)]
    exact hx

/-- A selector for a parameter keeps values if it has the parameter's value. -/
theorem denote_substitute (h : HasShape S f n Γ e t) (hf : f = .raw)
    (hd : HasShape S g false Δ d s) (hn : n = true → Δ = []) (hΔ : Δ.Le Γ')
    (hΓ : Γ.Without Γ' x s) {tables : Tables} {o : OpenRows} (ho : S.Within o) {v : Value}
    {inner scope scope' : Scope} (hv : d.denote S.catalog tables o Δ inner = .ok v)
    (hinner : ∀ y t, Δ.lookup y = some t → scope'.lookup y = inner.lookup y)
    (hx : scope.lookup x = some v)
    (hscope : ∀ y t, y ≠ x → Γ.lookup y = some t → scope'.lookup y = scope.lookup y) :
    (e.substitute x d).denote S.catalog tables o Γ' scope' =
      e.denote S.catalog tables o Γ scope := by
  have shapes {f n Γ Γ' e t} (h : HasShape S f n Γ e t) (hf : f = .raw) (hn : n = true → Δ = [])
      (hΔ : Δ.Le Γ') (hΓ : Γ.Without Γ' x s) :
      (e.substitute x d).shape? S.catalog o Γ' = e.shape? S.catalog o Γ := by
    rw [h.shape?_eq ho, (h.substitute hf hd hn hΔ hΓ).shape?_eq ho]
  have closed (hΔ : Δ = []) {scope' : Scope} :
      ∀ y t, Δ.lookup y = some t → scope'.lookup y = inner.lookup y := by
    subst hΔ
    exact fun _ _ h => nomatch h
  induction h generalizing Γ' scope scope' with
  | @param _ _ _ y _ h hy =>
    rw [substitute_param]
    split
    · next heq =>
      subst heq
      rw [hd.denote_weaken ho ho (fun _ => rfl) hΔ hinner, hv]
      simp only [Expr.denote, hx]
      rfl
    · next hne => simp only [Expr.denote, hscope _ _ hne h]
  | const value => rfl
  | ref _ _ _ _ => rfl
  | set _ => rfl
  | property he _ _ _ ih | navigation he _ _ _ ih | field he _ _ ih =>
    change (Expr.member (Expr.substitute _ x d) _).denote S.catalog tables o Γ' scope' = _
    rw [denote_member, denote_member, shapes he hf hn hΔ hΓ, ih hf hn hΔ hΓ hinner hx hscope]
  | size he hnav hc hform ih =>
    change (Expr.member (Expr.member (Expr.substitute _ x d) _) _).denote S.catalog tables o Γ' scope' = _
    have hs := shapes (.navigation he hnav (fun _ => rfl) hform) hf hn hΔ hΓ
    rw [show ∀ e name, (Expr.member e name).substitute x d = .member (e.substitute x d) name from
      fun _ _ => rfl] at hs
    rw [denote_member, denote_member, denote_member, denote_member, hs, shapes he hf hn hΔ hΓ,
      ih hf hn hΔ hΓ hinner hx hscope]
  | refSize _ _ _ => rfl
  | binary op _ _ _ iha ihb =>
    change (Expr.binary op (Expr.substitute _ x d) (Expr.substitute _ x d)).denote S.catalog tables o Γ' scope' = _
    simp only [Expr.denote, iha hf hn hΔ hΓ hinner hx hscope, ihb hf hn hΔ hΓ hinner hx hscope]
  | not _ ih =>
    change (Expr.not (Expr.substitute _ x d)).denote S.catalog tables o Γ' scope' = _
    simp only [Expr.denote, ih hf hn hΔ hΓ hinner hx hscope]
  | cond _ _ _ iha ihb ihd =>
    change (Expr.cond (Expr.substitute _ x d) (Expr.substitute _ x d) (Expr.substitute _ x d)).denote S.catalog
      tables o Γ' scope' = _
    simp only [Expr.denote, iha hf hn hΔ hΓ hinner hx hscope, ihb hf hn hΔ hΓ hinner hx hscope, ihd hf hn hΔ hΓ hinner hx hscope]
  | nil => rfl
  | @cons _ _ _ name e _ fields _ _ _ ihe ihf =>
    obtain ⟨fields', hfields, heq⟩ := substitute_record_cons (x := x) (d := d) name e fields
    have ihf := ihf hf hn hΔ hΓ hinner hx hscope
    rw [hfields] at ihf
    rw [heq]
    exact denote_record_cons (ihe hf hn hΔ hΓ hinner hx hscope) ihf
  | convert t nullable _ ih =>
    change (Expr.convert (Expr.substitute _ x d) t nullable).denote S.catalog tables o Γ' scope' = _
    simp only [Expr.denote, ih hf hn hΔ hΓ hinner hx hscope]
  | filter note hs hb hy ihs ihb =>
    rw [substitute_call_two, substitute_lambda_one]
    have element := hs.element_eq ho
    exact denote_lambda_congr note note (.inl rfl) (ihs hf hn hΔ hΓ hinner hx hscope)
      ((shapes hs hf hn hΔ hΓ).symm ▸ element) element
      (denote_substitute_under ho hΓ hx hscope hb fun hne {_ _} hx hscope =>
        ihb rfl hn (hn rfl ▸ .nil _) (hΓ.cons hne _) (closed (hn rfl)) hx hscope)
  | total note htotal _ ihs => exact denote_total_congr note note htotal (ihs hf hn hΔ hΓ hinner hx hscope)
  | totalWhere note htotal hs hb hy ihs ihb =>
    rw [substitute_call_two, substitute_lambda_one]
    have element := hs.element_eq ho
    exact denote_lambda_congr note note (.inr htotal) (ihs hf hn hΔ hΓ hinner hx hscope)
      ((shapes hs hf hn hΔ hΓ).symm ▸ element) element
      (denote_substitute_under ho hΓ hx hscope hb fun hne {_ _} hx hscope =>
        ihb rfl hn (hn rfl ▸ .nil _) (hΓ.cons hne _) (closed (hn rfl)) hx hscope)

end HasShape

end EntityQuery
