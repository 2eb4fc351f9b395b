import EntityQuery.Proofs.Typing

/-!
# Weakening

A shape stays in a larger setting (`HasShape.weaken`), and so does the value
(`HasShape.denote_weaken`). Outside of lambdas, a bound expression of entity shape is a reference and
one of record shape a record.
-/

namespace EntityQuery

/-- The second setting knows all that the first does. -/
structure Setting.Le (S S' : Setting) : Prop where
  catalog : S'.catalog = S.catalog
  entity : ∀ {m entity}, S.entity m = some entity → S'.entity m = some entity
  refs : ∀ {r}, S.refs r → S'.refs r
  names : ∀ {x}, S.names x → S'.names x

namespace Setting.Le

variable {S S' S'' : Setting}

theorem refl (S : Setting) : S.Le S := ⟨rfl, id, id, id⟩

theorem trans (h : S.Le S') (k : S'.Le S'') : S.Le S'' :=
  ⟨k.catalog.trans h.catalog, fun x => k.entity (h.entity x), fun x => k.refs (h.refs x),
    fun x => k.names (h.names x)⟩

theorem shapeOf (h : S.Le S') {r : RowRef} {s : Shape} (hs : S.shapeOf r = some s) :
    S'.shapeOf r = some s := by
  rw [Setting.shapeOf, Option.bind_eq_some_iff] at *
  obtain ⟨t, ht, hs⟩ := hs
  obtain ⟨entity, he, rfl⟩ := Option.map_eq_some_iff.1 ht
  exact ⟨_, by rw [h.entity he]; rfl, h.catalog ▸ hs⟩

end Setting.Le

/-- The second list of shapes gives every parameter of the first its shape. -/
def Shapes.Le (Γ Γ' : Shapes) : Prop := ∀ x s, Γ.lookup x = some s → Γ'.lookup x = some s

theorem Shapes.Le.cons {Γ Γ' : Shapes} (h : Γ.Le Γ') (x : String) (s : Shape) :
    Shapes.Le ((x, s) :: Γ) ((x, s) :: Γ') := by
  intro y t hy
  rw [List.lookup_cons] at *
  split at hy
  · exact hy
  · exact h y t hy

theorem Shapes.Le.refl (Γ : Shapes) : Γ.Le Γ := fun _ _ h => h

theorem Shapes.Le.nil (Γ : Shapes) : Shapes.Le [] Γ := fun _ _ h => nomatch h

/-- No member path leads from an entity to a record. -/
theorem Shape.along?_ne_record (c : Catalog) (path : List String) {s : Shape}
    (hs : ∀ fields, s ≠ .record fields) (fields : List (String × Shape)) :
    s.along? c path ≠ some (.record fields) := by
  induction path generalizing s with
  | nil =>
    rw [along?]
    exact fun h => hs fields (Option.some.inj h)
  | cons name path ih =>
    intro h
    rw [along?, Option.bind_eq_some_iff] at h
    obtain ⟨t, ht, h⟩ := h
    refine ih (s := t) ?_ h
    rintro fields rfl
    cases s with
    | scalar => cases ht
    | record fields => exact hs _ rfl
    | rows _ =>
      simp only [member?] at ht
      split at ht <;> cases ht
    | entity owner =>
      simp only [member?] at ht
      split at ht
      · next edge _ =>
        rw [Option.some.injEq, NavigationEdge.shape] at ht
        split at ht <;> cases ht
      · simp only [Option.map_eq_some_iff, and_false, exists_false, reduceCtorEq] at ht

theorem Setting.shapeOf_ne_record (S : Setting) (r : RowRef) (fields : List (String × Shape)) :
    S.shapeOf r ≠ some (.record fields) := by
  intro h
  rw [Setting.shapeOf, Option.bind_eq_some_iff] at h
  obtain ⟨t, ht, h⟩ := h
  obtain ⟨entity, -, rfl⟩ := Option.map_eq_some_iff.1 ht
  exact Shape.along?_ne_record _ _ (by simp) _ h

namespace HasShape

variable {S S' : Setting} {f f' : Form} {n n' : Bool} {Γ Γ' : Shapes} {e : Expr} {s : Shape}

/-- A shape in a larger setting, with more parameters, where more may be nested or as raw form. -/
theorem weaken (h : HasShape S f n Γ e s) (hS : S.Le S') (hf : f' = f ∨ f' = .raw)
    (hn : n = true → n' = true) (hΓ : Γ.Le Γ') : HasShape S' f' n' Γ' e s := by
  have bound {f f' : Form} (hf : f' = f ∨ f' = .raw) {p : Prop} (h : f ≠ .raw → p) : f' ≠ .raw → p := by
    rcases hf with rfl | rfl
    · exact h
    · exact fun h => absurd rfl h
  have ready {f f' : Form} (hf : f' = f ∨ f' = .raw) {p : Prop} (h : f = .ready → p) :
      f' = .ready → p := by
    rcases hf with rfl | rfl
    · exact h
    · exact fun h => nomatch h
  induction h generalizing f' n' Γ' with
  | param h hx => exact .param (hΓ _ _ h) (hS.names hx)
  | const value => exact .const value
  | ref h hr hrows hready =>
    exact .ref (hS.shapeOf h) (hS.refs hr) (fun h => hn (hrows h)) (ready hf hready)
  | set h =>
    cases hn rfl
    exact .set (by rw [hS.catalog]; exact h)
  | property _ ht hnav hp ih =>
    exact .property (ih hf hn hΓ) (by rw [hS.catalog]; exact ht) hnav hp
  | navigation _ hnav hc hform ih =>
    exact .navigation (ih hf hn hΓ) (by rw [hS.catalog]; exact hnav) (fun h => hn (hc h))
      (bound hf hform)
  | field _ hs hform ih => exact .field (ih hf hn hΓ) hs (bound hf hform)
  | size _ hnav hc hform ih =>
    cases hn rfl
    exact .size (ih hf hn hΓ) (by rw [hS.catalog]; exact hnav) hc (bound hf hform)
  | refSize h hr hform =>
    cases hn rfl
    exact .refSize (hS.shapeOf h) (hS.refs hr) (ready hf hform)
  | binary op _ _ hop iha ihb => exact .binary op (iha hf hn hΓ) (ihb hf hn hΓ) hop
  | not _ ih => exact .not (ih hf hn hΓ)
  | cond _ _ _ iha ihb ihd => exact .cond (iha hf hn hΓ) (ihb hf hn hΓ) (ihd hf hn hΓ)
  | nil => exact .nil
  | cons _ _ ihe ihf => exact .cons (ihe hf hn hΓ) (ihf hf hn hΓ)
  | convert t nullable _ ih => exact .convert t nullable (ih hf hn hΓ)
  | filter note _ _ hx ihs ihb =>
    cases hn rfl
    exact .filter note (ihs hf hn hΓ) (ihb (.inl rfl) hn (hΓ.cons _ _)) (hS.names hx)
  | total note ho _ ihs =>
    cases hn rfl
    exact .total note ho (ihs hf hn hΓ)
  | totalWhere note ho _ _ hx ihs ihb =>
    cases hn rfl
    exact .totalWhere note ho (ihs hf hn hΓ) (ihb (.inl rfl) hn (hΓ.cons _ _)) (hS.names hx)

theorem mono (h : HasShape S f n Γ e s) (hS : S.Le S') : HasShape S' f n Γ e s :=
  h.weaken hS (.inl rfl) id (.refl Γ)

theorem toRaw (h : HasShape S f n Γ e s) : HasShape S .raw n Γ e s :=
  h.weaken (.refl S) (.inr rfl) id (.refl Γ)

/-- Outside of lambdas, what is bound and has the shape of an entity is a reference, and what has
the shape of a record is a record. -/
theorem canonical (h : HasShape S f n [] e s) (hf : f ≠ .raw) :
    (∀ entity, s = .entity entity → e.isRef = true) ∧
      (∀ fields, s = .record fields → e.isRecord = true) := by
  generalize hΓ : ([] : Shapes) = Γ at h
  induction h with
  | param h _ =>
    subst hΓ
    cases h
  | ref h _ _ _ => exact ⟨fun _ _ => rfl, fun fields hs => absurd (hs ▸ h) (S.shapeOf_ne_record _ _)⟩
  | navigation he _ _ hform ih =>
    have := (ih hf hΓ).1 _ rfl
    rw [hform hf] at this
    cases this
  | field he _ hform ih =>
    have := (ih hf hΓ).2 _ rfl
    rw [hform hf] at this
    cases this
  | nil => exact ⟨by simp, fun _ _ => rfl⟩
  | cons _ _ _ _ => exact ⟨by simp, fun _ _ => rfl⟩
  | _ => exact ⟨by simp, by simp⟩

/-- The value of an expression does not depend on what it does not name. -/
theorem denote_weaken (h : HasShape S f n Γ e s) {tables : Tables} {o o' : OpenRows}
    (ho : S.Within o) (ho' : S.Within o')
    (hrow : ∀ {m entity}, S.entity m = some entity → o'.row m = o.row m) (hΓ : Γ.Le Γ')
    {scope scope' : Scope}
    (hscope : ∀ x s, Γ.lookup x = some s → scope'.lookup x = scope.lookup x) :
    e.denote S.catalog tables o' Γ' scope' = e.denote S.catalog tables o Γ scope := by
  have shapes {f n Γ Γ' e s} (h : HasShape S f n Γ e s) (hΓ : Γ.Le Γ') :
      e.shape? S.catalog o' Γ' = e.shape? S.catalog o Γ := by
    rw [h.shape?_eq ho, (h.weaken (.refl S) (.inl rfl) id hΓ).shape?_eq ho']
  have bound {Γ : Shapes} {scope scope' : Scope} {x : String} {s : Shape} {v : Value}
      (hscope : ∀ x s, Γ.lookup x = some s → scope'.lookup x = scope.lookup x) :
      ∀ y t, List.lookup y ((x, s) :: Γ) = some t →
        (scope'.bind [x] [v]).lookup y = (scope.bind [x] [v]).lookup y := by
    intro y t hy
    change List.lookup y ((x, v) :: scope') = List.lookup y ((x, v) :: scope)
    rw [List.lookup_cons] at hy ⊢
    rw [List.lookup_cons]
    split at hy
    · rfl
    · exact hscope y t hy
  have ref {r : RowRef} {s : Shape} (h : S.shapeOf r = some s) (Γ Γ' : Shapes)
      (scope scope' : Scope) : (Expr.rowRef r).denote S.catalog tables o' Γ' scope' =
        (Expr.rowRef r).denote S.catalog tables o Γ scope := by
    obtain ⟨entity, he, -⟩ := Setting.shapeOf_eq_some.1 h
    simp only [Expr.denote, OpenRows.shape?, ho _ _ he, ho' _ _ he, hrow he]
  induction h generalizing Γ' scope scope' with
  | param h _ => simp only [Expr.denote, hscope _ _ h]
  | const value => rfl
  | ref h _ _ _ => exact ref h _ _ _ _
  | set h => rfl
  | property he _ _ _ ih | navigation he _ _ _ ih | field he _ _ ih =>
    simp only [Expr.denote, shapes he hΓ, ih hΓ hscope]
  | size he hn _ hf ih =>
    simp only [Expr.denote, shapes (.navigation he hn (fun _ => rfl) hf) hΓ, shapes he hΓ,
      ih hΓ hscope]
  | @refSize _ Γ _ _ h hr hf =>
    have hs := shapes (.ref (f := .raw) h hr (fun _ => rfl) (by simp)) hΓ
    rw [denote_member, denote_member, ref h Γ Γ' scope scope', hs]
  | binary op _ _ _ iha ihb => simp only [Expr.denote, iha hΓ hscope, ihb hΓ hscope]
  | not _ ih => simp only [Expr.denote, ih hΓ hscope]
  | cond _ _ _ iha ihb ihd =>
    simp only [Expr.denote, iha hΓ hscope, ihb hΓ hscope, ihd hΓ hscope]
  | nil => rfl
  | cons _ _ ihe ihf => exact denote_record_cons (ihe hΓ hscope) (ihf hΓ hscope)
  | convert _ _ _ ih => simp only [Expr.denote, ih hΓ hscope]
  | filter note hs _ _ ihs ihb =>
    have element := hs.element_eq ho
    exact denote_lambda_congr note note (.inl rfl) (ihs hΓ hscope) ((shapes hs hΓ).symm ▸ element)
      element fun _ => ihb (hΓ.cons _ _) (bound hscope)
  | total note htotal _ ihs => exact denote_total_congr note note htotal (ihs hΓ hscope)
  | totalWhere note htotal hs _ _ ihs ihb =>
    have element := hs.element_eq ho
    exact denote_lambda_congr note note (.inr htotal) (ihs hΓ hscope) ((shapes hs hΓ).symm ▸ element)
      element fun _ => ihb (hΓ.cons _ _) (bound hscope)

end HasShape

end EntityQuery
