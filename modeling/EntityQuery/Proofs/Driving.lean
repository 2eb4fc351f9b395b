import EntityQuery.Proofs.Drivable

/-!
# What rewriting keeps of rows

Putting a selector for a parameter, binding, comparing by keys and filtering for collections keep what
is known of the rows in an expression, and with it that its undriven calls stand over rows
(`Transfers`). Once a body is ready, the only rows that are known without parameters are entity sets, so
the driver has expanded every chain with an undriven call (`expandSubqueries_driven`).
-/

namespace EntityQuery

open EntityQuery.Expr

variable {M : Model} {p p' q q' : Progress} {e e' : Expr} {v w : KnownRows} {form form' : Option Form}

section Substitution

/-- The expression is the reference to a single row of the entity. -/
def Forest.RowOf (f : Forest) (e : Expr) (entity : String) : Prop :=
  ∃ r, e = .rowRef r ∧ (f.node r.node).isCollection = false ∧ (f.node r.node).entity = some entity

theorem Forest.RowOf.keeps {f g : Forest} {entity : String} (h : f.RowOf e entity) (hle : f.Keeps g) :
    g.RowOf e entity := by
  obtain ⟨r, rfl, single, known⟩ := h
  have stays := hle.node (Keeps.range_of_entity known)
  exact ⟨r, rfl, stays.isCollection.trans single, stays.entity.trans known⟩

/-- The two views differ in the parameter `x`, for whose rows `d` can be put. -/
structure KnownRows.Replaces (v w : KnownRows) (x : String) (d : Expr) : Prop where
  catalog : w.catalog = v.catalog
  forest : w.forest = v.forest
  raw : v.form = some .raw
  raw' : w.form = some .raw
  rest : ∀ {y entity}, y ≠ x → v.params y = some entity → w.params y = some entity
  here : ∀ {entity}, v.params x = some entity → w.forest.RowOf d entity

variable {x : String} {d : Expr}

theorem KnownRows.below_raw (h : v.form = some .raw) : v.below = v := by
  cases v
  cases h
  rfl

theorem KnownRows.Replaces.bind (h : v.Replaces w x d) {params : List String} (hx : x ∉ params)
    (element : Option String) : (v.bind params element).Replaces (w.bind params element) x d where
  catalog := h.catalog
  forest := h.forest
  raw := h.raw
  raw' := h.raw'
  rest {y entity} hy hv := by
    simp only [KnownRows.bind] at hv ⊢
    split at hv
    · next hhead => rwa [if_pos hhead]
    · next hhead =>
      rw [if_neg hhead]
      split at hv
      · cases hv
      · next hmem => exact if_neg hmem ▸ h.rest hy hv
  here {entity} hv := by
    simp only [KnownRows.bind] at hv
    have hhead : ¬params.head? = some x := fun hhead => hx (List.mem_of_mem_head? hhead)
    rw [if_neg hhead, if_neg hx] at hv
    exact h.here hv

/-- A lambda that binds the parameter anew hides it. -/
theorem KnownRows.Replaces.shadowed (h : v.Replaces w x d) {params : List String} (hx : x ∈ params)
    (element : Option String) : (v.bind params element).Le (w.bind params element) where
  catalog := h.catalog
  keeps := h.forest ▸ .refl _
  form := .inl (h.raw'.trans h.raw.symm)
  params {y entity} hv := by
    simp only [KnownRows.bind] at hv ⊢
    split at hv
    · next hhead => rwa [if_pos hhead]
    · next hhead =>
      rw [if_neg hhead]
      split at hv
      · cases hv
      · next hmem =>
        rw [if_neg hmem]
        exact h.rest (fun hy => hmem (hy ▸ hx)) hv

/-- Nothing yields rows that is no row of anything, so only its calls count. -/
theorem Transfers.of_silent (hy : ∀ k, ¬e.Yields v k) (root : e.chainRoot = e)
    (hd : ∀ {nested element}, e.Drivable nested element v → e'.Drivable nested element w) :
    Transfers v w e e' where
  yields h := absurd h (hy _)
  onRows := by
    rintro ⟨entity, h⟩
    exact absurd (root ▸ h) (hy _)
  drivable := hd

theorem substitute_transfers (h : v.Replaces w x d) (hd : d.Driven) :
    Transfers v w e (e.substitute x d) := by
  induction e using children_induction generalizing v w with
  | step e ih =>
    cases e with
    | param y =>
      rw [substitute_param]
      split
      · next hy =>
        subst hy
        refine ⟨fun hy => ?_, fun hrows => ?_, fun _ => hd.drivable⟩
        · cases hy with
          | param known =>
            obtain ⟨r, rfl, single, known⟩ := h.here known
            exact .row (by simp [h.raw']) single known
        · obtain ⟨entity, hy⟩ := hrows
          cases hy
      · next hy =>
        refine .of_sameHead (R := fun _ _ => False) (.param y) False.elim (fun heq => by cases heq) (fun _ _ => by simp) ?_
          (fun r k heq _ => by cases heq) h.catalog
        intro z k heq hyields
        cases heq
        cases hyields with
        | param known => exact .param (h.rest hy known)
    | lambda params body =>
      rw [substitute_lambda]
      split
      · next hx => exact .lambda fun element => .of_le (h.shadowed hx element) body
      · next hx => exact .lambda fun element => ih body (.head _) (h.bind hx element)
    | _ =>
      rw [substitute_of_none rfl]
      refine .of_sameHead (SameHead.of_map _ _) ?_ ?_ (fun _ _ => by simp) ?_ ?_ h.catalog
      · rintro c _ ⟨hc, rfl⟩
        exact ih c hc h
      · rintro c _ name owner - ⟨hc, rfl⟩ hyields
        rw [KnownRows.below_raw h.raw] at hyields
        rw [KnownRows.below_raw h.raw']
        exact (ih c hc h).yields hyields
      · exact fun x k heq _ => by cases heq
      · intro r k heq hyields
        cases heq
        all_goals exact hyields.reference (h.forest ▸ .refl _) (by simp [h.raw']) (by simp [h.raw])

end Substitution

section Walks

/-- What is known at some point of an expansion. -/
def Progress.knows (p : Progress) (c : Catalog) (form : Option Form) (params : String → Option String) :
    KnownRows :=
  ⟨c, p.forest, form, params⟩

/-- What is known of an expression is still known, with the references in the second form, of what it
has become. -/
def Transferred (M : Model) (p p' : Progress) (form form' : Option Form) (e e' : Expr) : Prop :=
  ∀ params, Transfers (p.knows M.catalog form params) (p'.knows M.catalog form' params) e e'

theorem Progress.knows_le (h : p.forest.Keeps p'.forest) (c : Catalog) (form : Option Form)
    (params : String → Option String) : (p.knows c form params).Le (p'.knows c form params) :=
  ⟨rfl, h, .inl rfl, id⟩

theorem KnownRows.below_eq (h : v.form ≠ some .raw) : v.below = { v with form := none } := by
  obtain ⟨c, f, form, params⟩ := v
  cases form with
  | none => rfl
  | some f =>
    cases f with
    | raw => exact absurd rfl h
    | _ => rfl

namespace Transferred

variable {form'' : Option Form} {e'' : Expr}

theorem refl (h : p.forest.Keeps p'.forest) (form : Option Form) (e : Expr) :
    Transferred M p p' form form e e := fun params => .of_le (p.knows_le h M.catalog form params) e

theorem trans (h : Transferred M p q form form' e e') (k : Transferred M q p' form' form'' e' e'') :
    Transferred M p p' form form'' e e'' := fun params => (h params).trans (k params)

/-- Running longer on either side changes nothing. -/
theorem widen (h : Transferred M q q' form form' e e') (hq : p.forest.Keeps q.forest)
    (hq' : q'.forest.Keeps p'.forest) : Transferred M p p' form form' e e' :=
  ((refl hq form e).trans h).trans (refl hq' form' e')

theorem of_sameHead {R : Expr → Expr → Prop} (head : SameHead R e e')
    (parts : ∀ {c c'}, R c c' → Transferred M p p' form form' c c')
    (below : ∀ {c c' name owner params}, e = .member c name → R c c' →
      c.Yields (p.knows M.catalog form params).below (.row owner) →
        c'.Yields (p'.knows M.catalog form' params).below (.row owner))
    (hr : ∀ r k params, e = .rowRef r → e.Yields (p.knows M.catalog form params) k →
      e.Yields (p'.knows M.catalog form' params) k) : Transferred M p p' form form' e e' := by
  intro params
  by_cases hlambda : ∃ names body, e = .lambda names body
  · obtain ⟨names, body, rfl⟩ := hlambda
    cases head with
    | lambda _ h => exact .lambda fun element => parts h _
  · refine .of_sameHead head (fun h => parts h params) below
      (fun names body heq => hlambda ⟨names, body, heq⟩) ?_ (fun r k => hr r k params) rfl
    rintro x k rfl hyields
    cases hyields with
    | param known => exact .param known

end Transferred

end Walks

section Binding

variable {t : Expr} {name owner : String} {edge : NavigationEdge} {params : String → Option String}

/-- A navigation from a single row is bound to what it leads to, or stays if the row is still that of a
parameter. -/
theorem bindMember_yields (h : Runs (bindMember t name) M p e p') (hp : p.forest.Linked M.catalog)
    (ht : t.Yields (p.knows M.catalog (some .bound) params) (.row owner))
    (hedge : M.catalog.navigation? owner name = some edge) :
    e.isCall = false ∧
      (edge.isCollection = false →
        e.Yields (p'.knows M.catalog (some .bound) params) (.row edge.target)) ∧
      (edge.isCollection = true →
        e.Yields (p'.knows M.catalog (some .bound) params) (.rows edge.target)) := by
  cases ht with
  | @row _ r _ read single known =>
    rcases Runs.bindRowMember_cases h with ⟨-, -, hstay⟩ | ⟨c, hc, -, -⟩ |
      ⟨entity, edge', child, forest, tally, -, hentity, hedge', hfollow, rfl, rfl⟩
    · rcases hstay with hmany | hnone
      · exact absurd (single.symm.trans hmany) (by simp)
      · exact absurd ((hnone owner known).symm.trans hedge) (by simp)
    · -- Only records have fields.
      obtain ⟨hchild, hfield⟩ := Option.filter_eq_some_iff.1 hc
      have parent := (hp.children (List.mem_of_find?_eq_some hchild)).2
      cases (hp.link parent).2 with
      | navigation _ _ _ _ _ plain => simp [plain] at hfield
      | field record _ => exact absurd (record.symm.trans known) (by simp)
    · obtain rfl : entity = owner := Option.some.inj (hentity.symm.trans known)
      obtain rfl : edge' = edge := Option.some.inj (hedge'.symm.trans hedge)
      obtain ⟨-, -, hnode, target⟩ := Forest.follow_onward hp known single
        (Catalog.navigation?_name hedge ▸ hedge) hfollow
      refine ⟨rfl, fun hsingle => .row (by simp [Progress.knows]) ?_ target,
        fun hmany => .collection rfl ?_ target⟩
      · simpa [Progress.knows, Node.isCollection, hnode] using hsingle
      · simpa [Progress.knows, Node.isCollection, hnode] using hmany
  | param known =>
    obtain ⟨rfl, rfl⟩ := Runs.pure_iff.1 h
    have ht : (Expr.param _).Yields (p.knows M.catalog (some .bound) params).below (.row owner) :=
      .param known
    exact ⟨rfl, fun hsingle => .navigation ht hedge hsingle, fun hmany => .navigations ht hedge hmany⟩
  | navigation ht hedge' single =>
    obtain ⟨rfl, rfl⟩ := Runs.pure_iff.1 h
    have ht := Yields.navigation (v := (p.knows M.catalog (some .bound) params).below) ht hedge' single
    exact ⟨rfl, fun hsingle => .navigation ht hedge hsingle, fun hmany => .navigations ht hedge hmany⟩

theorem bindMember_drivable {nested : Bool} {element : Option String}
    (h : Runs (bindMember t name) M p e p') (hp : p.forest.Linked M.catalog)
    (ht : t.Drivable nested none (p.knows M.catalog form params)) :
    e.Drivable nested element (p'.knows M.catalog form params) := by
  replace ht := ht.mono (p.knows_le (bindMember_onward t name h hp).2 M.catalog form params)
  have member : (Expr.member t name).Drivable nested element (p'.knows M.catalog form params) :=
    .plain rfl (by simpa [children] using ht)
  have ref {f : Forest} {n : NodeId} : (f.ref n).Drivable nested element (p'.knows M.catalog form params) :=
    .plain rfl (by simp [Forest.ref, children])
  unfold bindMember at h
  split at h
  · next fields =>
    obtain ⟨rfl, -⟩ := Runs.pure_iff.1 h
    cases hl : fields.lookup name with
    | none => exact member
    | some value =>
      obtain ⟨before, after, rfl, -⟩ := List.lookup_eq_some_iff.1 hl
      cases ht with
      | plain _ parts => exact (parts value (by simp [children])).of_none
  · rcases Runs.bindRowMember_cases h with ⟨rfl, -⟩ | ⟨c, -, rfl, -⟩ |
      ⟨_, _, _, _, _, -, -, -, -, -, rfl⟩
    · exact member
    · exact ref
    · exact ref
  · obtain ⟨rfl, -⟩ := Runs.pure_iff.1 h
    exact member

theorem bind_transferred (h : Runs (bind e) M p e' p') (hp : p.forest.Linked M.catalog) :
    Transferred M p p' (some .raw) (some .bound) e e' := by
  induction e using children_induction generalizing p e' p' with
  | step e ih =>
    rw [bind, rewrite_eq, Runs.bind_iff] at h
    obtain ⟨e₁, q, hparts, h⟩ := h
    have head := (Runs.mapChildren_linked (fun c _ => bind_onward c) hp hparts).mono
      (S := fun c c' => Transferred M p q (some .raw) (some .bound) c c')
      (by
        rintro c c' ⟨hc, r, r', linked, keeps, keeps', hrun⟩
        exact (ih c hc hrun linked).widen keeps keeps')
    have linked := ((Runs.mapChildren_onward (fun c _ => bind_onward c) hparts) hp).1
    split at h
    · next t' name =>
      cases head with
      | @member t _ _ ht =>
        intro params
        refine ⟨fun hy => ?_, fun hrows => ?_, fun hd => ?_⟩
        · cases hy with
          | navigation ht' hedge single =>
            exact (bindMember_yields h linked ((ht params).yields ht') hedge).2.1 single
          | navigations ht' hedge many =>
            exact (bindMember_yields h linked ((ht params).yields ht') hedge).2.2 many
        · obtain ⟨entity, hy⟩ := hrows
          cases hy with
          | navigations ht' hedge many =>
            obtain ⟨call, -, rows⟩ := bindMember_yields h linked ((ht params).yields ht') hedge
            exact (rows many).onRows
        · cases hd with
          | plain _ parts => exact bindMember_drivable h linked ((ht params).drivable (parts t (.head _)))
    · next hne =>
      obtain ⟨rfl, rfl⟩ := Runs.pure_iff.1 h
      have notMember (t : Expr) (name : String) : e ≠ .member t name := by
        rintro rfl
        cases head
        exact hne _ _ rfl
      refine .of_sameHead head (fun h => h) ?_ ?_
      · exact fun heq => absurd heq (notMember _ _)
      · rintro r k params rfl hyields
        exact hyields.reference (Runs.mapChildren_onward (fun c _ => bind_onward c) hparts hp).2
          (by simp [Progress.knows]) (by simp [Progress.knows])

end Binding

section Comparing

variable {nested : Bool} {element : Option String}

theorem Expr.Over.drivable (h : e.Over (Drivable nested none v)) : e.Drivable nested element v :=
  (h.of_plain .plain).of_none

theorem Expr.rowRef_drivable (r : RowRef) : (rowRef r).Drivable nested element v :=
  .plain rfl (by simp [children])

theorem compareSides_drivable {op : BinaryOp} {a b : Expr} {params : String → Option String}
    (h : Runs (compareSides op a b) M p e p') (hp : p.forest.Linked M.catalog)
    (ha : a.Drivable nested none (p.knows M.catalog form params))
    (hb : b.Drivable nested none (p.knows M.catalog form params)) :
    e.Drivable nested element (p'.knows M.catalog form params) := by
  have hle := p.knows_le (compareSides_onward op a b h hp).2 M.catalog form params
  have built := (compareSides_over h (.operand (ha.mono hle)) (.operand (hb.mono hle))
    (fun _ _ r _ => rowRef_drivable r) fun _ _ => rowRef_drivable _).1
  exact built.drivable

theorem compareByKeys_transferred (h : Runs (compareByKeys e) M p e' p')
    (hp : p.forest.Linked M.catalog) (hform : form ≠ some .raw) : Transferred M p p' form form e e' := by
  induction e using children_induction generalizing p e' p' form with
  | step e ih =>
    rw [compareByKeys, rewrite_eq, Runs.bind_iff] at h
    obtain ⟨e₁, q, hparts, h⟩ := h
    obtain ⟨linked, keeps⟩ := Runs.mapChildren_onward (fun c _ => compareByKeys_onward c) hparts hp
    have head := (Runs.mapChildren_linked (fun c _ => compareByKeys_onward c) hp hparts).mono
      (S := fun c c' => ∀ form ≠ some .raw, Transferred M p q form form c c')
      (by
        rintro c c' ⟨hc, r, r', linked, keeps, keeps', hrun⟩ form hform
        exact (ih c hc hrun linked hform).widen keeps keeps')
    have parts : Transferred M p q form form e e₁ := by
      refine Transferred.of_sameHead head (fun hR => hR form hform) ?_ ?_
      · intro c c' name owner params _ hR hyields
        rw [KnownRows.below_eq hform] at hyields ⊢
        exact (hR none (by simp) params).yields hyields
      · rintro r k params rfl hyields
        exact hyields.mono (p.knows_le keeps M.catalog form params)
    refine parts.trans fun params => ?_
    split at h
    · next op a b =>
      split at h
      · refine .of_silent (fun k hk => by cases hk) rfl fun hd => ?_
        cases hd with
        | plain _ parts =>
          exact compareSides_drivable h linked (parts a (.head _)) (parts b (.tail _ (.head _)))
      · obtain ⟨rfl, rfl⟩ := Runs.pure_iff.1 h
        exact Transferred.refl (.refl _) form _ params
    · next a b =>
      refine .of_silent (fun k hk => by cases hk) rfl fun hd => ?_
      cases hd with
      | plain _ parts =>
        exact compareSides_drivable h linked (parts a (.head _)) (parts b (.tail _ (.head _)))
    · obtain ⟨rfl, rfl⟩ := Runs.pure_iff.1 h
      exact Transferred.refl (.refl _) form _ params

end Comparing

section Collections

theorem collectionFilter_transfers {r : RowRef} {f : Forest} {params : String → Option String}
    (h : Runs (collectionFilter r) M p e p') (hp : p.forest.Linked M.catalog) (hf : f.Keeps p.forest)
    (many : (f.node r.node).isCollection = true) :
    Transfers ⟨M.catalog, f, form, params⟩ (p'.knows M.catalog form' params) (.rowRef r) e := by
  obtain ⟨edge, owner, element, ownerKey, elementKey, hedge, howner, rfl, -⟩ :=
    Runs.collectionFilter_eq h
  have root : (Expr.entitySet edge.target).Yields (p'.knows M.catalog form' params) (.rows edge.target) :=
    .set _
  refine ⟨fun hy => ?_, fun _ => ⟨_, root⟩, fun _ => ?_⟩
  · cases hy with
    | row _ single _ => exact absurd (single.symm.trans many) (by simp)
    | @collection _ _ target _ _ known =>
      have target_eq : edge.target = target := by
        have hnode := hf.entity known
        cases (hp.link howner).2 with
        | navigation _ _ _ hedge' target' =>
          obtain rfl := Option.some.inj (hedge'.symm.trans hedge)
          exact Option.some.inj (target'.symm.trans hnode)
        | field _ noEdge => exact absurd (noEdge.symm.trans hedge) (by simp)
      exact .kept rfl (target_eq ▸ root)
  · refine .call none (.inl rfl) (fun _ h => by cases h) (.plain rfl (by simp [children])) ?_
    have driven : (membership (p.forest.ref owner) element ownerKey elementKey).Over
        (Drivable false none ((p'.knows M.catalog form' params).bind [element] none)) :=
      membership_over (.operand (rowRef_drivable _)) (.plain rfl (by simp [children]))
    simpa using Drivable.lambda driven.drivable

/-- The collections are those of a forest `f`; the forest that is worked on may have grown since. -/
theorem collections_transfers {f : Forest} {params : String → Option String}
    (h : Runs (e.descend (collectionAt f)) M p e' p') (hp : p.forest.Linked M.catalog)
    (hf : f.Keeps p.forest)
    (hform : form = some .bound ∧ form' = some .ready ∨ form = none ∧ form' = none) :
    Transfers ⟨M.catalog, f, form, params⟩ (p'.knows M.catalog form' params) e e' := by
  induction e using children_induction generalizing p e' p' form form' params with
  | step e ih =>
    have not_raw : form ≠ some .raw ∧ form' ≠ some .raw := by
      rcases hform with ⟨rfl, rfl⟩ | ⟨rfl, rfl⟩ <;> simp
    rw [descend_eq] at h
    cases hat : collectionAt f e with
    | some x =>
      rw [hat] at h
      obtain ⟨r, many, ⟨rfl, hfilter⟩ | ⟨name, filter, rfl, hfilter, rfl⟩⟩ := Runs.collectionAt hat h
      · exact collectionFilter_transfers hfilter hp hf many
      · have filtered : Transfers ⟨M.catalog, f, form, params⟩ (p'.knows M.catalog form' params) (.rowRef r)
            filter := collectionFilter_transfers hfilter hp hf many
        refine .of_silent (fun k hk => ?_) rfl fun _ => ?_
        · -- Below a member no reference is looked at.
          have silent {owner : String}
              (ht : (rowRef r).Yields (KnownRows.mk M.catalog f form params).below (.row owner)) : False := by
            rw [KnownRows.below_eq not_raw.1] at ht
            cases ht with
            | row read _ _ => exact read rfl
          cases hk with
          | navigation ht _ _ => exact silent ht
          | navigations ht _ _ => exact silent ht
        · refine .call none (.inl rfl) (fun _ h => by cases h)
            (filtered.drivable (rowRef_drivable r)) (by simp)
    | none =>
      rw [hat] at h
      have keeps := (Runs.mapChildren_onward (fun c _ => collections_onward f c) h hp).2
      have head := (Runs.mapChildren_linked (fun c _ => collections_onward f c) hp h).mono
        (S := fun c c' => ∀ form form' params,
          (form = some .bound ∧ form' = some .ready ∨ form = none ∧ form' = none) →
            Transfers ⟨M.catalog, f, form, params⟩ (p'.knows M.catalog form' params) c c')
        (by
          rintro c c' ⟨hc, q, q', linked, hq, hq', hrun⟩ form form' params hform
          exact (ih c hc hrun linked (hf.trans hq) hform).trans
            (.of_le (q'.knows_le hq' M.catalog form' params) c'))
      by_cases hlambda : ∃ names body, e = .lambda names body
      · obtain ⟨names, body, rfl⟩ := hlambda
        cases head with
        | lambda _ hbody => exact .lambda fun element => hbody form form' _ hform
      · refine .of_sameHead head (fun hR => hR form form' params hform) ?_
          (fun names body heq => hlambda ⟨names, body, heq⟩) ?_ ?_ rfl
        · intro c c' name owner _ hR hyields
          rw [KnownRows.below_eq not_raw.1] at hyields
          rw [KnownRows.below_eq (show (p'.knows M.catalog form' params).form ≠ some .raw from not_raw.2)]
          exact (hR none none params (.inr ⟨rfl, rfl⟩)).yields hyields
        · rintro x k rfl hyields
          cases hyields with
          | param known => exact .param known
        · rintro r k rfl hyields
          cases hyields with
          | row read single known =>
            have stays := (hf.trans keeps).node (Forest.Keeps.range_of_entity known)
            refine .row ?_ (stays.isCollection.trans single) (stays.entity.trans known)
            rcases hform with ⟨rfl, rfl⟩ | ⟨rfl, rfl⟩
            · simp [Progress.knows]
            · exact absurd rfl read
          | collection _ many _ => simp [collectionAt, show (f.node r.node).isCollection = true from many] at hat

theorem filterCollections_transferred (h : Runs (filterCollections e) M p e' p')
    (hp : p.forest.Linked M.catalog) : Transferred M p p' (some .bound) (some .ready) e e' := by
  rw [Runs.filterCollections_iff] at h
  exact fun params => collections_transfers h hp (.refl _) (.inl ⟨rfl, rfl⟩)

/-- What is known of a body is known of the body that is ready for the driver. -/
theorem rewriteBody_transferred (h : Runs (rewriteBody e) M p e' p') (hp : p.forest.Linked M.catalog) :
    Transferred M p p' (some .raw) (some .ready) e e' := by
  obtain ⟨_, _, _, _, hbind, hq, hcompare, hq', hfilter⟩ := Runs.rewriteBody h hp
  exact (bind_transferred hbind hp).trans ((compareByKeys_transferred hcompare hq (by simp)).trans
    (filterCollections_transferred hfilter hq'))

end Collections

section Subqueries

variable {entity : String} {nested : Bool} {recur : Recur}

/-- If neither references nor parameters are looked at, no row is known. -/
theorem Expr.Yields.no_row (h : e.Yields v (.row entity)) (hform : v.form = none)
    (hparams : ∀ x, v.params x = none) : False := by
  generalize hk : Yield.row entity = k at h
  induction h generalizing entity with
  | param known => exact absurd ((hparams _).symm.trans known) (by simp)
  | row read _ _ => exact read hform
  | navigation _ _ _ ih => exact ih (by rw [KnownRows.below, hform]; rfl) hparams rfl
  | _ => cases hk

/-- Without parameters, the only known rows of a prepared body are references. -/
theorem Expr.Yields.rowOf (h : e.Yields v (.row entity)) (hform : v.form ≠ some .raw)
    (hparams : ∀ x, v.params x = none) : v.forest.RowOf e entity := by
  cases h with
  | param known => exact absurd ((hparams _).symm.trans known) (by simp)
  | row _ single known => exact ⟨_, rfl, single, known⟩
  | navigation ht _ _ =>
    rw [KnownRows.below_eq hform] at ht
    exact (ht.no_row rfl hparams).elim

theorem Expr.chainRoot_ne_call {operator : Operator} {source : Expr} {arguments : List Expr}
    {note : Option CallNote} : e.chainRoot ≠ .call operator (source :: arguments) note := by
  induction e using children_induction with
  | step e ih =>
    unfold chainRoot
    split
    · exact ih _ (.head _)
    · next hne => exact hne _ _ _ _

/-- Without parameters, the only chains of a ready body over known rows are chains over entity sets. -/
theorem Expr.OnRows.entitySet (h : e.OnRows v) (hform : v.form = some .ready)
    (hparams : ∀ x, v.params x = none) : ∃ entity, e.chainRoot = .entitySet entity := by
  obtain ⟨entity, hy⟩ := h
  generalize hroot : e.chainRoot = root at hy
  cases hy with
  | set entity => exact ⟨entity, rfl⟩
  | collection bound _ _ => exact absurd (hform.symm.trans bound) (by simp)
  | navigations ht _ _ =>
    rw [KnownRows.below_eq (by simp [hform])] at ht
    exact (ht.no_row rfl hparams).elim
  | kept _ _ | select _ _ => exact absurd hroot chainRoot_ne_call

/-- What is known at the start of an expansion. -/
def Progress.start (p : Progress) (c : Catalog) : KnownRows := p.knows c (some .raw) fun _ => none

theorem Progress.start_le (h : p.forest.Keeps p'.forest) (c : Catalog) : (p.start c).Le (p'.start c) :=
  p.knows_le h c _ _

/-- What a driver does with a query whose undriven calls stand over rows: nothing in the result is
undriven, and a query of rows of an entity becomes a stream of such rows. -/
structure Drives (M : Model) (recur : Recur) : Prop where
  links : ∀ e, KeepsLinks M (recur e)
  drives : ∀ {p e e' p'}, Runs (recur e) M p e' p' → p.forest.Linked M.catalog →
    e.Drivable true none (p.start M.catalog) → e'.Driven ∧ ∀ (s : Stream) entity, e' = s.toExpr →
      e.Yields (p.start M.catalog) (.rows entity) → p'.forest.RowOf s.selector entity

/-- A query in a prepared body starts an expansion of its own. -/
theorem Expr.Drivable.restart {params : String → Option String}
    (h : e.Drivable nested none (p.knows M.catalog (some .ready) params))
    (hparams : ∀ x, params x = none) : e.Drivable true none (p.start M.catalog) := by
  refine (show e.Drivable (true && nested) _ _ from h).of_and.mono ?_
  exact ⟨rfl, .refl _, .inr ⟨rfl, by simp [Progress.knows]⟩, fun hx => by
    cases (hparams _).symm.trans hx⟩

theorem expandSubqueries_driven (hrec : Drives M recur) {params : String → Option String}
    (h : Runs (expandSubqueries recur e) M p e' p') (hp : p.forest.Linked M.catalog)
    (hparams : ∀ x, params x = none)
    (hd : e.Drivable nested none (p.knows M.catalog (some .ready) params)) : e'.Driven := by
  induction e using children_induction generalizing p e' p' nested params with
  | step e ih =>
    rw [expandSubqueries, descend_eq] at h
    cases hat : subqueryAt recur e with
    | some x =>
      rw [hat] at h
      unfold subqueryAt at hat
      split at hat
      · cases hat
        obtain ⟨rfl, -⟩ := Runs.pure_iff.1 h
        cases hd with
        | plain kind _ => cases kind
        | stream known hr hs => exact driven_stream.2 ⟨known, hr.driven, hs.driven⟩
      · split at hat <;> cases hat
        exact (hrec.drives h hp (hd.restart hparams)).1
      · cases hat
    | none =>
      rw [hat] at h
      have head := Runs.mapChildren_linked (fun c _ => expandSubqueries_onward hrec.links c) hp h
      have part {c c' : Expr} {nested : Bool} {params : String → Option String}
          (hc : c ∈ e.children ∧ ∃ q q', q.forest.Linked M.catalog ∧ p.forest.Keeps q.forest ∧
            q'.forest.Keeps p'.forest ∧ Runs (expandSubqueries recur c) M q c' q')
          (hparams : ∀ x, params x = none)
          (hd : c.Drivable nested none (p.knows M.catalog (some .ready) params)) : c'.Driven := by
        obtain ⟨hmem, q, q', linked, keeps, -, hrun⟩ := hc
        exact ih c hmem hrun linked hparams (hd.mono (p.knows_le keeps _ _ _))
      cases hd with
      | plain kind parts =>
        exact .of_sameHead head (isDriven_of_isPlain kind) fun hc => part hc hparams (parts _ hc.1)
      | lambda hb =>
        cases head with
        | lambda _ hc =>
          refine driven_lambda.2 (part hc (fun x => ?_) hb)
          dsimp only [Progress.knows]
          split
          · rfl
          · split
            · rfl
            · exact hparams x
      | stream => cases hat
      | bare driven => exact .of_sameHead head driven fun hc => absurd hc.1 List.not_mem_nil
      | @call _ _ _ operator source arguments note row? driven known hs ha =>
        -- The chain is not one over an entity set, so nothing is known of its rows.
        have unknown : ¬source.OnRows (p.knows M.catalog (some .ready) params) := by
          intro onRows
          obtain ⟨entity, hroot⟩ := onRows.entitySet rfl hparams
          have hroot : (Expr.call operator (source :: arguments) note).chainRoot = .entitySet entity := hroot
          simp [subqueryAt, hroot] at hat
        have row_eq : row? = none := by
          cases row? with
          | none => rfl
          | some entity => exact absurd (known entity rfl).2.onRows unknown
        subst row_eq
        refine .of_sameHead head (driven.resolve_right fun h => unknown h.2) fun {c c'} hc => ?_
        rcases List.mem_cons.1 hc.1 with rfl | hmem
        · exact part hc hparams hs
        · exact part hc hparams (ha c hmem)

/-- A prepared body has no undriven call left, and a known row in it has become a reference. -/
theorem prepareBody_driven (hrec : Drives M recur) (h : Runs (prepareBody recur e) M p e' p')
    (hp : p.forest.Linked M.catalog) (hd : e.Drivable true none (p.start M.catalog)) :
    e'.Driven ∧ ∀ entity, e.Yields (p.start M.catalog) (.row entity) → p'.forest.RowOf e' entity := by
  simp only [prepareBody, Runs.bind_iff] at h
  obtain ⟨e₁, q, hrewrite, hexpand⟩ := h
  have hq := (rewriteBody_onward e hrewrite hp).1
  have transfers := rewriteBody_transferred hrewrite hp fun _ => none
  refine ⟨expandSubqueries_driven hrec hexpand hq (fun _ => rfl) (transfers.drivable hd), ?_⟩
  intro entity hy
  have row : q.forest.RowOf e₁ entity :=
    (transfers.yields hy).rowOf (by simp [Progress.knows]) fun _ => rfl
  have keeps := (expandSubqueries_onward hrec.links e₁ hexpand hq).2
  obtain ⟨r, rfl, single, known⟩ := row
  rw [expandSubqueries, descend_eq] at hexpand
  obtain ⟨rfl, -⟩ := Runs.pure_iff.1 hexpand
  exact Forest.RowOf.keeps ⟨r, rfl, single, known⟩ keeps

end Subqueries

end EntityQuery
