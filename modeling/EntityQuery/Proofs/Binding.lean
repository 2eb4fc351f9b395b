import EntityQuery.Expansion.Binding
import EntityQuery.Proofs.Layer
import EntityQuery.Proofs.OpenForests
import EntityQuery.Proofs.Run

/-!
# Bound bodies

Binding a body gives an expression that stands for it. The only nodes that it acts on are members,
and a member of a reference becomes the reference to a child whose value is what the member means.
-/

namespace EntityQuery

open EntityQuery.Expr

variable {M : Model} {tables : Tables} {p p' : Progress} {opens : List SourceId}

section Rows

variable {r : RowRef} {s : Shape} {entity name : String}

theorem Progress.single_of_shapeOf (h : p.forest.Sound M.catalog)
    (hr : (p.setting M.catalog opens).refs r)
    (hs : (p.setting M.catalog opens).shapeOf r = some (.entity entity)) :
    (p.forest.node r.node).isCollection = false ∧ (p.forest.node r.node).entity = some entity := by
  have hshape := shapeOf_eq h hr hs
  cases hc : (p.forest.node r.node).isCollection with
  | true =>
    obtain ⟨edge, he, -⟩ := (Option.any_eq_true _ _).1 hc
    rw [Forest.shapeAt_collection he hc] at hshape
    cases hshape
  | false =>
    obtain ⟨entity', he, hshape'⟩ := Forest.shapeAt_single h hr.1 hc
    rw [hshape'] at hshape
    cases hshape
    exact ⟨rfl, he⟩

theorem Progress.collection_of_shapeOf (h : p.forest.Sound M.catalog)
    (hr : (p.setting M.catalog opens).refs r)
    (hs : (p.setting M.catalog opens).shapeOf r = some (.rows s)) :
    (p.forest.node r.node).isCollection = true := by
  have hshape := shapeOf_eq h hr hs
  refine Bool.of_not_eq_false fun hc => ?_
  obtain ⟨_, -, hshape'⟩ := Forest.shapeAt_single h hr.1 hc
  rw [hshape'] at hshape
  cases hshape

/-- Nothing is bound through a collection. -/
theorem Runs.bindRowMember_collection {e' : Expr} (hc : (p.forest.node r.node).isCollection = true)
    (h : Runs (bindRowMember r name) M p e' p') : e' = .member (.rowRef r) name ∧ p = p' := by
  simp only [bindRowMember, Runs.bind_iff, Runs.forest_iff] at h
  obtain ⟨_, _, ⟨rfl, rfl⟩, h⟩ := h
  rw [if_pos hc] at h
  exact Runs.pure_iff.1 h

/-- No node of a sound forest is a field. -/
theorem Runs.bindRowMember_entity {e' : Expr} (hp : p.forest.Sound M.catalog)
    (hc : (p.forest.node r.node).isCollection = false)
    (he : (p.forest.node r.node).entity = some entity) (h : Runs (bindRowMember r name) M p e' p') :
    Runs (bindNavigation r entity name) M p e' p' := by
  simp only [bindRowMember, Runs.bind_iff, Runs.forest_iff] at h
  obtain ⟨_, _, ⟨rfl, rfl⟩, h⟩ := h
  have hfield : ((p.forest.child? r.node name).filter fun c => (p.forest.node c).field.isSome) = none :=
    Option.filter_eq_none_iff.2 fun c _ => by simp [hp.field c]
  rw [if_neg (by simp [hc]), hfield, he] at h
  exact h

/-- A property stays a member. -/
theorem Runs.bindNavigation_property {e' : Expr} {t : EntityType} (ht : M.catalog.type? entity = some t)
    (hn : t.navigation? name = none) (h : Runs (bindNavigation r entity name) M p e' p') :
    e' = .member (.rowRef r) name ∧ p = p' := by
  simp only [bindNavigation, Runs.bind_iff, Runs.entityType_iff] at h
  obtain ⟨t', _, ⟨ht', rfl⟩, h⟩ := h
  obtain rfl : t = t' := Option.some.inj (ht.symm.trans ht')
  rw [hn] at h
  exact Runs.pure_iff.1 h

/-- A navigation becomes the reference to a child, unless its row is as deep as the limit. -/
theorem Runs.bindNavigation_iff {e' : Expr} {edge : NavigationEdge} {forest : Forest} {child : NodeId}
    (hedge : M.catalog.navigation? entity name = some edge) (hfollow : p.forest.follow r.node edge = (child, forest)) :
    Runs (bindNavigation r entity name) M p e' p' ↔ p.forest.depth r.node < M.settings.maxNavigationDepth ∧
      e' = forest.ref child ∧ p' = { p with
        forest
        tally := if p.forest.size < forest.size then { p.tally with nodesBound := p.tally.nodesBound + 1 }
          else p.tally } := by
  obtain ⟨t, ht, hn⟩ := Catalog.navigation?_eq_some.1 hedge
  simp only [bindNavigation, Runs.bind_iff, Runs.entityType_iff]
  constructor
  · rintro ⟨t', _, ⟨ht', rfl⟩, h⟩
    obtain rfl : t = t' := Option.some.inj (ht.symm.trans ht')
    rw [hn] at h
    simp only [Runs.bind_iff, Runs.settings_iff, Runs.forest_iff] at h
    obtain ⟨_, _, ⟨rfl, rfl⟩, _, _, ⟨rfl, rfl⟩, h⟩ := h
    split at h
    · simp only [Runs.bind_iff, Runs.throw_iff, false_and, exists_false] at h
    · next shallow =>
      simp only [Runs.bind_iff, Runs.growForest_iff, Runs.forest_iff, hfollow] at h
      obtain ⟨child, _, ⟨rfl, rfl⟩, _, _, ⟨rfl, rfl⟩, h⟩ := h
      refine ⟨by omega, ?_⟩
      split at h
      · next grown =>
        simp only [Runs.bind_iff, Runs.modifyTally_iff, Runs.ref_iff] at h
        obtain ⟨_, _, rfl, rfl, rfl⟩ := h
        rw [if_pos grown]
        exact ⟨rfl, rfl⟩
      · next same =>
        simp only [Runs.ref_iff] at h
        obtain ⟨rfl, rfl⟩ := h
        rw [if_neg same]
        exact ⟨rfl, rfl⟩
  · rintro ⟨shallow, rfl, rfl⟩
    refine ⟨t, _, ⟨ht, rfl⟩, ?_⟩
    rw [hn]
    simp only [Runs.bind_iff, Runs.settings_iff, Runs.forest_iff]
    refine ⟨_, _, ⟨rfl, rfl⟩, _, _, ⟨rfl, rfl⟩, ?_⟩
    rw [if_neg (by omega)]
    simp only [Runs.bind_iff, Runs.growForest_iff, Runs.forest_iff, hfollow]
    refine ⟨_, _, ⟨rfl, rfl⟩, _, _, ⟨rfl, rfl⟩, ?_⟩
    split
    · simp only [Runs.bind_iff, Runs.modifyTally_iff, Runs.ref_iff]
      exact ⟨(), _, rfl, rfl, rfl⟩
    · exact Runs.ref_iff.2 ⟨rfl, rfl⟩

theorem Runs.bindNavigation_edge {e' : Expr} {edge : NavigationEdge}
    (hedge : M.catalog.navigation? entity name = some edge)
    (h : Runs (bindNavigation r entity name) M p e' p') :
    ∃ child forest tally, p.forest.follow r.node edge = (child, forest) ∧
      p' = { p with forest, tally } ∧ e' = forest.ref child := by
  obtain ⟨-, rfl, rfl⟩ := (Runs.bindNavigation_iff hedge rfl).1 h
  exact ⟨_, _, _, rfl, rfl, rfl⟩

end Rows

/-- A field of a record stands for the member of that name. -/
theorem HasShape.field_of_record (tables : Tables) {S : Setting} {f : Form} {n : Bool} {Γ : Shapes}
    {fields : List (String × Expr)} {shapes : List (String × Shape)} {name : String} {s : Shape}
    (h : HasShape S f n Γ (.record fields) (.record shapes)) (hs : shapes.lookup name = some s) :
    ∃ e, fields.lookup name = some e ∧ HasShape S f n Γ e s ∧
      ∀ o scope, Grounded S tables o → ScopeFits tables Γ scope →
        e.denote S.catalog tables o Γ scope =
          (Expr.member (.record fields) name).denote S.catalog tables o Γ scope := by
  induction fields generalizing shapes with
  | nil =>
    cases h
    cases hs
  | cons field fields ih =>
    cases h with
    | @cons _ _ _ x e t _ shapes he hf =>
      have member (o : OpenRows) (scope : Scope) (ho : Grounded S tables o)
          (hscope : ScopeFits tables Γ scope) : ∃ v values,
          e.denote S.catalog tables o Γ scope = .ok v ∧
          denoteFields S.catalog tables o Γ scope fields = .ok values ∧
          (Expr.member (.record ((x, e) :: fields)) name).denote S.catalog tables o Γ scope =
            evalMember name (.record ((x, v) :: values)) ∧
          (Expr.member (.record fields) name).denote S.catalog tables o Γ scope =
            evalMember name (.record values) := by
        obtain ⟨v, hv, -⟩ := he.denotes ho hscope
        obtain ⟨_, hvs, values, rfl, -⟩ := hf.denotes ho hscope
        have hfields : denoteFields S.catalog tables o Γ scope fields = .ok values := by
          rw [Expr.denote] at hvs
          cases hd : denoteFields S.catalog tables o Γ scope fields with
          | error err =>
            rw [hd] at hvs
            cases hvs
          | ok values' =>
            rw [hd] at hvs
            cases hvs
            rfl
        refine ⟨v, values, hv, hfields, ?_, ?_⟩
        · rw [denote_member, (HasShape.cons he hf).shape?_eq ho.entity, Expr.denote,
            Expr.denoteFields, hv, hfields]
          rfl
        · rw [denote_member, hf.shape?_eq ho.entity, Expr.denote, hfields]
          rfl
      rw [List.lookup_cons] at hs
      by_cases hx : name = x
      · subst hx
        rw [beq_self_eq_true] at hs
        cases hs
        refine ⟨e, List.lookup_cons_self, he, fun o scope ho hscope => ?_⟩
        obtain ⟨v, values, hv, -, hmember, -⟩ := member o scope ho hscope
        rw [hmember, hv]
        simp only [evalMember, Value.field?, List.lookup_cons_self]
        rfl
      · rw [beq_false_of_ne hx] at hs
        obtain ⟨e', hlookup, he', hsame⟩ := ih hf hs
        refine ⟨e', ?_, he', fun o scope ho hscope => ?_⟩
        · rw [List.lookup_cons, beq_false_of_ne hx]
          exact hlookup
        · obtain ⟨v, values, -, -, hmember, hrest⟩ := member o scope ho hscope
          obtain ⟨v', hv', -⟩ := he'.denotes ho hscope
          rw [hsame o scope ho hscope, hrest] at hv'
          rw [hsame o scope ho hscope, hmember, hrest]
          simp only [evalMember, Value.field?, List.lookup_cons, beq_false_of_ne hx] at hv' ⊢
          split at hv'
          · next hvalue => rw [hvalue]
          · cases hv'

section Members

variable {n : Bool} {Γ : Shapes} {e e₁ e' : Expr} {entity name : String}

/-- What binding makes of a navigation from something bound. -/
theorem bindMember_navigation (hp : p.forest.Sound M.catalog) {edge : NavigationEdge}
    (hedge : M.catalog.navigation? entity name = some edge) (hn : edge.isCollection = true → n = true)
    (hs : Stands (p.setting M.catalog opens) tables .bound n Γ e e₁ (.entity entity))
    (h : Runs (bindMember e₁ name) M p e' p') : Extends M.catalog p p' ∧
      Stands (p'.setting M.catalog opens) tables .bound n Γ (.member e name) e' edge.shape ∧
      (e'.isRef = true ∨ e' = .member e₁ name ∧ e₁.isRef = false) := by
  have kept (href : e₁.isRef = false) : Extends M.catalog p p ∧
      Stands (p.setting M.catalog opens) tables .bound n Γ (.member e name) (.member e₁ name)
        edge.shape ∧
      ((Expr.member e₁ name).isRef = true ∨ Expr.member e₁ name = .member e₁ name ∧
        e₁.isRef = false) :=
    ⟨.refl hp, hs.navigation hedge hn fun _ => href, .inr ⟨rfl, href⟩⟩
  have typed := hs.typed
  cases e₁ with
  | rowRef r =>
    cases typed with
    | ref hshape hr _ _ =>
    obtain ⟨hc, hentity⟩ := Progress.single_of_shapeOf hp hr hshape
    have h := Runs.bindNavigation_edge hedge (Runs.bindRowMember_entity hp hc hentity h)
    obtain ⟨child, forest, tally, hfollow, rfl, rfl⟩ := h
    have hname : edge.name = name := Catalog.navigation?_name hedge
    obtain ⟨hsound, hgrows, hpaths, -, hrange, hparent, hchild⟩ :=
      Forest.follow_spec hp hr.1 hentity (hname ▸ hedge) hc
    rw [hfollow] at hsound hgrows hpaths hrange hparent hchild
    have ext : Extends M.catalog p { p with forest, tally } := ⟨⟨hsound, hgrows, Nat.le_refl _⟩, hpaths⟩
    have hsource : (forest.node child).source = r.source := by
      rw [← (hsound.below hparent).source, (hgrows.node hr.1).source]
      exact (Progress.source_of_refs hr).1
    have hopen : (forest.node child).source ∈ opens := hsource ▸ Progress.open_of_shapeOf hshape
    obtain ⟨rc, hrc, -, -, -, hrefs, hrshape⟩ :=
      Progress.ref_shape (p := { p with forest, tally }) hsound hrange hopen
    have hmono := hs.mono (ext.le hp opens)
    refine ⟨ext, ⟨?_, .navigation hmono.source hedge hn (absurd rfl), fun o scope ho hscope => ?_⟩,
      .inl rfl⟩
    · rw [hrc]
      refine .ref ?_ hrefs (fun hrows => hn ?_) (fun hf => nomatch hf)
      · rw [hrshape]
        exact congrArg some (Forest.shapeAt_edge hchild)
      · rw [NavigationEdge.shape] at hrows
        split at hrows
        · assumption
        · cases hrows
    · rw [← hmono.member_same name o scope ho hscope, ← hname]
      have hparentRef : forest.ref r.node = .rowRef r := (hgrows.ref hp hsound hr.1).trans hr.2
      rw [← hparentRef]
      exact Forest.denote_child hsound hparent hchild Γ scope
  | record fields => cases typed
  | _ =>
    obtain ⟨rfl, rfl⟩ := Runs.pure_iff.1 h
    exact kept rfl

/-- What binding makes of a property of something bound. -/
theorem bindMember_property (hp : p.forest.Sound M.catalog) {t : EntityType} {q : Property}
    (ht : M.catalog.type? entity = some t) (hn : t.navigation? name = none)
    (hq : t.property? name = some q)
    (hs : Stands (p.setting M.catalog opens) tables .bound n Γ e e₁ (.entity entity))
    (h : Runs (bindMember e₁ name) M p e' p') : p = p' ∧
      Stands (p.setting M.catalog opens) tables .bound n Γ (.member e name) e' .scalar := by
  have kept : Stands (p.setting M.catalog opens) tables .bound n Γ (.member e name)
      (.member e₁ name) .scalar := hs.property ht hn hq
  have typed := hs.typed
  cases e₁ with
  | rowRef r =>
    cases typed with
    | ref hshape hr _ _ =>
    obtain ⟨hc, hentity⟩ := Progress.single_of_shapeOf hp hr hshape
    obtain ⟨rfl, rfl⟩ :=
      Runs.bindNavigation_property ht hn (Runs.bindRowMember_entity hp hc hentity h)
    exact ⟨rfl, kept⟩
  | record fields => cases typed
  | _ =>
    obtain ⟨rfl, rfl⟩ := Runs.pure_iff.1 h
    exact ⟨rfl, kept⟩

/-- What binding makes of a field of something bound. -/
theorem bindMember_field {fields : List (String × Shape)} {s : Shape}
    (hfield : fields.lookup name = some s)
    (hs : Stands (p.setting M.catalog opens) tables .bound n Γ e e₁ (.record fields))
    (h : Runs (bindMember e₁ name) M p e' p') : p = p' ∧
      Stands (p.setting M.catalog opens) tables .bound n Γ (.member e name) e' s := by
  have typed := hs.typed
  cases e₁ with
  | rowRef r =>
    cases typed with
    | ref hshape _ _ _ => exact absurd hshape (Setting.shapeOf_ne_record _ _ _)
  | record values =>
    obtain ⟨rfl, rfl⟩ := Runs.pure_iff.1 h
    obtain ⟨e', hlookup, he', hsame⟩ := typed.field_of_record tables hfield
    rw [hlookup]
    refine ⟨rfl, he', .field hs.source hfield (absurd rfl), fun o scope ho hscope => ?_⟩
    exact (hsame o scope ho hscope).trans (hs.member_same name o scope ho hscope)
  | _ =>
    obtain ⟨rfl, rfl⟩ := Runs.pure_iff.1 h
    exact ⟨rfl, hs.field hfield fun _ => rfl⟩

end Members

/-- A collection has no member that could be bound. -/
theorem bindMember_count (hp : p.forest.Sound M.catalog) {Γ : Shapes} {e e₁ e₂ e' : Expr}
    {entity name : String} {edge : NavigationEdge}
    (he : Stands (p.setting M.catalog opens) tables .bound true Γ e e₁ (.entity entity))
    (hedge : M.catalog.navigation? entity name = some edge) (hc : edge.isCollection = true)
    (hs : Stands (p.setting M.catalog opens) tables .bound true Γ (.member e name) e₂ edge.shape)
    (hform : e₂.isRef = true ∨ e₂ = .member e₁ name ∧ e₁.isRef = false)
    (h : Runs (bindMember e₂ "Count") M p e' p') : p = p' ∧
      Stands (p.setting M.catalog opens) tables .bound true Γ (.member (.member e name) "Count") e'
        .scalar := by
  have source := HasShape.size he.source hedge hc (absurd rfl)
  rcases hform with href | ⟨rfl, href⟩
  · cases e₂ with
    | rowRef r =>
      have typed := hs.typed
      rw [NavigationEdge.shape, if_pos hc] at typed
      cases typed with
      | ref hshape hr _ _ =>
      have hcollection := Progress.collection_of_shapeOf hp hr hshape
      obtain ⟨rfl, rfl⟩ := Runs.bindRowMember_collection hcollection h
      exact ⟨rfl, .refSize hshape hr (by simp), source, hs.member_same "Count"⟩
    | _ => cases href
  · obtain ⟨rfl, rfl⟩ := Runs.pure_iff.1 h
    exact ⟨rfl, he.size hedge hc fun _ => href⟩

section Run

theorem Runs.bind_member {e e' : Expr} {name : String} (h : Runs (bind (.member e name)) M p e' p') :
    ∃ e₁ q, Runs (bind e) M p e₁ q ∧ Runs (bindMember e₁ name) M q e' p' := by
  rw [bind, rewrite_eq] at h
  simp only [mapChildren, Runs.bind_iff, Runs.pure_iff] at h
  obtain ⟨_, _, ⟨e₁, q, he, rfl, rfl⟩, h⟩ := h
  exact ⟨e₁, q, he, h⟩

end Run

/-- Where a step rebuilds an expression from its rewritten parts. -/
def Expr.isRewrittenByParts : Expr → Bool
  | .member _ _ | .rowRef _ => false
  | _ => true

/-- A step that rewrites all but members and references part by part, from the states of `I`, in which the
references of `S` stand for what they do in `S`. -/
structure PartWise (M : Model) (opens : List SourceId) (S : Setting) (I : Progress → Prop)
    (step : Expr → Expansion Expr) : Prop where
  sound {p : Progress} : I p → p.forest.Sound M.catalog
  le {p : Progress} : I p → S.Le (p.setting M.catalog opens)
  extend {p p' : Progress} : I p → Extends M.catalog p p' → I p'
  parts {e e' : Expr} {p p' : Progress} : e.isRewrittenByParts = true →
    (Runs (step e) M p e' p' ↔ Runs (e.mapChildren step) M p e' p')

/-- From every state of `I`, what the step makes of the expression stands for it. -/
def StandsBy (M : Model) (opens : List SourceId) (tables : Tables) (I : Progress → Prop)
    (step : Expr → Expansion Expr) (f : Form) (n : Bool) (Γ : Shapes) (e : Expr) (s : Shape) : Prop :=
  ∀ p e' p', I p → Runs (step e) M p e' p' →
    Extends M.catalog p p' ∧ Stands (p'.setting M.catalog opens) tables f n Γ e e' s

namespace StandsBy

variable {S : Setting} {I : Progress → Prop} {step : Expr → Expansion Expr} {f g : Form} {n : Bool}
  {Γ : Shapes} {e a b d source body : Expr} {s t : Shape} {x : String}

/-- What has no parts is left as it is. -/
theorem leaf (w : PartWise M opens S I step) (he : e.isRewrittenByParts = true)
    (hchildren : e.mapChildren step = pure e)
    (typed : ∀ {p}, I p → HasShape (p.setting M.catalog opens) f n Γ e s) :
    StandsBy M opens tables I step f n Γ e s := by
  intro p e' p' hp h
  rw [w.parts he, hchildren] at h
  obtain ⟨rfl, rfl⟩ := Runs.pure_iff.1 h
  exact ⟨.refl (w.sound hp), .refl (typed hp)⟩

theorem param (w : PartWise M opens S I step) (hx : Γ.lookup x = some s) (hname : S.names x) :
    StandsBy M opens tables I step f n Γ (.param x) s :=
  leaf w rfl rfl fun hp => .param hx ((w.le hp).names hname)

theorem const (w : PartWise M opens S I step) (value : Literal) :
    StandsBy M opens tables I step f n Γ (.const value) .scalar :=
  leaf w rfl rfl fun _ => .const value

theorem set (w : PartWise M opens S I step) {entity : String} {type : EntityType}
    (ht : S.catalog.type? entity = some type) :
    StandsBy M opens tables I step f true Γ (.entitySet entity) (.rows (.entity entity)) :=
  leaf w rfl rfl fun hp => .set ((w.le hp).catalog ▸ ht)

theorem binary (w : PartWise M opens S I step) (op : BinaryOp)
    (ha : StandsBy M opens tables I step f n Γ a s) (hb : StandsBy M opens tables I step f n Γ b t)
    (hop : op.isEquality = true → s = .scalar ∧ t = .scalar) :
    StandsBy M opens tables I step f n Γ (.binary op a b) .scalar := by
  intro p e' p' hp h
  have h := (w.parts rfl).1 h
  simp only [mapChildren, Runs.bind_iff, Runs.pure_iff] at h
  obtain ⟨a', q, hra, b', q', hrb, rfl, rfl⟩ := h
  obtain ⟨ext, hsa⟩ := ha p a' q hp hra
  obtain ⟨ext', hsb⟩ := hb q b' q' (w.extend hp ext) hrb
  exact ⟨ext.trans ext', .binary op (hsa.mono (ext'.le ext.sound opens)) hsb hop⟩

theorem not (w : PartWise M opens S I step) (ha : StandsBy M opens tables I step f n Γ a s) :
    StandsBy M opens tables I step f n Γ (.not a) .scalar := by
  intro p e' p' hp h
  have h := (w.parts rfl).1 h
  simp only [mapChildren, Runs.bind_iff, Runs.pure_iff] at h
  obtain ⟨a', q, hra, rfl, rfl⟩ := h
  obtain ⟨ext, hs⟩ := ha p a' q hp hra
  exact ⟨ext, hs.not⟩

theorem cond (w : PartWise M opens S I step) (ha : StandsBy M opens tables I step f n Γ a s)
    (hb : StandsBy M opens tables I step f n Γ b .scalar)
    (hd : StandsBy M opens tables I step f n Γ d .scalar) :
    StandsBy M opens tables I step f n Γ (.cond a b d) .scalar := by
  intro p e' p' hp h
  have h := (w.parts rfl).1 h
  simp only [mapChildren, Runs.bind_iff, Runs.pure_iff] at h
  obtain ⟨a', q₁, hra, b', q₂, hrb, d', q₃, hrd, rfl, rfl⟩ := h
  obtain ⟨ext₁, hsa⟩ := ha p a' q₁ hp hra
  obtain ⟨ext₂, hsb⟩ := hb q₁ b' q₂ (w.extend hp ext₁) hrb
  have ext₁₂ := ext₁.trans ext₂
  obtain ⟨ext₃, hsd⟩ := hd q₂ d' q₃ (w.extend hp ext₁₂) hrd
  exact ⟨ext₁₂.trans ext₃, .cond (hsa.mono ((ext₂.trans ext₃).le ext₁.sound opens))
    (hsb.mono (ext₃.le ext₂.sound opens)) hsd⟩

theorem nil (w : PartWise M opens S I step) :
    StandsBy M opens tables I step f n Γ (.record []) (.record []) :=
  leaf w rfl rfl fun _ => .nil

theorem cons (w : PartWise M opens S I step) {name : String} {fields : List (String × Expr)}
    {shapes : List (String × Shape)} (he : StandsBy M opens tables I step f n Γ e s)
    (hfields : StandsBy M opens tables I step f n Γ (.record fields) (.record shapes)) :
    StandsBy M opens tables I step f n Γ (.record ((name, e) :: fields))
      (.record ((name, s) :: shapes)) := by
  intro p e' p' hp h
  have h := (w.parts rfl).1 h
  simp only [mapChildren, mapFields, Runs.bind_iff, Runs.pure_iff] at h
  obtain ⟨_, _, ⟨e₁, q, hre, fields', q', hrf, rfl, rfl⟩, rfl, rfl⟩ := h
  obtain ⟨ext, hse⟩ := he p e₁ q hp hre
  obtain ⟨ext', hsf⟩ := hfields q _ q' (w.extend hp ext)
    ((w.parts rfl).2 (Runs.bind_iff.2 ⟨fields', q', hrf, Runs.pure_iff.2 ⟨rfl, rfl⟩⟩))
  exact ⟨ext.trans ext', .cons (hse.mono (ext'.le ext.sound opens)) hsf⟩

theorem convert (w : PartWise M opens S I step) (type : ScalarType) (nullable : Bool)
    (ha : StandsBy M opens tables I step f n Γ a .scalar) :
    StandsBy M opens tables I step f n Γ (.convert a type nullable) .scalar := by
  intro p e' p' hp h
  have h := (w.parts rfl).1 h
  simp only [mapChildren, Runs.bind_iff, Runs.pure_iff] at h
  obtain ⟨a', q, hra, rfl, rfl⟩ := h
  obtain ⟨ext, hs⟩ := ha p a' q hp hra
  exact ⟨ext, hs.convert type nullable⟩

/-- A call on a source with a lambda: the source first, then the lambda's body. -/
theorem source_body (w : PartWise M opens S I step) {operator : Operator} {note : Option CallNote}
    (hsource : StandsBy M opens tables I step f true Γ source (.rows s))
    (hbody : StandsBy M opens tables I step g true ((x, s) :: Γ) body .scalar) (hx : S.names x)
    {e' : Expr} (hp : I p)
    (h : Runs (step (.call operator [source, .lambda [x] body] note)) M p e' p') :
    Extends M.catalog p p' ∧ (p'.setting M.catalog opens).names x ∧ ∃ source' body',
      e' = .call operator [source', .lambda [x] body'] note ∧
      Stands (p'.setting M.catalog opens) tables f true Γ source source' (.rows s) ∧
      Stands (p'.setting M.catalog opens) tables g true ((x, s) :: Γ) body body' .scalar := by
  have h := (w.parts rfl).1 h
  simp only [mapChildren, mapItems, Runs.bind_iff, Runs.pure_iff] at h
  obtain ⟨_, _, ⟨source', q, hrs, _, _, ⟨l, q', hl, _, _, ⟨rfl, rfl⟩, rfl, rfl⟩, rfl, rfl⟩, rfl,
    rfl⟩ := h
  have hl := (w.parts rfl).1 hl
  simp only [mapChildren, Runs.bind_iff, Runs.pure_iff] at hl
  obtain ⟨body', _, hrb, rfl, rfl⟩ := hl
  obtain ⟨ext, hs⟩ := hsource p source' q hp hrs
  obtain ⟨ext', hb⟩ := hbody q body' _ (w.extend hp ext) hrb
  exact ⟨ext.trans ext', (w.le (w.extend hp (ext.trans ext'))).names hx, source', body', rfl,
    hs.mono (ext'.le ext.sound opens), hb⟩

theorem filter (w : PartWise M opens S I step) (note : Option CallNote)
    (hsource : StandsBy M opens tables I step f true Γ source (.rows s))
    (hbody : StandsBy M opens tables I step g true ((x, s) :: Γ) body .scalar) (hx : S.names x) :
    StandsBy M opens tables I step f true Γ (.call .filter [source, .lambda [x] body] note)
      (.rows s) := by
  intro p e' p' hp h
  obtain ⟨ext, hx, source', body', rfl, hs, hb⟩ := source_body w hsource hbody hx hp h
  exact ⟨ext, .filter note hs hb hx⟩

theorem total (w : PartWise M opens S I step) {operator : Operator} (note : Option CallNote)
    (ho : operator = .any ∨ operator = .count)
    (hsource : StandsBy M opens tables I step f true Γ source (.rows s)) :
    StandsBy M opens tables I step f true Γ (.call operator [source] note) .scalar := by
  intro p e' p' hp h
  have h := (w.parts rfl).1 h
  simp only [mapChildren, mapItems, Runs.bind_iff, Runs.pure_iff] at h
  obtain ⟨_, _, ⟨source', q, hrs, _, _, ⟨rfl, rfl⟩, rfl, rfl⟩, rfl, rfl⟩ := h
  obtain ⟨ext, hs⟩ := hsource p source' q hp hrs
  exact ⟨ext, hs.total note ho⟩

theorem totalWhere (w : PartWise M opens S I step) {operator : Operator} (note : Option CallNote)
    (ho : operator = .any ∨ operator = .count)
    (hsource : StandsBy M opens tables I step f true Γ source (.rows s))
    (hbody : StandsBy M opens tables I step g true ((x, s) :: Γ) body .scalar) (hx : S.names x) :
    StandsBy M opens tables I step f true Γ (.call operator [source, .lambda [x] body] note)
      .scalar := by
  intro p e' p' hp h
  obtain ⟨ext, hx, source', body', rfl, hs, hb⟩ := source_body w hsource hbody hx hp h
  exact ⟨ext, .totalWhere note ho hs hb hx⟩

end StandsBy

section Bound

variable {S : Setting} {f : Form} {n : Bool} {Γ : Shapes} {e : Expr} {s : Shape}

/-- A sound state in which the references of a setting stand for what they do there. -/
structure Holding (M : Model) (opens : List SourceId) (S : Setting) (p : Progress) : Prop where
  sound : p.forest.Sound M.catalog
  le : S.Le (p.setting M.catalog opens)

theorem Holding.catalog {S : Setting} {p : Progress} (h : Holding M opens S p) : M.catalog = S.catalog :=
  h.le.catalog

theorem Holding.extend {S : Setting} {p p' : Progress} (h : Holding M opens S p)
    (ext : Extends M.catalog p p') : Holding M opens S p' :=
  ⟨ext.sound, h.le.trans (ext.le h.sound opens)⟩

/-- From every such state, binding gives an expression that stands for the one that is bound. -/
abbrev Binds (M : Model) (opens : List SourceId) (tables : Tables) (S : Setting) :
    Bool → Shapes → Expr → Shape → Prop :=
  StandsBy M opens tables (Holding M opens S) bind .bound

theorem bind_partWise : PartWise M opens S (Holding M opens S) bind where
  sound := Holding.sound
  le := Holding.le
  extend := Holding.extend
  parts {e e' p p'} he := by
    rw [bind, rewrite_eq, Runs.bind_iff]
    have same {d : Expr} {q : Progress} (h : Runs (e.mapChildren bind) M p d q) :
        SameHead _ e d := Runs.mapChildren_sameHead h
    constructor
    · rintro ⟨d, q, h, hact⟩
      cases same h with
      | member _ _ => cases he
      | _ =>
        obtain ⟨rfl, rfl⟩ := Runs.pure_iff.1 hact
        exact h
    · intro h
      refine ⟨e', p', h, ?_⟩
      cases same h with
      | member _ _ => cases he
      | _ => exact Runs.pure_iff.2 ⟨rfl, rfl⟩

theorem Binds.refSize {r : RowRef} (hr : S.shapeOf r = some (.rows s)) (href : S.refs r) :
    Binds M opens tables S true Γ (.member (.rowRef r) "Count") .scalar := by
  intro p e' p' hp h
  obtain ⟨e₁, q, he, h⟩ := Runs.bind_member h
  obtain ⟨rfl, rfl⟩ := Runs.pure_iff.1 he
  have hr := hp.le.shapeOf hr
  have hcollection := Progress.collection_of_shapeOf hp.sound (hp.le.refs href) hr
  obtain ⟨rfl, rfl⟩ := Runs.bindRowMember_collection hcollection h
  exact ⟨.refl hp.sound, .refl (.refSize hr (hp.le.refs href) (by simp))⟩

theorem Binds.size {entity name : String} {edge : NavigationEdge}
    (he : Binds M opens tables S true Γ e (.entity entity))
    (hedge : S.catalog.navigation? entity name = some edge) (hc : edge.isCollection = true) :
    Binds M opens tables S true Γ (.member (.member e name) "Count") .scalar := by
  intro p e' p' hp h
  obtain ⟨e₂, q₂, hrun, h⟩ := Runs.bind_member h
  obtain ⟨e₁, q₁, hrun, hnav⟩ := Runs.bind_member hrun
  obtain ⟨ext, hs⟩ := he p e₁ q₁ hp hrun
  have hedge := hp.catalog ▸ hedge
  obtain ⟨ext', hs', hform⟩ := bindMember_navigation ext.sound hedge (fun _ => rfl) hs hnav
  obtain ⟨rfl, hs⟩ :=
    bindMember_count ext'.sound (hs.mono (ext'.le ext.sound opens)) hedge hc hs' hform h
  exact ⟨ext.trans ext', hs⟩

/-- Binding gives an expression that stands for the one that is bound. -/
theorem bind_run (ht : HasShape S f n Γ e s) : Binds M opens tables S n Γ e s := by
  have w : PartWise M opens S (Holding M opens S) bind := bind_partWise
  induction ht with
  | param hx hname => exact .param w hx hname
  | const value => exact .const w value
  | ref hr href hn _ =>
    intro p e' p' hp h
    obtain ⟨rfl, rfl⟩ := Runs.pure_iff.1 h
    exact ⟨.refl hp.sound, .refl (.ref (hp.le.shapeOf hr) (hp.le.refs href) hn (fun h => nomatch h))⟩
  | set hset => exact .set w hset
  | property _ htype hn hq ih =>
    intro p e' p' hp h
    obtain ⟨e₁, q, he, h⟩ := Runs.bind_member h
    obtain ⟨ext, hs⟩ := ih p e₁ q hp he
    obtain ⟨rfl, hs⟩ := bindMember_property ext.sound (hp.catalog ▸ htype) hn hq hs h
    exact ⟨ext, hs⟩
  | navigation _ hedge hn _ ih =>
    intro p e' p' hp h
    obtain ⟨e₁, q, he, h⟩ := Runs.bind_member h
    obtain ⟨ext, hs⟩ := ih p e₁ q hp he
    obtain ⟨ext', hs, -⟩ := bindMember_navigation ext.sound (hp.catalog ▸ hedge) hn hs h
    exact ⟨ext.trans ext', hs⟩
  | field _ hfield _ ih =>
    intro p e' p' hp h
    obtain ⟨e₁, q, he, h⟩ := Runs.bind_member h
    obtain ⟨ext, hs⟩ := ih p e₁ q hp he
    obtain ⟨rfl, hs⟩ := bindMember_field hfield hs h
    exact ⟨ext, hs⟩
  | size _ hedge hc _ ih => exact .size ih hedge hc
  | refSize hr href _ => exact .refSize hr href
  | binary op _ _ hop iha ihb => exact .binary w op iha ihb hop
  | not _ ih => exact .not w ih
  | cond _ _ _ iha ihb ihd => exact .cond w iha ihb ihd
  | nil => exact .nil w
  | cons _ _ ihe ihf => exact .cons w ihe ihf
  | convert t nullable _ ih => exact .convert w t nullable ih
  | filter note _ _ hx ihs ihb => exact .filter w note ihs ihb hx
  | total note ho _ ihs => exact .total w note ho ihs
  | totalWhere note ho _ _ hx ihs ihb => exact .totalWhere w note ho ihs ihb hx

end Bound

end EntityQuery
