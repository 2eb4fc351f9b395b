import EntityQuery.Proofs.Ends
import EntityQuery.Proofs.Rebinding

/-!
# The limit on depth

A member chain of rows follows navigations of the catalog until it comes to a collection, or to a name that
is no navigation (`Catalog.hops`). Binding it fails for its depth exactly if the last row that it leads to
is deeper in its tree than the settings allow (`bind_tooDeep_iff`). In trees of entities the depth is the
number of navigations above a row. In the tree of a record the fields count as well, so that one navigation
may be too deep already (`bind_referrerOfField`).
-/

namespace EntityQuery

open EntityQuery.Expr

variable {M : Model} {p p' : Progress} {c : Catalog} {f g : Forest} {n q : NodeId}

/-- The number of navigations that the names lead along from rows of an entity. A chain does not go on from
a collection. -/
def Catalog.hops (c : Catalog) (entity : String) : List String → Nat
  | [] => 0
  | name :: names =>
    match c.navigation? entity name with
    | none => 0
    | some edge => 1 + if edge.isCollection then 0 else c.hops edge.target names

namespace Forest

/-- The navigations that lead from the root to a node. -/
def edgesAbove (f : Forest) (n : NodeId) : Nat :=
  (f.lineage n).countP fun k => (f.node k).parent.isSome && (f.node k).edge.isSome

/-- The record fields that lead from the root to a node. -/
def fieldsAbove (f : Forest) (n : NodeId) : Nat :=
  (f.lineage n).countP fun k => (f.node k).parent.isSome && (f.node k).edge.isNone

/-- How far below the root a chain of names leads from a node: the navigations and the fields on the way to
the last row that it reaches by a navigation, if it follows any. -/
def reach (c : Catalog) (f : Forest) (n : NodeId) : List String → Option (Nat × Nat)
  | [] => none
  | name :: names =>
    if (f.node n).isCollection then none
    else
      match f.fieldAt? n name with
      | some k => f.reach c k names
      | none =>
        match (f.node n).entity with
        | none => none
        | some entity =>
          let hops := c.hops entity (name :: names)
          if hops = 0 then none else some (f.edgesAbove n + hops, f.fieldsAbove n)

section Depth

theorem Linked.lineage_below (hf : f.Linked c) (h : (f.node n).parent = some q) :
    f.lineage n = n :: f.lineage q :=
  lineage_child h (hf.link h).1

theorem Keeps.lineage (h : f.Keeps g) (hn : n.index < f.size) : g.lineage n = f.lineage n :=
  lineage_of_parents (fun hn => (h.node hn).parent) hn

theorem Linked.length_lineage (hf : f.Linked c) (n : NodeId) :
    (f.lineage n).length = f.edgesAbove n + f.fieldsAbove n + 1 := by
  obtain ⟨i⟩ := n
  induction i using Nat.strongRecOn with
  | _ i ih =>
    cases hq : (f.node ⟨i⟩).parent with
    | none => simp [edgesAbove, fieldsAbove, lineage_top hq, hq]
    | some q =>
      have above : (f.lineage q).length = f.edgesAbove q + f.fieldsAbove q + 1 := ih q.index (hf.link hq).1
      rw [hf.lineage_below hq, List.length_cons, above, edgesAbove, edgesAbove, fieldsAbove, fieldsAbove,
        hf.lineage_below hq, List.countP_cons, List.countP_cons, hq]
      cases (f.node ⟨i⟩).edge <;> simp <;> omega

/-- A node is as deep as there are navigations and fields above it. -/
theorem Linked.depth_eq (hf : f.Linked c) (n : NodeId) : f.depth n = f.edgesAbove n + f.fieldsAbove n := by
  rw [depth, hf.length_lineage]
  rfl

/-- No field leads to a row whose tree has none but rows of entities above it. -/
theorem Linked.fieldsAbove_eq_zero (hf : f.Linked c)
    (entities : ∀ k ∈ f.lineage n, (f.node k).entity ≠ none) : f.fieldsAbove n = 0 := by
  refine List.countP_eq_zero.2 fun k hk hfield => ?_
  obtain ⟨hparent, plain⟩ := Bool.and_eq_true_iff.1 hfield
  obtain ⟨q, hq⟩ := Option.isSome_iff_exists.1 hparent
  obtain ⟨older, link⟩ := hf.link hq
  cases link with
  | navigation _ _ _ edge => simp [edge] at plain
  | field record => exact entities q (mem_lineage_parent hk hq older) record

end Depth

theorem Linked.fields_of_reach (hf : f.Linked c) (entities : ∀ k ∈ f.lineage n, (f.node k).entity ≠ none)
    {names : List String} {edges fields : Nat} (h : f.reach c n names = some (edges, fields)) : fields = 0 := by
  have here : n ∈ f.lineage n := by
    rw [lineage]
    exact .head _
  obtain ⟨entity, known⟩ := Option.ne_none_iff_exists'.1 (entities n here)
  cases names with
  | nil => cases h
  | cons name names =>
    rw [reach, hf.fieldAt?_of_entity known, known] at h
    dsimp only at h
    split at h
    · cases h
    · split at h
      · cases h
      · cases h
        exact hf.fieldsAbove_eq_zero entities

/-- The child that a navigation leads to is one step deeper. -/
theorem Linked.depth_follow (hf : f.Linked c) {k : NodeId} {edge : NavigationEdge} (hn : n.index < f.size)
    (hg : g.Linked c) (h : f.follow n edge = (k, g)) : g.depth k = f.depth n + 1 := by
  have below : (g.node k).parent = some n ∧ g.lineage n = f.lineage n := by
    rcases follow_cases hn h with ⟨hchild, rfl⟩ | ⟨-, rfl, rfl, added⟩
    · exact ⟨(hf.children (List.mem_of_find?_eq_some hchild)).2, rfl⟩
    · exact ⟨congrArg Node.parent added.new, added.keeps.lineage hn⟩
  rw [depth, hg.lineage_below below.1, below.2, depth, List.length_cons, hf.length_lineage]
  rfl

end Forest

section Failing

variable {α : Type} {x : Expansion α}

/-- The step fails since a navigation leads too deep. -/
def TooDeep (x : Expansion α) (M : Model) (p : Progress) : Prop :=
  ∃ path limit, x M p = .error (.depthExceeded path limit)

/-- The error is any other one. -/
def ExpansionError.IsOther (cause : ExpansionError) : Prop := ∀ path limit, cause ≠ .depthExceeded path limit

theorem not_tooDeep_iff : ¬ TooDeep x M p ↔ Ends (·.IsOther) x M p fun _ _ => True := by
  rw [Ends.iff_runs, TooDeep]
  constructor
  · exact fun h => ⟨fun _ _ _ => trivial, fun cause hx path limit heq => h ⟨path, limit, heq ▸ hx⟩⟩
  · rintro ⟨-, h⟩ ⟨path, limit, hx⟩
    exact h _ hx path limit rfl

end Failing

/-- The row that a stream's selector stands for, if nothing else is read from it. -/
def Expr.selectorRow? : Expr → Option RowRef
  | .stream _ (.rowRef r) _ => some r
  | _ => none

section Chains

variable {r : RowRef} {t : Expr} {name entity : String} {names : List String} {edge : NavigationEdge}

/-- The members of a chain are bound one after the other. -/
theorem bind_chain (names : List String) (t : Expr) :
    bind (names.foldl .member t) = bind t >>= fun t => names.foldlM bindMember t := by
  induction names generalizing t with
  | nil => exact (bind_pure _).symm
  | cons name names ih =>
    rw [List.foldl_cons, ih, bind_member, bind_assoc]
    rfl

/-- Nothing is bound along a chain from a member that leads nowhere. -/
theorem shallow_of_member : Ends (·.IsOther) (names.foldlM bindMember (.member t name)) M p fun _ _ => True := by
  induction names generalizing t name with
  | nil => trivial
  | cons next names ih => exact ih

/-- Nor from a collection. -/
theorem shallow_of_collection (many : (p.forest.node r.node).isCollection = true) :
    Ends (·.IsOther) (names.foldlM bindMember (.rowRef r)) M p fun _ _ => True := by
  cases names with
  | nil => trivial
  | cons name names =>
    change Ends _ (bindRowMember r name >>= fun t => names.foldlM bindMember t) M p _
    rw [bindRowMember, Ends.bind_iff, Ends.bind_iff, Ends.forest_iff, if_pos many]
    exact shallow_of_member

/-- A navigation leads too deep if its row is as deep as the limit. -/
theorem bindNavigation_shallow {k : NodeId} (hedge : M.catalog.navigation? entity name = some edge)
    (h : p.forest.follow r.node edge = (k, f)) : ∃ tally, ∀ Q, Ends (·.IsOther) (bindNavigation r entity name) M p Q ↔
      p.forest.depth r.node < M.settings.maxNavigationDepth ∧ Q (f.ref k) { p with forest := f, tally } := by
  obtain ⟨t, ht, hnav⟩ := Catalog.navigation?_eq_some.1 hedge
  refine ⟨if p.forest.size < f.size then { p.tally with nodesBound := p.tally.nodesBound + 1 } else p.tally,
    fun Q => ?_⟩
  simp only [bindNavigation, Ends.bind_iff, Ends.entityType ht, hnav, Ends.settings_iff, Ends.forest_iff]
  split
  · next deep =>
    simp only [Ends.bind_iff, Ends.throw_iff]
    exact iff_of_false (fun allowed => allowed _ _ rfl) fun room => absurd room.1 (by omega)
  · next shallow =>
    simp only [Ends.bind_iff, Ends.growForest_iff, Ends.forest_iff, h]
    rw [and_iff_right (by omega)]
    by_cases new : p.forest.size < f.size
    · simp only [if_pos new, Ends.bind_iff, Ends.modifyTally_iff, Ends.ref_iff]
    · simp only [if_neg new, Ends.ref_iff]

/-- Without a navigation of that name nothing leads too deep. -/
theorem bindNavigation_stays (hnone : M.catalog.navigation? entity name = none) {Q : Expr → Progress → Prop}
    (stays : Q (.member (.rowRef r) name) p) : Ends (·.IsOther) (bindNavigation r entity name) M p Q := by
  rw [bindNavigation, Ends.bind_iff]
  refine Ends.entityType_of (fun t ht => ?_) (fun _ _ _ heq => by cases heq)
  rw [Catalog.navigation?, ht] at hnone
  rw [show t.navigation? name = none from hnone]
  exact stays

/-- Along a chain from rows of an entity, no navigation leads too deep as long as all of them fit below the
limit. -/
theorem shallow_of_entity (hp : p.forest.Linked M.catalog) (single : (p.forest.node r.node).isCollection = false)
    (known : (p.forest.node r.node).entity = some entity) :
    Ends (·.IsOther) (names.foldlM bindMember (.rowRef r)) M p (fun _ _ => True) ↔
      M.catalog.hops entity names = 0 ∨
        p.forest.depth r.node + M.catalog.hops entity names ≤ M.settings.maxNavigationDepth := by
  induction names generalizing p r entity with
  | nil => exact iff_of_true trivial (.inl rfl)
  | cons name names ih =>
    have noField : p.forest.fieldAt? r.node name = none := hp.fieldAt?_of_entity known name
    have step (Q : Expr → Progress → Prop) :
        Ends (·.IsOther) (bindMember (.rowRef r) name) M p Q ↔ Ends (·.IsOther) (bindNavigation r entity name) M p Q := by
      change Ends (·.IsOther) (bindRowMember r name) M p Q ↔ _
      rw [bindRowMember, Ends.bind_iff, Ends.forest_iff, if_neg (by simp [single])]
      rw [show Option.filter _ _ = none from noField, known]
    rw [List.foldlM_cons, Ends.bind_iff, step, Catalog.hops]
    cases hedge : M.catalog.navigation? entity name with
    | none => exact iff_of_true (bindNavigation_stays hedge shallow_of_member) (.inl rfl)
    | some edge =>
      dsimp only
      cases hfollow : p.forest.follow r.node edge with
      | mk k f =>
      obtain ⟨tally, hnav⟩ := bindNavigation_shallow hedge hfollow
      obtain ⟨linked, keeps, hedge', htarget⟩ := Forest.follow_onward hp known single
        (Catalog.navigation?_name hedge ▸ hedge) hfollow
      have deeper := hp.depth_follow (Forest.Keeps.range_of_entity known) linked hfollow
      have hmany : (f.node k).isCollection = edge.isCollection := by
        rw [Node.isCollection, hedge', Option.any_some]
      rw [hnav]
      cases many : edge.isCollection with
      | true =>
        have done : Ends (·.IsOther) (names.foldlM bindMember (f.ref k)) M { p with forest := f, tally }
            fun _ _ => True := shallow_of_collection (hmany.trans many)
        rw [and_iff_left done, if_pos rfl]
        omega
      | false =>
        have rest := ih (p := { p with forest := f, tally }) (r := ⟨(f.node k).source, k, f.memberPath k⟩) linked
          (hmany.trans many) htarget
        rw [Forest.ref, rest, deeper, if_neg Bool.false_ne_true]
        omega

/-- Along a chain from any row, no navigation leads too deep as long as the last row that one leads to is
not below the limit. -/
theorem shallow_iff (hp : p.forest.Linked M.catalog) :
    Ends (·.IsOther) (names.foldlM bindMember (.rowRef r)) M p (fun _ _ => True) ↔
      ∀ edges fields, p.forest.reach M.catalog r.node names = some (edges, fields) →
        edges + fields ≤ M.settings.maxNavigationDepth := by
  have unreached {limit : Nat} (edges fields : Nat) (h : none = some (edges, fields)) :
      edges + fields ≤ limit := by
    cases h
  induction names generalizing r with
  | nil => exact iff_of_true trivial unreached
  | cons name names ih =>
    rw [Forest.reach]
    cases many : (p.forest.node r.node).isCollection with
    | true => exact iff_of_true (shallow_of_collection many) unreached
    | false =>
      rw [if_neg Bool.false_ne_true]
      have step : bindMember (.rowRef r) name = bindRowMember r name := rfl
      cases hfield : p.forest.fieldAt? r.node name with
      | some k =>
        rw [List.foldlM_cons, Ends.bind_iff, step, bindRowMember, Ends.bind_iff, Ends.forest_iff,
          if_neg (by simp [many])]
        rw [show Option.filter _ _ = some k from hfield]
        exact ih
      | none =>
        cases known : (p.forest.node r.node).entity with
        | none =>
          refine iff_of_true ?_ unreached
          rw [List.foldlM_cons, Ends.bind_iff, step, bindRowMember, Ends.bind_iff, Ends.forest_iff,
            if_neg (by simp [many])]
          rw [show Option.filter _ _ = none from hfield, known]
          exact shallow_of_member
        | some entity =>
          rw [shallow_of_entity hp many known, hp.depth_eq]
          dsimp only
          split
          · next hzero => exact iff_of_true (.inl hzero) unreached
          · next hpos =>
            rw [or_iff_right hpos]
            constructor
            · rintro h edges fields ⟨⟩
              omega
            · intro h
              have := h _ _ rfl
              omega

/-- Binding a member chain of a row fails for its depth if the last row that one of its navigations leads to
has more navigations and fields above it than the settings allow. -/
theorem tooDeep_chain_iff (hp : p.forest.Linked M.catalog) :
    TooDeep (bind (names.foldl .member (.rowRef r))) M p ↔
      ∃ edges fields, p.forest.reach M.catalog r.node names = some (edges, fields) ∧
        M.settings.maxNavigationDepth < edges + fields := by
  rw [← not_iff_not, not_tooDeep_iff, bind_chain, bind_rowRef, pure_bind, shallow_iff hp]
  simp only [not_exists, not_and, Nat.not_lt]

/-- Whether binding a member chain of a row fails for its depth depends on the last row that one of its
navigations leads to: it does exactly if more navigations and fields are above that row than the settings
allow. Where all rows above are those of entities, only navigations are. -/
theorem bind_tooDeep_iff (hp : p.forest.Linked M.catalog) (r : RowRef) (names : List String) :
    (TooDeep (bind (names.foldl .member (.rowRef r))) M p ↔
      ∃ edges fields, p.forest.reach M.catalog r.node names = some (edges, fields) ∧
        M.settings.maxNavigationDepth < edges + fields) ∧
    ((∀ k ∈ p.forest.lineage r.node, (p.forest.node k).entity ≠ none) →
      (TooDeep (bind (names.foldl .member (.rowRef r))) M p ↔
        ∃ edges, p.forest.reach M.catalog r.node names = some (edges, 0) ∧
          M.settings.maxNavigationDepth < edges)) := by
  refine ⟨tooDeep_chain_iff hp, fun entities => (tooDeep_chain_iff hp).trans ⟨?_, ?_⟩⟩
  · rintro ⟨edges, fields, hreach, deep⟩
    obtain rfl := hp.fields_of_reach entities hreach
    exact ⟨edges, hreach, deep⟩
  · rintro ⟨edges, hreach, deep⟩
    exact ⟨edges, 0, hreach, deep⟩

end Chains

namespace Shop

/-- The name of the customer who has referred the buyer of an order. -/
def referrerChain : List String := ["Buyer", "Referrer", "Name"]

/-- The buyers of five orders, as the only field of a record. -/
def firstBuyers : Expr :=
  .callNamed (.callNamed (.entitySet "Order") "Select"
    [.lambda ["o"] (.record [("Customer", .member (.param "o") "Buyer")])]) "Take" [.int 5]

/-- The shop, with chains of so many navigations allowed. -/
def within (limit : Nat) : Model := ⟨catalog, { maxNavigationDepth := limit }⟩

end Shop

/-- The chain follows two navigations, which is too deep for a limit of one, but not of two. -/
theorem bind_tooDeep_referrerChain :
    TooDeep (bind (Shop.referrerChain.foldl .member (.rowRef ⟨⟨0⟩, ⟨0⟩, []⟩))) (Shop.within 1) Shop.allOrders ∧
    ¬ TooDeep (bind (Shop.referrerChain.foldl .member (.rowRef ⟨⟨0⟩, ⟨0⟩, []⟩))) (Shop.within 2)
      Shop.allOrders := by
  have linked : Shop.allOrders.forest.Linked Shop.catalog :=
    ((Forest.addSource_onward rfl).1 (Forest.empty_linked _)).1
  have entities : ∀ k ∈ Shop.allOrders.forest.lineage ⟨0⟩, (Shop.allOrders.forest.node k).entity ≠ none := by
    decide +kernel
  have reach : Shop.allOrders.forest.reach Shop.catalog ⟨0⟩ Shop.referrerChain = some (2, 0) := by
    decide +kernel
  have limited (limit : Nat) := (bind_tooDeep_iff (M := Shop.within limit) linked ⟨⟨0⟩, ⟨0⟩, []⟩
    Shop.referrerChain).2 entities
  refine ⟨(limited 1).2 ⟨2, reach, by decide⟩, fun h => ?_⟩
  obtain ⟨edges, hreach, deep⟩ := (limited 2).1 h
  cases reach.symm.trans hreach
  exact absurd deep (by decide)

/-- One navigation below a field is too deep for a limit of one. -/
theorem bind_referrerOfField : ∃ e r p, Runs (expand Shop.firstBuyers) (Shop.within 1) {} e p ∧
    e.selectorRow? = some r ∧
    p.forest.reach Shop.catalog r.node ["Customer", "Referrer"] = some (1, 1) ∧
    TooDeep (bind (["Customer", "Referrer"].foldl .member (.rowRef r))) (Shop.within 1) p := by
  have computed : (expand Shop.firstBuyers (Shop.within 1) {}).toOption.any (fun s =>
      s.1.selectorRow?.any fun r =>
        decide (s.2.forest.reach Shop.catalog r.node ["Customer", "Referrer"] = some (1, 1))) = true := by
    decide +kernel
  obtain ⟨⟨e, p⟩, h, computed⟩ := Except.exists_of_any computed
  obtain ⟨r, hr, reach⟩ := (Option.any_eq_true _ _).1 computed
  have linked : p.forest.Linked Shop.catalog := (expandWithin_onward _ _ h (Forest.empty_linked _)).1
  have reach := of_decide_eq_true reach
  exact ⟨e, r, p, h, hr, reach, (tooDeep_chain_iff (M := Shop.within 1) linked).2 ⟨1, 1, reach, by decide⟩⟩

end EntityQuery
