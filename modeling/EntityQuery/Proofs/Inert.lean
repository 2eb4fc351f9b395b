import EntityQuery.Proofs.Frugal
import EntityQuery.Proofs.Guards
import EntityQuery.Proofs.Tables

/-!
# Expressions that rewriting leaves alone

The keys of a join along a navigation read columns: at the path of a row, or of a row that an enclosing query
refers to. They are written by the expansion itself, and a query around the join takes them through every
later rewriting. Where no navigation has the name of a column they come out as they went in: no column is
bound (`bindNode_inert`), and what is compared with null is a path (`compareNode_inert`). Resolving them puts
paths for the rows that they refer to, and they read the same columns as before (`resolution_inert`).
-/

namespace EntityQuery

open EntityQuery.Expr

variable {M : Model} {C : Catalog} {f g : Forest} {p p' : Progress} {s : RowScope} {Γ Δ : List String}
  {e e' d : Expr} {x y : String}

/-- The node stands for single rows of an entity. -/
def Forest.IsRow (f : Forest) (n : NodeId) : Prop :=
  (∃ entity, (f.node n).entity = some entity) ∧ (f.node n).isCollection = false

theorem Forest.IsRow.keeps {n : NodeId} (h : f.IsRow n) (hfg : f.Keeps g) : g.IsRow n := by
  obtain ⟨⟨entity, hn⟩, single⟩ := h
  exact ⟨⟨entity, hfg.entity hn⟩, (hfg.node (Forest.Keeps.range_of_entity hn)).isCollection.trans single⟩

namespace Expr

/-- The column that an expression reads, under conversions. -/
def column? : Expr → Option String
  | .convert operand _ _ => operand.column?
  | .member _ name => some name
  | _ => none

/-- The column that a component of a key reads, under the guard of a row that can be missing. -/
def columnRead? : Expr → Option String
  | .cond (.binary .equal _ (.const .null)) _ read => read.column?
  | e => e.column?

/-- What the components of a key read; the key of a lambda is that of its body. -/
def keyColumns : Expr → List (Option String)
  | .lambda _ key => key.keyColumns
  | .tuple items => items.map columnRead?
  | e => [e.columnRead?]

/-- Rewriting does nothing at such a node: what has a member is a path, and what is compared is a path with
null. -/
def isInertNode : Expr → Bool
  | .entitySet _ | .const _ | .record _ | .tuple _ | .convert .. | .cond .. | .entityShape .. => true
  | .member t _ => t.isRowPath
  | .binary .equal a (.const .null) => a.isRowPath
  | .call _ _ note => note.isNone
  | _ => false

/-- Rewriting does nothing to the expression, in which the parameters `Γ` are bound. -/
inductive Inert (C : Catalog) (f : Forest) : List String → Expr → Prop
  | node {Γ : List String} {e : Expr} (kind : e.isInertNode = true) (parts : ∀ c ∈ e.children, Inert C f Γ c) :
    Inert C f Γ e
  | param {Γ : List String} {x : String} (h : x ∈ Γ) : Inert C f Γ (.param x)
  | lambda {Γ params : List String} {body : Expr} (h : Inert C f (params ++ Γ) body) :
    Inert C f Γ (.lambda params body)
  | row {Γ : List String} {r : RowRef} (h : f.IsRow r.node) : Inert C f Γ (.rowRef r)
  | column {Γ : List String} {r : RowRef} {name : String} (h : f.IsRow r.node) (hname : C.IsColumn name) :
    Inert C f Γ (.member (.rowRef r) name)

section Paths

theorem rowRefs_of_isRowPath (h : e.isRowPath = true) : e.rowRefs = [] := by
  induction e using children_induction with
  | step e ih =>
    cases e with
    | param x => rfl
    | member t name =>
      refine List.eq_nil_iff_forall_not_mem.2 fun r hr => ?_
      obtain ⟨c, hc, hr⟩ := (mem_rowRefs_iff.1 hr).resolve_left nofun
      rw [ih c hc (List.mem_singleton.1 hc ▸ h)] at hr
      cases hr
    | _ => cases h

/-- A path that starts at a parameter of `Γ` stays a path when a parameter is put for one of `Γ`. -/
theorem isRowPath_substitute (h : e.isRowPath = true) (hx : e.pathRoot? = some x → ∃ y, d = .param y) :
    (e.substitute x d).isRowPath = true := by
  obtain ⟨z, hz⟩ := Option.isSome_iff_exists.1 h
  by_cases hzx : z = x
  · obtain ⟨y, rfl⟩ := hx (hzx ▸ hz)
    rw [isRowPath, pathRoot?_substitute (hzx ▸ hz)]
    rfl
  · rwa [substitute_path hz hzx]

end Paths

section Columns

theorem columnRead?_of_column? {name : String} (h : e.column? = some name) : e.columnRead? = some name := by
  unfold columnRead?
  split
  · cases h
  · exact h

theorem column?_substitute {name : String} (h : e.column? = some name) :
    (e.substitute x d).column? = some name := by
  induction e using children_induction with
  | step e ih =>
    cases e with
    | convert a t nullable =>
      rw [substitute_of_none rfl]
      exact ih a (.head _) h
    | member t n =>
      rw [substitute_of_none rfl]
      exact h
    | _ => cases h

theorem columnRead?_substitute {name : String} (h : e.columnRead? = some name) :
    (e.substitute x d).columnRead? = some name := by
  unfold columnRead? at h
  split at h
  · next a t read =>
    rw [substitute_of_none rfl]
    exact column?_substitute h
  · exact columnRead?_of_column? (column?_substitute h)

/-- What reads a column is neither a lambda nor a tuple. -/
theorem keyColumns_of_columnRead? {name : String} (h : e.columnRead? = some name) :
    e.keyColumns = [some name] := by
  cases e with
  | lambda _ _ | tuple _ => cases h
  | _ => exact congrArg (fun n => [n]) h

theorem keyColumns_cases (names : List String) (h : e.keyColumns = names.map some) :
    (∃ params body, e = .lambda params body ∧ body.keyColumns = names.map some) ∨
      (∃ items, e = .tuple items ∧ items.map columnRead? = names.map some) ∨
      ∃ name, names = [name] ∧ e.columnRead? = some name := by
  have single (h : [e.columnRead?] = names.map some) : ∃ name, names = [name] ∧ e.columnRead? = some name := by
    obtain ⟨name, l, rfl, hname, hl⟩ := List.map_eq_cons_iff.1 h.symm
    obtain rfl := List.map_eq_nil_iff.1 hl
    exact ⟨name, rfl, hname.symm⟩
  cases e with
  | lambda params body => exact .inl ⟨params, body, rfl, h⟩
  | tuple items => exact .inr (.inl ⟨items, rfl, h⟩)
  | _ => exact .inr (.inr (single h))

/-- Where each item still reads its column, the items do. -/
theorem columnReads_of_forall₂ {R : Expr → Expr → Prop} {items items' : List Expr} {names : List String}
    (parts : List.Forall₂ R items items')
    (reads : ∀ {c c' name}, c ∈ items → R c c' → c.columnRead? = some name → c'.columnRead? = some name)
    (h : items.map columnRead? = names.map some) : items'.map columnRead? = names.map some := by
  induction parts generalizing names with
  | nil => exact h
  | cons hR _ ih =>
    obtain ⟨name, rest, rfl, hname, hrest⟩ := List.map_eq_cons_iff.1 h.symm
    rw [List.map_cons, List.map_cons, reads (.head _) hR hname.symm,
      ih (fun hc => reads (.tail _ hc)) hrest.symm]

theorem keyColumns_substitute {names : List String} (h : e.keyColumns = names.map some) :
    (e.substitute x d).keyColumns = names.map some := by
  induction e using children_induction with
  | step e ih =>
    obtain ⟨params, body, rfl, hbody⟩ | ⟨items, rfl, hitems⟩ | ⟨name, rfl, hread⟩ := keyColumns_cases names h
    · rw [substitute_lambda]
      split
      · exact h
      · exact ih body (.head _) hbody
    · rw [substitute_of_none rfl]
      refine columnReads_of_forall₂ (SameHead.of_map _ (.tuple items)).parts ?_ hitems
      rintro c _ name - ⟨-, rfl⟩ hread
      exact columnRead?_substitute hread
    · exact keyColumns_of_columnRead? (columnRead?_substitute hread)

end Columns

section Nodes

variable {R : Expr → Expr → Prop} {t : Expr} {name : String} {params : List String}

theorem Inert.mono (h : Inert C f Γ e) (hfg : f.Keeps g) (hle : Γ ⊆ Δ) : Inert C g Δ e := by
  induction h generalizing Δ with
  | node kind _ ih => exact .node kind fun c hc => ih c hc hle
  | param h => exact .param (hle h)
  | lambda _ ih =>
    exact .lambda (ih (List.append_subset.2 ⟨List.subset_append_left _ _, List.subset_append_of_subset_right _ hle⟩))
  | row h => exact .row (h.keeps hfg)
  | column h hname => exact .column (h.keeps hfg) hname

theorem inert_lambda : Inert C f Γ (.lambda params e) ↔ Inert C f (params ++ Γ) e := by
  refine ⟨fun h => ?_, .lambda⟩
  cases h with
  | node kind => cases kind
  | lambda h => exact h

/-- The parts of an inert node that binds nothing are inert. -/
theorem inert_child (h : Inert C f Γ e) {c : Expr} (hc : c ∈ e.children) (binds : e.isLambda = false) :
    Inert C f Γ c := by
  cases h with
  | node _ parts => exact parts c hc
  | column hrow _ =>
    obtain rfl := List.mem_singleton.1 hc
    exact .row hrow
  | lambda => cases binds
  | param | row => cases hc

theorem Inert.path (h : Inert C f Γ e) (root : e.pathRoot? = some x) : x ∈ Γ := by
  induction e using children_induction with
  | step e ih =>
    cases h with
    | node kind parts =>
      cases e with
      | member t name => exact ih t (.head _) (parts t (.head _)) root
      | param _ => cases kind
      | _ => cases root
    | param h =>
      cases root
      exact h
    | column | lambda | row => cases root

theorem inert_readPath (x : String) (path : List String) (hx : x ∈ Γ) : Inert C f Γ (readPath x path) := by
  suffices ∀ e : Expr, e.isRowPath = true → Inert C f Γ e → Inert C f Γ (path.foldl Expr.member e) from
    this _ rfl (.param hx)
  induction path with
  | nil => exact fun _ _ h => h
  | cons name path ih => exact fun e root h => ih _ root (.node root (by simpa [children] using h))

theorem of_isInertNode {op : BinaryOp} {a b : Expr} (h : (Expr.binary op a b).isInertNode = true) :
    op = .equal ∧ a.isRowPath = true ∧ b = .const .null := by
  cases op with
  | equal =>
    cases b with
    | const value =>
      cases value with
      | null => exact ⟨rfl, h, rfl⟩
      | _ => cases h
    | _ => cases h
  | _ => cases h

/-- What is compared in an inert expression refers to no row. -/
theorem rowRefs_of_test {op : BinaryOp} {a b : Expr} (h : Inert C f Γ (.binary op a b)) :
    (Expr.binary op a b).rowRefs = [] := by
  cases h with
  | node kind _ =>
    obtain ⟨rfl, hpath, rfl⟩ := of_isInertNode kind
    refine List.eq_nil_iff_forall_not_mem.2 fun r hr => ?_
    obtain ⟨c, hc, hc'⟩ := (mem_rowRefs_iff.1 hr).resolve_left nofun
    simp only [children, List.mem_cons, List.not_mem_nil, or_false] at hc
    rcases hc with rfl | rfl
    · rw [rowRefs_of_isRowPath hpath] at hc'
      cases hc'
    · cases hc'

/-- An equality whose parts stay paths and null stays one. -/
theorem SameHead.isInertNode (h : SameHead R e e') (paths : ∀ {c c'}, R c c' → c.isRowPath = true → c'.isRowPath = true)
    (null : ∀ {c'}, R (.const .null) c' → c' = .const .null) (he : e.isInertNode = true) :
    e'.isInertNode = true := by
  cases h with
  | member name h => exact paths h he
  | binary op ha hb =>
    obtain ⟨rfl, hpath, rfl⟩ := of_isInertNode he
    rw [null hb]
    exact paths ha hpath
  | _ => exact he

/-- What is the same over its parts is the same over inert expressions. -/
theorem SameHead.inert (h : SameHead R e e') (same : ∀ {Γ c c'}, R c c' → Inert C f Γ c → c' = c)
    (he : Inert C f Γ e) : e' = e := by
  refine h.eq_of_parts fun c hc c' hR => ?_
  cases he with
  | node _ parts => exact same hR (parts c hc)
  | lambda hbody =>
    obtain rfl := List.mem_singleton.1 hc
    exact same hR hbody
  | column hrow _ =>
    obtain rfl := List.mem_singleton.1 hc
    exact same (Γ := Γ) hR (.row hrow)
  | param | row => cases hc

/-- Putting a parameter for one that is bound leaves an expression inert. -/
theorem Inert.put (h : Inert C f Γ e) (hl : Level.Puts x d (some Γ) (some Δ)) : Inert C f Δ (e.substitute x d) := by
  induction e using children_induction generalizing Γ Δ with
  | step e ih =>
    cases h with
    | param h =>
      rw [substitute_param]
      split
      · next heq =>
        subst heq
        obtain ⟨y, hy, rfl⟩ := hl.2 h
        exact .param hy
      · next hne => exact .param (hl.1 _ h hne)
    | lambda h =>
      rw [substitute_lambda]
      split
      · next hx => exact .lambda (h.mono (.refl f) (hl.under_of_mem hx))
      · next hx => exact .lambda (ih _ (.head _) h (hl.under hx))
    | row h => exact .row h
    | column h hname => exact .column h hname
    | node kind parts =>
      have none : substituteAt x d e = none := by cases e <;> first | rfl | cases kind
      rw [substitute_of_none none]
      have head := SameHead.of_map (·.substitute x d) e
      refine .node (head.isInertNode ?_ ?_ kind) fun c' hc' => ?_
      · rintro c _ ⟨hc, rfl⟩ hpath
        refine isRowPath_substitute hpath fun hroot => ?_
        obtain ⟨y, -, hy⟩ := hl.2 ((parts c hc).path hroot)
        exact ⟨y, hy⟩
      · rintro _ ⟨-, rfl⟩
        rfl
      · obtain ⟨c, hc, -, rfl⟩ := head.of_mem_children hc'
        exact ih c hc (parts c hc) hl

/-- What is put for a parameter that does not occur changes nothing. -/
theorem Inert.substitute_of_not_mem (h : Inert C f Γ e) (hx : x ∉ Γ) : e.substitute x d = e := by
  induction e using children_induction generalizing Γ with
  | step e ih =>
    cases h with
    | param h =>
      rw [substitute_param, if_neg]
      rintro rfl
      exact hx h
    | @lambda _ params body h =>
      rw [substitute_lambda]
      split
      · rfl
      · next hparams =>
        rw [ih _ (.head _) h fun hmem => (List.mem_append.1 hmem).elim hparams hx]
    | row | column => rfl
    | node kind parts =>
      have none : substituteAt x d e = none := by cases e <;> first | rfl | cases kind
      rw [substitute_of_none none]
      refine (SameHead.of_map _ e).eq_of_parts ?_
      rintro c hc _ ⟨-, rfl⟩
      exact ih c hc (parts c hc) hx

theorem Inert.key {parts : List Expr} (h : ∀ part ∈ parts, Inert C f Γ part) : Inert C f Γ (.key parts) := by
  unfold Expr.key
  split
  · exact h _ (.head _)
  · exact .node rfl h

theorem inert_pairing (x y : String) : Inert C f Γ (pairing x y) :=
  .lambda (.node rfl (List.forall_mem_cons.2 ⟨.param (by simp), List.forall_mem_singleton.2 (.param (by simp))⟩))

/-- A lambda that refers to no row has a body that refers to none. -/
theorem rowRefs_body (closed : (Expr.lambda params e).rowRefs = []) : e.rowRefs = [] := by
  refine List.eq_nil_iff_forall_not_mem.2 fun r hr => ?_
  have := mem_rowRefs_of_child (e := .lambda params e) (.head _) hr
  rw [closed] at this
  cases this

end Nodes

section Keys

/-- The components of a key read what the key reads. -/
theorem keyColumns_key {parts : List Expr} {names : List String} (h : parts.map columnRead? = names.map some) :
    (Expr.key parts).keyColumns = names.map some := by
  unfold Expr.key
  split
  · next part =>
    obtain ⟨name, rest, rfl, hname, hrest⟩ := List.map_eq_cons_iff.1 h.symm
    obtain rfl := List.map_eq_nil_iff.1 hrest
    exact keyColumns_of_columnRead? hname.symm
  · exact h

variable {owner : Expr} {optional : Bool} {target : String} {outerKey innerKey : List Property}

theorem navigationColumn_inert (root : owner.isRowPath = true) (ho : Inert C f Γ owner) (ht : target ∈ Δ)
    (o t : Property) : Inert C f Γ (navigationColumn owner optional target o t).1 ∧
      Inert C f Δ (navigationColumn owner optional target o t).2 := by
  have member {a : Expr} {Γ : List String} (root : a.isRowPath = true) (ha : Inert C f Γ a) (name : String) :
      Inert C f Γ (.member a name) := .node root (List.forall_mem_singleton.2 ha)
  have widened {a : Expr} {Γ : List String} (ha : Inert C f Γ a) (wide : Bool) (q : Property) :
      Inert C f Γ (if wide && !q.nullable then .convert a q.dataType true else a) := by
    split
    · exact .node rfl (List.forall_mem_singleton.2 ha)
    · exact ha
  have const (value : Literal) : Inert C f Γ (.const value) := .node rfl nofun
  have read := widened (member root ho o.name) (o.nullable || t.nullable || optional) o
  refine ⟨?_, widened (member rfl (.param ht) t.name) _ t⟩
  unfold navigationColumn
  dsimp only
  split
  · refine .node rfl (List.forall_mem_cons.2 ⟨.node root ?_, List.forall_mem_cons.2 ⟨.node rfl ?_,
      List.forall_mem_singleton.2 read⟩⟩)
    · exact List.forall_mem_cons.2 ⟨ho, List.forall_mem_singleton.2 (const _)⟩
    · exact List.forall_mem_singleton.2 (const _)
  · exact read

theorem navigationColumn_reads (o t : Property) :
    (navigationColumn owner optional target o t).1.columnRead? = some o.name ∧
      (navigationColumn owner optional target o t).2.columnRead? = some t.name := by
  have widened {a : Expr} (wide : Bool) (q : Property) :
      (if wide && !q.nullable then Expr.convert (.member a q.name) q.dataType true else .member a q.name).column? =
        some q.name := by
    split <;> rfl
  refine ⟨?_, columnRead?_of_column? (widened _ t)⟩
  unfold navigationColumn
  dsimp only
  split
  · exact widened _ o
  · exact columnRead?_of_column? (widened _ o)

/-- The keys of a join along a navigation are inert, and they read the columns of the navigation. -/
theorem navigationColumns_inert (x : String) (path : List String) (optional : Bool) (target : String)
    (outerKey innerKey : List Property) :
    let columns := navigationColumns (.readPath x path) optional target outerKey innerKey
    Inert C f Γ (.lambda [x] (.key (columns.map (·.1)))) ∧
      Inert C f Γ (.lambda [target] (.key (columns.map (·.2)))) := by
  have root : (readPath x path).isRowPath = true := by
    rw [isRowPath, pathRoot?_readPath]
    rfl
  refine ⟨.lambda (.key ?_), .lambda (.key ?_)⟩
  all_goals
    simp only [navigationColumns, List.mem_map]
    rintro _ ⟨_, ⟨⟨o, t⟩, -, rfl⟩, rfl⟩
  · exact (navigationColumn_inert root (inert_readPath x path (.head _)) (.head _) (Δ := [target]) o t).1
  · exact (navigationColumn_inert root (inert_readPath x path (.head _)) (.head _) (Γ := [x]) o t).2

theorem navigationColumns_reads (owner : Expr) (optional : Bool) (target : String)
    (length : outerKey.length = innerKey.length) :
    let columns := navigationColumns owner optional target outerKey innerKey
    (Expr.key (columns.map (·.1))).keyColumns = (outerKey.map (·.name)).map some ∧
      (Expr.key (columns.map (·.2))).keyColumns = (innerKey.map (·.name)).map some := by
  have lefts := congrArg (List.map fun q : Property => some q.name) (List.map_fst_zip (Nat.le_of_eq length))
  have rights := congrArg (List.map fun q : Property => some q.name) (List.map_snd_zip (Nat.le_of_eq length.symm))
  rw [List.map_map] at lefts rights
  constructor
  · refine keyColumns_key (Eq.trans ?_ (lefts.trans List.map_map.symm))
    simp [navigationColumns, navigationColumn_reads]
  · refine keyColumns_key (Eq.trans ?_ (rights.trans List.map_map.symm))
    simp [navigationColumns, navigationColumn_reads]

end Keys

end Expr

section Rewriting

variable {r : RowRef} {op : BinaryOp} {a b : Expr}

/-- No column of a row is bound. -/
theorem bindNode_inert (apart : M.catalog.NamesApart) (hp : p.forest.Linked M.catalog)
    (h : Runs (bindNode e) M p e' p') (he : e.Inert M.catalog p.forest Γ) : e' = e := by
  unfold bindNode at h
  split at h
  · next t name =>
    unfold bindMember at h
    cases he with
    | node kind parts =>
      split at h
      · cases kind
      · cases kind
      · exact (Runs.pure_iff.1 h).1
    | @column _ r _ hrow hname =>
      obtain ⟨⟨entity, hentity⟩, -⟩ := hrow
      rcases Runs.bindRowMember_cases h with ⟨rfl, -⟩ | ⟨c, hc, -⟩ | ⟨owner, edge, _, _, _, -, -, hedge, -⟩
      · rfl
      · rw [hp.fieldless hentity name] at hc
        cases hc
      · exact (apart.not_isNavigation hname (Catalog.isNavigation_of_navigation? hedge)).elim
  · exact (Runs.pure_iff.1 h).1

/-- The names of the members in an expression. -/
def Expr.memberNames (e : Expr) : List String :=
  e.nodes.filterMap fun
    | .member _ x => some x
    | _ => none

namespace Shop

/-- For each order the orders of its buyer, who is chosen by a condition. -/
def ordersOfChosen : Expr :=
  let buyer : Expr := .member (.param "o") "Buyer"
  .call .select [.entitySet "Order",
    .lambda ["o"] (.member (.cond (.const (.boolean true)) buyer buyer) "Orders")] none

end Shop

/-- A member of a conditional is not bound. A navigation of its rows is left, and no error says so. -/
theorem expandQuery_ordersOfChosen : Shop.catalog.NamesApart ∧ ∃ q,
    expandQuery Shop.catalog {} Shop.ordersOfChosen = .ok q ∧ "Orders" ∈ q.query.memberNames := by
  have left : ((expandQuery Shop.catalog {} Shop.ordersOfChosen).toOption.any fun q =>
      q.query.memberNames.contains "Orders") = true := by decide +kernel
  refine ⟨by decide, ?_⟩
  cases h : expandQuery Shop.catalog {} Shop.ordersOfChosen with
  | error err =>
    rw [h] at left
    cases left
  | ok q =>
    rw [h] at left
    exact ⟨q, rfl, List.contains_iff_mem.1 left⟩

theorem optionalReads_of_isRowPath (h : a.isRowPath = true) : optionalReads f a = [] := by
  refine List.eq_nil_iff_forall_not_mem.2 fun r hr => ?_
  have hr := mem_rowRefs_of_optionalReads hr
  rw [rowRefs_of_isRowPath h] at hr
  cases hr

/-- A path that is compared with null is compared as it is. -/
theorem compareNode_inert (h : Runs (compareNode e) M p e' p') (he : e.Inert C f Γ) : e' = e := by
  unfold compareNode at h
  split at h
  · next op a b hsides =>
    cases he with
    | node kind parts =>
      cases e with
      | binary op' a' b' =>
        obtain ⟨rfl, hpath, rfl⟩ := of_isInertNode kind
        cases hsides
        have plain : a.isRef = false := by cases a <;> first | rfl | cases hpath
        obtain ⟨rfl, -⟩ := (Runs.compareSides_iff (.inl ⟨Operand.isPlain_of_not_ref plain, rfl⟩)).1 h
        unfold plainEquality guardedEquality
        rw [optionalReads_of_isRowPath hpath]
        split <;> rfl
      | function => cases kind
      | _ => cases hsides
    | _ => cases hsides
  · exact (Runs.pure_iff.1 h).1

/-- There is no collection in an inert expression, and there was none before. -/
theorem collectionAt_inert (hfg : f.Keeps g) (he : e.Inert C g Γ) : collectionAt f e = none := by
  have single {n : NodeId} (h : g.IsRow n) : (f.node n).isCollection = false :=
    Bool.eq_false_iff.2 fun many => Bool.eq_false_iff.1 h.2 (hfg.isCollection many)
  cases he with
  | node kind _ =>
    unfold collectionAt
    split <;> first | rfl | cases kind
  | row h => simp [collectionAt, single h]
  | column h _ => simp [collectionAt, single h]
  | param | lambda => rfl

end Rewriting

section Resolving

variable {s : RowScope} {name : String}

/-- What an inert expression is resolved to is inert over the rows and reads the same columns. -/
structure ResolvesInert (C : Catalog) (f : Forest) (s : RowScope) (e e' : Expr) : Prop where
  inert {Γ : List String} (hs : s.parameter ∈ Γ) : e.Inert C f Γ → e'.Inert C f Γ
  same {Γ : List String} (closed : e.rowRefs = []) : e.Inert C f Γ → e' = e
  column {name : String} : e.column? = some name → e'.column? = some name
  read {Γ : List String} {name : String} : e.Inert C f Γ → e.columnRead? = some name → e'.columnRead? = some name
  keys {Γ : List String} {names : List String} : e.Inert C f Γ → e.keyColumns = names.map some →
    e'.keyColumns = names.map some

namespace ResolvesInert

theorem refl (e : Expr) : ResolvesInert C f s e e := ⟨fun _ => id, fun _ _ => rfl, id, fun _ => id, fun _ => id⟩

/-- Nothing is said of a node that is not inert and reads no column. -/
theorem of_other (h : ∀ Γ, ¬ e.Inert C f Γ) (none : e.column? = none) : ResolvesInert C f s e e' where
  inert _ he := (h _ he).elim
  same _ he := (h _ he).elim
  column hname := by
    rw [none] at hname
    cases hname
  read he := (h _ he).elim
  keys he := (h _ he).elim

/-- A column of a row that refers to the rows of the stream. -/
theorem of_column {r : RowRef} {path : List String} :
    ResolvesInert C f s (.member (.rowRef r) name) (.member (.readPath s.parameter path) name) where
  inert hs _ := .node (by rw [isInertNode, isRowPath, pathRoot?_readPath]; rfl)
    (List.forall_mem_singleton.2 (inert_readPath _ _ hs))
  same closed := by cases closed
  column h := h
  read _ h := h
  keys _ h := h

/-- A row that is read as a whole is no column. -/
theorem of_row {r : RowRef} (h : ∀ {Γ}, s.parameter ∈ Γ → e'.Inert C f Γ) : ResolvesInert C f s (.rowRef r) e' where
  inert hs _ := h hs
  same closed := by cases closed
  column := nofun
  read _ := nofun
  keys {_ names} _ h := by
    obtain ⟨_, _, ⟨⟩, -⟩ | ⟨_, ⟨⟩, -⟩ | ⟨_, -, ⟨⟩⟩ := keyColumns_cases names h

/-- What is made of an expression is made of its parts, unless it is a column of a row that is referred to. -/
theorem of_sameHead (other : ∀ r name, e ≠ .member (.rowRef r) name)
    (head : SameHead (fun c c' => c ∈ e.children ∧ ResolvesInert C f s c c') e e') : ResolvesInert C f s e e' := by
  have same {Γ : List String} (closed : e.rowRefs = []) (he : e.Inert C f Γ) : e' = e := by
    refine head.inert ?_ he
    rintro Δ c c' ⟨hc, h⟩ hinert
    refine h.same (List.eq_nil_iff_forall_not_mem.2 fun r hr => ?_) hinert
    have := mem_rowRefs_of_child hc hr
    rw [closed] at this
    cases this
  have column {name : String} (hname : e.column? = some name) : e'.column? = some name := by
    cases head with
    | convert _ _ h => exact h.2.column hname
    | member _ _ => exact hname
    | _ => cases hname
  have read {Γ : List String} {name : String} (he : e.Inert C f Γ) (hname : e.columnRead? = some name) :
      e'.columnRead? = some name := by
    unfold columnRead? at hname
    split at hname
    · next a t read =>
      cases head with
      | cond htest _ hread =>
        have test := inert_child he (.head _) rfl
        rw [htest.2.same (rowRefs_of_test test) test]
        exact hread.2.column hname
    · exact columnRead?_of_column? (column hname)
  exact {
    inert := fun hs he => by
      cases he with
      | node kind parts =>
        refine .node (head.isInertNode ?_ ?_ kind) fun c' hc' => ?_
        · rintro c c' ⟨hc, h⟩ hpath
          rwa [h.same (rowRefs_of_isRowPath hpath) (parts c hc)]
        · rintro c' ⟨hc, h⟩
          exact h.same rfl (parts _ hc)
        · obtain ⟨c, -, hc, h⟩ := head.of_mem_children hc'
          exact h.inert hs (parts c hc)
      | param hx =>
        cases head
        exact .param hx
      | lambda hbody =>
        cases head with
        | lambda _ h => exact .lambda (h.2.inert (List.mem_append_right _ hs) hbody)
      | row hrow =>
        cases head
        exact .row hrow
      | column => exact absurd rfl (other _ _)
    same
    column
    read
    keys := fun {_ names} he h => by
      obtain ⟨_, _, rfl, hbody⟩ | ⟨items, rfl, hitems⟩ | ⟨name, rfl, hread⟩ := keyColumns_cases names h
      · cases head with
        | lambda _ hkeys => exact hkeys.2.keys (inert_lambda.1 he) hbody
      · cases head with
        | tuple hparts =>
          exact columnReads_of_forall₂ hparts (fun hc h => h.2.read (inert_child he hc rfl)) hitems
      · exact keyColumns_of_columnRead? (read he hread) }

end ResolvesInert

theorem resolution_inert (f : Forest) : Resolution f (ResolvesInert C f) where
  parts kind := .of_sameHead fun _ _ heq => by
    subst heq
    cases kind
  kept _ := .refl _
  keptMember _ := .refl _
  row _ _ := .of_row fun hs => inert_readPath _ _ hs
  entity _ _ := .of_row fun hs => .node rfl (List.forall_mem_singleton.2 (inert_readPath _ _ hs))
  property _ _ := .of_column
  guarded _ _ _ := .of_other (fun _ h => by cases h with | node kind => cases kind) rfl
  lambda _ hbody := .of_sameHead (fun _ _ heq => by cases heq) (.lambda _ ⟨.head _, hbody⟩)
  renamed := by
    intro s params body body' name captured hbody
    simp only [RowScope.capturedBy, Bool.and_eq_true, List.contains_iff_mem] at captured
    have renamed {Γ : List String} (he : (Expr.lambda params body).Inert C f Γ) :
        (Lambda.rename ⟨params, body⟩ s.parameter name).body.Inert C f
          ((Lambda.rename ⟨params, body⟩ s.parameter name).params ++ Γ) :=
      (inert_lambda.1 he).put (.rename captured.1 body name)
    exact {
      inert := fun hs he => .lambda (hbody.inert (List.mem_append_right _ hs) (renamed he))
      same := fun closed _ => by
        have captured := captured.2
        rw [refersTo, rowRefs_body closed] at captured
        cases captured
      column := fun h => by cases h
      read := fun _ h => by cases h
      keys := fun he h => hbody.keys (renamed he) (keyColumns_substitute h) }
  projected _ _ _ _ := .of_other (fun _ h => by cases h with | node kind => cases kind) rfl
  unprojected _ _ := .of_other (fun _ h => by cases h with | node kind => cases kind) rfl

end Resolving

end EntityQuery
