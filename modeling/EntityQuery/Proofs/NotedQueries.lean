import EntityQuery.Proofs.GuardedQueries
import EntityQuery.Proofs.Driver
import EntityQuery.Proofs.KeyFilters
import EntityQuery.Proofs.Notes

/-!
# The notes of an expanded query

What `Expr.Noted` says of a query is durable, if no navigation has the name of a column (`noted_durable`). The
joins along navigations are noted for the columns that their keys are made of. So are those of hoisted
collections: the filter that stood for the collection compared columns of its elements with columns of their
owner, and the chain above it has the rows of the set that it starts with (`expandWithin_startsAtRow`), so the
columns are found in its rows. Nothing that users write is noted. Hence all joins in the result of an expansion
are what they are noted for (`expandQuery_asNoted`).
-/

namespace EntityQuery

open EntityQuery.Expr

variable {M : Model} {C : Catalog} {f g : Forest} {p p' q : Progress} {l : Level} {Γ : List String} {e e' : Expr}
  {x y : String}

section Subqueries

variable {recur : Recur} {R : Expr → Expr → Prop} {n : Nat}

/-- Where nothing is expanded there is no filter of a collection, so what is said of an expression is said of
its parts. -/
theorem Expr.Noted.of_idle (idle : subqueryAt recur e = none) (head : SameHead R e e')
    (parts : ∀ c c', R c c' → c.Noted C f (.free none) → c'.Noted C g (.free none))
    (h : e.Noted C f (.free none)) : e'.Noted C g (.free none) := by
  generalize hP : Place.free none = P at h
  cases h with
  | node plain each =>
    cases hP
    refine .node (head.isUnnoted.trans plain) fun c' hc' => ?_
    obtain ⟨c, hc, hR⟩ := head.of_mem_children hc'
    exact parts c c' hR (each c hc)
  | lambda hbody =>
    cases hP
    cases head with
    | lambda _ hR => exact .lambda (parts _ _ hR hbody)
  | @join _ _ note _ _ _ _ _ _ _ place =>
    rw [place] at hP
    cases hkind : note.kind <;> rw [hkind] at hP <;> cases hP
  | stream | collection => cases idle
  | _ => cases hP

theorem expandSubqueries_noted (hrec : KeepsAlong M guardLevels (fun f l e => e.Noted M.catalog f (.free l)) (expandWithin n)) :
    KeepsAlong M guardLevels (fun f l e => e.Noted M.catalog f (.free l)) (expandSubqueries (expandWithin n)) := by
  rintro l e e' p p' rfl hp h he
  have passing : Passing fun f g e e' => f.Keeps g ∧ (e.Noted M.catalog f (.free none) → e'.Noted M.catalog g (.free none)) :=
    ⟨fun keeps e => ⟨keeps, fun h => h.keeps keeps⟩, fun h k => ⟨h.1.trans k.1, fun he => k.2 (h.2 he)⟩⟩
  refine (passing.descend (fun _ _ hat => subqueryAt_onward (expandWithin_onward n) hat)
    (fun {e x p e' p'} hat hp _ h => ⟨(subqueryAt_onward (expandWithin_onward n) hat h hp).2, fun he => ?_⟩)
    (fun {f g e e'} hat keeps head => ⟨keeps, .of_idle hat head fun _ _ h => h.2⟩) hp (.refl _) h).2 he
  unfold subqueryAt at hat
  split at hat
  · cases hat
    obtain ⟨rfl, rfl⟩ := Runs.pure_iff.1 h
    exact he
  · split at hat <;> cases hat
    exact hrec rfl hp h he
  · cases hat

end Subqueries

section Resolving

variable {s : RowScope} {name : String}

/-- What is said of the notes stays true when an expression in view of the row is resolved. -/
structure ResolvesNotes (C : Catalog) (f : Forest) (s : RowScope) (e e' : Expr) : Prop extends
    ResolvesInert C f s e e' where
  noted {P : Place} (sees : P.Sees s.parameter) : e.Noted C f P → e'.Noted C f P

namespace ResolvesNotes

theorem refl (e : Expr) : ResolvesNotes C f s e e := ⟨.refl e, fun _ => id⟩

/-- The parts of an expression that is neither a stream nor a column of a row that is referred to. -/
theorem of_sameHead (other : ∀ r name, e ≠ .member (.rowRef r) name)
    (plain : ∀ rows selector frame, e ≠ .stream rows selector frame)
    (head : SameHead (fun c c' => c ∈ e.children ∧ ResolvesNotes C f s c c') e e') : ResolvesNotes C f s e e' := by
  have inert := ResolvesInert.of_sameHead other (head.mono fun _ _ h => ⟨h.1, h.2.toResolvesInert⟩)
  refine ⟨inert, fun {P} sees he => ?_⟩
  cases he with
  | node kind parts =>
    refine .node (head.isUnnoted.trans kind) fun c' hc' => ?_
    obtain ⟨c, -, hc, h⟩ := head.of_mem_children hc'
    exact h.noted sees (parts c hc)
  | @lambda l params _ h =>
    cases head with
    | lambda _ hbody =>
      cases l with
      | none => exact sees.elim
      | some Γ => exact .lambda (hbody.2.noted (P := .free (some (params ++ Γ))) (List.mem_append_right _ sees) h)
  | stream => exact absurd rfl (plain _ _ _)
  | @join _ Γ note _ _ _ _ _ x y place kind ho hi hk hj fits =>
    subst place
    have sees : s.parameter ∈ Γ := JoinKind.sees_place.1 sees
    cases head with
    | call _ _ parts =>
      simp only [List.forall₂_cons_left_iff, List.forall₂_nil_left_iff] at parts
      obtain ⟨_, _, houter, ⟨_, _, hinner, ⟨_, _, hkey, ⟨_, _, hother, ⟨_, _, hpair, rfl, rfl⟩, rfl⟩, rfl⟩, rfl⟩,
        rfl⟩ := parts
      obtain rfl := hpair.2.same (Γ := []) rfl (inert_pairing x y)
      refine .join rfl kind (houter.2.noted (P := .free (some Γ)) sees ho) (hinner.2.noted (P := .free (some Γ)) sees hi)
        (hkey.2.noted (P := .key Γ) sees hk) (hother.2.noted (P := .key Γ) sees hj) fun hnav => ?_
      have fits := fits hnav
      exact {
        length := fits.length
        outer := hkey.2.keys fits.outerInert fits.outer
        inner := hother.2.keys fits.innerInert fits.inner
        outerInert := hkey.2.inert sees fits.outerInert
        innerInert := hother.2.inert sees fits.innerInert }
  | @flatten Γ _ row y h =>
    cases head with
    | call _ _ parts =>
      simp only [List.forall₂_cons_left_iff, List.forall₂_nil_left_iff] at parts
      obtain ⟨_, _, hsource, ⟨_, _, hdefault, ⟨_, _, hpair, rfl, rfl⟩, rfl⟩, rfl⟩ := parts
      obtain rfl := hdefault.2.same (Γ := []) rfl (inert_defaultElements row)
      obtain rfl := hpair.2.same (Γ := []) rfl (inert_pairing row y)
      exact .flatten (hsource.2.noted (P := .grouped Γ) sees h)
  | @key Γ y _ h =>
    cases head with
    | lambda _ hbody => exact .key (hbody.2.noted (P := .free (some (y :: Γ))) (.tail _ sees) h)
  | _ => exact sees.elim

/-- The rows of a stream in a query for them, with a selector or without one. -/
theorem stream {rows rows' selector : Expr} {frame : StreamFrame} {selector? : Option Expr}
    (hrows : ResolvesNotes C f s rows rows')
    (hselector : ∀ d, selector? = some d → selector.Noted C f (.free none) →
      ∀ {Γ}, s.parameter ∈ Γ → d.Noted C f (.free (some Γ))) :
    ResolvesNotes C f s (.stream rows selector frame) (frame.query rows' selector?) := by
  refine ⟨.of_other (fun _ h => by cases h with | node kind => cases kind) rfl, fun {P} sees he => ?_⟩
  cases he with
  | node kind => cases kind
  | @stream l _ _ _ hr hs =>
    cases l with
    | none => exact sees.elim
    | some Γ =>
      have hr := hrows.noted (P := .free (some Γ)) sees hr
      unfold StreamFrame.query
      cases selector? with
      | none => dsimp only; split <;> simp [hr]
      | some d => dsimp only; split <;> simp [hr, hselector d rfl hs sees]

end ResolvesNotes

theorem noted_readPath (x : String) (path : List String) : (readPath x path).Noted C f (.free l) :=
  have built : (readPath x path).Over (· = .param x) := .readPath x path rfl
  built.noted fun _ hd => hd ▸ noted_param x

theorem resolution_noted (f : Forest) : Resolution f (ResolvesNotes C f) where
  parts kind head := .of_sameHead
    (by
      rintro r name rfl
      cases kind)
    (by
      rintro rows selector frame rfl
      cases kind) head
  kept _ := .refl _
  keptMember _ := .refl _
  row owns present := by
    refine ⟨(resolution_inert f).row owns present, fun {P} _ he => ?_⟩
    cases he with
    | node => exact noted_readPath _ _
  entity owns present := by
    refine ⟨(resolution_inert f).entity owns present, fun {P} _ he => ?_⟩
    cases he with
    | node => exact .node rfl (List.forall_mem_singleton.2 (noted_readPath _ _))
  property owns present := by
    refine ⟨(resolution_inert f).property owns present, fun {P} _ he => ?_⟩
    cases he with
    | node => exact noted_member.2 (noted_readPath _ _)
  guarded {s guards guards' a a' b b'} hguards hleft hright := by
    refine ⟨.of_other (fun _ h => by cases h with | node kind => cases kind) rfl, fun {P} sees he => ?_⟩
    cases he with
    | node _ parts =>
      refine .node rfl fun c hc => ?_
      simp only [children, List.mem_append, List.mem_cons, List.not_mem_nil, or_false] at hc parts
      rcases hc with hc | rfl | rfl
      · obtain ⟨g, hg, ⟨h, -⟩ | ⟨r, path, -, -, -, rfl⟩⟩ := exists_of_mem_right hguards hc
        · exact h.noted sees (parts g (.inl hg))
        · exact noted_readPath _ _
      · exact hleft.noted sees (parts a (.inr (.inl rfl)))
      · exact hright.noted sees (parts b (.inr (.inr rfl)))
    | guarded => exact sees.elim
  lambda _ hbody := .of_sameHead nofun nofun (.lambda _ ⟨.head _, hbody⟩)
  renamed := by
    intro s params body body' name captured hbody
    refine ⟨(resolution_inert f).renamed captured hbody.toResolvesInert, fun {P} sees he => ?_⟩
    simp only [RowScope.capturedBy, Bool.and_eq_true, List.contains_iff_mem] at captured
    cases he with
    | node kind => cases kind
    | @lambda l _ _ h =>
      cases l with
      | none => exact sees.elim
      | some Γ =>
        have renamed : (Lambda.rename ⟨params, body⟩ s.parameter name).body.Noted C f
            (.free (some ((Lambda.rename ⟨params, body⟩ s.parameter name).params ++ Γ))) :=
          h.put (Q := .free (some _)) (.rename captured.1 body name) (noted_param name)
        exact .lambda (hbody.noted (P := .free (some _)) (List.mem_append_right _ sees) renamed)
    | @key Γ y _ h =>
      obtain rfl := List.mem_singleton.1 captured.1
      have params : (Lambda.rename ⟨[s.parameter], body⟩ s.parameter name).params = [name] := by simp [Lambda.rename]
      have renamed : (Lambda.rename ⟨[s.parameter], body⟩ s.parameter name).body.Noted C f
          (.free (some ((Lambda.rename ⟨[s.parameter], body⟩ s.parameter name).params ++ Γ))) :=
        h.put (Q := .free (some _)) (.rename captured.1 body name) (noted_param name)
      rw [params] at renamed ⊢
      exact .key (hbody.noted (P := .free (some (name :: Γ))) (.tail _ sees) renamed)
    | membership => exact sees.elim
  projected := by
    intro s rows rows' selector body selector' frame hselector _ hrows again
    refine .stream hrows ?_
    rintro _ ⟨⟩ hsel Γ hs
    have body : body.Noted C f (.free (some (frame.parameter :: Γ))) :=
      hselector.noted (P := .free (some (frame.parameter :: Γ))) (.head _) hsel.anywhere
    exact again.noted (P := .free (some Γ)) hs (.lambda body)
  unprojected _ hrows := .stream hrows nofun

/-- Reducing is resolving over the scope that has no rows. What is reduced is no row itself. -/
theorem reduction_noted (f : Forest) : Reduction f (ResolvesNotes C f) fun e e' =>
    (∀ r, e ≠ .rowRef r) ∧ ResolvesNotes C f .outside e e' where
  parts {e e'} kind head := by
    refine ⟨?_, .of_sameHead ?_ ?_ (head.mono fun _ _ h => ⟨h.1, h.2.2⟩)⟩
    · rintro r rfl
      cases kind
    · rintro r name rfl
      cases head with
      | member _ h => exact h.2.1 r rfl
    · rintro rows selector frame rfl
      cases kind
  projected hselector _ _ hrows := by
    refine ⟨nofun, .stream hrows.2 ?_⟩
    rintro _ ⟨⟩ hsel Γ hs
    exact .lambda (hselector.noted (P := .free (some (_ :: Γ))) (.head _) hsel.anywhere)
  unprojected hrows := ⟨nofun, .stream hrows.2 nofun⟩

end Resolving

section Roots

namespace Forest

/-- Sources are only added, and the roots of the old ones stay. -/
structure KeepsRoots (f g : Forest) : Prop where
  sources : f.sources.length ≤ g.sources.length
  root {m : SourceId} (hm : m.index < f.sources.length) : g.root m = f.root m

namespace KeepsRoots

theorem of_sources {extra : List RowSource} (h : g.sources = f.sources ++ extra) : f.KeepsRoots g where
  sources := by
    rw [h, List.length_append]
    exact Nat.le_add_right _ _
  root hm := by
    rw [Forest.root, Forest.root, source, source, h, List.getD_eq_getElem?_getD, List.getElem?_append_left hm,
      ← List.getD_eq_getElem?_getD]

theorem of_eq (h : g.sources = f.sources) : f.KeepsRoots g := of_sources (h.trans (List.append_nil _).symm)

theorem trans {f' : Forest} (h : f.KeepsRoots g) (k : g.KeepsRoots f') : f.KeepsRoots f' where
  sources := Nat.le_trans h.sources k.sources
  root hm := (k.root (Nat.lt_of_lt_of_le hm h.sources)).trans (h.root hm)

end KeepsRoots

theorem sources_addNode (f : Forest) (x : Node) : (f.addNode x).2.sources = f.sources := by
  unfold addNode
  dsimp only
  split <;> rfl

theorem keepsRoots_addSource (f : Forest) (entity? : Option String) (isOptional : Bool) :
    f.KeepsRoots (f.addSource entity? isOptional).2 := .of_sources rfl

theorem keepsRoots_development (c : Catalog) : Development c KeepsRoots where
  refl f := .of_eq rfl
  trans := .trans
  follow {f q _ edge} _ _ _ := by
    unfold follow
    split
    · exact .of_eq rfl
    · exact .of_eq (sources_addNode ..)
  addSource := keepsRoots_addSource
  withRecord f fields := by
    refine (keepsRoots_addSource f none false).trans (.of_eq ?_)
    exact List.foldlRecOn (motive := fun g : Forest => g.sources = (f.addSource none false).2.sources) fields _ rfl
      fun g hg field _ => (sources_addNode ..).trans hg
  addAlias _ _ _ := .of_eq rfl
  remove f n := .of_eq (remove_induction (motive := fun g : Forest => g.sources = f.sources) n rfl id id)
  wrap f path m := ⟨Nat.le_of_eq (later_wrap f path m).sources.symm, fun _ => (later_wrap f path m).root _⟩
  makePresent _ _ _ := .of_eq rfl
  makeOptional _ _ := .of_eq rfl

end Forest

/-- The first source of the stream has single rows of an entity. -/
structure Stream.StartsAtRow (f : Forest) (s : Stream) : Prop where
  range : (s.sources.headD default).index < f.sources.length
  row : f.IsRow (f.root (s.sources.headD default))

theorem Stream.StartsAtRow.keeps {s s' : Stream} (h : s.StartsAtRow f) (roots : f.KeepsRoots g) (hfg : f.Keeps g)
    (same : s'.sources = s.sources) : s'.StartsAtRow g := by
  constructor <;> rw [same]
  · exact Nat.lt_of_lt_of_le h.range roots.sources
  · rw [roots.root h.range]
    exact h.row.keeps hfg

variable {n : Nat} {s s' : Stream} {b : JoinedBody} {chain : Expr} {target : String}

theorem joinReferenced_sources {es : List Expr} {k : Nat} (h : Runs (joinReferenced s es) M p (s', k) p') :
    s'.sources = s.sources :=
  joinReferenced_keeps (P := fun _ t => t.sources = s.sources)
    (fun hs hrun => by
      obtain ⟨_, _, _, _, _, _, _, _, _, -, rfl, -⟩ := Runs.joinNode hrun
      exact hs) id h rfl

theorem joinBody_sources {recur : Recur} {body : Expr} (h : Runs (joinBody recur s x body) M p b p') :
    b.stream.sources = s.sources := by
  obtain ⟨q, s', k, -, hjoin, hstream⟩ := Runs.joinBody h
  have same := joinReferenced_sources hjoin
  rcases hstream with hstream | hstream <;> exact hstream ▸ same

theorem rootStream_startsAtRow (h : Runs (rootStream target) M p s p') :
    s.StartsAtRow p'.forest := by
  simp only [EntityQuery.rootStream, Runs.bind_iff, Runs.entityType_iff, Runs.growForest_iff, Runs.forest_iff,
    Runs.ref_iff, Runs.pure_iff] at h
  obtain ⟨t, _, ⟨-, rfl⟩, m, q, ⟨rfl, rfl⟩, f, _, ⟨rfl, rfl⟩, d, _, ⟨rfl, rfl⟩, rfl, rfl⟩ := h
  obtain ⟨-, -, hentity, hedge⟩ := Forest.addSource_onward (c := M.catalog)
    (show p.forest.addSource (some target) false = (_, _) from rfl)
  refine ⟨?_, ⟨⟨target, hentity⟩, Node.not_isCollection hedge⟩⟩
  show p.forest.sources.length < (p.forest.sources ++ [_]).length
  simp

/-- A chain of row-wise operators has the rows of the set that it starts with. -/
theorem expandWithin_startsAtRow (hchain : chain.RowWiseOver target) (hp : p.forest.Linked M.catalog)
    (h : Runs (expandWithin n chain) M p e p') : ∃ s : Stream, e = s.toExpr ∧ s.StartsAtRow p'.forest := by
  induction n generalizing chain p e p' with
  | zero => exact (Runs.throw_iff.1 h).elim
  | succ n ih =>
    have onward := expandWithin_onward (M := M) n
    have grown := Forest.keepsRoots_development M.catalog
    have roots := grown.expandWithin (M := M) n
    -- What is brought over the rows of the source leaves the stream its sources.
    have joined {source body : Expr} {x : String} {s : Stream} {b : JoinedBody} {q q' : Progress}
        (hs : source.RowWiseOver target) (hsource : Runs (expandSource (expandWithin n) source) M p s q)
        (hbody : Runs (joinBody (expandWithin n) s x body) M q b q') : b.stream.StartsAtRow q'.forest := by
      obtain ⟨hq, -⟩ := expandSource_onward onward _ hsource hp
      obtain ⟨t, heq, ht⟩ := ih hs hp (Runs.expandSource hsource).1
      have same : s.sources = t.sources := congrArg StreamFrame.sources (Expr.stream.inj heq).2.2
      exact ht.keeps (grown.joinBody roots hbody) (joinBody_onward onward hbody hq).2
        ((joinBody_sources hbody).trans same)
    unfold EntityQuery.expandWithin at h
    cases hchain with
    | set =>
      simp only [Runs.bind_iff, Runs.pure_iff] at h
      obtain ⟨s, _, hroot, rfl, rfl⟩ := h
      exact ⟨s, rfl, rootStream_startsAtRow hroot⟩
    | operator rowWise hs =>
      cases Runs.expandCall h with
      | rowWise _ brought _ _ =>
        obtain ⟨x, body, s, q, rfl, hsource, hbody⟩ := brought
        obtain ⟨b₀, q', hjoin, hresolve, hstream, -⟩ := Runs.resolvedBody hbody
        have started := joined hs hsource hjoin
        rw [← hstream, ← Stream.resolve_forest hresolve] at started
        exact ⟨_, rfl, started.range, started.row⟩
      | select run =>
        obtain ⟨x, body, s₀, q, b, q', rfl, hsource, hbody, halias, needsProjection, rfl⟩ := Runs.expandSelect_cases run
        obtain ⟨hq, -⟩ := expandSource_onward onward _ hsource hp
        obtain ⟨hq', -⟩ := joinBody_onward onward hbody hq
        have started := (joined hs hsource hbody).keeps (grown.aliasFields _ halias) (aliasFields_onward _ halias hq').2 rfl
        exact ⟨_, rfl, started.range, started.row⟩
      | join | selectMany => cases rowWise
      | terminal _ registered kind _ => simp [Operator.isRowWise, registered, kind] at rowWise

end Roots

section Joins

variable {outer inner : Expr} {outerKey innerKey : JoinKey} {note : JoinNote} {s s' : Stream}

theorem keyedJoin_noted (h : Runs (keyedJoin outer inner outerKey innerKey note) M p e p')
    (ho : outer.Noted C f (.free (some Γ))) (hi : inner.Noted C f (.free (some Γ)))
    (hk : outerKey.toExpr.Noted C f (.key Γ)) (hj : innerKey.toExpr.Noted C f (.key Γ))
    (fits : note.navigation.isSome = true → note.Fits C f Γ outerKey.toExpr innerKey.toExpr) :
    e.Noted C f (.free (some Γ)) := by
  obtain ⟨-, ⟨kind, rfl⟩ | ⟨kind, group, row, rfl⟩⟩ := Runs.keyedJoin_cases h
  · exact .join (by rw [kind]; rfl) (by rw [kind]; rfl) ho hi hk hj fits
  · exact .flatten (.join (by rw [kind]; rfl) (by rw [kind]; rfl) ho hi hk hj fits)

theorem toExpr_noted : s.toExpr.Noted C f (.free none) ↔
    s.rows.Noted C f (.free (some [])) ∧ s.selector.Noted C f (.free none) := noted_stream

/-- The key of a navigation's join reads the columns of the navigation. -/
theorem joinNode_noted {n : NodeId} (h : Runs (joinNode s n) M p s' p') (hs : s.toExpr.Noted C f (.free none)) :
    s'.toExpr.Noted C f (.free none) := by
  obtain ⟨q, edge, path, outerKey, innerKey, target, note, rows, q', found, rfl, -, -⟩ := Runs.joinNode h
  obtain ⟨hrows, hselector⟩ := toExpr_noted.1 hs
  obtain ⟨houter, hinner⟩ := navigationColumns_inert (C := C) (f := f) (Γ := []) s.parameter path
    (p.forest.node q).isOptional target outerKey innerKey
  obtain ⟨readsOuter, readsInner⟩ := navigationColumns_reads (.readPath s.parameter path)
    (p.forest.node q).isOptional target found.length
  refine toExpr_noted.2 ⟨keyedJoin_noted found.joined hrows (noted_entitySet _)
    (.key (inert_lambda.1 houter).noted) (.key (inert_lambda.1 hinner).noted) fun _ => ?_, hselector⟩
  exact {
    length := by rw [found.noted.1, found.noted.2, List.length_map, List.length_map, found.length]
    outer := found.noted.1 ▸ readsOuter
    inner := found.noted.2 ▸ readsInner
    outerInert := houter
    innerInert := hinner }

theorem joinReferenced_noted {es : List Expr} {k : Nat} (hp : p.forest.Linked M.catalog)
    (h : Runs (joinReferenced s es) M p (s', k) p') (hs : s.toExpr.Noted M.catalog p.forest (.free none)) :
    s'.toExpr.Noted M.catalog p'.forest (.free none) :=
  (joinReferenced_keeps (P := fun q t => q.forest.Linked M.catalog ∧ t.toExpr.Noted M.catalog q.forest (.free none))
    (fun ht hrun =>
      have ⟨linked, keeps⟩ := joinNode_onward hrun ht.1
      ⟨linked, (joinNode_noted hrun ht.2).keeps keeps⟩)
    (fun ht =>
      have parts := toExpr_noted.1 ht.2
      ⟨ht.1, toExpr_noted.2 parts⟩) h ⟨hp, hs⟩).2

/-- The name that the inner rows get is put into their key. -/
theorem mergedKey_noted (outer : Stream) {inner : Stream} {key : Expr} (names : Nat)
    (hk : key.Noted C f (.free (some [inner.parameter]))) :
    (mergedKey outer inner names key).Noted C f (.free (some [mergedName outer inner names])) ∧
      (key.Inert C f [inner.parameter] → (mergedKey outer inner names key).Inert C f [mergedName outer inner names]) ∧
      ∀ columns : List String, key.keyColumns = columns.map some →
        (mergedKey outer inner names key).keyColumns = columns.map some := by
  rw [mergedKey]
  split
  · have puts : Level.Puts inner.parameter (.param (mergedName outer inner names)) (some [inner.parameter])
        (some [mergedName outer inner names]) :=
      ⟨fun z hz hne => absurd (List.mem_singleton.1 hz) hne, fun _ => ⟨_, List.mem_singleton_self _, rfl⟩⟩
    exact ⟨hk.put (Q := .free (some _)) puts (noted_param _), fun h => h.put puts, fun _ => keyColumns_substitute⟩
  · next hclash =>
    rw [mergedName, if_neg hclash]
    exact ⟨hk, id, fun _ => id⟩

theorem mergeStreams_noted {outer inner : Stream} {outerKey innerKey : Expr} {m : MergedStreams}
    (h : Runs (mergeStreams outer inner (.keyed outerKey innerKey note)) M p m p')
    (ho : outer.toExpr.Noted C f (.free none)) (hi : inner.toExpr.Noted C f (.free none))
    (hk : outerKey.Noted C f (.free (some [outer.parameter])))
    (hj : innerKey.Noted C f (.free (some [inner.parameter])))
    (fits : note.navigation.isSome = true →
      note.Fits C f [] (.lambda [outer.parameter] outerKey) (.lambda [inner.parameter] innerKey)) :
    Merged (fun l e => e.Noted C f (.free l)) none m := by
  obtain ⟨rows, q, q', -, -, hjoin, rfl, -⟩ := Runs.mergeStreams_keyed h
  obtain ⟨hkey, inert, columns⟩ := mergedKey_noted outer p.names hj
  obtain ⟨horows, hosel⟩ := toExpr_noted.1 ho
  obtain ⟨hirows, hisel⟩ := toExpr_noted.1 hi
  refine ⟨toExpr_noted.2 ⟨keyedJoin_noted hjoin horows hirows (.key hk) (.key hkey) fun hnav => ?_, noted_const _⟩,
    hosel, hisel⟩
  have fits := fits hnav
  exact {
    length := fits.length
    outer := fits.outer
    inner := columns _ fits.inner
    outerInert := fits.outerInert
    innerInert := .lambda (inert (inert_lambda.1 fits.innerInert)) }

end Joins

section Hoisting

variable {plan : HoistPlan} {operator : Operator} {items : List Expr} {note : Option CallNote}

/-- A call that is no filter of a collection says nothing of itself outside of rows. -/
theorem Expr.Noted.call_cases (h : (Expr.call operator items note).Noted C f (.free none)) :
    (Expr.call operator items note).isUnnoted none = true ∧ (∀ a ∈ items, a.Noted C f (.free none)) ∨
      ∃ target owner navigation member, operator = .filter ∧ items = [.entitySet target, member] ∧
        note = some (.collection owner navigation) ∧ member.Noted C f .membership := by
  generalize hP : Place.free none = P at h
  cases h with
  | node plain parts =>
    cases hP
    exact .inl ⟨plain, parts⟩
  | @join _ _ note _ _ _ _ _ _ _ place =>
    rw [place] at hP
    cases hkind : note.kind <;> rw [hkind] at hP <;> cases hP
  | flatten => cases hP
  | collection h => exact .inr ⟨_, _, _, _, rfl, rfl, rfl, h⟩

theorem Expr.Noted.argument (h : (Expr.call operator items note).Noted C f (.free none)) :
    ∀ a ∈ items, a.Noted C f (.free none) := by
  obtain ⟨-, parts⟩ | ⟨target, _, _, member, rfl, rfl, rfl, hmember⟩ := h.call_cases
  · exact parts
  · exact List.forall_mem_cons.2 ⟨noted_entitySet _, List.forall_mem_singleton.2 (hmember.mono (.refl f) trivial)⟩

/-- The filter at the bottom of a chain has a predicate that tells its elements. -/
theorem Expr.Noted.navigationFilter? {filter : NavigationFilter} {rowWise : Bool}
    (h : e.navigationFilter? = some (filter, rowWise)) (he : e.Noted C f (.free none)) :
    ∃ target member, filter.arguments = [.entitySet target, member] ∧ member.Noted C f .membership := by
  induction e using children_induction generalizing rowWise with
  | step e ih =>
    unfold Expr.navigationFilter? at h
    split at h
    · cases h
      obtain ⟨plain, -⟩ | ⟨target, _, _, member, -, rfl, -, hmember⟩ := he.call_cases
      · cases plain
      · exact ⟨target, member, rfl, hmember⟩
    · obtain ⟨⟨filter', rowWise'⟩, hsource, heq⟩ := Option.map_eq_some_iff.1 h
      cases heq
      exact ih _ (.head _) hsource (he.argument _ (.head _))
    · cases h

/-- Without the filter, the chain can stand over another source. -/
theorem Expr.Noted.opened {root : Expr} (target : String) (he : e.Noted C f (.free none))
    (hr : root.Noted C f (.free none)) : ((e.withoutFilter target).withChainRoot root).Noted C f (.free none) := by
  induction e using children_induction with
  | step e ih =>
    unfold Expr.withoutFilter
    split
    · exact hr
    · next operator source arguments note other =>
      obtain ⟨plain, parts⟩ | ⟨_, owner, navigation, _, -, -, rfl, -⟩ := he.call_cases
      · obtain ⟨hs, hrest⟩ := List.forall_mem_cons.1 parts
        exact .node ((isUnnoted_call ..).trans plain) (List.forall_mem_cons.2 ⟨ih source (.head _) hs, hrest⟩)
      · exact absurd rfl (other owner navigation)
    · next other =>
      unfold Expr.withChainRoot
      split
      · exact absurd rfl (other _ _ _ _)
      · exact hr

theorem Expr.freeParams_eq_tupleParts (e : Expr) : e.freeParams = e.tupleParts.flatMap freeParams := by
  unfold Expr.tupleParts
  split
  · exact itemsFreeParams_eq _
  · exact (List.flatMap_singleton ..).symm

theorem Expr.IsColumnOf.freeParams {r : RowRef} {name : String} (h : IsColumnOf (.rowRef r) name e) : e.freeParams = [] := by
  induction h with
  | read => rfl
  | convert _ _ _ ih => exact ih

theorem Expr.OwnerKey.mentions (h : e.OwnerKey C f) : e.mentions x = false := by
  rw [Expr.mentions, freeParams_eq_tupleParts, List.flatMap_eq_nil_iff.2 fun part hpart => ?_]
  · rfl
  · obtain ⟨r, name, -, -, column⟩ := h part hpart
    exact column.freeParams

/-- The keys of a plan are the keys that the filter of its collection compares. -/
theorem HoistPlan.ofSelector_noted (h : HoistPlan.ofSelector e = .ok plan) (he : e.Noted C f (.free none)) :
    (∀ part ∈ plan.innerKey, ∃ name, C.IsColumn name ∧ IsColumnOf (.param plan.parameter) name part) ∧
      (∀ part ∈ plan.outerKey, ∃ r name, f.IsRow r.node ∧ C.IsColumn name ∧ IsColumnOf (.rowRef r) name part) ∧
      plan.innerKey.length = plan.outerKey.length ∧ plan.chain.RowWiseOver plan.target := by
  obtain ⟨chain, filter, body, rest, hchain, hfilter, harguments, hpair, hopened, -⟩ := HoistPlan.ofSelector_eq_ok h
  have hchain : chain.Noted C f (.free none) := by
    rcases hchain with rfl | ⟨further, note, rfl⟩
    · exact he
    · exact he.argument _ (.head _)
  obtain ⟨target, member, heq, hmember⟩ := Expr.Noted.navigationFilter? hfilter hchain
  have length := keyPair?_length hpair
  rw [harguments] at heq
  cases heq
  obtain ⟨guard, a, b, rfl, hkeys⟩ := Expr.keyPair?_eq_some hpair
  cases hmember with
  | membership hbody =>
    cases hbody with
    | belongs _ hpair =>
      cases hpair with
      | equal ha hb =>
        obtain ⟨hi, ho, -⟩ | ⟨-, -, -, hmentions⟩ := hkeys
        · exact ⟨hi ▸ ha, ho ▸ hb, length, hopened ▸ withoutFilter_rowWise hfilter⟩
        · rw [Expr.OwnerKey.mentions hb] at hmentions
          cases hmentions

theorem Expr.columnName_of_column? {name : String} (h : e.column? = some name) : columnName e = name := by
  induction e using children_induction with
  | step e ih =>
    cases e with
    | convert a t nullable => exact ih a (.head _) h
    | member t n => exact Option.some.inj h
    | _ => cases h

/-- The names of a key of columns are the columns. -/
theorem keyNames_key {parts : List Expr} (columns : ∀ part ∈ parts, ∃ name, part.column? = some name) :
    (keyNames (.key parts)).length = parts.length ∧
      (Expr.key parts).keyColumns = (keyNames (.key parts)).map some := by
  have keyParts_eq : keyParts (.key parts) = parts := by
    unfold Expr.key
    split
    · next part =>
      obtain ⟨name, hname⟩ := columns part (.head _)
      cases part <;> first | rfl | cases hname
    · rfl
  rw [keyNames, keyParts_eq]
  refine ⟨List.length_map _, keyColumns_key ?_⟩
  rw [List.map_map]
  refine List.map_congr_left fun part hpart => ?_
  obtain ⟨name, hname⟩ := columns part hpart
  rw [columnRead?_of_column? hname, Function.comp_apply, columnName_of_column? hname]

/-- Columns are resolved to a key that reads them. -/
theorem resolvedKey_noted {s : Stream} {F : Expr → Expr} {es parts : List Expr}
    (h : List.Forall₂ (fun e e' => ResolvesNotes C f s.scope (F e) e') es parts)
    (columns : ∀ e ∈ es, ∃ r name, f.IsRow r.node ∧ C.IsColumn name ∧ IsColumnOf (.rowRef r) name (F e)) :
    (Expr.lambda [s.parameter] (.key parts)).Inert C f [] ∧ (keyNames (.key parts)).length = es.length ∧
      (Expr.key parts).keyColumns = (keyNames (.key parts)).map some := by
  have resolved (part : Expr) (hpart : part ∈ parts) :
      part.Inert C f [s.parameter] ∧ ∃ name, part.column? = some name := by
    obtain ⟨e, he, h⟩ := exists_of_mem_right h hpart
    obtain ⟨r, name, row, hname, column⟩ := columns e he
    exact ⟨h.inert (List.mem_singleton_self _) (column.inert (.column row hname)), name, h.column column.column?⟩
  obtain ⟨length, names⟩ := keyNames_key fun part hpart => (resolved part hpart).2
  exact ⟨.lambda (.key fun part hpart => (resolved part hpart).1), length.trans h.length_eq.symm, names⟩

theorem Expr.IsColumnOf.substitute {d : Expr} {name : String} (h : IsColumnOf (.param x) name e) :
    IsColumnOf d name (e.substitute x d) := by
  induction h with
  | read =>
    rw [substitute_of_none rfl]
    show IsColumnOf d name (.member ((param x).substitute x d) name)
    rw [substitute_param, if_pos rfl]
    exact .read
  | convert t nullable _ ih =>
    rw [substitute_of_none rfl]
    exact .convert t nullable ih

/-- A hoisted collection is joined by columns of its elements and of their owners, which the note lists. -/
theorem hoist_noted {outer inner : Stream} {m : MergedStreams} (hp : p.forest.Linked M.catalog)
    (h : Runs (hoist outer inner plan) M p m p') (ho : outer.toExpr.Noted M.catalog p.forest (.free none))
    (hi : inner.toExpr.Noted M.catalog p.forest (.free none)) (starts : inner.StartsAtRow p.forest)
    (elements : ∀ part ∈ plan.innerKey, ∃ name, M.catalog.IsColumn name ∧
      IsColumnOf (.param plan.parameter) name part)
    (owners : ∀ part ∈ plan.outerKey, ∃ r name, p.forest.IsRow r.node ∧ M.catalog.IsColumn name ∧
      IsColumnOf (.rowRef r) name part)
    (length : plan.innerKey.length = plan.outerKey.length) :
    Merged (fun l e => e.Noted M.catalog p'.forest (.free l)) none m := by
  obtain ⟨_, innerParts, q, outer', k, q₁, outerParts, q₂, q₃, note, hinnerParts, rfl, hjoin, houterParts, outerNames,
    innerNames, hmerge, hq₃⟩ := Runs.hoist h
  obtain ⟨hq, inners⟩ := (resolution_noted (C := M.catalog) p.forest).mapM_resolve rfl hinnerParts
  rw [← hq] at hp
  obtain ⟨hq₁, keeps⟩ := joinReferenced_onward hjoin hp
  obtain ⟨hq₂, outers⟩ := (resolution_noted (C := M.catalog) q₁.forest).mapM_resolve (F := id) rfl houterParts
  have hforest : q₃.forest = q₁.forest := hq₃.trans hq₂
  obtain ⟨-, merged⟩ := mergeStreams_keyed_onward hmerge (hforest ▸ hq₁)
  rw [hq] at keeps
  obtain ⟨innerInert, innerLength, innerColumns⟩ := resolvedKey_noted inners fun part hpart =>
    have ⟨name, hname, column⟩ := elements part hpart
    ⟨_, name, starts.row, hname, column.substitute⟩
  obtain ⟨outerInert, outerLength, outerColumns⟩ := resolvedKey_noted outers fun part hpart =>
    have ⟨r, name, row, hname, column⟩ := owners part hpart
    ⟨r, name, row.keeps keeps, hname, column⟩
  have innerInert := innerInert.mono keeps (List.Subset.refl _)
  have fits : note.Fits M.catalog q₁.forest [] (.lambda [outer'.parameter] (.key outerParts))
      (.lambda [inner.parameter] (.key innerParts)) := {
    length := by rw [outerNames, innerNames, outerLength, innerLength, length]
    outer := outerNames ▸ outerColumns
    inner := innerNames ▸ innerColumns
    outerInert
    innerInert }
  have joined : Merged (fun l e => e.Noted M.catalog q₁.forest (.free l)) none m :=
    mergeStreams_noted hmerge (joinReferenced_noted hp hjoin (hq ▸ ho)) (hi.keeps keeps)
      (inert_lambda.1 outerInert).noted (inert_lambda.1 innerInert).noted fun _ => fits
  rw [hforest] at merged
  exact ⟨joined.1.keeps merged, joined.2.1.keeps merged, joined.2.2.keeps merged⟩

end Hoisting

section Expansions

/-- The invariant of expressions in expansions. -/
def NotedAt (C : Catalog) (f : Forest) (l : Level) (e : Expr) : Prop := e.Noted C f (.free l)

/-- What the notes say is kept by every step, if no navigation has the name of a column. -/
theorem noted_durable (apart : M.catalog.NamesApart) : Durable M guardLevels (NotedAt M.catalog) where
  keeps hfg h := h.keeps hfg
  entitySet _ _ := noted_entitySet
  null _ _ := noted_const _
  ref _ _ _ := noted_rowRef _
  pairing _ _ x y := (inert_pairing (Γ := []) x y).noted
  lambda := noted_lambda
  stream := by
    rintro f _ rows selector frame rfl
    exact noted_stream
  call := noted_call.2
  arguments := by
    rintro f _ operator items note rfl h
    exact h.argument
  filter := by
    rintro f _ source lambda rows lambda' note rfl h hrows hlambda
    refine .node ?_ (List.forall_mem_cons.2 ⟨hrows, List.forall_mem_singleton.2 hlambda⟩)
    obtain ⟨plain, -⟩ | ⟨_, _, _, _, -, -, rfl, -⟩ := h.call_cases
    · exact isUnnoted_of_isSome (fun _ => rfl) ((isUnnoted_call ..).trans plain)
    · rfl
  weaken {f l e} params h := by
    refine h.mono (.refl f) (Q := .free _) ?_
    cases l
    · trivial
    · exact List.subset_append_right params _
  inside := by
    rintro f _ e rfl h
    exact h.anywhere
  substitute := by
    rintro f _ e d x rfl h hd
    exact h.put (Q := .free none) trivial hd
  rewrite _ hp h he := (rewriteBody_keepsNotes apart hp h).noted he
  subqueries _ := expandSubqueries_noted
  resolve := by
    rintro _ s e e' p p' rfl h he
    exact ((resolution_noted p.forest).resolve rfl h).2.2.noted (P := .free (some _)) (.head _) he
  joinNode := by
    rintro _ s s' n p p' rfl - h hs
    exact joinNode_noted h hs
  join := by
    rintro _ outer inner outerKey innerKey note m p p' rfl - plain h ho hi hk hj
    refine mergeStreams_noted h ho hi hk hj fun hnav => ?_
    rw [plain] at hnav
    cases hnav
  opened := by
    rintro f _ e root plan rfl hplan he hroot
    obtain ⟨chain, filter, body, rest, hchain, -, -, -, hopened, -⟩ := HoistPlan.ofSelector_eq_ok hplan
    rw [hopened]
    refine Expr.Noted.opened _ ?_ hroot
    rcases hchain with rfl | ⟨further, note, rfl⟩
    · exact he
    · exact he.argument _ (.head _)
  hoist := by
    rintro _ n e outer inner plan m p q p' rfl hp hplan he found h ho hi
    obtain ⟨elements, owners, length, rowWise⟩ := HoistPlan.ofSelector_noted hplan he
    obtain ⟨root, q', inner', q'', hset, hinner, hforest, hfound⟩ := Runs.expandHoisted found
    obtain rfl := Option.some.inj (hfound.resolve_left (by simp))
    obtain ⟨hq, keeps⟩ := expandHoisted_onward (expandWithin_onward n) plan found hp
    obtain ⟨t, heq, started⟩ := expandWithin_startsAtRow rowWise hp
      (expandWithin_startsAtRoot n rowWise hset (Runs.expandSource hinner).1)
    have same : inner.sources = t.sources := congrArg StreamFrame.sources (Expr.stream.inj heq).2.2
    have starts : inner.StartsAtRow q.forest := started.keeps (.of_eq (congrArg _ hforest)) (hforest ▸ .refl _) same
    refine hoist_noted hq h ho hi starts elements (fun part hpart => ?_) length
    obtain ⟨r, name, row, hname, column⟩ := owners part hpart
    exact ⟨r, name, row.keeps keeps, hname, column⟩

end Expansions

section Results

/-- What an expression without streams is, at a place in rows. -/
def Place.Finished : Place → Expr → Prop
  | .free (some _), e | .key _, e => e.AsNoted
  | .grouped _, e => ∃ (note : JoinNote) (outer inner outerKey innerKey : Expr) (x y : String),
      e = .call .groupJoin [outer, inner, outerKey, innerKey, pairing x y] (some (.join note)) ∧
        note.kind = .leftOuter ∧ (note.navigation.isSome = true → note.Describes outerKey innerKey) ∧
        ∀ c ∈ [outer, inner, outerKey, innerKey], AsNoted c
  | _, _ => True

theorem Expr.isNotedJoin_of_isUnnoted (h : e.isUnnoted l = true) : e.isNotedJoin = false := by
  cases e with
  | call operator arguments note =>
    cases note with
    | none => rfl
    | some note => cases note <;> first | rfl | cases h
  | _ => rfl

/-- Once there are no streams left, all joins are what they are noted for. -/
theorem Expr.Noted.finished {P : Place} (h : e.Noted C f P) (plain : e.hasStream = false) : P.Finished e := by
  induction h with
  | @node l e kind _ ih =>
    cases l with
    | none => trivial
    | some Γ =>
      exact .node (isNotedJoin_of_isUnnoted kind) fun c hc => ih c hc ((hasStream_eq_false_iff.1 plain).2 c hc)
  | @lambda l params body _ ih =>
    cases l with
    | none => trivial
    | some Γ =>
      have body := ih ((hasStream_eq_false_iff.1 plain).2 _ (.head _))
      exact .node rfl (List.forall_mem_singleton.2 body)
  | stream => exact absurd rfl ((hasStream_eq_false_iff.1 plain).1 _ _ _)
  | @join P Γ note operator outer inner outerKey innerKey x y place kind _ _ _ _ fits iho ihi ihk ihj =>
    have part {c : Expr} (hc : c ∈ [outer, inner, outerKey, innerKey, pairing x y]) : c.hasStream = false :=
      (hasStream_eq_false_iff.1 plain).2 c hc
    have parts : ∀ c ∈ [outer, inner, outerKey, innerKey], AsNoted c := by
      simpa using ⟨iho (part (by simp)), ihi (part (by simp)), ihk (part (by simp)), ihj (part (by simp))⟩
    have keys (hnav : note.navigation.isSome = true) : note.Describes outerKey innerKey := (fits hnav).toDescribes
    subst place kind
    cases hkind : note.kind with
    | inner => exact .inner hkind keys parts
    | leftOuter => exact ⟨note, outer, inner, outerKey, innerKey, x, y, rfl, hkind, keys, parts⟩
  | flatten _ ih =>
    obtain ⟨note, outer, inner, outerKey, innerKey, x, group, rfl, kind, keys, parts⟩ :=
      ih ((hasStream_eq_false_iff.1 plain).2 _ (.head _))
    exact .leftOuter kind keys parts
  | key _ ih =>
    have body := ih ((hasStream_eq_false_iff.1 plain).2 _ (.head _))
    exact .node rfl (List.forall_mem_singleton.2 body)
  | _ => trivial

/-- The expression is built of what users write, and no call in it is noted. -/
def Expr.isPlainQuery (e : Expr) : Bool :=
  e.isUserWritten && e.nodes.all fun
    | .call _ _ note => note.isNone
    | _ => true

theorem Expr.noted_of_isPlainQuery (h : e.isPlainQuery = true) : e.Noted C f (.free l) := by
  obtain ⟨user, unnoted⟩ := Bool.and_eq_true_iff.1 h
  replace user := List.all_eq_true.1 user
  replace unnoted := List.all_eq_true.1 unnoted
  clear h
  induction e using children_induction generalizing l with
  | step e ih =>
    have part {c : Expr} (hc : c ∈ e.children) {l : Level} : c.Noted C f (.free l) :=
      ih c hc (fun d hd => user d (mem_nodes_of_child hc hd)) fun d hd => unnoted d (mem_nodes_of_child hc hd)
    cases e with
    | stream rows selector frame => exact absurd (user _ (self_mem_nodes _)) (by simp [isInternal])
    | lambda params body => exact .lambda (part (.head _))
    | call operator arguments note =>
      obtain rfl := Option.isNone_iff_eq_none.1 (unnoted _ (self_mem_nodes _))
      exact noted_call.2 fun a ha => part ha
    | _ => exact .node rfl fun c hc => part hc

/-- A join along a navigation is noted for the columns of its keys, wherever in the expression it stands. -/
theorem Expr.AsNoted.describes (h : e.AsNoted) {operator : Operator} {note : JoinNote}
    {outer inner outerKey innerKey result : Expr}
    (hd : .call operator [outer, inner, outerKey, innerKey, result] (some (.join note)) ∈ e.nodes)
    (hnav : note.navigation.isSome = true) : note.Describes outerKey innerKey := by
  have pair {x y : String} {operator : Operator} {items : List Expr} {note : Option CallNote} :
      .call operator items note ∉ (pairing x y).nodes := by
    simp [pairing, pairRecord, nodes, fieldsNodes]
  have joined {operator' : Operator} {note' : JoinNote} {a b c d : Expr} {x y : String}
      (keys : note'.navigation.isSome = true → note'.Describes c d)
      (parts : ∀ part ∈ [a, b, c, d], .call operator [outer, inner, outerKey, innerKey, result] (some (.join note)) ∈
        part.nodes → note.Describes outerKey innerKey)
      (hd : .call operator [outer, inner, outerKey, innerKey, result] (some (.join note)) ∈
        (Expr.call operator' [a, b, c, d, pairing x y] (some (.join note'))).nodes) :
      note.Describes outerKey innerKey := by
    rcases mem_nodes_iff.1 hd with heq | ⟨part, hpart, hd⟩
    · cases heq
      exact keys hnav
    · rcases List.mem_append.1 (show part ∈ [a, b, c, d] ++ [pairing x y] from hpart) with hpart | hpart
      · exact parts part hpart hd
      · obtain rfl := List.mem_singleton.1 hpart
        exact absurd hd pair
  induction h with
  | node plain _ ih =>
    rcases mem_nodes_iff.1 hd with rfl | ⟨c, hc, hd⟩
    · cases plain
    · exact ih c hc hd
  | inner _ keys _ ih => exact joined keys ih hd
  | leftOuter _ keys _ ih =>
    rcases mem_nodes_iff.1 hd with heq | ⟨c, hc, hd⟩
    · cases heq
    · simp only [children, List.mem_cons, List.not_mem_nil, or_false] at hc
      rcases hc with rfl | rfl | rfl
      · exact joined keys ih hd
      · simp [defaultElements, nodes, itemsNodes] at hd
      · exact absurd hd pair

/-- The notes of the joins in an expression. -/
def Expr.joinNotes (e : Expr) : List JoinNote :=
  e.nodes.filterMap fun
    | .call _ _ (some (.join note)) => some note
    | _ => none

/-- If no navigation has the name of a column: every join in the result is of the kind that it is noted for, and
what is noted of the columns of a navigation is what the keys read. -/
theorem expandQuery_asNoted {c : Catalog} {settings : Settings} {q : ExpandedQuery} (apart : c.NamesApart)
    (plain : e.isPlainQuery = true) (h : expandQuery c settings e = .ok q) : q.query.AsNoted := by
  obtain ⟨n, d, p, p', hexpand, hreduce⟩ := Runs.of_expandQuery h
  have expanded : d.Noted c p.forest (.free none) :=
    (noted_durable (M := ⟨c, settings⟩) apart).expandWithin n rfl (Forest.empty_linked c) hexpand
      (noted_of_isPlainQuery plain)
  have reduced : ResolvesNotes c p.forest .outside d q.query :=
    ((reduction_noted p.forest).reduce (resolution_noted p.forest) rfl hreduce).2.2
  exact (reduced.noted (P := .free (some [_])) (List.mem_singleton_self _) expanded.anywhere).finished
    (Runs.reduce_closed hreduce).1

end Results

/-- The orders of the customers that Bob has referred. -/
def Shop.ordersOfReferred : Expr :=
  .call .selectMany [
    .call .filter [.entitySet "Customer",
      .lambda ["c"] (.eq (.member (.member (.param "c") "Referrer") "Name") (.string "Bob"))] none,
    .lambda ["c"] (.member (.param "c") "Orders")] none

/-- Referrers are joined to customers, who may have none, and orders to both. -/
theorem asNoted_ordersOfReferred : ∃ q, Shop.catalog.NamesApart ∧ Shop.ordersOfReferred.isPlainQuery = true ∧
    expandQuery Shop.catalog {} Shop.ordersOfReferred = .ok q ∧
    q.query.joinNotes.map (fun note => (note.kind, note.outerKey, note.innerKey)) =
      [(.inner, ["Id"], ["CustomerId"]), (.leftOuter, ["ReferrerId"], ["Id"])] ∧ q.query.AsNoted := by
  obtain ⟨q, h, notes⟩ := Except.exists_of_any
    (show (expandQuery Shop.catalog {} Shop.ordersOfReferred).toOption.any
      (fun q => q.query.joinNotes.map (fun note => (note.kind, note.outerKey, note.innerKey)) ==
        [(.inner, ["Id"], ["CustomerId"]), (.leftOuter, ["ReferrerId"], ["Id"])]) = true by decide +kernel)
  have apart : Shop.catalog.NamesApart := by decide
  have plain : Shop.ordersOfReferred.isPlainQuery = true := by decide
  exact ⟨q, apart, plain, h, eq_of_beq notes, expandQuery_asNoted apart plain h⟩

namespace Badges

def badge : NavigationEdge where
  name := "Badge"
  target := "Badge"
  foreignKey := ["Badge"]
  principalKey := ["Id"]
  toPrincipal := true
  isCollection := false
  isRequired := true

def orders : NavigationEdge where
  name := "Orders"
  target := "Order"
  foreignKey := ["CustomerId"]
  principalKey := ["Badge"]
  toPrincipal := false
  isCollection := true
  isRequired := true

def buyer : NavigationEdge where
  name := "Customer"
  target := "Customer"
  foreignKey := ["CustomerId"]
  principalKey := ["Badge"]
  toPrincipal := true
  isCollection := false
  isRequired := true

/-- Customers are known by their badges: the column and the navigation have one name. -/
def catalog : Catalog := ⟨[
  { name := "Customer", primaryKey := ["Badge"], properties := [⟨"Badge", .int, false⟩]
    navigations := [badge, orders] },
  { name := "Badge", primaryKey := ["Id"], properties := [⟨"Id", .int, false⟩], navigations := [] },
  { name := "Order", primaryKey := ["Id"], properties := [⟨"Id", .int, false⟩, ⟨"CustomerId", .int, false⟩]
    navigations := [buyer] }]⟩

/-- The customers for whom there are orders at all, with how many pairs of orders there are. -/
def withPairs : Expr :=
  .call .filter [
    .call .select [.entitySet "Customer", .lambda ["c"] (.record [("N", .call .count [
      .call .selectMany [.entitySet "Order", .lambda ["o"] (.member (.param "c") "Orders")] none] none)])] none,
    .lambda ["x"] (.binary .greater (.member (.param "x") "N") (.int 0))] none

end Badges

/-- The call is a join along a navigation that is noted for other columns than its outer key reads. -/
def Expr.isMisnoted : Expr → Bool
  | .call _ [_, _, outerKey, _, _] (some (.join note)) =>
    note.navigation.isSome && outerKey.keyColumns != note.outerKey.map some
  | _ => false

/-- Where the column of a key has the name of a navigation, the key of a join around which a projection is
folded becomes a row, and what is noted is no column of it. -/
theorem not_asNoted_withPairs : ∃ q, Catalog.checked Badges.catalog.types = .ok Badges.catalog ∧
    Badges.withPairs.isPlainQuery = true ∧ expandQuery Badges.catalog {} Badges.withPairs = .ok q ∧
    ¬ q.query.AsNoted := by
  obtain ⟨q, h, wrong⟩ := Except.exists_of_any
    (show (expandQuery Badges.catalog {} Badges.withPairs).toOption.any
      (fun q => q.query.nodes.any isMisnoted) = true by decide +kernel)
  refine ⟨q, rfl, by decide, h, fun noted => ?_⟩
  obtain ⟨d, hd, wrong⟩ := List.any_eq_true.1 wrong
  unfold isMisnoted at wrong
  split at wrong
  · obtain ⟨hnav, hne⟩ := Bool.and_eq_true_iff.1 wrong
    exact bne_iff_ne.1 hne (noted.describes hd hnav).outer
  · cases wrong

end EntityQuery
