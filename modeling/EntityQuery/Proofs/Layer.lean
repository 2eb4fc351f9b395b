import EntityQuery.Expr.Substitution
import EntityQuery.Proofs.Run
import Mathlib.Data.List.Forall2

/-!
# One layer of an expression

Two expressions have the same head if they differ at most in their direct parts. Rebuilding an
expression from rewritten parts keeps its head, so a property of a rewriting is proved for the
places where it acts and once for all heads.
-/

namespace EntityQuery.Expr

/-- The same node with parts that are related one by one. -/
inductive SameHead (R : Expr → Expr → Prop) : Expr → Expr → Prop where
  | entitySet (entity : String) : SameHead R (.entitySet entity) (.entitySet entity)
  | const (value : Literal) : SameHead R (.const value) (.const value)
  | param (name : String) : SameHead R (.param name) (.param name)
  | rowRef (ref : RowRef) : SameHead R (.rowRef ref) (.rowRef ref)
  | member {t t' : Expr} (name : String) (h : R t t') : SameHead R (.member t name) (.member t' name)
  | binary {a a' b b' : Expr} (op : BinaryOp) (ha : R a a') (hb : R b b') :
    SameHead R (.binary op a b) (.binary op a' b')
  | not {a a' : Expr} (h : R a a') : SameHead R (.not a) (.not a')
  | cond {a a' b b' c c' : Expr} (ha : R a a') (hb : R b b') (hc : R c c') :
    SameHead R (.cond a b c) (.cond a' b' c')
  | record {fields fields' : List (String × Expr)}
    (h : List.Forall₂ (fun x y => x.1 = y.1 ∧ R x.2 y.2) fields fields') :
    SameHead R (.record fields) (.record fields')
  | tuple {items items' : List Expr} (h : List.Forall₂ R items items') :
    SameHead R (.tuple items) (.tuple items')
  | convert {a a' : Expr} (dataType : ScalarType) (nullable : Bool) (h : R a a') :
    SameHead R (.convert a dataType nullable) (.convert a' dataType nullable)
  | function {args args' : List Expr} (name : String) (h : List.Forall₂ R args args') :
    SameHead R (.function name args) (.function name args')
  | call {args args' : List Expr} (operator : Operator) (note : Option CallNote)
    (h : List.Forall₂ R args args') : SameHead R (.call operator args note) (.call operator args' note)
  | lambda {body body' : Expr} (params : List String) (h : R body body') :
    SameHead R (.lambda params body) (.lambda params body')
  | stream {rows rows' selector selector' : Expr} (frame : StreamFrame) (hr : R rows rows')
    (hs : R selector selector') :
    SameHead R (.stream rows selector frame) (.stream rows' selector' frame)
  | nullSafeEqual {guards guards' : List Expr} {a a' b b' : Expr}
    (h : List.Forall₂ R guards guards') (ha : R a a') (hb : R b b') :
    SameHead R (.nullSafeEqual guards a b) (.nullSafeEqual guards' a' b')
  | entityShape {rows rows' : Expr} (entity : String) (h : R rows rows') :
    SameHead R (.entityShape entity rows) (.entityShape entity rows')

/-- Every element on the right is related to one on the left. -/
theorem exists_of_mem_right {α β : Type} {R : α → β → Prop} {as : List α} {bs : List β}
    (h : List.Forall₂ R as bs) {b : β} (hb : b ∈ bs) : ∃ a ∈ as, R a b := by
  induction h with
  | nil => cases hb
  | cons hab _ ih =>
    rcases List.mem_cons.1 hb with rfl | hb
    · exact ⟨_, .head _, hab⟩
    · obtain ⟨a, ha, hab⟩ := ih hb
      exact ⟨a, .tail _ ha, hab⟩

/-- Every element on the left is related to one on the right. -/
theorem exists_of_mem_left {α β : Type} {R : α → β → Prop} {as : List α} {bs : List β}
    (h : List.Forall₂ R as bs) {a : α} (ha : a ∈ as) : ∃ b ∈ bs, R a b :=
  exists_of_mem_right h.flip ha

theorem lookup_of_fields {R : Expr → Expr → Prop} {fields fields' : List (String × Expr)}
    (h : List.Forall₂ (fun x y => x.1 = y.1 ∧ R x.2 y.2) fields fields') (name : String) :
    fields.lookup name = none ∧ fields'.lookup name = none ∨
      ∃ v v', fields.lookup name = some v ∧ fields'.lookup name = some v' ∧ R v v' := by
  induction h with
  | nil => exact .inl ⟨rfl, rfl⟩
  | @cons a b l l' hx _ ih =>
    obtain ⟨k, v⟩ := a
    obtain ⟨k', v'⟩ := b
    obtain ⟨rfl, hv⟩ := hx
    simp only [List.lookup_cons]
    cases name == k with
    | true => exact .inr ⟨v, v', rfl, rfl, hv⟩
    | false => exact ih

namespace SameHead

variable {R S : Expr → Expr → Prop} {e e' : Expr}

theorem mono (h : SameHead R e e') (k : ∀ c c', R c c' → S c c') : SameHead S e e' := by
  cases h with
  | entitySet entity => exact .entitySet entity
  | const value => exact .const value
  | param name => exact .param name
  | rowRef ref => exact .rowRef ref
  | member name h => exact .member name (k _ _ h)
  | binary op ha hb => exact .binary op (k _ _ ha) (k _ _ hb)
  | not h => exact .not (k _ _ h)
  | cond ha hb hc => exact .cond (k _ _ ha) (k _ _ hb) (k _ _ hc)
  | record h => exact .record (h.imp fun _ _ h => ⟨h.1, k _ _ h.2⟩)
  | tuple h => exact .tuple (h.imp k)
  | convert dataType nullable h => exact .convert dataType nullable (k _ _ h)
  | function name h => exact .function name (h.imp k)
  | call operator note h => exact .call operator note (h.imp k)
  | lambda params h => exact .lambda params (k _ _ h)
  | stream frame hr hs => exact .stream frame (k _ _ hr) (k _ _ hs)
  | nullSafeEqual h ha hb => exact .nullSafeEqual (h.imp k) (k _ _ ha) (k _ _ hb)
  | entityShape entity h => exact .entityShape entity (k _ _ h)

/-- The parts are related one by one. -/
theorem parts (h : SameHead R e e') : List.Forall₂ R e.children e'.children := by
  cases h with
  | entitySet _ | const _ | param _ | rowRef _ => exact .nil
  | member _ h | not h | convert _ _ h | lambda _ h | entityShape _ h => exact .cons h .nil
  | binary _ ha hb | stream _ ha hb => exact .cons ha (.cons hb .nil)
  | cond ha hb hc => exact .cons ha (.cons hb (.cons hc .nil))
  | record h =>
    rw [Expr.children, Expr.children, List.forall₂_map_left_iff, List.forall₂_map_right_iff]
    exact h.imp fun _ _ h => h.2
  | tuple h | function _ h | call _ _ h => exact h
  | nullSafeEqual h ha hb => exact List.rel_append h (.cons ha (.cons hb .nil))

/-- What is computed of the parts agrees if it does so at related parts. -/
theorem map_children {α : Type} {g h : Expr → α} (head : SameHead (fun c c' => g c = h c') e e') :
    e.children.map g = e'.children.map h := by
  have all := head.parts
  rwa [← List.forall₂_map_right_iff, ← List.forall₂_map_left_iff (f := g), List.forall₂_eq_eq_eq] at all

/-- Every part of the second expression comes from a part of the first. -/
theorem of_mem_children (h : SameHead R e e') {c' : Expr} (hc : c' ∈ e'.children) :
    ∃ c ∈ e.children, R c c' :=
  exists_of_mem_right h.parts hc

/-- Every part of the first expression goes to a part of the second. -/
theorem to_mem_children (h : SameHead R e e') {c : Expr} (hc : c ∈ e.children) :
    ∃ c' ∈ e'.children, R c c' :=
  exists_of_mem_left h.parts hc

theorem flip (h : SameHead R e e') : SameHead (fun c c' => R c' c) e' e := by
  cases h with
  | entitySet entity => exact .entitySet entity
  | const value => exact .const value
  | param name => exact .param name
  | rowRef ref => exact .rowRef ref
  | member name h => exact .member name h
  | binary op ha hb => exact .binary op ha hb
  | not h => exact .not h
  | cond ha hb hc => exact .cond ha hb hc
  | record h => exact .record (h.flip.imp fun _ _ h => ⟨h.1.symm, h.2⟩)
  | tuple h => exact .tuple h.flip
  | convert dataType nullable h => exact .convert dataType nullable h
  | function name h => exact .function name h.flip
  | call operator note h => exact .call operator note h.flip
  | lambda params h => exact .lambda params h
  | stream frame hr hs => exact .stream frame hr hs
  | nullSafeEqual h ha hb => exact .nullSafeEqual h.flip ha hb
  | entityShape entity h => exact .entityShape entity h

/-- Every expression has its own head, with a relation that only needs to hold at its parts. -/
theorem refl_of (e : Expr) (h : ∀ c ∈ e.children, R c c) : SameHead R e e := by
  have items {l : List Expr} (h : ∀ c ∈ l, R c c) : List.Forall₂ R l l := by
    induction l with
    | nil => exact .nil
    | cons c l ih => exact .cons (h c (.head _)) (ih fun c hc => h c (.tail _ hc))
  cases e with
  | entitySet entity => exact .entitySet entity
  | const value => exact .const value
  | param name => exact .param name
  | rowRef ref => exact .rowRef ref
  | member t name => exact .member name (h _ (.head _))
  | binary op a b => exact .binary op (h _ (.head _)) (h _ (.tail _ (.head _)))
  | not a => exact .not (h _ (.head _))
  | cond a b c =>
    exact .cond (h _ (.head _)) (h _ (.tail _ (.head _))) (h _ (.tail _ (.tail _ (.head _))))
  | record fields =>
    have named {l : List (String × Expr)} (h : ∀ c ∈ l.map (·.2), R c c) :
        List.Forall₂ (fun x y => x.1 = y.1 ∧ R x.2 y.2) l l := by
      induction l with
      | nil => exact .nil
      | cons x l ih =>
        exact .cons ⟨rfl, h _ (.head _)⟩ (ih fun c hc => h c (.tail _ hc))
    exact .record (named h)
  | tuple l => exact .tuple (items h)
  | convert a dataType nullable => exact .convert dataType nullable (h _ (.head _))
  | function name l => exact .function name (items h)
  | call operator l note => exact .call operator note (items h)
  | lambda params body => exact .lambda params (h _ (.head _))
  | stream rows selector frame => exact .stream frame (h _ (.head _)) (h _ (.tail _ (.head _)))
  | nullSafeEqual guards a b =>
    refine .nullSafeEqual (items fun c hc => h c ?_) (h a ?_) (h b ?_)
    all_goals simp [children, *]
  | entityShape entity rows => exact .entityShape entity (h _ (.head _))

/-- Related parts under the same node, in two steps. -/
theorem comp {T : Expr → Expr → Prop} {d : Expr} (h : SameHead R e d) (k : SameHead S d e')
    (trans : ∀ a b c, R a b → S b c → T a c) : SameHead T e e' := by
  have items {l₁ l₂ l₃ : List Expr} (h : List.Forall₂ R l₁ l₂) (k : List.Forall₂ S l₂ l₃) :
      List.Forall₂ T l₁ l₃ := by
    induction h generalizing l₃ with
    | nil =>
      cases k
      exact .nil
    | cons h _ ih =>
      cases k with
      | cons k ks => exact .cons (trans _ _ _ h k) (ih ks)
  have named {l₁ l₂ l₃ : List (String × Expr)}
      (h : List.Forall₂ (fun x y => x.1 = y.1 ∧ R x.2 y.2) l₁ l₂)
      (k : List.Forall₂ (fun x y => x.1 = y.1 ∧ S x.2 y.2) l₂ l₃) :
      List.Forall₂ (fun x y => x.1 = y.1 ∧ T x.2 y.2) l₁ l₃ := by
    induction h generalizing l₃ with
    | nil =>
      cases k
      exact .nil
    | cons h _ ih =>
      cases k with
      | cons k ks => exact .cons ⟨h.1.trans k.1, trans _ _ _ h.2 k.2⟩ (ih ks)
  cases h with
  | entitySet entity => cases k; exact .entitySet entity
  | const value => cases k; exact .const value
  | param name => cases k; exact .param name
  | rowRef ref => cases k; exact .rowRef ref
  | member name h => cases k with | member _ k => exact .member name (trans _ _ _ h k)
  | binary op ha hb => cases k with | binary _ ka kb => exact .binary op (trans _ _ _ ha ka) (trans _ _ _ hb kb)
  | not h => cases k with | not k => exact .not (trans _ _ _ h k)
  | cond ha hb hc =>
    cases k with
    | cond ka kb kc => exact .cond (trans _ _ _ ha ka) (trans _ _ _ hb kb) (trans _ _ _ hc kc)
  | record h => cases k with | record k => exact .record (named h k)
  | tuple h => cases k with | tuple k => exact .tuple (items h k)
  | convert dataType nullable h =>
    cases k with | convert _ _ k => exact .convert dataType nullable (trans _ _ _ h k)
  | function name h => cases k with | function _ k => exact .function name (items h k)
  | call operator note h => cases k with | call _ _ k => exact .call operator note (items h k)
  | lambda params h => cases k with | lambda _ k => exact .lambda params (trans _ _ _ h k)
  | stream frame hr hs =>
    cases k with | stream _ kr ks => exact .stream frame (trans _ _ _ hr kr) (trans _ _ _ hs ks)
  | nullSafeEqual h ha hb =>
    cases k with
    | nullSafeEqual k ka kb => exact .nullSafeEqual (items h k) (trans _ _ _ ha ka) (trans _ _ _ hb kb)
  | entityShape entity h => cases k with | entityShape _ k => exact .entityShape entity (trans _ _ _ h k)

/-- Equal parts make equal wholes. -/
theorem eq (h : SameHead (fun c c' => c = c') e e') : e = e' := by
  have items {l l' : List Expr} (h : List.Forall₂ (fun c c' => c = c') l l') : l = l' := by
    induction h with
    | nil => rfl
    | cons h _ ih => rw [h, ih]
  have named {l l' : List (String × Expr)}
      (h : List.Forall₂ (fun x y => x.1 = y.1 ∧ x.2 = y.2) l l') : l = l' := by
    induction h with
    | nil => rfl
    | cons h _ ih => rw [Prod.ext h.1 h.2, ih]
  cases h with
  | entitySet _ | const _ | param _ | rowRef _ => rfl
  | member _ h | not h | convert _ _ h | lambda _ h | entityShape _ h => rw [h]
  | binary _ ha hb | stream _ ha hb => rw [ha, hb]
  | cond ha hb hc => rw [ha, hb, hc]
  | record h => rw [named h]
  | tuple h | function _ h | call _ _ h => rw [items h]
  | nullSafeEqual h ha hb => rw [items h, ha, hb]

/-- Related parts under the same node. -/
theorem of_parts (h : SameHead S e e') (parts : List.Forall₂ R e.children e'.children) :
    SameHead R e e' := by
  have one {a b : Expr} (h : List.Forall₂ R [a] [b]) : R a b := (List.forall₂_cons.1 h).1
  have two {a b a' b' : Expr} (h : List.Forall₂ R [a, b] [a', b']) : R a a' ∧ R b b' :=
    (List.forall₂_cons.1 h).imp_right one
  have named {fields fields' : List (String × Expr)}
      (h : List.Forall₂ (fun x y => x.1 = y.1 ∧ S x.2 y.2) fields fields')
      (parts : List.Forall₂ R (fields.map (·.2)) (fields'.map (·.2))) :
      List.Forall₂ (fun x y => x.1 = y.1 ∧ R x.2 y.2) fields fields' := by
    induction h with
    | nil => exact .nil
    | cons hx _ ih =>
      obtain ⟨hR, parts⟩ := List.forall₂_cons.1 parts
      exact .cons ⟨hx.1, hR⟩ (ih parts)
  have guarded {guards guards' l l' : List Expr} (h : List.Forall₂ S guards guards')
      (parts : List.Forall₂ R (guards ++ l) (guards' ++ l')) :
      List.Forall₂ R guards guards' ∧ List.Forall₂ R l l' := by
    induction h with
    | nil => exact ⟨.nil, parts⟩
    | cons _ _ ih =>
      obtain ⟨hR, parts⟩ := List.forall₂_cons.1 parts
      exact (ih parts).imp_left (.cons hR)
  cases h with
  | entitySet entity => exact .entitySet entity
  | const value => exact .const value
  | param name => exact .param name
  | rowRef ref => exact .rowRef ref
  | member name _ => exact .member name (one parts)
  | not _ => exact .not (one parts)
  | convert dataType nullable _ => exact .convert dataType nullable (one parts)
  | lambda params _ => exact .lambda params (one parts)
  | entityShape entity _ => exact .entityShape entity (one parts)
  | binary op _ _ => exact .binary op (two parts).1 (two parts).2
  | stream frame _ _ => exact .stream frame (two parts).1 (two parts).2
  | cond _ _ _ =>
    obtain ⟨ha, parts⟩ := List.forall₂_cons.1 parts
    exact .cond ha (two parts).1 (two parts).2
  | record h => exact .record (named h parts)
  | tuple _ => exact .tuple parts
  | function name _ => exact .function name parts
  | call operator note _ => exact .call operator note parts
  | nullSafeEqual h _ _ =>
    obtain ⟨hguards, parts⟩ := guarded h parts
    exact .nullSafeEqual hguards (two parts).1 (two parts).2

theorem of_zip (h : SameHead S e e') (parts : ∀ c ∈ e.children.zip e'.children, R c.1 c.2) : SameHead R e e' :=
  h.of_parts (List.forall₂_iff_zip.2 ⟨h.parts.length_eq, fun hc => parts _ hc⟩)

/-- The parts are those of the expression. -/
theorem on_children (h : SameHead R e e') : SameHead (fun c c' => c ∈ e.children ∧ R c c') e e' :=
  h.of_parts ((List.forall₂_and_left _ _).2 ⟨fun _ => id, h.parts⟩)

/-- An expression whose parts stay the same stays the same. -/
theorem eq_of_parts (h : SameHead R e e') (parts : ∀ c ∈ e.children, ∀ c', R c c' → c' = c) : e' = e := by
  refine (SameHead.eq (h.of_parts ?_)).symm
  exact ((List.forall₂_and_left _ _).2 ⟨parts, h.parts⟩).imp fun c c' h => (h.1 c' h.2).symm

/-- Rebuilding without effects. -/
theorem of_map (f : Expr → Expr) (e : Expr) :
    SameHead (fun c c' => c ∈ e.children ∧ c' = f c) e
      (e.mapChildren (m := Id) fun c => pure (f c)).run := by
  have items (l : List Expr) :
      List.Forall₂ (fun c c' => c ∈ l ∧ c' = f c) l
        (mapItems (m := Id) (fun c => pure (f c)) l).run := by
    induction l with
    | nil => exact .nil
    | cons c l ih => exact .cons ⟨.head _, rfl⟩ (ih.imp fun _ _ h => ⟨.tail _ h.1, h.2⟩)
  have named (l : List (String × Expr)) :
      List.Forall₂ (fun x y => x.1 = y.1 ∧ x.2 ∈ l.map (·.2) ∧ y.2 = f x.2) l
        (mapFields (m := Id) (fun c => pure (f c)) l).run := by
    induction l with
    | nil => exact .nil
    | cons x l ih =>
      exact .cons ⟨rfl, .head _, rfl⟩ (ih.imp fun _ _ h => ⟨h.1, .tail _ h.2.1, h.2.2⟩)
  cases e with
  | entitySet entity => exact .entitySet entity
  | const value => exact .const value
  | param name => exact .param name
  | rowRef ref => exact .rowRef ref
  | member t name => exact .member name ⟨.head _, rfl⟩
  | binary op a b => exact .binary op ⟨.head _, rfl⟩ ⟨.tail _ (.head _), rfl⟩
  | not a => exact .not ⟨.head _, rfl⟩
  | cond a b c =>
    exact .cond ⟨.head _, rfl⟩ ⟨.tail _ (.head _), rfl⟩ ⟨.tail _ (.tail _ (.head _)), rfl⟩
  | record fields => exact .record (named fields)
  | tuple l => exact .tuple (items l)
  | convert a dataType nullable => exact .convert dataType nullable ⟨.head _, rfl⟩
  | function name l => exact .function name (items l)
  | call operator l note => exact .call operator note (items l)
  | lambda params body => exact .lambda params ⟨.head _, rfl⟩
  | stream rows selector frame =>
    exact .stream frame ⟨.head _, rfl⟩ ⟨.tail _ (.head _), rfl⟩
  | nullSafeEqual guards a b =>
    refine .nullSafeEqual ((items guards).imp fun c c' h => ⟨?_, h.2⟩) ⟨?_, rfl⟩ ⟨?_, rfl⟩
    all_goals simp [children, *]
  | entityShape entity rows => exact .entityShape entity ⟨.head _, rfl⟩

/-- Two expressions with the same head are rebuilt to two such. -/
theorem map (f : Expr → Expr) (h : SameHead R e e') (k : ∀ c c', R c c' → S (f c) (f c')) :
    SameHead S (e.mapChildren (m := Id) fun c => pure (f c)).run
      (e'.mapChildren (m := Id) fun c => pure (f c)).run := by
  have items {l l' : List Expr} (h : List.Forall₂ R l l') : List.Forall₂ S
      (mapItems (m := Id) (fun c => pure (f c)) l).run
      (mapItems (m := Id) (fun c => pure (f c)) l').run := by
    induction h with
    | nil => exact .nil
    | cons h _ ih => exact .cons (k _ _ h) ih
  have named {l l' : List (String × Expr)} (h : List.Forall₂ (fun x y => x.1 = y.1 ∧ R x.2 y.2) l l') :
      List.Forall₂ (fun x y => x.1 = y.1 ∧ S x.2 y.2) (mapFields (m := Id) (fun c => pure (f c)) l).run
        (mapFields (m := Id) (fun c => pure (f c)) l').run := by
    induction h with
    | nil => exact .nil
    | cons h _ ih => exact .cons ⟨h.1, k _ _ h.2⟩ ih
  cases h with
  | entitySet entity => exact .entitySet entity
  | const value => exact .const value
  | param name => exact .param name
  | rowRef ref => exact .rowRef ref
  | member name h => exact .member name (k _ _ h)
  | binary op ha hb => exact .binary op (k _ _ ha) (k _ _ hb)
  | not h => exact .not (k _ _ h)
  | cond ha hb hc => exact .cond (k _ _ ha) (k _ _ hb) (k _ _ hc)
  | record h => exact .record (named h)
  | tuple h => exact .tuple (items h)
  | convert dataType nullable h => exact .convert dataType nullable (k _ _ h)
  | function name h => exact .function name (items h)
  | call operator note h => exact .call operator note (items h)
  | lambda params h => exact .lambda params (k _ _ h)
  | stream frame hr hs => exact .stream frame (k _ _ hr) (k _ _ hs)
  | nullSafeEqual h ha hb => exact .nullSafeEqual (items h) (k _ _ ha) (k _ _ hb)
  | entityShape entity h => exact .entityShape entity (k _ _ h)

end SameHead

end EntityQuery.Expr

namespace EntityQuery.Runs

open EntityQuery.Expr

variable {M : Model} {p p' : Progress} {le : Progress → Progress → Prop}
  {f : Expr → Expansion Expr}

/-- What is known of the run that rewrote one part: it lies within the run over all parts. -/
def Within (le : Progress → Progress → Prop) (f : Expr → Expansion Expr) (M : Model)
    (p p' : Progress) (c c' : Expr) : Prop :=
  ∃ q q', le p q ∧ le q' p' ∧ Runs (f c) M q c' q'

variable (le) in
theorem mapItems_within (refl : ∀ p, le p p) (trans : ∀ {p q r}, le p q → le q r → le p r)
    {es es' : List Expr} (step : ∀ c ∈ es, ∀ q c' q', le p q → Runs (f c) M q c' q' → le q q')
    (h : Runs (mapItems f es) M p es' p') :
    le p p' ∧ List.Forall₂ (fun c c' => c ∈ es ∧ Within le f M p p' c c') es es' := by
  induction es generalizing p es' with
  | nil =>
    obtain ⟨rfl, rfl⟩ := pure_iff.1 h
    exact ⟨refl _, .nil⟩
  | cons e es ih =>
    simp only [mapItems, bind_iff, pure_iff] at h
    obtain ⟨e', q, he, es', q', hes, rfl, rfl⟩ := h
    have first := step e (.head _) _ _ _ (refl p) he
    obtain ⟨rest, all⟩ := ih (fun c hc r c' r' hr => step c (.tail _ hc) r c' r' (trans first hr)) hes
    refine ⟨trans first rest, .cons ⟨.head _, p, q, refl _, rest, he⟩ (all.imp ?_)⟩
    rintro c c' ⟨hc, r, r', hr, hr', hrun⟩
    exact ⟨.tail _ hc, r, r', trans first hr, hr', hrun⟩

variable (le) in
theorem mapFields_within (refl : ∀ p, le p p) (trans : ∀ {p q r}, le p q → le q r → le p r)
    {es es' : List (String × Expr)}
    (step : ∀ c ∈ es.map (·.2), ∀ q c' q', le p q → Runs (f c) M q c' q' → le q q')
    (h : Runs (mapFields f es) M p es' p') :
    le p p' ∧ List.Forall₂
      (fun x y => x.1 = y.1 ∧ x.2 ∈ es.map (·.2) ∧ Within le f M p p' x.2 y.2) es es' := by
  induction es generalizing p es' with
  | nil =>
    obtain ⟨rfl, rfl⟩ := pure_iff.1 h
    exact ⟨refl _, .nil⟩
  | cons e es ih =>
    simp only [mapFields, bind_iff, pure_iff] at h
    obtain ⟨e', q, he, es', q', hes, rfl, rfl⟩ := h
    have first := step e.2 (.head _) _ _ _ (refl p) he
    obtain ⟨rest, all⟩ := ih (fun c hc r c' r' hr => step c (.tail _ hc) r c' r' (trans first hr)) hes
    refine ⟨trans first rest, .cons ⟨rfl, .head _, p, q, refl _, rest, he⟩ (all.imp ?_)⟩
    rintro c c' ⟨hname, hc, r, r', hr, hr', hrun⟩
    exact ⟨hname, .tail _ hc, r, r', trans first hr, hr', hrun⟩

variable (le) in
theorem one_within (refl : ∀ p, le p p) {cs : List Expr}
    (step : ∀ c ∈ cs, ∀ q c' q', le p q → Runs (f c) M q c' q' → le q q') {c c' : Expr} (hc : c ∈ cs)
    (h : Runs (f c) M p c' p') : le p p' ∧ c ∈ cs ∧ Within le f M p p' c c' :=
  ⟨step c hc p c' p' (refl p) h, hc, p, p', refl p, refl p', h⟩

variable (le) in
theorem two_within (refl : ∀ p, le p p) (trans : ∀ {p q r}, le p q → le q r → le p r) {cs : List Expr}
    (step : ∀ c ∈ cs, ∀ q c' q', le p q → Runs (f c) M q c' q' → le q q') {a a' b b' : Expr}
    {q : Progress} (ha : a ∈ cs) (hb : b ∈ cs) (hra : Runs (f a) M p a' q) (hrb : Runs (f b) M q b' p') :
    le p p' ∧ (a ∈ cs ∧ Within le f M p p' a a') ∧ b ∈ cs ∧ Within le f M p p' b b' := by
  have first := step a ha p a' q (refl p) hra
  have second := step b hb q b' p' first hrb
  exact ⟨trans first second, ⟨ha, p, q, refl p, second, hra⟩, hb, q, p', first, refl p', hrb⟩

variable (le) in
/-- Rebuilding an expression from its rewritten parts, when rewriting a part keeps `le`. -/
theorem mapChildren_within (refl : ∀ p, le p p) (trans : ∀ {p q r}, le p q → le q r → le p r)
    {e e' : Expr} (step : ∀ c ∈ e.children, ∀ q c' q', le p q → Runs (f c) M q c' q' → le q q')
    (h : Runs (e.mapChildren f) M p e' p') :
    le p p' ∧ SameHead (fun c c' => c ∈ e.children ∧ Within le f M p p' c c') e e' := by
  have one {c c' : Expr} (hc : c ∈ e.children) (h : Runs (f c) M p c' p') := one_within le refl step hc h
  have two {a a' b b' : Expr} {q : Progress} (ha : a ∈ e.children) (hb : b ∈ e.children)
      (hra : Runs (f a) M p a' q) (hrb : Runs (f b) M q b' p') :=
    two_within le refl trans step ha hb hra hrb
  cases e <;> simp only [mapChildren, bind_iff, pure_iff] at h
  case entitySet | const | param | rowRef =>
    obtain ⟨rfl, rfl⟩ := h
    exact ⟨refl _, by constructor⟩
  case member name =>
    obtain ⟨t', q, ht, rfl, rfl⟩ := h
    exact (one (.head _) ht).imp_right (.member name)
  case not =>
    obtain ⟨a', q, ha, rfl, rfl⟩ := h
    exact (one (.head _) ha).imp_right .not
  case convert dataType nullable =>
    obtain ⟨a', q, ha, rfl, rfl⟩ := h
    exact (one (.head _) ha).imp_right (.convert dataType nullable)
  case lambda params body =>
    obtain ⟨body', q, hbody, rfl, rfl⟩ := h
    exact (one (.head _) hbody).imp_right (.lambda params)
  case entityShape entity rows =>
    obtain ⟨rows', q, hrows, rfl, rfl⟩ := h
    exact (one (.head _) hrows).imp_right (.entityShape entity)
  case binary op _ _ =>
    obtain ⟨a', q, ha, b', q', hb, rfl, rfl⟩ := h
    obtain ⟨hle, left, right⟩ := two (.head _) (.tail _ (.head _)) ha hb
    exact ⟨hle, .binary op left right⟩
  case stream frame =>
    obtain ⟨rows', q, hrows, selector', q', hselector, rfl, rfl⟩ := h
    obtain ⟨hle, left, right⟩ := two (.head _) (.tail _ (.head _)) hrows hselector
    exact ⟨hle, .stream frame left right⟩
  case cond a b c =>
    obtain ⟨a', q, ha, b', q', hb, c', r, hc, rfl, rfl⟩ := h
    have first := step a (.head _) _ _ _ (refl p) ha
    have second := step b (.tail _ (.head _)) _ _ _ first hb
    have third := step c (.tail _ (.tail _ (.head _))) _ _ _ (trans first second) hc
    exact ⟨trans first (trans second third), .cond
      ⟨.head _, p, q, refl _, trans second third, ha⟩
      ⟨.tail _ (.head _), q, q', first, third, hb⟩
      ⟨.tail _ (.tail _ (.head _)), q', _, trans first second, refl _, hc⟩⟩
  case record fields =>
    obtain ⟨fields', q, hf, rfl, rfl⟩ := h
    exact (mapFields_within le refl trans step hf).imp_right .record
  case tuple items =>
    obtain ⟨items', q, hi, rfl, rfl⟩ := h
    exact (mapItems_within le refl trans step hi).imp_right .tuple
  case function name arguments =>
    obtain ⟨items', q, hi, rfl, rfl⟩ := h
    exact (mapItems_within le refl trans step hi).imp_right (.function name)
  case call operator arguments note =>
    obtain ⟨items', q, hi, rfl, rfl⟩ := h
    exact (mapItems_within le refl trans step hi).imp_right (.call operator note)
  case nullSafeEqual guards a b =>
    obtain ⟨guards', q, hg, a', q', ha, b', r, hb, rfl, rfl⟩ := h
    have left : a ∈ (nullSafeEqual guards a b).children := by simp [children]
    have right : b ∈ (nullSafeEqual guards a b).children := by simp [children]
    have guard {c} (hc : c ∈ guards) : c ∈ (nullSafeEqual guards a b).children := by
      simp [children, hc]
    obtain ⟨first, all⟩ := mapItems_within le refl trans (fun c hc => step c (guard hc)) hg
    have second := step a left _ _ _ first ha
    have third := step b right _ _ _ (trans first second) hb
    refine ⟨trans first (trans second third), .nullSafeEqual (all.imp ?_)
      ⟨left, q, q', first, third, ha⟩ ⟨right, q', _, trans first second, refl _, hb⟩⟩
    rintro c c' ⟨hc, r, r', hr, hr', hrun⟩
    exact ⟨guard hc, r, r', hr, trans hr' (trans second third), hrun⟩

/-- Rebuilding an expression keeps its head, and every part comes from a run. -/
theorem mapChildren_sameHead {e e' : Expr} (h : Runs (e.mapChildren f) M p e' p') :
    SameHead (fun c c' => c ∈ e.children ∧ ∃ q q', Runs (f c) M q c' q') e e' := by
  obtain ⟨-, head⟩ := mapChildren_within (fun _ _ => True) (fun _ => trivial)
    (fun _ _ => trivial) (fun _ _ _ _ _ _ _ => trivial) h
  refine head.mono fun c c' ran => ?_
  obtain ⟨hc, q, q', -, -, hrun⟩ := ran
  exact ⟨hc, q, q', hrun⟩

/-- If rewriting the parts changes nothing else, rebuilding the expression does not either. -/
theorem mapChildren_fixed {e e' : Expr} (h : SameHead (fun c c' => Runs (f c) M p c' p) e e') :
    Runs (e.mapChildren f) M p e' p := by
  have items {l l' : List Expr} (h : List.Forall₂ (fun c c' => Runs (f c) M p c' p) l l') :
      Runs (mapItems f l) M p l' p := by
    induction h with
    | nil => exact pure_iff.2 ⟨rfl, rfl⟩
    | cons h _ ih =>
      simp only [mapItems, bind_iff, pure_iff]
      exact ⟨_, _, h, _, _, ih, rfl, rfl⟩
  have named {l l' : List (String × Expr)}
      (h : List.Forall₂ (fun x y => x.1 = y.1 ∧ Runs (f x.2) M p y.2 p) l l') :
      Runs (mapFields f l) M p l' p := by
    induction h with
    | nil => exact pure_iff.2 ⟨rfl, rfl⟩
    | cons h _ ih =>
      simp only [mapFields, bind_iff, pure_iff]
      exact ⟨_, _, h.2, _, _, ih, by rw [h.1], rfl⟩
  cases h <;> simp only [mapChildren, bind_iff, pure_iff]
  case entitySet | const | param | rowRef => exact ⟨trivial, trivial⟩
  case member h | not h | convert h | lambda h | entityShape h => exact ⟨_, _, h, rfl, rfl⟩
  case binary ha hb | stream ha hb => exact ⟨_, _, ha, _, _, hb, rfl, rfl⟩
  case cond ha hb hc => exact ⟨_, _, ha, _, _, hb, _, _, hc, rfl, rfl⟩
  case record h => exact ⟨_, _, named h, rfl, rfl⟩
  case tuple h | function h | call h => exact ⟨_, _, items h, rfl, rfl⟩
  case nullSafeEqual h ha hb => exact ⟨_, _, items h, _, _, ha, _, _, hb, rfl, rfl⟩

end EntityQuery.Runs
