import EntityQuery.Expr.Document
import EntityQuery.Proofs.Names

/-!
# Reading documents back

Reading the document of an expression gives the expression (`Expr.lossless_toJson`), so no two
expressions have one document. Each kind of data has a writer and a reader with a lemma of its own;
the induction over expressions only puts these together. A document nests at least one value more
than the documents of the parts, which is all that the bound of the reader asks for.

Floats that are not finite have no number in JSON, so expressions with such constants are left out.
-/

namespace EntityQuery

namespace Json

variable {α β : Type}

/-- Items are read back if each of them is. -/
theorem mapM_read {write : α → β} {read : β → Option α} {l : List α}
    (h : ∀ a ∈ l, read (write a) = some a) : (l.map write).mapM read = some l := by
  induction l with
  | nil => rfl
  | cons a l ih =>
    rw [List.map_cons, List.mapM_cons, h a (.head _), ih fun b hb => h b (.tail _ hb)]
    rfl

theorem strings?_strings (l : List String) : (strings l).strings? = some l :=
  mapM_read fun _ _ => rfl

theorem depth_lt_arr {j : Json} {items : List Json} (h : j ∈ items) : j.depth < (arr items).depth := by
  rw [depth, Nat.lt_succ_iff]
  induction items with
  | nil => cases h
  | cons i items ih =>
    rw [itemsDepth]
    rcases List.mem_cons.1 h with rfl | h
    · exact Nat.le_max_left ..
    · exact Nat.le_trans (ih h) (Nat.le_max_right ..)

theorem depth_lt_obj {j : Json} {members : List (String × Json)} (h : j ∈ members.map (·.2)) :
    j.depth < (obj members).depth := by
  rw [depth, Nat.lt_succ_iff]
  induction members with
  | nil => cases h
  | cons m members ih =>
    rw [membersDepth]
    rcases List.mem_cons.1 h with rfl | h
    · exact Nat.le_max_left ..
    · exact Nat.le_trans (ih h) (Nat.le_max_right ..)

theorem float?_ofFloat {x : Float} (h : x.isFinite = true) : (ofFloat x).float? = some x := by
  rw [ofFloat, if_pos h]
  rfl

/-- A member that may be null is read back, unless its value is written as null. -/
theorem optional?_ofOption {members : List (String × Json)} {name : String} {write : α → Json}
    {read : Json → Option α} {a? : Option α} (hm : members.lookup name = some (ofOption write a?))
    (hw : ∀ a, write a ≠ .null) (h : ∀ a, read (write a) = some a) :
    (obj members).optional? name read = some a? := by
  rw [optional?, member?, hm]
  cases a? with
  | none => rfl
  | some a =>
    simp only [ofOption]
    split
    · next heq => cases heq
    · next heq => exact absurd (Option.some.inj heq) (hw a)
    · next v _ heq =>
      obtain rfl := Option.some.inj heq
      rw [h]
      rfl

end Json

namespace Operator

theorem registered?_name {op : Operator} (h : op ∈ registered) : registered? op.name = some op := by
  revert op
  decide

theorem ofJson?_toJson (op : Operator) : ofJson? op.toJson = some op := by
  cases op with
  | other name => rfl
  | _ => exact registered?_name (by decide)

theorem toJson_ne_null (op : Operator) : op.toJson ≠ .null := by
  cases op <;> exact nofun

end Operator

theorem BinaryOp.ofJson?_documentName (op : BinaryOp) : ofJson? (.str op.documentName) = some op := by
  cases op <;> rfl

theorem JoinKind.ofJson?_documentName (kind : JoinKind) :
    ofJson? (.str kind.documentName) = some kind := by
  cases kind <;> rfl

theorem ScalarType.ofJson?_name (t : ScalarType) : ofJson? (.str t.name) = some t := by
  cases t <;> rfl

theorem JoinNote.ofJson?_toJson (n : JoinNote) : ofJson? n.toJson = some n := by
  have kind : n.toJson.get? "kind" JoinKind.ofJson? = some n.kind :=
    JoinKind.ofJson?_documentName n.kind
  have target : n.toJson.optional? "target_entity" Json.str? = some n.targetEntity :=
    Json.optional?_ofOption rfl nofun fun _ => rfl
  have navigation : n.toJson.optional? "navigation" Json.str? = some n.navigation :=
    Json.optional?_ofOption rfl nofun fun _ => rfl
  have outer : n.toJson.get? "outer_key" Json.strings? = some n.outerKey :=
    Json.strings?_strings n.outerKey
  have inner : n.toJson.get? "inner_key" Json.strings? = some n.innerKey :=
    Json.strings?_strings n.innerKey
  have guard : n.toJson.get? "outer_null_guard" Json.bool? = some n.outerNullGuard := rfl
  rw [JoinNote.ofJson?, kind, target, navigation, outer, inner, guard]
  rfl

theorem CallNote.ofJson?_toJson (n : CallNote) : ofJson? n.toJson = some n := by
  cases n with
  | join n =>
    change (JoinNote.ofJson? n.toJson).map CallNote.join = _
    rw [JoinNote.ofJson?_toJson]
    rfl
  | collection owner navigation => rfl
  | leftJoinFlatten => rfl

theorem CallNote.toJson_ne_null (n : CallNote) : n.toJson ≠ .null := by
  cases n <;> exact nofun

theorem Literal.ofJson?_toJson {l : Literal} (h : ∀ x, l = .float x → x.isFinite = true) :
    ofJson? l.toJson = some l := by
  cases l with
  | float x =>
    change (Json.ofFloat x).float?.map Literal.float = _
    rw [Json.float?_ofFloat (h x rfl)]
    rfl
  | _ => rfl

theorem RowRef.ofJson?_toJson (r : RowRef) : ofJson? r.toJson = some r := by
  have path : r.toJson.get? "path" Json.strings? = some r.path := Json.strings?_strings r.path
  rw [RowRef.ofJson?, path]
  rfl

theorem StreamFrame.ofJson?_toMembers (f : StreamFrame) (rows selector : Json) :
    ofJson? (.obj (f.toMembers rows selector)) = some f := by
  have sources : (f.sources.map fun s => Json.nat s.index).mapM
      (fun s => s.nat?.map SourceId.mk) = some f.sources := Json.mapM_read fun _ _ => rfl
  have cardinality : (Json.obj (f.toMembers rows selector)).optional? "pending_cardinality"
      Operator.ofJson? = some f.cardinality :=
    Json.optional?_ofOption rfl Operator.toJson_ne_null Operator.ofJson?_toJson
  rw [StreamFrame.ofJson?, cardinality]
  change ((f.sources.map fun s => Json.nat s.index).mapM (fun s => s.nat?.map SourceId.mk) >>= _) = _
  rw [sources]
  rfl

namespace Expr

variable {c e : Expr} {n : Nat}

theorem itemsToJson_eq (es : List Expr) : itemsToJson es = es.map toJson := by
  induction es with
  | nil => rfl
  | cons e es ih => rw [itemsToJson, ih, List.map_cons]

theorem fieldsToJson_eq (fields : List (String × Expr)) :
    fieldsToJson fields = fields.map fun f => .obj [("name", .str f.1), ("value", f.2.toJson)] := by
  induction fields with
  | nil => rfl
  | cons f fields ih => rw [fieldsToJson, ih, List.map_cons]

theorem depth_lt_items {es : List Expr} (h : c ∈ es) :
    c.toJson.depth < (Json.arr (itemsToJson es)).depth := by
  rw [itemsToJson_eq]
  exact Json.depth_lt_arr (List.mem_map_of_mem h)

/-- The document of a part is nested in that of the whole. -/
theorem depth_toJson_lt_of_child (h : c ∈ e.children) : c.toJson.depth < e.toJson.depth := by
  have tag {name : String} {body : Json} : body.depth < (tagged name body).depth :=
    Json.depth_lt_obj (.head _)
  cases e <;> simp only [children, List.not_mem_nil, List.mem_cons, List.mem_append, or_false] at h
  case not operand => exact h ▸ tag
  case record fields =>
    obtain ⟨f, hf, rfl⟩ := List.mem_map.1 h
    refine Nat.lt_trans ?_ tag
    rw [fieldsToJson_eq]
    exact Nat.lt_trans (Json.depth_lt_obj (.tail _ (.head _)))
      (Json.depth_lt_arr (List.mem_map_of_mem hf))
  case tuple items => exact Nat.lt_trans (depth_lt_items h) tag
  case function name arguments =>
    exact Nat.lt_trans (depth_lt_items h) (Nat.lt_trans (Json.depth_lt_obj (.tail _ (.head _))) tag)
  case call operator arguments note =>
    exact Nat.lt_trans (depth_lt_items h) (Nat.lt_trans (Json.depth_lt_obj (.tail _ (.head _))) tag)
  case nullSafeEqual guards left right =>
    refine Nat.lt_trans ?_ tag
    rcases h with h | rfl | rfl
    · exact Nat.lt_trans (depth_lt_items h) (Json.depth_lt_obj (.head _))
    · exact Json.depth_lt_obj (.tail _ (.head _))
    · exact Json.depth_lt_obj (.tail _ (.tail _ (.head _)))
  all_goals
    refine Nat.lt_trans ?_ tag
    rcases h with rfl | rfl | rfl <;> exact Json.depth_lt_obj (by simp [StreamFrame.toMembers])

theorem depth_toJson_pos (e : Expr) : 0 < e.toJson.depth := by
  cases e <;> exact Nat.succ_pos _

/-- Every float of the expression is finite. -/
def HasFiniteFloats (e : Expr) : Prop := ∀ x, .const (.float x) ∈ e.nodes → x.isFinite = true

theorem HasFiniteFloats.child (h : e.HasFiniteFloats) (hc : c ∈ e.children) : c.HasFiniteFloats :=
  fun x hx => h x (mem_nodes_of_child hc hx)

/-- Reading documents of up to `n` levels gives the expression back. -/
def ReadsBack (n : Nat) (e : Expr) : Prop := ofJsonWithin? n e.toJson = some e

namespace ReadsBack

variable {target left right body rows selector : Expr}

theorem items {es : List Expr} (h : ∀ c ∈ es, ReadsBack n c) :
    (itemsToJson es).mapM (ofJsonWithin? n) = some es := by
  rw [itemsToJson_eq]
  exact Json.mapM_read h

theorem const {value : Literal} (h : ∀ x, value = .float x → x.isFinite = true) :
    ReadsBack (n + 1) (.const value) := by
  change (Literal.ofJson? value.toJson).map Expr.const = _
  rw [Literal.ofJson?_toJson h]
  rfl

theorem member (h : ReadsBack n target) (name : String) : ReadsBack (n + 1) (.member target name) := by
  change (ofJsonWithin? n target.toJson >>= _) = _
  rw [h]
  rfl

theorem binary (op : BinaryOp) (hl : ReadsBack n left) (hr : ReadsBack n right) :
    ReadsBack (n + 1) (.binary op left right) := by
  change (BinaryOp.ofJson? (.str op.documentName) >>= fun op => ofJsonWithin? n left.toJson >>=
    fun left => ofJsonWithin? n right.toJson >>= fun right => some (Expr.binary op left right)) = _
  rw [BinaryOp.ofJson?_documentName, hl, hr]
  rfl

theorem not (h : ReadsBack n target) : ReadsBack (n + 1) (.not target) := by
  change (ofJsonWithin? n target.toJson).map Expr.not = _
  rw [h]
  rfl

theorem cond (h : ReadsBack n target) (hl : ReadsBack n left) (hr : ReadsBack n right) :
    ReadsBack (n + 1) (.cond target left right) := by
  change (ofJsonWithin? n target.toJson >>= fun test => ofJsonWithin? n left.toJson >>=
    fun ifTrue => ofJsonWithin? n right.toJson >>= fun ifFalse =>
      some (Expr.cond test ifTrue ifFalse)) = _
  rw [h, hl, hr]
  rfl

theorem record {fields : List (String × Expr)} (h : ∀ f ∈ fields, ReadsBack n f.2) :
    ReadsBack (n + 1) (.record fields) := by
  let read (j : Json) : Option (String × Expr) := do
    return (← j.get? "name" Json.str?, ← j.get? "value" (ofJsonWithin? n))
  have field (f) (hf : f ∈ fields) :
      read (.obj [("name", .str f.1), ("value", f.2.toJson)]) = some f := by
    change (ofJsonWithin? n f.2.toJson >>= fun value => some (f.1, value)) = _
    rw [h f hf]
    rfl
  change ((fieldsToJson fields).mapM read >>= fun fields => some (Expr.record fields)) = _
  rw [fieldsToJson_eq, Json.mapM_read field]
  rfl

theorem tuple {es : List Expr} (h : ∀ c ∈ es, ReadsBack n c) : ReadsBack (n + 1) (.tuple es) := by
  change ((itemsToJson es).mapM (ofJsonWithin? n)).map Expr.tuple = _
  rw [items h]
  rfl

theorem convert (h : ReadsBack n target) (t : ScalarType) (nullable : Bool) :
    ReadsBack (n + 1) (.convert target t nullable) := by
  change (ofJsonWithin? n target.toJson >>= fun operand =>
    ScalarType.ofJson? (.str t.name) >>= fun t => some (Expr.convert operand t nullable)) = _
  rw [h, ScalarType.ofJson?_name]
  rfl

theorem function {arguments : List Expr} (h : ∀ c ∈ arguments, ReadsBack n c) (name : String) :
    ReadsBack (n + 1) (.function name arguments) := by
  change ((itemsToJson arguments).mapM (ofJsonWithin? n) >>= _) = _
  rw [items h]
  rfl

theorem call {arguments : List Expr} (h : ∀ c ∈ arguments, ReadsBack n c) (operator : Operator)
    (note : Option CallNote) : ReadsBack (n + 1) (.call operator arguments note) := by
  change (Operator.ofJson? operator.toJson >>= fun operator =>
    (itemsToJson arguments).mapM (ofJsonWithin? n) >>= fun arguments =>
      Json.optional? (.obj _) "annotation" CallNote.ofJson? >>= fun note =>
        some (Expr.call operator arguments note)) = _
  rw [Operator.ofJson?_toJson, items h,
    Json.optional?_ofOption rfl CallNote.toJson_ne_null CallNote.ofJson?_toJson]
  rfl

theorem lambda (h : ReadsBack n body) (params : List String) :
    ReadsBack (n + 1) (.lambda params body) := by
  change ((Json.strings params).strings? >>= fun params => ofJsonWithin? n body.toJson >>=
    fun body => some (Expr.lambda params body)) = _
  rw [Json.strings?_strings, h]
  rfl

theorem rowRef (r : RowRef) : ReadsBack (n + 1) (.rowRef r) := by
  change (RowRef.ofJson? r.toJson).map Expr.rowRef = _
  rw [RowRef.ofJson?_toJson]
  rfl

theorem stream (hrows : ReadsBack n rows) (hselector : ReadsBack n selector) (frame : StreamFrame) :
    ReadsBack (n + 1) (.stream rows selector frame) := by
  change (ofJsonWithin? n rows.toJson >>= fun rows => ofJsonWithin? n selector.toJson >>=
    fun selector => StreamFrame.ofJson? (.obj (frame.toMembers _ _)) >>=
      fun frame => some (Expr.stream rows selector frame)) = _
  rw [hrows, hselector, StreamFrame.ofJson?_toMembers]
  rfl

theorem nullSafeEqual {guards : List Expr} (h : ∀ c ∈ guards, ReadsBack n c) (hl : ReadsBack n left)
    (hr : ReadsBack n right) : ReadsBack (n + 1) (.nullSafeEqual guards left right) := by
  change ((itemsToJson guards).mapM (ofJsonWithin? n) >>= fun guards =>
    ofJsonWithin? n left.toJson >>= fun left => ofJsonWithin? n right.toJson >>= fun right =>
      some (Expr.nullSafeEqual guards left right)) = _
  rw [items h, hl, hr]
  rfl

theorem entityShape (h : ReadsBack n rows) (entity : String) :
    ReadsBack (n + 1) (.entityShape entity rows) := by
  change (ofJsonWithin? n rows.toJson >>= _) = _
  rw [h]
  rfl

end ReadsBack

theorem ofJsonWithin?_toJson (h : e.HasFiniteFloats) (hn : e.toJson.depth ≤ n) : ReadsBack n e := by
  induction e using children_induction generalizing n with
  | step e ih =>
    cases n with
    | zero => exact absurd e.depth_toJson_pos (Nat.not_lt.2 hn)
    | succ n =>
      have part (c : Expr) (hc : c ∈ e.children) : ReadsBack n c :=
        ih c hc (h.child hc) (Nat.le_of_lt_succ (Nat.lt_of_lt_of_le (depth_toJson_lt_of_child hc) hn))
      cases e with
      | entitySet _ | param _ => rfl
      | const value => exact .const fun x hx => h x (hx ▸ self_mem_nodes _)
      | member _ name => exact .member (part _ (.head _)) name
      | binary op _ _ => exact .binary op (part _ (.head _)) (part _ (.tail _ (.head _)))
      | not _ => exact .not (part _ (.head _))
      | cond _ _ _ =>
        exact .cond (part _ (.head _)) (part _ (.tail _ (.head _)))
          (part _ (.tail _ (.tail _ (.head _))))
      | record fields => exact .record fun f hf => part f.2 (List.mem_map_of_mem hf)
      | tuple _ => exact .tuple part
      | convert _ t nullable => exact .convert (part _ (.head _)) t nullable
      | function name _ => exact .function part name
      | call operator _ note => exact .call part operator note
      | lambda params _ => exact .lambda (part _ (.head _)) params
      | rowRef r => exact .rowRef r
      | stream _ _ frame => exact .stream (part _ (.head _)) (part _ (.tail _ (.head _))) frame
      | nullSafeEqual guards _ _ =>
        exact .nullSafeEqual (fun c hc => part c (List.mem_append_left _ hc))
          (part _ (by simp [children])) (part _ (by simp [children]))
      | entityShape entity _ => exact .entityShape (part _ (.head _)) entity

/-- Reading the document of an expression gives the expression, so expressions with one document
are one expression. -/
theorem lossless_toJson (h : e.HasFiniteFloats) :
    ofJson? e.toJson = some e ∧ ∀ d : Expr, d.HasFiniteFloats → d.toJson = e.toJson → d = e := by
  have read {d : Expr} (hd : d.HasFiniteFloats) : ofJson? d.toJson = some d :=
    ofJsonWithin?_toJson hd (Nat.le_refl _)
  refine ⟨read h, fun d hd heq => ?_⟩
  have := read hd
  rw [heq, read h] at this
  exact (Option.some.inj this).symm

/-- Orders of a customer, written with every kind of note and with an operator of another name. -/
def notedOrders : Expr :=
  .stream
    (.call (.other "Chunk")
      [.call .join [.entitySet "Order", .entitySet "Customer",
          .lambda ["o"] (.tuple [.member (.param "o") "CustomerId"]),
          .lambda ["c"] (.tuple [.convert (.member (.param "c") "Id") .int true]),
          .lambda ["o", "c"] (.record [("outer", .param "o"), ("inner", .param "c")])]
          (some (.join { kind := .leftOuter, targetEntity := some "Customer", navigation := none,
                         outerKey := ["CustomerId"], innerKey := ["Id"], outerNullGuard := true })),
        .lambda ["t"] (.nullSafeEqual [.rowRef { source := ⟨0⟩, node := ⟨1⟩, path := ["Customer"] }]
          (.cond (.not (.const (.boolean false))) (.const (.float 2.5)) (.const .null))
          (.binary .subtract (.const (.integer (-3))) (.function "abs" [.const (.text "x")])))]
      (some (.collection "Customer" "Orders")))
    (.entityShape "Order" (.call .first [.param "t"] (some .leftJoinFlatten)))
    { parameter := "t", sources := [⟨0⟩, ⟨2⟩], needsProjection := true, ordered := false,
      cardinality := some .first }

theorem lossless_notedOrders :
    notedOrders.HasFiniteFloats ∧ ofJson? notedOrders.toJson = some notedOrders ∧
      ∀ d : Expr, d.HasFiniteFloats → d.toJson = notedOrders.toJson → d = notedOrders := by
  have finite : notedOrders.HasFiniteFloats := by
    intro x hx
    obtain rfl : x = 2.5 := by
      simpa [notedOrders, nodes, itemsNodes, fieldsNodes] using hx
    decide
  exact ⟨finite, lossless_toJson finite⟩

/-- A float that is not finite is written as null, which is no float. -/
theorem ofJson?_toJson_float {x : Float} (h : x.isFinite = false) :
    ofJson? (const (.float x)).toJson = none := by
  change ofJson? (tagged "Constant" (tagged "Float" (.ofFloat x))) = none
  rw [Json.ofFloat, h]
  rfl

end Expr

end EntityQuery
