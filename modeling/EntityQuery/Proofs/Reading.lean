import EntityQuery.Proofs.Ends
import EntityQuery.Proofs.Resolving

/-!
# How resolving ends

Resolving reads rows and generates names, and reducing a query does nothing else either. What both keep
of the progress, and which errors they stop with, is therefore settled by what reading a row does
(`ReadsRows`).
-/

namespace EntityQuery

open EntityQuery.Expr

variable {M : Model} {p : Progress} {allowed : ExpansionError → Prop} {I : Progress → Prop} {e : Expr}

/-- Reading a row keeps `I` and stops with allowed errors only; so does generating a name. -/
structure ReadsRows (allowed : ExpansionError → Prop) (M : Model) (I : Progress → Prop) : Prop where
  name : ∀ {p : Progress}, I p → I { p with names := p.names + 1 }
  path : ∀ (scope : RowScope) (r : RowRef) {p : Progress}, I p →
    Ends allowed (scope.path r) M p fun _ q => I q
  row : ∀ (scope : RowScope) (r : RowRef) {p : Progress}, I p →
    Ends allowed (scope.readRow r) M p fun _ q => I q
  property : ∀ (scope : RowScope) (r : RowRef) (name : String) {p : Progress}, I p →
    Ends allowed (scope.readProperty r name) M p fun _ q => I q
  leftover : ∀ r, allowed (.leftoverRow .reduction r)

namespace ReadsRows

theorem resolveWith (h : ReadsRows allowed M I) {again : RowScope → Expr → Expansion Expr}
    (hagain : ∀ scope e {p}, I p → Ends allowed (again scope e) M p fun _ q => I q)
    (n : Nat) (hsize : e.size ≤ n) (scope : RowScope) (hp : I p) :
    Ends allowed (EntityQuery.resolveWith again scope e) M p fun _ q => I q := by
  induction n generalizing e scope p with
  | zero => cases e <;> simp [size] at hsize
  | succ n ih =>
    have part {c} (hc : c ∈ e.children) (scope : RowScope) {q : Progress} (hq : I q) :
        Ends allowed (EntityQuery.resolveWith again scope c) M q fun _ q' => I q' := by
      refine ih ?_ scope hq
      have := size_lt_of_mem_children hc
      omega
    have byParts (hkind : e.isResolvedByParts = true) :
        Ends allowed (EntityQuery.resolveWith again scope e) M p fun _ q => I q := by
      rw [resolveWith_parts hkind]
      exact (Ends.mapChildren (S := fun _ _ => True) hp fun c hc q hq =>
        (part hc scope hq).mono fun _ _ hq' => ⟨hq', trivial⟩).mono fun _ _ h => h.1
    cases e with
    | rowRef r =>
      rw [EntityQuery.resolveWith]
      split
      · exact h.row scope r hp
      · exact hp
    | member t name =>
      by_cases ht : ∃ r, t = .rowRef r
      · obtain ⟨r, rfl⟩ := ht
        rw [EntityQuery.resolveWith]
        split
        · exact h.property scope r name hp
        · exact hp
      · refine byParts ?_
        cases t with
        | rowRef r => exact absurd ⟨r, rfl⟩ ht
        | _ => rfl
    | lambda params body =>
      rw [EntityQuery.resolveWith]
      split
      · have smaller : ((Lambda.mk params body).rename scope.parameter
            (rowParameter scope.parameter ++ toString (p.names + 1))).body.size ≤ n := by
          rw [Lambda.size_body_rename]
          exact Nat.le_of_succ_le_succ hsize
        simp only [Ends.bind_iff, Ends.freshName_iff, Ends.pure_iff]
        exact ih smaller scope (h.name hp)
      · simp only [Ends.bind_iff, Ends.pure_iff]
        exact part (.head _) scope hp
    | stream rows selector frame =>
      rw [EntityQuery.resolveWith]
      simp only [Ends.bind_iff, Ends.forest_iff]
      split
      · simp only [Ends.bind_iff, Ends.pure_iff]
        refine (part (.tail _ (.head _)) _ hp).mono fun body q₁ h₁ => ?_
        exact (part (.head _) _ h₁).mono fun rows' q₂ h₂ => hagain _ _ h₂
      · simp only [Ends.bind_iff, Ends.pure_iff]
        exact part (.head _) _ hp
    | nullSafeEqual guards a b =>
      have guard (c) (hc : c ∈ guards) (q : Progress) (hq : I q) :
          Ends allowed ((scope.readGuard? c).getD (EntityQuery.resolveWith again scope c)) M q
            fun _ q' => I q' ∧ True := by
        have other := (part (c := c) (by simp [children, hc]) scope hq).mono
          (R := fun _ q' => I q' ∧ True) fun _ _ hq' => ⟨hq', trivial⟩
        cases c with
        | rowRef r =>
          simp only [RowScope.readGuard?]
          split
          · exact (h.path scope r hq).mono fun _ _ hq' => ⟨hq', trivial⟩
          · exact other
        | _ => exact other
      rw [EntityQuery.resolveWith]
      simp only [Ends.bind_iff, mapItemsIn_eq, Ends.pure_iff]
      refine (Ends.mapItems (S := fun _ _ => True) hp guard).both fun guards' q₁ h₁ _ => ?_
      refine (part (by simp [children]) _ h₁).mono fun a' q₂ h₂ => ?_
      exact part (by simp [children]) _ h₂
    | _ => exact byParts rfl

theorem resolve (h : ReadsRows allowed M I) (scope : RowScope) (e : Expr) (hp : I p) :
    Ends allowed (EntityQuery.resolve scope e) M p fun _ q => I q := by
  refine h.resolveWith (fun scope e p hp => ?_) _ (Nat.le_refl _) scope hp
  refine h.resolveWith (fun _ _ p hp => ?_) _ (Nat.le_refl _) scope hp
  exact Ends.pure_iff.2 hp

theorem reduce (h : ReadsRows allowed M I) (e : Expr) (hp : I p) :
    Ends allowed (EntityQuery.reduce e) M p fun _ q => I q := by
  induction e using children_induction generalizing p with
  | step e ih =>
    have byParts (hkind : e.isReducedByParts = true) :
        Ends allowed (EntityQuery.reduce e) M p fun _ q => I q := by
      rw [reduce_parts hkind]
      exact (Ends.mapChildren (S := fun _ _ => True) hp fun c hc q hq =>
        (ih c hc hq).mono fun _ _ hq' => ⟨hq', trivial⟩).mono fun _ _ h => h.1
    cases e with
    | rowRef r =>
      rw [EntityQuery.reduce]
      exact h.leftover r
    | stream rows selector frame =>
      rw [EntityQuery.reduce]
      simp only [Ends.bind_iff, Ends.forest_iff]
      split
      · simp only [Ends.bind_iff, Ends.pure_iff]
        refine (h.resolve frame.scope selector hp).mono fun body q₁ h₁ => ?_
        refine (ih rows (.head _) h₁).mono fun rows' q₂ h₂ => ?_
        unfold refuseRefs
        split
        · exact h₂
        · exact h.leftover _
      · simp only [Ends.bind_iff, Ends.pure_iff]
        exact ih rows (.head _) hp
    | _ => exact byParts rfl

/-- Nothing is counted when rows are read. -/
theorem tally (M : Model) (t : Tally) : ReadsRows (fun _ => True) M fun p => p.tally = t where
  name hp := hp
  path scope r p hp := by
    simp only [RowScope.path, Ends.bind_iff, Ends.forest_iff]
    split
    · exact hp
    · trivial
  row scope r p hp := by
    simp only [RowScope.readRow, RowScope.path, Ends.bind_iff, Ends.forest_iff]
    split
    · simp only [Ends.pure_iff, Ends.node_iff]
      split <;> exact hp
    · trivial
  property scope r name p hp := by
    simp only [RowScope.readProperty, RowScope.path, Ends.bind_iff, Ends.forest_iff]
    split
    · simp only [Ends.pure_iff, Ends.node_iff]
      split
      · refine Ends.bind_iff.2 (Ends.entityType_of (fun t _ => ?_) fun _ => trivial)
        split
        · trivial
        · exact hp
      · exact hp
    · trivial
  leftover _ := trivial

end ReadsRows

end EntityQuery
