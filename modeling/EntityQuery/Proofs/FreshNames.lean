import EntityQuery.Expr.Basic
import EntityQuery.Proofs.Names

/-!
# Generated names

A generated name is one letter and a number that no generated name had before. `OldName k x` says
that `x` is not generated after the `k`-th name, so that later names differ from it. Names that do
not end in a digit are never generated.
-/

namespace EntityQuery

/-- The name that is generated from a letter and a number. -/
def generatedName (letter : Char) (n : Nat) : String := String.singleton letter ++ toString n

/-- The name is none of those that are generated after the `k`-th. -/
def OldName (k : Nat) (x : String) : Prop := ∀ letter n, k < n → x ≠ generatedName letter n

/-- The last character of a name is a digit. -/
def endsInDigit (x : String) : Bool := x.toList.getLast?.any Char.isDigit

theorem toList_generatedName (letter : Char) (n : Nat) :
    (generatedName letter n).toList = letter :: Nat.toDigits 10 n := by
  simp [generatedName]

theorem generatedName_inj {a b : Char} {m n : Nat} (h : generatedName a m = generatedName b n) :
    m = n := by
  have := congrArg String.toList h
  rw [toList_generatedName, toList_generatedName, List.cons.injEq] at this
  rw [← Nat.ofDigitChars_ten_toDigits (n := m), this.2, Nat.ofDigitChars_ten_toDigits]

theorem getLast?_toDigits (n : Nat) : (Nat.toDigits 10 n).getLast? = some (n % 10).digitChar := by
  rw [Nat.toDigits_eq_if (by decide)]
  split
  · next h => rw [Nat.mod_eq_of_lt h, List.getLast?_singleton]
  · rw [List.getLast?_concat]

/-- Names that end in numbers are different if the last digits are. -/
theorem append_number_ne {x y : String} {m n : Nat} (h : m % 10 ≠ n % 10) :
    x ++ toString m ≠ y ++ toString n := by
  have last (x : String) (n : Nat) : (x ++ toString n).toList.getLast? = some (n % 10).digitChar := by
    have hne := Nat.toDigits_ne_nil (n := n) (b := 10)
    rw [String.toList_append, Nat.toString_eq_repr, Nat.toList_repr, List.getLast?_append_of_ne_nil _ hne,
      getLast?_toDigits]
  have digits : ∀ a < 10, ∀ b < 10, Nat.digitChar a = Nat.digitChar b → a = b := by decide
  intro heq
  have := (last x m).symm.trans ((congrArg (·.toList.getLast?) heq).trans (last y n))
  exact h (digits _ (Nat.mod_lt _ (by decide)) _ (Nat.mod_lt _ (by decide)) (Option.some.inj this))

namespace OldName

variable {k l : Nat} {x : String}

theorem mono (h : OldName k x) (hkl : k ≤ l) : OldName l x :=
  fun letter n hn => h letter n (Nat.lt_of_le_of_lt hkl hn)

/-- A generated name is old from then on. -/
theorem generated (letter : Char) (n : Nat) : OldName n (generatedName letter n) := by
  intro b m hm heq
  have := generatedName_inj heq
  omega

/-- Every name is old at some time. -/
theorem exists_of (x : String) : ∃ k, OldName k x := by
  by_cases h : ∃ letter n, x = generatedName letter n
  · obtain ⟨letter, n, rfl⟩ := h
    exact ⟨n, generated letter n⟩
  · exact ⟨0, fun letter n _ heq => h ⟨letter, n, heq⟩⟩

theorem singleton (c : Char) : OldName k (String.singleton c) := by
  intro letter n _ heq
  have := congrArg String.toList heq
  rw [toList_generatedName] at this
  have := congrArg List.length this
  have := Nat.length_toDigits_pos (b := 10) (n := n)
  simp only [String.toList_singleton, List.length_cons, List.length_nil] at *
  omega

/-- A name that does not end in a digit is never generated. -/
theorem of_not_endsInDigit (h : endsInDigit x = false) : OldName k x := by
  rintro letter n _ rfl
  rw [endsInDigit, toList_generatedName] at h
  have hne := Nat.toDigits_ne_nil (n := n) (b := 10)
  rw [List.getLast?_cons_of_ne_nil hne, List.getLast?_eq_some_getLast hne, Option.any_some] at h
  have := Nat.isDigit_of_mem_toDigits (by decide) (by decide) (List.getLast_mem hne)
  rw [this] at h
  cases h

theorem rowParameter (entity : String) : OldName k (rowParameter entity) := by
  rw [EntityQuery.rowParameter]
  split
  · exact singleton 'x'
  · exact singleton _

end OldName

/-- The name of a row parameter is one letter. -/
theorem rowParameter_eq (entity : String) : ∃ letter, rowParameter entity = String.singleton letter := by
  rw [rowParameter]
  split
  · exact ⟨'x', rfl⟩
  · exact ⟨_, rfl⟩

/-- All names of an expression are old. -/
def Expr.NamesOld (k : Nat) (e : Expr) : Prop := ∀ x ∈ e.names, OldName k x

namespace Expr.NamesOld

variable {k l : Nat} {e c : Expr}

theorem mono (h : e.NamesOld k) (hkl : k ≤ l) : e.NamesOld l := fun x hx => (h x hx).mono hkl

theorem child (h : e.NamesOld k) (hc : c ∈ e.children) : c.NamesOld k :=
  fun x hx => h x (mem_names_of_child hc hx)

theorem of_parts (own : ∀ x ∈ e.ownNames, OldName k x) (parts : ∀ c ∈ e.children, c.NamesOld k) :
    e.NamesOld k := by
  intro x hx
  rcases mem_names_iff.1 hx with hx | ⟨c, hc, hx⟩
  · exact own x hx
  · exact parts c hc x hx

/-- A name that is generated next does not occur. -/
theorem fresh (h : e.NamesOld k) (letter : Char) : generatedName letter (k + 1) ∉ e.names :=
  fun hx => h _ hx letter (k + 1) (Nat.lt_succ_self k) rfl

end Expr.NamesOld

/-- A run of `freshName` on a single letter. -/
theorem Runs.freshName_letter {M : Model} {p p' : Progress} {letter : Char} {name : String} :
    Runs (Expansion.freshName (String.singleton letter)) M p name p' ↔
      name = generatedName letter (p.names + 1) ∧ p' = { p with names := p.names + 1 } :=
  Runs.freshName_iff

end EntityQuery
