import Mathlib
import EntityQuery.Proofs.Merges
import EntityQuery.Proofs.Roots

/-!
# When generated names repeat

A generated name is a base and the next number. No two calls get the same number, but a name is a text,
and a base may end in digits: `o1` with the fifth number and `o` with the fifteenth are one name. Names
meet in this way only (`NameCall.name_eq_iff`). So they are different from each other if the bases are
letters and names that do not end in a digit, and within ten calls, of which one merge makes at most four.
-/

namespace EntityQuery

open EntityQuery.Expr

section Digits

variable {x y : String} {m n : Nat}

/-- Digits in front of a number make it no smaller. -/
theorem le_of_toDigits_eq_append {digits : List Char}
    (h : Nat.toDigits 10 m = digits ++ Nat.toDigits 10 n) : n ≤ m := by
  calc
    n = Nat.ofDigitChars 10 (Nat.toDigits 10 n) 0 := Nat.ofDigitChars_ten_toDigits.symm
    _ ≤ 10 ^ (Nat.toDigits 10 n).length * Nat.ofDigitChars 10 digits 0 +
        Nat.ofDigitChars 10 (Nat.toDigits 10 n) 0 := Nat.le_add_left _ _
    _ = Nat.ofDigitChars 10 (Nat.toDigits 10 n) (Nat.ofDigitChars 10 digits 0) :=
      Nat.ofDigitChars_eq_ofDigitChars_zero.symm
    _ = Nat.ofDigitChars 10 (Nat.toDigits 10 m) 0 := by rw [h, Nat.ofDigitChars_append]
    _ = m := Nat.ofDigitChars_ten_toDigits

/-- Texts that end in numbers are equal if what the first has in front of the smaller number stands, in the
second, partly in the text and partly in the larger number. -/
theorem append_number_eq_iff (h : m < n) : x ++ toString m = y ++ toString n ↔
    ∃ digits, x = y ++ digits ∧ toString n = digits ++ toString m := by
  constructor
  · intro heq
    have chars : x.toList ++ Nat.toDigits 10 m = y.toList ++ Nat.toDigits 10 n := by
      simpa using congrArg String.toList heq
    rcases List.append_eq_append_iff.1 chars with ⟨digits, -, hm⟩ | ⟨digits, hx, hn⟩
    · -- The smaller number does not end in the larger one.
      exact absurd (le_of_toDigits_eq_append hm) (Nat.not_le.2 h)
    · refine ⟨String.ofList digits, ?_, ?_⟩
      · apply String.toList_injective
        simpa using hx
      · apply String.toList_injective
        simpa using hn
  · rintro ⟨digits, rfl, hn⟩
    rw [hn, String.append_assoc]

end Digits

/-- A call of `freshName`: the base, and the number that is put behind it. -/
structure NameCall where
  base : String
  number : Nat
  deriving DecidableEq, Repr

namespace NameCall

/-- The name that is generated. -/
def name (c : NameCall) : String := c.base ++ toString c.number

/-- The later number begins with the digits by which the earlier base is longer than the later one, and
goes on with the earlier number. -/
def Anticipates (c d : NameCall) : Prop :=
  ∃ digits, c.base = d.base ++ digits ∧ toString d.number = digits ++ toString c.number

variable {c d : NameCall}

/-- An earlier call and a later one generate one name if the earlier one anticipates the later one. -/
theorem name_eq_iff (h : c.number < d.number) : c.name = d.name ↔ c.Anticipates d :=
  append_number_eq_iff h

example : name ⟨"o1", 5⟩ = name ⟨"o", 15⟩ := by decide

namespace Anticipates

/-- What is anticipated are digits, and at least one. -/
theorem exists_digits (h : c.Anticipates d) (hlt : c.number < d.number) :
    ∃ digits : List Char, c.base.toList = d.base.toList ++ digits ∧ digits ≠ [] ∧
      ∀ digit ∈ digits, digit.isDigit = true := by
  obtain ⟨digits, hbase, hnumber⟩ := h
  have chars : Nat.toDigits 10 d.number = digits.toList ++ Nat.toDigits 10 c.number := by
    simpa using congrArg String.toList hnumber
  refine ⟨digits.toList, ?_, ?_, ?_⟩
  · rw [hbase, String.toList_append]
  · intro hnil
    rw [hnil, List.nil_append] at chars
    exact Nat.not_le.2 hlt (le_of_toDigits_eq_append (chars.symm.trans (List.nil_append _).symm))
  · intro digit hdigit
    have hmem : digit ∈ Nat.toDigits 10 d.number := chars ▸ List.mem_append_left _ hdigit
    exact Nat.isDigit_of_mem_toDigits (by decide) (by decide) hmem

theorem endsInDigit_base (h : c.Anticipates d) (hlt : c.number < d.number) : endsInDigit c.base = true := by
  obtain ⟨digits, hbase, hne, isDigit⟩ := h.exists_digits hlt
  rw [endsInDigit, hbase, List.getLast?_append_of_ne_nil _ hne, List.getLast?_eq_some_getLast hne,
    Option.any_some]
  exact isDigit _ (List.getLast_mem hne)

theorem length_lt (h : c.Anticipates d) (hlt : c.number < d.number) : d.base.length < c.base.length := by
  obtain ⟨digits, hbase, hne, -⟩ := h.exists_digits hlt
  have := List.length_pos_of_ne_nil hne
  rw [← String.length_toList, ← String.length_toList, hbase, List.length_append]
  omega

theorem mod_ten (h : c.Anticipates d) (hlt : c.number < d.number) : c.number % 10 = d.number % 10 := by
  by_contra hne
  exact append_number_ne hne ((name_eq_iff hlt).2 h)

end Anticipates

/-- Names with ascending numbers are different if no call anticipates a later one, and only then. -/
theorem nodup_names_iff {calls : List NameCall} (h : calls.Pairwise (·.number < ·.number)) :
    (calls.map name).Nodup ↔ calls.Pairwise fun c d => ¬ c.Anticipates d := by
  rw [List.Nodup, List.pairwise_map]
  constructor
  · intro apart
    exact (h.and apart).imp fun ⟨hlt, hne⟩ anticipates => hne ((name_eq_iff hlt).2 anticipates)
  · intro apart
    exact (h.and apart).imp fun ⟨hlt, hnot⟩ heq => hnot ((name_eq_iff hlt).1 heq)

end NameCall

/-- The calls for these bases after the `k`-th name. -/
def nameCalls : Nat → List String → List NameCall
  | _, [] => []
  | k, base :: bases => ⟨base, k + 1⟩ :: nameCalls (k + 1) bases

section Calls

variable {M N : Model} {p p' q q' : Progress} {k : Nat} {bases : List String} {c : NameCall}

theorem range_of_mem_nameCalls (h : c ∈ nameCalls k bases) :
    c.base ∈ bases ∧ k < c.number ∧ c.number ≤ k + bases.length := by
  induction bases generalizing k with
  | nil => cases h
  | cons base bases ih =>
    rw [List.length_cons]
    rcases List.mem_cons.1 h with rfl | h
    · exact ⟨.head _, Nat.lt_succ_self k, by dsimp only; omega⟩
    · obtain ⟨hbase, hlt, hle⟩ := ih h
      exact ⟨.tail _ hbase, by omega, by omega⟩

theorem nameCalls_ascending (k : Nat) (bases : List String) :
    (nameCalls k bases).Pairwise (·.number < ·.number) := by
  induction bases generalizing k with
  | nil => exact .nil
  | cons base bases ih => exact .cons (fun c hc => (range_of_mem_nameCalls hc).2.1) (ih (k + 1))

theorem length_nameCalls (k : Nat) (bases : List String) : (nameCalls k bases).length = bases.length := by
  induction bases generalizing k with
  | nil => rfl
  | cons base bases ih => exact congrArg (· + 1) (ih (k + 1))

theorem nameCalls_append (k : Nat) (bases further : List String) :
    nameCalls k (bases ++ further) = nameCalls k bases ++ nameCalls (k + bases.length) further := by
  induction bases generalizing k with
  | nil => rfl
  | cons base bases ih =>
    rw [List.cons_append, nameCalls, nameCalls, ih, List.cons_append, List.length_cons, Nat.add_assoc,
      Nat.add_comm 1]

/-- Calls of `freshName` succeed, one after another, and change nothing but the count of names. -/
theorem Runs.freshNames (M : Model) (p : Progress) (bases : List String) :
    Runs (bases.mapM Expansion.freshName) M p ((nameCalls p.names bases).map NameCall.name)
      { p with names := p.names + bases.length } := by
  induction bases generalizing p with
  | nil => exact Runs.pure_iff.2 ⟨rfl, rfl⟩
  | cons base bases ih =>
    rw [List.mapM_cons]
    refine Runs.bind_iff.2 ⟨_, _, Runs.freshName_iff.2 ⟨rfl, rfl⟩, Runs.bind_iff.2 ⟨_, _, ih _, ?_⟩⟩
    refine Runs.pure_iff.2 ⟨rfl, ?_⟩
    simp only [List.length_cons, Nat.add_assoc, Nat.add_comm 1]

/-- Two calls of an expansion, whatever happens between them. -/
theorem Runs.freshName_eq_iff {x y a b : String} (h : Runs (Expansion.freshName x) M p a p')
    (between : p'.names ≤ q.names) (h' : Runs (Expansion.freshName y) N q b q') :
    a = b ↔ NameCall.Anticipates ⟨x, p'.names⟩ ⟨y, q'.names⟩ := by
  obtain ⟨rfl, rfl⟩ := Runs.freshName_iff.1 h
  obtain ⟨rfl, rfl⟩ := Runs.freshName_iff.1 h'
  exact NameCall.name_eq_iff (c := ⟨x, p.names + 1⟩) (d := ⟨y, q.names + 1⟩) (Nat.lt_succ_of_le between)

theorem nodup_of_not_anticipates (h : ∀ c ∈ nameCalls k bases, ∀ d ∈ nameCalls k bases,
    c.number < d.number → ¬ c.Anticipates d) : ((nameCalls k bases).map NameCall.name).Nodup := by
  have ascending := nameCalls_ascending k bases
  exact (NameCall.nodup_names_iff ascending).2 (ascending.imp_of_mem fun hc hd => h _ hc _ hd)

/-- Single letters, and names that do not end in a digit, are safe bases. -/
theorem nodup_of_letters_and_digitless
    (h : ∀ base ∈ bases, base.length = 1 ∨ base ≠ "" ∧ endsInDigit base = false) :
    ((nameCalls k bases).map NameCall.name).Nodup := by
  refine nodup_of_not_anticipates ?_
  intro c hc d hd hlt anticipates
  rcases h c.base (range_of_mem_nameCalls hc).1 with hletter | ⟨-, hdigitless⟩
  · have hempty : d.base.length = 0 := by
      have := anticipates.length_lt hlt
      omega
    rcases h d.base (range_of_mem_nameCalls hd).1 with hletter | ⟨hne, -⟩
    · omega
    · exact hne (String.length_eq_zero_iff.1 hempty)
  · rw [anticipates.endsInDigit_base hlt] at hdigitless
    cases hdigitless

/-- Names that are generated within ten calls differ in their last digits. -/
theorem nodup_of_length_le_ten (h : bases.length ≤ 10) : ((nameCalls k bases).map NameCall.name).Nodup := by
  refine nodup_of_not_anticipates ?_
  intro c hc d hd hlt anticipates
  have := anticipates.mod_ten hlt
  have := range_of_mem_nameCalls hc
  have := range_of_mem_nameCalls hd
  omega

end Calls

section Merges

/-- What a merge generates the name of its inner rows from, if it renames them. -/
def renamedBases (outer inner : Stream) : List String :=
  if inner.parameter = outer.parameter then [inner.parameter] else []

/-- What a join generates names from. -/
def JoinKind.bases : JoinKind → List String
  | .inner => []
  | .leftOuter => ["g", "t"]

variable (p : Progress) (outer inner : Stream) (kind : JoinKind)

theorem renamedRows_eq (k : Nat) :
    renamedRows outer inner k = (nameCalls k (renamedBases outer inner)).map NameCall.name := by
  by_cases hclash : inner.parameter = outer.parameter
  · rw [renamedRows, renamedBases, if_pos hclash, if_pos hclash, mergedName, if_pos hclash]
    rfl
  · rw [renamedRows, renamedBases, if_neg hclash, if_neg hclash]
    rfl

theorem JoinKind.names_eq (k : Nat) : kind.names k = (nameCalls k kind.bases).map NameCall.name := by
  cases kind <;> rfl

theorem mergeNames_eq : mergeNames p outer inner kind =
    (nameCalls p.names (renamedBases outer inner ++ kind.bases ++ ["t"])).map NameCall.name := by
  rw [mergeNames, renamedRows_eq, JoinKind.names_eq, nameCalls_append, nameCalls_append, List.map_append,
    List.map_append, List.length_append]
  simp only [List.length_map, length_nameCalls, ← Nat.add_assoc]
  rfl

/-- The names that a merge generates are different from each other, whatever the streams call their rows. -/
theorem mergeNames_nodup : (mergeNames p outer inner kind).Nodup := by
  rw [mergeNames_eq]
  refine nodup_of_length_le_ten ?_
  have renamed : (renamedBases outer inner).length ≤ 1 := by
    rw [renamedBases]
    split
    · exact Nat.le_refl 1
    · exact Nat.zero_le 1
  have grouping : kind.bases.length ≤ 2 := by cases kind <;> decide
  simp only [List.length_append, List.length_cons, List.length_nil]
  omega

end Merges

/-- Any sequence of calls of `freshName` succeeds. The names are different from each other if no call
anticipates a later one, and only then; so they are if the bases are letters and names that do not end in a
digit. -/
theorem freshNames_nodup_iff (M : Model) (p : Progress) (bases : List String) :
    ∃ names, Runs (bases.mapM Expansion.freshName) M p names
        { p with names := p.names + bases.length } ∧
      (names.Nodup ↔ (nameCalls p.names bases).Pairwise fun c d => ¬ c.Anticipates d) ∧
      ((∀ base ∈ bases, base.length = 1 ∨ base ≠ "" ∧ endsInDigit base = false) → names.Nodup) :=
  ⟨_, Runs.freshNames M p bases, NameCall.nodup_names_iff (nameCalls_ascending p.names bases),
    nodup_of_letters_and_digitless⟩

/-- The names that are bound again within the body of a lambda that binds them. -/
def Expr.reboundNames (e : Expr) : List String :=
  e.nodes.flatMap fun
    | .lambda params body => params.filter fun x => body.nodes.any fun
      | .lambda params _ => params.contains x
      | _ => false
    | _ => []

namespace Shop

/-- Orders whose buyers have a name. -/
def namedBuyers : Expr :=
  .call .filter [.entitySet "Order",
    .lambda ["o1"] (.ne (.member (.member (.param "o1") "Buyer") "Name") (.string ""))] none

/-- For each order `u`, the pairs of orders `a`, `b` of which `b` is cheaper than `u` and the referrer of
the referrer of the buyer of `a` is not Bob. -/
def cheaperPairs : Expr :=
  let cheaper := Expr.call .any [.entitySet "Order", .lambda ["y"] (.and
    (.eq (.member (.param "y") "Id") (.member (.param "b") "Id"))
    (.binary .less (.member (.param "y") "Total") (.member (.param "u") "Total")))] none
  let pairs := Expr.call .join [namedBuyers, namedBuyers, .lambda ["a"] (.bool true),
    .lambda ["b"] cheaper, .lambda ["a", "b"] (.record [("A", .param "a"), ("B", .param "b")])] none
  let referrer := ["A", "Buyer", "Referrer", "Referrer", "Name"]
  .call .select [.entitySet "Order", .lambda ["u"] (.record [
    ("Id", .member (.param "u") "Id"),
    ("Pairs", .call .count [.call .filter [pairs,
      .lambda ["p"] (.ne (.readPath "p" referrer) (.string "Bob"))] none] none)])] none

/-- What names are generated from when these pairs are expanded: both streams are joined with their buyers
and merged, two referrers are joined, and the lambda over cheaper orders is renamed. -/
def basesOfPairs : List String :=
  ["c", "t", "c", "t", "o1", "t", "c", "g", "t", "t", "c", "g", "t", "t", "o"]

end Shop

/-- The inner rows of the merge are called `o15`, and so are the cheaper orders. -/
theorem freshNames_repeated :
    (∃ names p', Runs (Shop.basesOfPairs.mapM Expansion.freshName) ⟨Shop.catalog, {}⟩ {} names p' ∧
      ¬ names.Nodup) ∧
    "o15" ∉ Shop.cheaperPairs.names ∧
    ∃ q cause, expandQuery Shop.catalog {} Shop.cheaperPairs = .ok q ∧ "o15" ∈ q.query.reboundNames ∧
      q.query.evaluate Shop.tables = .error cause ∧ cause.isLostPath = true := by
  have rebound : ((expandQuery Shop.catalog {} Shop.cheaperPairs).toOption.any fun q =>
      q.query.reboundNames.contains "o15" && match q.query.evaluate Shop.tables with
        | .error cause => cause.isLostPath
        | .ok _ => false) = true := by decide +kernel
  obtain ⟨q, hq, hrebound⟩ := Except.exists_of_any rebound
  obtain ⟨hmem, hlost⟩ := Bool.and_eq_true_iff.1 hrebound
  refine ⟨⟨_, _, Runs.freshNames _ _ _, by decide +kernel⟩, by decide, q, ?_⟩
  split at hlost
  · next cause heval => exact ⟨cause, hq, List.contains_iff_mem.1 hmem, heval, hlost⟩
  · cases hlost

namespace Shop

/-- Orders and who referred their buyers, with a parameter of that name. -/
def referrersOfOrders (x : String) : Expr :=
  let buyer (x : String) : Expr := .member (.param x) "Buyer"
  .call .select [
    .call .filter [.entitySet "Order",
      .lambda [x] (.binary .notEqual (.member (buyer x) "Name") (.const (.text "")))] none,
    .lambda ["o"] (.record [("Number", .member (.param "o") "Id"),
      ("Referrer", .member (.member (buyer "o") "Referrer") "Name")])] none

end Shop

/-- The fourth generated name may be `g4`. A parameter of that name is then paired with itself, and
the rows are lost. -/
theorem evaluate_generatedName_lost : ∃ q q',
    expandQuery Shop.catalog {} (Shop.referrersOfOrders "o") = .ok q ∧
    expandQuery Shop.catalog {} (Shop.referrersOfOrders "g4") = .ok q' ∧
    q.query.evaluate Shop.tables = .ok (.list [
      .record [("Number", .int 10), ("Referrer", .null)],
      .record [("Number", .int 11), ("Referrer", .str "Ann")],
      .record [("Number", .int 12), ("Referrer", .str "Ann")]]) ∧
    q'.query.evaluate Shop.tables = .error (.notARecord "outer" (.list [])) := by
  have spelled : ((expandQuery Shop.catalog {} (Shop.referrersOfOrders "o")).toOption.map fun q =>
      q.query.evaluate Shop.tables) = some (.ok (.list [
        .record [("Number", .int 10), ("Referrer", .null)],
        .record [("Number", .int 11), ("Referrer", .str "Ann")],
        .record [("Number", .int 12), ("Referrer", .str "Ann")]])) := by cbv
  have lost : ((expandQuery Shop.catalog {} (Shop.referrersOfOrders "g4")).toOption.map fun q =>
      q.query.evaluate Shop.tables) = some (.error (.notARecord "outer" (.list []))) := by cbv
  obtain ⟨q, h, heval⟩ := exists_evaluation spelled
  obtain ⟨q', h', heval'⟩ := exists_evaluation lost
  exact ⟨q, q', h, h', heval, heval'⟩

end EntityQuery
