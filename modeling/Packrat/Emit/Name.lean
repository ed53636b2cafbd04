/-!
# Names in emitted source

Rule and label names may hold a `$`, may repeat, and may mean something else in Rust. A rule's
function and a label's parameter therefore get names of their own. Each wanted name is taken if it
is free and otherwise numbered, `name_2`, `name_3` and so on; among one more candidate than there
are names in use, one is free.

## Main results

* `fresh_notMem`: the chosen candidate is not in use
* `nodup_distinct`: the chosen names differ from one another, whatever was wanted
-/

namespace Packrat.Emit

/-- Words of Rust that may serve as names only with `r#` in front. -/
def keywords : List String := [
  "as", "async", "await", "break", "const", "continue", "dyn", "else", "enum", "extern", "false",
  "fn", "for", "if", "impl", "in", "let", "loop", "match", "mod", "move", "mut", "pub", "ref",
  "return", "static", "struct", "trait", "true", "type", "unsafe", "use", "where", "while",
  "abstract", "become", "box", "do", "final", "macro", "override", "priv", "try", "typeof",
  "unsized", "virtual", "yield", "gen"]

/-- Names that cannot serve even so, and those of the parameters that every code function has. -/
def reserved : List String :=
  ["self", "Self", "super", "crate", "_", "offset", "line", "column"]

/-- The name with `_` for every `$`. -/
def undollar (name : String) : String :=
  String.ofList (name.toList.map fun c => if c = '$' then '_' else c)

/-- The name that a label would like to have. -/
def identifier (label : String) : String :=
  let name := undollar label
  if name ∈ reserved then name ++ "_"
  else if name ∈ keywords then "r#" ++ name
  else name

/-- The candidates for a name in order: the name itself, then numbered from two on. -/
def candidate (base : String) : Nat → String
  | 0 => base
  | n + 1 => base ++ "_" ++ toString (n + 2)

/-- The first candidate that is not in use. -/
def fresh (used : List String) (base : String) : String :=
  (((List.range (used.length + 1)).map (candidate base)).find? (· ∉ used)).getD base

theorem toString_nat_injective {m n : Nat} (h : toString m = toString n) : m = n := by
  have h := congrArg (fun s => Nat.ofDigitChars 10 s.toList 0) h
  simpa [Nat.toString_eq_repr, Nat.toList_repr, Nat.ofDigitChars_toDigits] using h

theorem candidate_injective {base : String} {m n : Nat} (h : candidate base m = candidate base n) :
    m = n := by
  have grows : ∀ k, (candidate base (k + 1)).length ≠ base.length := by
    intro k
    have : (candidate base (k + 1)).length = base.length + 1 + (toString (k + 2)).length := by
      rw [candidate, String.length_append, String.length_append]
      rfl
    omega
  match m, n with
  | 0, 0 => rfl
  | 0, n + 1 => exact absurd (congrArg String.length h).symm (grows n)
  | m + 1, 0 => exact absurd (congrArg String.length h) (grows m)
  | m + 1, n + 1 =>
    have h : base ++ "_" ++ toString (m + 2) = base ++ "_" ++ toString (n + 2) := h
    have := toString_nat_injective ((String.append_right_inj _).mp h)
    omega

/-- Among one more candidate than there are names in use, one is free. -/
theorem exists_candidate_notMem (used : List String) (base : String) :
    ∃ n ≤ used.length, candidate base n ∉ used := by
  refine Decidable.byContradiction fun hn => ?_
  have hall : ∀ n ≤ used.length, candidate base n ∈ used := by
    intro n hle
    refine Decidable.byContradiction fun hm => hn ⟨n, hle, hm⟩
  have hnodup : ((List.range (used.length + 1)).map (candidate base)).Nodup := by
    rw [List.nodup_iff_pairwise_ne, List.pairwise_map]
    exact (List.nodup_range).imp fun hne h => hne (candidate_injective h)
  have hsub : (List.range (used.length + 1)).map (candidate base) ⊆ used := by
    intro s hs
    obtain ⟨n, hn, rfl⟩ := List.mem_map.mp hs
    exact hall n (by have := List.mem_range.mp hn; omega)
  have hle := hnodup.length_le_of_subset hsub
  rw [List.length_map, List.length_range] at hle
  omega

theorem fresh_notMem (used : List String) (base : String) : fresh used base ∉ used := by
  obtain ⟨n, hle, hn⟩ := exists_candidate_notMem used base
  unfold fresh
  cases hf : ((List.range (used.length + 1)).map (candidate base)).find? (· ∉ used) with
  | some s => simpa using List.find?_some hf
  | none =>
    have := List.find?_eq_none.mp hf (candidate base n)
      (List.mem_map.mpr ⟨n, List.mem_range.mpr (by omega), rfl⟩)
    simp [hn] at this

/-- Distinct names for the wanted ones, in order, none of them in use. -/
def distinct (used : List String) : List String → List String
  | [] => []
  | base :: bases =>
    let name := fresh used base
    name :: distinct (name :: used) bases

@[simp] theorem length_distinct (used bases : List String) :
    (distinct used bases).length = bases.length := by
  induction bases generalizing used with
  | nil => rfl
  | cons b bs ih => simp [distinct, ih]

theorem notMem_of_mem_distinct {used bases : List String} {s : String}
    (h : s ∈ distinct used bases) : s ∉ used := by
  induction bases generalizing used with
  | nil => simp [distinct] at h
  | cons b bs ih =>
    rcases List.mem_cons.mp h with rfl | h
    · exact fresh_notMem used b
    · exact fun hs => ih h (List.mem_cons_of_mem _ hs)

theorem nodup_distinct (used bases : List String) : (distinct used bases).Nodup := by
  induction bases generalizing used with
  | nil => exact List.nodup_nil
  | cons b bs ih =>
    exact List.nodup_cons.mpr ⟨fun h => notMem_of_mem_distinct h List.mem_cons_self, ih _⟩

/-- The functions of rules. -/
def ruleFunctions (rules : List String) : List String :=
  distinct [] (rules.map fun name => "parse_" ++ undollar name)

/-- The parameters of a code function for its labels. -/
def parameters (labels : List String) : List String := distinct [] (labels.map identifier)

end Packrat.Emit
