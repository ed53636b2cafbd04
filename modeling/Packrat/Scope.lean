/-!
# Scopes of labels

A scope lists the labels bound in one stretch of a grammar, in the order of their first use, each
with what it stands for: the slot of its value while slots are being assigned, the value itself
while a text is being matched. Scopes nest, innermost first. What a code block sees of them is one
list: outer labels come first, and an inner label hides an outer one of its name and takes its
place in the order.

## Main results

* `map_fst_rebind`: binding a name again keeps the order of the names
* `Scope.inView_map`: what is in view does not depend on what the labels stand for
-/

namespace Packrat

/-- The labels of one scope with what they stand for. -/
abbrev Scope (α : Type) := List (String × α)

namespace Scope

variable {α β : Type}

/-- Gives a name a new meaning, in the place it already has or else at the end. -/
def rebind (name : String) (a : α) : Scope α → Scope α
  | [] => [(name, a)]
  | (n, b) :: rest => if n = name then (n, a) :: rest else (n, b) :: rebind name a rest

/-- Binds labels one after the other. -/
def bindAll (seen labels : Scope α) : Scope α :=
  labels.foldl (fun seen label => seen.rebind label.1 label.2) seen

/-- The labels in view of nested scopes, outer ones first. An inner label hides an outer one of its
name and takes its place in the order. -/
def inView (scopes : List (Scope α)) : Scope α := bindAll [] scopes.reverse.flatten

theorem lookup_rebind (name key : String) (a : α) (labels : Scope α) :
    (labels.rebind name a).lookup key = if key = name then some a else labels.lookup key := by
  induction labels with
  | nil =>
    by_cases h : key = name
    · simp [rebind, h]
    · have : (key == name) = false := by simpa using h
      simp [rebind, List.lookup_cons, h, this]
  | cons p rest ih =>
    obtain ⟨n, b⟩ := p
    grind [rebind]

/-- A name keeps its place in the order; a new one goes behind the others. -/
theorem map_fst_rebind (name : String) (a : α) (labels : Scope α) :
    (labels.rebind name a).map Prod.fst =
      if name ∈ labels.map Prod.fst then labels.map Prod.fst
      else labels.map Prod.fst ++ [name] := by
  induction labels with
  | nil => simp [rebind]
  | cons p rest ih =>
    obtain ⟨n, b⟩ := p
    grind [rebind]

/-! ## What the labels stand for -/

theorem mem_of_mem_rebind {name : String} {a : α} {labels : Scope α}
    {label : String × α} (h : label ∈ labels.rebind name a) :
    label.2 = a ∨ ∃ old ∈ labels, old.2 = label.2 := by
  induction labels with
  | nil =>
    rw [rebind, List.mem_singleton] at h
    exact .inl (congrArg Prod.snd h)
  | cons entry rest ih =>
    rw [rebind] at h
    split at h
    · rcases List.mem_cons.mp h with rfl | h
      · exact .inl rfl
      · exact .inr ⟨label, List.mem_cons_of_mem _ h, rfl⟩
    · rcases List.mem_cons.mp h with rfl | h
      · exact .inr ⟨_, List.mem_cons_self, rfl⟩
      · rcases ih h with h | ⟨old, hold, heq⟩
        · exact .inl h
        · exact .inr ⟨old, List.mem_cons_of_mem _ hold, heq⟩

/-- What a label in view stands for, some label of a scope stands for. -/
theorem mem_of_mem_inView {scopes : List (Scope α)} {label : String × α}
    (h : label ∈ inView scopes) : ∃ scope ∈ scopes, ∃ old ∈ scope, old.2 = label.2 := by
  have hbind : ∀ (labels seen : Scope α), label ∈ bindAll seen labels →
      (∃ old ∈ seen, old.2 = label.2) ∨ ∃ old ∈ labels, old.2 = label.2 := by
    intro labels
    induction labels with
    | nil =>
      intro seen h
      exact .inl ⟨label, h, rfl⟩
    | cons entry rest ih =>
      intro seen h
      rcases ih (seen.rebind entry.1 entry.2) h with ⟨old, hold, heq⟩ | ⟨old, hold, heq⟩
      · rcases mem_of_mem_rebind hold with h | ⟨older, hmem, h⟩
        · exact .inr ⟨entry, List.mem_cons_self, h.symm.trans heq⟩
        · exact .inl ⟨older, hmem, h.trans heq⟩
      · exact .inr ⟨old, List.mem_cons_of_mem _ hold, heq⟩
  rcases hbind _ _ h with ⟨old, hold, -⟩ | ⟨old, hold, heq⟩
  · nomatch hold
  · obtain ⟨scope, hscope, hold⟩ := List.mem_flatten.mp hold
    exact ⟨scope, List.mem_reverse.mp hscope, old, hold, heq⟩


/-- The scope with something else for each label. -/
def mapSnd (f : α → β) (labels : Scope α) : Scope β := labels.map (Prod.map id f)

@[simp] theorem mapSnd_nil (f : α → β) : mapSnd f [] = [] := rfl

@[simp] theorem mapSnd_cons (f : α → β) (p : String × α) (labels : Scope α) :
    mapSnd f (p :: labels) = (p.1, f p.2) :: mapSnd f labels := rfl

theorem rebind_mapSnd (f : α → β) (name : String) (a : α) (labels : Scope α) :
    (labels.mapSnd f).rebind name (f a) = (labels.rebind name a).mapSnd f := by
  induction labels with
  | nil => rfl
  | cons p rest ih =>
    simp only [mapSnd_cons, rebind]
    split
    · rfl
    · rw [ih, mapSnd_cons]

theorem bindAll_mapSnd (f : α → β) (seen labels : Scope α) :
    bindAll (seen.mapSnd f) (labels.mapSnd f) = (bindAll seen labels).mapSnd f := by
  induction labels generalizing seen with
  | nil => rfl
  | cons p rest ih => exact (congrArg (bindAll · _) (rebind_mapSnd f p.1 p.2 seen)).trans (ih _)

theorem inView_map (f : α → β) (scopes : List (Scope α)) :
    inView (scopes.map (mapSnd f)) = (inView scopes).mapSnd f := by
  have flat : (scopes.map (mapSnd f)).reverse.flatten = mapSnd f scopes.reverse.flatten := by
    rw [← List.map_reverse, mapSnd, List.map_flatten]
    rfl
  rw [inView, inView, flat]
  exact bindAll_mapSnd f [] _

end Scope

end Packrat
