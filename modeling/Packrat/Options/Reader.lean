import Packrat.Options
import Packrat.Options.Json

/-!
# Options as JSON

Options are an object with the fields `cache` and `trackLineAndColumn`, or a list of the same two in
this order. Either may be missing, and fields of other names are passed over. A field that is given
twice is a problem even if both values agree.
-/

namespace Packrat.Options

open Json

/-- The fields read so far. -/
structure Given where
  cache : Option Bool := none
  trackLines : Option Bool := none

/-- The options with the fields that were given. -/
def Given.toOptions (g : Given) : Options := ⟨g.cache.getD false, g.trackLines.getD false⟩

/-- A truth value. -/
def boolean (i : Input) : Scan (Bool × Input) :=
  match i.peek with
  | (none, i) => i.failNext (.ended .value)
  | (some 't', i) => do return (true, ← word ['r', 'u', 'e'] (i.drop 1))
  | (some 'f', i) => do return (false, ← word ['a', 'l', 's', 'e'] (i.drop 1))
  | (some _, i) => .error (wrongKind "a boolean" i)

/-- The problem with a field that is given again. It is found once the name has been read, and
stands behind the end of the object if that follows at once. -/
def duplicate (name : String) (i : Input) : Problem :=
  match i.peek with
  | (some '}', i) => ⟨.duplicateField name, i.offset + 1⟩
  | (_, i) => ⟨.duplicateField name, i.offset⟩

/-- The value of a field of the name, behind the name. -/
def field (name : String) (g : Given) (i : Input) : Scan (Given × Input) := do
  match name with
  | "cache" =>
    if g.cache.isSome then throw (duplicate name i)
    let (b, i) ← boolean (← colon i)
    return ({ g with cache := some b }, i)
  | "trackLineAndColumn" =>
    if g.trackLines.isSome then throw (duplicate name i)
    let (b, i) ← boolean (← colon i)
    return ({ g with trackLines := some b }, i)
  | _ => return (g, ← pass (← colon i))

/-- Whether the name of a field follows, and the input in front of it. -/
def fieldFollows (first : Bool) (i : Input) : Scan (Bool × Input) :=
  match i.peek with
  | (none, i) => i.failNext (.ended .object)
  | (some '}', i) => .ok (false, i)
  | (some c, i) =>
    if first then if c = '"' then .ok (true, i) else i.failNext .keyNotString
    else if c = ',' then
      match (i.drop 1).peek with
      | (some '"', i) => .ok (true, i)
      | (some '}', i) => i.failNext .trailingComma
      | (some _, i) => i.failNext .keyNotString
      | (none, i) => i.failNext (.ended .value)
    else i.failNext .expectedObjectEnd

/-- The fields of an object up to its closing bracket, at most `bound` of them. -/
def fieldsWithin : (bound : Nat) → (first : Bool) → Given → Input → Scan (Given × Input)
  | 0, _, _, i => i.fail (.ended .object)
  | bound + 1, first, g, i => do
    let (follows, i) ← fieldFollows first i
    if follows then
      let (name, i) ← characters false (i.drop 1)
      let (g, i) ← field (String.ofList name) g i
      fieldsWithin bound false g i
    else return (g, i.drop 1)

/-- The next item of a list, if there is one. -/
def item (first : Bool) (i : Input) : Scan (Option Bool × Input) := do
  let some' := fun (i : Input) => do
    let (b, i) ← boolean i
    return (some b, i)
  match i.peek with
  | (none, i) => i.failNext (.ended .list)
  | (some ']', i) => return (none, i)
  | (some c, i) =>
    if first then some' i
    else if c = ',' then
      match (i.drop 1).peek with
      | (some ']', i) => i.failNext .trailingComma
      | (some _, i) => some' i
      | (none, i) => i.failNext (.ended .value)
    else i.failNext .expectedListEnd

/-- The closing bracket of a list. -/
def listEnd (i : Input) : Scan Input :=
  match i.peek with
  | (some ']', i) => .ok (i.drop 1)
  | (some ',', i) =>
    match (i.drop 1).peek with
    | (some ']', i) => i.failNext .trailingComma
    | (_, i) => i.failNext .trailingCharacters
  | (some _, i) => i.failNext .trailingCharacters
  | (none, i) => i.failNext (.ended .list)

/-- Options behind the opening bracket of a list. -/
def items (i : Input) : Scan (Given × Input) := do
  let (cache, i) ← item true i
  let (trackLines, i) ← match cache with
    | some _ => item false i
    | none => pure (none, i)
  return (⟨cache, trackLines⟩, ← listEnd i)

/-- Options, as an object or as a list. -/
def given (i : Input) : Scan (Given × Input) :=
  match i.peek with
  | (none, i) => i.failNext (.ended .value)
  | (some '{', i) => fieldsWithin (i.ahead.length + 1) true {} (i.drop 1)
  | (some '[', i) => items (i.drop 1)
  | (some _, i) => .error (wrongKind "struct Options" i)

/-- Reads options; nothing but blanks may follow them. -/
def ofJson (text : String) : Scan Options := do
  let (g, i) ← given ⟨0, text.toList⟩
  match i.peek with
  | (none, _) => return g.toOptions
  | (some _, i) => i.failNext .trailingCharacters

end Packrat.Options
