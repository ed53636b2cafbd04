import Packrat.Matcher
import Packrat.Value.Json

/-!
# A sample grammar

Numbers between commas, a bar, and groups: lists in parentheses, words in angle brackets, and three
signs that a code block answers for by itself. It shows each way in which a code block can take part
in a match: it makes a value, it vetoes a number (`13` is none) or a word that is too long, it
refuses a match with `null` so that the next alternative gets its turn, and it ends the parse with
an error.
-/

namespace Packrat.Sample

/-- Text of the grammar. -/
def text : String :=
  "start = list:list \"|\" groups:group* \x7b both \x7d\n"
    ++ "list = head:number tail:(\",\" n:number \x7b n \x7d)* \x7b join \x7d\n"
    ++ "number \"number\" = digits:[0-9]+ !\x7b unlucky \x7d \x7b digits \x7d\n"
    ++ "group\n"
    ++ "  = \"(\" inner:list? \")\" \x7b inner \x7d\n"
    ++ "  / \"<\" word:[a-z]i+ \">\" &\x7b short \x7d \x7b word \x7d\n"
    ++ "  / \"@\" \x7b offset \x7d\n"
    ++ "  / \"!\" \x7b bang \x7d\n"
    ++ "  / \"~\" \x7b refuse \x7d\n"
    ++ "  / \"~\" \"~\"\n"

/-- The value of a label in view, or `null`. -/
def label (cx : Context) (name : String) : Value := (cx.label? name).getD .null

/-- The items of a value, or none. -/
def items (v : Value) : List Value := v.items?.getD []

/-- The code of the grammar. -/
def actions : Actions :=
  ({} : Actions)
  |>.action "both" (fun cx =>
    .ok (.str ((label cx "list").compact ++ "|" ++ (label cx "groups").compact)))
  |>.action "n" (fun cx => .ok (label cx "n"))
  |>.action "join" (fun cx => .ok (.arr (label cx "head" :: items (label cx "tail"))))
  |>.predicate "unlucky" (fun cx => .ok ((label cx "digits").text == "13"))
  |>.action "digits" (fun cx => .ok (.str (label cx "digits").text))
  |>.action "inner" (fun cx => .ok (label cx "inner"))
  |>.predicate "short" (fun cx => .ok ((items (label cx "word")).length ≤ 3))
  |>.action "word" (fun cx => .ok (.str (label cx "word").text))
  |>.action "offset" (fun cx => .ok (.int cx.offset))
  |>.action "bang" (fun _ => .error "bang")
  |>.action "refuse" (fun _ => .ok .null)

/-- The matcher of the grammar. -/
def matcher (options : Options) : Except BuildFailure Matcher := buildMatcher text actions options

end Packrat.Sample
