/-
  The value that a list of tokens stands for.

  The reader goes through the tokens once. It keeps a stack of the arrays and objects it is
  inside of, and a state that says what may come next.
-/
import BootGuard.Json.Token

namespace BootGuard.Json

/-- An array or object that has been begun: the items before the current one, last one first,
or the members before the current one and the key of the current one. -/
inductive Frame
  | items (done : List Json)
  | members (done : List (String × Json)) (key : String)

/-- What may come next. -/
inductive Expecting
  /-- A value. -/
  | value
  /-- A value or the end of the array just begun. -/
  | firstItem
  /-- A key or the end of the object just begun. -/
  | firstKey
  /-- A key, with the members before it. -/
  | key (done : List (String × Json))
  /-- The colon behind a key. -/
  | colon (done : List (String × Json)) (key : String)
  /-- What follows a complete value. -/
  | after (j : Json)

/-- Reads the tokens on, inside of `stack`. -/
def readTokens (stack : List Frame) (state : Expecting) : List Token → Except Error Json
  | [] =>
    match state, stack with
    | .after j, [] => .ok j
    | _, _ => .error .malformedJson
  | t :: ts =>
    match state, t, stack with
    | .after j, .comma, .items done :: below => readTokens (.items (j :: done) :: below) .value ts
    | .after j, .endArray, .items done :: below =>
      readTokens below (.after (.arr (j :: done).reverse)) ts
    | .after j, .comma, .members done key :: below => readTokens below (.key (put key j done)) ts
    | .after j, .endObject, .members done key :: below =>
      readTokens below (.after (.obj (put key j done))) ts
    | .after _, _, _ => .error .malformedJson
    | .firstItem, .endArray, below => readTokens below (.after (.arr [])) ts
    | .firstKey, .endObject, below => readTokens below (.after (.obj [])) ts
    | .firstKey, .text s, below => readTokens below (.colon [] s) ts
    | .key done, .text s, below => readTokens below (.colon done s) ts
    | .colon done key, .colon, below => readTokens (.members done key :: below) .value ts
    | .firstKey, _, _ => .error .malformedJson
    | .key _, _, _ => .error .malformedJson
    | .colon _ _, _, _ => .error .malformedJson
    | .firstItem, t, below => readValue (.items [] :: below) t ts
    | .value, t, below => readValue below t ts
where
  /-- Reads on where a value is expected and `t` is the next token. -/
  readValue (stack : List Frame) (t : Token) (ts : List Token) : Except Error Json :=
    match t with
    | .text s => readTokens stack (.after (.str s)) ts
    | .scalar j => readTokens stack (.after j) ts
    | .beginArray => readTokens stack .firstItem ts
    | .beginObject => readTokens stack .firstKey ts
    | .longInteger => .error (.badValue .numeral)
    | _ => .error .malformedJson

/-- The value that a document stands for. -/
def parse (s : String) : Except Error Json := readTokens [] .value (tokens s)

end BootGuard.Json
