import Nightingale.Models.Event

/-!
# Models/TagFilter — filters on an event's tags

A rule stores its filters as JSON text.  `ParseTagFilter` (`models/alert_mute.go`) compiles the
regular expressions and the value sets; the custom matchers of aggregation and of inhibition, two
copies of one text, then ask every filter of a list.  What the standard library does with JSON and
with regular expressions is left open (`Externals`).
-/

namespace Nightingale

/-- What `encoding/json` puts into an `interface{}`.  A number carries its `%v` text and the integer
`int(v)`, an object its `%v` text. -/
inductive Json where
  | null
  | bool (b : Bool)
  | num (text : String) (whole : ℤ)
  | str (s : String)
  | arr (items : List Json)
  | obj (text : String)

/-- The operators of a filter, `==`, `!=`, `=~`, `!~`, `in` and `not in`; any other text is carried
along. -/
inductive FilterFunc where
  | eq
  | ne
  | match
  | notMatch
  | isIn
  | notIn
  | other (text : String)

/-- `models.TagFilter`. -/
structure TagFilter where
  key : String
  func : FilterFunc
  op : FilterFunc := .other ""
  value : Json
  regexp : Option (String → Bool) := none
  vset : Finset String := ∅

/-- What is taken from the standard library: JSON texts and regular expressions. -/
structure Externals where
  unmarshalStrings : String → Except String (List String)
  unmarshalFilters : String → Except String (List TagFilter)
  marshalMap : GoMap String String → String
  compile : String → Except String (String → Bool)

namespace Json

/-- `%T`. -/
def typeName : Json → String
  | null => "<nil>"
  | bool _ => "bool"
  | num _ _ => "float64"
  | str _ => "string"
  | arr _ => "[]interface {}"
  | obj _ => "map[string]interface {}"

/-- The values an `in` filter accepts. -/
def values : Json → List String
  | str s => fieldsText s
  | arr items => items.filterMap fun
    | str s => some s
    | num _ whole => some (toString whole)
    | _ => none
  | null => fieldsText "<nil>"
  | bool b => fieldsText (if b then "true" else "false")
  | num text _ => fieldsText text
  | obj text => fieldsText text

end Json

/-- `ParseTagFilter`, on one filter. -/
def TagFilter.parse (ext : Externals) (f : TagFilter) : Except String TagFilter :=
  match f.func with
  | .match | .notMatch =>
    match f.value with
    | .str pattern => (ext.compile pattern).map fun re => { f with regexp := some re }
    | v => .error ("unsupported value type for regex: " ++ v.typeName)
  | .isIn | .notIn => .ok { f with vset := f.value.values.toFinset }
  | .eq | .ne | .other _ => .ok f

/-- `ParseTagFilter`. -/
def parseTagFilter (ext : Externals) (filters : List TagFilter) : Except String (List TagFilter) :=
  filters.mapM (TagFilter.parse ext)

namespace Custom

/-- `matchSingleTagFilter`: an absent tag fails the positive operators and passes the negative
ones. -/
def matchSingleTagFilter (tags : GoMap String String) (f : TagFilter) : Bool :=
  match f.func, tags.lookup f.key with
  | .eq, none | .match, none | .isIn, none => false
  | .ne, none | .notMatch, none | .notIn, none => true
  | .eq, some val => match f.value with
    | .str s => val == s
    | _ => false
  | .ne, some val => match f.value with
    | .str s => val != s
    | _ => true
  | .match, some val => f.regexp.any fun re => re val
  | .notMatch, some val => f.regexp.all fun re => !re val
  | .isIn, some val => decide (val ∈ f.vset)
  | .notIn, some val => decide (val ∉ f.vset)
  | .other _, _ => false

/-- `matchAllTagFilters`. -/
def matchAllTagFilters (tags : GoMap String String) (filters : List TagFilter) : Bool :=
  filters.all (matchSingleTagFilter tags)

/-- The datasource scope of a rule: an empty list, a list that begins with 0 and an event without a
datasource are in scope. -/
def inDatasources (ids : List ℤ) (id : ℤ) : Bool :=
  match ids with
  | [] => true
  | first :: _ => first == 0 || id == 0 || ids.contains id

/-- The group scope of a rule, 0 for every group. -/
def inGroup (groupId id : ℤ) : Bool := groupId == 0 || groupId == id

end Custom

end Nightingale
