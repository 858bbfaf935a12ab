import CodeAtlas.Json.Printer
import CodeAtlas.Json.Reader
import CodeAtlas.Text.Utf8
/-!
Messages of remote procedure calls, one on a line: requests as they are read, and replies as they
are written.
-/

namespace CodeAtlas.Rpc

/-- A request. Without an id it is a notification, to which nobody replies. -/
structure Request where
  id : Option Json
  method : String
  params : Option Json

namespace Request

/-- A value that counts as absent if it is null. -/
def nonNull : Option Json → Option Json
  | some .null => none
  | v => v

/-- A request of the values of its fields. The version may be any text, and only the method has to
be there. -/
def ofFields? (version id method params : Option Json) : Option Request :=
  match version.getD (.str ""), method with
  | .str _, some (.str method) => some ⟨nonNull id, method, nonNull params⟩
  | _, _ => none

/-- The value of a key that may be there once; none if it is there more often. -/
def single? (key : String) (entries : List (String × Json)) : Option (Option Json) :=
  match entries.filter (·.1 == key) with
  | [] => some none
  | [(_, v)] => some (some v)
  | _ => none

/-- A request of the entries of an object. Other entries than those of its fields are passed
over. -/
def ofEntries? (entries : List (String × Json)) : Option Request := do
  let version ← single? "jsonrpc" entries
  let id ← single? "id" entries
  let method ← single? "method" entries
  let params ← single? "params" entries
  ofFields? version id method params

/-- The request of a line: an object, or the values of the fields in their order. -/
def parse? (line : String) : Option Request :=
  match Json.parseEntries? line with
  | some entries => ofEntries? entries
  | none =>
    match Json.parse? line with
    | some (.arr (version :: id :: method :: params)) =>
      if params.length ≤ 1 then ofFields? version id method params[0]? else none
    | _ => none

end Request

/-- What a request comes to. -/
inductive Outcome where
  | result (value : Json)
  | error (code : Int) (message : String)

/-- A reply to a request. -/
structure Reply where
  id : Json
  outcome : Outcome

namespace Reply

/-- The fields of a reply, in the order in which they are written: the version, the id and either a
result or an error. -/
def entries (r : Reply) : List (String × Json) :=
  [("jsonrpc", .str "2.0"), ("id", r.id),
    match r.outcome with
    | .result value => ("result", value)
    | .error code message => ("error", .ofEntries [("code", .int code), ("message", .str message)])]

/-- The line of a reply. -/
def line (r : Reply) : String :=
  "\x7b" ++ ",".intercalate (Json.compactEntries r.entries) ++ "\x7d\n"

end Reply

end CodeAtlas.Rpc
