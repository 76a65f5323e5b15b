import AssetQuery.Json.Basic
import AssetQuery.Number.Text
import AssetQuery.Time
import AssetQuery.Value.Basic

/-!
# The text of a value

Values are shown as JSON; a resource by itself is shown by its name and id.
-/

namespace AssetQuery.Value

mutual

def toJson : Value → Json
  | nil => .null
  | bool b => .bool b
  | int n => .ofInt n.toInt
  | float x => if x.isFinite then .number (NumberLayout.json.write x) else .null
  | string s => .ofText s
  | time t => .ofText t.text
  | array items => .array (itemsJson items)
  | map entries => .object (entriesJson entries)
  | resource name id => .ofMembers [("id", .ofText id), ("resource", .ofText name)]
  | ref r => .ofInt r.toInt
  | function r => .ofInt r.toInt

def itemsJson : List Value → List Json
  | [] => []
  | v :: rest => v.toJson :: itemsJson rest

def entriesJson : List (String × Value) → List (String × Json)
  | [] => []
  | (key, v) :: rest => (Json.spell key, v.toJson) :: entriesJson rest

end

/-- How a value shows in an id. -/
def text : Value → String
  | nil => "null"
  | resource name id => name ++ " id = " ++ id
  | v => v.toJson.compact

end AssetQuery.Value
