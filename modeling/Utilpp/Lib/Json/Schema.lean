import Utilpp.Lib.Json.Reader

/-!
# JSON Schema

The keywords of draft 4 that constrain types and members. A schema object holds when all its
keywords do (`all`), and keywords about members say nothing about values that are no objects.
-/

namespace Utilpp.Lib.Json

variable {σ ν : Type}

/-- The names that `"type"` knows. -/
inductive JsonType where
  | null
  | boolean
  | number
  | string
  | array
  | object
  deriving DecidableEq, Repr

def Tree.jsonType : Tree σ ν → JsonType
  | .null => .null
  | .bool _ => .boolean
  | .num _ => .number
  | .str _ => .string
  | .arr _ => .array
  | .obj _ => .object

/-- A schema: `all` is a schema object with its keywords, `property` one entry of
`"properties"`. -/
inductive Schema (σ : Type) where
  | all (keywords : List (Schema σ))
  | type (name : JsonType)
  | property (key : σ) (schema : Schema σ)
  | required (keys : List σ)
  | oneOf (schemas : List (Schema σ))
  | not (schema : Schema σ)

/-- The members of an object; other values have none. -/
def Tree.members : Tree σ ν → List (σ × Tree σ ν)
  | .obj members => members
  | _ => []

/-- The value of the first member with a key. -/
def Tree.find [DecidableEq σ] (key : σ) (v : Tree σ ν) : Option (Tree σ ν) :=
  (v.members.find? fun m => decide (m.1 = key)).map (·.2)

namespace Schema

variable [DecidableEq σ]

mutual

/-- Whether a value satisfies a schema. -/
def accepts : Schema σ → Tree σ ν → Bool
  | .all keywords, v => acceptsAll keywords v
  | .type name, v => decide (v.jsonType = name)
  | .property key schema, v => v.members.all fun m => !decide (m.1 = key) || accepts schema m.2
  | .required keys, v =>
      decide (v.jsonType ≠ .object) || keys.all fun key => (v.find key).isSome
  | .oneOf schemas, v => acceptedBy schemas v == 1
  | .not schema, v => !accepts schema v

def acceptsAll : List (Schema σ) → Tree σ ν → Bool
  | [], _ => true
  | schema :: schemas, v => accepts schema v && acceptsAll schemas v

/-- How many schemas of a list a value satisfies. -/
def acceptedBy : List (Schema σ) → Tree σ ν → Nat
  | [], _ => 0
  | schema :: schemas, v => (if accepts schema v then 1 else 0) + acceptedBy schemas v

end

variable {schema : Schema σ} {schemas : List (Schema σ)} {v : Tree σ ν}

theorem accepts_all : (all schemas).accepts v = acceptsAll schemas v := rfl

theorem acceptsAll_cons :
    acceptsAll (schema :: schemas) v = (schema.accepts v && acceptsAll schemas v) :=
  rfl

theorem accepts_type {name : JsonType} : (Schema.type name : Schema σ).accepts v = true ↔
    v.jsonType = name :=
  decide_eq_true_iff

theorem accepts_property {key : σ} : (property key schema).accepts v =
    v.members.all fun m => !decide (m.1 = key) || schema.accepts m.2 :=
  rfl

theorem accepts_required {keys : List σ} : (required keys).accepts v =
    (decide (v.jsonType ≠ .object) || keys.all fun key => (v.find key).isSome) :=
  rfl

theorem accepts_oneOf : (oneOf schemas).accepts v = (acceptedBy schemas v == 1) := rfl

theorem acceptedBy_cons : acceptedBy (schema :: schemas) v =
    (if schema.accepts v then 1 else 0) + acceptedBy schemas v :=
  rfl

end Schema

end Utilpp.Lib.Json
