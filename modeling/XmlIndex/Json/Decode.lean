import XmlIndex.Json.Reader

/-! # Types of JSON values

A decoder reads a value of one type, or refuses it.  A record is written as an object or as the
array of its fields.  In an object the fields stand in any order and each at most once, and
members with other names are passed over; but every member has to have a name that is text.

A field that is missing is seen as such by the reader of the record, which decides whether it
may be missing. -/

namespace XmlIndex

namespace Json

/-- Reads a value of one type. -/
abbrev Decoder (α : Type) := Json → Option α

/-- A string. -/
def text : Decoder String
  | .string text? => text?
  | _ => none

/-- A natural number below `bound`. -/
def natural (bound : Nat) : Decoder Nat
  | .number n => n.natural? bound
  | _ => none

/-- A natural number of 64 bits. -/
def word64 : Decoder Nat := natural UInt64.size

/-- A number of 32 bits. -/
def word32 (j : Json) : Option UInt32 := (natural UInt32.size j).map UInt32.ofNat

/-- A number of 16 bits. -/
def word16 (j : Json) : Option UInt16 := (natural UInt16.size j).map UInt16.ofNat

/-- A float. -/
def float : Decoder Float
  | .number n => n.float?
  | _ => none

/-- A list. -/
def listOf {α : Type} (item : Decoder α) : Decoder (List α)
  | .array items => items.mapM item
  | _ => none

/-- A value, or null for none. -/
def optional {α : Type} (value : Decoder α) : Decoder (Option α)
  | .null => some none
  | j => some <$> value j

/-- One of some named values: its name, or an object with its name and null. -/
def oneOf {α : Type} (ofName? : String → Option α) : Decoder α
  | .string (some name) => ofName? name
  -- A value without content may have its content written, as null.
  | .object [(some name, .null)] => ofName? name
  | _ => none

/-! ## Records -/

/-- The fields of a record, a missing one as none. -/
abbrev Fields := List (Option Json)

/-- The only member of that name; none twice over if there are several. -/
def member? (name : String) (members : List (Option String × Json)) : Option (Option Json) :=
  match members.filter fun m => m.1 == some name with
  | [] => some none
  | [m] => some (some m.2)
  | _ => none

/-- The fields with these names from the members of an object. -/
def fieldsOfMembers (names : List String) (members : List (Option String × Json)) :
    Option Fields :=
  if members.all fun m => m.1.isSome then names.mapM fun name => member? name members else none

/-- The fields of a record with these names. -/
def fields (names : List String) : Decoder Fields
  | .object members => fieldsOfMembers names members
  | .array items => if items.length = names.length then some (items.map some) else none
  | _ => none

/-- The fields of a record with these names; the last ones of an array may be missing. -/
def fieldsOrFewer (names : List String) : Decoder Fields
  | .object members => fieldsOfMembers names members
  | .array items =>
    if items.length ≤ names.length then
      some (items.map some ++ List.replicate (names.length - items.length) none)
    else none
  | _ => none

/-- A field that has to be there. -/
def required {α : Type} (value : Decoder α) (field : Option Json) : Option α :=
  field.bind value

/-- A field that stands for nothing when it is missing or null. -/
def absentOr {α : Type} (value : Decoder α) (field : Option Json) : Option (Option α) :=
  match field with
  | none => some none
  | some j => optional value j

/-- A field that has a value when it is missing. -/
def withDefault {α : Type} (default : α) (value : Decoder α) (field : Option Json) : Option α :=
  match field with
  | none => some default
  | some j => value j

end Json

end XmlIndex
