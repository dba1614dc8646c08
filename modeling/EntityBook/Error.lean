import EntityBook.Value.Entity

/-! # Errors of books

  Why a book, a registry or an accessor refuses an operation.
-/

namespace EntityBook

/-- The causes for which a store operation fails. -/
inductive StoreError where
  /-- No class is registered for the type. -/
  | unknownType (typeTag : TypeTag)
  /-- A class is registered for the type already. -/
  | duplicateType (typeTag : TypeTag)
  /-- The class of the type has no parameter of that name. -/
  | unknownParam (typeTag : TypeTag) (param : String)
  /-- The book does not hold the entity. -/
  | entityNotFound (entity : Entity)
  /-- The book holds the entity already. -/
  | alreadyPresent (entity : Entity)
  /-- The class of the type cannot make instances. -/
  | noConstructor (typeTag : TypeTag)
  /-- The null identifier cannot name a live entity. -/
  | nullGuid
  /-- The parameter cannot be written. -/
  | readOnly (param : String)
  /-- The value is not of the parameter's kind. -/
  | unsupported (param kind : String)
  /-- The accessor is made for another type of payload. -/
  | payloadMismatch (entity : Entity) (param : String)
  /-- The text is not a value of the parameter's kind. -/
  | invalidValue (param : String) (cause : ValueError)
  /-- There is no open edit to commit. -/
  | notEditing (entity : Entity)
  /-- The backend refused a commit. -/
  | rejected (reason : String)
  /-- The configuration cannot be read or written. -/
  | badConfig
  /-- A value that stands for no parameter. -/
  | value (cause : ValueError)
  deriving DecidableEq, Repr

namespace StoreError

/-- The wording of an error. -/
def message : StoreError → String
  | unknownType tag => "unknown entity type: " ++ tag
  | duplicateType tag => "entity type already registered: " ++ tag
  | unknownParam tag param => "unknown parameter " ++ tag ++ "." ++ param
  | entityNotFound e => "entity not found: " ++ e.text
  | alreadyPresent e => "entity already present: " ++ e.text
  | noConstructor tag => "entity type has no constructor: " ++ tag
  | nullGuid => "cannot create an entity with the null identifier"
  | readOnly param => "parameter is read-only: " ++ param
  | unsupported param kind => "unsupported value for parameter " ++ param ++ " of kind " ++ kind
  | payloadMismatch e param => "payload of " ++ e.text ++ " does not match parameter " ++ param
  | invalidValue param cause => "invalid value for parameter " ++ param ++ ": " ++ cause.message
  | notEditing e => "entity is not being edited: " ++ e.text
  | rejected reason => "backend error: " ++ reason
  | badConfig => "config error"
  | value cause => cause.message

end StoreError

end EntityBook
