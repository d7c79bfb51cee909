/-!
What can go wrong. Each fault carries the words its message needs, so that the message is decided
where the fault is made and its wording is decided here.
-/

namespace DeclForest

inductive Fault where
  | invalidModifier (offending construct : String)
  | invalidClass (typeName expected : String)
  | illegalImport (member : String)
  | ownershipConflict (declaration current requested : String)
  | cyclicOwnership (declaration owner : String)
  | illegalOwner (declaration owner : String)
  | unknownDeclaration (name : String)
  | detachedDeclaration (declaration : String)
  | catalog (reason : String)
  deriving DecidableEq, Repr

namespace Fault

def message : Fault → String
  | invalidModifier offending construct =>
    "Invalid Modifier: `" ++ offending ++ "` is not allowed on " ++ construct
  | invalidClass typeName expected =>
    "Invalid Class: `" ++ typeName ++ "` cannot be used as " ++ expected
  | illegalImport member => "Illegal Import: `" ++ member ++ "` is not a static member"
  | ownershipConflict declaration current _ =>
    "Ownership Conflict: " ++ declaration ++ " is already owned by " ++ current
  | cyclicOwnership declaration owner =>
    "Cyclic Ownership: registering " ++ declaration ++ " at " ++ owner ++
      " would make it its own ancestor"
  | illegalOwner declaration owner =>
    "Illegal Owner: " ++ owner ++ " cannot hold " ++ declaration
  | unknownDeclaration name => "Unknown declaration " ++ name
  | detachedDeclaration declaration => "Detached declaration: " ++ declaration ++ " has no owner"
  | catalog reason => "Catalog error: " ++ reason

def code : Fault → String
  | invalidModifier .. => "model::invalid_modifier"
  | invalidClass .. => "model::invalid_class"
  | illegalImport .. => "model::illegal_import"
  | ownershipConflict .. => "model::ownership_conflict"
  | cyclicOwnership .. => "model::cyclic_ownership"
  | illegalOwner .. => "model::illegal_owner"
  | unknownDeclaration .. => "model::unknown_declaration"
  | detachedDeclaration .. => "model::detached_declaration"
  | catalog .. => "model::catalog"

def help? : Fault → Option String
  | invalidModifier .. =>
    some "Remove the offending modifier bits or use at most one visibility modifier."
  | invalidClass .. =>
    some "Class contexts accept only plain classes; interface contexts accept only interfaces."
  | illegalImport .. => some "Only members declared `static` can be imported with `import static`."
  | ownershipConflict .. =>
    some "A declaration can be registered at exactly one owner; create a new declaration instead."
  | illegalOwner .. =>
    some "Members belong to types; packages and imports belong to compilation units."
  | detachedDeclaration .. =>
    some "Register the declaration at a type before generating source for it."
  | cyclicOwnership .. | unknownDeclaration .. | catalog .. => none

end Fault

end DeclForest
