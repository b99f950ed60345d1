/-! # Identifiers

Registries name their entries by a namespace and a path.
-/

namespace Steel

/-- A name in a namespace. -/
structure Identifier where
  nameSpace : String
  path : String
  deriving DecidableEq

instance : ToString Identifier := ⟨fun id => id.nameSpace ++ ":" ++ id.path⟩

end Steel
