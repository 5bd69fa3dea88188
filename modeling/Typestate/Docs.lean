/-!
Documentation as a list of fragments, one for each line. An empty fragment is a blank line.
-/

namespace Typestate

/-- Two runs of documentation with an empty fragment between them, if neither is empty. -/
def joinDocs (existing extra : List String) : List String :=
  if existing.isEmpty then extra
  else if extra.isEmpty then existing
  else existing ++ "" :: extra

end Typestate
