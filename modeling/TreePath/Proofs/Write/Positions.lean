import TreePath.Proofs.Write.Removal
import TreePath.Proofs.Write.Landing

namespace TreePath

open TreeUpdate Json

namespace Json

section Locations

variable {t c v : Json} {key : ChildKey} {l : Location}

end Locations

end Json

section Reaching

variable (config : Config) {s : Segment} {p : Path} {t c : Json} {key : ChildKey}

end Reaching

section Sequences

variable (config : Config) {items : List Json} {i : Int64} {k : Nat} {v : Json}

end Sequences

section Resolving

end Resolving

end TreePath
