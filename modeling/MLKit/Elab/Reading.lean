import MLKit.Elab.Finding

/-!
# Walks that only read

`RecType.sort`, `RecType_eq` and the occurs checks follow links and change nothing else.
-/

namespace MLKit.Elab

open MLKit.Lib

instance : Trans Compressed Compressed Compressed := ⟨Compressed.trans⟩

variable {st : Store} {n : Nat} {ty : Typ} {r : RecType}

end MLKit.Elab
