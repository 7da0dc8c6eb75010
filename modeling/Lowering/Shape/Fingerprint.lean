import Lowering.Shape.Encoding
import Lowering.Shape.Digest

namespace Lowering

namespace Tree

def fingerprint {α : Type} (t : Tree α) : UInt64 := Digest.ofBytes t.encode

end Tree

namespace Forest

def fingerprint (f : Forest) (id : Int) : Except Fault UInt64 := (f.tree id).map Tree.fingerprint

end Forest

end Lowering
